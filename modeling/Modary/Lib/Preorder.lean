import Mathlib.Data.List.ReduceOption
import Modary.Lib.Traversal

/-! # The unfolding of a graph in preorder

A graph that may be infinite or cyclic is unfolded into a tree, a node before its children. Of the
unfolding to a depth the first entries do not depend on the depth, once it is no less than their
number; nor do they on the children of a node behind that many. -/

namespace Modary.Lib.Preorder

variable {ν : Type*} (children : ν → List (Option ν))

/-- The unfolding below an entry, to a depth. An entry without a node has nothing below. -/
def preorder : ℕ → Option ν → List (Option ν)
  | 0, _ => []
  | _ + 1, none => [none]
  | depth + 1, some x => some x :: (children x).flatMap (preorder depth)

variable {children}

/-! ### Prefixes -/

theorem take_append_congr {α : Type*} {n : ℕ} {a a' b b' : List α} (ha : a.take n = a'.take n)
    (hb : b.take n = b'.take n) : (a ++ b).take n = (a' ++ b').take n := by
  have hlength : min n a.length = min n a'.length := by
    rw [← List.length_take, ← List.length_take, ha]
  rw [List.take_append, List.take_append, ha]
  rcases Nat.lt_or_ge a.length n with hlt | hge
  · have hsame : a.length = a'.length := by omega
    have hless := congrArg (List.take (n - a.length)) hb
    rw [List.take_take, List.take_take, Nat.min_eq_left (Nat.sub_le _ _)] at hless
    rw [← hsame, hless]
  · have hzero : n - a.length = 0 := by omega
    have hzero' : n - a'.length = 0 := by omega
    rw [hzero, hzero', List.take_zero, List.take_zero]

theorem take_flatMap_congr {α β : Type*} {n : ℕ} {f g : α → List β} {l : List α}
    (h : ∀ a ∈ l, (f a).take n = (g a).take n) :
    (l.flatMap f).take n = (l.flatMap g).take n := by
  induction l with
  | nil => rfl
  | cons a l ih =>
    rw [List.flatMap_cons, List.flatMap_cons]
    exact take_append_congr (h a List.mem_cons_self) (ih fun b hb => h b (List.mem_cons_of_mem _ hb))

/-- What each gives something for, the first few give enough of. -/
theorem take_flatMap_take {α β : Type*} {f : α → List β} (hf : ∀ a, f a ≠ []) (n : ℕ) :
    ∀ l : List α, ((l.take n).flatMap f).take n = (l.flatMap f).take n := by
  induction n with
  | zero =>
    intro l
    rw [List.take_zero, List.take_zero]
  | succ n ih =>
    intro l
    cases l with
    | nil => rfl
    | cons a l =>
      obtain ⟨b, rest, hrest⟩ := List.exists_cons_of_ne_nil (hf a)
      rw [List.take_succ_cons, List.flatMap_cons, List.flatMap_cons, hrest, List.cons_append,
        List.cons_append, List.take_succ_cons, List.take_succ_cons]
      exact congrArg (b :: ·) (take_append_congr rfl (ih l))

/-! ### The first entries -/

theorem preorder_ne_nil (depth : ℕ) (entry : Option ν) : preorder children (depth + 1) entry ≠ [] := by
  cases entry with
  | none => simp [preorder]
  | some x => simp [preorder]

/-- **The first entries do not depend on the depth.** -/
theorem take_preorder (n : ℕ) : ∀ {depth depth' : ℕ}, n ≤ depth → n ≤ depth' →
    ∀ entry : Option ν, (preorder children depth entry).take n =
      (preorder children depth' entry).take n := by
  induction n with
  | zero =>
    intro depth depth' _ _ entry
    rw [List.take_zero, List.take_zero]
  | succ n ih =>
    intro depth depth' h h' entry
    obtain ⟨depth, rfl⟩ : ∃ d, depth = d + 1 := ⟨depth - 1, by omega⟩
    obtain ⟨depth', rfl⟩ : ∃ d, depth' = d + 1 := ⟨depth' - 1, by omega⟩
    cases entry with
    | none => rfl
    | some x =>
      rw [preorder, preorder, List.take_succ_cons, List.take_succ_cons]
      refine congrArg (some x :: ·) (take_flatMap_congr fun child _ => ?_)
      exact ih (by omega) (by omega) child

/-- A list of entries, unfolded one after the other: the first of them is taken off, and its
children come before the others, no more of them than entries are left. -/
theorem take_flatMap_preorder {n depth : ℕ} (h : n < depth) (x : ν) {kept : List (Option ν)}
    (hkept : kept.take n = (children x).take n) (rest : List (Option ν)) :
    ((some x :: rest).flatMap (preorder children depth)).take (n + 1) =
      some x :: ((kept.take n ++ rest).flatMap (preorder children depth)).take n := by
  obtain ⟨depth, rfl⟩ : ∃ d, depth = d + 1 := ⟨depth - 1, by omega⟩
  rw [List.flatMap_cons, preorder, List.cons_append, List.take_succ_cons, List.flatMap_append, hkept]
  refine congrArg (some x :: ·) (take_append_congr ?_ rfl)
  rw [take_flatMap_take (preorder_ne_nil depth)]
  exact take_flatMap_congr fun child _ => take_preorder n (by omega) (by omega) child

theorem take_flatMap_none {n depth : ℕ} (h : n < depth) (rest : List (Option ν)) :
    ((none :: rest).flatMap (preorder children depth)).take (n + 1) =
      none :: (rest.flatMap (preorder children depth)).take n := by
  obtain ⟨depth, rfl⟩ : ∃ d, depth = d + 1 := ⟨depth - 1, by omega⟩
  rw [List.flatMap_cons, preorder, List.cons_append, List.nil_append, List.take_succ_cons]

/-! ### Walks -/

/-- An entry of a walk that skips some. -/
def entryOf (skip : ν → Bool) (x : ν) : Option ν := if skip x then none else some x

/-- **A bounded walk meets the nodes among the first entries.** -/
theorem visit_eq (next : ν → List ν) (skip : ν → Bool) (depth : ℕ) : ∀ (n : ℕ) (stack : List ν),
    n ≤ depth → Traversal.visit next skip n stack =
      (((stack.map (entryOf skip)).flatMap
        (preorder (fun x => (next x).map (entryOf skip)) depth)).take n).reduceOption := by
  intro n
  induction n with
  | zero =>
    intro stack _
    rw [List.take_zero]
    rfl
  | succ n ih =>
    intro stack h
    cases stack with
    | nil => rfl
    | cons x stack =>
      rw [List.map_cons]
      by_cases hx : skip x = true
      · rw [Traversal.visit_skip hx, entryOf, if_pos hx, take_flatMap_none (by omega),
          List.reduceOption_cons_of_none]
        exact ih stack (by omega)
      · have hkept := (List.map_take (f := entryOf skip) (l := next x) (i := n)).symm
        rw [Traversal.visit_cons (by simpa using hx), entryOf, if_neg hx,
          take_flatMap_preorder (by omega) x rfl, List.reduceOption_cons_of_some,
          ih _ (by omega), List.map_append, hkept]

end Modary.Lib.Preorder
