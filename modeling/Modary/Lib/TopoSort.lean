import Mathlib.Logic.Relation
import Mathlib.Data.List.Nodup
import Mathlib.Data.List.Perm.Subperm

/-! # Topological sort by depth-first search

A search visits a node after the nodes it points to, and stops at the first edge that leads back
into the path it is on. On a finite graph `sort` succeeds exactly when there is no cycle
(`sort_ok_iff`), and then lists every node once, behind the nodes it points to (`sort_ordered`). -/

namespace Modary.Lib.TopoSort

open Relation

variable {α : Type*}

/-- A node is not seen yet, on the path, or finished. -/
inductive Mark
  | unseen
  | active
  | done
  deriving DecidableEq, Repr

/-- The state of a search: the marks, the path from its first node on, the finished nodes. -/
structure Search (α : Type*) where
  marks : α → Mark
  stack : List α
  order : List α

/-- Why a search stops: a cycle, as the nodes on it with the first one repeated, or the bound on the
depth. -/
inductive Stop (α : Type*)
  | cycle (nodes : List α)
  | exhausted
  deriving Repr

/-- Visit a node: first everything it points to. The first argument bounds the depth. -/
def visit [DecidableEq α] (succ : α → List α) : ℕ → α → Search α → Except (Stop α) (Search α)
  | 0, _, _ => .error .exhausted
  | fuel + 1, x, s =>
    match s.marks x with
    | .active => .error (.cycle (s.stack.drop (s.stack.idxOf x) ++ [x]))
    | .done => .ok s
    | .unseen => do
      let t ← (succ x).foldlM (fun t y => visit succ fuel y t)
        { s with marks := Function.update s.marks x .active, stack := s.stack ++ [x] }
      .ok
        { marks := Function.update t.marks x .done
          stack := t.stack.dropLast
          order := t.order ++ [x] }

/-- The search before its first visit. -/
def Search.start : Search α := ⟨fun _ => .unseen, [], []⟩

/-- Visit the nodes one after the other; the finished ones, in the order they were finished. -/
def sort [DecidableEq α] (succ : α → List α) (nodes : List α) : Except (Stop α) (List α) :=
  (nodes.foldlM (fun s x => visit succ (nodes.length + 1) x s) Search.start).map Search.order

/-! ### What a visit keeps -/

/-- The edges of the graph. -/
def Edge (succ : α → List α) (a b : α) : Prop := b ∈ succ a

/-- Every node stands behind the nodes it points to. -/
def Ordered (succ : α → List α) (order : List α) : Prop :=
  ∀ l₁ a l₂, order = l₁ ++ a :: l₂ → ∀ b ∈ succ a, b ∈ l₁

theorem Ordered.snoc {succ : α → List α} {order : List α} {x : α} (h : Ordered succ order)
    (hx : ∀ b ∈ succ x, b ∈ order) : Ordered succ (order ++ [x]) := by
  intro l₁ a l₂ he b hb
  rcases List.eq_nil_or_concat l₂ with rfl | ⟨l₃, z, rfl⟩
  · have he' : order ++ [x] = l₁ ++ [a] := by simpa using he
    obtain ⟨rfl, ha⟩ := List.append_inj' he' rfl
    have hxa : x = a := by simpa using ha
    subst hxa
    exact hx b hb
  · have he' : order ++ [x] = (l₁ ++ a :: l₃) ++ [z] := by simpa using he
    obtain ⟨ho, -⟩ := List.append_inj' he' rfl
    exact h l₁ a l₃ ho b hb

/-- The marks say where a node is, and the search stays inside the graph. -/
structure Sound (succ : α → List α) (nodes : List α) (s : Search α) : Prop where
  active : ∀ a, s.marks a = .active ↔ a ∈ s.stack
  done : ∀ a, s.marks a = .done ↔ a ∈ s.order
  stack_nodup : s.stack.Nodup
  order_nodup : s.order.Nodup
  stack_subset : s.stack ⊆ nodes
  order_subset : s.order ⊆ nodes
  ordered : Ordered succ s.order

theorem Sound.start {succ : α → List α} {nodes : List α} :
    Sound succ nodes (Search.start : Search α) := by
  refine ⟨by simp [Search.start], by simp [Search.start], List.nodup_nil, List.nodup_nil,
    List.nil_subset _, List.nil_subset _, ?_⟩
  intro l₁ a l₂ h
  simp [Search.start] at h

/-- What a visit that ends well has done, from the search `s` to the search `t`. -/
structure Extends (succ : α → List α) (nodes : List α) (s t : Search α) : Prop where
  sound : Sound succ nodes t
  stack : t.stack = s.stack
  order : s.order <+: t.order

theorem Extends.refl {succ : α → List α} {nodes : List α} {s : Search α}
    (h : Sound succ nodes s) : Extends succ nodes s s :=
  ⟨h, rfl, List.prefix_refl _⟩

theorem Extends.trans {succ : α → List α} {nodes : List α} {s t u : Search α}
    (h₁ : Extends succ nodes s t) (h₂ : Extends succ nodes t u) : Extends succ nodes s u :=
  ⟨h₂.sound, h₂.stack.trans h₁.stack, h₁.order.trans h₂.order⟩

/-- A visit of `xs` ends well with all of them finished, or has found a cycle. -/
def Visited (succ : α → List α) (nodes : List α) (s : Search α) (xs : List α) :
    Except (Stop α) (Search α) → Prop
  | .ok t => Extends succ nodes s t ∧ ∀ x ∈ xs, x ∈ t.order
  | .error .exhausted => False
  | .error (.cycle _) => ∃ a, TransGen (Edge succ) a a

section
variable {succ : α → List α} {nodes : List α}

/-- Visits one after the other, each of them from a search with the same path. -/
theorem visited_foldlM {f : Search α → α → Except (Stop α) (Search α)} {stack : List α} :
    ∀ (xs : List α) (s : Search α), Sound succ nodes s → s.stack = stack →
      (∀ x ∈ xs, ∀ t, Sound succ nodes t → t.stack = stack →
        Visited succ nodes t [x] (f t x)) →
      Visited succ nodes s xs (xs.foldlM f s)
  | [], s, hs, _, _ => ⟨.refl hs, by simp⟩
  | x :: xs, s, hs, he, hf => by
    have hx := hf x List.mem_cons_self s hs he
    rw [List.foldlM_cons]
    cases hr : f s x with
    | error stop =>
      rw [hr] at hx
      cases stop with
      | cycle _ => exact hx
      | exhausted => exact hx.elim
    | ok t =>
      rw [hr] at hx
      obtain ⟨hst, hxt⟩ := hx
      have ht : t.stack = stack := hst.stack.trans he
      have ih := visited_foldlM xs t hst.sound ht
        (fun y hy => hf y (List.mem_cons_of_mem _ hy))
      show Visited succ nodes s (x :: xs) (xs.foldlM f t)
      cases hu : xs.foldlM f t with
      | error stop =>
        rw [hu] at ih
        cases stop with
        | cycle _ => exact ih
        | exhausted => exact ih
      | ok u =>
        rw [hu] at ih
        obtain ⟨htu, hall⟩ := ih
        refine ⟨hst.trans htu, ?_⟩
        intro y hy
        rcases List.mem_cons.mp hy with rfl | hy
        · exact htu.order.subset (hxt y (by simp))
        · exact hall y hy

variable [DecidableEq α]

/-- An unseen node put on the path. -/
theorem Sound.push {s : Search α} {x : α} (hs : Sound succ nodes s) (hx : x ∈ nodes)
    (hm : s.marks x = .unseen) :
    Sound succ nodes
      { s with marks := Function.update s.marks x .active, stack := s.stack ++ [x] } := by
  have hns : x ∉ s.stack := by
    intro h
    rw [(hs.active x).mpr h] at hm
    cases hm
  have hno : x ∉ s.order := by
    intro h
    rw [(hs.done x).mpr h] at hm
    cases hm
  refine ⟨?_, ?_, ?_, hs.order_nodup, ?_, hs.order_subset, hs.ordered⟩
  · intro a
    by_cases ha : a = x
    · subst ha
      simp
    · simp [hs.active a, ha]
  · intro a
    by_cases ha : a = x
    · subst ha
      simp [hno]
    · simp [Function.update_of_ne ha, hs.done a]
  · rw [List.nodup_append]
    refine ⟨hs.stack_nodup, List.nodup_singleton x, ?_⟩
    intro a ha b hb
    rw [List.mem_singleton] at hb
    rintro rfl
    exact hns (hb ▸ ha)
  · intro a ha
    rcases List.mem_append.mp ha with ha | ha
    · exact hs.stack_subset ha
    · rw [List.mem_singleton] at ha
      exact ha ▸ hx

/-- The last node of the path finished, once everything it points to is. -/
theorem Sound.pop {t : Search α} {stack : List α} {x : α} (ht : Sound succ nodes t)
    (hst : t.stack = stack ++ [x]) (hx : ∀ b ∈ succ x, b ∈ t.order) :
    Sound succ nodes
      { marks := Function.update t.marks x .done
        stack := t.stack.dropLast
        order := t.order ++ [x] } := by
  have hdrop : t.stack.dropLast = stack := by simp [hst]
  have hxs : x ∈ t.stack := by simp [hst]
  have hnd : (stack ++ [x]).Nodup := hst ▸ ht.stack_nodup
  obtain ⟨hnd₁, -, hdisj⟩ := List.nodup_append.mp hnd
  have hno : x ∉ t.order := by
    intro h
    have := (ht.done x).mpr h
    rw [(ht.active x).mpr hxs] at this
    cases this
  refine ⟨?_, ?_, ?_, ?_, ?_, ?_, ht.ordered.snoc hx⟩
  · intro a
    simp only [hdrop]
    by_cases ha : a = x
    · subst ha
      have hns : a ∉ stack := fun h => hdisj a h a (by simp) rfl
      simp [hns]
    · rw [Function.update_of_ne ha, ht.active a, hst]
      simp [ha]
  · intro a
    by_cases ha : a = x
    · subst ha
      simp
    · simp [ht.done a, ha]
  · simp only [hdrop]
    exact hnd₁
  · rw [List.nodup_append]
    refine ⟨ht.order_nodup, List.nodup_singleton x, ?_⟩
    intro a ha b hb
    rw [List.mem_singleton] at hb
    rintro rfl
    exact hno (hb ▸ ha)
  · exact List.Subset.trans (List.dropLast_subset _) ht.stack_subset
  · intro a ha
    rcases List.mem_append.mp ha with ha | ha
    · exact ht.order_subset ha
    · rw [List.mem_singleton] at ha
      exact ha ▸ ht.stack_subset hxs

/-- **A visit** of a node that every node on the path leads to. The path has no repetition, so a bound
that exceeds what is left of the graph is never met. -/
theorem visited_visit (hclosed : ∀ a, ∀ b ∈ succ a, b ∈ nodes) : ∀ (fuel : ℕ) (x : α)
    (s : Search α), Sound succ nodes s → x ∈ nodes →
      (∀ a ∈ s.stack, TransGen (Edge succ) a x) → nodes.length < fuel + s.stack.length →
      Visited succ nodes s [x] (visit succ fuel x s)
  | 0, x, s, hs, _, _, hfuel => by
    have hle := (List.subperm_of_subset hs.stack_nodup hs.stack_subset).length_le
    omega
  | fuel + 1, x, s, hs, hx, hpath, hfuel => by
    unfold visit
    cases hm : s.marks x with
    | active => exact ⟨x, hpath x ((hs.active x).mp hm)⟩
    | done => exact ⟨.refl hs, by simpa using (hs.done x).mp hm⟩
    | unseen =>
      have hpush := hs.push hx hm
      -- every node on the longer path leads to each successor of `x`
      have hfold := visited_foldlM (f := fun t y => visit succ fuel y t) (succ x) _ hpush rfl
        (by
          intro y hy t ht hst
          refine visited_visit hclosed fuel y t ht (hclosed x y hy) ?_ ?_
          · intro a ha
            rw [hst] at ha
            rcases List.mem_append.mp ha with ha | ha
            · exact (hpath a ha).tail hy
            · rw [List.mem_singleton] at ha
              exact ha ▸ .single hy
          · simp only [hst, List.length_append, List.length_singleton]
            omega)
      simp only
      cases hr : (succ x).foldlM (fun t y => visit succ fuel y t)
          { s with marks := Function.update s.marks x .active, stack := s.stack ++ [x] } with
      | error stop =>
        rw [hr] at hfold
        cases stop with
        | cycle _ => exact hfold
        | exhausted => exact hfold
      | ok t =>
        rw [hr] at hfold
        obtain ⟨hext, hall⟩ := hfold
        refine ⟨⟨hext.sound.pop hext.stack hall, ?_, ?_⟩, by simp⟩
        · simp [hext.stack]
        · exact hext.order.trans (List.prefix_append _ _)

/-! ### The sort -/

theorem visited_sort (hclosed : ∀ a, ∀ b ∈ succ a, b ∈ nodes) :
    Visited succ nodes Search.start nodes
      (nodes.foldlM (fun s x => visit succ (nodes.length + 1) x s) Search.start) := by
  have hempty : (Search.start : Search α).stack = [] := rfl
  refine visited_foldlM nodes _ Sound.start hempty ?_
  intro x hx t ht hst
  refine visited_visit hclosed _ x t ht hx ?_ ?_
  · simp [hst]
  · omega

/-- An ordered list without repetition ranks the nodes: edges lead downwards. -/
theorem Ordered.idxOf_lt {order : List α} (h : Ordered succ order) {a b : α} (ha : a ∈ order)
    (hb : b ∈ succ a) : order.idxOf b < order.idxOf a := by
  obtain ⟨l₁, l₂, he, hn⟩ := List.eq_append_cons_of_mem ha
  have hb₁ : b ∈ l₁ := h l₁ a l₂ he b hb
  have h₁ : order.idxOf b < l₁.length := by
    rw [he, List.idxOf_append_of_mem hb₁]
    exact List.idxOf_lt_length_iff.mpr hb₁
  have h₂ : order.idxOf a = l₁.length := by
    rw [he, List.idxOf_append_of_notMem hn]
    simp
  omega

/-- **What the sort returns** lists every node once, behind the nodes it points to. -/
theorem sort_ordered (hclosed : ∀ a, ∀ b ∈ succ a, b ∈ nodes) (hnd : nodes.Nodup)
    {order : List α} (h : sort succ nodes = .ok order) :
    order.Perm nodes ∧ Ordered succ order := by
  have hv := visited_sort hclosed
  unfold sort at h
  cases hr : nodes.foldlM (fun s x => visit succ (nodes.length + 1) x s) Search.start with
  | error stop =>
    rw [hr] at h
    cases h
  | ok t =>
    rw [hr] at hv h
    obtain ⟨hext, hall⟩ := hv
    cases h
    refine ⟨?_, hext.sound.ordered⟩
    exact (List.perm_ext_iff_of_nodup hext.sound.order_nodup hnd).mpr
      fun a => ⟨fun ha => hext.sound.order_subset ha, hall a⟩

/-- **The sort succeeds exactly when the graph has no cycle.** -/
theorem sort_ok_iff (hclosed : ∀ a, ∀ b ∈ succ a, b ∈ nodes)
    (hin : ∀ a, ∀ b ∈ succ a, a ∈ nodes) (hnd : nodes.Nodup) :
    (∃ order, sort succ nodes = .ok order) ↔ ∀ a, ¬ TransGen (Edge succ) a a := by
  constructor
  · rintro ⟨order, h⟩ a hcycle
    obtain ⟨hp, ho⟩ := sort_ordered hclosed hnd h
    have hlt : ∀ b, TransGen (Edge succ) a b → order.idxOf b < order.idxOf a := by
      intro b hb
      induction hb with
      | single hb => exact ho.idxOf_lt (hp.mem_iff.mpr (hin _ _ hb)) hb
      | tail _ hb ih =>
        have := ho.idxOf_lt (hp.mem_iff.mpr (hin _ _ hb)) hb
        omega
    have := hlt a hcycle
    omega
  · intro hacyclic
    have hv := visited_sort hclosed
    unfold sort
    cases hr : nodes.foldlM (fun s x => visit succ (nodes.length + 1) x s) Search.start with
    | error stop =>
      rw [hr] at hv
      cases stop with
      | cycle _ =>
        obtain ⟨a, ha⟩ := hv
        exact absurd ha (hacyclic a)
      | exhausted => exact hv.elim
    | ok t => exact ⟨t.order, rfl⟩

end

end Modary.Lib.TopoSort
