import Mathlib.Algebra.BigOperators.Group.Finset.Basic
import Mathlib.Algebra.Order.BigOperators.Group.Finset
import Mathlib.Data.Finset.Lattice.Fold
import Mathlib.Data.Set.Finite.Basic
import Mathlib.Logic.Relation
import Mathlib.Order.Lattice.Nat

/-! # Expansion counts

A graph with edges of two kinds: an expansion follows every edge of the first kind from where it is,
and at most one of the second. The visits that it makes at most are finitely many when and only when
there is no cycle. -/

namespace Modary.Lib.Expansion

variable {α : Type*} (always option : α → α → Prop)

/-- An edge of either kind. -/
def Follows (a b : α) : Prop := always a b ∨ option a b

/-- An expansion makes at most so many visits. -/
inductive Visits : α → ℕ → Prop
  | intro {a : α} (cost : α → ℕ) (every options : Finset α) (hevery : ∀ b, b ∈ every ↔ always a b)
      (hoptions : ∀ b, b ∈ options ↔ option a b)
      (h : ∀ b, always a b ∨ option a b → Visits b (cost b)) :
      Visits a (1 + every.sum cost + options.sup cost)

variable {always option}

/-- The visits are a number. -/
theorem Visits.unique {a : α} {n : ℕ} (h : Visits always option a n) :
    ∀ {m : ℕ}, Visits always option a m → n = m := by
  induction h with
  | intro cost every options hevery hoptions _ ih =>
    intro m hm
    cases hm with
    | intro cost' every' options' hevery' hoptions' h' =>
      have hsame : every = every' := Finset.ext fun b => (hevery b).trans (hevery' b).symm
      have hsame' : options = options' := Finset.ext fun b => (hoptions b).trans (hoptions' b).symm
      subst hsame hsame'
      have hsum : every.sum cost = every.sum cost' := Finset.sum_congr rfl fun b hb =>
        ih b (.inl ((hevery b).mp hb)) (h' b (.inl ((hevery b).mp hb)))
      have hsup : options.sup cost = options.sup cost' := Finset.sup_congr rfl fun b hb =>
        ih b (.inr ((hoptions b).mp hb)) (h' b (.inr ((hoptions b).mp hb)))
      rw [hsum, hsup]

/-- A function that gives the visits where they are a number. -/
theorem exists_cost (always option : α → α → Prop) :
    ∃ cost : α → ℕ, ∀ a n, Visits always option a n → cost a = n := by
  have hcost : ∀ a, ∃ m, ∀ n, Visits always option a n → m = n := by
    intro a
    by_cases h : ∃ n, Visits always option a n
    · obtain ⟨n, hn⟩ := h
      exact ⟨n, fun m hm => hn.unique hm⟩
    · exact ⟨0, fun n hn => absurd ⟨n, hn⟩ h⟩
  choose cost hcost using hcost
  exact ⟨cost, hcost⟩

/-- An edge leads to fewer visits. -/
theorem Visits.lt {a b : α} {n : ℕ} (h : Visits always option a n) (hedge : Follows always option a b) :
    ∃ m, Visits always option b m ∧ m < n := by
  cases h with
  | intro cost every options hevery hoptions h =>
    refine ⟨cost b, h b hedge, ?_⟩
    rcases hedge with hb | hb
    · have hle : cost b ≤ every.sum cost :=
        Finset.single_le_sum (fun _ _ => Nat.zero_le _) ((hevery b).mpr hb)
      omega
    · have hle : cost b ≤ options.sup cost := Finset.le_sup ((hoptions b).mpr hb)
      omega

/-- Where the visits are a number, the expansion ends. -/
theorem Visits.acc {a : α} {n : ℕ} (h : Visits always option a n) :
    Acc (fun b a => Follows always option a b) a := by
  induction h with
  | intro cost every options hevery hoptions _ ih => exact Acc.intro _ fun b hb => ih b hb

/-- Where the expansion ends there is no cycle. -/
theorem not_cycle_of_acc {R : α → α → Prop} {a : α} (h : Acc (fun b a => R a b) a) :
    ¬ Relation.TransGen R a a := by
  induction h with
  | intro a _ ih =>
    intro hcycle
    obtain ⟨b, hb, hback⟩ := Relation.TransGen.head'_iff.mp hcycle
    exact ih b hb (Relation.TransGen.tail' hback hb)

/-- **Without a cycle the expansion ends**, in a finite part that no edge leaves. -/
theorem acc_of_not_cycle {R : α → α → Prop} {S : Finset α} (hclosed : ∀ a ∈ S, ∀ b, R a b → b ∈ S)
    (hcycle : ∀ a ∈ S, ¬ Relation.TransGen R a a) : ∀ a ∈ S, Acc (fun b a => R a b) a := by
  let below : S → S → Prop := fun b a => Relation.TransGen R a.1 b.1
  have htrans : IsTrans S below := ⟨fun _ _ _ hab hbc => Relation.TransGen.trans hbc hab⟩
  have hirrefl : Std.Irrefl below := ⟨fun a => hcycle a.1 a.2⟩
  have hwell : WellFounded below := Finite.wellFounded_of_trans_of_irrefl below
  intro a ha
  induction h : (⟨a, ha⟩ : S) using hwell.induction generalizing a with
  | _ x ih =>
    subst h
    refine Acc.intro _ fun b hb => ?_
    exact ih ⟨b, hclosed a ha b hb⟩ (Relation.TransGen.single hb) b (hclosed a ha b hb) rfl

/-- Where the expansion ends, its visits are a number. -/
theorem exists_visits {S : Finset α}
    (hclosed : ∀ a ∈ S, ∀ b, Follows always option a b → b ∈ S) {a : α} (ha : a ∈ S)
    (h : Acc (fun b a => Follows always option a b) a) : ∃ n, Visits always option a n := by
  classical
  induction h with
  | intro a _ ih =>
    have hcost : ∀ b, ∃ n, Follows always option a b → Visits always option b n := by
      intro b
      by_cases hb : Follows always option a b
      · obtain ⟨n, hn⟩ := ih b hb (hclosed a ha b hb)
        exact ⟨n, fun _ => hn⟩
      · exact ⟨0, fun h => absurd h hb⟩
    choose cost hcost using hcost
    refine ⟨_, Visits.intro cost (S.filter (always a)) (S.filter (option a)) ?_ ?_ hcost⟩
    · intro b
      rw [Finset.mem_filter]
      exact ⟨And.right, fun hb => ⟨hclosed a ha b (.inl hb), hb⟩⟩
    · intro b
      rw [Finset.mem_filter]
      exact ⟨And.right, fun hb => ⟨hclosed a ha b (.inr hb), hb⟩⟩

/-! ### Calls with an argument -/

/-- **A recursion ends** that makes its argument smaller with each call, or keeps it and goes along
an edge: the measure is the size of the argument, then the expansion. -/
theorem acc_calls {β : Type*} {R : α → α → Prop} {calls : α × β → α × β → Prop} (size : β → ℕ)
    {good : α → Prop} (hacc : ∀ a, good a → Acc (fun b a => R a b) a)
    (hcalls : ∀ x y, good x.1 → calls x y → good y.1 ∧
      (size y.2 < size x.2 ∨ (y.2 = x.2 ∧ R x.1 y.1))) :
    ∀ (a : α) (v : β), good a → Acc (fun y x => calls x y) (a, v) := by
  intro a v
  induction hsize : size v using Nat.strong_induction_on generalizing a v with
  | h n smaller =>
    intro hgood
    induction hacc a hgood with
    | intro a _ along =>
      refine Acc.intro _ ?_
      rintro ⟨b, w⟩ hcall
      obtain ⟨hgood', hless | ⟨rfl, hedge⟩⟩ := hcalls (a, v) (b, w) hgood hcall
      · exact smaller (size w) (hsize ▸ hless) b w rfl hgood'
      · exact along b hedge hgood'

end Modary.Lib.Expansion
