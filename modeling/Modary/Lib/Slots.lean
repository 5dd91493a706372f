import Mathlib.Data.List.Nodup

/-! # Slots

A list whose places are overwritten one at a time, and what every place contributes to an account of
all of them. -/

namespace Modary.Lib.Slots

variable {α β : Type*} {l : List α} {i : ℕ} {a : α}

theorem split_of_getElem? (h : l[i]? = some a) :
    ∃ before after, l = before ++ a :: after ∧ ∀ b, l.set i b = before ++ b :: after := by
  induction l generalizing i with
  | nil => cases h
  | cons c l ih =>
    cases i with
    | zero =>
      cases h
      exact ⟨[], l, rfl, fun b => rfl⟩
    | succ i =>
      obtain ⟨before, after, hl, hset⟩ := ih h
      refine ⟨c :: before, after, ?_, fun b => ?_⟩
      · rw [hl]
        rfl
      · rw [List.set_cons_succ, hset b]
        rfl

theorem mem_of_mem_set {b : α} (h : b ∈ l.set i a) : b = a ∨ b ∈ l :=
  (List.mem_or_eq_of_mem_set h).symm

/-- What is in a place or not, when the place is overwritten. -/
theorem mem_set_of_mem {b : α} (new : α) (hold : l[i]? = some a) (h : b ∈ l) :
    b = a ∨ b ∈ l.set i new := by
  obtain ⟨before, after, hl, hset⟩ := split_of_getElem? hold
  rw [hl, List.mem_append, List.mem_cons] at h
  rw [hset, List.mem_append, List.mem_cons]
  rcases h with h | rfl | h
  · exact .inr (.inl h)
  · exact .inl rfl
  · exact .inr (.inr (.inr h))

theorem mem_set_self {new : α} (hold : l[i]? = some a) : new ∈ l.set i new := by
  obtain ⟨before, after, -, hset⟩ := split_of_getElem? hold
  rw [hset]
  simp

/-- **An account loses what a place contributed and gains what it contributes now.** -/
theorem flatMap_set_perm (g : α → List β) (h : l[i]? = some a) :
    ∃ rest, (l.flatMap g).Perm (g a ++ rest) ∧ ∀ b, ((l.set i b).flatMap g).Perm (g b ++ rest) := by
  obtain ⟨before, after, hl, hset⟩ := split_of_getElem? h
  refine ⟨before.flatMap g ++ after.flatMap g, ?_, fun b => ?_⟩
  · rw [hl, List.flatMap_append, List.flatMap_cons, ← List.append_assoc, ← List.append_assoc]
    exact List.perm_append_comm.append_right _
  · rw [hset, List.flatMap_append, List.flatMap_cons, ← List.append_assoc, ← List.append_assoc]
    exact List.perm_append_comm.append_right _

/-- A place that contributes what it contributed before. -/
theorem flatMap_set_same (g : α → List β) (h : l[i]? = some a) {b : α} (hb : g b = g a) :
    ((l.set i b).flatMap g).Perm (l.flatMap g) := by
  obtain ⟨rest, hold, hnew⟩ := flatMap_set_perm g h
  have hset := hnew b
  rw [hb] at hset
  exact hset.trans hold.symm

/-- A count of places when one of them is overwritten. -/
theorem countP_set (p : α → Bool) (h : l[i]? = some a) (b : α) :
    (l.set i b).countP p + (if p a then 1 else 0) = l.countP p + (if p b then 1 else 0) := by
  obtain ⟨before, after, hl, hset⟩ := split_of_getElem? h
  rw [hset b, hl, List.countP_append, List.countP_append, List.countP_cons, List.countP_cons]
  omega

/-- Two places that are counted are one, when no more than one is. -/
theorem eq_of_countP_le_one {p : α → Bool} (h : l.countP p ≤ 1) {j : ℕ} {b : α} (hi : l[i]? = some a)
    (hj : l[j]? = some b) (ha : p a = true) (hb : p b = true) : i = j := by
  have hless : ∀ {i j : ℕ} {a b : α}, l[i]? = some a → l[j]? = some b → p a = true → p b = true →
      ¬ i < j := by
    intro i j a b hi hj ha hb hlt
    have hsplit := List.take_append_drop j l
    have htake : a ∈ l.take j := by
      refine List.mem_of_getElem? (i := i) ?_
      rw [List.getElem?_take_of_lt hlt]
      exact hi
    have hdrop : b ∈ l.drop j := by
      refine List.mem_of_getElem? (i := 0) ?_
      rw [List.getElem?_drop]
      exact hj
    have hfirst := List.countP_pos_iff.mpr ⟨a, htake, ha⟩
    have hsecond := List.countP_pos_iff.mpr ⟨b, hdrop, hb⟩
    rw [← hsplit, List.countP_append] at h
    omega
  have hij := hless hi hj ha hb
  have hji := hless hj hi hb ha
  omega

end Modary.Lib.Slots
