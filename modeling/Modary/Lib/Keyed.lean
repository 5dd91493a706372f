import Mathlib.Data.List.Basic

/-! # Keyed tables

A table is a list of rows with a key. What a transaction has written lies over the committed rows:
its version of a row hides the committed one. -/

namespace Modary.Lib.Keyed

variable {κ α : Type*} [DecidableEq κ] (key : α → κ)

/-- The row of a key. -/
def lookup (k : κ) (rows : List α) : Option α := rows.find? fun row => key row = k

/-- The rows as a transaction sees them over its own writes. -/
def overlay (own rows : List α) : List α :=
  (rows.filter fun row => key row ∉ own.map key) ++ own

/-- The rows with one more write. -/
def put (row : α) (rows : List α) : List α := overlay key [row] rows

variable {key}

theorem lookup_some {k : κ} {rows : List α} {row : α} (h : lookup key k rows = some row) :
    row ∈ rows ∧ key row = k :=
  ⟨List.mem_of_find?_eq_some h, by simpa using List.find?_some h⟩

theorem lookup_eq_none {k : κ} {rows : List α} :
    lookup key k rows = none ↔ k ∉ rows.map key := by
  simp [lookup, List.find?_eq_none]

/-- **An own version hides the committed one.** -/
theorem lookup_overlay (k : κ) (own rows : List α) :
    lookup key k (overlay key own rows) = (lookup key k own).or (lookup key k rows) := by
  have hrows : lookup key k (rows.filter fun row => key row ∉ own.map key) =
      if k ∈ own.map key then none else lookup key k rows := by
    induction rows with
    | nil => simp [lookup]
    | cons row rows ih =>
      by_cases hk : key row = k
      · subst hk
        by_cases ho : key row ∈ own.map key
        · rw [List.filter_cons_of_neg (by simpa using ho), ih, if_pos ho, if_pos ho]
        · rw [List.filter_cons_of_pos (by simpa using ho), if_neg ho]
          simp [lookup]
      · have hskip : lookup key k (row :: rows) = lookup key k rows := by
          simp [lookup, hk]
        rw [hskip, ← ih]
        by_cases ho : key row ∈ own.map key
        · rw [List.filter_cons_of_neg (by simpa using ho)]
        · rw [List.filter_cons_of_pos (by simpa using ho)]
          simp [lookup, hk]
  have happend : lookup key k (overlay key own rows) =
      (lookup key k (rows.filter fun row => key row ∉ own.map key)).or (lookup key k own) := by
    simp only [lookup, overlay, List.find?_append]
  rw [happend, hrows]
  by_cases ho : k ∈ own.map key
  · rw [if_pos ho]
    have : lookup key k own ≠ none := fun hn => lookup_eq_none.mp hn ho
    obtain ⟨row, hrow⟩ := Option.ne_none_iff_exists'.mp this
    simp [hrow]
  · rw [if_neg ho, lookup_eq_none.mpr ho]
    simp

theorem lookup_put (k : κ) (row : α) (rows : List α) :
    lookup key k (put key row rows) = if key row = k then some row else lookup key k rows := by
  rw [put, lookup_overlay]
  by_cases h : key row = k
  · simp [lookup, h]
  · simp [lookup, h]

theorem keys_put {row : α} {rows : List α} {k : κ} :
    k ∈ (put key row rows).map key ↔ k = key row ∨ k ∈ rows.map key := by
  have hnone : k ∉ (put key row rows).map key ↔ ¬ (k = key row ∨ k ∈ rows.map key) := by
    rw [← lookup_eq_none, lookup_put, not_or, ← lookup_eq_none]
    by_cases h : key row = k
    · simp [h]
    · simp [h, Ne.symm h]
  exact not_iff_not.mp hnone

end Modary.Lib.Keyed
