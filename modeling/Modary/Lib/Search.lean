import Mathlib.Order.Lattice
import Mathlib.Data.List.Nodup
import Mathlib.Order.Defs.LinearOrder

/-! # Binary search

`sort.Search` over a half-open interval, as Go's library writes it, and the lists it is complete
for: on a list without repetition the search finds every entry exactly when the list ascends
(`search_finds_iff`). -/

namespace Modary.Lib.Search

variable {α : Type*} [LinearOrder α]

/-- The loop of `sort.Search` on `[i, j)`: `less h` sends the search to the right of `h`. The first
argument bounds the number of rounds. -/
def searchLoop (less : ℕ → Bool) : ℕ → ℕ → ℕ → ℕ
  | 0, i, _ => i
  | fuel + 1, i, j =>
    if i < j then
      if less ((i + j) / 2) then searchLoop less fuel ((i + j) / 2 + 1) j
      else searchLoop less fuel i ((i + j) / 2)
    else i

/-- Entry `h` is below `x`. -/
def below (a : List α) (x : α) (h : ℕ) : Bool := (a[h]?).any (· < x)

/-- The position at which `sort.SearchStrings` would insert `x` in `a`. -/
def search (a : List α) (x : α) : ℕ := searchLoop (below a x) a.length 0 a.length

/-- The test written after a search: the entry found is `x`. -/
def contains (a : List α) (x : α) : Bool := a[search a x]? == some x

theorem mem_of_contains {a : List α} {x : α} (h : contains a x = true) : x ∈ a := by
  simp only [contains, beq_iff_eq] at h
  exact List.mem_of_getElem? h

theorem searchLoop_mem (less : ℕ → Bool) : ∀ (fuel i j : ℕ), i ≤ j →
    i ≤ searchLoop less fuel i j ∧ searchLoop less fuel i j ≤ j
  | 0, i, j, h => ⟨le_rfl, h⟩
  | fuel + 1, i, j, h => by
    unfold searchLoop
    split_ifs with h1 h2
    · obtain ⟨h3, h4⟩ := searchLoop_mem less fuel ((i + j) / 2 + 1) j (by omega)
      omega
    · obtain ⟨h3, h4⟩ := searchLoop_mem less fuel i ((i + j) / 2) (by omega)
      omega
    · exact ⟨le_rfl, h⟩

theorem below_eq {a : List α} {x : α} {h : ℕ} (hh : h < a.length) :
    below a x h = decide (a[h] < x) := by
  simp [below, hh]

/-- On an ascending stretch the loop ends at the entry it looks for. -/
theorem searchLoop_of_ascending {a : List α} (ha : a.Pairwise (· < ·)) :
    ∀ (fuel i j k : ℕ) (hk : k < a.length), i ≤ k → k ≤ j → j ≤ a.length → j - i ≤ fuel →
      searchLoop (below a a[k]) fuel i j = k
  | 0, i, j, k, hk, h1, h2, h3, h4 => by unfold searchLoop; omega
  | fuel + 1, i, j, k, hk, h1, h2, h3, h4 => by
    unfold searchLoop
    split_ifs with h5 h6
    · rw [below_eq (by omega), decide_eq_true_eq] at h6
      have hlt : (i + j) / 2 < k := by
        by_contra hc
        rcases Nat.lt_or_ge k ((i + j) / 2) with h7 | h7
        · exact absurd h6 (not_lt.mpr (le_of_lt (List.pairwise_iff_getElem.mp ha _ _ hk _ h7)))
        · have : (i + j) / 2 = k := by omega
          simp only [this, lt_self_iff_false] at h6
      exact searchLoop_of_ascending ha fuel _ _ k hk hlt h2 h3 (by omega)
    · rw [below_eq (by omega), decide_eq_true_eq] at h6
      have hle : k ≤ (i + j) / 2 := by
        by_contra hc
        exact h6 (List.pairwise_iff_getElem.mp ha _ _ _ hk (by omega))
      exact searchLoop_of_ascending ha fuel _ _ k hk h1 hle (by omega) (by omega)
    · omega

/-- If the loop ends at every entry it looks for, the stretch ascends. The search for `k + 1` and
the search for `k` part at `k`, so every comparison of neighbours is made by some search. -/
theorem ascending_of_searchLoop {a : List α} (ha : a.Nodup) :
    ∀ (fuel i j : ℕ), j ≤ a.length → j - i ≤ fuel →
      (∀ k (hk : k < a.length), i ≤ k → k < j → searchLoop (below a a[k]) fuel i j = k) →
      ∀ k l (hk : k < a.length) (hl : l < a.length), i ≤ k → k < l → l < j → a[k] < a[l]
  | 0, i, j, hj, hf, h, k, l, hk, hl, h1, h2, h3 => by omega
  | fuel + 1, i, j, hj, hf, h, k, l, hk, hl, h1, h2, h3 => by
    have hij : i < j := by omega
    have hm : (i + j) / 2 < a.length := by omega
    -- what one round says about entry `p`
    have round : ∀ p (hp : p < a.length), i ≤ p → p < j →
        (a[(i + j) / 2] < a[p] ∧ (i + j) / 2 < p ∧
          searchLoop (below a a[p]) fuel ((i + j) / 2 + 1) j = p) ∨
        (¬ a[(i + j) / 2] < a[p] ∧ p ≤ (i + j) / 2 ∧
          searchLoop (below a a[p]) fuel i ((i + j) / 2) = p) := by
      intro p hp hip hpj
      have hr := h p hp hip hpj
      unfold searchLoop at hr
      rw [if_pos hij, below_eq hm] at hr
      by_cases hc : a[(i + j) / 2] < a[p]
      · rw [if_pos (by simpa using hc)] at hr
        have := (searchLoop_mem (below a a[p]) fuel ((i + j) / 2 + 1) j (by omega)).1
        exact Or.inl ⟨hc, by omega, hr⟩
      · rw [if_neg (by simpa using hc)] at hr
        have := (searchLoop_mem (below a a[p]) fuel i ((i + j) / 2) (by omega)).2
        exact Or.inr ⟨hc, by omega, hr⟩
    have ne : ∀ p q (hp : p < a.length) (hq : q < a.length), p < q → a[p] ≠ a[q] := by
      intro p q hp hq hpq he
      have := (List.Nodup.getElem_inj_iff ha).mp he
      omega
    have left : ∀ p (hp : p < a.length), i ≤ p → p < (i + j) / 2 → a[p] < a[(i + j) / 2] := by
      intro p hp hip hpm
      rcases round p hp hip (by omega) with ⟨-, h5, -⟩ | ⟨h5, -, -⟩
      · omega
      · exact lt_of_le_of_ne (not_lt.mp h5) (ne _ _ hp hm hpm)
    have right : ∀ p (hp : p < a.length), (i + j) / 2 < p → p < j → a[(i + j) / 2] < a[p] := by
      intro p hp hmp hpj
      rcases round p hp (by omega) hpj with ⟨h5, -, -⟩ | ⟨-, h5, -⟩
      · exact h5
      · omega
    rcases Nat.lt_trichotomy l ((i + j) / 2) with hlm | hlm | hlm
    · refine ascending_of_searchLoop ha fuel i ((i + j) / 2) (by omega) (by omega) ?_
        k l hk hl h1 h2 hlm
      intro p hp hip hpm
      rcases round p hp hip (by omega) with ⟨-, h5, -⟩ | ⟨-, -, h5⟩
      · omega
      · exact h5
    · simp only [hlm]; exact left k hk h1 (by omega)
    · rcases Nat.lt_trichotomy k ((i + j) / 2) with hkm | hkm | hkm
      · exact lt_trans (left k hk h1 hkm) (right l hl hlm h3)
      · simp only [hkm]; exact right l hl hlm h3
      · refine ascending_of_searchLoop ha fuel ((i + j) / 2 + 1) j hj (by omega) ?_
          k l hk hl hkm h2 h3
        intro p hp hmp hpj
        rcases round p hp (by omega) hpj with ⟨-, -, h5⟩ | ⟨-, h5, -⟩
        · exact h5
        · omega

/-- **Completeness of the search**: without repetition, every entry is found exactly when the list
ascends. -/
theorem search_finds_iff {a : List α} (ha : a.Nodup) :
    (∀ x ∈ a, contains a x = true) ↔ a.Pairwise (· < ·) := by
  constructor
  · intro h
    rw [List.pairwise_iff_getElem]
    intro k l hk hl hkl
    refine ascending_of_searchLoop ha a.length 0 a.length le_rfl (by omega) ?_
      k l hk hl (Nat.zero_le _) hkl hl
    intro p hp _ _
    have hc := h a[p] (List.getElem_mem hp)
    simp only [contains, beq_iff_eq] at hc
    obtain ⟨hs, he⟩ := List.getElem?_eq_some_iff.mp hc
    exact (List.Nodup.getElem_inj_iff ha).mp he
  · intro h x hx
    obtain ⟨k, hk, rfl⟩ := List.getElem_of_mem hx
    simp only [contains, beq_iff_eq]
    rw [search, searchLoop_of_ascending h a.length 0 a.length k hk (Nat.zero_le _) hk.le le_rfl
      (by omega), List.getElem?_eq_getElem hk]

end Modary.Lib.Search
