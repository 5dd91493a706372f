import Mathlib.Data.List.Sort

/-! # Sorting by a key

`sort.Slice` and `sort.Strings` with a comparison of keys. The result is determined by the entries
alone when different entries have different keys, whichever algorithm sorts them (`sortOn_congr`). -/

namespace Modary.Lib.Sorting

variable {β γ : Type*} [LinearOrder γ]

/-- The entries in ascending order of their keys. -/
def sortOn (key : β → γ) (l : List β) : List β := l.insertionSort fun a b => key a ≤ key b

theorem sortOn_perm (key : β → γ) (l : List β) : (sortOn key l).Perm l :=
  List.perm_insertionSort _ l

@[simp] theorem mem_sortOn {key : β → γ} {l : List β} {a : β} : a ∈ sortOn key l ↔ a ∈ l :=
  (sortOn_perm key l).mem_iff

theorem sortOn_ascending (key : β → γ) (l : List β) :
    (sortOn key l).Pairwise fun a b => key a ≤ key b := by
  have : Std.Total fun a b => key a ≤ key b := ⟨fun a b => le_total (key a) (key b)⟩
  have : IsTrans β fun a b => key a ≤ key b := ⟨fun _ _ _ h₁ h₂ => le_trans h₁ h₂⟩
  exact List.pairwise_insertionSort _ l

/-- **Sorting forgets the order** of entries that their keys tell apart. -/
theorem sortOn_congr {key : β → γ} {l₁ l₂ : List β} (hp : l₁.Perm l₂)
    (hkey : ∀ a ∈ l₁, ∀ b ∈ l₁, key a = key b → a = b) : sortOn key l₁ = sortOn key l₂ := by
  have hsorted : (sortOn key l₁).Perm (sortOn key l₂) :=
    ((sortOn_perm key l₁).trans hp).trans (sortOn_perm key l₂).symm
  refine List.Perm.eq_of_pairwise ?_ (sortOn_ascending key l₁) (sortOn_ascending key l₂) hsorted
  intro a b ha hb hab hba
  have hb' : b ∈ l₁ := hp.mem_iff.mpr (mem_sortOn.mp hb)
  exact hkey a (mem_sortOn.mp ha) b hb' (le_antisymm hab hba)

end Modary.Lib.Sorting
