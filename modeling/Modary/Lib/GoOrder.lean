import Modary.Lib.GoText
import Modary.Lib.Sorting
import Mathlib.Data.Prod.Lex
import Mathlib.Data.List.Lex

/-! # The order of Go strings

Go compares strings byte by byte. What a Go string is kept as decides between two values with the same
bytes only, and no Go string has two; so the keys tell any two values apart. -/

namespace Modary.Lib.GoOrder

open Modary.Lib.GoText Modary.Lib.Sorting

/-- The bytes of a rune, or a stray byte. -/
def unitBytes : Char ⊕ UInt8 → List ℕ
  | .inl c => (String.utf8EncodeChar c).map UInt8.toNat
  | .inr byte => [byte.toNat]

/-- The bytes of a string. -/
def bytes : GoString → List ℕ
  | .utf8 s => s.toList.flatMap fun c => unitBytes (.inl c)
  | .raw units => units.flatMap unitBytes

/-- What a unit is kept as. -/
def unitNumber : Char ⊕ UInt8 → ℕ
  | .inl c => c.toNat
  | .inr byte => 0x110000 + byte.toNat

/-- What a string is kept as. -/
def kept : GoString → List ℕ
  | .utf8 s => s.toList.map Char.toNat
  | .raw units => 0x110000 :: units.map unitNumber

/-- The key of the order of Go on strings. -/
def order (value : GoString) : List ℕ ×ₗ List ℕ := toLex (bytes value, kept value)

theorem toNat_lt (c : Char) : c.toNat < 0x110000 := by
  have h := c.valid
  rw [UInt32.isValidChar, Nat.isValidChar] at h
  show c.val.toNat < 0x110000
  omega

theorem unitNumber_injective : Function.Injective unitNumber := by
  intro a b h
  rcases a with c | x <;> rcases b with d | y
  · exact congrArg Sum.inl (Char.toNat_inj.mp h)
  · have hc := toNat_lt c
    simp only [unitNumber] at h
    omega
  · have hd := toNat_lt d
    simp only [unitNumber] at h
    omega
  · simp only [unitNumber, Nat.add_left_cancel_iff] at h
    exact congrArg Sum.inr (UInt8.toNat_inj.mp h)

theorem kept_injective : Function.Injective kept := by
  intro a b h
  cases a with
  | utf8 s =>
    cases b with
    | utf8 t =>
      have hlist : s.toList = t.toList :=
        List.map_injective_iff.mpr (fun _ _ => Char.toNat_inj.mp) h
      exact congrArg GoString.utf8 (String.toList_injective hlist)
    | raw units =>
      simp only [kept] at h
      cases hs : s.toList with
      | nil => rw [hs] at h; cases h
      | cons c rest =>
        rw [hs] at h
        have hc := toNat_lt c
        have hhead := (List.cons.inj h).1
        omega
  | raw units =>
    cases b with
    | utf8 t =>
      simp only [kept] at h
      cases ht : t.toList with
      | nil => rw [ht] at h; cases h
      | cons c rest =>
        rw [ht] at h
        have hc := toNat_lt c
        have hhead := (List.cons.inj h).1
        omega
    | raw others =>
      have htail := (List.cons.inj h).2
      exact congrArg GoString.raw (List.map_injective_iff.mpr unitNumber_injective htail)

/-- **The order tells strings apart.** -/
theorem order_injective : Function.Injective order := by
  intro a b h
  exact kept_injective (Prod.mk.inj (toLex.injective h)).2

/-- Sorting strings forgets their order. -/
theorem sortOn_order_congr {l₁ l₂ : List GoString} (h : l₁.Perm l₂) : sortOn order l₁ = sortOn order l₂ :=
  sortOn_congr h fun _ _ _ _ hab => order_injective hab

end Modary.Lib.GoOrder
