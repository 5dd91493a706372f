import Modary.Lib.Codec
import Modary.Lib.GoText

/-! # Texts with their size in front

A text behind the number of its bytes. Nothing in it has to be escaped: the size says where it
ends. -/

namespace Modary.Lib.Codec

open Modary.Lib.GoText (byteLength)

/-- A text behind its size. -/
def encodeSized (text : List Char) : List Char :=
  encodeInt (byteLength text) ++ ':' :: text

theorem notDecimal_colon : NotDecimal ':' := ⟨by decide, by decide⟩

/-- Two texts of one size in front of something. -/
theorem append_inj_of_byteLength : ∀ {a b r s : List Char}, byteLength a = byteLength b →
    a ++ r = b ++ s → a = b ∧ r = s
  | [], [], _, _, _, h => ⟨rfl, h⟩
  | [], c :: cs, _, _, hsize, _ => by
    have hpos := Char.utf8Size_pos c
    simp only [byteLength, List.map_nil, List.map_cons, List.sum_nil, List.sum_cons] at hsize
    omega
  | c :: cs, [], _, _, hsize, _ => by
    have hpos := Char.utf8Size_pos c
    simp only [byteLength, List.map_nil, List.map_cons, List.sum_nil, List.sum_cons] at hsize
    omega
  | c :: cs, d :: ds, r, s, hsize, h => by
    rw [List.cons_append, List.cons_append, List.cons.injEq] at h
    obtain ⟨rfl, hrest⟩ := h
    have hsize' : byteLength cs = byteLength ds := by
      simp only [byteLength, List.map_cons, List.sum_cons] at hsize ⊢
      omega
    obtain ⟨rfl, hrs⟩ := append_inj_of_byteLength hsize' hrest
    exact ⟨rfl, hrs⟩

theorem encodeSized_selfDelimiting : SelfDelimiting encodeSized := by
  intro a b r s h
  simp only [encodeSized, List.append_assoc, List.cons_append] at h
  obtain ⟨hsize, -, hrest⟩ := encodeInt_delimitedBy _ _ _ _ _ _ notDecimal_colon notDecimal_colon h
  exact append_inj_of_byteLength (by exact_mod_cast hsize) hrest

end Modary.Lib.Codec
