import Modary.Action.Decoding
import Modary.Action.Persistence
import Modary.Lib.JsonDelimited

/-! # The documents of actions

`jsonvalue.Decode` goes over the tokens of a document; the canonical form is defined by a reading of
the whole text. The two return the same values, so `ValidateJSONDocument` takes what
`decodeSingleJSON` decodes. -/

namespace Modary.Action.Documents

open Modary.Lib.GoText Modary.Lib.JsonText Modary.Lib.JsonDecoder Modary.Action.Errors
open Modary.Lib.JsonValue hiding Limits
open Modary.Action.Canonical hiding decode
open Modary.Action.Decoding Modary.Action.Types Modary.Action.Persistence

/-! ### One text, two readings -/

/-- `Decode` on the runes and stray bytes of a Go string. -/
def decodeRunes (text : List Rune) (limits : Limits) : Except DecodeError Value := do
  validateLimits limits
  refuseIf (limits.maxBytes < byteSize text) (.limit "bytes" limits.maxBytes)
  refuseIf (text = []) (.failed "JSON document is empty")
  refuseIf (text.any Sum.isRight = true) (.failed "JSON document is not valid UTF-8")
  decodeText limits text

theorem size_utf8Encode (text : List Char) : text.utf8Encode.size = byteLength text := by
  induction text with
  | nil => rfl
  | cons c text ih =>
    rw [List.utf8Encode_cons, ByteArray.size_append, ih, List.utf8Encode_singleton,
      List.size_toByteArray, String.length_utf8EncodeChar, byteLength, byteLength, List.map_cons,
      List.sum_cons]

theorem byteSize_runes (text : String) : byteSize (runes text) = text.toByteArray.size := by
  rw [← String.utf8Encode_toList, size_utf8Encode, byteSize, runes, List.map_map]
  rfl

/-- On text it is `Decode` on the bytes of the text. -/
theorem decodeRunes_runes (text : String) (limits : Limits) :
    decodeRunes (runes text) limits = decode text.toByteArray limits := by
  have hvalid : ¬ (runes text).any Sum.isRight = true := by simp [runes]
  have hempty : runes text = [] ↔ text.toByteArray.size = 0 := by
    rw [runes, List.map_eq_nil_iff, String.toList_eq_nil_iff]
    exact String.utf8ByteSize_eq_zero_iff.symm
  unfold decodeRunes decode
  rw [byteSize_runes, fromUTF8?_eq_some.mpr rfl]
  simp only [hempty]
  rw [refuseIf_bind hvalid]

/-- The limits on a document and on its numbers. -/
def limitsOf (limits : Lib.JsonValue.Limits) (maxNumberBytes : ℕ) : Limits :=
  ⟨limits.maxBytes, limits.maxDepth, limits.maxNodes, maxNumberBytes⟩

theorem numberFits_limitsOf (limits : Lib.JsonValue.Limits) (maxNumberBytes : ℕ) :
    numberFits (limitsOf limits maxNumberBytes) = fun n => decide (n.text.length ≤ maxNumberBytes) := by
  funext n
  exact decide_eq_decide.mpr Int.ofNat_le

/-- **What goes over the tokens and what reads the whole text return the same values.** -/
theorem decodeRunes_eq_ok {limits : Lib.JsonValue.Limits} {maxNumberBytes : ℕ}
    (hpositive : (limitsOf limits maxNumberBytes).Positive)
    (hdepth : limits.maxDepth ≤ maxNestingDepth) {text : List Rune} {v : Value} :
    decodeRunes text (limitsOf limits maxNumberBytes) = .ok v ↔
      Canonical.decode limits maxNumberBytes text = some v := by
  rw [decode_eq_some]
  unfold decodeRunes
  rw [bind_eq_ok]
  constructor
  · rintro ⟨_, -, h⟩
    obtain ⟨_, hbytes, h⟩ := bind_eq_ok.mp h
    obtain ⟨_, -, h⟩ := bind_eq_ok.mp h
    obtain ⟨_, hvalid, h⟩ := bind_eq_ok.mp h
    obtain ⟨doc, hspells, rfl, hfits, hnodes⟩ := decodeText_eq_ok.mp h
    have hnested : depth (decoded doc) ≤ limits.maxDepth := by
      have hnested := hfits.nested
      rw [limitsOf] at hnested
      dsimp only at hnested
      omega
    have hparsed := parseRunes_of_spells hspells (by rw [← depth_decoded]; omega)
    have hnumbers := hfits.numbers
    rw [numberFits_limitsOf] at hnumbers
    refine ⟨Int.ofNat_le.mp (not_lt.mp (refuseIf_eq_ok.mp hbytes)),
      Bool.not_eq_true _ ▸ refuseIf_eq_ok.mp hvalid, ?_, Int.ofNat_le.mp hnodes, hnested,
      hfits.unique, hnumbers⟩
    rw [hparsed]
    rfl
  · rintro ⟨hbytes, hvalid, hparsed, hnodes, hnested, hunique, hnumbers⟩
    obtain ⟨doc, hdoc, rfl⟩ := Option.map_eq_some_iff.mp hparsed
    have hne : text ≠ [] := by
      rintro rfl
      cases hdoc
    refine ⟨(), validateLimits_eq_ok.mpr hpositive, bind_eq_ok.mpr ⟨(), refuseIf_eq_ok.mpr ?_,
      bind_eq_ok.mpr ⟨(), refuseIf_eq_ok.mpr hne, bind_eq_ok.mpr ⟨(), refuseIf_eq_ok.mpr ?_, ?_⟩⟩⟩⟩
    · exact not_lt.mpr (Int.ofNat_le.mpr hbytes)
    · rw [hvalid]
      exact Bool.false_ne_true
    · refine decodeText_eq_ok.mpr ⟨doc, spells_of_parseRunes hdoc, rfl, ⟨fun _ => ?_, hunique, ?_⟩,
        Int.ofNat_le.mpr hnodes⟩
      · rw [Nat.cast_zero, zero_add]
        exact Int.ofNat_le.mpr hnested
      · rw [numberFits_limitsOf]
        exact hnumbers

/-! ### `ValidateJSONDocument` -/

/-- `actionJSONLimits`. -/
def documentLimits : Limits := limitsOf actionJSONLimits maxJSONNumberBytes

theorem decodeRunes_documentLimits {text : List Rune} {v : Value} :
    decodeRunes text documentLimits = .ok v ↔ decodeSingleJSON text = some v :=
  decodeRunes_eq_ok (by constructor <;> decide) (by decide)

/-- `ValidateJSONDocument`, whose errors have these causes. -/
def validateJSONDocument (cause : DecodeError → Err) (document : RawMessage) : JSONCheck :=
  match decodeRunes (runesOf document) documentLimits with
  | .ok _ => .ok
  | .error err => if err.isLimit then .limit else .invalid (cause err)

section Check

variable {cause : DecodeError → Err} {document : RawMessage}

/-- **`ValidateJSONDocument` takes what `decodeSingleJSON` decodes.** -/
theorem validateJSONDocument_eq_ok : validateJSONDocument cause document = .ok ↔
    (decodeSingleJSON (runesOf document)).isSome = true := by
  rw [Option.isSome_iff_exists]
  simp only [← decodeRunes_documentLimits]
  unfold validateJSONDocument
  cases decodeRunes (runesOf document) documentLimits with
  | ok v => simp
  | error err =>
    have hne : ∀ c : Bool, (if c then JSONCheck.limit else .invalid (cause err)) ≠ .ok := by
      intro c
      cases c <;> simp
    simp [hne]

theorem byteLen_eq (text : GoString) : byteLen text = byteSize (runesOf text) := by
  cases text with
  | utf8 s =>
    rw [byteLen, runesOf, byteSize, List.map_map]
    rfl
  | raw units =>
    rw [byteLen, runesOf, byteSize]
    congr 1
    refine List.map_congr_left fun rune _ => ?_
    cases rune <;> rfl

/-- What `ValidateJSONDocument` takes is no longer than `MaxJSONDocumentBytes`. -/
theorem byteLen_of_document (h : validateJSONDocument cause document = .ok) :
    byteLen document ≤ 1048576 := by
  obtain ⟨v, hv⟩ := Option.isSome_iff_exists.mp (validateJSONDocument_eq_ok.mp h)
  rw [byteLen_eq]
  exact (decode_eq_some.mp hv).1

end Check

end Modary.Action.Documents
