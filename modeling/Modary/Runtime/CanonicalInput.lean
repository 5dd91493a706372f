import Modary.Action.Canonical

/-! # Canonical input

`canonicalInput` of actionruntime: the bytes that an input is planned, hashed and stored as. -/

namespace Modary.Runtime.CanonicalInput

open Modary.Lib.JsonValue Modary.Lib.JsonText Modary.Action.Canonical

/-- `canonicalInput`: the canonical bytes and their hash. -/
def canonicalInput {δ : Type} (sha256 : List Rune → δ) (input : List Rune) :
    Option (List Rune × δ) := do
  let value ← decodeSingleJSON input
  let canonicalValue ← canonicalizeJSONValue value
  let canonical := marshal canonicalValue
  let _ ← decodeSingleJSON canonical
  return (canonical, sha256 canonical)

/-- The JSON value of a document, its numbers by what they are worth. -/
def valueOf (v : Value) : Json ℚ := mapNumbers numberValue v

variable {δ : Type} {sha256 : List Rune → δ}

theorem canonicalInput_eq_some {input canonical : List Rune} {hash : δ}
    (h : canonicalInput sha256 input = some (canonical, hash)) :
    ∃ v c, decodeSingleJSON input = some v ∧ canonicalizeJSONValue v = some c ∧
      canonical = marshal c ∧ hash = sha256 canonical ∧
      decodeSingleJSON canonical = some (ordered c) := by
  unfold canonicalInput at h
  obtain ⟨v, hv, h⟩ := Option.bind_eq_some_iff.mp h
  obtain ⟨c, hc, h⟩ := Option.bind_eq_some_iff.mp h
  obtain ⟨read, hread, h⟩ := Option.bind_eq_some_iff.mp h
  cases h
  obtain ⟨-, -, -, -, hdepth, -⟩ := decode_eq_some.mp hv
  obtain ⟨-, rfl⟩ := (canonicalizeJSONValue_eq_some v c).mp hc
  have hbound : depth (mapNumbers normal v) ≤ maxNestingDepth := by
    rw [depth_mapNumbers]
    exact hdepth.trans (by decide)
  have heq := decode_marshal hbound hread
  exact ⟨v, _, hv, hc, rfl, rfl, heq ▸ hread⟩

/-- The canonical bytes are canonical. -/
theorem canonicalInput_canonical {input canonical : List Rune} {hash : δ}
    (h : canonicalInput sha256 input = some (canonical, hash)) :
    canonicalInput sha256 canonical = some (canonical, hash) := by
  obtain ⟨v, c, hv, hc, rfl, rfl, hread⟩ := canonicalInput_eq_some h
  obtain ⟨-, -, -, -, -, hdistinct, -⟩ := decode_eq_some.mp hv
  obtain ⟨-, -, -, -, -, -, hnumbers⟩ := decode_eq_some.mp hread
  obtain ⟨hall, rfl⟩ := (canonicalizeJSONValue_eq_some v c).mp hc
  have hdistinct' : distinct (mapNumbers normal v) = true := by
    rw [distinct_mapNumbers]
    exact hdistinct
  rw [allNumbers_ordered, allNumbers_mapNumbers] at hnumbers
  -- each number is a respelled one, so respelling it again does nothing
  have hfixed : allNumbers (fun n => respell n = some n) (ordered (mapNumbers normal v)) = true := by
    rw [allNumbers_ordered, allNumbers_mapNumbers]
    refine allNumbers_both ?_ v hall hnumbers
    intro n hn hlength
    obtain ⟨m, hm⟩ := Option.isSome_iff_exists.mp hn
    have hnormal : normal n = m := by rw [normal, hm, Option.getD_some]
    rw [hnormal, decide_eq_true_eq] at hlength ⊢
    exact respell_respell hm hlength
  have hsome : allNumbers (fun n => (respell n).isSome) (ordered (mapNumbers normal v)) = true := by
    refine allNumbers_both ?_ _ hfixed hfixed
    intro n hn _
    rw [of_decide_eq_true hn]
    rfl
  have hsame : mapNumbers normal (ordered (mapNumbers normal v)) = ordered (mapNumbers normal v) := by
    refine mapNumbers_fixed ?_ _ hfixed
    intro n hn
    rw [normal, of_decide_eq_true hn, Option.getD_some]
  have hagain : canonicalizeJSONValue (ordered (mapNumbers normal v)) =
      some (ordered (mapNumbers normal v)) :=
    (canonicalizeJSONValue_eq_some _ _).mpr ⟨hsome, hsame.symm⟩
  have hmarshal : marshal (ordered (mapNumbers normal v)) = marshal (mapNumbers normal v) := by
    rw [marshal, ordered_ordered _ hdistinct', marshal]
  simp only [canonicalInput, hread, hagain, hmarshal, Option.bind_eq_bind, Option.bind_some]
  rfl

/-- The canonical bytes have the value of the input. -/
theorem canonicalInput_value {input canonical : List Rune} {hash : δ}
    (h : canonicalInput sha256 input = some (canonical, hash)) :
    ∃ v w, decodeSingleJSON input = some v ∧ decodeSingleJSON canonical = some w ∧
      alike (valueOf w) (valueOf v) = true := by
  obtain ⟨v, c, hv, hc, rfl, rfl, hread⟩ := canonicalInput_eq_some h
  obtain ⟨-, -, -, -, -, hdistinct, -⟩ := decode_eq_some.mp hv
  obtain ⟨hall, rfl⟩ := (canonicalizeJSONValue_eq_some v c).mp hc
  have hdistinct' : distinct (mapNumbers normal v) = true := by
    rw [distinct_mapNumbers]
    exact hdistinct
  refine ⟨v, _, hv, hread, ?_⟩
  have horder := alike_mapNumbers_of_alike numberValue (distinct_ordered _ hdistinct') hdistinct'
    (alike_ordered hdistinct')
  have hvalue : mapNumbers numberValue (mapNumbers normal v) = mapNumbers numberValue v := by
    rw [mapNumbers_mapNumbers]
    refine mapNumbers_congr ?_ v hall
    intro n hn
    obtain ⟨m, hm⟩ := Option.isSome_iff_exists.mp hn
    rw [normal, hm, Option.getD_some]
    exact (respell_eq_some hm).2
  rw [valueOf, valueOf, ← hvalue]
  exact horder

/-- **Canonical input is the input's value.** Two inputs have the same canonical bytes, and the same
hash, exactly when they are the same JSON value; the bytes decode to that value, and are their own
canonical input. -/
theorem canonicalInput_contract (sha256 : List Rune → δ) (hsha : Function.Injective sha256)
    {input other canonical canonical' : List Rune} {hash hash' : δ}
    (h : canonicalInput sha256 input = some (canonical, hash))
    (h' : canonicalInput sha256 other = some (canonical', hash')) :
    ∃ v v', decodeSingleJSON input = some v ∧ decodeSingleJSON other = some v' ∧
      (canonical = canonical' ↔ alike (valueOf v) (valueOf v') = true) ∧
      (hash = hash' ↔ alike (valueOf v) (valueOf v') = true) ∧
      (∃ w, decodeSingleJSON canonical = some w ∧ alike (valueOf w) (valueOf v) = true) ∧
      canonicalInput sha256 canonical = some (canonical, hash) := by
  obtain ⟨v, c, hv, hc, hbytes, hhash, -⟩ := canonicalInput_eq_some h
  obtain ⟨v', c', hv', hc', hbytes', hhash', -⟩ := canonicalInput_eq_some h'
  obtain ⟨-, -, -, -, hdepth, hdistinct, -⟩ := decode_eq_some.mp hv
  obtain ⟨-, -, -, -, hdepth', hdistinct', -⟩ := decode_eq_some.mp hv'
  have hlimit : actionJSONLimits.maxDepth ≤ maxNestingDepth := by decide
  have hiff := marshal_canonical_eq_iff hc hc' hdistinct hdistinct' (hdepth.trans hlimit)
    (hdepth'.trans hlimit)
  rw [← hbytes, ← hbytes'] at hiff
  obtain ⟨u, w, hu, hw, halike⟩ := canonicalInput_value h
  rw [hv] at hu
  cases hu
  refine ⟨v, v', hv, hv', hiff, ?_, ⟨w, hw, halike⟩, canonicalInput_canonical h⟩
  rw [hhash, hhash', hsha.eq_iff]
  exact hiff

/-- Two spellings of a document, with their members in different orders. -/
def spellings : List Rune × List Rune :=
  ("\x7b \"a\":1.50e1,\"b\":[-0]\x7d".toList.map .inl, "\x7b\"b\":[0.0],\"\\u0061\":15\x7d".toList.map .inl)

/-- The canonical bytes of the two. -/
def canonicalSpelling : List Rune := "\x7b\"a\":15,\"b\":[0]\x7d".toList.map .inl

/-- The two spellings are one input. -/
theorem canonicalInput_spellings : ∃ v v', decodeSingleJSON spellings.1 = some v ∧
    decodeSingleJSON spellings.2 = some v' ∧
      (canonicalSpelling = canonicalSpelling ↔ alike (valueOf v) (valueOf v') = true) ∧
      (canonicalSpelling = canonicalSpelling ↔ alike (valueOf v) (valueOf v') = true) ∧
      (∃ w, decodeSingleJSON canonicalSpelling = some w ∧
        alike (valueOf w) (valueOf v) = true) ∧
      canonicalInput id canonicalSpelling = some (canonicalSpelling, canonicalSpelling) :=
  canonicalInput_contract id Function.injective_id (by decide +kernel) (by decide +kernel)

end Modary.Runtime.CanonicalInput
