import Modary.Runtime.CanonicalInput

/-! # The bytes of a canonical number

A number is decoded when its token has at most `maxJSONNumberBytes`, and is then respelled. What is
respelled is decoded again: which numbers that works for, and what becomes of their documents. -/

namespace Modary.Runtime.NumberBytes

open Modary.Lib.JsonNumber Modary.Lib.JsonValue Modary.Lib.JsonText
open Modary.Lib.Decimal Modary.Action.Canonical Modary.Runtime.CanonicalInput
open Modary.Lib.Codec (encodeInt)

/-! ### Forms with room for a spelling -/

def signBytes (f : Form) : ℕ := if f.negative then 1 else 0

/-- The bytes of a form without an exponent. -/
def plainBytes (f : Form) : ℤ :=
  if 0 ≤ f.exponent then signBytes f + f.digits.length + f.exponent
  else if -f.exponent < f.digits.length then signBytes f + f.digits.length + 1
  else signBytes f + 2 - f.exponent

/-- The bytes of a form with an exponent. -/
def scientificBytes (f : Form) : ℕ :=
  signBytes f + f.digits.length + 1 + (encodeInt f.exponent).length

/-- The zeros behind the point are still an `int64`, and the bytes that they would take with the rest
no longer. -/
def Overflows (f : Form) : Prop := 2 ^ 63 - 2 - signBytes f ≤ -f.exponent ∧ -f.exponent < 2 ^ 63

/-- There is room for a form, with its exponent or without it. -/
def Roomy (f : Form) : Prop :=
  (plainBytes f ≤ maxJSONNumberBytes ∨ scientificBytes f ≤ maxJSONNumberBytes) ∧ ¬ Overflows f

instance (f : Form) : Decidable (Overflows f) := inferInstanceAs (Decidable (_ ∧ _))

instance (f : Form) : Decidable (Roomy f) := inferInstanceAs (Decidable (_ ∧ _))

/-- A spelling that may be decoded. -/
def Fits (text : Option (List Char)) : Prop :=
  ∃ spelled, text = some spelled ∧ spelled.length ≤ maxJSONNumberBytes

theorem fits_some {text : List Char} : Fits (some text) ↔ text.length ≤ maxJSONNumberBytes := by
  simp [Fits]

theorem not_fits_none : ¬ Fits none := by
  rintro ⟨_, hnone, -⟩
  cases hnone

variable {f : Form}

theorem length_signed (f : Form) : (signed f).length = signBytes f + f.digits.length := by
  unfold signed signBytes
  cases f.negative
  · simp
  · simp [Nat.add_comm]

theorem length_sign (f : Form) : (if f.negative then ['-'] else []).length = signBytes f := by
  unfold signBytes
  cases f.negative <;> rfl

theorem fits_scientific (f : Form) :
    Fits (some (signed f ++ 'e' :: encodeInt f.exponent)) ↔
      scientificBytes f ≤ maxJSONNumberBytes := by
  rw [fits_some, List.length_append, List.length_cons, length_signed, scientificBytes]
  omega

theorem wrapInt64_eq {n : ℤ} (hlow : 0 ≤ n) (hhigh : n < 2 ^ 63) : wrapInt64 n = n := by
  unfold wrapInt64
  omega

/-- A sum just past the greatest `int64` comes out negative. -/
theorem wrapInt64_wrapped {n : ℤ} (hlow : 2 ^ 63 ≤ n) (hhigh : n < 2 ^ 64) :
    wrapInt64 n = n - 2 ^ 64 := by
  unfold wrapInt64
  omega

/-- Zeros behind the point, then the digits. -/
theorem fits_fraction (f : Form) (zeros : ℕ) :
    Fits (some ((if f.negative then ['-'] else []) ++
        '0' :: '.' :: (List.replicate zeros '0' ++ f.digits))) ↔
      signBytes f + 2 + zeros + f.digits.length ≤ maxJSONNumberBytes := by
  rw [fits_some, List.length_append, length_sign, List.length_cons, List.length_cons,
    List.length_append, List.length_replicate]
  omega

/-- **A form is spelled within the limit exactly when there is room for it.** -/
theorem fits_spelling (h : f.Proper) : Fits (spelling f) ↔ Roomy f := by
  have hmax : maxJSONNumberBytes = 4096 := rfl
  have halloc : maxAlloc = 281474976710656 := rfl
  have hsci : scientificBytes f = signBytes f + f.digits.length + 1 + (encodeInt f.exponent).length :=
    rfl
  have hsign : signBytes f ≤ 1 := by
    unfold signBytes
    split_ifs <;> omega
  have hlength := length_signed f
  have hwhole : 0 ≤ f.exponent → plainBytes f = signBytes f + f.digits.length + f.exponent := fun h =>
    if_pos h
  have hdecimal : ¬ 0 ≤ f.exponent → -f.exponent < f.digits.length →
      plainBytes f = signBytes f + f.digits.length + 1 := by
    intro h hpoint
    rw [plainBytes, if_neg h, if_pos hpoint]
  have hfraction : ¬ 0 ≤ f.exponent → ¬ -f.exponent < f.digits.length →
      plainBytes f = signBytes f + 2 - f.exponent := by
    intro h hpoint
    rw [plainBytes, if_neg h, if_neg hpoint]
  unfold spelling Roomy
  by_cases hnil : f.digits = []
  · rw [if_pos hnil, fits_some, h.zero hnil]
    decide
  · have hpos := List.length_pos_of_ne_nil hnil
    rw [if_neg hnil]
    by_cases hzero : f.exponent = 0
    · have hplain := hwhole (by omega)
      rw [if_pos hzero, fits_some, length_signed, Overflows]
      omega
    · have hscientific := fits_scientific f
      rw [if_neg hzero]
      unfold renderCanonicalNumber
      simp only [unsigned_signed h hnil, sign_signed h hnil]
      by_cases hgrows : 0 < f.exponent ∧ isInt64 f.exponent = true
      · have hplain := hwhole (by omega)
        have hover : ¬ Overflows f := by
          rw [Overflows]
          omega
        rw [if_pos hgrows]
        by_cases hsmall : f.exponent ≤ maxJSONNumberBytes - (signed f).length
        · have hrepeat : repeatZeros f.exponent = some (List.replicate f.exponent.toNat '0') := by
            rw [repeatZeros, if_neg (by omega)]
          rw [if_pos hsmall, hrepeat, Option.map_some, fits_some, List.length_append,
            List.length_replicate, and_iff_left hover]
          omega
        · rw [if_neg hsmall, hscientific, and_iff_left hover]
          omega
      · rw [if_neg hgrows]
        by_cases hpositive : 0 ≤ f.exponent
        · have hbig : 2 ^ 63 ≤ f.exponent := by
            rw [isInt64, Bool.and_eq_true, decide_eq_true_eq, decide_eq_true_eq] at hgrows
            omega
          have hplain := hwhole hpositive
          rw [if_pos hpositive, hscientific, Overflows]
          omega
        · rw [if_neg hpositive]
          by_cases hplaces : isInt64 (-f.exponent) = false
          · have hbig : 2 ^ 63 ≤ -f.exponent := by
              rw [isInt64, Bool.and_eq_false_iff, decide_eq_false_iff_not, decide_eq_false_iff_not]
                at hplaces
              omega
            rw [if_pos hplaces, hscientific, Overflows]
            by_cases hpoint : -f.exponent < f.digits.length
            · have hplain := hdecimal hpositive hpoint
              omega
            · have hplain := hfraction hpositive hpoint
              omega
          · have hint : -f.exponent < 2 ^ 63 := by
              rw [Bool.not_eq_false, isInt64, Bool.and_eq_true, decide_eq_true_eq,
                decide_eq_true_eq] at hplaces
              exact hplaces.2
            rw [if_neg hplaces]
            by_cases hpoint : -f.exponent < f.digits.length
            · have hplain := hdecimal hpositive hpoint
              rw [if_pos hpoint]
              by_cases hshort : (signed f).length + 1 ≤ maxJSONNumberBytes
              · rw [if_pos hshort, fits_some]
                have hbytes : ((if f.negative then ['-'] else []) ++
                    f.digits.take (f.digits.length + f.exponent).toNat ++
                    '.' :: f.digits.drop (f.digits.length + f.exponent).toNat).length =
                      signBytes f + f.digits.length + 1 := by
                  rw [List.length_append, List.length_append, length_sign, List.length_cons,
                    List.length_take, List.length_drop]
                  omega
                rw [hbytes, Overflows]
                omega
              · rw [if_neg hshort, hscientific, Overflows]
                omega
            · have hplain := hfraction hpositive hpoint
              rw [if_neg hpoint, length_sign]
              by_cases hover : Overflows f
              · -- the sum of the bytes comes out negative, and the zeros are not allocated
                have hfits : ¬ Fits ((repeatZeros (-f.exponent - f.digits.length)).map fun zeros =>
                    (if f.negative then ['-'] else []) ++ '0' :: '.' :: (zeros ++ f.digits)) := by
                  by_cases hmany : maxAlloc < -f.exponent - f.digits.length
                  · rw [repeatZeros, if_pos hmany]
                    exact not_fits_none
                  · rw [repeatZeros, if_neg hmany, Option.map_some, fits_fraction]
                    rw [Overflows] at hover
                    omega
                refine iff_of_false ?_ fun hroomy => hroomy.2 hover
                rw [Overflows] at hover
                rw [wrapInt64_wrapped (by omega) (by omega), if_pos (by omega)]
                exact hfits
              · rw [and_iff_left hover]
                rw [Overflows] at hover
                rw [wrapInt64_eq (by omega) (by omega)]
                by_cases hshort : (signBytes f : ℤ) + 2 + f.digits.length +
                    (-f.exponent - f.digits.length) ≤ maxJSONNumberBytes
                · have hrepeat : repeatZeros (-f.exponent - f.digits.length) =
                      some (List.replicate (-f.exponent - f.digits.length).toNat '0') := by
                    rw [repeatZeros, if_neg (by omega)]
                  rw [if_pos hshort, hrepeat, Option.map_some, fits_fraction]
                  omega
                · rw [if_neg hshort, hscientific]
                  omega

/-! ### Numbers -/

variable {n m : Number}

/-- A number is respelled by a token of its value that may be decoded. -/
def Normalizes (n : Number) : Prop :=
  ∃ m : Number, normalizeJSONNumber n = .ok m.text ∧ numberValue m = numberValue n ∧
    m.text.length ≤ maxJSONNumberBytes

theorem normalizes_iff (hlength : n.text.length ≤ maxJSONNumberBytes) :
    Normalizes n ↔ Roomy (form n) := by
  rw [← fits_spelling (form_proper n)]
  constructor
  · rintro ⟨m, hm, -, hshort⟩
    exact ⟨m.text, (normalizeJSONNumber_eq_ok.mp hm).2, hshort⟩
  · rintro ⟨text, htext, hshort⟩
    obtain ⟨m, hm, hvalue⟩ := token_of_spelling (form_proper n) htext
    rw [form_value] at hvalue
    refine ⟨m, normalizeJSONNumber_eq_ok.mpr ⟨hlength, ?_⟩, hvalue, ?_⟩
    · rw [hm]
      exact htext
    · rw [hm]
      exact hshort

theorem normalizes_iff_respell :
    Normalizes n ↔ (respell n).isSome = true ∧ (normal n).text.length ≤ maxJSONNumberBytes := by
  constructor
  · rintro ⟨m, hm, -, hshort⟩
    have hrespell : respell n = some m := by
      rw [respell, hm]
      exact rawNumber_text m
    rw [normal, hrespell]
    exact ⟨rfl, hshort⟩
  · rintro ⟨hsome, hshort⟩
    obtain ⟨m, hm⟩ := Option.isSome_iff_exists.mp hsome
    rw [normal, hm, Option.getD_some] at hshort
    obtain ⟨hnormal, hvalue⟩ := respell_eq_some hm
    exact ⟨m, hnormal, hvalue, hshort⟩

instance (n : Number) : Decidable (Normalizes n) := decidable_of_iff _ normalizes_iff_respell.symm

/-! ### Documents -/

variable {δ : Type} {sha256 : List Rune → δ} {input other : List Rune} {v w : Value}

/-- Every number of a document can be decoded again once it is respelled. -/
def KeepsNumbers (v : Value) : Prop :=
  ∃ c, canonicalizeJSONValue v = some c ∧
    allNumbers (fun n => n.text.length ≤ maxJSONNumberBytes) c = true

theorem keepsNumbers_iff
    (hlength : allNumbers (fun n => n.text.length ≤ maxJSONNumberBytes) v = true) :
    KeepsNumbers v ↔ allNumbers (fun n => Roomy (form n)) v = true := by
  constructor
  · rintro ⟨c, hc, hshort⟩
    obtain ⟨hsome, rfl⟩ := (canonicalizeJSONValue_eq_some v c).mp hc
    rw [allNumbers_mapNumbers] at hshort
    have hboth : allNumbers (fun n => decide (Normalizes n)) v = true := by
      refine allNumbers_both ?_ v hsome hshort
      intro n hn hnormal
      exact decide_eq_true (normalizes_iff_respell.mpr ⟨hn, of_decide_eq_true hnormal⟩)
    refine allNumbers_both ?_ v hboth hlength
    intro n hn hn'
    exact decide_eq_true ((normalizes_iff (of_decide_eq_true hn')).mp (of_decide_eq_true hn))
  · intro hroomy
    have hsome : allNumbers (fun n => (respell n).isSome) v = true := by
      refine allNumbers_both ?_ v hroomy hlength
      intro n hn hn'
      exact (normalizes_iff_respell.mp
        ((normalizes_iff (of_decide_eq_true hn')).mpr (of_decide_eq_true hn))).1
    refine ⟨_, (canonicalizeJSONValue_eq_some v _).mpr ⟨hsome, rfl⟩, ?_⟩
    rw [allNumbers_mapNumbers]
    refine allNumbers_both ?_ v hroomy hlength
    intro n hn hn'
    exact decide_eq_true (normalizes_iff_respell.mp
      ((normalizes_iff (of_decide_eq_true hn')).mpr (of_decide_eq_true hn))).2

/-- What is canonical is read back, if it is not too long. -/
theorem decode_canonical {c : Value} (hv : decodeSingleJSON input = some v)
    (hc : canonicalizeJSONValue v = some c) :
    (decodeSingleJSON (marshal c)).isSome = true ↔
      allNumbers (fun n => n.text.length ≤ maxJSONNumberBytes) c = true ∧
        byteSize (marshal c) ≤ actionJSONLimits.maxBytes := by
  obtain ⟨-, -, -, hnodes, hdepth, hdistinct, -⟩ := decode_eq_some.mp hv
  obtain ⟨-, rfl⟩ := (canonicalizeJSONValue_eq_some v c).mp hc
  have hbound : depth (mapNumbers normal v) ≤ maxNestingDepth := by
    rw [depth_mapNumbers]
    exact hdepth.trans (by decide)
  constructor
  · intro hsome
    obtain ⟨read, hread⟩ := Option.isSome_iff_exists.mp hsome
    have heq := decode_marshal hbound hread
    subst heq
    obtain ⟨hbytes, -, -, -, -, -, hnumbers⟩ := decode_eq_some.mp hread
    exact ⟨(allNumbers_ordered _ _).mp hnumbers, hbytes⟩
  · rintro ⟨hnumbers, hbytes⟩
    have hread : decodeSingleJSON (marshal (mapNumbers normal v)) =
        some (ordered (mapNumbers normal v)) := by
      refine decode_eq_some.mpr ⟨hbytes, text_utf8 _, ?_, ?_, ?_, ?_, ?_⟩
      · exact parseRunes_encoded _ (by rw [depth_ordered]; exact hbound)
      · rw [nodes_ordered, nodes_mapNumbers]
        exact hnodes
      · rw [depth_ordered, depth_mapNumbers]
        exact hdepth
      · refine distinct_ordered _ ?_
        rw [distinct_mapNumbers]
        exact hdistinct
      · exact (allNumbers_ordered _ _).mpr hnumbers
    rw [hread]
    rfl

/-- **A decoded document is accepted** when there is room for its numbers and its canonical bytes are
within the limit of a document. -/
theorem canonicalInput_isSome_iff (hv : decodeSingleJSON input = some v) :
    (canonicalInput sha256 input).isSome = true ↔
      KeepsNumbers v ∧ byteSize (marshal (mapNumbers normal v)) ≤ actionJSONLimits.maxBytes := by
  cases hc : canonicalizeJSONValue v with
  | none =>
    refine iff_of_false ?_ ?_
    · simp [canonicalInput, hv, hc]
    · rintro ⟨⟨c, hc', -⟩, -⟩
      rw [hc] at hc'
      cases hc'
  | some c =>
    have hmap := ((canonicalizeJSONValue_eq_some v c).mp hc).2
    have hdecode := decode_canonical hv hc
    have hinput : (canonicalInput sha256 input).isSome = (decodeSingleJSON (marshal c)).isSome := by
      simp only [canonicalInput, hv, hc, Option.bind_eq_bind, Option.bind_some]
      cases decodeSingleJSON (marshal c) <;> rfl
    have hkeeps : KeepsNumbers v ↔
        allNumbers (fun n => n.text.length ≤ maxJSONNumberBytes) c = true := by
      constructor
      · rintro ⟨c', hc', hshort⟩
        rw [hc] at hc'
        cases hc'
        exact hshort
      · intro hshort
        exact ⟨c, hc, hshort⟩
    rw [hinput, hdecode, hkeeps, hmap]

/-- Documents that differ in the spelling of their numbers alone have room for them alike. -/
theorem keepsNumbers_congr (hv : decodeSingleJSON input = some v)
    (hw : decodeSingleJSON other = some w) (h : valueOf v = valueOf w) :
    KeepsNumbers v ↔ KeepsNumbers w := by
  obtain ⟨-, -, -, -, -, -, hnumbers⟩ := decode_eq_some.mp hv
  obtain ⟨-, -, -, -, -, -, hnumbers'⟩ := decode_eq_some.mp hw
  rw [keepsNumbers_iff hnumbers, keepsNumbers_iff hnumbers']
  classical
  have hvalue : ∀ u : Value, allNumbers (fun n => decide (Roomy (form n))) u =
      allNumbers (fun q => decide (∃ n, numberValue n = q ∧ Roomy (form n))) (valueOf u) := by
    intro u
    rw [valueOf, allNumbers_mapNumbers]
    congr 1
    funext n
    rw [decide_eq_decide]
    constructor
    · intro hroomy
      exact ⟨n, rfl, hroomy⟩
    · rintro ⟨m, hm, hroomy⟩
      rwa [form_eq_iff.mpr hm] at hroomy
  rw [hvalue v, hvalue w, h]

/-- Documents that differ in the spelling of their numbers alone are accepted alike. -/
theorem accepted_congr (hv : decodeSingleJSON input = some v) (hw : decodeSingleJSON other = some w)
    (h : valueOf v = valueOf w) :
    (canonicalInput sha256 input).isSome = true ↔ (canonicalInput sha256 other).isSome = true := by
  obtain ⟨-, -, -, -, hdepth, hdistinct, -⟩ := decode_eq_some.mp hv
  obtain ⟨-, -, -, -, hdepth', hdistinct', -⟩ := decode_eq_some.mp hw
  have hlimit : actionJSONLimits.maxDepth ≤ maxNestingDepth := by decide
  rw [canonicalInput_isSome_iff hv, canonicalInput_isSome_iff hw, keepsNumbers_congr hv hw h]
  refine and_congr_right fun hkeeps => ?_
  obtain ⟨c, hc, -⟩ := (keepsNumbers_congr hv hw h).mpr hkeeps
  obtain ⟨c', hc', -⟩ := hkeeps
  have halike : alike (mapNumbers numberValue v) (mapNumbers numberValue w) = true := by
    have hvalue : distinct (valueOf w) = true := by
      rw [valueOf, distinct_mapNumbers]
      exact hdistinct'
    rw [← valueOf, ← valueOf, h]
    exact (ordered_eq_iff _ _ hvalue hvalue).mp rfl
  have hmarshal := (marshal_canonical_eq_iff hc hc' hdistinct hdistinct' (hdepth.trans hlimit)
    (hdepth'.trans hlimit)).mpr halike
  rw [((canonicalizeJSONValue_eq_some v c).mp hc).2, ((canonicalizeJSONValue_eq_some w c').mp hc').2]
    at hmarshal
  rw [hmarshal]

/-- **Numbers are kept** exactly when there is room for them: a decoded number is respelled within the
limit, a decoded document is not rejected for its numbers, and the spelling of a number does not
decide whether its document is accepted. -/
theorem numbers_kept_iff (sha256 : List Rune → δ) :
    (∀ n : Number, n.text.length ≤ maxJSONNumberBytes → (Normalizes n ↔ Roomy (form n))) ∧
    (∀ input v, decodeSingleJSON input = some v →
      (KeepsNumbers v ↔ allNumbers (fun n => Roomy (form n)) v = true) ∧
      ((canonicalInput sha256 input).isSome = true ↔ KeepsNumbers v ∧
        byteSize (marshal (mapNumbers normal v)) ≤ actionJSONLimits.maxBytes)) ∧
    ∀ input other v w, decodeSingleJSON input = some v → decodeSingleJSON other = some w →
      valueOf v = valueOf w →
        ((canonicalInput sha256 input).isSome = true ↔ (canonicalInput sha256 other).isSome = true) := by
  refine ⟨fun n hlength => normalizes_iff hlength, ?_, fun _ _ _ _ hv hw h => accepted_congr hv hw h⟩
  intro input v hv
  obtain ⟨-, -, -, -, -, -, hnumbers⟩ := decode_eq_some.mp hv
  exact ⟨keepsNumbers_iff hnumbers, canonicalInput_isSome_iff hv⟩

/-- A number with a fraction and an exponent. -/
def fifteen : Number :=
  ⟨false, ['1'], some ['5', '0'], some ⟨false, none, ['1']⟩, Number.whole_one, by decide,
    by decide⟩

/-- `numbers_kept_iff` at a number that is respelled. -/
theorem fifteen_kept : Normalizes fifteen :=
  ((numbers_kept_iff (id : List Rune → List Rune)).1 fifteen (by decide)).mpr (by decide +kernel)

/-- A token of 4096 bytes whose canonical spelling has two more. -/
def widest : Number :=
  ⟨false, ['1'], some (List.replicate 4091 '1'), some ⟨false, some true, ['9']⟩,
    Number.whole_one, by decide +kernel, by decide⟩

/-- A token whose zeros behind the point cannot be allocated. -/
def deepest : Number :=
  ⟨false, ['1'], none, some ⟨false, some true, "9223372036854775807".toList⟩, Number.whole_one,
    Number.fraction_none, by decide⟩

/-- **A decoded number is rejected**: respelled it is longer than the limit, and another one makes
`strings.Repeat` panic. -/
theorem decoded_rejected :
    (widest.text.length ≤ maxJSONNumberBytes ∧ ¬ Normalizes widest) ∧
      deepest.text.length ≤ maxJSONNumberBytes ∧ normalizeJSONNumber deepest = .error .panics := by
  have hwidest : widest.text.length ≤ maxJSONNumberBytes := by decide +kernel
  have hroom : ¬ Roomy (form widest) := by decide +kernel
  refine ⟨⟨hwidest, ?_⟩, by decide, by decide +kernel⟩
  rw [normalizes_iff hwidest]
  exact hroom

end Modary.Runtime.NumberBytes
