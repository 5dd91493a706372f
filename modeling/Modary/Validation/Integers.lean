import Modary.Validation.Canonical

/-! # Integers

`checkJSONInteger` and `mustBeInteger` of `internal/jsonschema/engine/utils.go`, which read the
canonical text of a number: whether its value is whole, and that value as an `int`, saturated. -/

namespace Modary.Validation

open Modary.Lib.JsonNumber Modary.Lib.JsonText Modary.Lib.Codec Modary.Lib.Decimal
open Modary.Lib.GoText (isDigit)

/-! ### Reading a canonical text -/

/-- What is before and behind the last `c` of a text. -/
def cutLast (c : Char) : List Char → Option (List Char × List Char)
  | [] => none
  | x :: xs =>
    match cutLast c xs with
    | some (before, after) => some (x :: before, after)
    | none => if x = c then some ([], xs) else none

/-- Digits behind a sign, as `(*big.Int).SetString` and `strconv.ParseInt` read them. -/
def decimal : List Char → Option ℤ
  | '-' :: digits =>
    if digits ≠ [] ∧ digits.all isDigit = true then some (-digitsNumber digits) else none
  | '+' :: digits =>
    if digits ≠ [] ∧ digits.all isDigit = true then some (digitsNumber digits) else none
  | digits => if digits ≠ [] ∧ digits.all isDigit = true then some (digitsNumber digits) else none

/-- `checkJSONInteger`. -/
def checkJSONInteger (number : Number) : Bool :=
  let normalized := canonicalNumber number
  if normalized = ['0', 'e', '0'] then true
  else
    match cutLast 'e' normalized with
    | none => false
    | some (_, exponent) => (decimal exponent).any fun exponent => 0 ≤ exponent

/-- The greatest `int`. -/
def maxInt : ℤ := 2 ^ 63 - 1

/-- `saturatedInteger`. -/
def saturatedInteger (negative : Bool) : ℤ := if negative then -maxInt - 1 else maxInt

/-- The value of `strconv.ParseInt`, which fails outside of `int`. -/
def parseInt (token : List Char) : Option ℤ :=
  (decimal token).filter fun value => -maxInt - 1 ≤ value ∧ value ≤ maxInt

/-- `mustBeInteger`, on a number. -/
def mustBeInteger (number : Number) : Option ℤ :=
  let normalized := canonicalNumber number
  if normalized = ['0', 'e', '0'] then some 0
  else
    match cutLast 'e' normalized with
    | none => none
    | some (coefficient, exponent) =>
      match decimal exponent with
      | none => none
      | some exponent =>
        if exponent < 0 then none
        else
          let negative := coefficient.head? = some '-'
          let digits := if negative then coefficient.tail else coefficient
          let maxDigits := (encodeInt maxInt).length
          if maxInt < exponent ∨ maxDigits < exponent then some (saturatedInteger negative)
          else if maxDigits < digits.length + exponent.toNat then some (saturatedInteger negative)
          else
            let token := coefficient ++ List.replicate exponent.toNat '0'
            some ((parseInt token).getD (saturatedInteger negative))

theorem cutLast_eq_none {c : Char} : ∀ {text : List Char}, c ∉ text → cutLast c text = none
  | [], _ => rfl
  | x :: xs, h => by
    rw [List.mem_cons, not_or] at h
    rw [cutLast, cutLast_eq_none h.2]
    simp only [if_neg (Ne.symm h.1)]

theorem cutLast_append {c : Char} {after : List Char} (h : c ∉ after) :
    ∀ before : List Char, cutLast c (before ++ c :: after) = some (before, after)
  | [] => by
    rw [List.nil_append, cutLast, cutLast_eq_none h]
    simp only [if_true]
  | x :: before => by
    rw [List.cons_append, cutLast, cutLast_append h before]

theorem digits_ne_sign {digits : List Char} (h : digits.all isDigit = true) (cs : List Char) :
    digits ≠ '-' :: cs ∧ digits ≠ '+' :: cs := by
  constructor
  · rintro rfl
    rw [List.all_cons, Bool.and_eq_true] at h
    exact absurd h.1 (by decide)
  · rintro rfl
    rw [List.all_cons, Bool.and_eq_true] at h
    exact absurd h.1 (by decide)

theorem decimal_digits {digits : List Char} (hne : digits ≠ []) (h : digits.all isDigit = true) :
    decimal digits = some (digitsNumber digits) := by
  unfold decimal
  split
  · exact absurd rfl (digits_ne_sign h _).1
  · exact absurd rfl (digits_ne_sign h _).2
  · exact if_pos ⟨hne, h⟩

theorem decimal_negative {digits : List Char} (hne : digits ≠ [])
    (h : digits.all isDigit = true) :
    decimal ('-' :: digits) = some (-(digitsNumber digits : ℤ)) := by
  rw [decimal]
  exact if_pos ⟨hne, h⟩

theorem all_isDigit_toDigits (n : ℕ) : (Nat.toDigits 10 n).all isDigit = true := by
  rw [List.all_eq_true]
  intro c hc
  have hdigit : c.isDigit = true := Nat.isDigit_of_mem_toDigits (by omega) (by omega) hc
  simpa [isDigit, Char.isDigit, Char.le_def] using hdigit

theorem decimal_encodeInt (e : ℤ) : decimal (encodeInt e) = some e := by
  have hnumber : ∀ n, digitsNumber (Nat.toDigits 10 n) = n := fun n => by simp [digitsNumber]
  cases e with
  | ofNat n =>
    rw [encodeInt, decimal_digits Nat.toDigits_ne_nil (all_isDigit_toDigits n), hnumber]
    exact congrArg some rfl
  | negSucc n =>
    rw [encodeInt, decimal_negative Nat.toDigits_ne_nil (all_isDigit_toDigits _), hnumber]
    rfl

theorem not_mem_encodeInt (e : ℤ) : 'e' ∉ encodeInt e := by
  have hdigits : ∀ n, 'e' ∉ Nat.toDigits 10 n := by
    intro n hmem
    have hall := List.all_eq_true.mp (all_isDigit_toDigits n) 'e' hmem
    revert hall
    decide
  cases e with
  | ofNat n => exact hdigits n
  | negSucc n =>
    intro hmem
    rcases List.mem_cons.mp hmem with heq | hmem
    · revert heq
      decide
    · exact hdigits _ hmem

theorem cutLast_formText (f : Form) :
    cutLast 'e' (formText f) = some (coefficientText f, encodeInt f.exponent) :=
  cutLast_append (not_mem_encodeInt f.exponent) (coefficientText f)

theorem formText_eq_zero_iff {f : Form} (h : f.Proper) :
    formText f = ['0', 'e', '0'] ↔ f.digits = [] := by
  have hzero : (⟨false, [], 0⟩ : Form).Proper := ⟨rfl, by simp, by simp, fun _ => rfl⟩
  constructor
  · intro htext
    have heq : f = ⟨false, [], 0⟩ := formText_inj h hzero htext
    rw [heq]
  · intro hnil
    rw [h.zero hnil]
    rfl

/-! ### Whole values -/

/-- The whole number of some digits behind a sign. -/
def signedNumber (negative : Bool) (digits : List Char) : ℤ :=
  if negative then -(digitsNumber digits : ℤ) else digitsNumber digits

theorem value_eq_signedNumber (f : Form) :
    f.value = (signedNumber f.negative f.digits : ℚ) * 10 ^ f.exponent := by
  rw [Form.value, signedNumber]
  split_ifs <;> push_cast <;> rfl

theorem value_eq_whole {f : Form} (h : 0 ≤ f.exponent) :
    f.value = ((signedNumber f.negative f.digits * 10 ^ f.exponent.toNat : ℤ) : ℚ) := by
  obtain ⟨k, hk⟩ := Int.eq_ofNat_of_zero_le h
  rw [value_eq_signedNumber, hk]
  push_cast
  rfl

/-- A form without zeros at its end is a whole number when its exponent is not negative. -/
theorem whole_iff {f : Form} (h : f.Proper) :
    f.value.den = 1 ↔ f.digits = [] ∨ 0 ≤ f.exponent := by
  constructor
  · intro hden
    by_contra hnot
    rw [not_or] at hnot
    obtain ⟨k, hk⟩ := Int.eq_ofNat_of_zero_le (show 0 ≤ -f.exponent - 1 by omega)
    have hexponent : f.exponent = -((k + 1 : ℕ) : ℤ) := by push_cast; omega
    have hwhole : (f.value.num : ℚ) = f.value := (Rat.den_eq_one_iff _).mp hden
    have hten : (10 : ℚ) ^ (k + 1) ≠ 0 := by positivity
    have hmul : f.value.num * 10 ^ (k + 1) = signedNumber f.negative f.digits := by
      have hvalue := value_eq_signedNumber f
      rw [hexponent, zpow_neg, zpow_natCast, ← hwhole, eq_mul_inv_iff_mul_eq₀ hten] at hvalue
      exact_mod_cast hvalue
    have hdvd : (10 : ℤ) ∣ digitsNumber f.digits := by
      have hten : (10 : ℤ) ∣ signedNumber f.negative f.digits := by
        rw [← hmul, pow_succ]
        exact Dvd.intro_left (f.value.num * 10 ^ k) (by ring)
      unfold signedNumber at hten
      split_ifs at hten with hneg
      · exact (dvd_neg.mp hten)
      · exact hten
    exact h.not_dvd hnot.1 (by exact_mod_cast hdvd)
  · rintro (hnil | hexponent)
    · rw [(Form.value_eq_zero_iff h).mpr hnil]
      rfl
    · rw [value_eq_whole hexponent]
      rfl

/-- **`checkJSONInteger` tells the whole numbers.** -/
theorem checkJSONInteger_iff (n : Number) :
    checkJSONInteger n = true ↔ (numberValue n).den = 1 := by
  have hproper := form_proper n
  rw [← form_value, whole_iff hproper, checkJSONInteger, canonicalNumber_eq]
  simp only [formText_eq_zero_iff hproper, cutLast_formText, decimal_encodeInt]
  by_cases hnil : (form n).digits = []
  · simp [hnil]
  · simp [hnil]

/-! ### Saturation -/

/-- An integer as an `int`. -/
def saturated (value : ℤ) : ℤ := max (-maxInt - 1) (min value maxInt)

theorem digitsNumber_ge {digits : List Char} (hne : digits ≠ []) (h : digits.all isDigit = true)
    (hhead : digits.head? ≠ some '0') : 10 ^ (digits.length - 1) ≤ digitsNumber digits := by
  cases digits with
  | nil => exact absurd rfl hne
  | cons c cs =>
    rw [List.all_cons, Bool.and_eq_true] at h
    have hbounds := toNat_of_isDigit h.1
    have hchar := digitChar_of_isDigit h.1
    have hzero : '0'.toNat = 48 := rfl
    have hpos : 1 ≤ c.toNat - 48 := by
      by_contra hlt
      have hsub : c.toNat - 48 = 0 := by omega
      rw [hsub] at hchar
      exact hhead (congrArg some hchar.symm)
    have hmul := Nat.mul_le_mul_left (10 ^ cs.length) hpos
    rw [digitsNumber_cons, List.length_cons, Nat.add_sub_cancel, hzero]
    omega

theorem saturated_big {negative : Bool} {digits : List Char} {zeros : ℕ}
    (h : 10 ^ 19 ≤ digitsNumber digits * 10 ^ zeros) :
    saturated (signedNumber negative digits * 10 ^ zeros) = saturatedInteger negative := by
  have hbig : (10 ^ 19 : ℤ) ≤ digitsNumber digits * 10 ^ zeros := by exact_mod_cast h
  unfold saturated saturatedInteger signedNumber maxInt
  cases negative with
  | true =>
    simp only [if_true, neg_mul]
    omega
  | false =>
    simp only [Bool.false_eq_true, if_false]
    omega

/-- The token that `strconv.ParseInt` is given. -/
theorem decimal_token {f : Form} (h : f.Proper) (hne : f.digits ≠ []) (zeros : ℕ) :
    decimal (coefficientText f ++ List.replicate zeros '0') =
      some (signedNumber f.negative f.digits * 10 ^ zeros) := by
  have hall : (f.digits ++ List.replicate zeros '0').all isDigit = true := by
    rw [List.all_append, h.digits, Bool.true_and, List.all_eq_true]
    intro c hc
    rw [List.eq_of_mem_replicate hc]
    decide
  have hnumber : digitsNumber (f.digits ++ List.replicate zeros '0') =
      digitsNumber f.digits * 10 ^ zeros := by
    rw [digitsNumber_append, digitsNumber_replicate, List.length_replicate, Nat.add_zero,
      Nat.mul_comm]
  have hne' : f.digits ++ List.replicate zeros '0' ≠ [] := by simp [hne]
  unfold coefficientText signedNumber
  rw [if_neg hne]
  cases f.negative with
  | true =>
    simp only [if_true]
    rw [List.cons_append, decimal_negative hne' hall, hnumber]
    push_cast
    rw [neg_mul]
  | false =>
    simp only [Bool.false_eq_true, if_false]
    rw [decimal_digits hne' hall, hnumber]
    rfl

/-- The sign and the digits of a coefficient. -/
theorem coefficientText_parts {f : Form} (h : f.Proper) (hne : f.digits ≠ []) :
    decide ((coefficientText f).head? = some '-') = f.negative ∧
      (if (coefficientText f).head? = some '-' then (coefficientText f).tail
        else coefficientText f) = f.digits := by
  unfold coefficientText
  rw [if_neg hne]
  cases f.negative with
  | true => exact ⟨rfl, rfl⟩
  | false =>
    have hhead : f.digits.head? ≠ some '-' := by
      intro hhead
      cases hdigits : f.digits with
      | nil => exact hne hdigits
      | cons c cs =>
        rw [hdigits, List.head?_cons, Option.some.injEq] at hhead
        exact (digits_ne_sign h.digits cs).1 (by rw [hdigits, hhead])
    simp only [Bool.false_eq_true, if_false, if_neg hhead]
    exact ⟨decide_eq_false hhead, trivial⟩

/-- The steps of `mustBeInteger` on a whole number that is not zero. -/
theorem saturating {f : Form} (h : f.Proper) (hne : f.digits ≠ []) (zeros : ℕ) :
    (if maxInt < zeros ∨ (19 : ℤ) < zeros then saturatedInteger f.negative
    else if 19 < f.digits.length + zeros then saturatedInteger f.negative
    else (parseInt (coefficientText f ++ List.replicate zeros '0')).getD
      (saturatedInteger f.negative)) =
        saturated (signedNumber f.negative f.digits * 10 ^ zeros) := by
  have hlower := digitsNumber_ge hne h.digits h.head
  have hpos : 0 < f.digits.length := List.length_pos_iff.mpr hne
  by_cases hbig : 19 < f.digits.length + zeros
  · have hvalue : 10 ^ 19 ≤ digitsNumber f.digits * 10 ^ zeros := by
      calc 10 ^ 19 ≤ 10 ^ (f.digits.length - 1 + zeros) := Nat.pow_le_pow_right (by omega) (by omega)
        _ = 10 ^ (f.digits.length - 1) * 10 ^ zeros := pow_add _ _ _
        _ ≤ digitsNumber f.digits * 10 ^ zeros := Nat.mul_le_mul_right _ hlower
    rw [saturated_big hvalue, if_pos hbig]
    split_ifs <;> rfl
  · have hsmall : ¬ (maxInt < zeros ∨ (19 : ℤ) < zeros) := by
      unfold maxInt
      omega
    rw [if_neg hsmall, if_neg hbig, parseInt, decimal_token h hne]
    generalize hvalue : signedNumber f.negative f.digits * 10 ^ zeros = value
    have hsign : f.negative = false → 0 ≤ value := by
      intro hneg
      rw [← hvalue, hneg]
      exact mul_nonneg (Int.natCast_nonneg _) (by positivity)
    have hsign' : f.negative = true → value ≤ 0 := by
      intro hneg
      rw [← hvalue, hneg]
      exact mul_nonpos_of_nonpos_of_nonneg (neg_nonpos_of_nonneg (Int.natCast_nonneg _))
        (by positivity)
    unfold saturated saturatedInteger
    by_cases hrange : -maxInt - 1 ≤ value ∧ value ≤ maxInt
    · simp only [Option.filter, decide_eq_true hrange, if_true, Option.getD_some]
      omega
    · simp only [Option.filter, decide_eq_false hrange, Bool.false_eq_true, if_false,
        Option.getD_none]
      unfold maxInt at *
      cases hneg : f.negative with
      | true =>
        have hle := hsign' hneg
        simp only [if_true]
        omega
      | false =>
        have hle := hsign hneg
        simp only [Bool.false_eq_true, if_false]
        omega

/-- **`mustBeInteger` finds the value of a whole number, saturated, and no other.** -/
theorem mustBeInteger_eq (n : Number) : mustBeInteger n =
    if (numberValue n).den = 1 then some (saturated (numberValue n).num) else none := by
  have hproper := form_proper n
  rw [← form_value, mustBeInteger, canonicalNumber_eq]
  simp only [whole_iff hproper, formText_eq_zero_iff hproper, cutLast_formText, decimal_encodeInt]
  generalize form n = f at hproper
  by_cases hnil : f.digits = []
  · rw [if_pos hnil, if_pos (.inl hnil), (Form.value_eq_zero_iff hproper).mpr hnil]
    rfl
  · rw [if_neg hnil]
    by_cases hneg : f.exponent < 0
    · rw [if_pos hneg, if_neg]
      rintro (h | h)
      · exact hnil h
      · omega
    · obtain ⟨zeros, hzeros⟩ := Int.eq_ofNat_of_zero_le (show 0 ≤ f.exponent by omega)
      have hge : 0 ≤ f.exponent := by omega
      have hnum : f.value.num = signedNumber f.negative f.digits * 10 ^ zeros := by
        rw [value_eq_whole hge, hzeros]
        rfl
      have hright : f.digits = [] ∨ 0 ≤ f.exponent := .inr hge
      have hnineteen : (encodeInt maxInt).length = 19 := by decide
      obtain ⟨hsign, hdigits⟩ := coefficientText_parts hproper hnil
      rw [if_neg hneg, if_pos hright, hnum, ← saturating hproper hnil zeros, hzeros, hsign, hdigits,
        hnineteen, Int.toNat_natCast, Nat.cast_ofNat]
      split_ifs <;> rfl

end Modary.Validation
