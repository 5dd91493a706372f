import Mathlib.Tactic.Linarith
import Mathlib.Tactic.Ring
import Modary.Lib.JsonPrint

/-! # Exact decimals

A number token as a sign, digits without zeros at either end, and a power of ten: the tokens of one
value have one such form. -/

namespace Modary.Lib.Decimal

open Modary.Lib.GoText Modary.Lib.JsonNumber Modary.Lib.JsonText

/-! ### Digits -/

theorem digitsNumber_append (a b : List Char) :
    digitsNumber (a ++ b) = 10 ^ b.length * digitsNumber a + digitsNumber b := by
  rw [digitsNumber, Nat.ofDigitChars_append, Nat.ofDigitChars_eq_ofDigitChars_zero]
  rfl

theorem digitsNumber_replicate (k : ℕ) : digitsNumber (List.replicate k '0') = 0 := by
  rw [digitsNumber, Nat.ofDigitChars_replicate_zero, Nat.mul_zero]

theorem digitsNumber_cons (c : Char) (cs : List Char) :
    digitsNumber (c :: cs) = 10 ^ cs.length * (c.toNat - '0'.toNat) + digitsNumber cs := by
  have h := digitsNumber_append [c] cs
  rw [List.singleton_append] at h
  rw [h]
  simp [digitsNumber, Nat.ofDigitChars_cons, Nat.ofDigitChars_nil]

/-- Zeros at the front add nothing. -/
theorem digitsNumber_dropWhile (digits : List Char) :
    digitsNumber (digits.dropWhile (· = '0')) = digitsNumber digits := by
  induction digits with
  | nil => rfl
  | cons c digits ih =>
    by_cases hc : c = '0'
    · subst hc
      rw [List.dropWhile_cons_of_pos (by simp), ih, digitsNumber_cons]
      simp
    · rw [List.dropWhile_cons_of_neg (by simpa using hc)]

/-- Zeros at the end are a power of ten. -/
theorem digitsNumber_rdropWhile (digits : List Char) :
    digitsNumber digits = digitsNumber (digits.rdropWhile (· = '0')) *
      10 ^ (digits.length - (digits.rdropWhile (· = '0')).length) := by
  induction digits using List.reverseRecOn with
  | nil => rfl
  | append_singleton digits c ih =>
    by_cases hc : c = '0'
    · subst hc
      have hle : (digits.rdropWhile (· = '0')).length ≤ digits.length :=
        (List.rdropWhile_prefix _ _).length_le
      rw [List.rdropWhile_concat_pos _ _ _ (by simp), digitsNumber_append, ih]
      have hlength : (digits ++ ['0']).length - (digits.rdropWhile (· = '0')).length =
          digits.length - (digits.rdropWhile (· = '0')).length + 1 := by
        rw [List.length_append, List.length_singleton]
        omega
      rw [hlength, pow_succ]
      have hzero : digitsNumber ['0'] = 0 := digitsNumber_replicate 1
      rw [hzero, List.length_singleton]
      ring
    · rw [List.rdropWhile_concat_neg _ _ _ (by simpa using hc)]
      simp

theorem toNat_of_isDigit {c : Char} (h : isDigit c = true) : 48 ≤ c.toNat ∧ c.toNat ≤ 57 := by
  rw [isDigit, Bool.and_eq_true, decide_eq_true_eq, decide_eq_true_eq, Char.le_def, Char.le_def,
    UInt32.le_iff_toNat_le, UInt32.le_iff_toNat_le] at h
  exact h

/-- The character of a digit. -/
theorem digitChar_of_isDigit {c : Char} (h : isDigit c = true) :
    Nat.digitChar (c.toNat - 48) = c := by
  have hbounds := toNat_of_isDigit h
  have hnat := Nat.toNat_digitChar_of_lt_ten (n := c.toNat - 48) (by omega)
  have heq : (Nat.digitChar (c.toNat - 48)).toNat = c.toNat := by omega
  rw [← Char.ofNat_toNat c, ← heq, Char.ofNat_toNat, heq]

/-- Digits that do not start with a zero are the digits of their number. -/
theorem toDigits_digitsNumber {digits : List Char} (hdigits : digits.all isDigit = true)
    (hne : digits ≠ []) (hhead : digits.head? ≠ some '0') :
    0 < digitsNumber digits ∧ Nat.toDigits 10 (digitsNumber digits) = digits := by
  induction digits using List.reverseRecOn with
  | nil => exact absurd rfl hne
  | append_singleton digits c ih =>
    rw [List.all_append, Bool.and_eq_true] at hdigits
    have hc : isDigit c = true := by simpa using hdigits.2
    have hbounds := toNat_of_isDigit hc
    have hchar := digitChar_of_isDigit hc
    have hlast : digitsNumber [c] = c.toNat - 48 := by
      rw [digitsNumber_cons]
      simp [digitsNumber]
    rw [digitsNumber_append, hlast, List.length_singleton, pow_one]
    by_cases hnil : digits = []
    · subst hnil
      have hzero : c ≠ '0' := by simpa using hhead
      have hpos : c.toNat - 48 ≠ 0 := by
        intro h0
        rw [h0] at hchar
        exact hzero hchar.symm
      have hnone : digitsNumber [] = 0 := rfl
      rw [hnone, Nat.mul_zero, Nat.zero_add, Nat.toDigits_of_lt_base (by omega), hchar]
      exact ⟨by omega, rfl⟩
    · have hhead' : digits.head? ≠ some '0' := by
        rw [List.head?_append_of_ne_nil _ hnil] at hhead
        exact hhead
      obtain ⟨hpos, ih⟩ := ih hdigits.1 hnil hhead'
      have hdiv : (10 * digitsNumber digits + (c.toNat - 48)) / 10 = digitsNumber digits := by omega
      have hmod : (10 * digitsNumber digits + (c.toNat - 48)) % 10 = c.toNat - 48 := by omega
      rw [Nat.toDigits_of_base_le (by omega) (by omega), hdiv, hmod, ih, hchar]
      exact ⟨by omega, rfl⟩

/-! ### Forms -/

/-- A sign, digits and a power of ten; zero has no digits. -/
structure Form where
  negative : Bool
  digits : List Char
  exponent : ℤ
  deriving DecidableEq, Repr

namespace Form

/-- The number of a form. -/
def value (f : Form) : ℚ :=
  (if f.negative then -(digitsNumber f.digits : ℚ) else digitsNumber f.digits) * 10 ^ f.exponent

/-- A form without zeros at either end of its digits. -/
structure Proper (f : Form) : Prop where
  digits : f.digits.all isDigit = true
  head : f.digits.head? ≠ some '0'
  last : f.digits.getLast? ≠ some '0'
  zero : f.digits = [] → f = ⟨false, [], 0⟩

variable {f g : Form}

theorem Proper.pos (h : f.Proper) (hne : f.digits ≠ []) : 0 < digitsNumber f.digits :=
  (toDigits_digitsNumber h.digits hne h.head).1

/-- The number of the digits is no multiple of ten. -/
theorem Proper.not_dvd (h : f.Proper) (hne : f.digits ≠ []) : ¬ 10 ∣ digitsNumber f.digits := by
  intro hdvd
  have hsplit := List.dropLast_append_getLast hne
  have hmem : f.digits.getLast hne ∈ f.digits := List.getLast_mem hne
  have hdigit : isDigit (f.digits.getLast hne) = true := List.all_eq_true.mp h.digits _ hmem
  have hbounds := toNat_of_isDigit hdigit
  have hnumber : digitsNumber f.digits =
      10 * digitsNumber f.digits.dropLast + ((f.digits.getLast hne).toNat - 48) := by
    conv_lhs => rw [← hsplit]
    rw [digitsNumber_append, digitsNumber_cons]
    simp [digitsNumber]
  have hzero : (f.digits.getLast hne).toNat - 48 = 0 := by omega
  have hchar := digitChar_of_isDigit hdigit
  rw [hzero] at hchar
  have hlast : f.digits.getLast? = some '0' := by
    rw [List.getLast?_eq_some_getLast hne, ← hchar]
    rfl
  exact h.last hlast

theorem pow_ten_pos (e : ℤ) : (0 : ℚ) < 10 ^ e := zpow_pos (by norm_num) e

theorem value_eq_zero_iff (h : f.Proper) : f.value = 0 ↔ f.digits = [] := by
  have hpow := pow_ten_pos f.exponent
  constructor
  · intro hvalue
    by_contra hne
    have hpos : (0 : ℚ) < digitsNumber f.digits := by exact_mod_cast h.pos hne
    rw [value, mul_eq_zero] at hvalue
    rcases hvalue with hvalue | hvalue
    · split_ifs at hvalue <;> linarith
    · linarith
  · intro hnil
    rw [h.zero hnil]
    simp [value, digitsNumber]

/-- The sign of a value. -/
theorem negative_iff (h : f.Proper) (hne : f.digits ≠ []) : f.negative = true ↔ f.value < 0 := by
  have hpow := pow_ten_pos f.exponent
  have hpos : (0 : ℚ) < digitsNumber f.digits := by exact_mod_cast h.pos hne
  have hmul := mul_pos hpos hpow
  cases hn : f.negative with
  | true =>
    simp only [value, hn, if_true, true_iff]
    linarith
  | false =>
    simp only [value, hn, Bool.false_eq_true, if_false, false_iff, not_lt]
    linarith

theorem digits_eq_of_le (hf : f.Proper) (hne : f.digits ≠ [])
    (hle : f.exponent ≤ g.exponent)
    (h : (digitsNumber f.digits : ℚ) * 10 ^ f.exponent =
      (digitsNumber g.digits : ℚ) * 10 ^ g.exponent) : f.exponent = g.exponent ∧
        digitsNumber f.digits = digitsNumber g.digits := by
  obtain ⟨k, hk⟩ := Int.le.dest hle
  have hpow := pow_ten_pos f.exponent
  have hcast : (digitsNumber f.digits : ℚ) = digitsNumber g.digits * 10 ^ k := by
    rw [← hk, zpow_add₀ (by norm_num), zpow_natCast] at h
    have h' : (digitsNumber f.digits : ℚ) * 10 ^ f.exponent =
        (digitsNumber g.digits * 10 ^ k) * 10 ^ f.exponent := by
      rw [h]
      ring
    exact mul_right_cancel₀ hpow.ne' h'
  have hnat : digitsNumber f.digits = digitsNumber g.digits * 10 ^ k := by exact_mod_cast hcast
  have hzero : k = 0 := by
    by_contra hk0
    obtain ⟨j, rfl⟩ := Nat.exists_eq_succ_of_ne_zero hk0
    refine hf.not_dvd hne ⟨digitsNumber g.digits * 10 ^ j, ?_⟩
    rw [hnat, pow_succ]
    ring
  subst hzero
  exact ⟨by omega, by simpa using hnat⟩

/-- **Proper forms of one value are the same.** -/
theorem eq_of_value (hf : f.Proper) (hg : g.Proper) (h : f.value = g.value) : f = g := by
  by_cases hne : f.digits = []
  · have hzero := (value_eq_zero_iff hf).mpr hne
    rw [h] at hzero
    rw [hf.zero hne, hg.zero ((value_eq_zero_iff hg).mp hzero)]
  · have hne' : g.digits ≠ [] := by
      intro hnil
      have hzero := (value_eq_zero_iff hg).mpr hnil
      rw [← h] at hzero
      exact hne ((value_eq_zero_iff hf).mp hzero)
    have hsign : f.negative = g.negative := by
      have hf' := negative_iff hf hne
      have hg' := negative_iff hg hne'
      rw [h] at hf'
      rw [Bool.eq_iff_iff]
      exact hf'.trans hg'.symm
    have habs : (digitsNumber f.digits : ℚ) * 10 ^ f.exponent =
        (digitsNumber g.digits : ℚ) * 10 ^ g.exponent := by
      rw [value, value, hsign] at h
      split_ifs at h
      · linarith
      · exact h
    have hboth : f.exponent = g.exponent ∧ digitsNumber f.digits = digitsNumber g.digits := by
      rcases le_total f.exponent g.exponent with hle | hle
      · exact digits_eq_of_le hf hne hle habs
      · obtain ⟨he, hd⟩ := digits_eq_of_le hg hne' hle habs.symm
        exact ⟨he.symm, hd.symm⟩
    have hdigits : f.digits = g.digits := by
      rw [← (toDigits_digitsNumber hf.digits hne hf.head).2, hboth.2,
        (toDigits_digitsNumber hg.digits hne' hg.head).2]
    obtain ⟨fn, fd, fe⟩ := f
    obtain ⟨gn, gd, ge⟩ := g
    simp only at hsign hdigits hboth
    rw [hsign, hdigits, hboth.1]

end Form

/-! ### The form of a token -/

/-- The digits of a token without its point. -/
def mantissa (n : Number) : List Char := n.whole ++ n.fraction.getD []

/-- The power of ten that its digits are multiplied with. -/
def scale (n : Number) : ℤ :=
  (n.exponent.map exponentValue).getD 0 - (n.fraction.getD []).length

/-- The form of a token. -/
def form (n : Number) : Form :=
  let coefficient := (mantissa n).dropWhile (· = '0')
  if coefficient = [] then ⟨false, [], 0⟩
  else
    let trimmed := coefficient.rdropWhile (· = '0')
    ⟨n.negative, trimmed, scale n + (coefficient.length - trimmed.length : ℤ)⟩

theorem mantissa_digits (n : Number) : (mantissa n).all isDigit = true := by
  rw [mantissa, List.all_append, digits_of_wholeNumber n.whole_valid, Bool.true_and]
  cases hf : n.fraction with
  | none => rfl
  | some digits =>
    have hvalid := n.fraction_valid
    rw [hf, Option.all_some, Bool.and_eq_true] at hvalid
    exact hvalid.2

theorem head_dropWhile_ne (digits : List Char) :
    (digits.dropWhile (· = '0')).head? ≠ some '0' := by
  intro h
  have hne : digits.dropWhile (· = '0') ≠ [] := by
    intro hnil
    rw [hnil] at h
    cases h
  have hnot := List.head_dropWhile_not (· = '0') hne
  rw [List.head?_eq_some_head hne] at h
  rw [Option.some.inj h] at hnot
  simp at hnot

theorem rdropWhile_ne_nil {coefficient : List Char} (hne : coefficient ≠ [])
    (hhead : coefficient.head? ≠ some '0') : coefficient.rdropWhile (· = '0') ≠ [] := by
  intro htrim
  rw [List.rdropWhile_eq_nil_iff] at htrim
  cases coefficient with
  | nil => exact hne rfl
  | cons c cs =>
    have hzero : c = '0' := of_decide_eq_true (htrim c List.mem_cons_self)
    refine hhead ?_
    rw [hzero]
    rfl

theorem form_proper (n : Number) : (form n).Proper := by
  unfold form
  simp only
  by_cases hnil : (mantissa n).dropWhile (· = '0') = []
  · rw [if_pos hnil]
    exact ⟨rfl, by simp, by simp, fun _ => rfl⟩
  · rw [if_neg hnil]
    have hhead := head_dropWhile_ne (mantissa n)
    generalize hc : (mantissa n).dropWhile (· = '0') = coefficient at hnil hhead
    have hdigits : coefficient.all isDigit = true := by
      have hall := mantissa_digits n
      rw [List.all_eq_true] at hall ⊢
      intro c hmem
      rw [← hc] at hmem
      exact hall c ((List.dropWhile_sublist _).subset hmem)
    have hinit : coefficient.rdropWhile (· = '0') <+: coefficient := List.rdropWhile_prefix _ _
    have hne : coefficient.rdropWhile (· = '0') ≠ [] := rdropWhile_ne_nil hnil hhead
    refine ⟨?_, ?_, ?_, fun htrim => absurd htrim hne⟩
    · rw [List.all_eq_true] at hdigits ⊢
      exact fun c hmem => hdigits c (hinit.subset hmem)
    · intro h
      obtain ⟨rest, hrest⟩ := hinit
      refine hhead ?_
      rw [← hrest, List.head?_append_of_ne_nil _ hne]
      exact h
    · intro h
      rw [List.getLast?_eq_some_getLast hne] at h
      have hnot := List.rdropWhile_last_not (· = '0') coefficient hne
      exact hnot (by simpa using Option.some.inj h)

theorem numberValue_eq (n : Number) : numberValue n =
    (if n.negative then -(digitsNumber (mantissa n) : ℚ) else digitsNumber (mantissa n)) *
      10 ^ scale n := rfl

/-- **A token has the value of its form.** -/
theorem form_value (n : Number) : (form n).value = numberValue n := by
  have hnumber := digitsNumber_dropWhile (mantissa n)
  rw [numberValue_eq, ← hnumber]
  unfold form
  simp only
  by_cases hnil : (mantissa n).dropWhile (· = '0') = []
  · rw [if_pos hnil, hnil]
    simp [Form.value, digitsNumber]
  · rw [if_neg hnil]
    generalize (mantissa n).dropWhile (· = '0') = coefficient
    have hle : (coefficient.rdropWhile (· = '0')).length ≤ coefficient.length :=
      (List.rdropWhile_prefix _ _).length_le
    have htrim := digitsNumber_rdropWhile coefficient
    have hexponent : (coefficient.length - (coefficient.rdropWhile (· = '0')).length : ℤ) =
        ((coefficient.length - (coefficient.rdropWhile (· = '0')).length : ℕ) : ℤ) := by
      omega
    have hcast : (digitsNumber coefficient : ℚ) =
        digitsNumber (coefficient.rdropWhile (· = '0')) *
          10 ^ (coefficient.length - (coefficient.rdropWhile (· = '0')).length) := by
      exact_mod_cast htrim
    rw [Form.value, hexponent, zpow_add₀ (by norm_num), zpow_natCast, hcast]
    split_ifs <;> ring

/-- **Tokens of one value have one form.** -/
theorem form_eq_iff {n m : Number} : form n = form m ↔ numberValue n = numberValue m := by
  constructor
  · intro h
    rw [← form_value, h, form_value]
  · intro h
    exact Form.eq_of_value (form_proper n) (form_proper m)
      ((form_value n).trans (h.trans (form_value m).symm))

/-! ### Whole numbers -/

theorem digitsNumber_lt {digits : List Char} (h : digits.all isDigit = true) :
    digitsNumber digits < 10 ^ digits.length := by
  induction digits with
  | nil => decide
  | cons c digits ih =>
    rw [List.all_cons, Bool.and_eq_true] at h
    have hbounds := toNat_of_isDigit h.1
    have hrest := ih h.2
    have hzero : '0'.toNat = 48 := rfl
    have hdigit : c.toNat - 48 ≤ 9 := by omega
    have hmul := Nat.mul_le_mul_left (10 ^ digits.length) hdigit
    rw [digitsNumber_cons, List.length_cons, pow_succ, hzero]
    omega

theorem digitsNumber_eq_zero_iff {digits : List Char} (h : digits.all isDigit = true) :
    digitsNumber digits = 0 ↔ ∀ c ∈ digits, c = '0' := by
  induction digits with
  | nil => simp [digitsNumber]
  | cons c digits ih =>
    rw [List.all_cons, Bool.and_eq_true] at h
    have hchar := digitChar_of_isDigit h.1
    have hpow : 10 ^ digits.length ≠ 0 := by positivity
    rw [digitsNumber_cons, Nat.add_eq_zero_iff, ih h.2, Nat.mul_eq_zero, List.forall_mem_cons]
    constructor
    · rintro ⟨hc | hc, hrest⟩
      · exact absurd hc hpow
      · refine ⟨?_, hrest⟩
        rw [← hchar, show c.toNat - 48 = 0 from hc]
        rfl
    · rintro ⟨rfl, hrest⟩
      exact ⟨.inr rfl, hrest⟩

/-- The powers of ten in the number of some digits are the zeros at their end. -/
theorem ten_pow_dvd_iff {digits : List Char} (h : digits.all isDigit = true)
    (hne : digitsNumber digits ≠ 0) {t : ℕ} :
    10 ^ t ∣ digitsNumber digits ↔
      t ≤ digits.length ∧ digitsNumber (digits.drop (digits.length - t)) = 0 := by
  have hlt := digitsNumber_lt h
  by_cases hle : t ≤ digits.length
  · have hsplit := List.take_append_drop (digits.length - t) digits
    have hdrop : (digits.drop (digits.length - t)).length = t := by
      rw [List.length_drop]
      omega
    have hlow : digitsNumber (digits.drop (digits.length - t)) < 10 ^ t := by
      have hall : (digits.drop (digits.length - t)).all isDigit = true := by
        rw [List.all_eq_true] at h ⊢
        exact fun c hc => h c (List.mem_of_mem_drop hc)
      have hbound := digitsNumber_lt hall
      rwa [hdrop] at hbound
    have hnumber : digitsNumber digits = 10 ^ t * digitsNumber (digits.take (digits.length - t)) +
        digitsNumber (digits.drop (digits.length - t)) := by
      conv_lhs => rw [← hsplit]
      rw [digitsNumber_append, hdrop]
    rw [hnumber, Nat.dvd_add_right (Dvd.intro _ rfl)]
    constructor
    · intro hdvd
      exact ⟨hle, Nat.eq_zero_of_dvd_of_lt hdvd hlow⟩
    · rintro ⟨-, hzero⟩
      rw [hzero]
      exact dvd_zero _
  · refine iff_of_false ?_ fun hboth => hle hboth.1
    intro hdvd
    have hge := Nat.le_of_dvd (Nat.pos_of_ne_zero hne) hdvd
    have hmono : 10 ^ digits.length ≤ 10 ^ t := Nat.pow_le_pow_right (by omega) (by omega)
    omega

/-- A token is a natural number when it is zero, or has no sign and its digits have as many zeros at
their end as its scale takes from them. -/
theorem exists_nat_iff (n : Number) : (∃ k : ℕ, numberValue n = k) ↔
    digitsNumber (mantissa n) = 0 ∨
      (n.negative = false ∧ 10 ^ (-scale n).toNat ∣ digitsNumber (mantissa n)) := by
  rw [numberValue_eq]
  by_cases hzero : digitsNumber (mantissa n) = 0
  · refine iff_of_true ⟨0, ?_⟩ (.inl hzero)
    rw [hzero]
    simp
  · have hpos : (0 : ℚ) < digitsNumber (mantissa n) := by
      exact_mod_cast Nat.pos_of_ne_zero hzero
    have hpow := Form.pow_ten_pos (scale n)
    have hmul := mul_pos hpos hpow
    cases hn : n.negative with
    | true =>
      refine iff_of_false ?_ (by simp [hzero])
      rintro ⟨k, hk⟩
      have hk0 : (0 : ℚ) ≤ k := by exact_mod_cast Nat.zero_le k
      rw [if_pos rfl, neg_mul] at hk
      linarith
    | false =>
      rw [if_neg Bool.false_ne_true, or_iff_right hzero, and_iff_right rfl]
      by_cases hscale : 0 ≤ scale n
      · obtain ⟨j, hj⟩ := Int.eq_ofNat_of_zero_le hscale
        have hexp : (-scale n).toNat = 0 := by omega
        refine iff_of_true ⟨digitsNumber (mantissa n) * 10 ^ j, ?_⟩ (by rw [hexp]; exact one_dvd _)
        rw [hj]
        push_cast
        rfl
      · obtain ⟨t, ht⟩ := Int.eq_ofNat_of_zero_le (show 0 ≤ -scale n by omega)
        have hexp : (-scale n).toNat = t := by omega
        have hneg : scale n = -(t : ℤ) := by omega
        have hten : (10 : ℚ) ^ t ≠ 0 := by positivity
        rw [hexp, hneg, zpow_neg, zpow_natCast]
        constructor
        · rintro ⟨k, hk⟩
          rw [mul_inv_eq_iff_eq_mul₀ hten] at hk
          refine ⟨k, ?_⟩
          rw [Nat.mul_comm]
          exact_mod_cast hk
        · rintro ⟨k, hk⟩
          refine ⟨k, ?_⟩
          rw [mul_inv_eq_iff_eq_mul₀ hten, hk, Nat.mul_comm]
          push_cast
          rfl

end Modary.Lib.Decimal
