import Modary.Lib.Decimal
import Modary.Schema.Profile

/-! # Counts

The bounds `maxItems`, `minLength` and their like are natural numbers, written as any number token:
which tokens `nonNegativeInteger` decides rightly. -/

namespace Modary.Schema.Counts

open Modary.Lib.GoText Modary.Lib.JsonNumber Modary.Lib.JsonText Modary.Lib.Decimal
open Modary.Schema.Profile (int64 nonNegativeInteger onlyZeroDigits)

/-- A number token in a Go string, the length of which is an `int`. -/
abbrev Token := { n : Number // n.text.length < 2 ^ 63 }

/-- The exponent of a token. -/
def exponent (n : Number) : ℤ := (n.exponent.map exponentValue).getD 0

/-- How many digits stand behind the point of a token. -/
def fractionDigits (n : Number) : ℕ := (n.fraction.getD []).length

/-- The decision terminates without a panic, and is whether the token is a natural number. -/
def Decided (n : Number) : Prop :=
  ∃ result, nonNegativeInteger n = some result ∧ (result = true ↔ ∃ k : ℕ, numberValue n = k)

/-- The exponent is in reach of an `int64`: that of a zero is one or is positive, and that of a
positive number can be taken from the count of its fraction digits. -/
def InReach (n : Number) : Prop :=
  if digitsNumber (mantissa n) = 0 then -2 ^ 63 ≤ exponent n
  else n.negative = true ∨ exponent n < -2 ^ 63 ∨ fractionDigits n - exponent n < 2 ^ 63

/-! ### Arithmetic -/

theorem int64_eq {n : ℤ} (hlow : -2 ^ 63 ≤ n) (hhigh : n < 2 ^ 63) : int64 n = n := by
  unfold int64 Int.bmod
  simp only
  split <;> omega

/-- An overflow past the greatest `int64`. -/
theorem int64_wrapped {n : ℤ} (hlow : 2 ^ 63 ≤ n) (hhigh : n < 2 ^ 64) : int64 n = n - 2 ^ 64 := by
  unfold int64 Int.bmod
  simp only
  split <;> omega

variable {n : Number}

theorem mantissa_ne_nil (n : Number) : mantissa n ≠ [] := by
  intro hnil
  have hwhole := n.whole_valid
  rw [(List.append_eq_nil_iff.mp hnil).1] at hwhole
  cases hwhole

theorem length_mantissa_le (n : Number) : (mantissa n).length ≤ n.text.length := by
  unfold mantissa Number.text Number.rest
  cases n.fraction <;> simp <;> omega

theorem onlyZeroDigits_iff {digits : List Char} (h : digits.all isDigit = true) :
    onlyZeroDigits digits = true ↔ digits ≠ [] ∧ digitsNumber digits = 0 := by
  rw [onlyZeroDigits, Bool.and_eq_true, decide_eq_true_eq, List.all_eq_true,
    digitsNumber_eq_zero_iff h]
  refine and_congr_right fun _ => forall₂_congr fun c hc => ?_
  rw [List.all_eq_true] at h
  have hdot : c ≠ '.' := by
    rintro rfl
    exact absurd (h _ hc) (by decide)
  simp [hdot]

theorem onlyZeroDigits_mantissa (n : Number) :
    onlyZeroDigits (mantissa n) = true ↔ digitsNumber (mantissa n) = 0 := by
  rw [onlyZeroDigits_iff (mantissa_digits n), and_iff_right (mantissa_ne_nil n)]

/-! ### The decision -/

theorem nonNegativeInteger_zero (hzero : digitsNumber (mantissa n) = 0) :
    nonNegativeInteger n = some (decide (-2 ^ 63 ≤ exponent n)) := by
  have hdigits : onlyZeroDigits (n.whole ++ n.fraction.getD []) = true :=
    (onlyZeroDigits_mantissa n).mpr hzero
  have hexponent : (n.exponent.map Profile.exponentValue).getD 0 = exponent n := rfl
  unfold nonNegativeInteger
  simp only [hdigits, hexponent, Bool.not_true, Bool.and_false, Bool.false_eq_true, if_false,
    true_or, if_true]
  by_cases hout : exponent n < -2 ^ 63 ∨ 2 ^ 63 ≤ exponent n
  · rw [if_pos hout, Option.some_inj, decide_eq_decide]
    omega
  · rw [if_neg hout, eq_comm, Option.some_inj, decide_eq_true_eq]
    omega

theorem nonNegativeInteger_negative (hzero : digitsNumber (mantissa n) ≠ 0)
    (hnegative : n.negative = true) : nonNegativeInteger n = some false := by
  have hdigits : onlyZeroDigits (n.whole ++ n.fraction.getD []) = false := by
    rw [← Bool.not_eq_true]
    exact fun htrue => hzero ((onlyZeroDigits_mantissa n).mp htrue)
  unfold nonNegativeInteger
  simp only [hdigits, hnegative, Bool.not_false, Bool.and_true, if_true, ite_self]

/-- What is decided of a positive number. -/
theorem nonNegativeInteger_positive (hzero : digitsNumber (mantissa n) ≠ 0)
    (hnegative : n.negative = false) (hlength : n.text.length < 2 ^ 63) :
    nonNegativeInteger n =
      if exponent n < -2 ^ 63 then some false
      else if 2 ^ 63 ≤ fractionDigits n - exponent n then none
      else some (decide (10 ^ (-scale n).toNat ∣ digitsNumber (mantissa n))) := by
  have hdigits : onlyZeroDigits (mantissa n) = false := by
    rw [← Bool.not_eq_true]
    exact fun htrue => hzero ((onlyZeroDigits_mantissa n).mp htrue)
  have hexponent : (n.exponent.map Profile.exponentValue).getD 0 = exponent n := rfl
  have hmantissa : n.whole ++ n.fraction.getD [] = mantissa n := rfl
  have hfraction : (n.fraction.getD []).length = fractionDigits n := rfl
  have hscale : scale n = exponent n - fractionDigits n := rfl
  have hfit : (mantissa n).length < 2 ^ 63 := (length_mantissa_le n).trans_lt hlength
  have hfew : fractionDigits n ≤ (mantissa n).length := by
    rw [mantissa, List.length_append]
    exact Nat.le_add_left _ _
  have hdvd := ten_pow_dvd_iff (mantissa_digits n) hzero (t := (-scale n).toNat)
  unfold nonNegativeInteger
  simp only [hmantissa, hdigits, hexponent, hfraction, hnegative, Bool.false_and, Bool.false_eq_true,
    if_false, false_or, int64_eq (n := (fractionDigits n : ℤ)) (by omega) (by omega),
    int64_eq (n := ((mantissa n).length : ℤ)) (by omega) (by omega)]
  by_cases hlow : exponent n < -2 ^ 63
  · rw [if_pos (.inl hlow), if_pos hlow, Option.some_inj, decide_eq_false_iff_not]
    omega
  · rw [if_neg hlow]
    by_cases hshift : (fractionDigits n : ℤ) ≤ exponent n
    · have hnone : (-scale n).toNat = 0 := by omega
      have htrue : 10 ^ (-scale n).toNat ∣ digitsNumber (mantissa n) := by
        rw [hnone]
        exact one_dvd _
      rw [if_neg (by omega : ¬ (2 ^ 63 ≤ (fractionDigits n : ℤ) - exponent n)), decide_eq_true htrue]
      by_cases hhigh : 2 ^ 63 ≤ exponent n
      · rw [if_pos (.inr hhigh), Option.some_inj, decide_eq_true_eq]
        omega
      · rw [if_neg (by omega), if_pos hshift]
    · rw [if_neg (by omega), if_neg hshift]
      by_cases hover : 2 ^ 63 ≤ (fractionDigits n : ℤ) - exponent n
      · -- the difference comes out negative, and the slice starts behind the end
        rw [if_pos hover, int64_wrapped hover (by omega), if_neg (by omega)]
        by_cases hfar : 2 ^ 63 ≤ (mantissa n).length - ((fractionDigits n : ℤ) - exponent n - 2 ^ 64)
        · rw [int64_wrapped hfar (by omega), if_pos (.inl (by omega))]
        · rw [int64_eq (by omega) (by omega), if_pos (.inr (by omega))]
      · rw [if_neg hover, int64_eq (by omega) (by omega)]
        by_cases hshort : ((mantissa n).length : ℤ) < fractionDigits n - exponent n
        · have hnot : ¬ 10 ^ (-scale n).toNat ∣ digitsNumber (mantissa n) := by
            rw [hdvd]
            omega
          rw [if_pos hshort, decide_eq_false hnot]
        · rw [if_neg hshort, int64_eq (by omega) (by omega), if_neg (by omega), Option.some_inj,
            Bool.eq_iff_iff, decide_eq_true_eq, hdvd]
          have hstart : ((mantissa n).length - ((fractionDigits n : ℤ) - exponent n)).toNat =
              (mantissa n).length - (-scale n).toNat := by omega
          have hrest : ((mantissa n).drop ((mantissa n).length - (-scale n).toNat)).all isDigit = true := by
            have hall := mantissa_digits n
            rw [List.all_eq_true] at hall ⊢
            exact fun c hc => hall c (List.mem_of_mem_drop hc)
          have hne : (mantissa n).drop ((mantissa n).length - (-scale n).toNat) ≠ [] := by
            rw [Ne, List.drop_eq_nil_iff]
            have hpos := List.length_pos_of_ne_nil (mantissa_ne_nil n)
            omega
          rw [hstart, onlyZeroDigits_iff hrest, and_iff_right hne, and_iff_right (by omega)]

/-- **Whether a token is a natural number** is decided rightly exactly when its exponent is in
reach. -/
theorem decided_iff (token : Token) : Decided token.1 ↔ InReach token.1 := by
  obtain ⟨n, hlength⟩ := token
  unfold Decided InReach
  simp only [exists_nat_iff]
  by_cases hzero : digitsNumber (mantissa n) = 0
  · rw [if_pos hzero, nonNegativeInteger_zero hzero]
    simp [hzero]
  · rw [if_neg hzero, or_iff_right hzero]
    cases hnegative : n.negative with
    | true =>
      rw [nonNegativeInteger_negative hzero hnegative]
      simp
    | false =>
      rw [nonNegativeInteger_positive hzero hnegative hlength]
      have hscale : scale n = exponent n - fractionDigits n := rfl
      have hfew : fractionDigits n ≤ n.text.length := by
        refine le_trans ?_ (length_mantissa_le n)
        rw [mantissa, List.length_append]
        exact Nat.le_add_left _ _
      have hdvd := ten_pow_dvd_iff (mantissa_digits n) hzero (t := (-scale n).toNat)
      have hshort := length_mantissa_le n
      by_cases hlow : exponent n < -2 ^ 63
      · have hnot : ¬ 10 ^ (-scale n).toNat ∣ digitsNumber (mantissa n) := by
          rw [hdvd]
          omega
        rw [if_pos hlow]
        refine iff_of_true ⟨false, rfl, ?_⟩ (.inr (.inl hlow))
        exact iff_of_false Bool.false_ne_true fun hboth => hnot hboth.2
      · rw [if_neg hlow]
        by_cases hover : 2 ^ 63 ≤ (fractionDigits n : ℤ) - exponent n
        · rw [if_pos hover]
          refine iff_of_false ?_ (by simp only [Bool.false_eq_true, false_or]; omega)
          rintro ⟨_, hnone, -⟩
          cases hnone
        · rw [if_neg hover]
          simp only [Option.some_inj, exists_eq_left', decide_eq_true_eq, true_and, Bool.false_eq_true,
            false_or, hlow, true_iff]
          omega

/-- A zero with an exponent below the least `int64`. -/
def farZero : Number :=
  ⟨false, ['0'], none, some ⟨false, some true, "9223372036854775809".toList⟩, by decide,
    Number.fraction_none, by decide⟩

/-- A number with the least `int64` as its exponent. -/
def least : Number :=
  ⟨false, ['1'], none, some ⟨false, some true, "9223372036854775808".toList⟩, Number.whole_one,
    Number.fraction_none, by decide⟩

/-- **A zero is refused** because of its exponent, and another exponent makes the decision panic. -/
theorem not_decided : ¬ Decided farZero ∧ nonNegativeInteger least = none := by
  refine ⟨?_, by decide +kernel⟩
  have hfalse : nonNegativeInteger farZero = some false := by decide +kernel
  rintro ⟨result, hresult, hiff⟩
  rw [hfalse] at hresult
  cases hresult
  exact Bool.false_ne_true (hiff.mpr ((exists_nat_iff farZero).mpr (.inl (by decide))))

end Modary.Schema.Counts
