import Modary.Lib.GoText

/-! # JSON numbers

The number tokens of a JSON text, by the parts of their grammar. -/

namespace Modary.Lib.JsonNumber

open Modary.Lib.GoText

/-- `0|[1-9][0-9]*`. -/
def wholeNumber : List Char → Bool
  | [] => false
  | c :: cs => (c = '0' && cs = []) || ('1' ≤ c && c ≤ '9' && cs.all isDigit)

/-- The exponent of a token: its letter, its sign if it has one, and its digits. -/
structure Exponent where
  capital : Bool
  sign : Option Bool
  digits : List Char
  deriving DecidableEq, Repr

/-- A number token. -/
structure Number where
  negative : Bool
  whole : List Char
  fraction : Option (List Char)
  exponent : Option Exponent
  whole_valid : wholeNumber whole = true
  fraction_valid : fraction.all (fun digits => digits ≠ [] && digits.all isDigit) = true
  exponent_valid : exponent.all (fun e => e.digits ≠ [] && e.digits.all isDigit) = true
  deriving DecidableEq

namespace Exponent

/-- The text of an exponent. -/
def text (e : Exponent) : List Char :=
  (if e.capital then 'E' else 'e') ::
    ((match e.sign with
      | none => []
      | some true => ['-']
      | some false => ['+']) ++ e.digits)

end Exponent

namespace Number

theorem whole_one : wholeNumber ['1'] = true := rfl

theorem fraction_none :
    (none : Option (List Char)).all (fun digits => digits ≠ [] && digits.all isDigit) = true := rfl

theorem exponent_none :
    (none : Option Exponent).all (fun e => e.digits ≠ [] && e.digits.all isDigit) = true := rfl

variable (n : Number)

/-- What stands after the whole part. -/
def rest : List Char :=
  (match n.fraction with
    | none => []
    | some digits => '.' :: digits) ++
  (match n.exponent with
    | none => []
    | some e => e.text)

/-- The token as it stands in the text. -/
def text : List Char := (if n.negative then ['-'] else []) ++ n.whole ++ n.rest

/-- A token without a fraction and without an exponent. -/
def integer : Bool := n.fraction.isNone && n.exponent.isNone

theorem rest_eq_nil_iff : n.rest = [] ↔ n.integer = true := by
  unfold rest integer
  cases n.fraction <;> cases n.exponent <;> simp [Exponent.text]

/-- What stands after the whole part does not start with a digit. -/
theorem rest_head {c : Char} {cs : List Char} (h : n.rest = c :: cs) : isDigit c = false := by
  unfold rest at h
  cases hf : n.fraction with
  | some digits =>
    rw [hf] at h
    have hc : '.' = c := (List.cons.inj h).1
    rw [← hc]
    decide
  | none =>
    cases he : n.exponent with
    | none => rw [hf, he] at h; cases h
    | some e =>
      rw [hf, he] at h
      have hc : (if e.capital then 'E' else 'e') = c := (List.cons.inj h).1
      rw [← hc]
      cases e.capital <;> decide

end Number

end Modary.Lib.JsonNumber
