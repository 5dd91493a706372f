import Modary.Lib.Codec
import Modary.Lib.Decimal
import Modary.Lib.JsonOrder

/-! # Canonical JSON

`canonicalizeJSONValue` and `normalizeJSONNumber`, of which `action` and `actionruntime` have the same
text: the numbers of a document are respelled, and tokens of one value get one spelling. -/

namespace Modary.Action.Canonical

open Modary.Lib.GoText Modary.Lib.JsonNumber Modary.Lib.JsonValue Modary.Lib.JsonText
open Modary.Lib.Decimal
open Modary.Lib.Codec (encodeInt)

/-! ### Numbers -/

def maxJSONNumberBytes : ℕ := 4096

/-- `IsInt64`. -/
def isInt64 (n : ℤ) : Bool := -2 ^ 63 ≤ n && n < 2 ^ 63

/-- A sum of `int64`. -/
def wrapInt64 (n : ℤ) : ℤ := (n + 2 ^ 63) % 2 ^ 64 - 2 ^ 63

/-- The most bytes that the runtime of Go allocates at once. -/
def maxAlloc : ℤ := 2 ^ 48

/-- `strings.Repeat("0", count)`, which panics when it cannot allocate its result. -/
def repeatZeros (count : ℤ) : Option (List Char) :=
  if maxAlloc < count then none else some (List.replicate count.toNat '0')

/-- `renderCanonicalNumber`; `none` is a panic. -/
def renderCanonicalNumber (coefficient : List Char) (exponent : ℤ) : Option (List Char) :=
  let scientific := coefficient ++ 'e' :: encodeInt exponent
  let negative := coefficient.head? = some '-'
  let sign := if negative then ['-'] else []
  let digits := if negative then coefficient.tail else coefficient
  if 0 < exponent ∧ isInt64 exponent = true then
    if exponent ≤ maxJSONNumberBytes - coefficient.length then
      (repeatZeros exponent).map fun zeros => coefficient ++ zeros
    else some scientific
  else if 0 ≤ exponent then some scientific
  else if isInt64 (-exponent) = false then some scientific
  else if -exponent < digits.length then
    let point := (digits.length + exponent).toNat
    if coefficient.length + 1 ≤ maxJSONNumberBytes then
      some (sign ++ digits.take point ++ '.' :: digits.drop point)
    else some scientific
  else
    let leadingZeros := -exponent - digits.length
    let outputBytes := wrapInt64 (sign.length + 2 + digits.length + leadingZeros)
    if outputBytes ≤ maxJSONNumberBytes then
      (repeatZeros leadingZeros).map fun zeros => sign ++ '0' :: '.' :: (zeros ++ digits)
    else some scientific

/-- Why a number is not normalized. -/
inductive NumberError
  | exceeds
  | panics
  deriving DecidableEq, Repr

/-- `normalizeJSONNumber`. -/
def normalizeJSONNumber (n : Number) : Except NumberError (List Char) := do
  refuseIf (maxJSONNumberBytes < n.text.length) .exceeds
  let fraction := n.fraction.getD []
  let coefficient := (n.whole ++ fraction).dropWhile (· = '0')
  if coefficient = [] then return ['0']
  let trimmed := coefficient.rdropWhile (· = '0')
  let exponent := (n.exponent.map exponentValue).getD 0 - fraction.length +
    (coefficient.length - trimmed.length : ℤ)
  let signed := if n.negative then '-' :: trimmed else trimmed
  if exponent = 0 then return signed
  match renderCanonicalNumber signed exponent with
  | some text => return text
  | none => .error .panics

example : (normalizeJSONNumber ⟨false, ['1'], none, some ⟨false, some true,
    "9223372036854775807".toList⟩, by decide, by decide, by decide⟩) = .error .panics := by
  decide +kernel

/-! ### Spellings -/

/-- The digits of a form behind its sign. -/
def signed (f : Form) : List Char := if f.negative then '-' :: f.digits else f.digits

/-- The spelling of a form. -/
def spelling (f : Form) : Option (List Char) :=
  if f.digits = [] then some ['0']
  else if f.exponent = 0 then some (signed f)
  else renderCanonicalNumber (signed f) f.exponent

/-- A number is respelled by its form. -/
theorem normalizeJSONNumber_eq_ok {n : Number} {text : List Char} :
    normalizeJSONNumber n = .ok text ↔
      n.text.length ≤ maxJSONNumberBytes ∧ spelling (form n) = some text := by
  have hbody : normalizeJSONNumber n =
      (refuseIf (maxJSONNumberBytes < n.text.length) .exceeds >>= fun _ =>
        match spelling (form n) with
        | some text => .ok text
        | none => .error .panics) := by
    unfold normalizeJSONNumber form mantissa scale spelling
    congr 1
    funext _
    simp only
    by_cases hnil : (n.whole ++ n.fraction.getD []).dropWhile (· = '0') = []
    · simp only [if_pos hnil]
      rfl
    · have hne := rdropWhile_ne_nil hnil (head_dropWhile_ne _)
      simp only [if_neg hnil, if_neg hne]
      generalize (n.exponent.map exponentValue).getD 0 - ((n.fraction.getD []).length : ℤ) + _ =
        exponent
      by_cases hzero : exponent = 0
      · simp only [if_pos hzero]
        rfl
      · simp only [if_neg hzero]
        rfl
  rw [hbody, bind_eq_ok]
  constructor
  · rintro ⟨_, hlength, h⟩
    refine ⟨Nat.le_of_not_lt (refuseIf_eq_ok.mp hlength), ?_⟩
    split at h
    · next text' htext =>
      cases h
      exact htext
    · cases h
  · rintro ⟨hlength, h⟩
    refine ⟨(), refuseIf_eq_ok.mpr (Nat.not_lt_of_le hlength), ?_⟩
    rw [h]

/-! ### Tokens -/

/-- A number of digits that do not start with a zero is a token. -/
theorem wholeNumber_of_digits {digits : List Char} (hdigits : digits.all isDigit = true)
    (hne : digits ≠ []) (hhead : digits.head? ≠ some '0') : wholeNumber digits = true := by
  cases digits with
  | nil => exact absurd rfl hne
  | cons c cs =>
    rw [List.all_cons, Bool.and_eq_true] at hdigits
    have hbounds := toNat_of_isDigit hdigits.1
    have hc : c ≠ '0' := by simpa using hhead
    have hlow : '1' ≤ c := by
      rw [Char.le_def, UInt32.le_iff_toNat_le]
      have hne48 : c.toNat ≠ 48 := by
        intro h
        refine hc ?_
        rw [← Char.ofNat_toNat c, h]
      change 49 ≤ c.toNat
      omega
    have hhigh : c ≤ '9' := by
      rw [Char.le_def, UInt32.le_iff_toNat_le]
      exact hbounds.2
    rw [wholeNumber, decide_eq_true hlow, decide_eq_true hhigh, hdigits.2, Bool.and_self,
      Bool.and_self, Bool.or_true]

/-- The digits of an exponent. -/
theorem exponentValue_encodeInt (e : ℤ) : ∃ x : Exponent, x.text = 'e' :: encodeInt e ∧
    exponentValue x = e ∧ (x.digits ≠ [] && x.digits.all isDigit) = true := by
  have hall : ∀ n : ℕ, (Nat.toDigits 10 n).all isDigit = true := by
    intro n
    rw [List.all_eq_true]
    intro c hc
    have hdigit : c.isDigit = true := Nat.isDigit_of_mem_toDigits (by omega) (by omega) hc
    simpa [isDigit, Char.isDigit, Char.le_def] using hdigit
  have hne : ∀ n : ℕ, Nat.toDigits 10 n ≠ [] := fun n => Nat.toDigits_ne_nil
  cases e with
  | ofNat n =>
    refine ⟨⟨false, none, Nat.toDigits 10 n⟩, rfl, ?_, ?_⟩
    · simp [exponentValue, digitsNumber]
    · rw [hall, Bool.and_true]
      exact decide_eq_true (hne n)
  | negSucc n =>
    refine ⟨⟨false, some true, Nat.toDigits 10 (n + 1)⟩, rfl, ?_, ?_⟩
    · simp [exponentValue, digitsNumber, Int.negSucc_eq]
    · rw [hall, Bool.and_true]
      exact decide_eq_true (hne (n + 1))

variable {f : Form}

/-- A form as digits and an exponent. -/
theorem token_scientific (h : f.Proper) (hne : f.digits ≠ []) :
    ∃ m : Number, m.text = signed f ++ 'e' :: encodeInt f.exponent ∧ numberValue m = f.value := by
  obtain ⟨x, htext, hvalue, hvalid⟩ := exponentValue_encodeInt f.exponent
  refine ⟨⟨f.negative, f.digits, none, some x, wholeNumber_of_digits h.digits hne h.head, rfl,
    hvalid⟩, ?_, ?_⟩
  · simp only [Number.text, Number.rest, htext, signed]
    split_ifs <;> simp
  · rw [numberValue_eq, Form.value]
    simp [mantissa, scale, hvalue]

/-- A form as digits and zeros behind them. -/
theorem token_zeros (h : f.Proper) (hne : f.digits ≠ []) {k : ℕ} (hk : f.exponent = k) :
    ∃ m : Number, m.text = signed f ++ List.replicate k '0' ∧ numberValue m = f.value := by
  have hdigits : (f.digits ++ List.replicate k '0').all isDigit = true := by
    rw [List.all_append, h.digits, Bool.true_and, List.all_eq_true]
    intro c hc
    rw [List.eq_of_mem_replicate hc]
    decide
  have hhead : (f.digits ++ List.replicate k '0').head? ≠ some '0' := by
    rw [List.head?_append_of_ne_nil _ hne]
    exact h.head
  refine ⟨⟨f.negative, f.digits ++ List.replicate k '0', none, none,
    wholeNumber_of_digits hdigits (by simp [hne]) hhead, rfl, rfl⟩, ?_, ?_⟩
  · simp only [Number.text, Number.rest, signed]
    split_ifs <;> simp
  · rw [numberValue_eq, Form.value, hk]
    simp only [mantissa, scale, Option.getD_none, List.append_nil, Option.map_none, digitsNumber_append,
      digitsNumber_replicate, List.length_replicate]
    split_ifs <;> simp <;> ring

/-- A form with a point among its digits. -/
theorem token_point (h : f.Proper) {k : ℕ} (hk : f.exponent = -(k : ℤ)) (hpos : 0 < k)
    (hlt : k < f.digits.length) :
    ∃ m : Number, m.text = (if f.negative then ['-'] else []) ++
        f.digits.take (f.digits.length - k) ++ '.' :: f.digits.drop (f.digits.length - k) ∧
      numberValue m = f.value := by
  have hsplit : f.digits.take (f.digits.length - k) ++ f.digits.drop (f.digits.length - k) =
      f.digits := List.take_append_drop _ _
  have hboth := h.digits
  rw [← hsplit, List.all_append, Bool.and_eq_true] at hboth
  have hne : f.digits.take (f.digits.length - k) ≠ [] := by
    intro hnil
    have hlength := congrArg List.length hnil
    rw [List.length_take, List.length_nil] at hlength
    omega
  have hhead : (f.digits.take (f.digits.length - k)).head? ≠ some '0' := by
    intro hzero
    refine h.head ?_
    rw [← hsplit, List.head?_append_of_ne_nil _ hne]
    exact hzero
  have hlength : (f.digits.drop (f.digits.length - k)).length = k := by
    rw [List.length_drop]
    omega
  have hfraction : f.digits.drop (f.digits.length - k) ≠ [] := by
    intro hnil
    rw [hnil, List.length_nil] at hlength
    omega
  refine ⟨⟨f.negative, f.digits.take (f.digits.length - k),
    some (f.digits.drop (f.digits.length - k)), none, wholeNumber_of_digits hboth.1 hne hhead, ?_,
    rfl⟩, ?_, ?_⟩
  · rw [Option.all_some, hboth.2, Bool.and_true]
    exact decide_eq_true hfraction
  · simp [Number.text, Number.rest]
  · rw [numberValue_eq, Form.value, hk]
    simp [mantissa, scale, hlength]

/-- A form with zeros between the point and its digits. -/
theorem token_fraction (h : f.Proper) (hne : f.digits ≠ []) {k : ℕ}
    (hk : f.exponent = -((k + f.digits.length : ℕ) : ℤ)) :
    ∃ m : Number, m.text = (if f.negative then ['-'] else []) ++
        '0' :: '.' :: (List.replicate k '0' ++ f.digits) ∧ numberValue m = f.value := by
  have hdigits : (List.replicate k '0' ++ f.digits).all isDigit = true := by
    rw [List.all_append, h.digits, Bool.and_true, List.all_eq_true]
    intro c hc
    rw [List.eq_of_mem_replicate hc]
    decide
  refine ⟨⟨f.negative, ['0'], some (List.replicate k '0' ++ f.digits), none, by decide, ?_, rfl⟩,
    ?_, ?_⟩
  · rw [Option.all_some, hdigits, Bool.and_true]
    exact decide_eq_true (by simp [hne])
  · simp [Number.text, Number.rest]
  · have hzeros : digitsNumber ('0' :: (List.replicate k '0' ++ f.digits)) =
        digitsNumber f.digits := by
      have happend := digitsNumber_append (List.replicate (k + 1) '0') f.digits
      rw [digitsNumber_replicate, Nat.mul_zero, Nat.zero_add] at happend
      exact happend
    rw [numberValue_eq, Form.value, hk]
    simp [mantissa, scale, hzeros]

theorem repeatZeros_eq_some {count : ℤ} {zeros : List Char} (h : repeatZeros count = some zeros) :
    zeros = List.replicate count.toNat '0' := by
  unfold repeatZeros at h
  split_ifs at h
  exact (Option.some.inj h).symm

/-- A sign stands before the digits of a negative form only. -/
theorem head_signed (h : f.Proper) (hne : f.digits ≠ []) :
    (signed f).head? = some '-' ↔ f.negative = true := by
  unfold signed
  cases f.negative with
  | true => simp
  | false =>
    simp only [Bool.false_eq_true, if_false, iff_false]
    intro hhead
    obtain ⟨c, cs, hcons⟩ := List.exists_cons_of_ne_nil hne
    have hdigits := h.digits
    rw [hcons] at hhead hdigits
    rw [Option.some.inj hhead, List.all_cons, Bool.and_eq_true] at hdigits
    exact absurd hdigits.1 (by decide)

theorem unsigned_signed (h : f.Proper) (hne : f.digits ≠ []) :
    (if (signed f).head? = some '-' then (signed f).tail else signed f) = f.digits := by
  have hsign := head_signed h hne
  by_cases hn : f.negative = true
  · rw [if_pos (hsign.mpr hn), signed, if_pos hn]
    rfl
  · rw [if_neg (fun hh => hn (hsign.mp hh)), signed, if_neg hn]

theorem sign_signed (h : f.Proper) (hne : f.digits ≠ []) :
    (if (signed f).head? = some '-' then ['-'] else []) = if f.negative then ['-'] else [] := by
  have hsign := head_signed h hne
  by_cases hn : f.negative = true
  · rw [if_pos (hsign.mpr hn), if_pos hn]
  · rw [if_neg (fun hh => hn (hsign.mp hh)), if_neg hn]

/-- **The spelling of a form is a token of its value.** -/
theorem token_of_spelling (h : f.Proper) {text : List Char} (htext : spelling f = some text) :
    ∃ m : Number, m.text = text ∧ numberValue m = f.value := by
  unfold spelling at htext
  split_ifs at htext with hnil hzero
  · cases htext
    refine ⟨⟨false, ['0'], none, none, rfl, rfl, rfl⟩, rfl, ?_⟩
    rw [(Form.value_eq_zero_iff h).mpr hnil]
    simp [numberValue, digitsNumber, Nat.ofDigitChars_cons]
  · cases htext
    obtain ⟨m, hm, hvalue⟩ := token_zeros h hnil (k := 0) (by simpa using hzero)
    exact ⟨m, by simpa using hm, hvalue⟩
  · have hdigits := unsigned_signed h hnil
    have hprefix := sign_signed h hnil
    unfold renderCanonicalNumber at htext
    simp only [hdigits, hprefix] at htext
    have hscientific := token_scientific h hnil
    by_cases hpos : 0 < f.exponent ∧ isInt64 f.exponent = true
    · rw [if_pos hpos] at htext
      by_cases hsmall : f.exponent ≤ maxJSONNumberBytes - (signed f).length
      · rw [if_pos hsmall, Option.map_eq_some_iff] at htext
        obtain ⟨zeros, hzeros, rfl⟩ := htext
        rw [repeatZeros_eq_some hzeros]
        exact token_zeros h hnil (by omega)
      · rw [if_neg hsmall] at htext
        cases htext
        exact hscientific
    · rw [if_neg hpos] at htext
      by_cases hge : 0 ≤ f.exponent
      · rw [if_pos hge] at htext
        cases htext
        exact hscientific
      · rw [if_neg hge] at htext
        by_cases hplaces : isInt64 (-f.exponent) = false
        · rw [if_pos hplaces] at htext
          cases htext
          exact hscientific
        · rw [if_neg hplaces] at htext
          by_cases hpoint : -f.exponent < f.digits.length
          · rw [if_pos hpoint] at htext
            by_cases hshort : (signed f).length + 1 ≤ maxJSONNumberBytes
            · rw [if_pos hshort] at htext
              cases htext
              have hwhole : (f.digits.length + f.exponent).toNat =
                  f.digits.length - f.exponent.natAbs := by omega
              rw [hwhole]
              exact token_point h (by omega) (by omega) (by omega)
            · rw [if_neg hshort] at htext
              cases htext
              exact hscientific
          · rw [if_neg hpoint] at htext
            by_cases hbytes : wrapInt64 ((if f.negative then ['-'] else []).length + 2 +
                f.digits.length + (-f.exponent - f.digits.length)) ≤ maxJSONNumberBytes
            · rw [if_pos hbytes, Option.map_eq_some_iff] at htext
              obtain ⟨zeros, hzeros, rfl⟩ := htext
              rw [repeatZeros_eq_some hzeros]
              exact token_fraction h hnil (by omega)
            · rw [if_neg hbytes] at htext
              cases htext
              exact hscientific

/-- **A respelled number is a token of the same value**, and is spelled as it is. -/
theorem normalizeJSONNumber_token {n : Number} {text : List Char}
    (h : normalizeJSONNumber n = .ok text) :
    ∃ m : Number, m.text = text ∧ numberValue m = numberValue n ∧
      (text.length ≤ maxJSONNumberBytes → normalizeJSONNumber m = .ok text) := by
  obtain ⟨-, hspelling⟩ := normalizeJSONNumber_eq_ok.mp h
  obtain ⟨m, htext, hvalue⟩ := token_of_spelling (form_proper n) hspelling
  rw [form_value] at hvalue
  refine ⟨m, htext, hvalue, fun hlength => normalizeJSONNumber_eq_ok.mpr ⟨?_, ?_⟩⟩
  · rw [htext]
    exact hlength
  · rw [form_eq_iff.mpr hvalue, hspelling]

/-- **Numbers are spelled alike exactly when they have one value.** -/
theorem normalizeJSONNumber_eq_iff {n m : Number} {text other : List Char}
    (hn : normalizeJSONNumber n = .ok text) (hm : normalizeJSONNumber m = .ok other) :
    text = other ↔ numberValue n = numberValue m := by
  obtain ⟨n', hn', hvaluen, -⟩ := normalizeJSONNumber_token hn
  obtain ⟨m', hm', hvaluem, -⟩ := normalizeJSONNumber_token hm
  obtain ⟨-, hspellingn⟩ := normalizeJSONNumber_eq_ok.mp hn
  obtain ⟨-, hspellingm⟩ := normalizeJSONNumber_eq_ok.mp hm
  constructor
  · intro heq
    have hsame : n' = m' := Number.text_injective (hn'.trans (heq.trans hm'.symm))
    rw [← hvaluen, ← hvaluem, hsame]
  · intro hvalue
    rw [form_eq_iff.mpr hvalue, hspellingm] at hspellingn
    exact (Option.some.inj hspellingn).symm

/-! ### Documents -/

/-- A decoded document. -/
abbrev Value := Json Number

/-- `jsonvalue.Decode`: one JSON value of UTF-8 text within the limits, without two members of one
name in an object. -/
def decode (limits : Limits) (maxNumberBytes : ℕ) (text : List Rune) : Option Value :=
  if limits.maxBytes < byteSize text ∨ text.any Sum.isRight = true then none
  else
    match parseRunes text with
    | none => none
    | some doc =>
      let value := decoded doc
      if nodes value ≤ limits.maxNodes ∧ depth value ≤ limits.maxDepth ∧ distinct value = true ∧
          allNumbers (fun n => n.text.length ≤ maxNumberBytes) value = true then some value
      else none

/-- `actionJSONLimits`, but for the one on numbers. -/
def actionJSONLimits : Limits where
  maxBytes := 1048576
  maxDepth := 256
  maxNodes := 65536

/-- `decodeSingleJSON`. -/
def decodeSingleJSON (text : List Rune) : Option Value :=
  decode actionJSONLimits maxJSONNumberBytes text

/-- The number that a `json.RawMessage` holds, if it is one. -/
def rawNumber : List Char → Option Number
  | '-' :: digits =>
    (readNumber true (digits.map .inl)).bind fun read => if read.2 = [] then some read.1 else none
  | digits =>
    (readNumber false (digits.map .inl)).bind fun read => if read.2 = [] then some read.1 else none

/-- A number and its normal spelling. -/
def respell (n : Number) : Option Number :=
  match normalizeJSONNumber n with
  | .ok text => rawNumber text
  | .error _ => none

mutual

/-- `canonicalizeJSONValue`; a number that is no token would not be marshalled. -/
def canonicalizeJSONValue : Value → Option Value
  | .num n => (respell n).map .num
  | .arr items => (canonicalizeItems items).map .arr
  | .obj members => (canonicalizeMembers members).map .obj
  | value => some value

def canonicalizeItems : List Value → Option (List Value)
  | [] => some []
  | item :: items => do
    let item ← canonicalizeJSONValue item
    let items ← canonicalizeItems items
    return item :: items

def canonicalizeMembers : List (String × Value) → Option (List (String × Value))
  | [] => some []
  | (name, value) :: members => do
    let value ← canonicalizeJSONValue value
    let members ← canonicalizeMembers members
    return (name, value) :: members

end

/-- `json.Marshal` of a decoded document, whose objects are maps. -/
def marshal (value : Value) : List Rune := (encoded (ordered value)).text

/-! ### Canonical documents -/

theorem rawNumber_text (n : Number) : rawNumber n.text = some n := by
  have hread := @readNumber_text n [] trivial
  rw [List.append_nil] at hread
  cases hn : n.negative with
  | true =>
    have htext : n.text = '-' :: (n.whole ++ n.rest) := by simp [Number.text, hn]
    rw [hn] at hread
    rw [htext, rawNumber, hread]
    rfl
  | false =>
    have htext : n.text = n.whole ++ n.rest := by simp [Number.text, hn]
    have hvalid := digits_of_wholeNumber n.whole_valid
    have hwhole := n.whole_valid
    rw [hn] at hread
    rw [htext]
    cases hw : n.whole with
    | nil =>
      rw [hw] at hwhole
      cases hwhole
    | cons c cs =>
      rw [hw] at hread hvalid
      rw [List.all_cons, Bool.and_eq_true] at hvalid
      have hc : c ≠ '-' := by
        rintro rfl
        exact absurd hvalid.1 (by decide)
      rw [List.cons_append] at hread ⊢
      rw [rawNumber.eq_2 _ fun _ h => hc (List.cons.inj h).1, hread]
      rfl

/-- A number that is respelled is spelled normally. -/
theorem respell_eq_some {n m : Number} (h : respell n = some m) :
    normalizeJSONNumber n = .ok m.text ∧ numberValue m = numberValue n := by
  unfold respell at h
  split at h
  · next text htext =>
    obtain ⟨token, htoken, hvalue, -⟩ := normalizeJSONNumber_token htext
    rw [← htoken, rawNumber_text] at h
    cases h
    exact ⟨htext.trans (congrArg Except.ok htoken.symm), hvalue⟩
  · cases h

/-- What is spelled normally stays as it is. -/
theorem respell_respell {n m : Number} (h : respell n = some m)
    (hlength : m.text.length ≤ maxJSONNumberBytes) : respell m = some m := by
  obtain ⟨hnormal, -⟩ := respell_eq_some h
  obtain ⟨token, htoken, -, hagain⟩ := normalizeJSONNumber_token hnormal
  have heq : token = m := Number.text_injective htoken
  rw [heq] at hagain
  rw [respell, hagain hlength]
  exact rawNumber_text m

/-- Numbers are respelled alike exactly when they have one value. -/
theorem respell_eq_iff {n m n' m' : Number} (hn : respell n = some n') (hm : respell m = some m') :
    n' = m' ↔ numberValue n = numberValue m := by
  obtain ⟨hn, -⟩ := respell_eq_some hn
  obtain ⟨hm, -⟩ := respell_eq_some hm
  rw [← normalizeJSONNumber_eq_iff hn hm]
  exact ⟨congrArg Number.text, Number.text_injective⟩

/-- The normal spelling of a number, if it has one. -/
def normal (n : Number) : Number := (respell n).getD n

mutual

/-- A document is canonicalized by respelling each of its numbers. -/
theorem canonicalizeJSONValue_eq_some : ∀ v w : Value, canonicalizeJSONValue v = some w ↔
    allNumbers (fun n => (respell n).isSome) v = true ∧ w = mapNumbers normal v
  | .null, w => by simp [canonicalizeJSONValue, allNumbers, mapNumbers, eq_comm]
  | .bool _, w => by simp [canonicalizeJSONValue, allNumbers, mapNumbers, eq_comm]
  | .str _, w => by simp [canonicalizeJSONValue, allNumbers, mapNumbers, eq_comm]
  | .num n, w => by
    rw [canonicalizeJSONValue, allNumbers, mapNumbers, normal]
    cases respell n with
    | none => simp
    | some m => simp [eq_comm]
  | .arr items, w => by
    rw [canonicalizeJSONValue, allNumbers, mapNumbers, Option.map_eq_some_iff]
    constructor
    · rintro ⟨out, hout, rfl⟩
      obtain ⟨hall, rfl⟩ := (canonicalizeItems_eq_some items out).mp hout
      exact ⟨hall, rfl⟩
    · rintro ⟨hall, rfl⟩
      exact ⟨_, (canonicalizeItems_eq_some items _).mpr ⟨hall, rfl⟩, rfl⟩
  | .obj members, w => by
    rw [canonicalizeJSONValue, allNumbers, mapNumbers, Option.map_eq_some_iff]
    constructor
    · rintro ⟨out, hout, rfl⟩
      obtain ⟨hall, rfl⟩ := (canonicalizeMembers_eq_some members out).mp hout
      exact ⟨hall, rfl⟩
    · rintro ⟨hall, rfl⟩
      exact ⟨_, (canonicalizeMembers_eq_some members _).mpr ⟨hall, rfl⟩, rfl⟩

theorem canonicalizeItems_eq_some : ∀ v w : List Value, canonicalizeItems v = some w ↔
    allItems (fun n => (respell n).isSome) v = true ∧ w = mapItems normal v
  | [], w => by simp [canonicalizeItems, allItems, mapItems, eq_comm]
  | item :: items, w => by
    have hitem := canonicalizeJSONValue_eq_some item
    have hitems := canonicalizeItems_eq_some items
    rw [canonicalizeItems, allItems, mapItems, Bool.and_eq_true]
    constructor
    · intro h
      obtain ⟨first, hfirst, h⟩ := Option.bind_eq_some_iff.mp h
      obtain ⟨rest, hrest, h⟩ := Option.bind_eq_some_iff.mp h
      cases h
      obtain ⟨hall, rfl⟩ := (hitem first).mp hfirst
      obtain ⟨halls, rfl⟩ := (hitems rest).mp hrest
      exact ⟨⟨hall, halls⟩, rfl⟩
    · rintro ⟨⟨hall, halls⟩, rfl⟩
      rw [(hitem _).mpr ⟨hall, rfl⟩, (hitems _).mpr ⟨halls, rfl⟩]
      rfl

theorem canonicalizeMembers_eq_some : ∀ v w : List (String × Value),
    canonicalizeMembers v = some w ↔
      allMembers (fun n => (respell n).isSome) v = true ∧ w = mapMembers normal v
  | [], w => by simp [canonicalizeMembers, allMembers, mapMembers, eq_comm]
  | (name, value) :: members, w => by
    have hvalue := canonicalizeJSONValue_eq_some value
    have hmembers := canonicalizeMembers_eq_some members
    rw [canonicalizeMembers, allMembers, mapMembers, Bool.and_eq_true]
    constructor
    · intro h
      obtain ⟨first, hfirst, h⟩ := Option.bind_eq_some_iff.mp h
      obtain ⟨rest, hrest, h⟩ := Option.bind_eq_some_iff.mp h
      cases h
      obtain ⟨hall, rfl⟩ := (hvalue first).mp hfirst
      obtain ⟨halls, rfl⟩ := (hmembers rest).mp hrest
      exact ⟨⟨hall, halls⟩, rfl⟩
    · rintro ⟨⟨hall, halls⟩, rfl⟩
      rw [(hvalue _).mpr ⟨hall, rfl⟩, (hmembers _).mpr ⟨halls, rfl⟩]
      rfl

end

theorem decode_eq_some {limits : Limits} {maxNumberBytes : ℕ} {text : List Rune} {value : Value} :
    decode limits maxNumberBytes text = some value ↔
      byteSize text ≤ limits.maxBytes ∧ text.any Sum.isRight = false ∧
        (parseRunes text).map decoded = some value ∧ nodes value ≤ limits.maxNodes ∧
        depth value ≤ limits.maxDepth ∧ distinct value = true ∧
        allNumbers (fun n => n.text.length ≤ maxNumberBytes) value = true := by
  unfold decode
  by_cases hbytes : limits.maxBytes < byteSize text ∨ text.any Sum.isRight = true
  · rw [if_pos hbytes]
    constructor
    · intro h
      cases h
    · rintro ⟨hsize, htext, -⟩
      rcases hbytes with hbytes | hbytes
      · omega
      · rw [htext] at hbytes
        cases hbytes
  · rw [if_neg hbytes]
    rw [not_or, Nat.not_lt, Bool.not_eq_true] at hbytes
    cases hparse : parseRunes text with
    | none => simp
    | some doc =>
      simp only [Option.map_some, Option.some.injEq]
      split_ifs with hall
      · constructor
        · intro h
          cases h
          exact ⟨hbytes.1, hbytes.2, rfl, hall⟩
        · rintro ⟨-, -, rfl, -⟩
          rfl
      · constructor
        · intro h
          cases h
        · rintro ⟨-, -, rfl, h⟩
          exact absurd h hall

/-- What is written for a document is read back as the document in order. -/
theorem decode_marshal {limits : Limits} {maxNumberBytes : ℕ} {value read : Value}
    (hdepth : depth value ≤ maxNestingDepth)
    (h : decode limits maxNumberBytes (marshal value) = some read) : read = ordered value := by
  obtain ⟨-, -, hparse, -⟩ := decode_eq_some.mp h
  have hback := parseRunes_encoded (ordered value) (by rw [depth_ordered]; exact hdepth)
  rw [marshal, hback] at hparse
  exact (Option.some.inj hparse).symm

/-- Documents are written alike exactly when they are the same in order. -/
theorem marshal_eq_iff {v w : Value} (hv : depth v ≤ maxNestingDepth)
    (hw : depth w ≤ maxNestingDepth) : marshal v = marshal w ↔ ordered v = ordered w := by
  constructor
  · intro h
    have hbackv := parseRunes_encoded (ordered v) (by rw [depth_ordered]; exact hv)
    have hbackw := parseRunes_encoded (ordered w) (by rw [depth_ordered]; exact hw)
    have heq : (encoded (ordered v)).text = (encoded (ordered w)).text := h
    rw [heq, hbackw] at hbackv
    exact (Option.some.inj hbackv).symm
  · intro h
    rw [marshal, marshal, h]

/-- **Canonical documents are written alike exactly when the documents are the same JSON value**,
their numbers compared by value. -/
theorem marshal_canonical_eq_iff {v w v' w' : Value} (hv : canonicalizeJSONValue v = some v')
    (hw : canonicalizeJSONValue w = some w') (hdv : distinct v = true) (hdw : distinct w = true)
    (hdepthv : depth v ≤ maxNestingDepth) (hdepthw : depth w ≤ maxNestingDepth) :
    marshal v' = marshal w' ↔
      alike (mapNumbers numberValue v) (mapNumbers numberValue w) = true := by
  obtain ⟨hallv, rfl⟩ := (canonicalizeJSONValue_eq_some v v').mp hv
  obtain ⟨hallw, rfl⟩ := (canonicalizeJSONValue_eq_some w w').mp hw
  have hnumbers : ∀ n m : Number, (respell n).isSome = true → (respell m).isSome = true →
      (normal n = normal m ↔ numberValue n = numberValue m) := by
    intro n m hn hm
    obtain ⟨n', hn'⟩ := Option.isSome_iff_exists.mp hn
    obtain ⟨m', hm'⟩ := Option.isSome_iff_exists.mp hm
    rw [normal, normal, hn', hm']
    exact respell_eq_iff hn' hm'
  rw [marshal_eq_iff (by rw [depth_mapNumbers]; exact hdepthv)
      (by rw [depth_mapNumbers]; exact hdepthw),
    ordered_eq_iff _ _ (by rw [distinct_mapNumbers]; exact hdv)
      (by rw [distinct_mapNumbers]; exact hdw),
    alike_mapNumbers hnumbers v w hallv hallw]

end Modary.Action.Canonical
