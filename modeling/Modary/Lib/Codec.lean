import Mathlib.Data.List.Basic
import Mathlib.Data.Nat.Digits.Lemmas
import Mathlib.Tactic.IntervalCases
import Modary.Lib.GoText

/-! # Encodings that can be read back

An encoding is *self-delimiting* if what it wrote can be told from whatever follows, and *delimited
by* a set of characters if that holds in front of one of them (a number in front of a comma).
Sequences of such pieces and fixed texts are again self-delimiting, so the fields of a record
written one after the other can be recovered (`SelfDelimiting.injective`). The JSON forms of
`encoding/json` are instances: strings with their escapes, integers, arrays. -/

namespace Modary.Lib.Codec

variable {α β : Type*}

/-- What `enc` wrote ends where it ends, whatever follows. -/
def SelfDelimiting (enc : α → List Char) : Prop :=
  ∀ a b r s, enc a ++ r = enc b ++ s → a = b ∧ r = s

/-- What `enc` wrote ends at the first character of `stop`. -/
def DelimitedBy (stop : Char → Prop) (enc : α → List Char) : Prop :=
  ∀ a b x y r s, stop x → stop y → enc a ++ x :: r = enc b ++ y :: s →
    a = b ∧ x = y ∧ r = s

theorem SelfDelimiting.delimitedBy {enc : α → List Char} (h : SelfDelimiting enc)
    (stop : Char → Prop) : DelimitedBy stop enc := by
  intro a b x y r s _ _ he
  obtain ⟨h1, h2⟩ := h _ _ _ _ he
  simp only [List.cons.injEq] at h2
  exact ⟨h1, h2.1, h2.2⟩

/-! ### Strings -/

/-- A lower-case hexadecimal digit. -/
def hexDigit (n : ℕ) : Char := if n < 10 then Char.ofNat (48 + n) else Char.ofNat (87 + n)

/-- `\u00XX`. -/
def unicodeEscape (c : Char) : List Char :=
  ['\\', 'u', '0', '0', hexDigit (c.toNat / 16), hexDigit (c.toNat % 16)]

/-- The spelling of one character in a JSON string, with the HTML-safe escapes `json.Marshal`
makes by default. -/
def encodeChar (c : Char) : List Char :=
  if c = '"' then ['\\', '"']
  else if c = '\\' then ['\\', '\\']
  else if c.toNat = 8 then ['\\', 'b']
  else if c.toNat = 12 then ['\\', 'f']
  else if c = '\n' then ['\\', 'n']
  else if c = '\r' then ['\\', 'r']
  else if c = '\t' then ['\\', 't']
  else if c.toNat < 0x20 ∨ c = '<' ∨ c = '>' ∨ c = '&' then unicodeEscape c
  else if c.toNat = 0x2028 then ['\\', 'u', '2', '0', '2', '8']
  else if c.toNat = 0x2029 then ['\\', 'u', '2', '0', '2', '9']
  else [c]

/-- A JSON string. -/
def encodeString (s : String) : List Char := '"' :: (s.toList.flatMap encodeChar ++ ['"'])

/-- A JSON string of Go; a stray byte is written as the replacement character. -/
def encodeGoString : GoText.GoString → List Char
  | .utf8 s => encodeString s
  | .raw units => '"' :: (units.flatMap (Sum.elim encodeChar fun _ => "\\ufffd".toList) ++ ['"'])

/-- Reads back one character. -/
def decodeChar : List Char → Option (Char × List Char)
  | '\\' :: 'u' :: '2' :: '0' :: '2' :: '8' :: r => some (Char.ofNat 0x2028, r)
  | '\\' :: 'u' :: '2' :: '0' :: '2' :: '9' :: r => some (Char.ofNat 0x2029, r)
  | '\\' :: 'u' :: '0' :: '0' :: a :: b :: r =>
    (((List.range 128).map Char.ofNat).find? fun c =>
      hexDigit (c.toNat / 16) = a && hexDigit (c.toNat % 16) = b).map fun c => (c, r)
  | '\\' :: 'b' :: r => some (Char.ofNat 8, r)
  | '\\' :: 'f' :: r => some (Char.ofNat 12, r)
  | '\\' :: 'n' :: r => some ('\n', r)
  | '\\' :: 'r' :: r => some ('\r', r)
  | '\\' :: 't' :: r => some ('\t', r)
  | '\\' :: c :: r => some (c, r)
  | c :: r => some (c, r)
  | [] => none

theorem ofNat_toNat_of_eq {c : Char} {n : ℕ} (h : c.toNat = n) : c = Char.ofNat n := by
  rw [← h, Char.ofNat_toNat]

theorem decodeChar_unicodeEscape {c : Char} (hc : c.toNat < 0x20 ∨ c = '<' ∨ c = '>' ∨ c = '&')
    (r : List Char) : decodeChar (unicodeEscape c ++ r) = some (c, r) := by
  have key : ∀ n < 0x20, decodeChar (unicodeEscape (Char.ofNat n) ++ r) = some (Char.ofNat n, r) := by
    intro n hn
    interval_cases n <;> rfl
  rcases hc with h | rfl | rfl | rfl
  · have := key _ h
    rwa [Char.ofNat_toNat] at this
  · rfl
  · rfl
  · rfl

theorem decodeChar_encodeChar (c : Char) (r : List Char) :
    decodeChar (encodeChar c ++ r) = some (c, r) := by
  generalize hx : encodeChar c = x
  unfold encodeChar at hx
  obtain ⟨rfl, rfl⟩ | ⟨-, hx⟩ := ite_eq_iff.mp hx
  · rfl
  obtain ⟨rfl, rfl⟩ | ⟨hplain, hx⟩ := ite_eq_iff.mp hx
  · rfl
  obtain ⟨h, rfl⟩ | ⟨-, hx⟩ := ite_eq_iff.mp hx
  · rw [ofNat_toNat_of_eq h]; rfl
  obtain ⟨h, rfl⟩ | ⟨-, hx⟩ := ite_eq_iff.mp hx
  · rw [ofNat_toNat_of_eq h]; rfl
  obtain ⟨rfl, rfl⟩ | ⟨-, hx⟩ := ite_eq_iff.mp hx
  · rfl
  obtain ⟨rfl, rfl⟩ | ⟨-, hx⟩ := ite_eq_iff.mp hx
  · rfl
  obtain ⟨rfl, rfl⟩ | ⟨-, hx⟩ := ite_eq_iff.mp hx
  · rfl
  obtain ⟨h, rfl⟩ | ⟨-, hx⟩ := ite_eq_iff.mp hx
  · exact decodeChar_unicodeEscape h r
  obtain ⟨h, rfl⟩ | ⟨-, hx⟩ := ite_eq_iff.mp hx
  · rw [ofNat_toNat_of_eq h]; rfl
  obtain ⟨h, rfl⟩ | ⟨-, rfl⟩ := ite_eq_iff.mp hx
  · rw [ofNat_toNat_of_eq h]; rfl
  simp [decodeChar, hplain]

theorem encodeChar_selfDelimiting : SelfDelimiting encodeChar := by
  intro a b r s h
  have := congrArg decodeChar h
  rw [decodeChar_encodeChar, decodeChar_encodeChar] at this
  simpa using this

/-- No character is spelled with a leading quote. -/
theorem encodeChar_head (c : Char) : ∃ x t, encodeChar c = x :: t ∧ x ≠ '"' := by
  have hread := decodeChar_encodeChar c []
  rw [List.append_nil] at hread
  cases hspelled : encodeChar c with
  | nil =>
    rw [hspelled] at hread
    cases hread
  | cons x t =>
    refine ⟨x, t, rfl, fun hx => ?_⟩
    subst hx
    rw [hspelled] at hread
    obtain rfl : '"' = c := congrArg Prod.fst (Option.some.inj hread)
    exact absurd (List.cons.inj hspelled).1 (by decide)

theorem flatMap_encodeChar_inj : ∀ (s t r r' : List Char),
    s.flatMap encodeChar ++ '"' :: r = t.flatMap encodeChar ++ '"' :: r' → s = t ∧ r = r'
  | [], [], r, r', h => by simpa using h
  | [], c :: t, r, r', h => by
    obtain ⟨x, w, hx, hne⟩ := encodeChar_head c
    simp only [List.flatMap_nil, List.nil_append, List.flatMap_cons, hx, List.cons_append,
      List.cons.injEq] at h
    exact absurd h.1.symm hne
  | c :: s, [], r, r', h => by
    obtain ⟨x, w, hx, hne⟩ := encodeChar_head c
    simp only [List.flatMap_nil, List.nil_append, List.flatMap_cons, hx, List.cons_append,
      List.cons.injEq] at h
    exact absurd h.1 hne
  | c :: s, d :: t, r, r', h => by
    simp only [List.flatMap_cons, List.append_assoc] at h
    obtain ⟨rfl, h1⟩ := encodeChar_selfDelimiting _ _ _ _ h
    obtain ⟨rfl, h2⟩ := flatMap_encodeChar_inj s t r r' h1
    exact ⟨rfl, h2⟩

theorem encodeString_selfDelimiting : SelfDelimiting encodeString := by
  intro a b r s h
  simp only [encodeString, List.cons_append, List.append_assoc, List.nil_append,
    List.cons.injEq, true_and] at h
  obtain ⟨h1, h2⟩ := flatMap_encodeChar_inj _ _ _ _ h
  exact ⟨String.toList_inj.mp h1, h2⟩

/-! ### Integers -/

/-- Not a character of a decimal integer. -/
def NotDecimal (c : Char) : Prop := c.isDigit = false ∧ c ≠ '-'

/-- A decimal integer. -/
def encodeInt : ℤ → List Char
  | .ofNat n => Nat.toDigits 10 n
  | .negSucc n => '-' :: Nat.toDigits 10 (n + 1)

theorem takeWhile_digits {n : ℕ} {x : Char} {r : List Char} (hx : x.isDigit = false) :
    (Nat.toDigits 10 n ++ x :: r).takeWhile Char.isDigit = Nat.toDigits 10 n := by
  rw [List.takeWhile_append_of_pos (fun c hc => Nat.isDigit_of_mem_toDigits (by omega) (by omega) hc)]
  simp [hx]

theorem toDigits_delimited {m n : ℕ} {x y : Char} {r s : List Char} (hx : x.isDigit = false)
    (hy : y.isDigit = false) (h : Nat.toDigits 10 m ++ x :: r = Nat.toDigits 10 n ++ y :: s) :
    m = n ∧ x = y ∧ r = s := by
  have h1 : Nat.toDigits 10 m = Nat.toDigits 10 n := by
    have := congrArg (List.takeWhile Char.isDigit) h
    rwa [takeWhile_digits hx, takeWhile_digits hy] at this
  rw [h1, List.append_cancel_left_eq, List.cons.injEq] at h
  refine ⟨?_, h⟩
  have h2 := congrArg (fun l => Nat.ofDigitChars 10 l 0) h1
  simpa using h2

theorem encodeInt_delimitedBy : DelimitedBy NotDecimal encodeInt := by
  have head : ∀ (n : ℕ) (r s : List Char), Nat.toDigits 10 n ++ r ≠ '-' :: s := by
    intro n r s h
    obtain ⟨c, w, hc⟩ := List.exists_cons_of_ne_nil
      (Nat.toDigits_ne_nil (b := 10) (n := n))
    rw [hc, List.cons_append, List.cons.injEq] at h
    have hd : c.isDigit = true := Nat.isDigit_of_mem_toDigits (b := 10) (n := n) (by omega)
      (by omega) (by rw [hc]; simp)
    rw [h.1] at hd
    simp at hd
  rintro (m | m) (n | n) x y r s hx hy h
  · obtain ⟨rfl, h1⟩ := toDigits_delimited hx.1 hy.1 h
    exact ⟨rfl, h1⟩
  · exact absurd h (head _ _ _)
  · exact absurd h.symm (head _ _ _)
  · simp only [encodeInt, List.cons_append, List.cons.injEq, true_and] at h
    obtain ⟨h1, h2⟩ := toDigits_delimited hx.1 hy.1 h
    exact ⟨by rw [Nat.succ.inj h1], h2⟩

/-! ### Arrays -/

/-- The elements after the first, each behind a comma, and the closing bracket. -/
def encodeTail (enc : α → List Char) : List α → List Char
  | [] => [']']
  | a :: as => ',' :: (enc a ++ encodeTail enc as)

/-- A JSON array. -/
def encodeArray (enc : α → List Char) : List α → List Char
  | [] => ['[', ']']
  | a :: as => '[' :: (enc a ++ encodeTail enc as)

/-- The characters that may follow an element of an array. -/
def ArrayStop (c : Char) : Prop := c = ',' ∨ c = ']'

theorem encodeTail_eq_cons (enc : α → List Char) (as : List α) :
    ∃ x t, encodeTail enc as = x :: t ∧ ArrayStop x := by
  cases as with
  | nil => exact ⟨_, _, rfl, Or.inr rfl⟩
  | cons a as => exact ⟨_, _, rfl, Or.inl rfl⟩

theorem delimited_tail {enc : α → List Char} (he : DelimitedBy ArrayStop enc) {a b : α}
    {as bs : List α} {r s : List Char}
    (h : enc a ++ (encodeTail enc as ++ r) = enc b ++ (encodeTail enc bs ++ s)) :
    a = b ∧ encodeTail enc as ++ r = encodeTail enc bs ++ s := by
  obtain ⟨x, t, hx, sx⟩ := encodeTail_eq_cons enc as
  obtain ⟨y, u, hy, sy⟩ := encodeTail_eq_cons enc bs
  rw [hx, hy, List.cons_append, List.cons_append] at h ⊢
  obtain ⟨h1, h2, h3⟩ := he _ _ _ _ _ _ sx sy h
  exact ⟨h1, by rw [h2, h3]⟩

theorem encodeTail_inj {enc : α → List Char} (he : DelimitedBy ArrayStop enc) :
    ∀ (as bs : List α) (r s : List Char),
      encodeTail enc as ++ r = encodeTail enc bs ++ s → as = bs ∧ r = s
  | [], [], r, s, h => by simpa [encodeTail] using h
  | [], b :: bs, r, s, h => by simp [encodeTail] at h
  | a :: as, [], r, s, h => by simp [encodeTail] at h
  | a :: as, b :: bs, r, s, h => by
    simp only [encodeTail, List.cons_append, List.append_assoc, List.cons.injEq, true_and] at h
    obtain ⟨rfl, h1⟩ := delimited_tail he h
    obtain ⟨rfl, h2⟩ := encodeTail_inj he as bs r s h1
    exact ⟨rfl, h2⟩

/-- Arrays of delimited elements are self-delimiting; no element may start with the closing
bracket. -/
theorem encodeArray_selfDelimiting {enc : α → List Char} (he : DelimitedBy ArrayStop enc)
    (hh : ∀ a, ∃ x t, enc a = x :: t ∧ x ≠ ']') : SelfDelimiting (encodeArray enc) := by
  rintro (_ | ⟨a, as⟩) (_ | ⟨b, bs⟩) r s h
  · simpa [encodeArray] using h
  · obtain ⟨x, t, hx, hne⟩ := hh b
    simp only [encodeArray, hx, List.cons_append, List.nil_append, List.cons.injEq, true_and] at h
    exact absurd h.1.symm hne
  · obtain ⟨x, t, hx, hne⟩ := hh a
    simp only [encodeArray, hx, List.cons_append, List.nil_append, List.cons.injEq, true_and] at h
    exact absurd h.1 hne
  · simp only [encodeArray, List.cons_append, List.append_assoc, List.cons.injEq, true_and] at h
    obtain ⟨rfl, h1⟩ := delimited_tail he h
    obtain ⟨rfl, h2⟩ := encodeTail_inj he as bs r s h1
    exact ⟨rfl, h2⟩

/-- Arrays of strings. -/
theorem encodeStrings_selfDelimiting : SelfDelimiting (encodeArray encodeString) :=
  encodeArray_selfDelimiting (encodeString_selfDelimiting.delimitedBy _)
    fun s => ⟨'"', s.toList.flatMap encodeChar ++ ['"'], rfl, by decide⟩

end Modary.Lib.Codec
