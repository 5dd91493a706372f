import Modary.Lib.Rfc6901

/-! # References that are written

`fragmentReference`: the reference for tokens, whose pointer is escaped once more as the fragment of
a URL. It is read back, and an index in it is one of the standard or has a sign. -/

namespace Modary.Schema.References

open Modary.Lib.JsonPointer Modary.Lib.Rfc6901

/-! ### Fragments of URLs -/

/-- `url.shouldEscape` in a fragment. -/
def shouldEscape (c : UInt8) : Bool :=
  if 'a'.toUInt8 ≤ c ∧ c ≤ 'z'.toUInt8 ∨ 'A'.toUInt8 ≤ c ∧ c ≤ 'Z'.toUInt8 ∨
      '0'.toUInt8 ≤ c ∧ c ≤ '9'.toUInt8 then false
  else if c ∈ ['-', '_', '.', '~'].map Char.toUInt8 then false
  else if c ∈ ['$', '&', '+', ',', '/', ':', ';', '=', '?', '@'].map Char.toUInt8 then false
  else if c ∈ ['!', '(', ')', '*'].map Char.toUInt8 then false
  else true

/-- `upperhex`. -/
def upperhex (n : UInt8) : UInt8 := if n < 10 then '0'.toUInt8 + n else 'A'.toUInt8 + (n - 10)

/-- One byte in a fragment. -/
def escapeFragmentByte (c : UInt8) : Bytes :=
  if shouldEscape c then [percent, upperhex (c >>> 4), upperhex (c &&& 15)] else [c]

/-- `url.escape` of a fragment. -/
def escapeFragment (fragment : Bytes) : Bytes := fragment.flatMap escapeFragmentByte

/-- The text of bytes that are all ASCII. -/
def ofAscii (text : Bytes) : String := String.ofList (text.map fun c => Char.ofNat c.toNat)

/-- `fragmentReference`. -/
def fragmentReference (tokens : List Bytes) : String :=
  if tokens = [] then "#" else ofAscii ('#'.toUInt8 :: escapeFragment (keyOf tokens))

/-- What holds of every byte holds of each. -/
theorem forall_byte {P : UInt8 → Prop} (h : ∀ n < 256, P (UInt8.ofNat n)) (c : UInt8) : P c := by
  have hc := h c.toNat c.toNat_lt
  rwa [UInt8.ofNat_toNat] at hc

theorem ascii_escapeFragmentByte (c : UInt8) : ∀ d ∈ escapeFragmentByte c, d.toNat < 128 := by
  have hall : ∀ c, ((escapeFragmentByte c).all fun d => d.toNat < 128) = true := by
    refine forall_byte ?_
    decide +kernel
  intro d hd
  exact of_decide_eq_true (List.all_eq_true.mp (hall c) d hd)

/-- A byte that is escaped has its two halves behind the percent. -/
theorem unhex_upperhex (c : UInt8) : ∃ high low, unhex (upperhex (c >>> 4)) = some high ∧
    unhex (upperhex (c &&& 15)) = some low ∧ high * 16 + low = c := by
  have hhalves : ∀ c : UInt8, unhex (upperhex (c >>> 4)) = some (c >>> 4) ∧
      unhex (upperhex (c &&& 15)) = some (c &&& 15) ∧ (c >>> 4) * 16 + (c &&& 15) = c := by
    refine forall_byte ?_
    decide +kernel
  exact ⟨_, _, hhalves c⟩

theorem percent_escaped : shouldEscape percent = true := by decide

theorem unescape_escapeFragmentByte (c : UInt8) (rest : Bytes) :
    unescape (escapeFragmentByte c ++ rest) = (unescape rest).map (c :: ·) := by
  unfold escapeFragmentByte
  by_cases hescape : shouldEscape c = true
  · obtain ⟨high, low, hhigh, hlow, hsum⟩ := unhex_upperhex c
    rw [if_pos hescape, List.cons_append, List.cons_append, List.cons_append, List.nil_append,
      unescape, if_pos rfl, hhigh, hlow]
    cases unescape rest with
    | none => rfl
    | some inner => simp [hsum]
  · have hne : c ≠ percent := fun h => hescape (h ▸ percent_escaped)
    rw [if_neg hescape, List.cons_append, List.nil_append, unescape.eq_def]
    simp only [if_neg hne]

/-- **A fragment is read back.** -/
theorem unescape_escapeFragment (fragment : Bytes) :
    unescape (escapeFragment fragment) = some fragment := by
  induction fragment with
  | nil => rfl
  | cons c fragment ih =>
    rw [escapeFragment, List.flatMap_cons, unescape_escapeFragmentByte, ← escapeFragment, ih]
    rfl

/-- The bytes of a text of ASCII. -/
theorem bytes_ofAscii {text : Bytes} (h : ∀ c ∈ text, c.toNat < 128) : bytes (ofAscii text) = text := by
  have hchar : ∀ n < 128, String.utf8EncodeChar (Char.ofNat n) = [UInt8.ofNat n] := by
    decide +kernel
  have hbytes : bytes (ofAscii text) =
      (text.map fun c => Char.ofNat c.toNat).flatMap String.utf8EncodeChar := by
    simp [bytes, ofAscii, List.utf8Encode]
  rw [hbytes]
  clear hbytes
  induction text with
  | nil => rfl
  | cons c text ih =>
    have hc := hchar c.toNat (h c List.mem_cons_self)
    rw [UInt8.ofNat_toNat] at hc
    rw [List.map_cons, List.flatMap_cons, hc, ih fun d hd => h d (List.mem_cons_of_mem _ hd)]
    rfl

/-! ### The round trip -/

/-- The tokens of a pointer are read back. -/
theorem mapM_unescapePointerToken (tokens : List Bytes) :
    (tokens.map escapePointerToken).mapM unescapePointerToken = .ok tokens := by
  induction tokens with
  | nil => rfl
  | cons token tokens ih =>
    rw [List.map_cons, List.mapM_cons, unescape_escape, ih]
    rfl

theorem splitOn_keyOf (token : Bytes) (tokens : List Bytes) : ∃ fragment,
    keyOf (token :: tokens) = slash :: fragment ∧
      fragment.splitOn slash = (token :: tokens).map escapePointerToken := by
  have hne : token :: tokens ≠ [] := by simp
  refine ⟨_, (slash_intercalate (token :: tokens) hne).symm, ?_⟩
  refine List.splitOn_intercalate slash ?_ (by simp)
  intro piece hpiece
  obtain ⟨other, -, rfl⟩ := List.mem_map.mp hpiece
  exact slash_not_mem_escape other

/-- **A reference that is written is read back.** -/
theorem parseLocalPointer_fragmentReference (tokens : List Bytes) :
    parseLocalPointer (fragmentReference tokens) = .ok tokens := by
  cases tokens with
  | nil => rfl
  | cons token tokens =>
    obtain ⟨fragment, hkey, hsplit⟩ := splitOn_keyOf token tokens
    have hascii : ∀ c ∈ '#'.toUInt8 :: escapeFragment (keyOf (token :: tokens)), c.toNat < 128 := by
      intro c hc
      rcases List.mem_cons.mp hc with rfl | hc
      · decide
      · obtain ⟨d, -, hd⟩ := List.mem_flatMap.mp hc
        exact ascii_escapeFragmentByte d c hd
    have hbytes : bytes (fragmentReference (token :: tokens)) =
        '#'.toUInt8 :: escapeFragment (keyOf (token :: tokens)) := by
      rw [fragmentReference, if_neg (by simp), bytes_ofAscii hascii]
    unfold parseLocalPointer
    rw [hbytes]
    simp only [ne_eq, not_true_eq_false, if_false, unescape_escapeFragment, hkey, hsplit,
      mapM_unescapePointerToken]

/-! ### Indices -/

/-- A token of a sign and an index below the length. -/
def SignedBelow (token : Bytes) (length : ℕ) : Prop :=
  ∃ sign digits n, token = sign :: digits ∧ parseDigits digits = some n ∧ n < length ∧
    (sign = '+'.toUInt8 ∨ (sign = '-'.toUInt8 ∧ n = 0))

theorem parse_of_arrayIndex {token : Bytes} {length i : ℕ} (h : arrayIndex token = some i)
    (hi : i < length) : parseArrayPointerIndex token length = .ok i := by
  rw [← itoa_of_arrayIndex h]
  exact parseArrayPointerIndex_itoa hi

/-- What is taken with a sign. -/
theorem signedBelow_of_parse {token : Bytes} {length i : ℕ}
    (h : parseArrayPointerIndex token length = .ok i) (hsigned : Signed token) :
    SignedBelow token length := by
  unfold parseArrayPointerIndex at h
  split_ifs at h
  cases token with
  | nil => rcases hsigned with hs | hs <;> cases hs
  | cons sign digits =>
    cases hdigits : parseDigits digits with
    | none =>
      have hatoi : atoi (sign :: digits) = none := by
        rcases hsigned with hs | hs
        · rw [Option.some.inj hs, atoi, if_neg (by decide), if_pos rfl, hdigits]
          rfl
        · rw [Option.some.inj hs, atoi, if_pos rfl, hdigits]
          rfl
      rw [hatoi] at h
      cases h
    | some n =>
      rcases hsigned with hs | hs
      · have hatoi : atoi (sign :: digits) = some (n : ℤ) := by
          rw [Option.some.inj hs, atoi, if_neg (by decide), if_pos rfl, hdigits]
          rfl
        rw [hatoi] at h
        simp only at h
        split_ifs at h with hrange
        exact ⟨sign, digits, n, rfl, hdigits, by omega, .inl (Option.some.inj hs)⟩
      · have hatoi : atoi (sign :: digits) = some (-(n : ℤ)) := by
          rw [Option.some.inj hs, atoi, if_pos rfl, hdigits]
          rfl
        rw [hatoi] at h
        simp only at h
        split_ifs at h with hrange
        exact ⟨sign, digits, n, rfl, hdigits, by omega, .inr ⟨Option.some.inj hs, by omega⟩⟩

/-- A sign before an index below the length is taken. -/
theorem SignedBelow.parse {token : Bytes} {length : ℕ} (h : SignedBelow token length) :
    ∃ i, parseArrayPointerIndex token length = .ok i ∧ arrayIndex token ≠ some i := by
  obtain ⟨sign, digits, n, rfl, hdigits, hn, hsign⟩ := h
  have hne : digits ≠ [] := by
    rintro rfl
    cases hdigits
  have hsigned : Signed (sign :: digits) := by
    rcases hsign with rfl | ⟨rfl, -⟩
    · exact .inl rfl
    · exact .inr rfl
  have hnot : ∀ i, arrayIndex (sign :: digits) ≠ some i := fun i hi =>
    not_signed_of_arrayIndex hi hsigned
  have hzero : sign ≠ '0'.toUInt8 := by
    rcases hsign with rfl | ⟨rfl, -⟩ <;> decide
  have hform : ¬ (sign :: digits = [] ∨ sign :: digits = ['-'.toUInt8] ∨
      (1 < (sign :: digits).length ∧ (sign :: digits).head? = some '0'.toUInt8)) := by
    rintro (hnil | hminus | ⟨-, hhead⟩)
    · cases hnil
    · exact hne (List.cons.inj hminus).2
    · exact hzero (Option.some.inj hhead)
  refine ⟨n, ?_, hnot n⟩
  have hatoi : atoi (sign :: digits) = some (n : ℤ) := by
    rcases hsign with rfl | ⟨rfl, rfl⟩
    · rw [atoi, if_neg (by decide), if_pos rfl, hdigits]
      rfl
    · rw [atoi, if_pos rfl, hdigits]
      rfl
  rw [parseArrayPointerIndex, if_neg hform, hatoi]
  simp only
  rw [if_neg (by omega), Int.toNat_natCast]

/-- **References and indices**: the tokens of a written reference are read back, no two lists of
tokens have one key, and an index is taken as the standard has it, when and only when the token is
no sign before an index below the length. -/
theorem references_iff (tokens others : List Bytes) (token : Bytes) (length : ℕ) :
    (parseLocalPointer (fragmentReference tokens) = .ok tokens ∧
      (pointerKey tokens = pointerKey others → tokens = others) ∧
      ∀ i, parseArrayPointerIndex token length = .ok i ↔ arrayIndex token = some i ∧ i < length) ↔
    ¬ SignedBelow token length := by
  constructor
  · rintro ⟨-, -, hindex⟩ hsigned
    obtain ⟨i, hparse, hne⟩ := hsigned.parse
    exact hne ((hindex i).mp hparse).1
  · intro hsigned
    refine ⟨parseLocalPointer_fragmentReference tokens, pointerKey_inj, fun i => ?_⟩
    constructor
    · intro hparse
      have hlt := parseArrayPointerIndex_lt hparse
      rcases arrayIndex_of_parse hparse with hstandard | hs
      · exact ⟨hstandard, hlt⟩
      · exact absurd (signedBelow_of_parse hparse hs) hsigned
    · rintro ⟨hstandard, hlt⟩
      exact parse_of_arrayIndex hstandard hlt

/-- A plus before a zero is taken for the first item, and is no index of the standard. -/
theorem plus_zero_taken : parseArrayPointerIndex (bytes "+0") 1 = .ok 0 ∧
    arrayIndex (bytes "+0") = none := by
  constructor <;> decide +kernel

end Modary.Schema.References
