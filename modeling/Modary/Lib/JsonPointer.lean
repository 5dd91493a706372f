import Mathlib.Data.List.Basic
import Mathlib.Data.String.Basic
import Modary.Lib.JsonPlace

/-! # JSON Pointers

A reference within a document is `#` and a pointer, whose tokens go down from member to member. The
pointer is the fragment of a URL, so its bytes may be escaped twice. -/

namespace Modary.Lib.JsonPointer

open Modary.Lib.JsonValue Modary.Lib.JsonPlace

/-- A Go string, byte by byte. -/
abbrev Bytes := List UInt8

/-- The bytes of a text. -/
def bytes (s : String) : Bytes := s.toUTF8.data.toList

theorem bytes_inj {s t : String} (h : bytes s = bytes t) : s = t := by
  have hbytes : s.toByteArray = t.toByteArray := ByteArray.ext (Array.ext' h)
  exact String.toByteArray_inj.mp hbytes

/-- Why a pointer leads nowhere. -/
inductive PointerError
  | nonLocal
  | fragment
  | escape
  | missing (token : Bytes)
  | index (token : Bytes)
  | traverses (token : Bytes)
  | notSchema
  deriving DecidableEq, Repr

/-! ### Escapes -/

def percent : UInt8 := '%'.toUInt8

def tilde : UInt8 := '~'.toUInt8

def slash : UInt8 := '/'.toUInt8

/-- `unhex`, and `ishex` where it has a value. -/
def unhex (c : UInt8) : Option UInt8 :=
  if '0'.toUInt8 ≤ c ∧ c ≤ '9'.toUInt8 then some (c - '0'.toUInt8)
  else if 'a'.toUInt8 ≤ c ∧ c ≤ 'f'.toUInt8 then some (c - 'a'.toUInt8 + 10)
  else if 'A'.toUInt8 ≤ c ∧ c ≤ 'F'.toUInt8 then some (c - 'A'.toUInt8 + 10)
  else none

/-- `url.unescape` of a fragment. -/
def unescape : Bytes → Option Bytes
  | [] => some []
  | c :: rest =>
    if c = percent then
      match rest with
      | high :: low :: rest => do
        let high ← unhex high
        let low ← unhex low
        let rest ← unescape rest
        some ((high * 16 + low) :: rest)
      | _ => none
    else (unescape rest).map (c :: ·)

/-- `unescapePointerToken`. -/
def unescapePointerToken : Bytes → Except PointerError Bytes
  | [] => .ok []
  | c :: rest =>
    if c = tilde then
      match rest with
      | d :: rest =>
        if d = '0'.toUInt8 then (unescapePointerToken rest).map (tilde :: ·)
        else if d = '1'.toUInt8 then (unescapePointerToken rest).map (slash :: ·)
        else .error .escape
      | [] => .error .escape
    else (unescapePointerToken rest).map (c :: ·)

/-- One byte of a token in a pointer. -/
def escapeByte (c : UInt8) : Bytes :=
  if c = tilde then [tilde, '0'.toUInt8] else if c = slash then [tilde, '1'.toUInt8] else [c]

/-- `escapePointerToken`. -/
def escapePointerToken (token : Bytes) : Bytes := token.flatMap escapeByte

/-- The key of tokens, without its `#`. -/
def keyOf (tokens : List Bytes) : Bytes :=
  tokens.flatMap fun token => slash :: escapePointerToken token

/-- `pointerKey`. -/
def pointerKey (tokens : List Bytes) : Bytes := '#'.toUInt8 :: keyOf tokens

/-- `parseLocalPointer`. Of a reference that starts with `#` nothing but the fragment is left. -/
def parseLocalPointer (reference : String) : Except PointerError (List Bytes) :=
  match bytes reference with
  | [] => .error .nonLocal
  | c :: rest =>
    if c ≠ '#'.toUInt8 then .error .nonLocal
    else
      match unescape rest with
      | none => .error .fragment
      | some [] => .ok []
      | some (d :: fragment) =>
        if d ≠ slash then .error .nonLocal
        else (fragment.splitOn slash).mapM unescapePointerToken

/-! ### Array indices -/

/-- `strconv.Itoa`. -/
def itoa (n : ℕ) : Bytes := (Nat.toDigits 10 n).map Char.toUInt8

/-- A byte that is a decimal digit. -/
def isDigitByte (c : UInt8) : Bool := '0'.toUInt8 ≤ c && c ≤ '9'.toUInt8

/-- The number that decimal digits spell. -/
def parseDigits (digits : Bytes) : Option ℕ :=
  if digits ≠ [] ∧ digits.all isDigitByte then
    some (Nat.ofDigitChars 10 (digits.map fun c => Char.ofNat c.toNat) 0)
  else none

/-- `strconv.Atoi`, for numbers that are no larger than the length of an array. -/
def atoi : Bytes → Option ℤ
  | [] => none
  | c :: rest =>
    if c = '-'.toUInt8 then (parseDigits rest).map fun n => -(n : ℤ)
    else if c = '+'.toUInt8 then (parseDigits rest).map fun n => (n : ℤ)
    else (parseDigits (c :: rest)).map fun n => (n : ℤ)

/-- `parseArrayPointerIndex`. -/
def parseArrayPointerIndex (token : Bytes) (length : ℕ) : Except PointerError ℕ :=
  if token = [] ∨ token = ['-'.toUInt8] ∨
      (1 < token.length ∧ token.head? = some '0'.toUInt8) then .error (.index token)
  else
    match atoi token with
    | none => .error (.index token)
    | some index =>
      if index < 0 ∨ (length : ℤ) ≤ index then .error (.index token) else .ok index.toNat

/-! ### Tokens and places -/

variable {ν : Type}

/-- The step down that a token asks for. -/
def stepTo : Json ν → Bytes → Except PointerError Step
  | .obj members, token =>
    match members.find? fun member => bytes member.1 = token with
    | none => .error (.missing token)
    | some (name, _) => .ok (.key name)
  | .arr items, token => (parseArrayPointerIndex token items.length).map .index
  | _, token => .error (.traverses token)

/-- The place that tokens lead to. -/
def resolveTokens : Json ν → List Bytes → Except PointerError Place
  | _, [] => .ok []
  | value, token :: tokens =>
    match stepTo value token with
    | .error err => .error err
    | .ok step =>
      match child value step with
      | none => .error (.missing token)
      | some below => (resolveTokens below tokens).map (step :: ·)

/-- The token of a step. -/
def tokenOf : Step → Bytes
  | .key name => bytes name
  | .index i => itoa i

/-- The tokens of a place. -/
def tokensOf (place : Place) : List Bytes := place.map tokenOf

/-! ### Keys of pointers -/

theorem slash_not_mem_escape (token : Bytes) : slash ∉ escapePointerToken token := by
  intro hmem
  obtain ⟨c, -, hc⟩ := List.mem_flatMap.mp hmem
  unfold escapeByte at hc
  split_ifs at hc with htilde hslash
  · revert hc; decide
  · revert hc; decide
  · rw [List.mem_singleton] at hc
    exact hslash hc.symm

theorem unescape_escapeByte (c : UInt8) (rest : Bytes) :
    unescapePointerToken (escapeByte c ++ rest) = (unescapePointerToken rest).map (c :: ·) := by
  unfold escapeByte
  by_cases htilde : c = tilde
  · subst htilde
    rw [if_pos rfl]
    simp [unescapePointerToken]
  · by_cases hslash : c = slash
    · subst hslash
      have hdigit : ('1'.toUInt8 : UInt8) ≠ '0'.toUInt8 := by decide
      rw [if_neg htilde, if_pos rfl]
      simp [unescapePointerToken, hdigit]
    · rw [if_neg htilde, if_neg hslash, List.singleton_append, unescapePointerToken.eq_def]
      exact if_neg htilde

/-- An escaped token is read back. -/
theorem unescape_escape (token : Bytes) :
    unescapePointerToken (escapePointerToken token) = .ok token := by
  induction token with
  | nil => rfl
  | cons c token ih =>
    have hcons : escapePointerToken (c :: token) = escapeByte c ++ escapePointerToken token := rfl
    rw [hcons, unescape_escapeByte, ih]
    rfl

theorem escapePointerToken_inj {s t : Bytes} (h : escapePointerToken s = escapePointerToken t) :
    s = t := by
  have hs := unescape_escape s
  rw [h, unescape_escape] at hs
  exact (Except.ok.inj hs).symm

theorem keyOf_cons (token : Bytes) (tokens : List Bytes) :
    keyOf (token :: tokens) = slash :: (escapePointerToken token ++ keyOf tokens) := rfl

theorem takeWhile_keyOf (tokens : List Bytes) :
    (keyOf tokens).takeWhile (fun c => c ≠ slash) = [] := by
  cases tokens with
  | nil => rfl
  | cons token tokens => simp [keyOf_cons]

theorem takeWhile_escape (token : Bytes) (tokens : List Bytes) :
    (escapePointerToken token ++ keyOf tokens).takeWhile (fun c => c ≠ slash) =
      escapePointerToken token := by
  have hall : ∀ c ∈ escapePointerToken token, (decide (c ≠ slash)) = true := by
    intro c hc
    refine decide_eq_true fun heq => ?_
    rw [heq] at hc
    exact slash_not_mem_escape token hc
  rw [List.takeWhile_append_of_pos hall, takeWhile_keyOf, List.append_nil]

theorem keyOf_inj : ∀ {s t : List Bytes}, keyOf s = keyOf t → s = t
  | [], [], _ => rfl
  | [], token :: tokens, h => by rw [keyOf_cons] at h; cases h
  | token :: tokens, [], h => by rw [keyOf_cons] at h; cases h
  | a :: s, b :: t, h => by
    rw [keyOf_cons, keyOf_cons] at h
    have htail := (List.cons.inj h).2
    have htoken : escapePointerToken a = escapePointerToken b := by
      have htake := congrArg (List.takeWhile fun c => c ≠ slash) htail
      rwa [takeWhile_escape, takeWhile_escape] at htake
    rw [htoken] at htail
    have hrest : keyOf s = keyOf t := List.append_cancel_left htail
    rw [escapePointerToken_inj htoken, keyOf_inj hrest]

/-- **Tokens are told apart by their key.** -/
theorem pointerKey_inj {s t : List Bytes} (h : pointerKey s = pointerKey t) : s = t :=
  keyOf_inj (List.cons.inj h).2

/-! ### Indices round trip -/

theorem digit_toNat {c : Char} (h : c.isDigit = true) : 48 ≤ c.toNat ∧ c.toNat ≤ 57 := by
  rw [Char.isDigit, Bool.and_eq_true] at h
  have hlow := of_decide_eq_true h.1
  have hhigh := of_decide_eq_true h.2
  exact ⟨hlow, hhigh⟩

theorem toUInt8_toNat {c : Char} (h : c.isDigit = true) : c.toUInt8.toNat = c.toNat := by
  have hbound := digit_toNat h
  have hval : c.toUInt8.toNat = c.toNat % 256 := UInt32.toNat_toUInt8 c.val
  omega

theorem parseDigits_itoa (n : ℕ) : parseDigits (itoa n) = some n := by
  have hne : itoa n ≠ [] := by
    intro h
    exact Nat.toDigits_ne_nil (List.map_eq_nil_iff.mp h)
  have hdigit : ∀ c ∈ Nat.toDigits 10 n, c.isDigit = true := fun c hc =>
    Nat.isDigit_of_mem_toDigits (by omega) (by omega) hc
  have hall : (itoa n).all isDigitByte = true := by
    refine List.all_eq_true.mpr fun b hb => ?_
    obtain ⟨c, hc, rfl⟩ := List.mem_map.mp hb
    have hbound := digit_toNat (hdigit c hc)
    have hbyte := toUInt8_toNat (hdigit c hc)
    rw [isDigitByte, Bool.and_eq_true, decide_eq_true_eq, decide_eq_true_eq,
      UInt8.le_iff_toNat_le, UInt8.le_iff_toNat_le, hbyte]
    exact hbound
  have hchars : (itoa n).map (fun c => Char.ofNat c.toNat) = Nat.toDigits 10 n := by
    have hback : ∀ c ∈ Nat.toDigits 10 n, Char.ofNat c.toUInt8.toNat = c := by
      intro c hc
      rw [toUInt8_toNat (hdigit c hc), Char.ofNat_toNat]
    rw [itoa, List.map_map]
    exact (List.map_congr_left hback).trans (List.map_id _)
  rw [parseDigits, if_pos ⟨hne, hall⟩, hchars, Nat.ofDigitChars_ten_toDigits]

/-- The first digit of a number. -/
theorem head_toDigits {n : ℕ} (h : 0 < n) : (Nat.toDigits 10 n).head? ≠ some '0' := by
  induction n using Nat.strong_induction_on with
  | _ n ih =>
    by_cases hn : n < 10
    · have hdigits : ∀ m < 10, 0 < m → [Nat.digitChar m].head? ≠ some '0' := by decide
      rw [Nat.toDigits_of_lt_base hn]
      exact hdigits n hn h
    · have hdiv : 0 < n / 10 := by omega
      have hlt : n / 10 < n := by omega
      have hhead := ih (n / 10) hlt hdiv
      rw [Nat.toDigits_of_base_le (by omega) (by omega)]
      cases hdigits : Nat.toDigits 10 (n / 10) with
      | nil => exact absurd hdigits Nat.toDigits_ne_nil
      | cons c cs =>
        rw [hdigits] at hhead
        exact hhead

theorem itoa_eq_cons (n : ℕ) : ∃ c cs, itoa n = c.toUInt8 :: cs ∧ c.isDigit = true ∧
    (Nat.toDigits 10 n).head? = some c := by
  cases hdigits : Nat.toDigits 10 n with
  | nil => exact absurd hdigits Nat.toDigits_ne_nil
  | cons c cs =>
    have hmem : c ∈ Nat.toDigits 10 n := by rw [hdigits]; exact List.mem_cons_self
    refine ⟨c, cs.map Char.toUInt8, ?_, Nat.isDigit_of_mem_toDigits (by omega) (by omega) hmem, rfl⟩
    rw [itoa, hdigits, List.map_cons]

theorem ne_of_isDigit {c d : Char} (hc : c.isDigit = true) (hd : d.toUInt8.toNat < 48) :
    c.toUInt8 ≠ d.toUInt8 := by
  intro heq
  have hbound := digit_toNat hc
  have hbyte := toUInt8_toNat hc
  rw [heq] at hbyte
  omega

theorem atoi_itoa (n : ℕ) : atoi (itoa n) = some (n : ℤ) := by
  obtain ⟨c, cs, hitoa, hdigit, -⟩ := itoa_eq_cons n
  have hparse := parseDigits_itoa n
  have hminus : c.toUInt8 ≠ '-'.toUInt8 := ne_of_isDigit hdigit (by decide)
  have hplus : c.toUInt8 ≠ '+'.toUInt8 := ne_of_isDigit hdigit (by decide)
  rw [hitoa] at hparse ⊢
  rw [atoi, if_neg hminus, if_neg hplus, hparse]
  rfl

/-- An index is read back. -/
theorem parseArrayPointerIndex_itoa {i length : ℕ} (h : i < length) :
    parseArrayPointerIndex (itoa i) length = .ok i := by
  obtain ⟨c, cs, hitoa, hdigit, hhead⟩ := itoa_eq_cons i
  have hminus : c.toUInt8 ≠ '-'.toUInt8 := ne_of_isDigit hdigit (by decide)
  have hfirst : ¬ (itoa i = [] ∨ itoa i = ['-'.toUInt8] ∨
      (1 < (itoa i).length ∧ (itoa i).head? = some '0'.toUInt8)) := by
    rintro (hnil | hdash | ⟨hlong, hzero⟩)
    · rw [hitoa] at hnil; cases hnil
    · rw [hitoa] at hdash
      exact hminus (List.cons.inj hdash).1
    · rcases Nat.eq_zero_or_pos i with rfl | hpos
      · revert hlong; decide
      · have hbyte : c.toUInt8 = '0'.toUInt8 := by
          rw [hitoa] at hzero
          exact Option.some.inj hzero
        have hnat : c.toNat = '0'.toNat := by
          rw [← toUInt8_toNat hdigit, hbyte]
          rfl
        have hc : c = '0' := Char.toNat_inj.mp hnat
        rw [hc] at hhead
        exact head_toDigits hpos hhead
  have hnat : ¬ ((i : ℤ) < 0 ∨ (length : ℤ) ≤ i) := by omega
  rw [parseArrayPointerIndex, if_neg hfirst, atoi_itoa]
  simp only [if_neg hnat, Int.toNat_natCast]

/-! ### Tokens of places -/

theorem find?_bytes (members : List (String × Json ν)) (name : String) :
    members.find? (fun member => bytes member.1 = bytes name) =
      (members.lookup name).map fun value => (name, value) := by
  induction members with
  | nil => rfl
  | cons member members ih =>
    obtain ⟨key, value⟩ := member
    rw [lookup_cons_if]
    by_cases hname : name = key
    · subst hname
      simp
    · have hne : ¬ bytes key = bytes name := fun h => hname (bytes_inj h).symm
      rw [List.find?_cons_of_neg (by simp [hne]), ih, if_neg hname]

theorem parseArrayPointerIndex_lt {token : Bytes} {length i : ℕ}
    (h : parseArrayPointerIndex token length = .ok i) : i < length := by
  unfold parseArrayPointerIndex at h
  split at h
  · cases h
  · cases hatoi : atoi token with
    | none => rw [hatoi] at h; cases h
    | some index =>
      simp only [hatoi] at h
      split at h
      · cases h
      · next hrange =>
        cases h
        omega

/-- A step that a token asks for can be made. -/
theorem child_of_stepTo {value : Json ν} {token : Bytes} {step : Step}
    (h : stepTo value token = .ok step) : ∃ below, child value step = some below := by
  cases value with
  | arr items =>
    cases hindex : parseArrayPointerIndex token items.length with
    | error err => rw [stepTo, hindex] at h; cases h
    | ok i =>
      rw [stepTo, hindex] at h
      cases h
      have hlt : i < items.length := parseArrayPointerIndex_lt hindex
      exact ⟨items[i], List.getElem?_eq_getElem hlt⟩
  | obj members =>
    rw [stepTo] at h
    cases hfind : members.find? fun member => bytes member.1 = token with
    | none => rw [hfind] at h; cases h
    | some member =>
      obtain ⟨name, value⟩ := member
      rw [hfind] at h
      cases h
      have hname : bytes name = token := by simpa using List.find?_some hfind
      rw [← hname, find?_bytes] at hfind
      cases hlookup : members.lookup name with
      | none => rw [hlookup] at hfind; cases hfind
      | some found => exact ⟨found, hlookup⟩
  | _ => cases h

/-- The token that a step of an object was made for. -/
theorem tokenOf_of_stepTo {members : List (String × Json ν)} {token : Bytes} {step : Step}
    (h : stepTo (.obj members) token = .ok step) : tokenOf step = token := by
  rw [stepTo] at h
  cases hfind : members.find? fun member => bytes member.1 = token with
  | none => rw [hfind] at h; cases h
  | some member =>
    rw [hfind] at h
    cases h
    have hname : bytes member.1 = token := by simpa using List.find?_some hfind
    exact hname

/-- The token of a step asks for it. -/
theorem stepTo_tokenOf {value below : Json ν} {step : Step} (h : child value step = some below) :
    stepTo value (tokenOf step) = .ok step := by
  cases value with
  | arr items =>
    cases step with
    | key name => cases h
    | index i =>
      have hlt : i < items.length := (List.getElem?_eq_some_iff.mp h).1
      rw [tokenOf, stepTo, parseArrayPointerIndex_itoa hlt]
      rfl
  | obj members =>
    cases step with
    | index i => cases h
    | key name =>
      have hlookup : members.lookup name = some below := h
      rw [tokenOf, stepTo, find?_bytes, hlookup]
      rfl
  | _ => cases h

theorem resolveTokens_cons {value below : Json ν} {token : Bytes} {step : Step}
    (hstep : stepTo value token = .ok step) (hbelow : child value step = some below)
    (tokens : List Bytes) :
    resolveTokens value (token :: tokens) = (resolveTokens below tokens).map (step :: ·) := by
  rw [resolveTokens, hstep]
  simp only [hbelow]

/-- Tokens that lead somewhere: the first step, and the rest from there. -/
theorem resolveTokens_cons_ok {value : Json ν} {token : Bytes} {tokens : List Bytes} {place : Place}
    (h : resolveTokens value (token :: tokens) = .ok place) :
    ∃ step below rest, stepTo value token = .ok step ∧ child value step = some below ∧
      resolveTokens below tokens = .ok rest ∧ place = step :: rest := by
  rw [resolveTokens] at h
  cases hstep : stepTo value token with
  | error err => rw [hstep] at h; cases h
  | ok step =>
    obtain ⟨below, hbelow⟩ := child_of_stepTo hstep
    simp only [hstep, hbelow] at h
    cases hrest : resolveTokens below tokens with
    | error err => rw [hrest] at h; cases h
    | ok rest =>
      rw [hrest] at h
      exact ⟨step, below, rest, rfl, hbelow, hrest, (Except.ok.inj h).symm⟩

/-- The tokens of a place lead to it. -/
theorem resolve_tokensOf {value found : Json ν} {place : Place} (h : get value place = some found) :
    resolveTokens value (tokensOf place) = .ok place := by
  induction place generalizing value with
  | nil => rfl
  | cons step place ih =>
    obtain ⟨next, hnext, hget⟩ := Option.bind_eq_some_iff.mp h
    have hstep := stepTo_tokenOf hnext
    have hrest := ih hget
    rw [tokensOf, List.map_cons, ← tokensOf, resolveTokens_cons hstep hnext, hrest]
    rfl

/-- Tokens that are resolved lead to a value. -/
theorem get_of_resolve {value : Json ν} {tokens : List Bytes} {place : Place}
    (h : resolveTokens value tokens = .ok place) : ∃ found, get value place = some found := by
  induction tokens generalizing value place with
  | nil =>
    cases h
    exact ⟨value, rfl⟩
  | cons token tokens ih =>
    obtain ⟨step, below, rest, -, hbelow, hrest, rfl⟩ := resolveTokens_cons_ok h
    obtain ⟨found, hfound⟩ := ih hrest
    refine ⟨found, ?_⟩
    rw [get_cons, hbelow, Option.bind_some, hfound]

/-- Tokens after tokens. -/
theorem resolve_append {value found : Json ν} {tokens others : List Bytes} {place : Place}
    (h : resolveTokens value tokens = .ok place) (hget : get value place = some found) :
    resolveTokens value (tokens ++ others) = (resolveTokens found others).map (place ++ ·) := by
  induction tokens generalizing value place with
  | nil =>
    cases h
    cases hget
    rw [List.nil_append]
    cases resolveTokens found others <;> rfl
  | cons token tokens ih =>
    obtain ⟨step, below, rest, hstep, hbelow, hrest, rfl⟩ := resolveTokens_cons_ok h
    rw [get_cons, hbelow, Option.bind_some] at hget
    rw [List.cons_append, resolveTokens_cons hstep hbelow, ih hrest hget]
    cases resolveTokens found others <;> rfl

theorem find?_rewriteMembers (texts : Place → Option String) (members : List (String × Json ν))
    (token : Bytes) :
    ((rewriteMembers texts members).find? fun member => bytes member.1 = token).map Prod.fst =
      (members.find? fun member => bytes member.1 = token).map Prod.fst := by
  induction members with
  | nil => rfl
  | cons member members ih =>
    obtain ⟨name, value⟩ := member
    rw [rewriteMembers]
    by_cases hname : bytes name = token
    · simp [hname]
    · simp [hname, ih]

theorem stepTo_rewrite (texts : Place → Option String) (value : Json ν) (token : Bytes) :
    stepTo (rewrite texts value) token = stepTo value token := by
  cases value with
  | arr items => rw [rewrite, stepTo, stepTo, length_rewriteItems]
  | obj members =>
    have hfind := find?_rewriteMembers texts members token
    rw [rewrite, stepTo, stepTo]
    cases hold : members.find? fun member => bytes member.1 = token with
    | none =>
      rw [hold, Option.map_none, Option.map_eq_none_iff] at hfind
      rw [hfind]
    | some member =>
      rw [hold, Option.map_some, Option.map_eq_some_iff] at hfind
      obtain ⟨other, hother, hname⟩ := hfind
      rw [hother]
      exact congrArg (fun name => Except.ok (Step.key name)) hname
  | _ => rfl

/-- A rewriting of texts moves nothing. -/
theorem resolve_rewrite (texts : Place → Option String) (value : Json ν) (tokens : List Bytes) :
    resolveTokens (rewrite texts value) tokens = resolveTokens value tokens := by
  induction tokens generalizing value texts with
  | nil => rfl
  | cons token tokens ih =>
    rw [resolveTokens, resolveTokens, stepTo_rewrite]
    cases stepTo value token with
    | error err => rfl
    | ok step =>
      simp only [child_rewrite]
      cases child value step with
      | none => rfl
      | some below => simp only [Option.map_some, ih]

end Modary.Lib.JsonPointer
