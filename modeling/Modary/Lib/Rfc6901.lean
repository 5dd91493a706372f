import Modary.Lib.Decimal
import Modary.Lib.JsonPointer

/-! # JSON Pointers by their standard

The text of a pointer, the index that a token is in an array, and the place that a pointer has in a
document, as RFC 6901 has them. A reader that also takes a sign before an index agrees with it on the
pointers that hold none. -/

namespace Modary.Lib.Rfc6901

open Modary.Lib.JsonValue Modary.Lib.JsonPlace Modary.Lib.JsonPointer Modary.Lib.Decimal

variable {ν : Type}

/-- The index that a token is: a zero, or digits that start with no zero. -/
def arrayIndex (token : Bytes) : Option ℕ :=
  if token ≠ ['0'.toUInt8] ∧ token.head? = some '0'.toUInt8 then none else parseDigits token

/-- The tokens lead from a value down to a place. -/
inductive Evaluates : Json ν → List Bytes → Place → Prop
  | whole (value : Json ν) : Evaluates value [] []
  | member {members : List (String × Json ν)} {name : String} {below : Json ν}
      {tokens : List Bytes} {place : Place} (hmember : members.lookup name = some below)
      (h : Evaluates below tokens place) :
      Evaluates (.obj members) (bytes name :: tokens) (.key name :: place)
  | item {items : List (Json ν)} {token : Bytes} {i : ℕ} {below : Json ν} {tokens : List Bytes}
      {place : Place} (hindex : arrayIndex token = some i) (hitem : items[i]? = some below)
      (h : Evaluates below tokens place) : Evaluates (.arr items) (token :: tokens) (.index i :: place)

/-- A local reference locates a place: its fragment is the text of a pointer that leads there. -/
def Locates (document : Json ν) (reference : String) (place : Place) : Prop :=
  ∃ fragment tokens, bytes reference = '#'.toUInt8 :: fragment ∧
    unescape fragment = some (keyOf tokens) ∧ Evaluates document tokens place

/-- A token with a sign at its front. -/
def Signed (token : Bytes) : Prop :=
  token.head? = some '+'.toUInt8 ∨ token.head? = some '-'.toUInt8

/-- The tokens lead to an array with a signed token behind. -/
def SignedIndex (document : Json ν) (tokens : List Bytes) : Prop :=
  ∃ before token after place items, tokens = before ++ token :: after ∧
    resolveTokens document before = .ok place ∧ get document place = some (.arr items) ∧ Signed token

/-! ### Indices -/

theorem isDigit_of_byte {b : UInt8} (h : isDigitByte b = true) :
    GoText.isDigit (Char.ofNat b.toNat) = true ∧ (Char.ofNat b.toNat).toUInt8 = b := by
  rw [isDigitByte, Bool.and_eq_true, decide_eq_true_eq, decide_eq_true_eq,
    UInt8.le_iff_toNat_le, UInt8.le_iff_toNat_le] at h
  have hlow : 48 ≤ b.toNat := h.1
  have hhigh : b.toNat ≤ 57 := h.2
  have hall : ∀ n : ℕ, n < 58 → 48 ≤ n → GoText.isDigit (Char.ofNat n) = true ∧
      (Char.ofNat n).toUInt8 = UInt8.ofNat n := by decide
  have hn := hall b.toNat (by omega) hlow
  rw [UInt8.ofNat_toNat] at hn
  exact hn

/-- An index has one token. -/
theorem itoa_of_arrayIndex {token : Bytes} {i : ℕ} (h : arrayIndex token = some i) :
    itoa i = token := by
  unfold arrayIndex at h
  split_ifs at h with hzero
  unfold parseDigits at h
  split_ifs at h with hdigits
  obtain ⟨hne, hall⟩ := hdigits
  rw [List.all_eq_true] at hall
  have hback : (token.map fun c => Char.ofNat c.toNat).map Char.toUInt8 = token := by
    rw [List.map_map]
    have hmap : ∀ c ∈ token, (Char.toUInt8 ∘ fun c : UInt8 => Char.ofNat c.toNat) c = c :=
      fun c hc => (isDigit_of_byte (hall c hc)).2
    rw [List.map_congr_left hmap, List.map_id']
  by_cases hone : token = ['0'.toUInt8]
  · subst hone
    cases h
    decide
  · have hhead : token.head? ≠ some '0'.toUInt8 := fun hh => hzero ⟨hone, hh⟩
    have hchars : ((token.map fun c => Char.ofNat c.toNat).all GoText.isDigit) = true := by
      rw [List.all_eq_true]
      intro c hc
      obtain ⟨b, hb, rfl⟩ := List.mem_map.mp hc
      exact (isDigit_of_byte (hall b hb)).1
    have hfirst : (token.map fun c => Char.ofNat c.toNat).head? ≠ some '0' := by
      cases token with
      | nil => exact absurd rfl hne
      | cons b rest =>
        intro hh
        have hchar : Char.ofNat b.toNat = '0' := Option.some.inj hh
        have hb := (isDigit_of_byte (hall b List.mem_cons_self)).2
        rw [hchar] at hb
        exact hhead (congrArg some hb.symm)
    have hdigits := (toDigits_digitsNumber hchars (by simpa using hne) hfirst).2
    have hi : JsonText.digitsNumber (token.map fun c => Char.ofNat c.toNat) = i := Option.some.inj h
    rw [hi] at hdigits
    rw [itoa, hdigits, hback]

theorem not_signed_of_arrayIndex {token : Bytes} {i : ℕ} (h : arrayIndex token = some i) :
    ¬ Signed token := by
  unfold arrayIndex at h
  split_ifs at h
  unfold parseDigits at h
  split_ifs at h with hdigits
  cases token with
  | nil => exact absurd rfl hdigits.1
  | cons b rest =>
    have hb : isDigitByte b = true := (List.all_eq_true.mp hdigits.2) b List.mem_cons_self
    rintro (hsign | hsign)
    · rw [Option.some.inj hsign] at hb
      exact absurd hb (by decide)
    · rw [Option.some.inj hsign] at hb
      exact absurd hb (by decide)

/-- Of the tokens without a sign, the indices of the standard are taken and no others. -/
theorem arrayIndex_of_parse {token : Bytes} {length i : ℕ}
    (h : parseArrayPointerIndex token length = .ok i) : arrayIndex token = some i ∨ Signed token := by
  by_cases hsigned : Signed token
  · exact .inr hsigned
  left
  unfold parseArrayPointerIndex at h
  split_ifs at h with hform
  cases token with
  | nil => exact absurd (Or.inl rfl) hform
  | cons b rest =>
    have hminus : b ≠ '-'.toUInt8 := fun hb => hsigned (.inr (congrArg some hb))
    have hplus : b ≠ '+'.toUInt8 := fun hb => hsigned (.inl (congrArg some hb))
    cases hparse : parseDigits (b :: rest) with
    | none =>
      have hatoi : atoi (b :: rest) = none := by
        rw [atoi, if_neg hminus, if_neg hplus, hparse]
        rfl
      simp only [hatoi] at h
      cases h
    | some n =>
      have hatoi : atoi (b :: rest) = some (n : ℤ) := by
        rw [atoi, if_neg hminus, if_neg hplus, hparse]
        rfl
      simp only [hatoi] at h
      split_ifs at h
      cases h
      have hlong : ¬ (b :: rest ≠ ['0'.toUInt8] ∧ (b :: rest).head? = some '0'.toUInt8) := by
        rintro ⟨hne, hhead⟩
        refine hform (.inr (.inr ⟨?_, hhead⟩))
        cases rest with
        | nil =>
          have hb : b = '0'.toUInt8 := Option.some.inj hhead
          exact absurd (congrArg (fun x => [x]) hb) hne
        | cons c rest => simp
      rw [arrayIndex, if_neg hlong, hparse, Int.toNat_natCast]

/-! ### Places -/

/-- A pointer has the tokens of the place it leads to. -/
theorem Evaluates.tokens_eq {value : Json ν} {tokens : List Bytes} {place : Place}
    (h : Evaluates value tokens place) : tokens = tokensOf place := by
  induction h with
  | whole => rfl
  | member _ _ ih => rw [ih]; rfl
  | item hindex _ _ ih => rw [ih, ← itoa_of_arrayIndex hindex]; rfl

/-- What the standard finds holds no signed index. -/
theorem Evaluates.not_signed {value : Json ν} {tokens : List Bytes} {place : Place}
    (h : Evaluates value tokens place) : ¬ SignedIndex value tokens := by
  induction h with
  | whole value =>
    rintro ⟨before, token, after, _, _, heq, -⟩
    exact absurd heq (by simp)
  | @member members name below tokens place hmember h ih =>
    rintro ⟨before, token, after, found, items, heq, hresolve, hget, hsigned⟩
    cases before with
    | nil =>
      cases hresolve
      cases hget
    | cons first before =>
      obtain ⟨rfl, rfl⟩ := List.cons.inj heq
      obtain ⟨step, next, rest, hstep, hnext, hrest, rfl⟩ := resolveTokens_cons_ok hresolve
      have hkey : stepTo (.obj members) (bytes name) = .ok (.key name) :=
        by
        have hchild : child (.obj members) (.key name) = some below := hmember
        exact stepTo_tokenOf hchild
      rw [hkey] at hstep
      cases hstep
      have hsame : members.lookup name = some next := hnext
      rw [hmember] at hsame
      cases hsame
      rw [get_cons, child, hmember, Option.bind_some] at hget
      exact ih ⟨before, token, after, rest, items, rfl, hrest, hget, hsigned⟩
  | @item items first i below tokens place hindex hitem h ih =>
    rintro ⟨before, token, after, found, inner, heq, hresolve, hget, hsigned⟩
    cases before with
    | nil =>
      obtain ⟨rfl, -⟩ := List.cons.inj heq
      exact not_signed_of_arrayIndex hindex hsigned
    | cons other before =>
      obtain ⟨rfl, rfl⟩ := List.cons.inj heq
      obtain ⟨step, next, rest, hstep, hnext, hrest, rfl⟩ := resolveTokens_cons_ok hresolve
      have hlt : i < items.length := (List.getElem?_eq_some_iff.mp hitem).1
      rw [← itoa_of_arrayIndex hindex, stepTo, parseArrayPointerIndex_itoa hlt] at hstep
      cases hstep
      have hsame : items[i]? = some next := hnext
      rw [hitem] at hsame
      cases hsame
      rw [get_cons, child, hitem, Option.bind_some] at hget
      exact ih ⟨before, token, after, rest, inner, rfl, hrest, hget, hsigned⟩

/-- **A pointer without a signed index is resolved by the standard.** -/
theorem evaluates_of_resolve {value : Json ν} {tokens : List Bytes} {place : Place}
    (h : resolveTokens value tokens = .ok place) (hsigned : ¬ SignedIndex value tokens) :
    Evaluates value tokens place := by
  induction tokens generalizing value place with
  | nil =>
    cases h
    exact .whole value
  | cons token tokens ih =>
    obtain ⟨step, below, rest, hstep, hbelow, hrest, rfl⟩ := resolveTokens_cons_ok h
    have hinner : ¬ SignedIndex below tokens := by
      rintro ⟨before, other, after, found, items, rfl, hresolve, hget, hs⟩
      refine hsigned ⟨token :: before, other, after, step :: found, items, rfl, ?_, ?_, hs⟩
      · rw [resolveTokens_cons hstep hbelow, hresolve]
        rfl
      · rw [get_cons, hbelow, Option.bind_some, hget]
    have hrest := ih hrest hinner
    cases value with
    | obj members =>
      have htoken := tokenOf_of_stepTo hstep
      cases step with
      | index i => cases hbelow
      | key name =>
        rw [← htoken]
        exact .member hbelow hrest
    | arr items =>
      cases hindex : parseArrayPointerIndex token items.length with
      | error err =>
        rw [stepTo, hindex] at hstep
        cases hstep
      | ok i =>
        rw [stepTo, hindex] at hstep
        cases hstep
        rcases arrayIndex_of_parse hindex with hstandard | hs
        · exact .item hstandard hbelow hrest
        · exact absurd ⟨[], token, tokens, [], items, rfl, rfl, rfl, hs⟩ hsigned
    | _ => cases hstep

/-! ### Texts -/

/-- A token that is read was written with the escapes of the standard. -/
theorem eq_escape_of_unescape {text token : Bytes} (h : unescapePointerToken text = .ok token)
    (hslash : slash ∉ text) : text = escapePointerToken token := by
  induction text using unescapePointerToken.induct generalizing token with
  | case1 =>
    cases h
    rfl
  | case2 rest ih =>
    rw [unescapePointerToken, if_pos rfl, if_pos rfl] at h
    cases hrest : unescapePointerToken rest with
    | error err =>
      rw [hrest] at h
      cases h
    | ok inner =>
      rw [hrest] at h
      cases h
      have heq := ih hrest fun hmem => hslash (by simp [hmem])
      rw [heq]
      rfl
  | case3 rest hdigit ih =>
    rw [unescapePointerToken, if_pos rfl, if_neg hdigit, if_pos rfl] at h
    cases hrest : unescapePointerToken rest with
    | error err =>
      rw [hrest] at h
      cases h
    | ok inner =>
      rw [hrest] at h
      cases h
      have heq := ih hrest fun hmem => hslash (by simp [hmem])
      rw [heq]
      rfl
  | case4 d rest hzero hone =>
    rw [unescapePointerToken, if_pos rfl, if_neg hzero, if_neg hone] at h
    cases h
  | case5 =>
    rw [unescapePointerToken, if_pos rfl] at h
    cases h
  | case6 c rest hc ih =>
    rw [unescapePointerToken.eq_def] at h
    simp only [if_neg hc] at h
    cases hrest : unescapePointerToken rest with
    | error err =>
      rw [hrest] at h
      cases h
    | ok inner =>
      rw [hrest] at h
      cases h
      have heq := ih hrest fun hmem => hslash (List.mem_cons_of_mem _ hmem)
      have hne : c ≠ slash := fun heq => hslash (heq ▸ List.mem_cons_self)
      have hescape : escapePointerToken (c :: inner) = c :: escapePointerToken inner := by
        rw [escapePointerToken, List.flatMap_cons, escapeByte, if_neg hc, if_neg hne]
        rfl
      rw [hescape, ← heq]

/-- The pieces of a text hold no separator. -/
theorem not_mem_of_mem_splitOn {a : UInt8} {text : Bytes} :
    ∀ piece ∈ text.splitOn a, a ∉ piece := by
  induction text with
  | nil => simp
  | cons c text ih =>
    rw [List.splitOn_cons_eq_if_modifyHead]
    by_cases hc : c = a
    · rw [if_pos (by simp [hc])]
      simpa using ih
    · rw [if_neg (by simp [hc])]
      cases hsplit : text.splitOn a with
      | nil => exact absurd hsplit (List.splitOn_ne_nil a text)
      | cons first pieces =>
        rw [hsplit] at ih
        rw [List.modifyHead_cons, List.forall_mem_cons]
        refine ⟨?_, fun piece hpiece => ih piece (List.mem_cons_of_mem _ hpiece)⟩
        rw [List.mem_cons, not_or]
        exact ⟨fun heq => hc heq.symm, ih first List.mem_cons_self⟩

theorem slash_intercalate (tokens : List Bytes) (hne : tokens ≠ []) :
    slash :: [slash].intercalate (tokens.map escapePointerToken) = keyOf tokens := by
  induction tokens with
  | nil => exact absurd rfl hne
  | cons token tokens ih =>
    cases tokens with
    | nil => simp [keyOf]
    | cons next tokens =>
      have ih := ih (by simp)
      rw [List.map_cons, List.map_cons] at *
      rw [List.intercalate_cons_cons, keyOf_cons, ← ih]
      simp

/-- **The tokens of a reference are those of its pointer.** -/
theorem parseLocalPointer_ok {reference : String} {tokens : List Bytes}
    (h : parseLocalPointer reference = .ok tokens) : ∃ fragment,
      bytes reference = '#'.toUInt8 :: fragment ∧ unescape fragment = some (keyOf tokens) := by
  unfold parseLocalPointer at h
  split at h
  · cases h
  next c rest hbytes =>
  split_ifs at h with hhash
  have hhash : c = '#'.toUInt8 := not_not.mp hhash
  subst hhash
  refine ⟨rest, hbytes, ?_⟩
  split at h
  · cases h
  · next hnil =>
    cases h
    exact hnil
  · next d fragment hfragment =>
    split_ifs at h with hslash
    have hslash : d = slash := not_not.mp hslash
    subst hslash
    rw [hfragment]
    have hpieces : ∀ {pieces : List Bytes} {tokens : List Bytes},
        pieces.mapM unescapePointerToken = .ok tokens → (∀ piece ∈ pieces, slash ∉ piece) →
          pieces = tokens.map escapePointerToken := by
      intro pieces
      induction pieces with
      | nil =>
        intro tokens h _
        cases h
        rfl
      | cons piece pieces ih =>
        intro tokens h hnot
        rw [List.mapM_cons] at h
        obtain ⟨token, htoken, h⟩ := GoText.bind_eq_ok.mp h
        obtain ⟨rest, hrest, h⟩ := GoText.bind_eq_ok.mp h
        cases h
        rw [List.map_cons, ← ih hrest fun p hp => hnot p (List.mem_cons_of_mem _ hp),
          ← eq_escape_of_unescape htoken (hnot piece List.mem_cons_self)]
    have hsplit := hpieces h not_mem_of_mem_splitOn
    have hne : tokens ≠ [] := by
      rintro rfl
      exact List.splitOn_ne_nil slash fragment hsplit
    have hjoin : [slash].intercalate (fragment.splitOn slash) = fragment :=
      List.intercalate_splitOn slash
    rw [hsplit] at hjoin
    rw [← slash_intercalate tokens hne, hjoin]

/-- The standard reads the same tokens. -/
theorem evaluates_of_locates {document : Json ν} {reference : String} {tokens : List Bytes}
    {place : Place} (hparse : parseLocalPointer reference = .ok tokens)
    (h : Locates document reference place) : Evaluates document tokens place := by
  obtain ⟨fragment, others, hbytes, hothers, hevaluates⟩ := h
  obtain ⟨fragment', hbytes', htokens⟩ := parseLocalPointer_ok hparse
  rw [hbytes] at hbytes'
  cases hbytes'
  rw [hothers] at htokens
  rw [← keyOf_inj (Option.some.inj htokens)]
  exact hevaluates

end Modary.Lib.Rfc6901
