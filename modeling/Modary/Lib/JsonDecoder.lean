import Modary.Lib.JsonPrint

/-! # The tokens of a JSON decoder

`json.Decoder` as `Token` and `More` drive it: a state says what may come next, a stack what
surrounds it, and a scalar ends where no rune continues it. On tokens alone a call is `Takes`; the
call on a text is tied to it in both directions. -/

namespace Modary.Lib.JsonDecoder

open Modary.Lib.GoText Modary.Lib.JsonNumber Modary.Lib.JsonText Modary.Lib.Lexing

/-! ### Texts and their tokens -/

/-- A token that is no white space. -/
def solid : Token → Bool
  | .blank => false
  | _ => true

/-- The text has these tokens, white space apart. -/
def Spells (text : List Rune) (tokens : List Token) : Prop :=
  ∃ all, scanner.lex () text = some all ∧ all.filter solid = tokens

/-- A text behind its white space. -/
def trim : List Rune → List Rune
  | [] => []
  | .inr b :: rest => .inr b :: rest
  | .inl c :: rest => if isBlank c then trim rest else .inl c :: rest

/-- No digit stands at the front. -/
def NotDigit : List Rune → Prop
  | .inl c :: _ => isDigit c = false
  | _ => True

theorem trim_le (text : List Rune) : (trim text).length ≤ text.length := by
  induction text with
  | nil => exact le_rfl
  | cons rune text ih =>
    cases rune with
    | inr b => exact le_rfl
    | inl c =>
      rw [trim]
      split_ifs
      · rw [List.length_cons]
        omega
      · exact le_rfl

theorem isBlank_of_trim {text rest : List Rune} {c : Char} (h : trim text = .inl c :: rest) :
    isBlank c = false := by
  induction text with
  | nil => cases h
  | cons rune text ih =>
    cases rune with
    | inr b => cases h
    | inl d =>
      rw [trim] at h
      by_cases hd : isBlank d = true
      · rw [if_pos hd] at h
        exact ih h
      · rw [if_neg hd] at h
        cases h
        simpa using hd

theorem notDigit_of_trim {text : List Rune} (h : NotDigit (trim text)) : NotDigit text := by
  cases text with
  | nil => trivial
  | cons rune text =>
    cases rune with
    | inr b => trivial
    | inl c =>
      rw [trim] at h
      by_cases hc : isBlank c = true
      · simp only [isBlank, Bool.or_eq_true, decide_eq_true_eq] at hc
        rcases hc with ((rfl | rfl) | rfl) | rfl <;> rfl
      · rw [if_neg hc] at h
        exact h

theorem nextToken_blank {c : Char} (h : isBlank c = true) (rest : List Rune) :
    nextToken (.inl c) rest = some (.blank, rest) := by
  rw [nextToken, if_pos h]

theorem spells_nil : Spells [] [] := ⟨[], rfl, rfl⟩

/-- White space has no tokens. -/
theorem spells_trim {text : List Rune} {tokens : List Token} :
    Spells (trim text) tokens ↔ Spells text tokens := by
  induction text with
  | nil => rfl
  | cons rune text ih =>
    cases rune with
    | inr b => rfl
    | inl c =>
      rw [trim]
      by_cases hc : isBlank c = true
      · rw [if_pos hc, ih]
        have hlex := lex_token (nextToken_blank hc text)
        constructor
        · rintro ⟨all, hall, rfl⟩
          refine ⟨.blank :: all, ?_, rfl⟩
          rw [hlex, hall]
          rfl
        · rintro ⟨all, hall, rfl⟩
          rw [hlex, Option.map_eq_some_iff] at hall
          obtain ⟨inner, hinner, rfl⟩ := hall
          exact ⟨inner, hinner, rfl⟩
      · rw [if_neg hc]

theorem spells_cons {rune : Rune} {text rest : List Rune} {token : Token} {tokens : List Token}
    (hnext : nextToken rune text = some (token, rest)) (hsolid : solid token = true)
    (h : Spells rest tokens) : Spells (rune :: text) (token :: tokens) := by
  obtain ⟨all, hall, rfl⟩ := h
  refine ⟨token :: all, ?_, ?_⟩
  · rw [lex_token hnext, hall]
    rfl
  · rw [List.filter_cons, if_pos hsolid]

/-- What follows the white space of a text that has tokens. -/
theorem spells_cases {text : List Rune} {tokens : List Token} (h : Spells text tokens) :
    (trim text = [] ∧ tokens = []) ∨ ∃ rune rest token rest' tokens', trim text = rune :: rest ∧
      nextToken rune rest = some (token, rest') ∧ solid token = true ∧ Spells rest' tokens' ∧
        tokens = token :: tokens' := by
  have htrim := spells_trim.mpr h
  cases hrest : trim text with
  | nil =>
    rw [hrest] at htrim
    obtain ⟨all, hall, rfl⟩ := htrim
    cases hall
    exact .inl ⟨rfl, rfl⟩
  | cons rune rest =>
    right
    rw [hrest] at htrim
    obtain ⟨all, hall, rfl⟩ := htrim
    obtain ⟨token, _, rest', inner, hnext, hinner, rfl⟩ := Lexer.lex_eq_some hall
    obtain ⟨read, hread, heq⟩ := Option.map_eq_some_iff.mp hnext
    cases heq
    have hsolid : solid read.1 = true := by
      cases rune with
      | inr b => cases hread
      | inl c =>
        have hc := isBlank_of_trim hrest
        cases htoken : read.1 with
        | blank =>
          exfalso
          rw [nextToken, if_neg (by simp [hc])] at hread
          split_ifs at hread
          all_goals
            first
            | cases hread; cases htoken
            | obtain ⟨_, -, rfl⟩ := Option.map_eq_some_iff.mp hread
              cases htoken
        | _ => rfl
    refine ⟨rune, rest, read.1, read.2, inner.filter solid, rfl, hread, hsolid, ⟨inner, hinner, rfl⟩,
      ?_⟩
    rw [List.filter_cons, if_pos hsolid]

theorem spells_nil_iff {text : List Rune} : Spells text [] ↔ trim text = [] := by
  constructor
  · intro h
    rcases spells_cases h with ⟨htrim, -⟩ | ⟨_, _, _, _, _, -, -, -, -, h⟩
    · exact htrim
    · cases h
  · intro h
    rw [← spells_trim, h]
    exact spells_nil

theorem exists_of_spells_cons {text : List Rune} {token : Token} {tokens : List Token}
    (h : Spells text (token :: tokens)) : ∃ rune rest rest', trim text = rune :: rest ∧
      nextToken rune rest = some (token, rest') ∧ Spells rest' tokens := by
  rcases spells_cases h with ⟨-, h⟩ | ⟨rune, rest, _, rest', _, htrim, hnext, -, hrest, h⟩
  · cases h
  · cases h
    exact ⟨rune, rest, rest', htrim, hnext, hrest⟩

/-! ### Items and members -/

/-- An item that is not the first. -/
def itemTokens (doc : Doc) : List Token := .punct ',' :: doc.tokens

/-- A member, from its name on. -/
def memberTokens (member : List Item × Doc) : List Token :=
  .string member.1 :: .punct ':' :: member.2.tokens

theorem tokensOfDocs_cons (doc : Doc) (docs : List Doc) :
    tokensOfDocs (doc :: docs) = doc.tokens ++ docs.flatMap itemTokens := by
  induction docs generalizing doc with
  | nil => simp [tokensOfDocs]
  | cons next docs ih => rw [tokensOfDocs, ih next, List.flatMap_cons, itemTokens, List.cons_append]

theorem tokensOfMembers_cons (member : List Item × Doc) (members : List (List Item × Doc)) :
    tokensOfMembers (member :: members) =
      memberTokens member ++ members.flatMap fun next => .punct ',' :: memberTokens next := by
  induction members generalizing member with
  | nil => simp [tokensOfMembers, memberTokens]
  | cons next members ih =>
    rw [tokensOfMembers, ih next, List.flatMap_cons]
    simp [memberTokens]

/-! ### The decoder -/

/-- `tokenState`. -/
inductive State
  | topValue
  | arrayStart
  | arrayValue
  | arrayComma
  | objectStart
  | objectKey
  | objectColon
  | objectValue
  | objectComma
  deriving DecidableEq, Repr

/-- `tokenValueAllowed`. -/
def State.valueAllowed : State → Bool
  | .topValue => true
  | .arrayStart => true
  | .arrayValue => true
  | .objectValue => true
  | _ => false

/-- `tokenValueEnd`. -/
def State.valueEnd : State → State
  | .arrayStart => .arrayComma
  | .arrayValue => .arrayComma
  | .objectValue => .objectComma
  | state => state

/-- A `json.Decoder`: the text that it has not read, `tokenState` and `tokenStack`. -/
structure Decoder where
  rest : List Rune
  state : State
  stack : List State

/-- `json.NewDecoder`. -/
def newDecoder (text : List Rune) : Decoder := ⟨text, .topValue, []⟩

/-- A `json.Token`, under `UseNumber`. -/
inductive Given
  | delim (c : Char)
  | null
  | bool (value : Bool)
  | number (value : Number)
  | string (text : String)
  deriving DecidableEq

/-- Why there is no token: `io.EOF`, an error of the scanner, or an index out of range. -/
inductive TokenError
  | eof
  | invalid
  | panics
  deriving DecidableEq, Repr

/-- What `Token` returns for a scalar. -/
def given : Token → Option Given
  | .null => some .null
  | .bool value => some (.bool value)
  | .number value => some (.number value)
  | .string items => some (.string (textOf items))
  | _ => none

/-- A number that is a zero. -/
def zero (negative : Bool) : Number :=
  ⟨negative, ['0'], none, none, rfl, Number.fraction_none, Number.exponent_none⟩

/-- `Decode` on a scalar: a digit behind a leading zero starts a value of its own. -/
def readScalar : Rune → List Rune → Option (Token × List Rune)
  | .inl '0', .inl d :: rest =>
    if isDigit d then some (.number (zero false), .inl d :: rest)
    else nextToken (.inl '0') (.inl d :: rest)
  | .inl '-', .inl '0' :: .inl d :: rest =>
    if isDigit d then some (.number (zero true), .inl d :: rest)
    else nextToken (.inl '-') (.inl '0' :: .inl d :: rest)
  | rune, rest => nextToken rune rest

/-- A container is closed. -/
def closed (c : Char) (rest : List Rune) : List State → Except TokenError (Given × Decoder)
  | outer :: stack => .ok (.delim c, ⟨rest, outer.valueEnd, stack⟩)
  | [] => .error .panics

/-- A scalar is read. -/
def scalar (d : Decoder) (c : Char) (rest : List Rune) : Except TokenError (Given × Decoder) :=
  match readScalar (.inl c) rest with
  | none => .error .invalid
  | some (token, rest) =>
    match given token with
    | none => .error .invalid
    | some g => .ok (g, ⟨rest, d.state.valueEnd, d.stack⟩)

/-- A name is read. -/
def name (d : Decoder) (rest : List Rune) : Except TokenError (Given × Decoder) :=
  match readString rest with
  | none => .error .invalid
  | some (items, rest) => .ok (.string (textOf items), ⟨rest, .objectColon, d.stack⟩)

/-- One round of the loop of `Token`. -/
def round (again : Decoder → Except TokenError (Given × Decoder)) (d : Decoder) :
    Except TokenError (Given × Decoder) :=
  match trim d.rest with
  | [] => .error .eof
  | .inr _ :: _ => .error .invalid
  | .inl c :: rest =>
    if c = '[' then
      if d.state.valueAllowed then .ok (.delim c, ⟨rest, .arrayStart, d.state :: d.stack⟩)
      else .error .invalid
    else if c = ']' then
      if d.state = .arrayStart ∨ d.state = .arrayComma then closed c rest d.stack
      else .error .invalid
    else if c = '\x7b' then
      if d.state.valueAllowed then .ok (.delim c, ⟨rest, .objectStart, d.state :: d.stack⟩)
      else .error .invalid
    else if c = '\x7d' then
      if d.state = .objectStart ∨ d.state = .objectComma then closed c rest d.stack
      else .error .invalid
    else if c = ':' then
      if d.state = .objectColon then again ⟨rest, .objectValue, d.stack⟩
      else .error .invalid
    else if c = ',' then
      if d.state = .arrayComma then again ⟨rest, .arrayValue, d.stack⟩
      else if d.state = .objectComma then again ⟨rest, .objectKey, d.stack⟩
      else .error .invalid
    else if c = '"' ∧ (d.state = .objectStart ∨ d.state = .objectKey) then name d rest
    else if d.state.valueAllowed then scalar d c rest
    else .error .invalid

/-- `Token`. Behind a colon or a comma there is no third round. -/
def token : Decoder → Except TokenError (Given × Decoder) :=
  round (round fun _ => .error .invalid)

/-- `More`. -/
def more (d : Decoder) : Bool :=
  match trim d.rest with
  | [] => false
  | rune :: _ => rune ≠ .inl ']' && rune ≠ .inl '\x7d'

/-! ### Scalars -/

theorem not_punct_of_isDigit {c : Char} (h : isDigit c = true) :
    c ≠ '[' ∧ c ≠ ']' ∧ c ≠ '\x7b' ∧ c ≠ '\x7d' ∧ c ≠ ':' ∧ c ≠ ',' ∧ c ≠ '"' := by
  refine ⟨?_, ?_, ?_, ?_, ?_, ?_, ?_⟩
  all_goals
    rintro rfl
    exact absurd h (by decide)

/-- Digits behind a leading zero are no whole part. -/
theorem readNumber_zero {d : Char} (h : isDigit d = true) (negative : Bool) (rest : List Rune) :
    readNumber negative (.inl '0' :: .inl d :: rest) = none := by
  have hzero : isDigit '0' = true := rfl
  have hwhole : wholeNumber (takeDigits (.inl '0' :: .inl d :: rest)).1 = false := by
    rw [takeDigits, if_pos hzero, takeDigits, if_pos h]
    rfl
  unfold readNumber
  simp only [hwhole, Bool.false_eq_true, dif_neg, not_false_eq_true]

theorem nextToken_zero {d : Char} (h : isDigit d = true) (rest : List Rune) :
    nextToken (.inl '0') (.inl d :: rest) = none := by
  change (readNumber false (.inl '0' :: .inl d :: rest)).map _ = none
  rw [readNumber_zero h]
  rfl

theorem nextToken_minus {d : Char} (h : isDigit d = true) (rest : List Rune) :
    nextToken (.inl '-') (.inl '0' :: .inl d :: rest) = none := by
  change (readNumber true (.inl '0' :: .inl d :: rest)).map _ = none
  rw [readNumber_zero h]
  rfl

/-- A token of the scanner is a scalar of the decoder. -/
theorem readScalar_of_nextToken {rune : Rune} {rest : List Rune} {read : Token × List Rune}
    (h : nextToken rune rest = some read) : readScalar rune rest = some read := by
  unfold readScalar
  split
  · next d rest =>
    by_cases hd : isDigit d = true
    · rw [nextToken_zero hd] at h
      cases h
    · rw [if_neg hd]
      exact h
  · next d rest =>
    by_cases hd : isDigit d = true
    · rw [nextToken_minus hd] at h
      cases h
    · rw [if_neg hd]
      exact h
  · exact h

/-- A scalar of the decoder that no digit follows is a token of the scanner. -/
theorem nextToken_of_readScalar {rune : Rune} {rest rest' : List Rune} {token : Token}
    (h : readScalar rune rest = some (token, rest')) (hend : NotDigit rest') :
    nextToken rune rest = some (token, rest') := by
  unfold readScalar at h
  split at h
  · next d rest =>
    by_cases hd : isDigit d = true
    · rw [if_pos hd] at h
      cases h
      exact absurd (show isDigit d = false from hend) (by simp [hd])
    · rw [if_neg hd] at h
      exact h
  · next d rest =>
    by_cases hd : isDigit d = true
    · rw [if_pos hd] at h
      cases h
      exact absurd (show isDigit d = false from hend) (by simp [hd])
    · rw [if_neg hd] at h
      exact h
  · exact h

theorem readScalar_le {rune : Rune} {rest : List Rune} {read : Token × List Rune}
    (h : readScalar rune rest = some read) : read.2.length ≤ rest.length := by
  unfold readScalar at h
  split at h
  · next d rest =>
    by_cases hd : isDigit d = true
    · rw [if_pos hd] at h
      cases h
      exact le_rfl
    · rw [if_neg hd] at h
      exact nextToken_shorter h
  · next d rest =>
    by_cases hd : isDigit d = true
    · rw [if_pos hd] at h
      cases h
      simp
    · rw [if_neg hd] at h
      exact nextToken_shorter h
  · exact nextToken_shorter h

theorem solid_of_given {token : Token} {g : Given} (h : given token = some g) :
    solid token = true := by
  cases token with
  | blank => cases h
  | _ => rfl

/-- What the first rune of a token says about it. -/
theorem nextToken_cases {rune : Rune} {text rest : List Rune} {token : Token}
    (h : nextToken rune text = some (token, rest)) :
    ∃ c, rune = .inl c ∧
      ((token = .blank ∧ rest = text) ∨ (token = .punct c ∧ rest = text) ∨
        (∃ items, c = '"' ∧ token = .string items ∧ readString text = some (items, rest)) ∨
        ((given token).isSome = true ∧ c ∉ ['\x7b', '\x7d', '[', ']', ',', ':', '"'] ∧
          ∀ items, token ≠ .string items)) := by
  cases rune with
  | inr b => cases h
  | inl c =>
    refine ⟨c, rfl, ?_⟩
    rw [nextToken] at h
    by_cases hblank : isBlank c = true
    · rw [if_pos hblank] at h
      cases h
      exact .inl ⟨rfl, rfl⟩
    rw [if_neg hblank] at h
    by_cases hpunct : c ∈ ['\x7b', '\x7d', '[', ']', ',', ':']
    · rw [if_pos hpunct] at h
      cases h
      exact .inr (.inl ⟨rfl, rfl⟩)
    rw [if_neg hpunct] at h
    by_cases hquote : c = '"'
    · rw [if_pos hquote, Option.map_eq_some_iff] at h
      obtain ⟨read, hread, heq⟩ := h
      cases heq
      exact .inr (.inr (.inl ⟨_, hquote, rfl, hread⟩))
    rw [if_neg hquote] at h
    have hnot : c ∉ ['\x7b', '\x7d', '[', ']', ',', ':', '"'] := by
      simp only [List.mem_cons, List.not_mem_nil, or_false, not_or] at hpunct ⊢
      exact ⟨hpunct.1, hpunct.2.1, hpunct.2.2.1, hpunct.2.2.2.1, hpunct.2.2.2.2.1,
        hpunct.2.2.2.2.2, hquote⟩
    refine .inr (.inr (.inr ⟨?_, hnot, ?_⟩))
    all_goals
      split_ifs at h
      all_goals
        obtain ⟨_, -, heq⟩ := Option.map_eq_some_iff.mp h
        cases heq
        simp [given]

/-! ### Calls on tokens -/

/-- A separator takes the decoder into another state. -/
def State.enters : State → Char → Option State
  | .objectColon, ':' => some .objectValue
  | .arrayComma, ',' => some .arrayValue
  | .objectComma, ',' => some .objectKey
  | _, _ => none

/-- What `Token` does in a state with the token at the front. -/
inductive Direct : State → List State → Token → Given → State → List State → Prop
  | openArray {s stack} (h : s.valueAllowed = true) :
    Direct s stack (.punct '[') (.delim '[') .arrayStart (s :: stack)
  | closeArray {s outer stack} (h : s = .arrayStart ∨ s = .arrayComma) :
    Direct s (outer :: stack) (.punct ']') (.delim ']') outer.valueEnd stack
  | openObject {s stack} (h : s.valueAllowed = true) :
    Direct s stack (.punct '\x7b') (.delim '\x7b') .objectStart (s :: stack)
  | closeObject {s outer stack} (h : s = .objectStart ∨ s = .objectComma) :
    Direct s (outer :: stack) (.punct '\x7d') (.delim '\x7d') outer.valueEnd stack
  | name {s stack items} (h : s = .objectStart ∨ s = .objectKey) :
    Direct s stack (.string items) (.string (textOf items)) .objectColon stack
  | scalar {s stack token g} (h : s.valueAllowed = true) (hgiven : given token = some g) :
    Direct s stack token g s.valueEnd stack

/-- The tokens that one call of `Token` takes: one, or a separator and one. -/
inductive Takes : State → List State → List Token → Given → State → List State → Prop
  | direct {s stack t g s' stack'} (h : Direct s stack t g s' stack') :
    Takes s stack [t] g s' stack'
  | behind {s stack c s₁ t g s' stack'} (henters : s.enters c = some s₁)
      (h : Direct s₁ stack t g s' stack') : Takes s stack [.punct c, t] g s' stack'

/-- A text begins with tokens and goes on with the rest; a number needs its end. -/
def Begins (text : List Rune) (tokens : List Token) (ended : Prop) (rest : List Rune) : Prop :=
  rest.length < text.length ∧
    ∀ more, Spells rest more → (NotDigit rest ∨ ended) → Spells text (tokens ++ more)

theorem begins_punct {text rest : List Rune} {c : Char} (htrim : trim text = .inl c :: rest)
    (hc : c ∈ ['\x7b', '\x7d', '[', ']', ',', ':']) (ended : Prop) :
    Begins text [.punct c] ended rest := by
  have hle := trim_le text
  rw [htrim, List.length_cons] at hle
  refine ⟨by omega, fun more hmore _ => ?_⟩
  rw [← spells_trim, htrim]
  refine spells_cons ?_ rfl hmore
  have hblank : isBlank c = false := isBlank_of_trim htrim
  rw [nextToken, hblank, if_neg (by decide), if_pos hc]

/-- One round of `Token` takes a token, or a separator and goes on. -/
theorem round_eq_ok {again : Decoder → Except TokenError (Given × Decoder)} {d d' : Decoder}
    {g : Given} (h : round again d = .ok (g, d')) :
    (∃ t, Direct d.state d.stack t g d'.state d'.stack ∧
      Begins d.rest [t] (∃ c, g = .delim c) d'.rest) ∨
    ∃ c s rest, d.state.enters c = some s ∧ again ⟨rest, s, d.stack⟩ = .ok (g, d') ∧
      Begins d.rest [.punct c] True rest := by
  unfold round at h
  split at h
  · cases h
  · cases h
  next c rest htrim =>
  have hle := trim_le d.rest
  rw [htrim, List.length_cons] at hle
  by_cases hopen : c = '['
  · subst hopen
    rw [if_pos rfl] at h
    split_ifs at h with hallowed
    cases h
    exact .inl ⟨_, .openArray hallowed, begins_punct htrim (by decide) _⟩
  rw [if_neg hopen] at h
  by_cases hclose : c = ']'
  · subst hclose
    rw [if_pos rfl] at h
    split_ifs at h with hstate
    cases hstack : d.stack with
    | nil =>
      rw [hstack] at h
      cases h
    | cons outer stack =>
      rw [hstack] at h
      cases h
      exact .inl ⟨_, .closeArray hstate, begins_punct htrim (by decide) _⟩
  rw [if_neg hclose] at h
  by_cases hbrace : c = '\x7b'
  · subst hbrace
    rw [if_pos rfl] at h
    split_ifs at h with hallowed
    cases h
    exact .inl ⟨_, .openObject hallowed, begins_punct htrim (by decide) _⟩
  rw [if_neg hbrace] at h
  by_cases hend : c = '\x7d'
  · subst hend
    rw [if_pos rfl] at h
    split_ifs at h with hstate
    cases hstack : d.stack with
    | nil =>
      rw [hstack] at h
      cases h
    | cons outer stack =>
      rw [hstack] at h
      cases h
      exact .inl ⟨_, .closeObject hstate, begins_punct htrim (by decide) _⟩
  rw [if_neg hend] at h
  by_cases hcolon : c = ':'
  · subst hcolon
    rw [if_pos rfl] at h
    split_ifs at h with hstate
    exact .inr ⟨':', .objectValue, rest, by rw [hstate]; rfl, h, begins_punct htrim (by decide) _⟩
  rw [if_neg hcolon] at h
  by_cases hcomma : c = ','
  · subst hcomma
    rw [if_pos rfl] at h
    split_ifs at h with harray hobject
    · exact .inr ⟨',', .arrayValue, rest, by rw [harray]; rfl, h, begins_punct htrim (by decide) _⟩
    · exact .inr ⟨',', .objectKey, rest, by rw [hobject]; rfl, h, begins_punct htrim (by decide) _⟩
  rw [if_neg hcomma] at h
  by_cases hname : c = '"' ∧ (d.state = .objectStart ∨ d.state = .objectKey)
  · rw [if_pos hname, name] at h
    split at h
    · cases h
    · next items rest' hread =>
      cases h
      have hshorter := readString_shorter hread
      refine .inl ⟨.string items, .name hname.2, ?_, fun more hmore _ => ?_⟩
      · dsimp only at hshorter ⊢
        omega
      · rw [← spells_trim, htrim, hname.1]
        refine spells_cons ?_ rfl hmore
        change (readString rest).map _ = _
        rw [hread]
        rfl
  rw [if_neg hname] at h
  split_ifs at h with hallowed
  rw [scalar] at h
  split at h
  · cases h
  · next token rest' hread =>
    have hshorter := readScalar_le hread
    split at h
    · cases h
    · next g' hgiven =>
      cases h
      refine .inl ⟨token, .scalar hallowed hgiven, ?_, fun more hmore hended => ?_⟩
      · dsimp only at hshorter ⊢
        omega
      · have hnot : NotDigit rest' := by
          rcases hended with hnot | ⟨c', rfl⟩
          · exact hnot
          · cases token <;> cases hgiven
        rw [← spells_trim, htrim]
        exact spells_cons (nextToken_of_readScalar hread hnot) (solid_of_given hgiven) hmore

/-- **A token that is returned was taken from the front of the text.** -/
theorem token_eq_ok {d d' : Decoder} {g : Given} (h : token d = .ok (g, d')) :
    ∃ tokens, Takes d.state d.stack tokens g d'.state d'.stack ∧
      Begins d.rest tokens (∃ c, g = .delim c) d'.rest := by
  rcases round_eq_ok h with ⟨t, hdirect, hbegins⟩ | ⟨c, s, rest, henters, hagain, hbegins⟩
  · exact ⟨[t], .direct hdirect, hbegins⟩
  · rcases round_eq_ok hagain with ⟨t, hdirect, hlt, hspells⟩ | ⟨_, _, _, _, hagain, _⟩
    · refine ⟨[.punct c, t], .behind henters hdirect, ?_, fun more hmore hended => ?_⟩
      · have hlt' := hbegins.1
        dsimp only at hlt
        omega
      · exact hbegins.2 _ (hspells more hmore hended) (.inr trivial)
    · cases hagain

/-- Where no value is allowed, no digit is passed over. -/
theorem notDigit_of_token {d : Decoder} {result : Given × Decoder} (h : token d = .ok result)
    (hstate : d.state.valueAllowed = false) : NotDigit d.rest := by
  refine notDigit_of_trim ?_
  unfold token round at h
  split at h
  · cases h
  · cases h
  next c rest htrim =>
  rw [htrim]
  change isDigit c = false
  by_contra hdigit
  obtain ⟨h1, h2, h3, h4, h5, h6, h7⟩ := not_punct_of_isDigit (by simpa using hdigit)
  rw [if_neg h1, if_neg h2, if_neg h3, if_neg h4, if_neg h5, if_neg h6,
    if_neg (fun hname => h7 hname.1), if_neg (by simp [hstate])] at h
  cases h

section Calls

variable (again : Decoder → Except TokenError (Given × Decoder)) {d : Decoder}

theorem round_of_direct {t : Token} {g : Given} {s : State} {stack : List State}
    {more : List Token} (h : Direct d.state d.stack t g s stack)
    (htext : Spells d.rest (t :: more)) :
    ∃ rest, round again d = .ok (g, ⟨rest, s, stack⟩) ∧ Spells rest more := by
  obtain ⟨rune, rest, rest', htrim, hnext, hrest⟩ := exists_of_spells_cons htext
  obtain ⟨c, rfl, hcases⟩ := nextToken_cases hnext
  refine ⟨rest', ?_, hrest⟩
  unfold round
  rw [htrim]
  dsimp only
  generalize hstack : d.stack = outers at h
  cases h with
  | openArray hallowed =>
    rcases hcases with ⟨h, -⟩ | ⟨h, rfl⟩ | ⟨_, -, h, -⟩ | ⟨h, -⟩
    · cases h
    · cases h
      rw [if_pos rfl, if_pos hallowed]
    · cases h
    · cases h
  | openObject hallowed =>
    rcases hcases with ⟨h, -⟩ | ⟨h, rfl⟩ | ⟨_, -, h, -⟩ | ⟨h, -⟩
    · cases h
    · cases h
      rw [if_neg (by decide), if_neg (by decide), if_pos rfl, if_pos hallowed]
    · cases h
    · cases h
  | closeArray hstate =>
    rcases hcases with ⟨h, -⟩ | ⟨h, rfl⟩ | ⟨_, -, h, -⟩ | ⟨h, -⟩
    · cases h
    · cases h
      rw [if_neg (by decide), if_pos rfl, if_pos hstate]
      rfl
    · cases h
    · cases h
  | closeObject hstate =>
    rcases hcases with ⟨h, -⟩ | ⟨h, rfl⟩ | ⟨_, -, h, -⟩ | ⟨h, -⟩
    · cases h
    · cases h
      rw [if_neg (by decide), if_neg (by decide), if_neg (by decide), if_pos rfl, if_pos hstate]
      rfl
    · cases h
    · cases h
  | name hstate =>
    rcases hcases with ⟨h, -⟩ | ⟨h, rfl⟩ | ⟨_, rfl, h, hread⟩ | ⟨-, -, h⟩
    · cases h
    · cases h
    · cases h
      rw [if_neg (by decide), if_neg (by decide), if_neg (by decide), if_neg (by decide),
        if_neg (by decide), if_neg (by decide), if_pos ⟨rfl, hstate⟩, name, hread, ← hstack]
    · exact absurd rfl (h _)
  | scalar hallowed hgiven =>
    have hname : ¬ (c = '"' ∧ (d.state = .objectStart ∨ d.state = .objectKey)) := by
      rintro ⟨-, hstate | hstate⟩
      · rw [hstate] at hallowed
        cases hallowed
      · rw [hstate] at hallowed
        cases hallowed
    have hnot : c ≠ '[' ∧ c ≠ ']' ∧ c ≠ '\x7b' ∧ c ≠ '\x7d' ∧ c ≠ ':' ∧ c ≠ ',' := by
      rcases hcases with ⟨h, -⟩ | ⟨h, -⟩ | ⟨_, rfl, -, -⟩ | ⟨-, hmem, -⟩
      · rw [h] at hgiven
        cases hgiven
      · rw [h] at hgiven
        cases hgiven
      · decide
      · simp only [List.mem_cons, List.not_mem_nil, or_false, not_or] at hmem
        exact ⟨hmem.2.2.1, hmem.2.2.2.1, hmem.1, hmem.2.1, hmem.2.2.2.2.2.1, hmem.2.2.2.2.1⟩
    rw [if_neg hnot.1, if_neg hnot.2.1, if_neg hnot.2.2.1, if_neg hnot.2.2.2.1,
      if_neg hnot.2.2.2.2.1, if_neg hnot.2.2.2.2.2, if_neg hname, if_pos hallowed, scalar,
      readScalar_of_nextToken hnext]
    simp only [hgiven, hstack]

theorem round_of_enters {c : Char} {s : State} {more : List Token}
    (h : d.state.enters c = some s) (htext : Spells d.rest (.punct c :: more)) :
    ∃ rest, round again d = again ⟨rest, s, d.stack⟩ ∧ Spells rest more := by
  obtain ⟨rune, rest, rest', htrim, hnext, hrest⟩ := exists_of_spells_cons htext
  obtain ⟨c', rfl, hcases⟩ := nextToken_cases hnext
  refine ⟨rest', ?_, hrest⟩
  rcases hcases with ⟨hc, -⟩ | ⟨hc, rfl⟩ | ⟨_, -, hc, -⟩ | ⟨hc, -⟩
  · cases hc
  · cases hc
    unfold round
    rw [htrim]
    dsimp only
    unfold State.enters at h
    split at h
    · next hstate =>
      cases h
      rw [if_neg (by decide), if_neg (by decide), if_neg (by decide), if_neg (by decide),
        if_pos rfl, if_pos hstate]
    · next hstate =>
      cases h
      rw [if_neg (by decide), if_neg (by decide), if_neg (by decide), if_neg (by decide),
        if_neg (by decide), if_pos rfl, if_pos hstate]
    · next hstate =>
      cases h
      rw [if_neg (by decide), if_neg (by decide), if_neg (by decide), if_neg (by decide),
        if_neg (by decide), if_pos rfl, if_neg (by simp [hstate]), if_pos hstate]
    · cases h
  · cases hc
  · cases hc

/-- **The tokens at the front of the text are taken.** -/
theorem token_of_takes {tokens more : List Token} {g : Given} {s : State} {stack : List State}
    (h : Takes d.state d.stack tokens g s stack) (htext : Spells d.rest (tokens ++ more)) :
    ∃ rest, token d = .ok (g, ⟨rest, s, stack⟩) ∧ Spells rest more ∧
      rest.length < d.rest.length := by
  have hfound : ∃ rest, token d = .ok (g, ⟨rest, s, stack⟩) ∧ Spells rest more := by
    generalize hs : d.state = state at h
    generalize hstack : d.stack = outers at h
    cases h with
    | direct hdirect =>
      rw [← hs, ← hstack] at hdirect
      exact round_of_direct _ hdirect htext
    | behind henters hdirect =>
      rw [← hs] at henters
      obtain ⟨rest, hround, hrest⟩ := round_of_enters (round fun _ => .error .invalid) henters
        htext
      rw [← hstack] at hdirect
      obtain ⟨rest', hdone, hrest'⟩ := round_of_direct (d := ⟨rest, _, d.stack⟩)
        (fun _ => .error .invalid) hdirect hrest
      exact ⟨rest', hround.trans hdone, hrest'⟩
  obtain ⟨rest, htoken, hrest⟩ := hfound
  obtain ⟨_, -, hlt, -⟩ := token_eq_ok htoken
  exact ⟨rest, htoken, hrest, hlt⟩

end Calls

/-- `More` says whether the container goes on. -/
theorem more_of_spells {d : Decoder} {t : Token} {tokens : List Token}
    (h : Spells d.rest (t :: tokens)) (hclose : t ≠ .punct ']' ∧ t ≠ .punct '\x7d') :
    more d = true := by
  obtain ⟨rune, rest, rest', htrim, hnext, -⟩ := exists_of_spells_cons h
  unfold more
  rw [htrim]
  simp only [Bool.and_eq_true, decide_eq_true_eq]
  constructor
  · rintro rfl
    exact hclose.1 (congrArg Prod.fst (Option.some.inj hnext)).symm
  · rintro rfl
    exact hclose.2 (congrArg Prod.fst (Option.some.inj hnext)).symm

theorem not_more_of_spells {d : Decoder} {c : Char} {tokens : List Token}
    (h : Spells d.rest (.punct c :: tokens)) (hc : c = ']' ∨ c = '\x7d') : more d = false := by
  obtain ⟨rune, rest, rest', htrim, hnext, -⟩ := exists_of_spells_cons h
  obtain ⟨c', rfl, hcases⟩ := nextToken_cases hnext
  unfold more
  rw [htrim]
  rcases hcases with ⟨heq, -⟩ | ⟨heq, -⟩ | ⟨_, -, heq, -⟩ | ⟨heq, -⟩
  · cases heq
  · cases heq
    rcases hc with rfl | rfl <;> rfl
  · cases heq
  · cases heq

/-- Where the container ends, no digit stands. -/
theorem notDigit_of_not_more {d : Decoder} (h : more d = false) : NotDigit d.rest := by
  refine notDigit_of_trim ?_
  unfold more at h
  split at h
  · next htrim =>
    rw [htrim]
    trivial
  · next rune rest htrim =>
    rw [htrim]
    cases rune with
    | inr b => trivial
    | inl c =>
      have hc : c = ']' ∨ c = '\x7d' := by
        by_contra hnot
        rw [not_or] at hnot
        simp [hnot.1, hnot.2] at h
      rcases hc with rfl | rfl <;> rfl

theorem token_of_spells_nil {d : Decoder} (h : Spells d.rest []) : token d = .error .eof := by
  unfold token round
  rw [spells_nil_iff.mp h]

/-- Outside of all containers the end is reported at the end only. -/
theorem spells_nil_of_token {d : Decoder} (h : token d = .error .eof)
    (hstate : d.state = .topValue) : Spells d.rest [] := by
  rw [spells_nil_iff]
  unfold token round at h
  split at h
  · next htrim => exact htrim
  · cases h
  next c rest _ =>
  exfalso
  have hallowed : State.topValue.valueAllowed = true := rfl
  rw [hstate] at h
  by_cases hopen : c = '['
  · rw [if_pos hopen, if_pos hallowed] at h
    cases h
  by_cases hclose : c = ']'
  · rw [if_neg hopen, if_pos hclose, if_neg (by decide)] at h
    cases h
  by_cases hbrace : c = '\x7b'
  · rw [if_neg hopen, if_neg hclose, if_pos hbrace, if_pos hallowed] at h
    cases h
  by_cases hend : c = '\x7d'
  · rw [if_neg hopen, if_neg hclose, if_neg hbrace, if_pos hend, if_neg (by decide)] at h
    cases h
  rw [if_neg hopen, if_neg hclose, if_neg hbrace, if_neg hend] at h
  by_cases hcolon : c = ':'
  · rw [if_pos hcolon, if_neg (by decide)] at h
    cases h
  by_cases hcomma : c = ','
  · rw [if_neg hcolon, if_pos hcomma, if_neg (by decide), if_neg (by decide)] at h
    cases h
  have hname : ¬ (c = '"' ∧ (State.topValue = .objectStart ∨ State.topValue = .objectKey)) :=
    fun hname => absurd hname.2 (by decide)
  rw [if_neg hcolon, if_neg hcomma, if_neg hname, if_pos hallowed, scalar] at h
  split at h
  · cases h
  · split at h
    · cases h
    · cases h

/-! ### Values, names and ends

What a call takes in the states in which the value of a document, an item, a name or the value of a
member comes next. -/

/-- A value comes next, behind a separator or not. -/
def State.expectsValue : State → Bool
  | .topValue => true
  | .arrayStart => true
  | .arrayComma => true
  | .objectColon => true
  | _ => false

/-- A name or the end of the object comes next. -/
def State.expectsName : State → Bool
  | .objectStart => true
  | .objectComma => true
  | _ => false

/-- The separator that stands before what comes next. -/
def State.lead : State → List Token
  | .arrayComma => [.punct ',']
  | .objectComma => [.punct ',']
  | .objectColon => [.punct ':']
  | _ => []

/-- The state behind the separator. -/
def State.entered : State → State
  | .arrayComma => .arrayValue
  | .objectComma => .objectKey
  | .objectColon => .objectValue
  | state => state

/-- The state behind the value. -/
def State.passed (s : State) : State := s.entered.valueEnd

section States

variable {s s' : State} {stack stack' : List State} {tokens : List Token} {g : Given}

theorem valueAllowed_entered (h : s.expectsValue = true) : s.entered.valueAllowed = true := by
  cases s <;> first | rfl | cases h

theorem not_valueAllowed_entered (h : s.expectsName = true) : s.entered.valueAllowed = false := by
  cases s <;> first | rfl | cases h

theorem not_delim_of_given {t : Token} (h : given t = some g) (c : Char) : g ≠ .delim c := by
  rintro rfl
  cases t <;> cases h

/-- A separator and a token, where a separator is due. -/
theorem takes_lead {t : Token} (h : Direct s.entered stack t g s' stack') :
    Takes s stack (s.lead ++ [t]) g s' stack' := by
  cases s with
  | arrayComma => exact .behind rfl h
  | objectComma => exact .behind rfl h
  | objectColon => exact .behind rfl h
  | _ => exact .direct h

/-- What is no end stands behind its separator. -/
theorem takes_cases (h : Takes s stack tokens g s' stack') :
    (∃ c outer, (c = ']' ∨ c = '\x7d') ∧ g = .delim c ∧ tokens = [.punct c] ∧
      stack = outer :: stack' ∧ s' = outer.valueEnd) ∨
    ((∀ c, c = ']' ∨ c = '\x7d' → g ≠ .delim c) ∧
      ∃ t, tokens = s.lead ++ [t] ∧ Direct s.entered stack t g s' stack') := by
  cases h with
  | direct h =>
    cases h with
    | closeArray _ => exact .inl ⟨_, _, .inl rfl, rfl, rfl, rfl, rfl⟩
    | closeObject _ => exact .inl ⟨_, _, .inr rfl, rfl, rfl, rfl, rfl⟩
    | openArray hs =>
      refine .inr ⟨by rintro c (rfl | rfl) <;> simp, ?_⟩
      cases s <;> first | exact ⟨_, rfl, .openArray hs⟩ | cases hs
    | openObject hs =>
      refine .inr ⟨by rintro c (rfl | rfl) <;> simp, ?_⟩
      cases s <;> first | exact ⟨_, rfl, .openObject hs⟩ | cases hs
    | name hs =>
      refine .inr ⟨by rintro c (rfl | rfl) <;> simp, ?_⟩
      rcases hs with rfl | rfl
      · exact ⟨_, rfl, .name (.inl rfl)⟩
      · exact ⟨_, rfl, .name (.inr rfl)⟩
    | scalar hs hg =>
      refine .inr ⟨fun c _ => not_delim_of_given hg c, ?_⟩
      cases s <;> first | exact ⟨_, rfl, .scalar hs hg⟩ | cases hs
  | behind henters h =>
    rename_i c s₁ t
    have hentered : s.entered = s₁ ∧ [Token.punct c, t] = s.lead ++ [t] := by
      unfold State.enters at henters
      split at henters
      all_goals
        cases henters
        try exact ⟨rfl, rfl⟩
    refine .inr ⟨?_, t, hentered.2, hentered.1 ▸ h⟩
    rintro c' hc' rfl
    cases h with
    | openArray _ => exact absurd hc' (by decide)
    | openObject _ => exact absurd hc' (by decide)
    | closeArray hs =>
      rw [← hentered.1] at hs
      cases s <;> first | (rcases hs with hs | hs <;> cases hs; done) | cases henters
    | closeObject hs =>
      rw [← hentered.1] at hs
      cases s <;> first | (rcases hs with hs | hs <;> cases hs; done) | cases henters
    | scalar _ hg => exact not_delim_of_given hg _ rfl

theorem takes_open {c : Char} (hc : c = '[' ∨ c = '\x7b')
    (h : Takes s stack tokens (.delim c) s' stack') :
    tokens = s.lead ++ [.punct c] ∧ s' = (if c = '[' then .arrayStart else .objectStart) ∧
      stack' = s.entered :: stack := by
  rcases takes_cases h with ⟨c', _, hclose, heq, -⟩ | ⟨-, t, htokens, hdirect⟩
  · cases heq
    rcases hc with rfl | rfl <;> exact absurd hclose (by decide)
  · cases hdirect with
    | openArray _ => exact ⟨htokens, rfl, rfl⟩
    | openObject _ => exact ⟨htokens, rfl, rfl⟩
    | closeArray _ => exact absurd hc (by decide)
    | closeObject _ => exact absurd hc (by decide)
    | scalar _ hg => exact absurd rfl (not_delim_of_given hg _)

theorem takes_close {c : Char} (hc : c = ']' ∨ c = '\x7d')
    (h : Takes s stack tokens (.delim c) s' stack') :
    tokens = [.punct c] ∧ ∃ outer, stack = outer :: stack' ∧ s' = outer.valueEnd := by
  rcases takes_cases h with ⟨c', outer, -, heq, htokens, hstack, hs'⟩ | ⟨hnot, -⟩
  · cases heq
    exact ⟨htokens, outer, hstack, hs'⟩
  · exact absurd rfl (hnot c hc)

theorem takes_scalar (hs : s.expectsValue = true) (hg : ∀ c, g ≠ .delim c)
    (h : Takes s stack tokens g s' stack') :
    ∃ t, given t = some g ∧ tokens = s.lead ++ [t] ∧ s' = s.passed ∧ stack' = stack := by
  rcases takes_cases h with ⟨c, _, -, heq, -⟩ | ⟨-, t, htokens, hdirect⟩
  · exact absurd heq (hg c)
  · cases hdirect with
    | openArray _ => exact absurd rfl (hg _)
    | openObject _ => exact absurd rfl (hg _)
    | closeArray _ => exact absurd rfl (hg _)
    | closeObject _ => exact absurd rfl (hg _)
    | name hname =>
      have hallowed := valueAllowed_entered hs
      rcases hname with hname | hname <;> rw [hname] at hallowed <;> cases hallowed
    | scalar _ hgiven => exact ⟨t, hgiven, htokens, rfl, rfl⟩

theorem takes_name (hs : s.expectsName = true) {text : String}
    (h : Takes s stack tokens (.string text) s' stack') :
    ∃ items, text = textOf items ∧ tokens = s.lead ++ [.string items] ∧ s' = .objectColon ∧
      stack' = stack := by
  rcases takes_cases h with ⟨c, _, -, heq, -⟩ | ⟨-, t, htokens, hdirect⟩
  · cases heq
  · cases hdirect with
    | name _ => exact ⟨_, rfl, htokens, rfl, rfl⟩
    | scalar hallowed _ =>
      rw [not_valueAllowed_entered hs] at hallowed
      cases hallowed

end States

end Modary.Lib.JsonDecoder
