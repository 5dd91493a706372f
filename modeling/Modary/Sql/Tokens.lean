import Modary.Lib.GoText
import Modary.Lib.Lexing

/-! # The tokenizer of the SQL gates

`sqlpolicy.Tokenize`. One round of its loop reads one lexeme; the tokens are those of the lexemes
that have one (blanks and comments have none). The source works on bytes and compares only with
ASCII bytes, so a text of well-formed UTF-8 is read character by character here. -/

namespace Modary.Sql.Tokens

open Modary.Lib.GoText Modary.Lib.Lexing

/-- `sqlpolicy.Token`. An empty field stands for the absent one, as in the source. -/
structure Token where
  word : List Char := []
  identifier : List Char := []
  string : List Char := []
  symbol : List Char := []
  separator : Bool := false
  other : Bool := false
  deriving DecidableEq, Repr

/-- What one round of the loop reads. -/
inductive Lexeme
  | space (c : Char)
  | separator
  | lineComment (body : List Char)
  | blockComment (body : List Char)
  | string (content : List Char)
  | quoted (content : List Char)
  | backtick (content : List Char)
  | bracket (content : List Char)
  | word (text : List Char)
  | symbol (c : Char)
  deriving DecidableEq, Repr

def backquote : Char := Char.ofNat 0x60

/-- The text a lexeme was read from. -/
def Lexeme.text : Lexeme → List Char
  | .space c => [c]
  | .separator => [';']
  | .lineComment body => '-' :: '-' :: body
  | .blockComment body => '/' :: '*' :: (body ++ ['*', '/'])
  | .string content => '\'' :: (content ++ ['\''])
  | .quoted content => '"' :: (content ++ ['"'])
  | .backtick content => backquote :: (content ++ [backquote])
  | .bracket content => '[' :: (content ++ [']'])
  | .word text => text
  | .symbol c => [c]

/-! ### The loop -/

def nul : Char := Char.ofNat 0

/-- `sqlpolicy.isSpace`. -/
def isSqlSpace (c : Char) : Bool :=
  c == ' ' || c == '\t' || c == '\n' || c == '\r' || c == Char.ofNat 0x0c || c == Char.ofNat 0x0b

def isWordStart (c : Char) : Bool := c == '_' || isUpper c || isLower c

def isWordContinue (c : Char) : Bool := isWordStart c || isDigit c || c == '$'

/-- The end of a line comment. -/
def isLineEnd (c : Char) : Bool := c == '\n' || c == '\r'

/-- Puts characters read before in front of what is skipped. -/
def prepend (cs : List Char) (p : List Char × List Char) : List Char × List Char := (cs ++ p.1, p.2)

/-- The loop over a line comment: its body up to the end of the line, and what follows. -/
def skipLineComment : List Char → Option (List Char × List Char)
  | [] => some ([], [])
  | c :: rest =>
    if isLineEnd c then some ([], c :: rest)
    else if c = nul then none
    else (skipLineComment rest).map (prepend [c])

/-- `skipBlockComment`: the body up to the first `*/`, and what follows. -/
def skipBlockComment : List Char → Option (List Char × List Char)
  | [] => none
  | c :: rest =>
    if c = nul then none
    else if c = '*' ∧ rest.head? = some '/' then some ([], rest.tail)
    else (skipBlockComment rest).map (prepend [c])

/-- `skipDelimited`: the content up to the closing delimiter, which is doubled inside. -/
def skipDelimited (delimiter : Char) : List Char → Option (List Char × List Char)
  | [] => none
  | [c] => if c = delimiter then some ([], []) else none
  | c :: c' :: rest =>
    if c = nul then none
    else if c ≠ delimiter then (skipDelimited delimiter (c' :: rest)).map (prepend [c])
    else if c' = delimiter then (skipDelimited delimiter rest).map (prepend [c, c'])
    else some ([], c' :: rest)

/-- `skipBracketIdentifier`. -/
def skipBracketIdentifier : List Char → Option (List Char × List Char)
  | [] => none
  | c :: rest =>
    if c = nul then none
    else if c = ']' then some ([], rest)
    else (skipBracketIdentifier rest).map (prepend [c])

/-- One round of the loop of `Tokenize`, at the character `c`. -/
def next (c : Char) (rest : List Char) : Option (Lexeme × List Char) :=
  if c = nul then none
  else if isSqlSpace c then some (.space c, rest)
  else if c = ';' then some (.separator, rest)
  else if c = '-' ∧ rest.head? = some '-' then
    (skipLineComment rest.tail).map fun p => (.lineComment p.1, p.2)
  else if c = '/' ∧ rest.head? = some '*' then
    (skipBlockComment rest.tail).map fun p => (.blockComment p.1, p.2)
  else if c = '\'' then (skipDelimited '\'' rest).map fun p => (.string p.1, p.2)
  else if c = '"' then (skipDelimited '"' rest).map fun p => (.quoted p.1, p.2)
  else if c = backquote then (skipDelimited backquote rest).map fun p => (.backtick p.1, p.2)
  else if c = '[' then (skipBracketIdentifier rest).map fun p => (.bracket p.1, p.2)
  else if isWordStart c then
    some (.word (c :: rest.takeWhile isWordContinue), rest.dropWhile isWordContinue)
  else some (.symbol c, rest)

/-! ### What a round reads -/

theorem prepend_eq {cs a r : List Char} {x : Option (List Char × List Char)}
    (h : x.map (prepend cs) = some (a, r)) : ∃ a', x = some (a', r) ∧ a = cs ++ a' := by
  obtain ⟨⟨a', r'⟩, hx, he⟩ := Option.map_eq_some_iff.mp h
  simp only [prepend, Prod.mk.injEq] at he
  exact ⟨a', by rw [hx, he.2], he.1.symm⟩

theorem skipBlockComment_eq : ∀ {s body r : List Char}, skipBlockComment s = some (body, r) →
    s = body ++ '*' :: '/' :: r
  | [], _, _, h => by simp [skipBlockComment] at h
  | c :: rest, body, r, h => by
    unfold skipBlockComment at h
    split_ifs at h with h1 h2
    · obtain ⟨rfl, h3⟩ := h2
      cases rest with
      | nil => simp at h3
      | cons d rest =>
        simp only [List.head?_cons, Option.some.injEq] at h3
        simp only [List.tail_cons, Option.some.injEq, Prod.mk.injEq] at h
        rw [← h.1, ← h.2, h3, List.nil_append]
    · obtain ⟨b, hb, rfl⟩ := prepend_eq h
      rw [skipBlockComment_eq hb]
      simp

theorem skipDelimited_eq {d : Char} : ∀ {s content r : List Char},
    skipDelimited d s = some (content, r) → s = content ++ d :: r ∧ r.head? ≠ some d
  | [], _, _, h => by simp [skipDelimited] at h
  | [c], content, r, h => by
    unfold skipDelimited at h
    split_ifs at h with h1
    simp only [Option.some.injEq, Prod.mk.injEq] at h
    rw [← h.1, ← h.2, h1]
    simp
  | c :: c' :: rest, content, r, h => by
    unfold skipDelimited at h
    split_ifs at h with h1 h2 h3
    · obtain ⟨a, ha, rfl⟩ := prepend_eq h
      obtain ⟨h4, h5⟩ := skipDelimited_eq ha
      exact ⟨by rw [h4]; simp, h5⟩
    · obtain ⟨a, ha, rfl⟩ := prepend_eq h
      obtain ⟨h4, h5⟩ := skipDelimited_eq ha
      exact ⟨by rw [h4]; simp, h5⟩
    · simp only [Option.some.injEq, Prod.mk.injEq] at h
      rw [← h.1, ← h.2, not_not.mp h2]
      exact ⟨rfl, by simpa using h3⟩

theorem skipBracketIdentifier_eq : ∀ {s content r : List Char},
    skipBracketIdentifier s = some (content, r) → s = content ++ ']' :: r
  | [], _, _, h => by simp [skipBracketIdentifier] at h
  | c :: rest, content, r, h => by
    unfold skipBracketIdentifier at h
    split_ifs at h with h1 h2
    · simp only [Option.some.injEq, Prod.mk.injEq] at h
      rw [← h.1, ← h.2, h2, List.nil_append]
    · obtain ⟨a, ha, rfl⟩ := prepend_eq h
      rw [skipBracketIdentifier_eq ha]
      simp

theorem skipLineComment_eq : ∀ {s body r : List Char}, skipLineComment s = some (body, r) →
    s = body ++ r
  | [], body, r, h => by
    simp only [skipLineComment, Option.some.injEq, Prod.mk.injEq] at h
    rw [← h.1, ← h.2, List.nil_append]
  | c :: rest, body, r, h => by
    unfold skipLineComment at h
    split_ifs at h with h1 h2
    · simp only [Option.some.injEq, Prod.mk.injEq] at h
      rw [← h.1, ← h.2, List.nil_append]
    · obtain ⟨a, ha, rfl⟩ := prepend_eq h
      rw [skipLineComment_eq ha]
      simp

/-- The default branch of the loop. -/
def IsSymbol (c : Char) (r : List Char) : Prop :=
  isSqlSpace c = false ∧ c ≠ ';' ∧ ¬ (c = '-' ∧ r.head? = some '-') ∧
    ¬ (c = '/' ∧ r.head? = some '*') ∧ c ≠ '\'' ∧ c ≠ '"' ∧ c ≠ backquote ∧ c ≠ '[' ∧
    isWordStart c = false

/-- What a round can read: one case for each branch of the loop. -/
inductive Reads : List Char → Lexeme → List Char → Prop
  | space {c r} : isSqlSpace c = true → Reads (c :: r) (.space c) r
  | separator {r} : Reads (';' :: r) .separator r
  | lineComment {s body r} : skipLineComment s = some (body, r) →
      Reads ('-' :: '-' :: s) (.lineComment body) r
  | blockComment {s body r} : skipBlockComment s = some (body, r) →
      Reads ('/' :: '*' :: s) (.blockComment body) r
  | string {s content r} : skipDelimited '\'' s = some (content, r) →
      Reads ('\'' :: s) (.string content) r
  | quoted {s content r} : skipDelimited '"' s = some (content, r) →
      Reads ('"' :: s) (.quoted content) r
  | backtick {s content r} : skipDelimited backquote s = some (content, r) →
      Reads (backquote :: s) (.backtick content) r
  | bracket {s content r} : skipBracketIdentifier s = some (content, r) →
      Reads ('[' :: s) (.bracket content) r
  | word {c r} : isWordStart c = true →
      Reads (c :: r) (.word (c :: r.takeWhile isWordContinue)) (r.dropWhile isWordContinue)
  | symbol {c r} : IsSymbol c r → Reads (c :: r) (.symbol c) r

theorem eq_cons_of_head? {r : List Char} {d : Char} (h : r.head? = some d) : r = d :: r.tail := by
  cases r with
  | nil => simp at h
  | cons x r => simpa using h

theorem reads_of_next {c : Char} {rest r : List Char} {l : Lexeme}
    (h : next c rest = some (l, r)) : Reads (c :: rest) l r := by
  have skipped : ∀ {x : Option (List Char × List Char)} {f : List Char → Lexeme},
      x.map (fun p => (f p.1, p.2)) = some (l, r) → ∃ a, x = some (a, r) ∧ l = f a := by
    intro x f hx
    obtain ⟨⟨a, r'⟩, ha, he⟩ := Option.map_eq_some_iff.mp hx
    simp only [Prod.mk.injEq] at he
    exact ⟨a, by rw [ha, he.2], he.1.symm⟩
  unfold next at h
  obtain ⟨-, h⟩ | ⟨-, h⟩ := ite_eq_iff.mp h
  · cases h
  obtain ⟨hspace, h⟩ | ⟨hspace, h⟩ := ite_eq_iff.mp h
  · cases h; exact .space hspace
  obtain ⟨rfl, h⟩ | ⟨h1, h⟩ := ite_eq_iff.mp h
  · cases h; exact .separator
  obtain ⟨hc, h⟩ | ⟨h2, h⟩ := ite_eq_iff.mp h
  · obtain ⟨a, ha, rfl⟩ := skipped h
    rw [hc.1, eq_cons_of_head? hc.2]
    exact .lineComment ha
  obtain ⟨hc, h⟩ | ⟨h3, h⟩ := ite_eq_iff.mp h
  · obtain ⟨a, ha, rfl⟩ := skipped h
    rw [hc.1, eq_cons_of_head? hc.2]
    exact .blockComment ha
  obtain ⟨rfl, h⟩ | ⟨h4, h⟩ := ite_eq_iff.mp h
  · obtain ⟨a, ha, rfl⟩ := skipped h
    exact .string ha
  obtain ⟨rfl, h⟩ | ⟨h5, h⟩ := ite_eq_iff.mp h
  · obtain ⟨a, ha, rfl⟩ := skipped h
    exact .quoted ha
  obtain ⟨rfl, h⟩ | ⟨h6, h⟩ := ite_eq_iff.mp h
  · obtain ⟨a, ha, rfl⟩ := skipped h
    exact .backtick ha
  obtain ⟨rfl, h⟩ | ⟨h7, h⟩ := ite_eq_iff.mp h
  · obtain ⟨a, ha, rfl⟩ := skipped h
    exact .bracket ha
  obtain ⟨hword, h⟩ | ⟨hword, h⟩ := ite_eq_iff.mp h
  · cases h; exact .word hword
  cases h
  exact .symbol ⟨by simpa using hspace, h1, h2, h3, h4, h5, h6, h7, by simpa using hword⟩

/-- A round reads the text of its lexeme. -/
theorem Reads.text_eq {s r : List Char} {l : Lexeme} (h : Reads s l r) : s = l.text ++ r := by
  cases h with
  | space _ => rfl
  | separator => rfl
  | lineComment h => rw [skipLineComment_eq h]; rfl
  | blockComment h => rw [skipBlockComment_eq h]; simp [Lexeme.text]
  | string h => rw [(skipDelimited_eq h).1]; simp [Lexeme.text]
  | quoted h => rw [(skipDelimited_eq h).1]; simp [Lexeme.text]
  | backtick h => rw [(skipDelimited_eq h).1]; simp [Lexeme.text]
  | bracket h => rw [skipBracketIdentifier_eq h]; simp [Lexeme.text]
  | word _ => simp [Lexeme.text]
  | symbol _ => rfl

theorem Reads.text_pos {s r : List Char} {l : Lexeme} (h : Reads s l r) : 0 < l.text.length := by
  cases h <;> simp [Lexeme.text]

theorem Reads.shorter {s r : List Char} {l : Lexeme} (h : Reads s l r) : r.length < s.length := by
  have h1 := congrArg List.length h.text_eq
  have h2 := h.text_pos
  rw [List.length_append] at h1
  omega

/-- The loop of `Tokenize`. -/
def lexer : Lexer Unit Char Lexeme where
  next _ c rest := (next c rest).map fun p => (p.1, (), p.2)
  shorter := by
    intro s c r l s' r' h
    obtain ⟨⟨l', x⟩, hx, he⟩ := Option.map_eq_some_iff.mp h
    cases he
    exact Nat.le_of_lt_succ (reads_of_next hx).shorter

/-! ### The tokens -/

/-- `decodeDelimitedIdentifier`: every doubled delimiter stands for one. -/
def decodeDelimitedIdentifier (delimiter : Char) : List Char → List Char
  | [] => []
  | [c] => [c]
  | c :: c' :: rest =>
    if c = delimiter ∧ c' = delimiter then delimiter :: decodeDelimitedIdentifier delimiter rest
    else c :: decodeDelimitedIdentifier delimiter (c' :: rest)

/-- The token of a lexeme. -/
def Lexeme.token : Lexeme → Option Token
  | .space _ => none
  | .lineComment _ => none
  | .blockComment _ => none
  | .separator => some { separator := true }
  | .string content => some { string := decodeDelimitedIdentifier '\'' content, other := true }
  | .quoted content => some { identifier := decodeDelimitedIdentifier '"' content, other := true }
  | .backtick content => some { identifier := decodeDelimitedIdentifier backquote content, other := true }
  | .bracket content => some { identifier := content, other := true }
  | .word text => some { word := text }
  | .symbol c => some { symbol := [c], other := true }

/-- The lexemes of a text that `Tokenize` accepts. -/
def lexemes (text : GoString) (maxBytes : ℕ) : Option (List Lexeme) :=
  if maxBytes = 0 ∨ text = .utf8 "" ∨ !text.validString ∨ maxBytes < byteLength text.runes then none
  else lexer.lex () text.runes

/-- `Tokenize`; `none` is `ErrInvalidSQL`. -/
def tokenize (text : GoString) (maxBytes : ℕ) : Option (List Token) :=
  (lexemes text maxBytes).map fun ls => ls.filterMap Lexeme.token

/-- What a lexeme is to its statement. -/
def Lexeme.kind : Lexeme → Kind (List Char)
  | .space _ => .blank
  | .lineComment _ => .blank
  | .blockComment _ => .blank
  | .separator => .separator
  | .word text => .word text
  | .string _ => .other
  | .quoted _ => .other
  | .backtick _ => .other
  | .bracket _ => .other
  | .symbol _ => .other

/-- The lexeme as a piece of a statement. -/
def Lexeme.piece (l : Lexeme) : Piece Char (List Char) := ⟨l.kind, l.text⟩

@[simp] theorem Lexeme.piece_kind (l : Lexeme) : l.piece.kind = l.kind := rfl

@[simp] theorem Lexeme.piece_text (l : Lexeme) : l.piece.text = l.text := rfl

end Modary.Sql.Tokens
