import Mathlib.Data.List.TakeWhile
import Modary.Sql.Tokens

/-! # The lexical rules of PostgreSQL

How the server reads the text of a query: doubled quotes in `''` and `""`, backslash escapes in
`E''` (also in the parts that continue such a literal on a later line), dollar quotes with tags,
nested block comments, identifiers with letters beyond ASCII. Backticks and brackets quote nothing.
A number is read character by character, which leaves the ends of strings, comments and words where
they are. -/

namespace Modary.Sql.Postgres

open Modary.Lib.GoText Modary.Lib.Lexing Modary.Sql.Tokens

/-- What the server reads at once. -/
inductive PgLexeme
  | space (c : Char)
  | separator
  | lineComment (body : List Char)
  | blockComment (body : List Char)
  | string (content : List Char)
  | escapeString (leadIn content : List Char)
  | dollarString (tag body : List Char)
  | quoted (content : List Char)
  | identifier (text : List Char)
  | symbol (c : Char)
  deriving DecidableEq, Repr

/-- The text a lexeme was read from. -/
def PgLexeme.text : PgLexeme → List Char
  | .space c => [c]
  | .separator => [';']
  | .lineComment body => '-' :: '-' :: body
  | .blockComment body => '/' :: '*' :: (body ++ ['*', '/'])
  | .string content => '\'' :: (content ++ ['\''])
  | .escapeString leadIn content => leadIn ++ '\'' :: (content ++ ['\''])
  | .dollarString tag body => '$' :: (tag ++ '$' :: (body ++ '$' :: (tag ++ ['$'])))
  | .quoted content => '"' :: (content ++ ['"'])
  | .identifier text => text
  | .symbol c => [c]

/-- What a lexeme is to its statement. -/
def PgLexeme.kind : PgLexeme → Kind (List Char)
  | .space _ => .blank
  | .lineComment _ => .blank
  | .blockComment _ => .blank
  | .separator => .separator
  | .identifier text => .word text
  | .string _ => .other
  | .escapeString _ _ => .other
  | .dollarString _ _ => .other
  | .quoted _ => .other
  | .symbol _ => .other

/-- The lexeme as a piece of a statement. -/
def PgLexeme.piece (l : PgLexeme) : Piece Char (List Char) := ⟨l.kind, l.text⟩

@[simp] theorem PgLexeme.piece_kind (l : PgLexeme) : l.piece.kind = l.kind := rfl

@[simp] theorem PgLexeme.piece_text (l : PgLexeme) : l.piece.text = l.text := rfl

/-- A letter that may begin an identifier. -/
def isIdentStart (c : Char) : Bool := isWordStart c || 0x80 ≤ c.toNat

def isIdentContinue (c : Char) : Bool := isWordContinue c || 0x80 ≤ c.toNat

/-- A character of a dollar-quote tag. -/
def isTagContinue (c : Char) : Bool := isIdentStart c || isDigit c

/-- A quoted text up to its closing delimiter, which is doubled inside. -/
def readQuoted (delimiter : Char) : List Char → Option (List Char × List Char)
  | [] => none
  | [c] => if c = delimiter then some ([], []) else none
  | c :: c' :: rest =>
    if c ≠ delimiter then (readQuoted delimiter (c' :: rest)).map (prepend [c])
    else if c' = delimiter then (readQuoted delimiter rest).map (prepend [c, c'])
    else some ([], c' :: rest)

/-- The text of an `E''` literal: a backslash takes the next character with it. -/
def readEscaped : List Char → Option (List Char × List Char)
  | [] => none
  | [c] => if c = '\'' then some ([], []) else none
  | c :: c' :: rest =>
    if c = '\\' then (readEscaped rest).map (prepend [c, c'])
    else if c ≠ '\'' then (readEscaped (c' :: rest)).map (prepend [c])
    else if c' = '\'' then (readEscaped rest).map (prepend [c, c'])
    else some ([], c' :: rest)

/-- The body of a block comment with `depth` further comments open in it. -/
def readNested : ℕ → List Char → Option (List Char × List Char)
  | _, [] => none
  | _, [_] => none
  | depth, c :: c' :: rest =>
    if c = '/' ∧ c' = '*' then (readNested (depth + 1) rest).map (prepend [c, c'])
    else if c = '*' ∧ c' = '/' then
      match depth with
      | 0 => some ([], rest)
      | depth + 1 => (readNested depth rest).map (prepend [c, c'])
    else (readNested depth (c' :: rest)).map (prepend [c])

/-- The tag of a dollar quote behind its first `$`. -/
def readDollarTag (rest : List Char) : Option (List Char × List Char) :=
  match rest.dropWhile isTagContinue with
  | [] => none
  | c :: r =>
    if c == '$' && (rest.takeWhile isTagContinue).head?.all isIdentStart then
      some (rest.takeWhile isTagContinue, r)
    else none

/-- The body of a dollar quote: up to the first occurrence of its delimiter. -/
def readDollarBody (delimiter : List Char) : List Char → Option (List Char × List Char)
  | [] => none
  | c :: rest =>
    if delimiter.isPrefixOf (c :: rest) then some ([], (c :: rest).drop delimiter.length)
    else (readDollarBody delimiter rest).map (prepend [c])

/-- The next lexeme. The state is `some newline` right behind an `E''` literal, with only blanks and
line comments read since; a quote behind a line end then continues the literal. -/
def pgNext (state : Option Bool) (c : Char) (rest : List Char) :
    Option (PgLexeme × Option Bool × List Char) :=
  if isSqlSpace c then some (.space c, state.map (· || isLineEnd c), rest)
  else if c = ';' then some (.separator, none, rest)
  else if c = '-' ∧ rest.head? = some '-' then
    some (.lineComment (rest.tail.takeWhile fun c => !isLineEnd c), state,
      rest.tail.dropWhile fun c => !isLineEnd c)
  else if c = '/' ∧ rest.head? = some '*' then
    (readNested 0 rest.tail).map fun p => (.blockComment p.1, none, p.2)
  else if c = '\'' then
    if state = some true then (readEscaped rest).map fun p => (.escapeString [] p.1, some false, p.2)
    else (readQuoted '\'' rest).map fun p => (.string p.1, none, p.2)
  else if c = '"' then (readQuoted '"' rest).map fun p => (.quoted p.1, none, p.2)
  else if isIdentStart c then
    if (c = 'e' ∨ c = 'E') ∧ rest.head? = some '\'' then
      (readEscaped rest.tail).map fun p => (.escapeString [c] p.1, some false, p.2)
    else some (.identifier (c :: rest.takeWhile isIdentContinue), none,
      rest.dropWhile isIdentContinue)
  else if c = '$' then
    match readDollarTag rest with
    | some (tag, r) => (readDollarBody ('$' :: (tag ++ ['$'])) r).map fun p =>
        (.dollarString tag p.1, none, p.2)
    | none => some (.symbol c, none, rest)
  else some (.symbol c, none, rest)

/-! ### What is read is the text -/

theorem readQuoted_eq {d : Char} : ∀ {s a r : List Char}, readQuoted d s = some (a, r) →
    s = a ++ d :: r
  | [], _, _, h => by simp [readQuoted] at h
  | [c], a, r, h => by
    unfold readQuoted at h
    split_ifs at h with h1
    cases h; rw [h1]; rfl
  | c :: c' :: rest, a, r, h => by
    unfold readQuoted at h
    split_ifs at h with h1 h2
    · obtain ⟨b, hb, rfl⟩ := prepend_eq h
      rw [readQuoted_eq hb]; simp
    · obtain ⟨b, hb, rfl⟩ := prepend_eq h
      rw [readQuoted_eq hb]; simp
    · cases h; rw [not_not.mp h1]; rfl

theorem readEscaped_eq : ∀ {s a r : List Char}, readEscaped s = some (a, r) → s = a ++ '\'' :: r
  | [], _, _, h => by simp [readEscaped] at h
  | [c], a, r, h => by
    unfold readEscaped at h
    split_ifs at h with h1
    cases h; rw [h1]; rfl
  | c :: c' :: rest, a, r, h => by
    unfold readEscaped at h
    split_ifs at h with h1 h2 h3
    · obtain ⟨b, hb, rfl⟩ := prepend_eq h
      rw [readEscaped_eq hb]; simp
    · obtain ⟨b, hb, rfl⟩ := prepend_eq h
      rw [readEscaped_eq hb]; simp
    · obtain ⟨b, hb, rfl⟩ := prepend_eq h
      rw [readEscaped_eq hb]; simp
    · cases h; rw [not_not.mp h2]; rfl

theorem readNested_eq : ∀ {depth : ℕ} {s a r : List Char}, readNested depth s = some (a, r) →
    s = a ++ '*' :: '/' :: r
  | _, [], _, _, h => by simp [readNested] at h
  | _, [c], _, _, h => by simp [readNested] at h
  | depth, c :: c' :: rest, a, r, h => by
    unfold readNested at h
    split_ifs at h with h1 h2
    · obtain ⟨b, hb, rfl⟩ := prepend_eq h
      rw [readNested_eq hb]; simp
    · cases depth with
      | zero => cases h; rw [h2.1, h2.2]; rfl
      | succ depth =>
        obtain ⟨b, hb, rfl⟩ := prepend_eq h
        rw [readNested_eq hb]; simp
    · obtain ⟨b, hb, rfl⟩ := prepend_eq h
      rw [readNested_eq hb]; simp

theorem readDollarBody_eq {d : List Char} : ∀ {s a r : List Char},
    readDollarBody d s = some (a, r) → s = a ++ (d ++ r)
  | [], _, _, h => by simp [readDollarBody] at h
  | c :: rest, a, r, h => by
    unfold readDollarBody at h
    split_ifs at h with h1
    · obtain ⟨t, ht⟩ := List.isPrefixOf_iff_prefix.mp h1
      cases h
      rw [← ht, List.drop_left, List.nil_append]
    · obtain ⟨b, hb, rfl⟩ := prepend_eq h
      rw [readDollarBody_eq hb]; simp

theorem readDollarTag_eq {s tag r : List Char} (h : readDollarTag s = some (tag, r)) :
    s = tag ++ '$' :: r := by
  have hd := List.takeWhile_append_dropWhile (p := isTagContinue) (l := s)
  unfold readDollarTag at h
  rcases hs : s.dropWhile isTagContinue with _ | ⟨c, w⟩
  · simp [hs] at h
  · rw [hs] at hd h
    simp only at h
    split_ifs at h with h1
    cases h
    simp only [Bool.and_eq_true, beq_iff_eq] at h1
    rw [← h1.1, hd]

/-- A lexeme begins with the character it is read at. -/
theorem pgNext_text {st st' : Option Bool} {c : Char} {rest r : List Char} {l : PgLexeme}
    (h : pgNext st c rest = some (l, st', r)) : ∃ t, l.text = c :: t ∧ rest = t ++ r := by
  have read : ∀ {x : Option (List Char × List Char)} {f : List Char → PgLexeme}
      {state : Option Bool}, x.map (fun p => (f p.1, state, p.2)) = some (l, st', r) →
      ∃ a, x = some (a, r) ∧ l = f a := by
    intro x f state he
    obtain ⟨⟨a, r'⟩, ha, heq⟩ := Option.map_eq_some_iff.mp he
    cases heq
    exact ⟨a, ha, rfl⟩
  unfold pgNext at h
  obtain ⟨-, h⟩ | ⟨-, h⟩ := ite_eq_iff.mp h
  · cases h; exact ⟨[], rfl, rfl⟩
  obtain ⟨rfl, h⟩ | ⟨-, h⟩ := ite_eq_iff.mp h
  · cases h; exact ⟨[], rfl, rfl⟩
  obtain ⟨hc, h⟩ | ⟨-, h⟩ := ite_eq_iff.mp h
  · cases h
    refine ⟨'-' :: rest.tail.takeWhile fun c => !isLineEnd c, by rw [hc.1]; rfl, ?_⟩
    rw [List.cons_append, List.takeWhile_append_dropWhile]
    exact eq_cons_of_head? hc.2
  obtain ⟨hc, h⟩ | ⟨-, h⟩ := ite_eq_iff.mp h
  · obtain ⟨a, ha, rfl⟩ := read h
    refine ⟨'*' :: (a ++ ['*', '/']), by rw [hc.1]; rfl, ?_⟩
    rw [eq_cons_of_head? hc.2, readNested_eq ha]
    simp
  obtain ⟨hc, h⟩ | ⟨-, h⟩ := ite_eq_iff.mp h
  · obtain ⟨-, h⟩ | ⟨-, h⟩ := ite_eq_iff.mp h
    · obtain ⟨a, ha, rfl⟩ := read h
      exact ⟨a ++ ['\''], by rw [hc]; rfl, by rw [readEscaped_eq ha]; simp⟩
    · obtain ⟨a, ha, rfl⟩ := read h
      exact ⟨a ++ ['\''], by rw [hc]; rfl, by rw [readQuoted_eq ha]; simp⟩
  obtain ⟨rfl, h⟩ | ⟨-, h⟩ := ite_eq_iff.mp h
  · obtain ⟨a, ha, rfl⟩ := read h
    exact ⟨a ++ ['"'], rfl, by rw [readQuoted_eq ha]; simp⟩
  obtain ⟨-, h⟩ | ⟨-, h⟩ := ite_eq_iff.mp h
  · obtain ⟨hc, h⟩ | ⟨-, h⟩ := ite_eq_iff.mp h
    · obtain ⟨a, ha, rfl⟩ := read h
      refine ⟨'\'' :: (a ++ ['\'']), rfl, ?_⟩
      rw [eq_cons_of_head? hc.2, readEscaped_eq ha]
      simp
    · cases h; exact ⟨rest.takeWhile isIdentContinue, rfl, by simp⟩
  obtain ⟨rfl, h⟩ | ⟨-, h⟩ := ite_eq_iff.mp h
  · rcases ht : readDollarTag rest with _ | ⟨tag, s⟩
    · rw [ht] at h; cases h; exact ⟨[], rfl, rfl⟩
    · rw [ht] at h
      obtain ⟨a, ha, rfl⟩ := read h
      refine ⟨tag ++ '$' :: (a ++ '$' :: (tag ++ ['$'])), rfl, ?_⟩
      rw [readDollarTag_eq ht, readDollarBody_eq ha]
      simp
  cases h
  exact ⟨[], rfl, rfl⟩

theorem pgNext_suffix {st st' : Option Bool} {c : Char} {rest r : List Char} {l : PgLexeme}
    (h : pgNext st c rest = some (l, st', r)) : r <:+ rest := by
  obtain ⟨t, -, rfl⟩ := pgNext_text h
  exact List.suffix_append t r

/-- The server's reading of a text. -/
def pgLexer : Lexer (Option Bool) Char PgLexeme where
  next := pgNext
  shorter h := (pgNext_suffix h).length_le

/-! ### Reading does not depend on what follows -/

theorem map_prepend_append {cs a r t : List Char} {x y : Option (List Char × List Char)}
    (h : x.map (prepend cs) = some (a, r))
    (hxy : ∀ {a'}, x = some (a', r) → y = some (a', r ++ t)) :
    y.map (prepend cs) = some (a, r ++ t) := by
  obtain ⟨b, hb, rfl⟩ := prepend_eq h
  rw [hxy hb]
  rfl

theorem readQuoted_append {d : Char} {t : List Char} : ∀ {s a r : List Char},
    readQuoted d s = some (a, r) → (r = [] → t.head? ≠ some d) →
      readQuoted d (s ++ t) = some (a, r ++ t)
  | [], _, _, h, _ => by simp [readQuoted] at h
  | [c], a, r, h, ht => by
    unfold readQuoted at h
    split_ifs at h with h1
    cases h
    cases t with
    | nil => simp [readQuoted, h1]
    | cons x t =>
      have hx : x ≠ d := by simpa using ht rfl
      simp [readQuoted, h1, hx]
  | c :: c' :: rest, a, r, h, ht => by
    unfold readQuoted at h
    simp only [List.cons_append]
    unfold readQuoted
    split_ifs at h ⊢
    · exact map_prepend_append h fun hb => readQuoted_append hb ht
    · exact map_prepend_append h fun hb => readQuoted_append hb ht
    · cases h; rfl

theorem readEscaped_append {t : List Char} : ∀ {s a r : List Char},
    readEscaped s = some (a, r) → (r = [] → t.head? ≠ some '\'') →
      readEscaped (s ++ t) = some (a, r ++ t)
  | [], _, _, h, _ => by simp [readEscaped] at h
  | [c], a, r, h, ht => by
    unfold readEscaped at h
    split_ifs at h with h1
    cases h
    cases t with
    | nil => simp [readEscaped, h1]
    | cons x t =>
      have hx : x ≠ '\'' := by simpa using ht rfl
      simp [readEscaped, h1, hx]
  | c :: c' :: rest, a, r, h, ht => by
    unfold readEscaped at h
    simp only [List.cons_append]
    unfold readEscaped
    split_ifs at h ⊢
    · exact map_prepend_append h fun hb => readEscaped_append hb ht
    · exact map_prepend_append h fun hb => readEscaped_append hb ht
    · exact map_prepend_append h fun hb => readEscaped_append hb ht
    · cases h; rfl

theorem readNested_append {t : List Char} : ∀ {depth : ℕ} {s a r : List Char},
    readNested depth s = some (a, r) → readNested depth (s ++ t) = some (a, r ++ t)
  | _, [], _, _, h => by simp [readNested] at h
  | _, [c], _, _, h => by simp [readNested] at h
  | depth, c :: c' :: rest, a, r, h => by
    unfold readNested at h
    simp only [List.cons_append]
    unfold readNested
    split_ifs at h ⊢
    · exact map_prepend_append h fun hb => readNested_append hb
    · cases depth with
      | zero => cases h; rfl
      | succ depth => exact map_prepend_append h fun hb => readNested_append hb
    · exact map_prepend_append h fun hb => readNested_append hb

theorem length_le_of_readDollarBody {d : List Char} : ∀ {s a r : List Char},
    readDollarBody d s = some (a, r) → d.length ≤ s.length
  | [], _, _, h => by simp [readDollarBody] at h
  | c :: rest, a, r, h => by
    unfold readDollarBody at h
    split_ifs at h with h1
    · exact (List.isPrefixOf_iff_prefix.mp h1).length_le
    · obtain ⟨b, hb, -⟩ := prepend_eq h
      have := length_le_of_readDollarBody hb
      simp only [List.length_cons]; omega

theorem isPrefixOf_append {d s t : List Char} (h : d.length ≤ s.length) :
    d.isPrefixOf (s ++ t) = d.isPrefixOf s := by
  rw [Bool.eq_iff_iff, List.isPrefixOf_iff_prefix, List.isPrefixOf_iff_prefix]
  exact ⟨fun hp => List.prefix_of_prefix_length_le hp (List.prefix_append s t) h,
    fun hp => hp.trans (List.prefix_append s t)⟩

theorem readDollarBody_append {d t : List Char} : ∀ {s a r : List Char},
    readDollarBody d s = some (a, r) → readDollarBody d (s ++ t) = some (a, r ++ t)
  | [], _, _, h => by simp [readDollarBody] at h
  | c :: rest, a, r, h => by
    have hlen := length_le_of_readDollarBody h
    have hpre := isPrefixOf_append (t := t) hlen
    unfold readDollarBody at h
    rw [List.cons_append] at hpre ⊢
    unfold readDollarBody
    rw [hpre]
    split_ifs at h ⊢
    · cases h
      rw [← List.cons_append, List.drop_append_of_le_length hlen]
    · exact map_prepend_append h fun hb => readDollarBody_append hb

/-- A run that stops inside a text is the same in front of any other. -/
theorem takeWhile_dropWhile_append {p : Char → Bool} {s : List Char} (t : List Char)
    (h : s.dropWhile p ≠ []) :
    (s ++ t).takeWhile p = s.takeWhile p ∧ (s ++ t).dropWhile p = s.dropWhile p ++ t := by
  have hd : (s ++ t).dropWhile p = s.dropWhile p ++ t := by
    rw [List.dropWhile_append, if_neg (by simpa using h)]
  refine ⟨?_, hd⟩
  have h1 := List.takeWhile_append_dropWhile (p := p) (l := s ++ t)
  have h2 := List.takeWhile_append_dropWhile (p := p) (l := s)
  rw [hd] at h1
  nth_rewrite 3 [← h2] at h1
  rw [List.append_assoc] at h1
  exact List.append_cancel_right h1

/-- A character at which the server starts afresh. -/
def IsStop (z : Char) : Prop :=
  isIdentContinue z = false ∧ isTagContinue z = false ∧ z ≠ '$' ∧
    ∀ st t, pgNext st z t = some (.symbol z, none, t)

theorem dropWhile_ne_nil {p : Char → Bool} {u : List Char} {z : Char} (hz : p z = false) :
    (u ++ [z]).dropWhile p ≠ [] := by
  intro h
  have := List.dropWhile_eq_nil_iff.mp h z (by simp)
  rw [hz] at this
  exact absurd this (by simp)

theorem readDollarTag_append {u t : List Char} {z : Char} (hz : IsStop z) :
    readDollarTag (u ++ [z] ++ t) = (readDollarTag (u ++ [z])).map fun p => (p.1, p.2 ++ t) := by
  have hne : (u ++ [z]).dropWhile isTagContinue ≠ [] := dropWhile_ne_nil hz.2.1
  obtain ⟨h1, h2⟩ := takeWhile_dropWhile_append t hne
  unfold readDollarTag
  rw [h1, h2]
  obtain ⟨x, w, hx⟩ := List.exists_cons_of_ne_nil hne
  rw [hx]
  simp only [List.cons_append]
  split_ifs <;> rfl

/-- Two choices on one condition are compared branch by branch. -/
theorem ite_imp_ite {α : Type} {p : Prop} [Decidable p] {a b x a' b' y : α}
    (hpos : a = x → a' = y) (hneg : b = x → b' = y) (h : (if p then a else b) = x) :
    (if p then a' else b') = y := by
  by_cases hp : p
  · rw [if_pos hp] at h ⊢
    exact hpos h
  · rw [if_neg hp] at h ⊢
    exact hneg h

/-- A lexeme read before the end of a text that closes with a stop is read there in any longer
text. -/
theorem pgNext_append {st st' : Option Bool} {c z : Char} {u r t : List Char} {l : PgLexeme}
    (hz : IsStop z) (h : pgNext st c (u ++ [z]) = some (l, st', r)) (hr : r ≠ []) :
    pgNext st c (u ++ [z] ++ t) = some (l, st', r ++ t) := by
  obtain ⟨x, w, hx⟩ := List.exists_cons_of_ne_nil (show u ++ [z] ≠ [] by simp)
  have hhead : (u ++ [z] ++ t).head? = (u ++ [z]).head? := by rw [hx]; rfl
  have htail : (u ++ [z] ++ t).tail = (u ++ [z]).tail ++ t := by rw [hx]; rfl
  have read : ∀ {x y : Option (List Char × List Char)} {f : List Char → PgLexeme}
      {state : Option Bool}, (∀ {a}, x = some (a, r) → y = some (a, r ++ t)) →
      x.map (fun p => (f p.1, state, p.2)) = some (l, st', r) →
      y.map (fun p => (f p.1, state, p.2)) = some (l, st', r ++ t) := by
    intro x y f state hxy he
    obtain ⟨⟨a, r'⟩, ha, heq⟩ := Option.map_eq_some_iff.mp he
    simp only [Prod.mk.injEq] at heq
    obtain ⟨rfl, rfl, rfl⟩ := heq
    rw [hxy ha]
    rfl
  unfold pgNext at h ⊢
  rw [hhead, htail]
  refine ite_imp_ite ?_ (ite_imp_ite ?_ (ite_imp_ite ?_ (ite_imp_ite ?_ (ite_imp_ite
    (ite_imp_ite ?_ ?_) (ite_imp_ite ?_ (ite_imp_ite (ite_imp_ite ?_ ?_)
      (ite_imp_ite ?_ ?_))))))) h
  all_goals intro h
  · cases h; rfl
  · cases h; rfl
  · cases h
    obtain ⟨h1, h2⟩ := takeWhile_dropWhile_append t hr
    rw [h1, h2]
  · exact read (fun hb => readNested_append hb) h
  · exact read (fun hb => readEscaped_append hb fun h0 => absurd h0 hr) h
  · exact read (fun hb => readQuoted_append hb fun h0 => absurd h0 hr) h
  · exact read (fun hb => readQuoted_append hb fun h0 => absurd h0 hr) h
  · exact read (fun hb => readEscaped_append hb fun h0 => absurd h0 hr) h
  · cases h
    obtain ⟨h1, h2⟩ := takeWhile_dropWhile_append t hr
    rw [h1, h2]
  · rw [readDollarTag_append hz]
    rcases ht : readDollarTag (u ++ [z]) with _ | ⟨tag, s⟩
    · rw [ht] at h; cases h; rfl
    · rw [ht] at h
      exact read (fun hb => readDollarBody_append hb) h
  · cases h; rfl

/-- The server reads the text up to a stop without meeting a separator, and is then where it was
at its beginning. -/
def readsWhole (text : List Char) : Bool :=
  (pgLexer.lex none text).any fun ls =>
    (ls.all fun l => l != .separator) && ls.getLast? == text.getLast?.map .symbol

theorem pgNext_symbol {st st' : Option Bool} {c x : Char} {s r : List Char}
    (h : pgNext st c s = some (.symbol x, st', r)) : r = s := by
  obtain ⟨t, ht, rfl⟩ := pgNext_text h
  simp only [PgLexeme.text, List.cons.injEq] at ht
  rw [← ht.2, List.nil_append]

theorem eq_append_of_suffix {u r : List Char} {z : Char} (h : r <:+ u ++ [z]) (hr : r ≠ []) :
    ∃ u', r = u' ++ [z] := by
  obtain ⟨v, hv⟩ := h
  obtain ⟨u', x, rfl⟩ : ∃ u' x, r = u' ++ [x] :=
    ⟨r.dropLast, r.getLast hr, (List.dropLast_append_getLast hr).symm⟩
  rw [← List.append_assoc] at hv
  obtain ⟨-, hx⟩ := List.append_inj' hv rfl
  exact ⟨u', by rw [hx]⟩

/-- A text that closes with a stop is read alike in front of any other text. -/
theorem lex_append {z : Char} (hz : IsStop z) {t : List Char} {ps : List PgLexeme}
    (ht : pgLexer.lex none t = some ps) : ∀ (n : ℕ) (u : List Char) (st : Option Bool)
      (ls : List PgLexeme), u.length ≤ n → pgLexer.lex st (u ++ [z]) = some ls →
      ls.getLast? = some (.symbol z) → pgLexer.lex st (u ++ [z] ++ t) = some (ls ++ ps)
  | n, [], st, ls, _, h, _ => by
    have h1 : ∀ t, pgLexer.next st z t = some (.symbol z, none, t) := hz.2.2.2 st
    rw [List.nil_append] at h
    rw [pgLexer.lex_cons, h1] at h
    simp only [Option.bind_some, Lexer.lex_nil, Option.map_some, Option.some.injEq] at h
    rw [List.nil_append, List.singleton_append, pgLexer.lex_cons, h1, Option.bind_some, ht, ← h]
    rfl
  | 0, c :: u, st, ls, hn, _, _ => by simp at hn
  | n + 1, c :: u, st, ls, hn, h, hl => by
    rw [List.cons_append] at h
    obtain ⟨l, st', r, ls', hnext, hlex, rfl⟩ := Lexer.lex_eq_some h
    have hr : r ≠ [] := by
      -- A lexeme that ends the text is the closing stop, and that one is read on its own.
      rintro rfl
      rw [Lexer.lex_nil, Option.some.injEq] at hlex
      subst hlex
      rw [List.getLast?_singleton, Option.some.injEq] at hl
      subst hl
      exact absurd (pgNext_symbol hnext) (by simp)
    obtain ⟨u', rfl⟩ := eq_append_of_suffix (pgNext_suffix hnext) hr
    have hlen : u'.length ≤ n := by
      have := (pgNext_suffix hnext).length_le
      simp only [List.length_append, List.length_cons] at this hn
      omega
    have hl' : ls'.getLast? = some (.symbol z) := by
      cases ls' with
      | nil =>
        obtain ⟨x, w, hx⟩ := List.exists_cons_of_ne_nil hr
        rw [hx] at hlex
        obtain ⟨_, _, _, _, _, _, he⟩ := Lexer.lex_eq_some hlex
        exact absurd he (by simp)
      | cons y ls' => simpa using hl
    rw [List.cons_append, List.cons_append, List.cons_append]
    exact Lexer.lex_of_next (pgNext_append hz hnext hr) (lex_append hz ht n u' st' ls' hlen hlex hl')

end Modary.Sql.Postgres
