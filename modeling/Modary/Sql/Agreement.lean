import Modary.Sql.Gates
import Modary.Sql.Postgres

/-! # The gates and the server read the same statements

The gates cut a text into statements with their own tokenizer, the server with its own lexical
rules. The two agree on every text in which the differences between them stay without effect
(`portable`): what the gate skips as a unit, the server reads as a unit or as harmless pieces. For
such a text the statements and first words of an accepted query, mutation or migration are those the
server sees (`accepted_statements_agree`); without that condition they need not be. -/

namespace Modary.Sql.Agreement

open Modary.Lib Modary.Lib.GoText Modary.Lib.Lexing Modary.Sql.Tokens Modary.Sql.Gates Modary.Sql.Postgres

/-! ### Portable texts -/

/-- What the server has read right before a lexeme of the gate. -/
inductive Context
  | apart
  | identifier (escape : Bool)
  | escaped (newline : Bool)
  deriving DecidableEq, Repr

/-- In the middle of an identifier of the server. -/
def Context.inIdentifier : Context → Bool
  | .identifier _ => true
  | _ => false

/-- A quote here opens or continues an `E''` literal. -/
def Context.escapes : Context → Bool
  | .identifier escape => escape
  | .escaped newline => newline
  | .apart => false

/-- The context behind a lexeme. -/
def Context.after (context : Context) : Lexeme → Context
  | .space c => match context with
    | .escaped newline => .escaped (newline || isLineEnd c)
    | _ => .apart
  | .lineComment _ => match context with
    | .escaped newline => .escaped newline
    | _ => .apart
  | .string _ => if context.escapes then .escaped false else .apart
  | .word text => .identifier (!context.inIdentifier && (text == ['e'] || text == ['E']))
  | .symbol c =>
    if 0x80 ≤ c.toNat then .identifier false
    else if context.inIdentifier && isIdentContinue c then .identifier false
    else .apart
  | _ => .apart

/-- The first words the gates permit. -/
def statementWords : List String := readWords ++ mutationWords ++ migrationStatementWords

/-- The server reads what the gate skips here as the gate does; `begun` says whether the statement
has its first word already. -/
def portableAt (begun : Bool) (context : Context) (l : Lexeme) (following : List Lexeme) : Bool :=
  match l with
  | .blockComment body => readNested 0 (body ++ ['*', '/']) == some (body, [])
  | .string content =>
    !context.escapes || readEscaped (content ++ ['\'']) == some (content, [])
  | .backtick _ => readsWhole l.text
  | .bracket _ => readsWhole l.text
  | .word text =>
    begun || !containsFold statementWords text ||
      !(following.flatMap Lexeme.text).head?.any fun c => 0x80 ≤ c.toNat
  | .symbol c =>
    context.inIdentifier || c != '$' ||
      (readDollarTag (following.flatMap Lexeme.text)).isNone
  | _ => true

/-- **Portable**: the server is in step with the gate behind every bracket and backtick quote and
has met no separator in it, no block comment holds another, no `E''` literal escapes a quote,
nothing opens a dollar quote, and no statement's first word runs into a letter beyond ASCII. -/
def portable : Bool → Context → List Lexeme → Bool
  | _, _, [] => true
  | begun, context, l :: ls =>
    portableAt begun context l ls && portable (l.kind.begun begun) (context.after l) ls

/-! ### Characters -/

theorem isStop_of {z : Char} (h1 : isSqlSpace z = false) (h2 : z ≠ ';') (h3 : z ≠ '-') (h4 : z ≠ '/')
    (h5 : z ≠ '\'') (h6 : z ≠ '"') (h7 : isIdentContinue z = false) (h8 : isTagContinue z = false)
    (h9 : z ≠ '$') : IsStop z := by
  have h10 : isIdentStart z = false := by
    simp only [isTagContinue, Bool.or_eq_false_iff] at h8
    exact h8.1
  refine ⟨h7, h8, h9, fun st t => ?_⟩
  unfold pgNext
  simp [h1, h2, h3, h4, h5, h6, h9, h10]

theorem isStop_openBracket : IsStop '[' :=
  isStop_of (by decide) (by decide) (by decide) (by decide) (by decide) (by decide) (by decide)
    (by decide) (by decide)

theorem isStop_closeBracket : IsStop ']' :=
  isStop_of (by decide) (by decide) (by decide) (by decide) (by decide) (by decide) (by decide)
    (by decide) (by decide)

theorem isStop_backquote : IsStop backquote :=
  isStop_of (by decide) (by decide) (by decide) (by decide) (by decide) (by decide) (by decide)
    (by decide) (by decide)

theorem isIdentContinue_of_start {c : Char} (h : isIdentStart c = true) : isIdentContinue c = true := by
  simp only [isIdentStart, isIdentContinue, isWordContinue, Bool.or_eq_true] at h ⊢
  rcases h with h | h
  · exact Or.inl (Or.inl (Or.inl h))
  · exact Or.inr h

theorem isIdentContinue_of_word {c : Char} (h : isWordContinue c = true) : isIdentContinue c = true := by
  simp [isIdentContinue, h]

/-- The special characters of both lexers. -/
def specials : List Char :=
  [' ', '\t', '\n', '\r', Char.ofNat 0x0c, Char.ofNat 0x0b, ';', '-', '/', '\'', '"', backquote, '[']

theorem not_mem_specials {c : Char} (h : isIdentContinue c = true) : c ∉ specials := by
  intro hc
  have key : (specials.all fun x => !isIdentContinue x) = true := by decide
  have := List.all_eq_true.mp key c hc
  rw [h] at this
  exact absurd this (by simp)

/-! ### The readers of the gate and of the server -/

theorem readQuoted_of_skip {d : Char} : ∀ {s a r : List Char},
    skipDelimited d s = some (a, r) → readQuoted d s = some (a, r)
  | [], _, _, h => by simp [skipDelimited] at h
  | [c], a, r, h => h
  | c :: c' :: rest, a, r, h => by
    unfold skipDelimited at h
    unfold readQuoted
    split_ifs at h ⊢
    · obtain ⟨b, hb, rfl⟩ := prepend_eq h
      rw [readQuoted_of_skip hb]; rfl
    · obtain ⟨b, hb, rfl⟩ := prepend_eq h
      rw [readQuoted_of_skip hb]; rfl
    · exact h

theorem takeWhile_of_skip : ∀ {s body r : List Char}, skipLineComment s = some (body, r) →
    s.takeWhile (fun c => !isLineEnd c) = body ∧ s.dropWhile (fun c => !isLineEnd c) = r
  | [], body, r, h => by
    simp only [skipLineComment, Option.some.injEq, Prod.mk.injEq] at h
    exact ⟨h.1, h.2⟩
  | c :: rest, body, r, h => by
    unfold skipLineComment at h
    split_ifs at h with h1 h2
    · simp only [Option.some.injEq, Prod.mk.injEq] at h
      rw [← h.1, ← h.2]
      simp [h1]
    · obtain ⟨b, hb, rfl⟩ := prepend_eq h
      obtain ⟨h3, h4⟩ := takeWhile_of_skip hb
      simp [h1, h3, h4]

/-- A comment without another inside ends for the server where it ends for the gate. -/
theorem readNested_of_skip {s body r : List Char} (h : skipBlockComment s = some (body, r))
    (hp : readNested 0 (body ++ ['*', '/']) = some (body, [])) : readNested 0 s = some (body, r) := by
  rw [skipBlockComment_eq h]
  have := readNested_append (t := r) hp
  simpa using this

theorem readEscaped_of_skip {s content r : List Char} (h : skipDelimited '\'' s = some (content, r))
    (hp : readEscaped (content ++ ['\'']) = some (content, [])) :
    readEscaped s = some (content, r) := by
  obtain ⟨h1, h2⟩ := skipDelimited_eq h
  rw [h1]
  have := readEscaped_append (t := r) hp fun _ => h2
  simpa using this

/-! ### Texts of lexemes -/

theorem lexer_next {c : Char} {rest : List Char} {l : Lexeme} {u : Unit} {r : List Char}
    (h : lexer.next () c rest = some (l, u, r)) : Reads (c :: rest) l r := by
  obtain ⟨⟨l', r'⟩, hx, he⟩ := Option.map_eq_some_iff.mp h
  cases he
  exact reads_of_next hx

/-- One round of the gate. -/
theorem lexer_cons {c : Char} {rest : List Char} {gs : List Lexeme}
    (h : lexer.lex () (c :: rest) = some gs) :
    ∃ l r gs', Reads (c :: rest) l r ∧ lexer.lex () r = some gs' ∧ gs = l :: gs' := by
  obtain ⟨l, u, r, gs', hn, hl, rfl⟩ := Lexer.lex_eq_some h
  exact ⟨l, r, gs', lexer_next hn, hl, rfl⟩

/-- The lexemes spell the text. -/
theorem lexer_texts : ∀ (n : ℕ) (text : List Char) (gs : List Lexeme), text.length ≤ n →
    lexer.lex () text = some gs → gs.flatMap Lexeme.text = text
  | _, [], gs, _, h => by
    rw [Lexer.lex_nil, Option.some.injEq] at h
    rw [← h]; rfl
  | 0, c :: rest, gs, hn, _ => by simp at hn
  | n + 1, c :: rest, gs, hn, h => by
    obtain ⟨l, r, gs', hr, hl, rfl⟩ := lexer_cons h
    have hs := hr.shorter
    simp only [List.length_cons] at hn hs
    rw [List.flatMap_cons, lexer_texts n r gs' (by omega) hl, ← hr.text_eq]

/-! ### Identifiers

The server reads an identifier at once, the gate in pieces: a word, then symbols and words from the
first letter beyond ASCII on. -/

/-- The text does not begin with a character of `p`. -/
def StopsAt (p : Char → Bool) (rest : List Char) : Prop := ∀ c, rest.head? = some c → p c = false

theorem stopsAt_dropWhile (p : Char → Bool) (s : List Char) : StopsAt p (s.dropWhile p) := by
  intro c hc
  have := List.head?_dropWhile_not p s
  rw [hc] at this
  simpa using this

theorem takeWhile_run {p : Char → Bool} {u rest : List Char} (h : StopsAt p rest) :
    (u ++ rest).takeWhile p = u.takeWhile p ∧ (u ++ rest).dropWhile p = u.dropWhile p ++ rest := by
  by_cases hu : u.dropWhile p = []
  · have hall := List.dropWhile_eq_nil_iff.mp hu
    have hrest : rest.takeWhile p = [] ∧ rest.dropWhile p = rest := by
      cases rest with
      | nil => exact ⟨rfl, rfl⟩
      | cons c rest =>
        have := h c rfl
        simp [this]
    rw [List.takeWhile_append_of_pos hall, List.dropWhile_append_of_pos hall, hrest.1, hrest.2, hu,
      List.append_nil, List.nil_append]
    refine ⟨?_, rfl⟩
    have := List.takeWhile_append_dropWhile (p := p) (l := u)
    rw [hu, List.append_nil] at this
    exact this.symm
  · exact takeWhile_dropWhile_append rest hu

/-- At a character of an identifier the gate reads a word or a symbol. -/
theorem reads_ident {c : Char} {s r : List Char} {l : Lexeme} (hc : isIdentContinue c = true)
    (h : Reads (c :: s) l r) :
    (isWordStart c = true ∧ l = .word (c :: s.takeWhile isWordContinue) ∧
        r = s.dropWhile isWordContinue) ∨
      (isWordStart c = false ∧ l = .symbol c ∧ r = s) := by
  have hs := not_mem_specials hc
  cases h with
  | space h =>
    exfalso
    apply hs
    simp only [isSqlSpace, Bool.or_eq_true, beq_iff_eq] at h
    rcases h with ((((rfl | rfl) | rfl) | rfl) | rfl) | rfl <;> simp [specials]
  | separator => exact absurd (by simp [specials]) hs
  | lineComment _ => exact absurd (by simp [specials]) hs
  | blockComment _ => exact absurd (by simp [specials]) hs
  | string _ => exact absurd (by simp [specials]) hs
  | quoted _ => exact absurd (by simp [specials]) hs
  | backtick _ => exact absurd (by simp [specials]) hs
  | bracket _ => exact absurd (by simp [specials]) hs
  | word h => exact Or.inl ⟨h, rfl, rfl⟩
  | symbol h => exact Or.inr ⟨h.2.2.2.2.2.2.2.2, rfl, rfl⟩

theorem begun_word (begun : Bool) (text : List Char) :
    (Lexeme.word text).kind.begun begun = true := by
  simp [Lexeme.kind, Kind.begun, Kind.lead]

theorem begun_symbol (begun : Bool) (c : Char) : (Lexeme.symbol c).kind.begun begun = true := by
  simp [Lexeme.kind, Kind.begun, Kind.lead]

theorem after_symbol {c : Char} (hc : isIdentContinue c = true) (e : Bool) :
    (Context.identifier e).after (.symbol c) = .identifier false := by
  simp [Context.after, Context.inIdentifier, hc]

/-- The rest of an identifier, in the pieces of the gate. -/
theorem lexer_run : ∀ (n : ℕ) (u rest : List Char) (gs : List Lexeme) (e : Bool), u.length ≤ n →
    (∀ c ∈ u, isIdentContinue c = true) → StopsAt isIdentContinue rest →
    lexer.lex () (u ++ rest) = some gs → portable true (.identifier e) gs = true →
      ∃ g gs', gs = g ++ gs' ∧ lexer.lex () rest = some gs' ∧ Whole (pieces g) ∧
        texts (pieces g) = u ∧ portable true (.identifier (e && u.isEmpty)) gs' = true
  | n, [], rest, gs, e, _, _, _, hl, hp =>
    ⟨[], gs, rfl, by simpa using hl, by simp [pieces], rfl, by simpa using hp⟩
  | 0, c :: u, rest, gs, e, hn, _, _, _, _ => by simp at hn
  | n + 1, c :: u, rest, gs, e, hn, hu, hrest, hl, hp => by
    have hc : isIdentContinue c = true := hu c (by simp)
    have hstop : StopsAt isWordContinue rest := by
      intro d hd
      by_contra hw
      have := hrest d hd
      rw [isIdentContinue_of_word (by simpa using hw)] at this
      exact absurd this (by simp)
    rw [List.cons_append] at hl
    obtain ⟨l, r, gs', hr, hl', rfl⟩ := lexer_cons hl
    have hp' : portable (l.kind.begun true) (Context.after (.identifier e) l) gs' = true := by
      simp only [portable, Bool.and_eq_true] at hp
      exact hp.2
    simp only [List.length_cons] at hn
    rcases reads_ident hc hr with ⟨-, rfl, rfl⟩ | ⟨-, rfl, rfl⟩
    · obtain ⟨ht, hd⟩ := takeWhile_run (u := u) hstop
      rw [hd] at hl'
      have hlen : (u.dropWhile isWordContinue).length ≤ n :=
        (List.length_dropWhile_le _ _).trans (by omega)
      obtain ⟨g, gs'', rfl, h1, h2, h3, h4⟩ := lexer_run n _ rest gs' false hlen
        (fun d hd => hu d (List.mem_cons_of_mem _ ((List.dropWhile_suffix _).subset hd))) hrest hl' hp'
      refine ⟨.word (c :: (u ++ rest).takeWhile isWordContinue) :: g, gs'', rfl, h1, ?_, ?_, ?_⟩
      · simp only [pieces, List.map_cons, whole_cons]
        exact ⟨by simp [Lexeme.kind], h2⟩
      · simp only [pieces, List.map_cons, texts_cons, Lexeme.piece_text, Lexeme.text] at h3 ⊢
        rw [h3, ht, List.cons_append, List.takeWhile_append_dropWhile]
      · simpa using h4
    · rw [after_symbol hc] at hp'
      obtain ⟨g, gs'', rfl, h1, h2, h3, h4⟩ := lexer_run n u rest gs' false (by omega)
        (fun d hd => hu d (List.mem_cons_of_mem _ hd)) hrest hl' hp'
      refine ⟨.symbol c :: g, gs'', rfl, h1, ?_, ?_, by simpa using h4⟩
      · simp only [pieces, List.map_cons, whole_cons]
        exact ⟨by simp [Lexeme.kind], h2⟩
      · simp only [pieces, List.map_cons, texts_cons, Lexeme.piece_text, Lexeme.text] at h3 ⊢
        rw [h3]; rfl

/-- A first piece that is none of the statement words. -/
def Stray (x : Option (List Char)) : Prop := ∀ w, x = some w → containsFold statementWords w = false

/-- The identifier is the lead-in of an `E''` literal if a quote follows. -/
def isEscape (u : List Char) : Bool := u == ['e'] || u == ['E']

theorem head_of_wordEnd {u : List Char} (hu : ∀ c ∈ u, isIdentContinue c = true)
    (hne : u.dropWhile isWordContinue ≠ []) :
    ∃ d, (u.dropWhile isWordContinue).head? = some d ∧ 0x80 ≤ d.toNat := by
  obtain ⟨d, w, hd⟩ := List.exists_cons_of_ne_nil hne
  have hstop := stopsAt_dropWhile isWordContinue u d (by rw [hd]; rfl)
  have hmem := hu d ((List.dropWhile_suffix _).subset (by rw [hd]; simp))
  refine ⟨d, by rw [hd]; rfl, ?_⟩
  simpa [isIdentContinue, hstop] using hmem

/-- An identifier of the server from its first letter on. -/
theorem lexer_identifier {begun : Bool} {context : Context} {c : Char} {u rest : List Char}
    {gs : List Lexeme} (hctx : context.inIdentifier = false) (hc : isIdentStart c = true)
    (hu : ∀ d ∈ u, isIdentContinue d = true) (hrest : StopsAt isIdentContinue rest)
    (hl : lexer.lex () (c :: (u ++ rest)) = some gs) (hp : portable begun context gs = true) :
    ∃ g gs', gs = g ++ gs' ∧ lexer.lex () rest = some gs' ∧ Whole (pieces g) ∧
      texts (pieces g) = c :: u ∧ (lead (pieces g)).isSome = true ∧
      (begun = true ∨ LeadsAgree Stray (lead (pieces g)) (some (some (c :: u)))) ∧
      portable true (.identifier (isEscape (c :: u))) gs' = true := by
  have hstop : StopsAt isWordContinue rest := by
    intro d hd
    by_contra hw
    have := hrest d hd
    rw [isIdentContinue_of_word (by simpa using hw)] at this
    exact absurd this (by simp)
  obtain ⟨l, r, gs', hr, hl', rfl⟩ := lexer_cons hl
  simp only [portable, Bool.and_eq_true] at hp
  obtain ⟨hat, hp⟩ := hp
  rcases reads_ident (isIdentContinue_of_start hc) hr with ⟨-, rfl, rfl⟩ | ⟨hw, rfl, rfl⟩
  · obtain ⟨ht, hd⟩ := takeWhile_run (u := u) hstop
    rw [hd] at hl'
    rw [ht] at hat hp ⊢
    have hafter : context.after (.word (c :: u.takeWhile isWordContinue)) =
        .identifier (isEscape (c :: u.takeWhile isWordContinue)) := by
      simp [Context.after, hctx, isEscape]
    rw [hafter, begun_word] at hp
    obtain ⟨g, gs'', rfl, h1, h2, h3, h4⟩ := lexer_run _ _ rest gs' _ le_rfl
      (fun d hd => hu d ((List.dropWhile_suffix _).subset hd)) hrest hl' hp
    refine ⟨.word (c :: u.takeWhile isWordContinue) :: g, gs'', rfl, h1, ?_, ?_, rfl, ?_, ?_⟩
    · simp only [pieces, List.map_cons, whole_cons]
      exact ⟨by simp [Lexeme.kind], h2⟩
    · simp only [pieces, List.map_cons, texts_cons, Lexeme.piece_text, Lexeme.text] at h3 ⊢
      rw [h3, List.cons_append, List.takeWhile_append_dropWhile]
    · by_cases hend : u.dropWhile isWordContinue = []
      · have hall : u.takeWhile isWordContinue = u := by
          have := List.takeWhile_append_dropWhile (p := isWordContinue) (l := u)
          rwa [hend, List.append_nil] at this
        exact Or.inr (Or.inl (by simp [pieces, lead, Lexeme.kind, Kind.lead, hall]))
      · obtain ⟨d, hd1, hd2⟩ := head_of_wordEnd hu hend
        have htexts := lexer_texts _ _ _ le_rfl hl'
        have hhead : ((g ++ gs'').flatMap Lexeme.text).head? = some d := by
          rw [htexts]
          obtain ⟨x, w, hx⟩ := List.exists_cons_of_ne_nil hend
          rw [hx] at hd1 ⊢
          exact hd1
        simp only [portableAt, hhead, Option.any_some, hd2, decide_true, Bool.not_true,
          Bool.or_false, Bool.or_eq_true, Bool.not_eq_true'] at hat
        refine hat.imp_right fun hat => Or.inr ⟨some (c :: u.takeWhile isWordContinue), rfl, ?_, rfl⟩
        intro w hw
        cases hw
        exact hat
    · by_cases hend : u.dropWhile isWordContinue = []
      · have hall : u.takeWhile isWordContinue = u := by
          have := List.takeWhile_append_dropWhile (p := isWordContinue) (l := u)
          rwa [hend, List.append_nil] at this
        simpa [hend, hall] using h4
      · have hne : u ≠ [] := by rintro rfl; exact hend rfl
        have hno : isEscape (c :: u) = false := by simp [isEscape, hne]
        simpa [hno, List.isEmpty_eq_false_iff.mpr hend] using h4
  · have hhigh : 0x80 ≤ c.toNat := by simpa [isIdentStart, hw] using hc
    have hafter : context.after (.symbol c) = .identifier false := by
      simp [Context.after, hhigh]
    rw [hafter, begun_symbol] at hp
    obtain ⟨g, gs'', rfl, h1, h2, h3, h4⟩ := lexer_run _ u rest gs' _ le_rfl hu hrest hl' hp
    refine ⟨.symbol c :: g, gs'', rfl, h1, ?_, ?_, rfl, ?_, ?_⟩
    · simp only [pieces, List.map_cons, whole_cons]
      exact ⟨by simp [Lexeme.kind], h2⟩
    · simp only [pieces, List.map_cons, texts_cons, Lexeme.piece_text, Lexeme.text] at h3 ⊢
      rw [h3]; rfl
    · exact Or.inr (Or.inr ⟨none, rfl, fun w hw => by simp at hw, rfl⟩)
    · have hno : isEscape (c :: u) = false := by
        have hce : c ≠ 'e' ∧ c ≠ 'E' := by
          constructor <;> rintro rfl <;> exact absurd hhigh (by decide)
        simp [isEscape, hce.1, hce.2]
      rw [hno]
      simpa using h4

/-! ### The two readings -/

/-- The lexemes of the server as pieces of statements. -/
def pgPieces (ps : List PgLexeme) : List (Piece Char (List Char)) := ps.map PgLexeme.piece

/-- The state of the server where the gate begins a lexeme in this context. -/
def Sync : Context → Option Bool → List Char → Prop
  | .apart, st, _ => st = none
  | .escaped newline, st, _ => st = some newline
  | .identifier escape, st, text =>
    st = none ∧ StopsAt isIdentContinue text ∧ (escape = true → text.head? ≠ some '\'')

theorem Sync.not_inIdentifier {context : Context} {st : Option Bool} {c : Char} {text : List Char}
    (h : Sync context st (c :: text)) (hc : isIdentContinue c = true) :
    context.inIdentifier = false := by
  cases context with
  | identifier e =>
    have := h.2.1 c rfl
    rw [hc] at this
    exact absurd this (by simp)
  | apart => rfl
  | escaped _ => rfl

/-- A quote opens an escaped literal for the gate's context exactly when it does for the server. -/
theorem Sync.escapes {context : Context} {st : Option Bool} {text : List Char}
    (h : Sync context st ('\'' :: text)) : context.escapes = true ↔ st = some true := by
  cases context with
  | apart => rw [show st = none from h]; simp [Context.escapes]
  | escaped newline => rw [show st = some newline from h]; simp [Context.escapes]
  | identifier e =>
    obtain ⟨h1, -, h3⟩ := h
    have he : e ≠ true := fun he => h3 he rfl
    simp [h1, Context.escapes, he]

theorem Sync.space {context : Context} {st : Option Bool} {c : Char} {text : List Char}
    (h : Sync context st (c :: text)) :
    Sync (context.after (.space c)) (st.map (· || isLineEnd c)) text := by
  cases context with
  | apart => rw [show st = none from h]; rfl
  | escaped newline => rw [show st = some newline from h]; rfl
  | identifier e => rw [h.1]; rfl

theorem Sync.lineComment {context : Context} {st : Option Bool} {text text' body : List Char}
    (h : Sync context st text) : Sync (context.after (.lineComment body)) st text' := by
  cases context with
  | apart => exact h
  | escaped newline => exact h
  | identifier e => exact h.1

/-- The readings agree from here on. -/
def AgreeFrom (begun : Bool) (context : Context) (st : Option Bool) (text : List Char) : Prop :=
  Sync context st text → ∀ gs, lexer.lex () text = some gs → portable begun context gs = true →
    ∃ ps, pgLexer.lex st text = some ps ∧ Agree Stray begun (pieces gs) (pgPieces ps)

/-- The gate and the server read the same piece. -/
theorem agree_same {begun : Bool} {l : Lexeme} {p : PgLexeme} {gs : List Lexeme}
    {ps : List PgLexeme} {st st' : Option Bool} {c : Char} {rest r : List Char}
    (heq : l.piece = p.piece) (hk : p.piece.kind ≠ .separator)
    (hn : pgNext st c rest = some (p, st', r)) (hps : pgLexer.lex st' r = some ps)
    (ha : Agree Stray (l.kind.begun begun) (pieces gs) (pgPieces ps)) :
    ∃ ps, pgLexer.lex st (c :: rest) = some ps ∧
      Agree Stray begun (pieces (l :: gs)) (pgPieces ps) := by
  refine ⟨p :: ps, Lexer.lex_of_next hn hps, ?_⟩
  rw [← Lexeme.piece_kind, heq] at ha
  simp only [pieces, pgPieces, List.map_cons, heq]
  exact Agree.same hk ha

/-- The lexemes of the server spell the text. -/
theorem pgLexer_texts : ∀ (n : ℕ) (text : List Char) (st : Option Bool) (ps : List PgLexeme),
    text.length ≤ n → pgLexer.lex st text = some ps → texts (pgPieces ps) = text
  | _, [], st, ps, _, h => by
    rw [Lexer.lex_nil, Option.some.injEq] at h
    rw [← h]; rfl
  | 0, c :: rest, st, ps, hn, _ => by simp at hn
  | n + 1, c :: rest, st, ps, hn, h => by
    obtain ⟨l, st', r, ps', hnext, hl, rfl⟩ := Lexer.lex_eq_some h
    have hs := (pgNext_suffix hnext).length_le
    simp only [List.length_cons] at hn
    simp only [pgPieces, List.map_cons, texts_cons]
    rw [show texts (ps'.map PgLexeme.piece) = r from pgLexer_texts n r st' ps' (by omega) hl]
    obtain ⟨t, ht, rfl⟩ := pgNext_text hnext
    rw [show l.piece.text = c :: t from ht, List.cons_append]

theorem pgNext_ident {st : Option Bool} {c : Char} {rest : List Char} (hc : isIdentStart c = true) :
    pgNext st c rest =
      if (c = 'e' ∨ c = 'E') ∧ rest.head? = some '\'' then
        (readEscaped rest.tail).map fun p => (.escapeString [c] p.1, some false, p.2)
      else some (.identifier (c :: rest.takeWhile isIdentContinue), none,
        rest.dropWhile isIdentContinue) := by
  have hs := not_mem_specials (isIdentContinue_of_start hc)
  simp only [specials, List.mem_cons, List.not_mem_nil, or_false, not_or] at hs
  obtain ⟨s1, s2, s3, s4, s5, s6, s7, s8, s9, s10, s11, -, -⟩ := hs
  have hsp : isSqlSpace c = false := by simp [isSqlSpace, s1, s2, s3, s4, s5, s6]
  unfold pgNext
  simp [hsp, s7, s8, s9, s10, s11, hc]

/-- At a quote the gate reads a string. -/
theorem reads_quote {s r : List Char} {l : Lexeme} (h : Reads ('\'' :: s) l r) :
    ∃ content, l = .string content ∧ skipDelimited '\'' s = some (content, r) := by
  cases h with
  | space h => exact absurd h (by decide)
  | string h => exact ⟨_, rfl, h⟩
  | word h => exact absurd h (by decide)
  | symbol h => exact absurd rfl h.2.2.2.2.1

theorem stray_of_escape {c : Char} (hc : c = 'e' ∨ c = 'E') : Stray (some [c]) := by
  intro w hw
  cases hw
  rcases hc with rfl | rfl <;> decide

/-- An identifier, and the literal it leads in. -/
theorem agree_identifier {begun : Bool} {context : Context} {st : Option Bool} {c : Char}
    {rest : List Char} {gs : List Lexeme} (hc : isIdentStart c = true)
    (hs : Sync context st (c :: rest)) (hl : lexer.lex () (c :: rest) = some gs)
    (hp : portable begun context gs = true)
    (ih : ∀ r context' st', r.length ≤ rest.length → AgreeFrom true context' st' r) :
    ∃ ps, pgLexer.lex st (c :: rest) = some ps ∧ Agree Stray begun (pieces gs) (pgPieces ps) := by
  have hctx := hs.not_inIdentifier (isIdentContinue_of_start hc)
  have hstop := stopsAt_dropWhile isIdentContinue rest
  have hlen := List.length_dropWhile_le isIdentContinue rest
  have hmem : ∀ d ∈ rest.takeWhile isIdentContinue, isIdentContinue d = true := fun d hd =>
    List.mem_takeWhile_imp hd
  have hl' : lexer.lex () (c :: (rest.takeWhile isIdentContinue ++ rest.dropWhile isIdentContinue)) =
      some gs := by rwa [List.takeWhile_append_dropWhile]
  obtain ⟨g, gs', rfl, h1, h2, h3, hlead, h4, h5⟩ := lexer_identifier hctx hc hmem hstop hl' hp
  by_cases hq : (c = 'e' ∨ c = 'E') ∧ rest.head? = some '\''
  · -- the identifier is the lead-in of an escaped literal
    have hrest := eq_cons_of_head? hq.2
    have htake : rest.takeWhile isIdentContinue = [] := by rw [hrest]; rfl
    have hdrop : rest.dropWhile isIdentContinue = '\'' :: rest.tail := by rw [hrest]; rfl
    rw [htake] at h3 h4 h5
    rw [hdrop] at h1
    obtain ⟨l, r, gs'', hr, hl'', rfl⟩ := lexer_cons h1
    obtain ⟨content, rfl, hskip⟩ := reads_quote hr
    have hesc : isEscape [c] = true := by
      rcases hq.1 with rfl | rfl <;> rfl
    rw [hesc] at h5
    simp only [portable, Bool.and_eq_true] at h5
    have hread := readEscaped_of_skip hskip (by simpa [portableAt, Context.escapes] using h5.1)
    have hrlen : r.length ≤ rest.length := by
      have := hr.shorter
      rw [hrest]
      simp only [List.length_cons] at this ⊢
      omega
    obtain ⟨ps, hps, hag⟩ := ih r (.escaped false) (some false) hrlen rfl gs'' hl'' h5.2
    refine ⟨.escapeString [c] content :: ps, Lexer.lex_of_next ?_ hps, ?_⟩
    · show pgNext st c rest = some (.escapeString [c] content, some false, r)
      rw [pgNext_ident hc, if_pos hq, hread]
      rfl
    · rw [pieces, List.map_append, List.map_cons, ← List.singleton_append, ← List.append_assoc]
      refine .block (p := [PgLexeme.piece (.escapeString [c] content)]) ?_
        (by simp [PgLexeme.kind]) ?_ (h4.imp_right fun h4 => ?_) ?_
      · intro q hq
        rcases List.mem_append.mp hq with hq | hq
        · exact h2 q hq
        · rw [List.mem_singleton.mp hq]; simp [Lexeme.kind]
      · rw [texts_append, show texts (g.map Lexeme.piece) = [c] from h3]
        simp [Lexeme.text, PgLexeme.text]
      · rw [lead_append]
        rcases h4 with h4 | ⟨x, h4, hx, -⟩
        · rw [show lead (g.map Lexeme.piece) = some (some [c]) from h4]
          exact Or.inr ⟨_, rfl, stray_of_escape hq.1, rfl⟩
        · rw [show lead (g.map Lexeme.piece) = some x from h4]
          exact Or.inr ⟨x, rfl, hx, rfl⟩
      · rw [lead_append, Option.isSome_or, show (lead (g.map Lexeme.piece)).isSome = true from hlead,
          Bool.true_or, Bool.or_true]
        exact hag
  · have hsync : Sync (.identifier (isEscape (c :: rest.takeWhile isIdentContinue))) none
        (rest.dropWhile isIdentContinue) := by
      refine ⟨rfl, hstop, fun he hh => hq ?_⟩
      simp only [isEscape, Bool.or_eq_true, beq_iff_eq, List.cons.injEq] at he
      have htake : rest.takeWhile isIdentContinue = [] := by rcases he with h | h <;> exact h.2
      refine ⟨he.imp And.left And.left, ?_⟩
      have := List.takeWhile_append_dropWhile (p := isIdentContinue) (l := rest)
      rw [htake, List.nil_append] at this
      rwa [this] at hh
    obtain ⟨ps, hps, hag⟩ := ih _ _ none hlen hsync gs' h1 h5
    refine ⟨.identifier (c :: rest.takeWhile isIdentContinue) :: ps,
      Lexer.lex_of_next ?_ hps, ?_⟩
    · show pgNext st c rest = some (.identifier (c :: rest.takeWhile isIdentContinue), none,
        rest.dropWhile isIdentContinue)
      rw [pgNext_ident hc, if_neg hq]
    · rw [pieces, List.map_append, pgPieces, List.map_cons, ← List.singleton_append]
      refine .block h2 (by simp [PgLexeme.kind]) ?_ h4 ?_
      · rw [show texts (g.map Lexeme.piece) = _ from h3]
        simp [PgLexeme.text]
      · rw [show (lead (g.map Lexeme.piece)).isSome = true from hlead, Bool.or_true]
        exact hag

theorem toNat_lt_of_not_start {c : Char} (hc : isIdentStart c = false) : c.toNat < 0x80 := by
  simp only [isIdentStart, Bool.or_eq_false_iff, decide_eq_false_iff_not, not_le] at hc
  exact hc.2

theorem sync_symbol {context : Context} {st : Option Bool} {c : Char} {text rest : List Char}
    (hs : Sync context st (c :: rest)) (hc : isIdentStart c = false) :
    Sync (context.after (.symbol c)) none text := by
  have hlt := toNat_lt_of_not_start hc
  have hin : (context.inIdentifier && isIdentContinue c) = false := by
    by_cases hcont : isIdentContinue c = true
    · rw [hs.not_inIdentifier hcont, Bool.false_and]
    · simp [hcont]
  have : context.after (.symbol c) = .apart := by
    simp only [Context.after, hin]
    rw [if_neg (by omega)]
    rfl
  rw [this]
  rfl

theorem dollar_of_portable {begun : Bool} {context : Context} {st : Option Bool} {c : Char}
    {rest : List Char} {gs : List Lexeme} (hs : Sync context st (c :: rest))
    (ht : gs.flatMap Lexeme.text = rest) (hat : portableAt begun context (.symbol c) gs = true) : c = '$' → readDollarTag rest = none := by
  rintro rfl
  have hctx := hs.not_inIdentifier (by decide)
  simpa [portableAt, hctx, ht] using hat

theorem pgNext_of_symbol {st : Option Bool} {c : Char} {rest : List Char} (h : IsSymbol c rest)
    (hc : isIdentStart c = false) (hd : c = '$' → readDollarTag rest = none) :
    pgNext st c rest = some (.symbol c, none, rest) := by
  obtain ⟨h1, h2, h3, h4, h5, h6, -, -, -⟩ := h
  unfold pgNext
  rw [if_neg (by simp [h1]), if_neg h2, if_neg h3, if_neg h4, if_neg h5, if_neg h6,
    if_neg (by simp [hc])]
  by_cases hdol : c = '$'
  · rw [if_pos hdol, hd hdol]
  · rw [if_neg hdol]

/-- A quote the server does not know: it reads the text in pieces and is then in step again. -/
theorem agree_whole {begun : Bool} {l : Lexeme} {gs : List Lexeme} {ps : List PgLexeme}
    {st : Option Bool} {a z : Char} {content r : List Char} (hl : l.text = a :: (content ++ [z]))
    (hk : l.kind = .other) (ha : IsStop a) (hz : IsStop z) (hw : readsWhole l.text = true)
    (hps : pgLexer.lex none r = some ps)
    (hag : Agree Stray (l.kind.begun begun) (pieces gs) (pgPieces ps)) :
    ∃ ps, pgLexer.lex st (a :: (content ++ z :: r)) = some ps ∧
      Agree Stray begun (pieces (l :: gs)) (pgPieces ps) := by
  obtain ⟨ls, hls, hsep, hlast⟩ : ∃ ls, pgLexer.lex none (a :: (content ++ [z])) = some ls ∧
      (∀ x ∈ ls, x ≠ .separator) ∧ ls.getLast? = some (.symbol z) := by
    unfold readsWhole at hw
    rw [hl] at hw
    obtain ⟨ls, hls, h⟩ := (Option.any_eq_true _ _).mp hw
    rw [Bool.and_eq_true, List.all_eq_true] at h
    refine ⟨ls, hls, fun x hx => by simpa using h.1 x hx, ?_⟩
    have hend : (a :: (content ++ [z])).getLast? = some z := by
      rw [← List.cons_append, List.getLast?_concat]
    simpa [hend] using h.2
  have hstate : ∀ t, pgLexer.lex st (a :: t) = pgLexer.lex none (a :: t) := by
    intro t
    have hn : ∀ s', pgLexer.next s' a t = some (.symbol a, none, t) := fun s' => ha.2.2.2 s' t
    rw [pgLexer.lex_cons, pgLexer.lex_cons, hn, hn]
  have hread := lex_append hz hps _ (a :: content) none ls le_rfl hls hlast
  refine ⟨ls ++ ps, ?_, ?_⟩
  · rw [hstate]
    simpa using hread
  · have hfirst : ∃ ls', ls = .symbol a :: ls' := by
      obtain ⟨l', s', r', ls', hn, -, rfl⟩ := Lexer.lex_eq_some hls
      rw [show pgLexer.next none a _ = _ from ha.2.2.2 none _] at hn
      cases hn
      exact ⟨ls', rfl⟩
    obtain ⟨ls', rfl⟩ := hfirst
    have htexts : texts (pgPieces (.symbol a :: ls')) = l.text := by
      rw [hl]
      exact pgLexer_texts _ _ _ _ le_rfl hls
    rw [pgPieces, List.map_append]
    refine .block (g := [l.piece]) (by simp [hk]) ?_ ?_ (Or.inr (Or.inl ?_)) ?_
    · intro q hq
      obtain ⟨x, hx, rfl⟩ := List.mem_map.mp hq
      have := hsep x hx
      cases x <;> simp_all [PgLexeme.kind]
    · rw [texts_cons, texts_nil, List.append_nil]
      exact htexts.symm
    · simp [lead, hk, Kind.lead, PgLexeme.kind]
    · simpa [lead, hk, Kind.lead, Kind.begun, pieces, pgPieces] using hag

/-- **The simulation**: in step at the beginning of a lexeme, the gate and the server cut the rest of
a portable text alike. -/
theorem lex_agree : ∀ (n : ℕ) (text : List Char) (begun : Bool) (context : Context)
    (st : Option Bool), text.length ≤ n → AgreeFrom begun context st text
  | _, [], begun, context, st, _ => by
    intro _ gs hl _
    rw [Lexer.lex_nil, Option.some.injEq] at hl
    subst hl
    exact ⟨[], rfl, .nil⟩
  | 0, c :: rest, _, _, _, hn => by simp at hn
  | n + 1, c :: rest, begun, context, st, hn => by
    intro hs gs hl hp
    simp only [List.length_cons] at hn
    by_cases hc : isIdentStart c = true
    · exact agree_identifier hc hs hl hp fun r context' st' hr =>
        lex_agree n r true context' st' (by omega)
    have hc' : isIdentStart c = false := by simpa using hc
    obtain ⟨l, r, gs', hr, hl', rfl⟩ := lexer_cons hl
    have hlen : r.length ≤ n := by
      have := hr.shorter
      simp only [List.length_cons] at this
      omega
    simp only [portable, Bool.and_eq_true] at hp
    obtain ⟨hat, hp⟩ := hp
    have ih : ∀ st', Sync (context.after l) st' r → ∃ ps, pgLexer.lex st' r = some ps ∧
        Agree Stray (l.kind.begun begun) (pieces gs') (pgPieces ps) := fun st' hsync =>
      lex_agree n r _ _ st' hlen hsync gs' hl' hp
    cases hr with
    | space hsp =>
      obtain ⟨ps, h1, h2⟩ := ih _ hs.space
      exact agree_same (p := .space c) rfl (by simp [PgLexeme.kind]) (by simp [pgNext, hsp]) h1 h2
    | separator =>
      obtain ⟨ps, h1, h2⟩ := ih none rfl
      exact ⟨.separator :: ps, Lexer.lex_of_next (by rfl) h1, .separator h2⟩
    | @lineComment s body r h =>
      obtain ⟨ps, h1, h2⟩ := ih st hs.lineComment
      obtain ⟨h3, h4⟩ := takeWhile_of_skip h
      refine agree_same (p := .lineComment body) rfl (by simp [PgLexeme.kind]) ?_ h1 h2
      rw [← h3, ← h4]
      rfl
    | @blockComment s body r h =>
      obtain ⟨ps, h1, h2⟩ := ih none rfl
      have hread := readNested_of_skip h (by simpa [portableAt] using hat)
      refine agree_same (p := .blockComment body) rfl (by simp [PgLexeme.kind]) ?_ h1 h2
      show (readNested 0 s).map _ = _
      rw [hread]
      rfl
    | @string s content r h =>
      by_cases he : context.escapes = true
      · obtain ⟨ps, h1, h2⟩ := ih (some false) (by simp [Context.after, he, Sync])
        have hread := readEscaped_of_skip h (by simpa [portableAt, he] using hat)
        have hst := hs.escapes.mp he
        refine agree_same (p := .escapeString [] content) rfl (by simp [PgLexeme.kind]) ?_ h1 h2
        rw [hst]
        show (readEscaped rest).map _ = _
        rw [hread]
        rfl
      · obtain ⟨ps, h1, h2⟩ := ih none (by simp [Context.after, he, Sync])
        have hst : st ≠ some true := fun h0 => he (hs.escapes.mpr h0)
        refine agree_same (p := .string content) rfl (by simp [PgLexeme.kind]) ?_ h1 h2
        show (if st = some true then _ else (readQuoted '\'' rest).map _) = _
        rw [if_neg hst, readQuoted_of_skip h]
        rfl
    | @quoted s content r h =>
      obtain ⟨ps, h1, h2⟩ := ih none rfl
      refine agree_same (p := .quoted content) rfl (by simp [PgLexeme.kind]) ?_ h1 h2
      show (readQuoted '"' rest).map _ = _
      rw [readQuoted_of_skip h]
      rfl
    | @backtick s content r h =>
      obtain ⟨ps, h1, h2⟩ := ih none rfl
      rw [(skipDelimited_eq h).1]
      exact agree_whole rfl rfl isStop_backquote isStop_backquote hat h1 h2
    | @bracket s content r h =>
      obtain ⟨ps, h1, h2⟩ := ih none rfl
      rw [skipBracketIdentifier_eq h]
      exact agree_whole rfl rfl isStop_openBracket isStop_closeBracket hat h1 h2
    | word h =>
      exact absurd hc' (by simp [isIdentStart, h])
    | symbol h =>
      obtain ⟨ps, h1, h2⟩ := ih none (sync_symbol hs hc')
      refine agree_same (p := .symbol c) rfl (by simp [PgLexeme.kind]) ?_ h1 h2
      exact pgNext_of_symbol h hc' (dollar_of_portable hs (lexer_texts _ _ _ le_rfl hl') hat)

/-! ### The gates -/

/-- The three gates a text may be submitted to. -/
inductive Gate
  | readQuery
  | mutation
  | migration
  deriving DecidableEq, Repr

/-- `maxMigrationScriptBytes`. -/
def maxMigrationScriptBytes : ℕ := 2 ^ 20

def Gate.accepts : Gate → GoString → Bool
  | .readQuery, text => validateReadQuery text
  | .mutation, text => validateMutationStatement text
  | .migration, text => validateMigrationScript text maxMigrationScriptBytes == .ok ()

/-- The words a statement may begin with. -/
def Gate.words : Gate → List String
  | .readQuery => readWords
  | .mutation => mutationWords
  | .migration => migrationStatementWords

def Gate.maxBytes : Gate → ℕ
  | .readQuery => maxPublicStatementBytes
  | .mutation => maxPublicStatementBytes
  | .migration => maxMigrationScriptBytes

/-- The differences between the gate and the server stay without effect on the text: the tokenizer
meets none, and no trigger body of a migration holds a semicolon, which ends a statement for the
server. -/
def Gate.portable (g : Gate) (text : GoString) : Bool :=
  (lexemes text g.maxBytes).any fun ls =>
    Agreement.portable false .apart ls && (g != .migration || triggersWhole true (tokens ls))

example : Gate.migration.portable (.utf8 "CREATE TRIGGER t BEGIN END; DROP TABLE x") = true ∧
    Gate.readQuery.portable (.utf8 "SELECT createé FROM t") = true := by
  decide +kernel

/-- The statements the gate's tokenizer sees. -/
def Gate.statements (g : Gate) (text : GoString) : Option (List (Statement Char (List Char))) :=
  (lexemes text g.maxBytes).map fun ls => Lexing.statements (pieces ls)

/-- The statements the server sees. -/
def pgStatements (text : GoString) : Option (List (Statement Char (List Char))) :=
  (pgLexer.lex none text.runes).map fun ps => Lexing.statements (pgPieces ps)

theorem containsFold_statementWords {g : Gate} {w : List Char} (h : containsFold g.words w = true) :
    containsFold statementWords w = true := by
  simp only [containsFold, List.any_eq_true] at h ⊢
  obtain ⟨x, hx, he⟩ := h
  refine ⟨x, ?_, he⟩
  simp only [statementWords, List.mem_append]
  cases g with
  | readQuery => exact Or.inl (Or.inl hx)
  | mutation => exact Or.inl (Or.inr hx)
  | migration => exact Or.inr hx

/-- The statements of an accepted portable text as the gate sees them. -/
theorem accepted_statements {g : Gate} {text : GoString} (ha : g.accepts text = true)
    (hp : g.portable text = true) :
    ∃ gs, lexemes text g.maxBytes = some gs ∧ portable false .apart gs = true ∧
      (∀ s ∈ Lexing.statements (pieces gs), ∃ w, s.first = some w ∧ containsFold g.words w = true) ∧
      (g ≠ .migration → (Lexing.statements (pieces gs)).length = 1) := by
  obtain ⟨gs, hgs, hpg⟩ := (Option.any_eq_true _ _).mp hp
  rw [Bool.and_eq_true] at hpg
  refine ⟨gs, hgs, hpg.1, ?_⟩
  have one : ∀ {allowed : List String} {forbidden : String},
      validatePublicStatement text allowed forbidden = true →
      lexemes text maxPublicStatementBytes = some gs →
      (∀ s ∈ Lexing.statements (pieces gs), ∃ w, s.first = some w ∧ containsFold allowed w = true) ∧
        (Lexing.statements (pieces gs)).length = 1 := by
    intro allowed forbidden hv hl
    obtain ⟨ls, t, w, hl', hs, hw⟩ := validatePublicStatement_one hv
    rw [hl, Option.some.injEq] at hl'
    subst hl'
    rw [hs]
    refine ⟨fun s hmem => ?_, rfl⟩
    rw [List.mem_singleton.mp hmem]
    exact ⟨w, rfl, hw⟩
  cases g with
  | readQuery =>
    obtain ⟨h1, h2⟩ := one ha hgs
    exact ⟨h1, fun _ => h2⟩
  | mutation =>
    obtain ⟨h1, h2⟩ := one ha hgs
    exact ⟨h1, fun _ => h2⟩
  | migration =>
    have hv : validateMigrationScript text maxMigrationScriptBytes = .ok () := by
      simpa [Gate.accepts] using ha
    obtain ⟨ls, hl, hs⟩ := validateMigrationScript_starts hv
    rw [show lexemes text maxMigrationScriptBytes = some gs from hgs, Option.some.injEq] at hl
    subst hl
    exact ⟨hs (by simpa using hpg.2), fun h => absurd rfl h⟩

/-- **The gates read as the server does**: on an accepted portable text the server sees the
statements and first words the gate saw, each with a permitted first word, and exactly one of them in
a query or mutation. -/
theorem accepted_statements_agree (g : Gate) (text : GoString) (ha : g.accepts text = true)
    (hp : g.portable text = true) :
    ∃ ss, g.statements text = some ss ∧ pgStatements text = some ss ∧
      (∀ s ∈ ss, ∃ w, s.first = some w ∧ containsFold g.words w = true) ∧
      (g ≠ .migration → ss.length = 1) := by
  obtain ⟨gs, hgs, hport, hwords, hone⟩ := accepted_statements ha hp
  refine ⟨Lexing.statements (pieces gs), by rw [Gate.statements, hgs]; rfl, ?_, hwords, hone⟩
  have hlex : lexer.lex () text.runes = some gs := by
    unfold lexemes at hgs
    split_ifs at hgs
    exact hgs
  obtain ⟨ps, hps, hagree⟩ := lex_agree _ text.runes false .apart none le_rfl rfl gs hlex hport
  have hsame : Lexing.statements (pieces gs) = Lexing.statements (pgPieces ps) := by
    refine hagree.statements fun s hs hstray => ?_
    obtain ⟨w, hw, hc⟩ := hwords s hs
    have := hstray w hw
    rw [containsFold_statementWords hc] at this
    exact absurd this (by simp)
  rw [pgStatements, hps, hsame]
  rfl

theorem accepted_statements_agree_subscript :
    ∃ ss, Gate.readQuery.statements (.utf8 "SELECT a[1] FROM t WHERE b = 'x;y' -- ;") = some ss ∧
      pgStatements (.utf8 "SELECT a[1] FROM t WHERE b = 'x;y' -- ;") = some ss ∧
      (∀ s ∈ ss, ∃ w, s.first = some w ∧ containsFold Gate.readQuery.words w = true) ∧
      (Gate.readQuery ≠ .migration → ss.length = 1) :=
  accepted_statements_agree .readQuery (.utf8 "SELECT a[1] FROM t WHERE b = 'x;y' -- ;")
    (by decide +kernel) (by decide +kernel)

/-- The first words of the statements the server sees. -/
def pgFirstWords (text : String) : Option (List (Option String)) :=
  (pgStatements (.utf8 text)).map fun ss => ss.map fun s => s.first.map String.ofList

/-- Texts the gates accept as one permitted statement (or, the last, as one trigger) that the server
reads otherwise: by a bracket, a backtick, an escaped quote, a dollar quote, a nested comment, a
letter beyond ASCII and a trigger body. -/
theorem accepted_texts_hide_statements :
    (Gate.readQuery.accepts (.utf8 "SELECT a[1; DELETE FROM t --]") = true ∧
      pgFirstWords "SELECT a[1; DELETE FROM t --]" = some [some "SELECT", some "DELETE"]) ∧
    (Gate.readQuery.accepts (.utf8 "SELECT `; DELETE FROM t --`") = true ∧
      pgFirstWords "SELECT `; DELETE FROM t --`" = some [some "SELECT", some "DELETE"]) ∧
    (Gate.readQuery.accepts (.utf8 "SELECT E'\\' , '; DELETE FROM t; --'") = true ∧
      pgFirstWords "SELECT E'\\' , '; DELETE FROM t; --'" = some [some "SELECT", some "DELETE"]) ∧
    (Gate.readQuery.accepts (.utf8 "SELECT $$'$$; DELETE FROM t; --'") = true ∧
      pgFirstWords "SELECT $$'$$; DELETE FROM t; --'" = some [some "SELECT", some "DELETE"]) ∧
    (Gate.readQuery.accepts (.utf8 "SELECT 1 /* /* */ ' */; DELETE FROM t; --'") = true ∧
      pgFirstWords "SELECT 1 /* /* */ ' */; DELETE FROM t; --'" =
        some [some "SELECT", some "DELETE"]) ∧
    (Gate.readQuery.accepts (.utf8 "SELECTé 1") = true ∧
      pgFirstWords "SELECTé 1" = some [some "SELECTé"]) ∧
    (Gate.migration.accepts (.utf8 "CREATE TRIGGER t BEGIN; COMMIT; END") = true ∧
      pgFirstWords "CREATE TRIGGER t BEGIN; COMMIT; END" =
        some [some "CREATE", some "COMMIT", some "END"]) := by
  decide +kernel

end Modary.Sql.Agreement
