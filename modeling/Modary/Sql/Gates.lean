import Modary.Sql.Tokens

/-! # The SQL gates

The read-query and the mutation gate (`validatePublicStatement`) and the migration-script gate
(`ValidateMigrationScript`), on the tokens of a text. An error is the text of the source's error.
Each gate ends with what it says about the statements of a text it accepts. -/

namespace Modary.Sql.Gates

open Modary.Lib.GoText Modary.Lib.Lexing Modary.Sql.Tokens

/-- An ASCII letter in lower case. -/
def lowerAscii (c : Char) : Char := if isUpper c then Char.ofNat (c.toNat + 32) else c

/-- `strings.EqualFold` with an ASCII word without `k` and `s`, or between ASCII texts. -/
def equalFold (a : List Char) (b : String) : Bool := a.map lowerAscii == b.toList.map lowerAscii

/-- `HasTemporarySchemaReference`. -/
def hasTemporarySchemaReference : List Token → Bool
  | [] => false
  | [_] => false
  | token :: following :: tokens =>
    let identifier := if token.identifier ≠ [] then token.identifier
      else if token.string ≠ [] then token.string else token.word
    (equalFold identifier "temp" && following.symbol == ['.']) ||
      hasTemporarySchemaReference (following :: tokens)

/-! ### Queries and mutations -/

/-- `containsFold`. -/
def containsFold (values : List String) (candidate : List Char) : Bool :=
  values.any (equalFold candidate)

/-- The loop of `validatePublicStatement`: the number of statements closed so far and whether one is
open. -/
def publicLoop (allowed : List String) (forbiddenWord : String) :
    ℕ → Bool → List Token → Option (ℕ × Bool)
  | statements, inStatement, [] => some (statements, inStatement)
  | statements, inStatement, token :: tokens =>
    if token.separator then
      if !inStatement then none else publicLoop allowed forbiddenWord (statements + 1) false tokens
    else if !inStatement &&
        (statements != 0 || token.word == [] || !containsFold allowed token.word) then none
    else if forbiddenWord != "" && equalFold token.word forbiddenWord then none
    else publicLoop allowed forbiddenWord statements true tokens

def maxPublicStatementBytes : ℕ := 2 ^ 20

/-- `validatePublicStatement` accepts the text. -/
def validatePublicStatement (query : GoString) (allowed : List String) (forbiddenWord : String) :
    Bool :=
  match tokenize query maxPublicStatementBytes with
  | none => false
  | some tokens =>
    !hasTemporarySchemaReference tokens &&
      match publicLoop allowed forbiddenWord 0 false tokens with
      | none => false
      | some (statements, inStatement) => (if inStatement then statements + 1 else statements) == 1

def readWords : List String := ["SELECT"]

def mutationWords : List String := ["INSERT", "UPDATE", "DELETE"]

/-- `validateReadQuery`. -/
def validateReadQuery (query : GoString) : Bool := validatePublicStatement query readWords ""

/-- `validateMutationStatement`. -/
def validateMutationStatement (query : GoString) : Bool :=
  validatePublicStatement query mutationWords "ROLLBACK"

/-! ### Migration scripts -/

def migrationStatementWords : List String := ["ALTER", "CREATE", "DELETE", "DROP", "INSERT", "UPDATE"]

/-- `equalWord`. -/
def equalWord (token : Token) (word : String) : Bool := token.word != [] && equalFold token.word word

/-- The words `classifyCreate` looks at: at most `n`, up to the next separator. -/
def leadingWords : ℕ → List Token → List (List Char)
  | 0, _ => []
  | _, [] => []
  | n + 1, token :: tokens =>
    if token.separator then []
    else if token.word != [] then token.word :: leadingWords n tokens
    else leadingWords (n + 1) tokens

/-- `classifyCreate` on the tokens of a statement and what follows: a trigger, a temporary object. -/
def classifyCreate : List Token → Bool × Bool
  | [] => (false, false)
  | token :: tokens =>
    if !equalWord token "CREATE" then (false, false)
    else
      match leadingWords 3 tokens with
      | [] => (false, false)
      | first :: words =>
        if equalFold first "TEMP" || equalFold first "TEMPORARY" then
          (words.head?.any (equalFold · "TRIGGER"), true)
        else (equalFold first "TRIGGER", false)

def errRollback : String := "SQL text is invalid: ROLLBACK policy is not allowed in migrations"

/-- `consumeOrdinaryStatement`: the tokens behind the statement. -/
def consumeOrdinaryStatement : List Token → Except String (List Token)
  | [] => .ok []
  | token :: tokens =>
    if equalWord token "ROLLBACK" then .error errRollback
    else if token.separator then .ok tokens
    else consumeOrdinaryStatement tokens

/-- The state of `consumeTrigger`. -/
structure TriggerState where
  caseDepth : ℕ := 0
  body : Bool := false
  atBodyStatementStart : Bool := false
  deriving DecidableEq, Repr

/-- `consumeTrigger`: the tokens behind the trigger. -/
def consumeTrigger (state : TriggerState) : List Token → Except String (List Token)
  | [] => .error "SQL text is invalid: unterminated trigger body"
  | token :: tokens =>
    if equalWord token "ROLLBACK" then .error errRollback
    else if !state.body then
      if token.separator then .error "SQL text is invalid: trigger has no BEGIN body"
      else if equalWord token "CASE" then
        consumeTrigger { state with caseDepth := state.caseDepth + 1 } tokens
      else if equalWord token "END" && 0 < state.caseDepth then
        consumeTrigger { state with caseDepth := state.caseDepth - 1 } tokens
      else if equalWord token "BEGIN" && state.caseDepth == 0 then
        consumeTrigger { state with body := true, atBodyStatementStart := true } tokens
      else consumeTrigger state tokens
    else if token.separator then consumeTrigger { state with atBodyStatementStart := true } tokens
    else if equalWord token "CASE" then
      consumeTrigger { state with caseDepth := state.caseDepth + 1, atBodyStatementStart := false }
        tokens
    else if equalWord token "END" && 0 < state.caseDepth then
      consumeTrigger { state with caseDepth := state.caseDepth - 1, atBodyStatementStart := false }
        tokens
    else if equalWord token "END" && state.atBodyStatementStart then
      match tokens with
      | [] => .ok []
      | following :: tokens =>
        if !following.separator then .error "SQL text is invalid: unexpected SQL after trigger END"
        else .ok tokens
    else consumeTrigger { state with atBodyStatementStart := false } tokens

/-- The loop of `ValidateMigrationScript`. Every round consumes a token, so a bound of the number of
tokens on the rounds is never reached. -/
def migrationLoop : ℕ → List Token → Except String Unit
  | _, [] => .ok ()
  | 0, _ :: _ => .error "SQL text is invalid"
  | fuel + 1, token :: tokens =>
    if token.separator then .error "SQL text is invalid: empty migration statement"
    else if token.word = [] then
      .error "SQL text is invalid: migration statement must begin with a keyword"
    else if !containsFold migrationStatementWords token.word then
      .error ("SQL text is invalid: migration statement " ++ (String.ofList token.word).toUpper ++
        " is outside the durable DDL/DML profile")
    else if (classifyCreate (token :: tokens)).2 then
      .error "SQL text is invalid: temporary schema is not durable"
    else
      match (if (classifyCreate (token :: tokens)).1 then consumeTrigger {} tokens
        else consumeOrdinaryStatement (token :: tokens)) with
      | .error e => .error e
      | .ok tokens => migrationLoop fuel tokens

/-- `ValidateMigrationScript`. -/
def validateMigrationScript (text : GoString) (maxBytes : ℕ) : Except String Unit :=
  match tokenize text maxBytes with
  | none => .error "SQL text is invalid"
  | some tokens =>
    if tokens = [] then .error "SQL text is invalid"
    else if hasTemporarySchemaReference tokens then
      .error "SQL text is invalid: temporary schema is not durable"
    else migrationLoop tokens.length tokens

/-! ### What the gates say about the statements -/

/-- The lexemes as pieces of statements. -/
def pieces (ls : List Lexeme) : List (Piece Char (List Char)) := ls.map Lexeme.piece

/-- A lexeme without a token is blank; a token that is neither a separator nor a word begins a
statement without a first word. -/
theorem lexeme_cases (l : Lexeme) :
    (l.token = none ∧ l.kind = .blank) ∨ l = .separator ∨ (∃ w, l = .word w) ∨
      ∃ t, l.token = some t ∧ t.separator = false ∧ t.word = [] ∧ l.kind = .other := by
  cases l with
  | space _ => exact Or.inl ⟨rfl, rfl⟩
  | lineComment _ => exact Or.inl ⟨rfl, rfl⟩
  | blockComment _ => exact Or.inl ⟨rfl, rfl⟩
  | separator => exact Or.inr (Or.inl rfl)
  | word w => exact Or.inr (Or.inr (Or.inl ⟨w, rfl⟩))
  | string _ => exact Or.inr (Or.inr (Or.inr ⟨_, rfl, rfl, rfl, rfl⟩))
  | quoted _ => exact Or.inr (Or.inr (Or.inr ⟨_, rfl, rfl, rfl, rfl⟩))
  | backtick _ => exact Or.inr (Or.inr (Or.inr ⟨_, rfl, rfl, rfl, rfl⟩))
  | bracket _ => exact Or.inr (Or.inr (Or.inr ⟨_, rfl, rfl, rfl, rfl⟩))
  | symbol _ => exact Or.inr (Or.inr (Or.inr ⟨_, rfl, rfl, rfl, rfl⟩))

/-- The piece adds its text to a statement that has begun. -/
theorem split_begun {l : Lexeme} (h : l.kind ≠ .separator) (text : List Char)
    (x : Option (List Char)) (ls : List Lexeme) :
    split text (some x) (pieces (l :: ls)) = split (text ++ l.text) (some x) (pieces ls) := by
  rw [pieces, List.map_cons, split_cons h]
  rfl

theorem split_blank {l : Lexeme} (h : l.kind = .blank) (text : List Char)
    (begun : Option (Option (List Char))) (ls : List Lexeme) :
    split text begun (pieces (l :: ls)) = split (text ++ l.text) begun (pieces ls) := by
  rw [pieces, List.map_cons, split_cons (by simp [h]), Lexeme.piece_kind, h]
  simp [Kind.lead, pieces]

theorem split_separator (text : List Char) (begun : Option (Option (List Char)))
    (ls : List Lexeme) :
    split text begun (pieces (.separator :: ls)) = close text begun ++ split [] none (pieces ls) := rfl

/-- The tokens of a text. -/
def tokens (ls : List Lexeme) : List Token := ls.filterMap Lexeme.token

theorem tokens_none {l : Lexeme} (h : l.token = none) (ls : List Lexeme) :
    tokens (l :: ls) = tokens ls := by
  simp [tokens, h]

theorem tokens_some {l : Lexeme} {t : Token} (h : l.token = some t) (ls : List Lexeme) :
    tokens (l :: ls) = t :: tokens ls := by
  simp [tokens, h]

section Public

variable {allowed : List String} {forbiddenWord : String}

/-- The count the gate compares with one. -/
def counted (p : ℕ × Bool) : ℕ := if p.2 then p.1 + 1 else p.1

/-- Behind a closed statement only blanks may follow. -/
theorem publicLoop_closed : ∀ (ls : List Lexeme) (p : ℕ × Bool) (text : List Char),
    publicLoop allowed forbiddenWord 1 false (tokens ls) = some p →
      split text none (pieces ls) = []
  | [], _, _, _ => rfl
  | l :: ls, p, text, h => by
    rcases lexeme_cases l with ⟨ht, hk⟩ | rfl | ⟨w, rfl⟩ | ⟨t, ht, hs, -, -⟩
    · rw [tokens_none ht] at h
      rw [split_blank hk]
      exact publicLoop_closed ls p _ h
    · rw [tokens_some rfl] at h
      simp [publicLoop] at h
    · rw [tokens_some rfl] at h
      simp [publicLoop] at h
    · rw [tokens_some ht] at h
      simp [publicLoop, hs] at h

/-- An open statement is closed at most once. -/
theorem publicLoop_open (x : Option (List Char)) : ∀ (ls : List Lexeme) (p : ℕ × Bool)
    (text : List Char), publicLoop allowed forbiddenWord 0 true (tokens ls) = some p →
      ∃ t, split text (some x) (pieces ls) = [⟨t, x⟩]
  | [], _, text, _ => ⟨text, rfl⟩
  | l :: ls, p, text, h => by
    have step : ∀ {t : Token}, l.token = some t → t.separator = false →
        publicLoop allowed forbiddenWord 0 true (tokens ls) = some p := by
      intro t ht hs
      rw [tokens_some ht] at h
      simp only [publicLoop, hs, Bool.false_eq_true, if_false, Bool.not_true,
        Bool.false_and] at h
      split_ifs at h
      exact h
    rcases lexeme_cases l with ⟨ht, hk⟩ | rfl | ⟨w, rfl⟩ | ⟨t, ht, hs, -, hk⟩
    · rw [tokens_none ht] at h
      rw [split_blank hk]
      exact publicLoop_open x ls p _ h
    · rw [tokens_some rfl] at h
      refine ⟨text, ?_⟩
      have h1 : publicLoop allowed forbiddenWord 1 false (tokens ls) = some p := by
        simpa [publicLoop] using h
      rw [split_separator, publicLoop_closed ls p [] h1]
      rfl
    · rw [split_begun (by simp [Lexeme.kind])]
      exact publicLoop_open x ls p _ (step rfl rfl)
    · rw [split_begun (by rw [hk]; simp)]
      exact publicLoop_open x ls p _ (step ht hs)

/-- The text has exactly one statement, and it begins with an allowed word. -/
theorem publicLoop_start : ∀ (ls : List Lexeme) (p : ℕ × Bool) (text : List Char),
    publicLoop allowed forbiddenWord 0 false (tokens ls) = some p → counted p = 1 →
      ∃ t w, split text none (pieces ls) = [⟨t, some w⟩] ∧ containsFold allowed w = true
  | [], p, text, h, hc => by
    simp only [tokens, List.filterMap_nil, publicLoop, Option.some.injEq] at h
    rw [← h] at hc
    simp [counted] at hc
  | l :: ls, p, text, h, hc => by
    rcases lexeme_cases l with ⟨ht, hk⟩ | rfl | ⟨w, rfl⟩ | ⟨t, ht, hs, hw, -⟩
    · rw [tokens_none ht] at h
      rw [split_blank hk]
      exact publicLoop_start ls p _ h hc
    · rw [tokens_some rfl] at h
      simp [publicLoop] at h
    · rw [tokens_some rfl] at h
      simp only [publicLoop, Bool.false_eq_true, if_false, Bool.not_false, Bool.true_and,
        bne_self_eq_false, Bool.false_or] at h
      split_ifs at h with h1 h2
      have ha : containsFold allowed w = true := by
        simp only [Bool.or_eq_true, beq_iff_eq, Bool.not_eq_true', not_or,
          Bool.not_eq_false] at h1
        exact h1.2
      obtain ⟨t, ht⟩ := publicLoop_open (some w) ls p (text ++ w) h
      refine ⟨t, w, ?_, ha⟩
      rw [← ht, pieces, List.map_cons, split_cons (by simp [Lexeme.kind])]
      rfl
    · rw [tokens_some ht] at h
      simp [publicLoop, hs, hw] at h

/-- **An accepted query or mutation** is exactly one statement with a permitted first word. -/
theorem validatePublicStatement_one {query : GoString}
    (h : validatePublicStatement query allowed forbiddenWord = true) :
    ∃ ls t w, lexemes query maxPublicStatementBytes = some ls ∧ statements (pieces ls) = [⟨t, some w⟩] ∧
      containsFold allowed w = true := by
  unfold validatePublicStatement tokenize at h
  rcases hl : lexemes query maxPublicStatementBytes with _ | ls
  · simp [hl] at h
  · simp only [hl, Option.map_some, Bool.and_eq_true] at h
    obtain ⟨-, h⟩ := h
    rcases hp : publicLoop allowed forbiddenWord 0 false (tokens ls) with _ | ⟨n, b⟩
    · simp only [tokens] at hp
      simp [hp] at h
    · have hc : counted (n, b) = 1 := by
        have hp' := hp
        simp only [tokens] at hp'
        simpa [hp', counted] using h
      obtain ⟨t, w, hs, ha⟩ := publicLoop_start ls (n, b) [] hp hc
      exact ⟨ls, t, w, rfl, hs, ha⟩

end Public

/-! ### What the migration gate says -/

/-- The tokens behind the first separator. -/
def behind (ts : List Token) : List Token := (ts.dropWhile fun t => !t.separator).tail

/-- No trigger has a separator in its body: `consumeTrigger` stops behind the first one, as the scan
of an ordinary statement does. The first argument says whether a statement begins here. -/
def triggersWhole : Bool → List Token → Bool
  | _, [] => true
  | start, token :: tokens =>
    (!start || !(classifyCreate (token :: tokens)).1 ||
      consumeTrigger {} tokens == .ok (behind tokens)) && triggersWhole token.separator tokens

theorem consumeOrdinaryStatement_behind : ∀ {ts rest : List Token},
    consumeOrdinaryStatement ts = .ok rest → rest = behind ts
  | [], rest, h => by
    simp only [consumeOrdinaryStatement, Except.ok.injEq] at h
    rw [← h]; rfl
  | token :: ts, rest, h => by
    unfold consumeOrdinaryStatement at h
    split_ifs at h with h1 h2
    · simpa [behind, h2] using h.symm
    · have ih := consumeOrdinaryStatement_behind h
      simpa [behind, h2] using ih

/-- A round of the loop on a statement without separators in a trigger body. -/
theorem migrationLoop_word {fuel : ℕ} {w : List Char} {ts : List Token}
    (h : migrationLoop (fuel + 1) ({ word := w } :: ts) = .ok ())
    (hw : triggersWhole true ({ word := w } :: ts) = true) :
    containsFold migrationStatementWords w = true ∧ migrationLoop fuel (behind ts) = .ok () := by
  simp only [triggersWhole, Bool.not_true, Bool.false_or, Bool.and_eq_true, Bool.or_eq_true,
    Bool.not_eq_true', beq_iff_eq] at hw
  simp only [migrationLoop, Bool.false_eq_true, if_false] at h
  split_ifs at h with h1 h2 h3 h4
  · -- a trigger
    rw [hw.1.resolve_left (by simp [h4])] at h
    exact ⟨by simpa using h2, h⟩
  · rcases hc : consumeOrdinaryStatement ({ word := w } :: ts) with e | rest
    · simp [hc] at h
    · have hrest : rest = behind ts := by
        rw [consumeOrdinaryStatement_behind hc]; rfl
      rw [hc, hrest] at h
      exact ⟨by simpa using h2, h⟩

/-- The first word of the statement is one a migration may use. -/
def MigrationStart (s : Statement Char (List Char)) : Prop :=
  ∃ w, s.first = some w ∧ containsFold migrationStatementWords w = true

/-- The two states of the loop: between statements, and in one that began with an allowed word. -/
theorem migrationLoop_starts : ∀ (ls : List Lexeme) (fuel : ℕ) (text : List Char),
    (migrationLoop fuel (tokens ls) = .ok () → triggersWhole true (tokens ls) = true →
      ∀ s ∈ split text none (pieces ls), MigrationStart s) ∧
    ∀ w, migrationLoop fuel (behind (tokens ls)) = .ok () → triggersWhole false (tokens ls) = true →
      containsFold migrationStatementWords w = true →
      ∀ s ∈ split text (some (some w)) (pieces ls), MigrationStart s
  | [], fuel, text => by
    refine ⟨fun _ _ s hs => by simp [pieces, split, close] at hs, ?_⟩
    intro w _ _ hw s hs
    simp only [pieces, List.map_nil, split, close, List.mem_singleton] at hs
    exact ⟨w, by rw [hs], hw⟩
  | l :: ls, fuel, text => by
    have inside : ∀ {t : Token}, l.token = some t → t.separator = false →
        behind (tokens (l :: ls)) = behind (tokens ls) ∧
          (triggersWhole false (tokens (l :: ls)) = true →
            triggersWhole false (tokens ls) = true) := by
      intro t ht hs
      rw [tokens_some ht]
      exact ⟨by simp [behind, hs], by simp [triggersWhole, hs]⟩
    rcases lexeme_cases l with ⟨ht, hk⟩ | rfl | ⟨v, rfl⟩ | ⟨t, ht, hs, hv, hk⟩
    · rw [tokens_none ht, split_blank hk]
      obtain ⟨h1, h2⟩ := migrationLoop_starts ls fuel (text ++ l.text)
      refine ⟨h1, fun w hm hf hw => ?_⟩
      rw [split_blank hk]
      exact h2 w hm hf hw
    · rw [tokens_some rfl]
      refine ⟨fun h _ => ?_, fun w hm hf hw s hs => ?_⟩
      · cases fuel <;> simp [migrationLoop] at h
      · have hf' : triggersWhole true (tokens ls) = true := by
          simpa [triggersWhole] using hf
        rw [split_separator] at hs
        rcases List.mem_cons.mp hs with rfl | hs
        · exact ⟨w, rfl, hw⟩
        · exact (migrationLoop_starts ls fuel []).1 hm hf' s hs
    · refine ⟨fun h hf s hs => ?_, fun w hm hf hw s hs => ?_⟩
      · rw [tokens_some rfl] at h hf
        cases fuel with
        | zero => simp [migrationLoop] at h
        | succ fuel =>
          obtain ⟨hv, h⟩ := migrationLoop_word h hf
          simp only [triggersWhole, Bool.and_eq_true] at hf
          rw [pieces, List.map_cons, split_cons (by simp [Lexeme.kind])] at hs
          exact (migrationLoop_starts ls fuel _).2 v h hf.2 hv s hs
      · obtain ⟨hb, hf'⟩ := inside rfl rfl
        rw [split_begun (by simp [Lexeme.kind])] at hs
        rw [hb] at hm
        exact (migrationLoop_starts ls fuel _).2 w hm (hf' hf) hw s hs
    · refine ⟨fun h _ => ?_, fun w hm hf hw s hs' => ?_⟩
      · rw [tokens_some ht] at h
        cases fuel <;> simp [migrationLoop, hs, hv] at h
      · obtain ⟨hb, hf'⟩ := inside ht hs
        rw [split_begun (by rw [hk]; simp)] at hs'
        rw [hb] at hm
        exact (migrationLoop_starts ls fuel _).2 w hm (hf' hf) hw s hs'

/-- **An accepted migration script** without a separator in a trigger body has permitted first words
only. -/
theorem validateMigrationScript_starts {text : GoString} {maxBytes : ℕ}
    (h : validateMigrationScript text maxBytes = .ok ()) :
    ∃ ls, lexemes text maxBytes = some ls ∧ (triggersWhole true (tokens ls) = true →
      ∀ s ∈ statements (pieces ls), MigrationStart s) := by
  unfold validateMigrationScript tokenize at h
  rcases hl : lexemes text maxBytes with _ | ls
  · simp [hl] at h
  · simp only [hl, Option.map_some] at h
    split_ifs at h
    exact ⟨ls, rfl, (migrationLoop_starts ls _ []).1 h⟩

end Modary.Sql.Gates
