import Modary.Sql.Gates

/-! # Migration scripts

The scripts `ValidateMigrationScript` is about, as a grammar over the tokens of a text: statements
with separators between them, where the statements in the body of a trigger belong to the trigger.
The gate reads such a script with two loops over one index, and the grammar says what they accept. -/

namespace Modary.Sql.Scripts

open Modary.Lib.GoText Modary.Sql.Tokens Modary.Sql.Gates

/-! ### The grammar -/

/-- What a token is to the nesting of a trigger. -/
inductive Mark
  | separator
  | caseWord
  | endWord
  | beginWord
  | plain
  deriving DecidableEq, Repr

def mark (token : Token) : Mark :=
  if token.separator then .separator
  else if equalWord token "CASE" then .caseWord
  else if equalWord token "END" then .endWord
  else if equalWord token "BEGIN" then .beginWord
  else .plain

/-- The tokens between a `CASE` and its `END`. Separators stand there in a body only. -/
inductive Inside (body : Bool) : List Token → Prop
  | nil : Inside body []
  | token {t ts} : mark t = .plain ∨ mark t = .beginWord ∨ body = true ∧ mark t = .separator →
      Inside body ts → Inside body (t :: ts)
  | block {t inner e ts} : mark t = .caseWord → Inside body inner → mark e = .endWord →
      Inside body ts → Inside body (t :: (inner ++ e :: ts))

/-- The tokens of a trigger before its `BEGIN`. -/
inductive Header : List Token → Prop
  | nil : Header []
  | token {t ts} : mark t = .plain ∨ mark t = .endWord → Header ts → Header (t :: ts)
  | block {t inner e ts} : mark t = .caseWord → Inside false inner → mark e = .endWord →
      Header ts → Header (t :: (inner ++ e :: ts))

/-- The tokens between the `BEGIN` of a trigger and its `END`; the flag says whether a statement of
the body begins here. The `END` of the trigger stands where a statement would begin. -/
inductive Body : Bool → List Token → Prop
  | nil : Body true []
  | separator {start t ts} : mark t = .separator → Body true ts → Body start (t :: ts)
  | token {start t ts} : mark t = .plain ∨ mark t = .beginWord ∨ start = false ∧ mark t = .endWord →
      Body false ts → Body start (t :: ts)
  | block {start t inner e ts} : mark t = .caseWord → Inside true inner → mark e = .endWord →
      Body false ts → Body start (t :: (inner ++ e :: ts))

/-- The statement is `CREATE` with the given word as its next one. -/
def createsWith (word : List Char → Bool) : List Token → Bool
  | [] => false
  | token :: tokens => equalWord token "CREATE" && (leadingWords 1 tokens).any word

/-- A `CREATE TRIGGER` statement. -/
def createsTrigger (s : List Token) : Bool := createsWith (equalFold · "TRIGGER") s

def temporaryWord (word : List Char) : Bool := equalFold word "TEMP" || equalFold word "TEMPORARY"

/-- The tokens of a trigger behind its `CREATE`, through the `END` of its body. -/
def TriggerTail (ts : List Token) : Prop :=
  ∃ header b body e, ts = header ++ b :: (body ++ [e]) ∧ Header header ∧ mark b = .beginWord ∧
    Body true body ∧ mark e = .endWord

structure Trigger (s : List Token) : Prop where
  creates : createsTrigger s = true
  parts : ∃ create ts, s = create :: ts ∧ TriggerTail ts

/-- A statement with a permitted first word that ends before the next separator. -/
structure Ordinary (s : List Token) : Prop where
  first : ∃ t ts, s = t :: ts ∧ containsFold migrationStatementWords t.word = true
  one : ∀ t ∈ s, t.separator = false
  noTrigger : createsTrigger s = false

def Statement (s : List Token) : Prop := Ordinary s ∨ Trigger s

/-- The tokens are the statements with one separator between two of them, and possibly a last one. -/
inductive Splits : List (List Token) → List Token → Prop
  | last {s} : Splits [s] s
  | ended {s t} : t.separator = true → Splits [s] (s ++ [t])
  | next {s t ss ts} : t.separator = true → Splits ss ts → Splits (s :: ss) (s ++ t :: ts)

/-- No unquoted `ROLLBACK`. -/
def Durable (tokens : List Token) : Prop := ∀ t ∈ tokens, equalWord t "ROLLBACK" = false

/-- The name a token can qualify with. -/
def qualifier (token : Token) : List Char :=
  if token.identifier ≠ [] then token.identifier
  else if token.string ≠ [] then token.string else token.word

/-- A schema of the given kind qualifies something. -/
def Qualifies (schema : Token → Bool) (tokens : List Token) : Prop :=
  ∃ before t dot after, tokens = before ++ t :: dot :: after ∧ schema t = true ∧ dot.symbol = ['.']

/-- The tokens are a script of statements. -/
structure Script (ss : List (List Token)) (tokens : List Token) : Prop where
  splits : Splits ss tokens
  statements : ∀ s ∈ ss, Statement s
  durable : Durable tokens

/-! ### Temporary objects -/

/-- The schema the source calls temporary, in any case and quoting. -/
def tempSchema (token : Token) : Bool := equalFold (qualifier token) "temp"

/-- A list of names with commas between them, at the front of tokens. -/
def listed : List Token → List Token
  | [] => []
  | [name] => [name]
  | name :: comma :: tokens => if comma.symbol == [','] then name :: listed tokens else [name]

/-- What the gate takes for one: `CREATE` with `TEMP` or `TEMPORARY` as its next word, and the
qualifier `temp`. -/
def PlainlyTemporary (ss : List (List Token)) (tokens : List Token) : Prop :=
  (∃ s ∈ ss, createsWith temporaryWord s = true) ∨ Qualifies tempSchema tokens

theorem leadingWords_append {sep : Token} (hsep : sep.separator = true) (rest : List Token) :
    ∀ (n : ℕ) (s : List Token), leadingWords n (s ++ sep :: rest) = leadingWords n s
  | 0, s => by simp [leadingWords]
  | n + 1, [] => by simp [leadingWords, hsep]
  | n + 1, t :: s => by
    simp only [List.cons_append, leadingWords]
    rw [leadingWords_append hsep rest n s, leadingWords_append hsep rest (n + 1) s]

/-- More words do not change the first. -/
theorem leadingWords_head (n : ℕ) : ∀ s : List Token,
    (leadingWords (n + 1) s).head? = (leadingWords 1 s).head?
  | [] => rfl
  | t :: s => by
    simp only [leadingWords]
    by_cases hsep : t.separator = true
    · rw [if_pos hsep, if_pos hsep]
    · rw [if_neg hsep, if_neg hsep]
      by_cases hword : (t.word != []) = true
      · rw [if_pos hword, if_pos hword]
        rfl
      · rw [if_neg hword, if_neg hword]
        exact leadingWords_head n s

theorem leadingWords_one (s : List Token) :
    leadingWords 1 s = [] ∨ ∃ w, leadingWords 1 s = [w] := by
  induction s with
  | nil => exact .inl rfl
  | cons t s ih =>
    simp only [leadingWords]
    split_ifs
    · exact .inl rfl
    · exact .inr ⟨_, rfl⟩
    · exact ih

theorem createsWith_eq (word : List Char → Bool) (n : ℕ) (t : Token) (ts : List Token) :
    createsWith word (t :: ts) =
      (equalWord t "CREATE" && (leadingWords (n + 1) ts).head?.any word) := by
  rw [leadingWords_head, createsWith]
  rcases leadingWords_one ts with h | ⟨w, h⟩
  · rw [h]
    rfl
  · rw [h]
    simp

theorem createsWith_append (word : List Char → Bool) {sep : Token} (hsep : sep.separator = true)
    (rest : List Token) {s : List Token} (hs : s ≠ []) :
    createsWith word (s ++ sep :: rest) = createsWith word s := by
  obtain ⟨t, ts, rfl⟩ := List.exists_cons_of_ne_nil hs
  rw [List.cons_append, createsWith, createsWith, leadingWords_append hsep]

/-- `classifyCreate` looks at the word after `CREATE`. -/
theorem classifyCreate_temporary (s : List Token) :
    (classifyCreate s).2 = createsWith temporaryWord s := by
  cases s with
  | nil => rfl
  | cons t ts =>
    rw [createsWith_eq _ 2, classifyCreate]
    by_cases hcreate : equalWord t "CREATE" = true
    · rw [hcreate]
      rcases hwords : leadingWords 3 ts with _ | ⟨w, ws⟩
      · rfl
      · by_cases htemp : (equalFold w "TEMP" || equalFold w "TEMPORARY") = true
        · simp [htemp, temporaryWord]
        · simp [htemp, temporaryWord]
    · rw [Bool.not_eq_true] at hcreate
      rw [hcreate]
      rfl

theorem classifyCreate_trigger {s : List Token} (h : createsWith temporaryWord s = false) :
    (classifyCreate s).1 = createsTrigger s := by
  cases s with
  | nil => rfl
  | cons t ts =>
    rw [createsWith_eq _ 2] at h
    rw [createsTrigger, createsWith_eq _ 2, classifyCreate]
    by_cases hcreate : equalWord t "CREATE" = true
    · rw [hcreate] at h ⊢
      rcases hwords : leadingWords 3 ts with _ | ⟨w, ws⟩
      · rfl
      · have htemp : (equalFold w "TEMP" || equalFold w "TEMPORARY") = false := by
          simpa [hwords, temporaryWord] using h
        simp [htemp]
    · rw [Bool.not_eq_true] at hcreate
      rw [hcreate]
      rfl

theorem hasTemporarySchemaReference_iff : ∀ tokens : List Token,
    hasTemporarySchemaReference tokens = true ↔ Qualifies tempSchema tokens
  | [] => by
    refine ⟨fun h => absurd h (by simp [hasTemporarySchemaReference]), ?_⟩
    rintro ⟨before, t, dot, after, h, -⟩
    exact absurd h (by simp)
  | [u] => by
    refine ⟨fun h => absurd h (by simp [hasTemporarySchemaReference]), ?_⟩
    rintro ⟨before, t, dot, after, h, -⟩
    have hlength := congrArg List.length h
    simp only [List.length_cons, List.length_append, List.length_nil] at hlength
    omega
  | u :: v :: tokens => by
    have ih := hasTemporarySchemaReference_iff (v :: tokens)
    rw [hasTemporarySchemaReference, Bool.or_eq_true, ih]
    constructor
    · rintro (h | ⟨before, t, dot, after, h, ht, hdot⟩)
      · rw [Bool.and_eq_true, beq_iff_eq] at h
        exact ⟨[], u, v, tokens, rfl, h.1, h.2⟩
      · exact ⟨u :: before, t, dot, after, by rw [h]; rfl, ht, hdot⟩
    · rintro ⟨before, t, dot, after, h, ht, hdot⟩
      cases before with
      | nil =>
        rw [List.nil_append, List.cons.injEq, List.cons.injEq] at h
        obtain ⟨rfl, rfl, rfl⟩ := h
        left
        rw [Bool.and_eq_true, beq_iff_eq]
        exact ⟨ht, hdot⟩
      | cons b before =>
        rw [List.cons_append, List.cons.injEq] at h
        exact .inr ⟨before, t, dot, after, h.2, ht, hdot⟩

theorem Qualifies.mono {p q : Token → Bool} (hpq : ∀ t, p t = true → q t = true)
    {tokens : List Token} (h : Qualifies p tokens) : Qualifies q tokens := by
  obtain ⟨before, t, dot, after, htokens, ht, hdot⟩ := h
  exact ⟨before, t, dot, after, htokens, hpq _ ht, hdot⟩

/-- A token is one word at most. -/
theorem equalWord_unique {t : Token} {v w : String} (h : equalWord t v = true)
    (hne : v.toList.map lowerAscii ≠ w.toList.map lowerAscii) : equalWord t w = false := by
  simp only [equalWord, equalFold, Bool.and_eq_true, beq_iff_eq] at h
  rw [equalWord, equalFold, h.2, Bool.and_eq_false_iff]
  right
  rw [beq_eq_false_iff_ne]
  exact hne

theorem mark_of_separator {t : Token} (h : t.separator = true) : mark t = .separator := if_pos h

theorem not_separator_of_mark {t : Token} (h : mark t ≠ .separator) : t.separator = false := by
  by_contra hsep
  rw [Bool.not_eq_false] at hsep
  exact h (mark_of_separator hsep)

/-! ### The rounds of `consumeTrigger` -/

/-- A round inside a `CASE`. -/
theorem consumeTrigger_inside {t : Token} (ht : equalWord t "ROLLBACK" = false) (d : ℕ)
    {body start : Bool} (hstart : body = false → start = false) (ts : List Token) :
    consumeTrigger ⟨d + 1, body, start⟩ (t :: ts) =
      match mark t with
      | .separator => if body then consumeTrigger ⟨d + 1, true, true⟩ ts
        else .error "SQL text is invalid: trigger has no BEGIN body"
      | .caseWord => consumeTrigger ⟨d + 2, body, false⟩ ts
      | .endWord => consumeTrigger ⟨d, body, false⟩ ts
      | .beginWord => consumeTrigger ⟨d + 1, body, false⟩ ts
      | .plain => consumeTrigger ⟨d + 1, body, false⟩ ts := by
  rw [consumeTrigger.eq_def]
  simp only [ht]
  cases body
  case' false => rw [hstart rfl]
  all_goals
    unfold mark
    by_cases hsep : t.separator = true
    · simp [hsep]
    · by_cases hcase : equalWord t "CASE" = true
      · simp [hsep, hcase]
      · by_cases hend : equalWord t "END" = true
        · simp [hsep, hcase, hend]
        · by_cases hbegin : equalWord t "BEGIN" = true
          · simp [hsep, hcase, hend, hbegin]
          · simp [hsep, hcase, hend, hbegin]

/-- A round before the `BEGIN`, outside every `CASE`. -/
theorem consumeTrigger_header {t : Token} (ht : equalWord t "ROLLBACK" = false) (ts : List Token) :
    consumeTrigger ⟨0, false, false⟩ (t :: ts) =
      match mark t with
      | .separator => .error "SQL text is invalid: trigger has no BEGIN body"
      | .caseWord => consumeTrigger ⟨1, false, false⟩ ts
      | .endWord => consumeTrigger ⟨0, false, false⟩ ts
      | .beginWord => consumeTrigger ⟨0, true, true⟩ ts
      | .plain => consumeTrigger ⟨0, false, false⟩ ts := by
  rw [consumeTrigger.eq_def]
  simp only [ht]
  unfold mark
  by_cases hsep : t.separator = true
  · simp [hsep]
  · by_cases hcase : equalWord t "CASE" = true
    · simp [hsep, hcase]
    · by_cases hend : equalWord t "END" = true
      · have hbegin : equalWord t "BEGIN" = false := equalWord_unique hend (by decide)
        simp [hsep, hcase, hend, hbegin]
      · by_cases hbegin : equalWord t "BEGIN" = true
        · simp [hsep, hcase, hend, hbegin]
        · simp [hsep, hcase, hend, hbegin]

/-- What `consumeTrigger` does behind the `END` of the trigger. -/
def afterEnd : List Token → Except String (List Token)
  | [] => .ok []
  | following :: tokens =>
    if !following.separator then .error "SQL text is invalid: unexpected SQL after trigger END"
    else .ok tokens

/-- A round in the body, outside every `CASE`. -/
theorem consumeTrigger_body {t : Token} (ht : equalWord t "ROLLBACK" = false) (start : Bool)
    (ts : List Token) :
    consumeTrigger ⟨0, true, start⟩ (t :: ts) =
      match mark t with
      | .separator => consumeTrigger ⟨0, true, true⟩ ts
      | .caseWord => consumeTrigger ⟨1, true, false⟩ ts
      | .endWord => if start then afterEnd ts else consumeTrigger ⟨0, true, false⟩ ts
      | .beginWord => consumeTrigger ⟨0, true, false⟩ ts
      | .plain => consumeTrigger ⟨0, true, false⟩ ts := by
  rw [consumeTrigger.eq_def]
  simp only [ht]
  unfold mark
  by_cases hsep : t.separator = true
  · simp [hsep]
  · by_cases hcase : equalWord t "CASE" = true
    · simp [hsep, hcase]
    · by_cases hend : equalWord t "END" = true
      · cases start with
        | false => simp [hsep, hcase, hend]
        | true =>
          simp only [hsep, hcase, hend]
          cases ts with
          | nil => rfl
          | cons following ts => rfl
      · by_cases hbegin : equalWord t "BEGIN" = true
        · simp [hsep, hcase, hend, hbegin]
        · simp [hsep, hcase, hend, hbegin]

/-! ### The runs of `consumeTrigger` -/

theorem Durable.head {t : Token} {ts : List Token} (h : Durable (t :: ts)) :
    equalWord t "ROLLBACK" = false := h t List.mem_cons_self

theorem Durable.tail {t : Token} {ts : List Token} (h : Durable (t :: ts)) : Durable ts :=
  fun u hu => h u (List.mem_cons_of_mem t hu)

theorem Durable.right {s ts : List Token} (h : Durable (s ++ ts)) : Durable ts :=
  fun u hu => h u (List.mem_append_right s hu)

variable {rest ts : List Token}

/-- The tokens between a `CASE` and its `END` are read up to that `END`. -/
theorem Inside.run {body : Bool} {inner : List Token} (h : Inside body inner) :
    ∀ {e : Token} {tail : List Token} (d : ℕ) {start : Bool}, mark e = .endWord →
      Durable (inner ++ e :: tail) → (body = false → start = false) →
      consumeTrigger ⟨d + 1, body, start⟩ (inner ++ e :: tail) =
        consumeTrigger ⟨d, body, false⟩ tail := by
  induction h with
  | nil =>
    intro e tail d start he hdurable hstart
    rw [List.nil_append, consumeTrigger_inside hdurable.head d hstart, he]
  | @token t ts hmark _ ih =>
    intro e tail d start he hdurable hstart
    rw [List.cons_append] at hdurable ⊢
    rw [consumeTrigger_inside hdurable.head d hstart]
    rcases hmark with hmark | hmark | ⟨rfl, hmark⟩
    · rw [hmark]
      exact ih d he hdurable.tail (fun _ => rfl)
    · rw [hmark]
      exact ih d he hdurable.tail (fun _ => rfl)
    · rw [hmark]
      exact ih d he hdurable.tail (fun h => nomatch h)
  | @block t inner b ts hmark _ hb _ ih_inner ih =>
    intro e tail d start he hdurable hstart
    rw [List.cons_append, List.append_assoc, List.cons_append] at hdurable ⊢
    rw [consumeTrigger_inside hdurable.head d hstart, hmark]
    show consumeTrigger ⟨d + 1 + 1, body, false⟩ (inner ++ b :: (ts ++ e :: tail)) = _
    rw [ih_inner (d + 1) hb hdurable.tail (fun _ => rfl)]
    exact ih d he hdurable.tail.right.tail (fun _ => rfl)

/-- A run inside a `CASE` reads up to its `END`. -/
theorem inside_of_run {body : Bool} : ∀ (n : ℕ) {ts : List Token} {d : ℕ} {start : Bool},
    ts.length ≤ n → Durable ts → (body = false → start = false) →
    consumeTrigger ⟨d + 1, body, start⟩ ts = .ok rest →
    ∃ inner e tail, ts = inner ++ e :: tail ∧ Inside body inner ∧ mark e = .endWord ∧
      consumeTrigger ⟨d, body, false⟩ tail = .ok rest := by
  intro n
  induction n with
  | zero =>
    intro ts d start hlength hdurable hstart h
    rw [List.length_eq_zero_iff.mp (Nat.le_zero.mp hlength), consumeTrigger] at h
    exact nomatch h
  | succ n ih =>
    intro ts d start hlength hdurable hstart h
    cases ts with
    | nil => exact nomatch h
    | cons t ts =>
      have hn : ts.length ≤ n := by
        rw [List.length_cons] at hlength
        omega
      -- a token of the same depth goes in front of what the rest of the run reads
      have front : ∀ {start : Bool}, (body = false → start = false) →
          consumeTrigger ⟨d + 1, body, start⟩ ts = .ok rest →
          (mark t = .plain ∨ mark t = .beginWord ∨ body = true ∧ mark t = .separator) →
          ∃ inner e tail, t :: ts = inner ++ e :: tail ∧ Inside body inner ∧ mark e = .endWord ∧
            consumeTrigger ⟨d, body, false⟩ tail = .ok rest := by
        intro start hstart h hmark
        obtain ⟨inner, e, tail, rfl, hinner, he, hrun⟩ := ih hn hdurable.tail hstart h
        exact ⟨t :: inner, e, tail, rfl, hinner.token hmark, he, hrun⟩
      rw [consumeTrigger_inside hdurable.head d hstart] at h
      cases hmark : mark t with
      | separator =>
        rw [hmark] at h
        cases body with
        | false => exact nomatch h
        | true => exact front (fun h => nomatch h) h (.inr (.inr ⟨rfl, hmark⟩))
      | caseWord =>
        rw [hmark] at h
        obtain ⟨inner, b, tail, rfl, hinner, hb, hrun⟩ := ih hn hdurable.tail (fun _ => rfl) h
        have htail : tail.length ≤ n := by
          rw [List.length_append, List.length_cons] at hn
          omega
        obtain ⟨inner', e, tail', rfl, hinner', he, hrun⟩ :=
          ih htail hdurable.tail.right.tail (fun _ => rfl) hrun
        refine ⟨t :: (inner ++ b :: inner'), e, tail', ?_, .block hmark hinner hb hinner', he, hrun⟩
        simp
      | endWord =>
        rw [hmark] at h
        exact ⟨[], t, ts, rfl, .nil, hmark, h⟩
      | beginWord =>
        rw [hmark] at h
        exact front (fun _ => rfl) h (.inr (.inl hmark))
      | plain =>
        rw [hmark] at h
        exact front (fun _ => rfl) h (.inl hmark)

/-- The tokens before the `BEGIN` are read up to it. -/
theorem Header.run {header : List Token} (h : Header header) :
    ∀ {b : Token} {tail : List Token}, mark b = .beginWord → Durable (header ++ b :: tail) →
      consumeTrigger ⟨0, false, false⟩ (header ++ b :: tail) = consumeTrigger ⟨0, true, true⟩ tail := by
  induction h with
  | nil =>
    intro b tail hb hdurable
    rw [List.nil_append, consumeTrigger_header hdurable.head, hb]
  | @token t ts hmark _ ih =>
    intro b tail hb hdurable
    rw [List.cons_append] at hdurable ⊢
    rw [consumeTrigger_header hdurable.head]
    rcases hmark with hmark | hmark
    · rw [hmark]
      exact ih hb hdurable.tail
    · rw [hmark]
      exact ih hb hdurable.tail
  | @block t inner e ts hmark hinner he _ ih =>
    intro b tail hb hdurable
    rw [List.cons_append, List.append_assoc, List.cons_append] at hdurable ⊢
    rw [consumeTrigger_header hdurable.head, hmark]
    show consumeTrigger ⟨0 + 1, false, false⟩ (inner ++ e :: (ts ++ b :: tail)) = _
    rw [hinner.run 0 he hdurable.tail (fun _ => rfl)]
    exact ih hb hdurable.tail.right.tail

theorem header_of_run : ∀ (n : ℕ) {ts : List Token}, ts.length ≤ n → Durable ts →
    consumeTrigger ⟨0, false, false⟩ ts = .ok rest →
    ∃ header b tail, ts = header ++ b :: tail ∧ Header header ∧ mark b = .beginWord ∧
      consumeTrigger ⟨0, true, true⟩ tail = .ok rest := by
  intro n
  induction n with
  | zero =>
    intro ts hlength hdurable h
    rw [List.length_eq_zero_iff.mp (Nat.le_zero.mp hlength), consumeTrigger] at h
    exact nomatch h
  | succ n ih =>
    intro ts hlength hdurable h
    cases ts with
    | nil => exact nomatch h
    | cons t ts =>
      have hn : ts.length ≤ n := by
        rw [List.length_cons] at hlength
        omega
      have front : consumeTrigger ⟨0, false, false⟩ ts = .ok rest →
          (mark t = .plain ∨ mark t = .endWord) →
          ∃ header b tail, t :: ts = header ++ b :: tail ∧ Header header ∧ mark b = .beginWord ∧
            consumeTrigger ⟨0, true, true⟩ tail = .ok rest := by
        intro h hmark
        obtain ⟨header, b, tail, rfl, hheader, hb, hrun⟩ := ih hn hdurable.tail h
        exact ⟨t :: header, b, tail, rfl, hheader.token hmark, hb, hrun⟩
      rw [consumeTrigger_header hdurable.head] at h
      cases hmark : mark t with
      | separator =>
        rw [hmark] at h
        exact nomatch h
      | caseWord =>
        rw [hmark] at h
        obtain ⟨inner, e, tail, rfl, hinner, he, hrun⟩ :=
          inside_of_run n hn hdurable.tail (fun _ => rfl) h
        have htail : tail.length ≤ n := by
          rw [List.length_append, List.length_cons] at hn
          omega
        obtain ⟨header, b, tail', rfl, hheader, hb, hrun⟩ :=
          ih htail hdurable.tail.right.tail hrun
        refine ⟨t :: (inner ++ e :: header), b, tail', ?_, .block hmark hinner he hheader, hb, hrun⟩
        simp
      | endWord =>
        rw [hmark] at h
        exact front h (.inr hmark)
      | beginWord =>
        rw [hmark] at h
        exact ⟨[], t, ts, rfl, .nil, hmark, h⟩
      | plain =>
        rw [hmark] at h
        exact front h (.inl hmark)

/-- The tokens of the body are read up to the `END` of the trigger. -/
theorem Body.run {start : Bool} {body : List Token} (h : Body start body) :
    ∀ {e : Token} {tail : List Token}, mark e = .endWord → Durable (body ++ e :: tail) →
      consumeTrigger ⟨0, true, start⟩ (body ++ e :: tail) = afterEnd tail := by
  induction h with
  | nil =>
    intro e tail he hdurable
    rw [List.nil_append, consumeTrigger_body hdurable.head, he]
    rfl
  | @separator start t ts hmark _ ih =>
    intro e tail he hdurable
    rw [List.cons_append] at hdurable ⊢
    rw [consumeTrigger_body hdurable.head, hmark]
    exact ih he hdurable.tail
  | @token start t ts hmark _ ih =>
    intro e tail he hdurable
    rw [List.cons_append] at hdurable ⊢
    rw [consumeTrigger_body hdurable.head]
    rcases hmark with hmark | hmark | ⟨rfl, hmark⟩
    · rw [hmark]
      exact ih he hdurable.tail
    · rw [hmark]
      exact ih he hdurable.tail
    · rw [hmark]
      exact ih he hdurable.tail
  | @block start t inner b ts hmark hinner hb _ ih =>
    intro e tail he hdurable
    rw [List.cons_append, List.append_assoc, List.cons_append] at hdurable ⊢
    rw [consumeTrigger_body hdurable.head, hmark]
    show consumeTrigger ⟨0 + 1, true, false⟩ (inner ++ b :: (ts ++ e :: tail)) = _
    rw [hinner.run 0 hb hdurable.tail (fun _ => rfl)]
    exact ih he hdurable.tail.right.tail

theorem body_of_run : ∀ (n : ℕ) {ts : List Token} {start : Bool}, ts.length ≤ n → Durable ts →
    consumeTrigger ⟨0, true, start⟩ ts = .ok rest →
    ∃ body e tail, ts = body ++ e :: tail ∧ Body start body ∧ mark e = .endWord ∧
      afterEnd tail = .ok rest := by
  intro n
  induction n with
  | zero =>
    intro ts start hlength hdurable h
    rw [List.length_eq_zero_iff.mp (Nat.le_zero.mp hlength), consumeTrigger] at h
    exact nomatch h
  | succ n ih =>
    intro ts start hlength hdurable h
    cases ts with
    | nil => exact nomatch h
    | cons t ts =>
      have hn : ts.length ≤ n := by
        rw [List.length_cons] at hlength
        omega
      have front : consumeTrigger ⟨0, true, false⟩ ts = .ok rest →
          (mark t = .plain ∨ mark t = .beginWord ∨ start = false ∧ mark t = .endWord) →
          ∃ body e tail, t :: ts = body ++ e :: tail ∧ Body start body ∧ mark e = .endWord ∧
            afterEnd tail = .ok rest := by
        intro h hmark
        obtain ⟨body, e, tail, rfl, hbody, he, hrun⟩ := ih hn hdurable.tail h
        exact ⟨t :: body, e, tail, rfl, hbody.token hmark, he, hrun⟩
      rw [consumeTrigger_body hdurable.head] at h
      cases hmark : mark t with
      | separator =>
        rw [hmark] at h
        obtain ⟨body, e, tail, rfl, hbody, he, hrun⟩ := ih hn hdurable.tail h
        exact ⟨t :: body, e, tail, rfl, hbody.separator hmark, he, hrun⟩
      | caseWord =>
        rw [hmark] at h
        obtain ⟨inner, b, tail, rfl, hinner, hb, hrun⟩ :=
          inside_of_run n (d := 0) hn hdurable.tail (fun h : true = false => nomatch h) h
        have htail : tail.length ≤ n := by
          rw [List.length_append, List.length_cons] at hn
          omega
        obtain ⟨body, e, tail', rfl, hbody, he, hrun⟩ := ih htail hdurable.tail.right.tail hrun
        refine ⟨t :: (inner ++ b :: body), e, tail', ?_, .block hmark hinner hb hbody, he, hrun⟩
        simp
      | endWord =>
        rw [hmark] at h
        cases start with
        | false => exact front h (.inr (.inr ⟨rfl, hmark⟩))
        | true => exact ⟨[], t, ts, rfl, .nil, hmark, h⟩
      | beginWord =>
        rw [hmark] at h
        exact front h (.inr (.inl hmark))
      | plain =>
        rw [hmark] at h
        exact front h (.inl hmark)

/-! ### Statements -/

/-- What is left behind a statement: nothing, or what follows its separator. -/
def Leaves (tail rest : List Token) : Prop :=
  tail = [] ∧ rest = [] ∨ ∃ sep, sep.separator = true ∧ tail = sep :: rest

/-- A separator is no word. -/
def Separated (tokens : List Token) : Prop := ∀ t ∈ tokens, t.separator = true → t.word = []

theorem Separated.tail {t : Token} {ts : List Token} (h : Separated (t :: ts)) : Separated ts :=
  fun u hu => h u (List.mem_cons_of_mem t hu)

theorem Separated.right {s ts : List Token} (h : Separated (s ++ ts)) : Separated ts :=
  fun u hu => h u (List.mem_append_right s hu)

theorem Separated.leaves {tail rest : List Token} (h : Separated tail) (hleaves : Leaves tail rest) :
    Separated rest := by
  rcases hleaves with ⟨rfl, rfl⟩ | ⟨sep, -, rfl⟩
  · exact h
  · exact h.tail

theorem Durable.leaves {tail rest : List Token} (h : Durable tail) (hleaves : Leaves tail rest) :
    Durable rest := by
  rcases hleaves with ⟨rfl, rfl⟩ | ⟨sep, -, rfl⟩
  · exact h
  · exact h.tail

theorem Leaves.length {tail rest : List Token} (h : Leaves tail rest) :
    rest.length ≤ tail.length := by
  rcases h with ⟨rfl, rfl⟩ | ⟨sep, -, rfl⟩
  · exact le_rfl
  · exact Nat.le_succ _

theorem afterEnd_iff {tail rest : List Token} : afterEnd tail = .ok rest ↔ Leaves tail rest := by
  cases tail with
  | nil =>
    constructor
    · intro h
      cases h
      exact .inl ⟨rfl, rfl⟩
    · rintro (⟨-, rfl⟩ | ⟨sep, -, h⟩)
      · rfl
      · exact nomatch h
  | cons t ts =>
    rw [afterEnd]
    by_cases ht : t.separator = true
    · rw [ht]
      constructor
      · intro h
        cases h
        exact .inr ⟨t, ht, rfl⟩
      · rintro (⟨h, -⟩ | ⟨sep, -, h⟩)
        · exact nomatch h
        · cases h
          rfl
    · rw [Bool.not_eq_true] at ht
      rw [ht]
      constructor
      · intro h
        exact nomatch h
      · rintro (⟨h, -⟩ | ⟨sep, hsep, h⟩)
        · exact nomatch h
        · cases h
          rw [ht] at hsep
          exact nomatch hsep

theorem consumeTrigger_iff (hdurable : Durable ts) :
    consumeTrigger {} ts = .ok rest ↔ ∃ s tail, ts = s ++ tail ∧ TriggerTail s ∧ Leaves tail rest := by
  show consumeTrigger ⟨0, false, false⟩ ts = .ok rest ↔ _
  constructor
  · intro h
    obtain ⟨header, b, tail, rfl, hheader, hb, hrun⟩ := header_of_run _ le_rfl hdurable h
    obtain ⟨body, e, tail', rfl, hbody, he, hrun⟩ :=
      body_of_run _ le_rfl hdurable.right.tail hrun
    refine ⟨header ++ b :: (body ++ [e]), tail', ?_, ⟨header, b, body, e, rfl, hheader, hb, hbody, he⟩,
      afterEnd_iff.mp hrun⟩
    simp
  · rintro ⟨s, tail, rfl, ⟨header, b, body, e, rfl, hheader, hb, hbody, he⟩, hleaves⟩
    have htokens : header ++ b :: (body ++ [e]) ++ tail = header ++ b :: (body ++ e :: tail) := by
      simp
    rw [htokens] at hdurable ⊢
    rw [hheader.run hb hdurable, hbody.run he hdurable.right.tail]
    exact afterEnd_iff.mpr hleaves

theorem consumeOrdinaryStatement_iff (hdurable : Durable ts) :
    consumeOrdinaryStatement ts = .ok rest ↔
      ∃ s tail, ts = s ++ tail ∧ (∀ t ∈ s, t.separator = false) ∧ Leaves tail rest := by
  induction ts with
  | nil =>
    constructor
    · intro h
      cases h
      refine ⟨[], [], rfl, ?_, .inl ⟨rfl, rfl⟩⟩
      exact fun t ht => absurd ht List.not_mem_nil
    · rintro ⟨s, tail, h, -, hleaves⟩
      obtain ⟨rfl, rfl⟩ := List.append_eq_nil_iff.mp h.symm
      rcases hleaves with ⟨-, rfl⟩ | ⟨sep, -, h⟩
      · rfl
      · cases h
  | cons t ts ih =>
    rw [consumeOrdinaryStatement, hdurable.head]
    by_cases ht : t.separator = true
    · rw [if_neg Bool.false_ne_true, if_pos ht]
      constructor
      · intro h
        cases h
        refine ⟨[], t :: rest, rfl, ?_, .inr ⟨t, ht, rfl⟩⟩
        exact fun t ht => absurd ht List.not_mem_nil
      · rintro ⟨s, tail, h, hs, hleaves⟩
        cases s with
        | nil =>
          rw [List.nil_append] at h
          subst h
          rcases hleaves with ⟨h, -⟩ | ⟨sep, -, h⟩
          · cases h
          · cases h
            rfl
        | cons u s =>
          cases h
          have := hs t List.mem_cons_self
          rw [ht] at this
          cases this
    · rw [if_neg Bool.false_ne_true, if_neg ht, ih hdurable.tail]
      rw [Bool.not_eq_true] at ht
      constructor
      · rintro ⟨s, tail, rfl, hs, hleaves⟩
        refine ⟨t :: s, tail, rfl, ?_, hleaves⟩
        intro u hu
        rcases List.mem_cons.mp hu with rfl | hu
        · exact ht
        · exact hs u hu
      · rintro ⟨s, tail, h, hs, hleaves⟩
        cases s with
        | nil =>
          rw [List.nil_append] at h
          subst h
          rcases hleaves with ⟨h, -⟩ | ⟨sep, hsep, h⟩
          · cases h
          · cases h
            rw [ht] at hsep
            cases hsep
        | cons u s =>
          cases h
          exact ⟨s, tail, rfl, fun v hv => hs v (List.mem_cons_of_mem _ hv), hleaves⟩

/-- One statement is read from the front of the tokens. -/
def consume (ts : List Token) : Except String (List Token) :=
  if createsTrigger ts then consumeTrigger {} ts.tail else consumeOrdinaryStatement ts

theorem createsWith_leaves {s tail rest : List Token} (hs : s ≠ []) (h : Leaves tail rest)
    (word : List Char → Bool) : createsWith word (s ++ tail) = createsWith word s := by
  rcases h with ⟨rfl, -⟩ | ⟨sep, hsep, rfl⟩
  · rw [List.append_nil]
  · exact createsWith_append word hsep rest hs

/-- A statement begins with a permitted word. -/
theorem Statement.first {s : List Token} (h : Statement s) :
    ∃ t ts, s = t :: ts ∧ containsFold migrationStatementWords t.word = true := by
  rcases h with h | h
  · exact h.first
  · obtain ⟨create, ts, rfl, -⟩ := h.parts
    have hcreate : equalFold create.word "CREATE" = true := by
      have hcreates := h.creates
      rw [createsTrigger, createsWith, Bool.and_eq_true, equalWord, Bool.and_eq_true] at hcreates
      exact hcreates.1.2
    refine ⟨create, ts, rfl, ?_⟩
    rw [containsFold, List.any_eq_true]
    exact ⟨"CREATE", by decide, hcreate⟩

theorem Statement.ne_nil {s : List Token} (h : Statement s) : s ≠ [] := by
  obtain ⟨t, ts, rfl, -⟩ := h.first
  exact List.cons_ne_nil t ts

/-- A statement does not end with a separator. -/
theorem Statement.last {s before : List Token} {t : Token} (h : Statement s)
    (hs : s = before ++ [t]) : t.separator = false := by
  rcases h with h | h
  · refine h.one t ?_
    rw [hs]
    exact List.mem_append_right before List.mem_cons_self
  · obtain ⟨create, ts, rfl, header, b, body, e, rfl, -, -, -, he⟩ := h.parts
    have hends : (create :: (header ++ b :: body)) ++ [e] = before ++ [t] := by
      rw [← hs]
      simp
    have hlast : e = t := by
      have := (List.append_inj' hends rfl).2
      exact List.head_eq_of_cons_eq this
    rw [← hlast]
    refine not_separator_of_mark ?_
    rw [he]
    decide

/-- What `consume` reads is a statement. -/
theorem consume_iff {t : Token} (hseparated : Separated (t :: ts)) (hdurable : Durable (t :: ts))
    (hallowed : containsFold migrationStatementWords t.word = true) (hword : t.word ≠ []) :
    consume (t :: ts) = .ok rest ↔
      ∃ s tail, t :: ts = s ++ tail ∧ Statement s ∧ Leaves tail rest := by
  have htoken : t.separator = false := by
    by_contra hsep
    rw [Bool.not_eq_false] at hsep
    exact hword (hseparated t List.mem_cons_self hsep)
  rw [consume]
  by_cases htrigger : createsTrigger (t :: ts) = true
  · rw [if_pos htrigger, List.tail_cons, consumeTrigger_iff hdurable.tail]
    constructor
    · rintro ⟨s, tail, rfl, hs, hleaves⟩
      refine ⟨t :: s, tail, rfl, .inr ⟨?_, t, s, rfl, hs⟩, hleaves⟩
      rw [← htrigger]
      exact (createsWith_leaves (List.cons_ne_nil t s) hleaves _).symm
    · rintro ⟨s, tail, h, hs, hleaves⟩
      have hcreates : createsTrigger s = true := by
        rw [h] at htrigger
        rw [← htrigger]
        exact (createsWith_leaves hs.ne_nil hleaves _).symm
      rcases hs with hs | hs
      · rw [hs.noTrigger] at hcreates
        exact nomatch hcreates
      · obtain ⟨create, body, rfl, hbody⟩ := hs.parts
        cases h
        exact ⟨body, tail, rfl, hbody, hleaves⟩
  · rw [if_neg htrigger, consumeOrdinaryStatement_iff hdurable]
    rw [Bool.not_eq_true] at htrigger
    constructor
    · rintro ⟨s, tail, h, hs, hleaves⟩
      cases s with
      | nil =>
        rw [List.nil_append] at h
        subst h
        rcases hleaves with ⟨h, -⟩ | ⟨sep, hsep, h⟩
        · exact nomatch h
        · cases h
          rw [htoken] at hsep
          exact nomatch hsep
      | cons u s =>
        cases h
        refine ⟨t :: s, tail, rfl, .inl ⟨⟨t, s, rfl, hallowed⟩, hs, ?_⟩, hleaves⟩
        rw [← htrigger]
        exact (createsWith_leaves (List.cons_ne_nil t s) hleaves _).symm
    · rintro ⟨s, tail, h, hs, hleaves⟩
      have hcreates : createsTrigger s = false := by
        rw [h] at htrigger
        rw [← htrigger]
        exact (createsWith_leaves hs.ne_nil hleaves _).symm
      rcases hs with hs | hs
      · exact ⟨s, tail, h, hs.one, hleaves⟩
      · rw [hs.creates] at hcreates
        exact nomatch hcreates

/-! ### Scripts -/

/-- The first statement of a script and the script behind it. -/
theorem splits_iff {ss : List (List Token)} {tokens : List Token} :
    Splits ss tokens ↔ ∃ s ss' tail rest, ss = s :: ss' ∧ tokens = s ++ tail ∧ Leaves tail rest ∧
      (ss' = [] ∧ rest = [] ∨ Splits ss' rest ∧ tail ≠ []) := by
  constructor
  · intro h
    cases h with
    | last => exact ⟨tokens, [], [], [], rfl, (List.append_nil _).symm, .inl ⟨rfl, rfl⟩, .inl ⟨rfl, rfl⟩⟩
    | @ended s t ht => exact ⟨s, [], [t], [], rfl, rfl, .inr ⟨t, ht, rfl⟩, .inl ⟨rfl, rfl⟩⟩
    | @next s t ss ts ht hrest =>
      exact ⟨s, ss, t :: ts, ts, rfl, rfl, .inr ⟨t, ht, rfl⟩, .inr ⟨hrest, List.cons_ne_nil t ts⟩⟩
  · rintro ⟨s, ss', tail, rest, rfl, rfl, hleaves, hrest⟩
    rcases hleaves with ⟨rfl, rfl⟩ | ⟨sep, hsep, rfl⟩
    · rcases hrest with ⟨rfl, -⟩ | ⟨-, hne⟩
      · rw [List.append_nil]
        exact .last
      · exact absurd rfl hne
    · rcases hrest with ⟨rfl, rfl⟩ | ⟨hrest, -⟩
      · exact .ended hsep
      · exact .next hsep hrest

/-- The loop accepts the scripts without a plainly temporary object. -/
theorem migrationLoop_iff : ∀ (n : ℕ) {tokens : List Token}, tokens.length ≤ n →
    Separated tokens → Durable tokens →
    (migrationLoop n tokens = .ok () ↔ tokens = [] ∨ ∃ ss, Splits ss tokens ∧
      ∀ s ∈ ss, Statement s ∧ createsWith temporaryWord s = false) := by
  intro n
  induction n with
  | zero =>
    intro tokens hlength _ _
    rw [List.length_eq_zero_iff.mp (Nat.le_zero.mp hlength)]
    exact ⟨fun _ => .inl rfl, fun _ => by simp [migrationLoop]⟩
  | succ n ih =>
    intro tokens hlength hseparated hdurable
    cases tokens with
    | nil => exact ⟨fun _ => .inl rfl, fun _ => by simp [migrationLoop]⟩
    | cons t ts =>
      -- one round: the checks on the first token, and one statement
      have round : migrationLoop (n + 1) (t :: ts) = .ok () ↔
          containsFold migrationStatementWords t.word = true ∧ t.word ≠ [] ∧
            createsWith temporaryWord (t :: ts) = false ∧
            ∃ rest, consume (t :: ts) = .ok rest ∧ migrationLoop n rest = .ok () := by
        rw [migrationLoop, classifyCreate_temporary]
        by_cases hword : t.word = []
        · by_cases hsep : t.separator = true <;> simp [hword, hsep]
        · have hsep : ¬ t.separator = true := fun h => hword (hseparated t List.mem_cons_self h)
          rw [if_neg hsep, if_neg hword]
          by_cases hallowed : containsFold migrationStatementWords t.word = true
          · by_cases htemporary : createsWith temporaryWord (t :: ts) = true
            · simp [hallowed, htemporary]
            · rw [Bool.not_eq_true] at htemporary
              rw [classifyCreate_trigger htemporary]
              rw [hallowed, htemporary]
              simp only [Bool.not_true, Bool.false_eq_true, if_false, true_and, ne_eq, hword,
                not_false_eq_true]
              rw [consume, List.tail_cons]
              generalize (if createsTrigger (t :: ts) = true then consumeTrigger {} ts
                else consumeOrdinaryStatement (t :: ts)) = read
              cases read with
              | error e =>
                constructor
                · intro h
                  cases h
                · rintro ⟨_, h, -⟩
                  cases h
              | ok rest =>
                constructor
                · intro h
                  exact ⟨rest, rfl, h⟩
                · rintro ⟨rest, h, hrun⟩
                  cases h
                  exact hrun
          · simp [hallowed]
      rw [round]
      -- the statement read takes at least one token
      have shorter : ∀ {s tail rest : List Token}, t :: ts = s ++ tail → s ≠ [] →
          Leaves tail rest → rest.length ≤ n := by
        intro s tail rest htokens hs hleaves
        have hsum : ts.length + 1 = s.length + tail.length := by
          rw [← List.length_append, ← htokens, List.length_cons]
        have hpos : 0 < s.length := List.length_pos_iff.mpr hs
        have hrest := hleaves.length
        rw [List.length_cons] at hlength
        omega
      have behind : ∀ {s tail rest : List Token}, t :: ts = s ++ tail → s ≠ [] →
          Leaves tail rest → (migrationLoop n rest = .ok () ↔ rest = [] ∨ ∃ ss, Splits ss rest ∧
            ∀ s ∈ ss, Statement s ∧ createsWith temporaryWord s = false) := by
        intro s tail rest htokens hs hleaves
        refine ih (shorter htokens hs hleaves) ?_ ?_
        · rw [htokens] at hseparated
          exact hseparated.right.leaves hleaves
        · rw [htokens] at hdurable
          exact hdurable.right.leaves hleaves
      constructor
      · rintro ⟨hallowed, hword, htemporary, rest, hconsume, hrun⟩
        obtain ⟨s, tail, htokens, hs, hleaves⟩ :=
          (consume_iff hseparated hdurable hallowed hword).mp hconsume
        have hfirst : Statement s ∧ createsWith temporaryWord s = false := by
          refine ⟨hs, ?_⟩
          rw [← htemporary, htokens]
          exact (createsWith_leaves hs.ne_nil hleaves _).symm
        right
        by_cases hrest : rest = []
        · refine ⟨[s], splits_iff.mpr ⟨s, [], tail, rest, rfl, htokens, hleaves, .inl ⟨rfl, hrest⟩⟩, ?_⟩
          intro s' hs'
          rw [List.mem_singleton.mp hs']
          exact hfirst
        · rcases (behind htokens hs.ne_nil hleaves).mp hrun with h | ⟨ss, hsplits, hss⟩
          · exact absurd h hrest
          · have htail : tail ≠ [] := by
              rintro rfl
              have hlength := hleaves.length
              exact hrest (List.length_eq_zero_iff.mp (Nat.le_zero.mp hlength))
            refine ⟨s :: ss, splits_iff.mpr ⟨s, ss, tail, rest, rfl, htokens, hleaves,
              .inr ⟨hsplits, htail⟩⟩, ?_⟩
            intro s' hs'
            rcases List.mem_cons.mp hs' with rfl | hs'
            · exact hfirst
            · exact hss s' hs'
      · rintro (h | ⟨ss, hsplits, hss⟩)
        · cases h
        · obtain ⟨s, ss', tail, rest, rfl, htokens, hleaves, hrest⟩ := splits_iff.mp hsplits
          obtain ⟨hs, htemporary⟩ := hss s List.mem_cons_self
          obtain ⟨u, us, hfirst, hallowed⟩ := hs.first
          have hhead : u = t := by
            rw [hfirst, List.cons_append, List.cons.injEq] at htokens
            exact htokens.1.symm
          subst hhead
          have hword : u.word ≠ [] := by
            intro hword
            rw [hword] at hallowed
            exact absurd hallowed (by decide)
          refine ⟨hallowed, hword, ?_, rest, ?_, ?_⟩
          · rw [← htemporary, htokens]
            exact createsWith_leaves hs.ne_nil hleaves _
          · exact (consume_iff hseparated hdurable hallowed hword).mpr ⟨s, tail, htokens, hs, hleaves⟩
          · rw [behind htokens hs.ne_nil hleaves]
            rcases hrest with ⟨-, hrest⟩ | ⟨hsplits, -⟩
            · exact .inl hrest
            · exact .inr ⟨ss', hsplits, fun s' hs' => hss s' (List.mem_cons_of_mem s hs')⟩

/-! ### What a round reads -/

/-- The tokens read from the front, without a `ROLLBACK` among them. -/
def Reads (ts rest : List Token) : Prop :=
  ∃ read, ts = read ++ rest ∧ ∀ t ∈ read, t.separator = false → equalWord t "ROLLBACK" = false

theorem Reads.refl (ts : List Token) : Reads ts ts := ⟨[], rfl, fun _ ht => nomatch ht⟩

theorem Reads.cons {t : Token} (ht : t.separator = false → equalWord t "ROLLBACK" = false)
    (h : Reads ts rest) : Reads (t :: ts) rest := by
  obtain ⟨read, rfl, hread⟩ := h
  refine ⟨t :: read, rfl, ?_⟩
  intro u hu
  rcases List.mem_cons.mp hu with rfl | hu
  · exact ht
  · exact hread u hu

theorem Reads.length (h : Reads ts rest) : rest.length ≤ ts.length := by
  obtain ⟨read, rfl, -⟩ := h
  rw [List.length_append]
  omega

theorem Reads.durable (hseparated : Separated ts) (h : Reads ts rest) (hrest : Durable rest) :
    Durable ts := by
  obtain ⟨read, rfl, hread⟩ := h
  intro t ht
  rcases List.mem_append.mp ht with hread' | hrest'
  · by_cases hsep : t.separator = true
    · rw [equalWord, hseparated t ht hsep]
      rfl
    · exact hread t hread' (Bool.not_eq_true _ ▸ hsep)
  · exact hrest t hrest'

theorem consumeOrdinaryStatement_reads (h : consumeOrdinaryStatement ts = .ok rest) :
    Reads ts rest := by
  induction ts with
  | nil =>
    cases h
    exact .refl []
  | cons t ts ih =>
    rw [consumeOrdinaryStatement] at h
    split_ifs at h with hrollback hsep
    · cases h
      exact (Reads.refl rest).cons fun _ => Bool.not_eq_true _ ▸ hrollback
    · exact (ih h).cons fun _ => Bool.not_eq_true _ ▸ hrollback

theorem consumeTrigger_reads {state : TriggerState} (h : consumeTrigger state ts = .ok rest) :
    Reads ts rest := by
  induction ts generalizing state with
  | nil => exact nomatch h
  | cons t ts ih =>
    rw [consumeTrigger.eq_def] at h
    simp only at h
    by_cases hrollback : equalWord t "ROLLBACK" = true
    · rw [if_pos hrollback] at h
      exact nomatch h
    · have front : Reads ts rest → Reads (t :: ts) rest :=
        Reads.cons fun _ => Bool.not_eq_true _ ▸ hrollback
      rw [if_neg hrollback] at h
      split_ifs at h
      all_goals try exact front (ih h)
      -- the `END` of the trigger
      cases ts with
      | nil =>
        cases h
        exact front (.refl [])
      | cons following ts =>
        simp only at h
        split_ifs at h with hsep
        cases h
        refine front ((Reads.refl rest).cons ?_)
        intro hfollowing
        rw [hfollowing] at hsep
        exact absurd rfl hsep

theorem round_reads {t : Token} {trigger : Bool}
    (h : (if trigger then consumeTrigger {} ts else consumeOrdinaryStatement (t :: ts)) = .ok rest)
    (ht : trigger = true → equalWord t "ROLLBACK" = false) :
    Reads (t :: ts) rest ∧ rest.length ≤ ts.length := by
  cases trigger with
  | true =>
    have hreads := consumeTrigger_reads h
    exact ⟨hreads.cons fun _ => ht rfl, hreads.length⟩
  | false =>
    rw [if_neg Bool.false_ne_true] at h
    refine ⟨consumeOrdinaryStatement_reads h, ?_⟩
    rw [consumeOrdinaryStatement] at h
    split_ifs at h
    · cases h
      exact le_rfl
    · exact (consumeOrdinaryStatement_reads h).length

theorem rollback_of_classified {t : Token} (h : (classifyCreate (t :: ts)).1 = true) :
    equalWord t "ROLLBACK" = false := by
  have hcreate : equalWord t "CREATE" = true := by
    by_contra hcreate
    rw [Bool.not_eq_true] at hcreate
    rw [classifyCreate, hcreate] at h
    exact absurd h Bool.false_ne_true
  exact equalWord_unique hcreate (by decide)

theorem durable_of_migrationLoop : ∀ (n : ℕ) {tokens : List Token}, Separated tokens →
    migrationLoop n tokens = .ok () → Durable tokens := by
  intro n
  induction n with
  | zero =>
    intro tokens _ h
    cases tokens with
    | nil => exact fun _ ht => nomatch ht
    | cons t ts => exact nomatch h
  | succ n ih =>
    intro tokens hseparated h
    cases tokens with
    | nil => exact fun _ ht => nomatch ht
    | cons t ts =>
      rw [migrationLoop] at h
      split_ifs at h
      all_goals
        cases hround : (if (classifyCreate (t :: ts)).1 then consumeTrigger {} ts
            else consumeOrdinaryStatement (t :: ts)) with
        | error e => simp_all
        | ok rest =>
          have hrun : migrationLoop n rest = .ok () := by simp_all
          have hreads := (round_reads hround rollback_of_classified).1
          have hrest : Separated rest := by
            obtain ⟨read, hread, -⟩ := hreads
            rw [hread] at hseparated
            exact hseparated.right
          exact hreads.durable hseparated (ih hrest hrun)

/-! ### The gate -/

theorem separated_of_tokenize {text : GoString} {maxBytes : ℕ} {tokens : List Token}
    (h : tokenize text maxBytes = some tokens) : Separated tokens := by
  rw [tokenize] at h
  obtain ⟨ls, -, rfl⟩ := Option.map_eq_some_iff.mp h
  intro t ht hsep
  obtain ⟨l, -, hl⟩ := List.mem_filterMap.mp ht
  rcases lexeme_cases l with ⟨hnone, -⟩ | rfl | ⟨w, rfl⟩ | ⟨u, hu, hsep', -⟩
  · rw [hnone] at hl
    exact nomatch hl
  · cases hl
    rfl
  · cases hl
    exact nomatch hsep
  · rw [hu] at hl
    cases hl
    rw [hsep'] at hsep
    exact nomatch hsep

/-- **What the gate accepts**: the scripts without a plainly temporary object. -/
theorem accepts_iff {text : GoString} {maxBytes : ℕ} {tokens : List Token}
    (h : tokenize text maxBytes = some tokens) :
    validateMigrationScript text maxBytes = .ok () ↔
      ∃ ss, Script ss tokens ∧ ¬ PlainlyTemporary ss tokens := by
  have hseparated := separated_of_tokenize h
  rw [validateMigrationScript, h]
  simp only
  by_cases hnil : tokens = []
  · rw [if_pos hnil]
    refine ⟨fun h => (nomatch h), ?_⟩
    rintro ⟨ss, hscript, -⟩
    obtain ⟨s, ss', tail, rest, rfl, htokens, -⟩ := splits_iff.mp hscript.splits
    rw [hnil] at htokens
    have hs := hscript.statements s List.mem_cons_self
    exact absurd (List.append_eq_nil_iff.mp htokens.symm).1 hs.ne_nil
  · rw [if_neg hnil]
    by_cases hreference : hasTemporarySchemaReference tokens = true
    · rw [if_pos hreference]
      refine ⟨fun h => (nomatch h), ?_⟩
      rintro ⟨ss, -, hplain⟩
      exact absurd (.inr ((hasTemporarySchemaReference_iff tokens).mp hreference)) hplain
    · rw [if_neg hreference]
      constructor
      · intro hloop
        have hdurable := durable_of_migrationLoop _ hseparated hloop
        rcases (migrationLoop_iff _ le_rfl hseparated hdurable).mp hloop with h | ⟨ss, hsplits, hss⟩
        · exact absurd h hnil
        · refine ⟨ss, ⟨hsplits, fun s hs => (hss s hs).1, hdurable⟩, ?_⟩
          rintro (⟨s, hs, htemporary⟩ | hqualifies)
          · rw [(hss s hs).2] at htemporary
            exact nomatch htemporary
          · exact hreference ((hasTemporarySchemaReference_iff tokens).mpr hqualifies)
      · rintro ⟨ss, hscript, hplain⟩
        refine (migrationLoop_iff _ le_rfl hseparated hscript.durable).mpr (.inr ⟨ss, hscript.splits, ?_⟩)
        intro s hs
        refine ⟨hscript.statements s hs, ?_⟩
        by_contra htemporary
        rw [Bool.not_eq_false] at htemporary
        exact hplain (.inl ⟨s, hs, htemporary⟩)

/-- The first statement of a script is the one `consume` reads. -/
theorem Script.consume {s : List Token} {tail : List Token} (hseparated : Separated (s ++ tail))
    (hdurable : Durable (s ++ tail)) (hs : Statement s) (hleaves : Leaves tail rest) :
    Scripts.consume (s ++ tail) = .ok rest := by
  obtain ⟨t, ts, rfl, hallowed⟩ := hs.first
  rw [List.cons_append] at hseparated hdurable ⊢
  refine (consume_iff hseparated hdurable hallowed ?_).mpr ⟨t :: ts, tail, rfl, hs, hleaves⟩
  intro hword
  rw [hword] at hallowed
  exact absurd hallowed (by decide)

/-- A text splits into statements in one way. -/
theorem splits_unique : ∀ (n : ℕ) {ss ss' : List (List Token)} {tokens : List Token},
    tokens.length ≤ n → Separated tokens → Durable tokens → Splits ss tokens → Splits ss' tokens →
    (∀ s ∈ ss, Statement s) → (∀ s ∈ ss', Statement s) → ss = ss' := by
  intro n
  induction n with
  | zero =>
    intro ss ss' tokens hlength _ _ hsplits _ hss _
    obtain ⟨s, ss, tail, rest, rfl, htokens, -⟩ := splits_iff.mp hsplits
    rw [List.length_eq_zero_iff.mp (Nat.le_zero.mp hlength)] at htokens
    exact absurd (List.append_eq_nil_iff.mp htokens.symm).1 (hss s List.mem_cons_self).ne_nil
  | succ n ih =>
    intro ss ss' tokens hlength hseparated hdurable hsplits hsplits' hss hss'
    obtain ⟨s, ss, tail, rest, rfl, rfl, hleaves, hrest⟩ := splits_iff.mp hsplits
    obtain ⟨s', ss', tail', rest', rfl, htokens, hleaves', hrest'⟩ := splits_iff.mp hsplits'
    have hs := hss s List.mem_cons_self
    have hs' := hss' s' List.mem_cons_self
    have hread := Script.consume hseparated hdurable hs hleaves
    have hsame : rest = rest' := by
      rw [htokens] at hread hseparated hdurable
      have hread' := Script.consume hseparated hdurable hs' hleaves'
      rw [hread] at hread'
      exact Except.ok.inj hread'
    subst hsame
    have hstatement : s = s' := by
      rcases hleaves with ⟨rfl, rfl⟩ | ⟨sep, hsep, rfl⟩
      · rcases hleaves' with ⟨rfl, -⟩ | ⟨sep', hsep', rfl⟩
        · simpa using htokens
        · rw [List.append_nil] at htokens
          rw [hs.last htokens] at hsep'
          exact nomatch hsep'
      · rcases hleaves' with ⟨rfl, rfl⟩ | ⟨sep', hsep', rfl⟩
        · rw [List.append_nil] at htokens
          rw [hs'.last htokens.symm] at hsep
          exact nomatch hsep
        · exact (List.append_inj' htokens rfl).1
    subst hstatement
    have htail : rest.length ≤ n := by
      have hpos : 0 < s.length := List.length_pos_iff.mpr hs.ne_nil
      have hle := hleaves.length
      rw [List.length_append] at hlength
      omega
    have hfewer : ∀ {s : List Token} {ss : List (List Token)}, Splits ss rest → rest = [] →
        (∀ s ∈ ss, Statement s) → False := by
      intro _ ss hsplits hnil hss
      obtain ⟨s, ss, tail, rest, rfl, htokens, -⟩ := splits_iff.mp hsplits
      rw [hnil] at htokens
      exact (hss s List.mem_cons_self).ne_nil (List.append_eq_nil_iff.mp htokens.symm).1
    have hbehind := fun u hu => hss u (List.mem_cons_of_mem s hu)
    have hbehind' := fun u hu => hss' u (List.mem_cons_of_mem s hu)
    rcases hrest with ⟨rfl, hnil⟩ | ⟨hrest, -⟩
    · rcases hrest' with ⟨rfl, -⟩ | ⟨hrest', -⟩
      · rfl
      · exact (hfewer (s := s) hrest' hnil hbehind').elim
    · rcases hrest' with ⟨rfl, hnil⟩ | ⟨hrest', -⟩
      · exact (hfewer (s := s) hrest hnil hbehind).elim
      · rw [ih htail (hseparated.right.leaves hleaves) (hdurable.right.leaves hleaves) hrest hrest'
          hbehind hbehind']

theorem Script.unique {ss ss' : List (List Token)} {tokens : List Token}
    (hseparated : Separated tokens) (h : Script ss tokens) (h' : Script ss' tokens) : ss = ss' :=
  splits_unique _ le_rfl hseparated h.durable h.splits h'.splits h.statements h'.statements

def words (texts : List String) : List Token := texts.map fun text => { word := text.toList }

end Modary.Sql.Scripts
