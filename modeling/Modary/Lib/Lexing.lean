import Mathlib.Data.List.Basic
import Mathlib.Data.List.Forall2

/-! # Lexers and statements

A lexer reads one lexeme at a time, carrying a state; `lex` runs it to the end of the text and
satisfies `lex_cons` without mention of the fuel it is computed with. The lexemes of a text fall
into blanks, separators, words and other pieces, and the separators cut them into statements, each
with its text and its first word. Two readings of one text that differ in how they cut it into
pieces may still have the same statements: `Agree.statements` says when. -/

namespace Modary.Lib.Lexing

/-! ### Running a lexer -/

variable {σ χ L : Type*}

/-- A lexer over the characters `χ`: the next lexeme at a nonempty text, the state after it and the
text that remains. -/
structure Lexer (σ χ L : Type*) where
  next : σ → χ → List χ → Option (L × σ × List χ)
  shorter : ∀ {s c r l s' r'}, next s c r = some (l, s', r') → r'.length ≤ r.length

/-- At most as many rounds as the first argument says. -/
def Lexer.run (x : Lexer σ χ L) : ℕ → σ → List χ → Option (List L)
  | _, _, [] => some []
  | 0, _, _ :: _ => none
  | fuel + 1, s, c :: r =>
    match x.next s c r with
    | none => none
    | some (l, s', r') => (x.run fuel s' r').map (l :: ·)

/-- The lexemes of a text. -/
def Lexer.lex (x : Lexer σ χ L) (s : σ) (text : List χ) : Option (List L) :=
  x.run text.length s text

theorem Lexer.run_eq (x : Lexer σ χ L) : ∀ (fuel fuel' : ℕ) (s : σ) (text : List χ),
    text.length ≤ fuel → text.length ≤ fuel' → x.run fuel s text = x.run fuel' s text
  | fuel, fuel', s, [], _, _ => by cases fuel <;> cases fuel' <;> rfl
  | 0, fuel', s, c :: r, h, _ => by simp at h
  | fuel + 1, 0, s, c :: r, _, h => by simp at h
  | fuel + 1, fuel' + 1, s, c :: r, h, h' => by
    simp only [List.length_cons] at h h'
    simp only [run]
    rcases hn : x.next s c r with _ | ⟨l, s', r'⟩
    · rfl
    · have := x.shorter hn
      simp only
      rw [run_eq x fuel fuel' s' r' (by omega) (by omega)]

@[simp] theorem Lexer.lex_nil (x : Lexer σ χ L) (s : σ) : x.lex s [] = some [] := rfl

theorem Lexer.lex_cons (x : Lexer σ χ L) (s : σ) (c : χ) (r : List χ) :
    x.lex s (c :: r) =
      (x.next s c r).bind fun p => (x.lex p.2.1 p.2.2).map (p.1 :: ·) := by
  simp only [lex, List.length_cons, run]
  rcases hn : x.next s c r with _ | ⟨l, s', r'⟩
  · rfl
  · have := x.shorter hn
    simp only [Option.bind_some]
    rw [x.run_eq r.length r'.length s' r' this (Nat.le_refl _)]

/-- One round of a successful run. -/
theorem Lexer.lex_eq_some {x : Lexer σ χ L} {s : σ} {c : χ} {r : List χ} {ls : List L}
    (h : x.lex s (c :: r) = some ls) :
    ∃ l s' r' ls', x.next s c r = some (l, s', r') ∧ x.lex s' r' = some ls' ∧ ls = l :: ls' := by
  rw [x.lex_cons] at h
  rcases hn : x.next s c r with _ | ⟨l, s', r'⟩
  · simp [hn] at h
  · simp only [hn, Option.bind_some, Option.map_eq_some_iff] at h
    obtain ⟨ls', h1, rfl⟩ := h
    exact ⟨l, s', r', ls', rfl, h1, rfl⟩

theorem Lexer.lex_of_next {x : Lexer σ χ L} {s s' : σ} {c : χ} {r r' : List χ} {l : L}
    {ls : List L} (h : x.next s c r = some (l, s', r')) (h' : x.lex s' r' = some ls) :
    x.lex s (c :: r) = some (l :: ls) := by
  rw [x.lex_cons, h, Option.bind_some, h', Option.map_some]

/-! ### Statements -/

/-- What a piece of text is to the statement it belongs to. -/
inductive Kind (W : Type*)
  | blank
  | separator
  | word (w : W)
  | other
  deriving DecidableEq, Repr

/-- A piece of text with its kind. -/
structure Piece (χ W : Type*) where
  kind : Kind W
  text : List χ
  deriving DecidableEq, Repr

/-- A statement: its text, and the first word if it begins with one. -/
structure Statement (χ W : Type*) where
  text : List χ
  first : Option W
  deriving DecidableEq, Repr

variable {W : Type*}

/-- What a statement begins with when the piece is its first: nothing yet, a word, or something
else. -/
def Kind.lead : Kind W → Option (Option W)
  | .blank => none
  | .separator => none
  | .word w => some (some w)
  | .other => some none

/-- What a run of pieces begins with. -/
def lead : List (Piece χ W) → Option (Option W)
  | [] => none
  | p :: ps => p.kind.lead.or (lead ps)

/-- The text of a run of pieces. -/
def texts (ps : List (Piece χ W)) : List χ := ps.flatMap Piece.text

/-- The statement that ends here, unless there is nothing but blanks. -/
def close (text : List χ) : Option (Option W) → List (Statement χ W)
  | none => []
  | some first => [⟨text, first⟩]

/-- The statements of the pieces, behind a statement begun with `text` and `begun`. -/
def split (text : List χ) (begun : Option (Option W)) : List (Piece χ W) → List (Statement χ W)
  | [] => close text begun
  | ⟨.separator, _⟩ :: ps => close text begun ++ split [] none ps
  | p :: ps => split (text ++ p.text) (begun.or p.kind.lead) ps

/-- The statements of a text read as these pieces; an empty one is none. -/
def statements (ps : List (Piece χ W)) : List (Statement χ W) := split [] none ps

/-- No piece is a separator. -/
def Whole (ps : List (Piece χ W)) : Prop := ∀ p ∈ ps, p.kind ≠ .separator

@[simp] theorem whole_nil : Whole ([] : List (Piece χ W)) := by simp [Whole]

@[simp] theorem whole_cons {p : Piece χ W} {ps : List (Piece χ W)} :
    Whole (p :: ps) ↔ p.kind ≠ .separator ∧ Whole ps := by
  simp [Whole]

@[simp] theorem texts_nil : texts ([] : List (Piece χ W)) = [] := rfl

@[simp] theorem texts_cons (p : Piece χ W) (ps : List (Piece χ W)) :
    texts (p :: ps) = p.text ++ texts ps := rfl

theorem split_cons {p : Piece χ W} (h : p.kind ≠ .separator) (text : List χ)
    (begun : Option (Option W)) (ps : List (Piece χ W)) :
    split text begun (p :: ps) = split (text ++ p.text) (begun.or p.kind.lead) ps := by
  obtain ⟨k, t⟩ := p
  cases k with
  | separator => exact absurd rfl h
  | blank => rfl
  | word w => rfl
  | other => rfl

/-- A run without separators adds its text and, if nothing has begun, its first piece. -/
theorem split_append : ∀ {ps : List (Piece χ W)}, Whole ps → ∀ (text : List χ)
    (begun : Option (Option W)) (rest : List (Piece χ W)),
      split text begun (ps ++ rest) = split (text ++ texts ps) (begun.or (lead ps)) rest
  | [], _, text, begun, rest => by simp [lead]
  | p :: ps, h, text, begun, rest => by
    obtain ⟨h1, h2⟩ := whole_cons.mp h
    rw [List.cons_append, split_cons h1, split_append h2, texts_cons, lead, List.append_assoc,
      Option.or_assoc]

theorem texts_append (ps qs : List (Piece χ W)) : texts (ps ++ qs) = texts ps ++ texts qs :=
  List.flatMap_append

theorem lead_append (qs : List (Piece χ W)) : ∀ ps : List (Piece χ W),
    lead (ps ++ qs) = (lead ps).or (lead qs)
  | [] => by simp [lead]
  | p :: ps => by rw [List.cons_append, lead, lead, lead_append qs ps, Option.or_assoc]

/-! ### Two readings of one text -/

/-- The first pieces are the same, unless the first reading begins with a stray one. -/
def LeadsAgree (stray : Option W → Prop) (a b : Option (Option W)) : Prop :=
  a = b ∨ ∃ x, a = some x ∧ stray x ∧ b.isSome = true

/-- The two readings cut the text alike up to runs that hold no separator. The Boolean says whether
a statement has begun: behind its first piece the leads of a run no longer matter. -/
inductive Agree (stray : Option W → Prop) : Bool → List (Piece χ W) → List (Piece χ W) → Prop
  | nil {begun} : Agree stray begun [] []
  | separator {begun} {t t' : List χ} {gs ps} : Agree stray false gs ps →
      Agree stray begun (⟨.separator, t⟩ :: gs) (⟨.separator, t'⟩ :: ps)
  | block {begun} {g p gs ps} : Whole g → Whole p → texts g = texts p →
      (begun = true ∨ LeadsAgree stray (lead g) (lead p)) →
      Agree stray (begun || (lead g).isSome) gs ps → Agree stray begun (g ++ gs) (p ++ ps)

variable {stray : Option W → Prop}

/-- A statement has begun behind a piece of this kind. -/
def Kind.begun (begun : Bool) : Kind W → Bool
  | .separator => false
  | k => begun || k.lead.isSome

/-- One piece each, alike. -/
theorem Agree.same {begun : Bool} {p : Piece χ W} {gs ps : List (Piece χ W)}
    (hp : p.kind ≠ .separator) (h : Agree stray (p.kind.begun begun) gs ps) :
    Agree stray begun (p :: gs) (p :: ps) := by
  have hlead : p.kind.begun begun = (begun || (lead [p]).isSome) := by
    obtain ⟨k, t⟩ := p
    cases k <;> simp_all [Kind.begun, lead]
  rw [hlead] at h
  exact .block (g := [p]) (p := [p]) (by simp [hp]) (by simp [hp]) rfl (Or.inr (Or.inl rfl)) h

/-- A run of pieces behind what two statements have begun with. -/
theorem LeadsAgree.or {a a' b b' : Option (Option W)} (h : LeadsAgree stray a b)
    (h' : a.isSome = true ∨ LeadsAgree stray a' b') : LeadsAgree stray (a.or a') (b.or b') := by
  rcases h with rfl | ⟨x, rfl, hx, hb⟩
  · cases a with
    | none => simpa using h'
    | some x => exact Or.inl rfl
  · exact Or.inr ⟨x, rfl, hx, by cases b <;> simp_all⟩

/-- The statement of the first reading is that of the second, unless it begins with a stray piece. -/
def SameStatement (stray : Option W → Prop) (s t : Statement χ W) : Prop :=
  s.text = t.text ∧ (s.first = t.first ∨ stray s.first)

theorem close_agree {a b : Option (Option W)} (text : List χ) (h : LeadsAgree stray a b) :
    List.Forall₂ (SameStatement stray) (close text a) (close text b) := by
  rcases h with rfl | ⟨x, rfl, hx, hb⟩
  · cases a with
    | none => exact .nil
    | some x => exact .cons ⟨rfl, Or.inl rfl⟩ .nil
  · obtain ⟨y, rfl⟩ := Option.isSome_iff_exists.mp hb
    exact .cons ⟨rfl, Or.inr hx⟩ .nil

theorem Agree.split {begun : Bool} {gs ps : List (Piece χ W)} (h : Agree stray begun gs ps) :
    ∀ (text : List χ) {a b : Option (Option W)}, a.isSome = begun → LeadsAgree stray a b →
      List.Forall₂ (SameStatement stray) (split text a gs) (split text b ps) := by
  induction h with
  | nil => intro text a b _ hab; exact close_agree text hab
  | separator _ ih =>
    intro text a b _ hab
    exact List.rel_append (close_agree text hab) (ih [] rfl (Or.inl rfl))
  | block hg hp ht hl _ ih =>
    intro text a b hbegun hab
    rw [split_append hg, split_append hp, ht]
    refine ih _ ?_ (hab.or (hl.imp_left hbegun.trans))
    rw [Option.isSome_or, hbegun]

theorem eq_of_sameStatement {ss ts : List (Statement χ W)}
    (h : List.Forall₂ (SameStatement stray) ss ts) (hs : ∀ s ∈ ss, ¬ stray s.first) : ss = ts := by
  induction h with
  | nil => rfl
  | @cons s t ss ts hst _ ih =>
    have htail := ih fun x hx => hs x (List.mem_cons_of_mem _ hx)
    have hfirst : s.first = t.first := hst.2.resolve_right (hs s (by simp))
    have htext : s.text = t.text := hst.1
    obtain ⟨a, b⟩ := s
    obtain ⟨a', b'⟩ := t
    simp only at htext hfirst
    rw [htail, htext, hfirst]

/-- **Agreeing readings have the same statements**, if no statement of the first begins with a
stray piece. -/
theorem Agree.statements {gs ps : List (Piece χ W)} (h : Agree stray false gs ps)
    (hs : ∀ s ∈ statements gs, ¬ stray s.first) : statements gs = statements ps :=
  eq_of_sameStatement (h.split [] rfl (Or.inl rfl)) hs

end Modary.Lib.Lexing
