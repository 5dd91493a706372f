import Modary.Lib.JsonDecoder

/-! # Reading and spelling

A text is read as a document by the token machine exactly when its tokens, white space apart, are
those of the document and it does not nest too deep. -/

namespace Modary.Lib.JsonDecoder

open Modary.Lib.JsonText

/-- Items, each with the comma behind it. -/
def itemsRead (docs : List Doc) : List Token := docs.flatMap fun doc => doc.tokens ++ [.punct ',']

/-- Members, each with the comma behind it. -/
def membersRead (members : List (List Item × Doc)) : List Token :=
  members.flatMap fun member => memberTokens member ++ [.punct ',']

/-- The tokens of what surrounds a value. -/
def around : List Frame → List Token
  | [] => []
  | .items done :: stack => around stack ++ .punct '[' :: itemsRead done
  | .members done :: stack => around stack ++ .punct '\x7b' :: membersRead done
  | .member done name :: stack =>
    around stack ++ .punct '\x7b' :: (membersRead done ++ [.string name, .punct ':'])

/-- The tokens that have been read. -/
def tokensRead : Mode × List Frame → List Token
  | (.colon, .member done name :: stack) =>
    around stack ++ .punct '\x7b' :: (membersRead done ++ [.string name])
  | (.after doc, stack) => around stack ++ doc.tokens
  | (_, stack) => around stack

/-- A colon stands behind the name of a member. -/
def Named (state : Mode × List Frame) : Prop :=
  state.1 = .colon → ∃ done name stack, state.2 = .member done name :: stack

theorem tokensOfDocs_snoc (docs : List Doc) (doc : Doc) :
    tokensOfDocs (docs ++ [doc]) = itemsRead docs ++ doc.tokens := by
  induction docs with
  | nil => rfl
  | cons first docs ih =>
    rw [itemsRead, List.flatMap_cons, ← itemsRead, List.append_assoc, List.append_assoc, ← ih]
    cases docs <;> rfl

theorem tokensOfMembers_snoc (members : List (List Item × Doc)) (member : List Item × Doc) :
    tokensOfMembers (members ++ [member]) = membersRead members ++ memberTokens member := by
  induction members with
  | nil => rfl
  | cons first members ih =>
    rw [membersRead, List.flatMap_cons, ← membersRead, List.append_assoc, List.append_assoc, ← ih]
    cases members <;> simp [tokensOfMembers, memberTokens]

theorem itemsRead_snoc (docs : List Doc) (doc : Doc) :
    itemsRead (docs ++ [doc]) = itemsRead docs ++ (doc.tokens ++ [.punct ',']) := by
  simp [itemsRead]

theorem membersRead_snoc (members : List (List Item × Doc)) (member : List Item × Doc) :
    membersRead (members ++ [member]) =
      membersRead members ++ (memberTokens member ++ [.punct ',']) := by
  simp [membersRead]

theorem filter_punct (c : Char) : [Token.punct c].filter solid = [.punct c] := rfl

theorem filter_string (items : List Item) :
    [Token.string items].filter solid = [.string items] := rfl

/-- The token that a value starts with is read. -/
theorem tokensRead_startValue {stack : List Frame} {token : Token} {next : Mode × List Frame}
    (h : startValue stack token = some next) :
    Named next ∧ tokensRead next = around stack ++ [token].filter solid := by
  unfold startValue opened at h
  split at h
  all_goals first
    | cases h
      exact ⟨fun heq => (by cases heq), rfl⟩
    | split_ifs at h
      cases h
      exact ⟨fun heq => (by cases heq), rfl⟩
    | cases h

/-- A token is read. -/
theorem tokensRead_step {state next : Mode × List Frame} {token : Token} (hnamed : Named state)
    (h : readToken state token = some next) :
    Named next ∧ tokensRead next = tokensRead state ++ [token].filter solid := by
  unfold readToken at h
  split at h
  · cases h
    exact ⟨hnamed, (List.append_nil _).symm⟩
  · exact tokensRead_startValue h
  · cases h
    refine ⟨fun heq => (by cases heq), ?_⟩
    simp [tokensRead, around, itemsRead, Doc.tokens, tokensOfDocs, filter_punct]
  · exact tokensRead_startValue h
  · cases h
    refine ⟨fun heq => (by cases heq), ?_⟩
    simp [tokensRead, around, membersRead, Doc.tokens, tokensOfMembers, filter_punct]
  · cases h
    exact ⟨fun _ => ⟨_, _, _, rfl⟩, by simp [tokensRead, around, filter_string]⟩
  · cases h
    exact ⟨fun _ => ⟨_, _, _, rfl⟩, by simp [tokensRead, around, filter_string]⟩
  · cases h
    obtain ⟨done, name, stack, rfl⟩ := hnamed rfl
    refine ⟨fun heq => (by cases heq), ?_⟩
    simp [tokensRead, around, filter_punct]
  · cases h
    refine ⟨fun heq => (by cases heq), ?_⟩
    simp [tokensRead, around, itemsRead_snoc, filter_punct]
  · cases h
    refine ⟨fun heq => (by cases heq), ?_⟩
    simp [tokensRead, around, Doc.tokens, tokensOfDocs_snoc, filter_punct]
  · cases h
    refine ⟨fun heq => (by cases heq), ?_⟩
    simp [tokensRead, around, membersRead_snoc, memberTokens, filter_punct]
  · cases h
    refine ⟨fun heq => (by cases heq), ?_⟩
    simp [tokensRead, around, Doc.tokens, tokensOfMembers_snoc, memberTokens, filter_punct]
  · cases h

/-- The tokens of a text are read one after another. -/
theorem tokensRead_run {tokens : List Token} : ∀ {state final : Mode × List Frame}, Named state →
    tokens.foldlM readToken state = some final →
      tokensRead final = tokensRead state ++ tokens.filter solid := by
  induction tokens with
  | nil =>
    intro state final _ h
    cases h
    exact (List.append_nil _).symm
  | cons token tokens ih =>
    intro state final hnamed h
    rw [List.foldlM_cons] at h
    obtain ⟨next, hnext, h⟩ := Option.bind_eq_some_iff.mp h
    obtain ⟨hnamed', hread⟩ := tokensRead_step hnamed hnext
    rw [ih hnamed' h, hread, List.append_assoc, ← List.filter_append, List.singleton_append]

/-- White space is passed over. -/
theorem foldlM_readToken_filter (tokens : List Token) : ∀ state : Mode × List Frame,
    (tokens.filter solid).foldlM readToken state = tokens.foldlM readToken state := by
  induction tokens with
  | nil =>
    intro state
    rfl
  | cons token tokens ih =>
    intro state
    cases token with
    | blank => exact ih state
    | _ =>
      rw [List.filter_cons_of_pos (by rfl), List.foldlM_cons, List.foldlM_cons]
      exact bind_congr ih

/-- What is read from a text has its tokens. -/
theorem spells_of_parseRunes {text : List Rune} {doc : Doc} (h : parseRunes text = some doc) :
    Spells text doc.tokens := by
  obtain ⟨tokens, htokens, h⟩ := Option.bind_eq_some_iff.mp h
  obtain ⟨state, hstate, h⟩ := Option.bind_eq_some_iff.mp h
  have hread := tokensRead_run (fun heq => (by cases heq)) hstate
  split at h
  · cases h
    exact ⟨tokens, htokens, hread.symm⟩
  · cases h

/-- **A text with the tokens of a document that does not nest too deep is read as that document.** -/
theorem parseRunes_of_spells {text : List Rune} {doc : Doc} (h : Spells text doc.tokens)
    (hdepth : doc.depth ≤ maxNestingDepth) : parseRunes text = some doc := by
  obtain ⟨tokens, htokens, hsolid⟩ := h
  have hread := readTokens_doc doc [] (by rw [List.length_nil]; omega)
  rw [← hsolid, foldlM_readToken_filter] at hread
  rw [parseRunes, htokens]
  change (tokens.foldlM readToken (.value, [])).bind _ = _
  rw [hread]
  rfl

end Modary.Lib.JsonDecoder
