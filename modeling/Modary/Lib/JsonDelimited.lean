import Modary.Lib.JsonReading

/-! # Documents inside a text

What is read from a text is spelled as it stands there, also once it is compact. In front of a comma
the text of a document ends where the document does: no document goes on behind it. -/

namespace Modary.Lib.JsonText

open Modary.Lib.JsonValue Modary.Lib.Lexing

/-! ### What is read is spelled -/

/-- The items of a token are as they stand in a text. -/
def Token.spelled : Token → Bool
  | .string items => items.all Item.spelled
  | _ => true

theorem nextToken_spelled {rune : Rune} {text rest : List Rune} {token : Token}
    (h : nextToken rune text = some (token, rest)) : token.spelled = true := by
  cases rune with
  | inr b => cases h
  | inl c =>
    simp only [nextToken] at h
    split_ifs at h
    · cases h
      rfl
    · cases h
      rfl
    · obtain ⟨read, hread, heq⟩ := Option.map_eq_some_iff.mp h
      cases heq
      exact (text_of_readString hread).1
    all_goals
      obtain ⟨read, -, heq⟩ := Option.map_eq_some_iff.mp h
      cases heq
      rfl

/-- The tokens of a text are as they stand in it. -/
theorem lex_spelled (n : ℕ) : ∀ {text : List Rune} {tokens : List Token}, text.length ≤ n →
    scanner.lex () text = some tokens → ∀ token ∈ tokens, token.spelled = true := by
  induction n with
  | zero =>
    intro text tokens hlength h
    obtain rfl := List.eq_nil_of_length_eq_zero (Nat.le_zero.mp hlength)
    cases h
    simp
  | succ n ih =>
    intro text tokens hlength h
    cases text with
    | nil =>
      cases h
      simp
    | cons rune text =>
      obtain ⟨token, state, rest, tokens', hnext, hrest, rfl⟩ := Lexer.lex_eq_some h
      obtain ⟨read, hread, heq⟩ := Option.map_eq_some_iff.mp hnext
      cases heq
      have hshorter := nextToken_shorter hread
      have hlength : read.2.length ≤ n := by
        rw [List.length_cons] at hlength
        omega
      intro other hother
      rcases List.mem_cons.mp hother with rfl | hother
      · exact nextToken_spelled hread
      · exact ih hlength hrest other hother

mutual

/-- A document is spelled as its tokens are. -/
theorem spelled_of_tokens : ∀ doc : Doc, (∀ token ∈ doc.tokens, token.spelled = true) →
    doc.spelled = true
  | .null, _ => rfl
  | .bool _, _ => rfl
  | .num _, _ => rfl
  | .str items, h => h (.string items) List.mem_cons_self
  | .arr docs, h => spelledDocs_of_tokens docs fun token ht =>
    h token (List.mem_cons_of_mem _ (List.mem_append_left _ ht))
  | .obj members, h => spelledMembers_of_tokens members fun token ht =>
    h token (List.mem_cons_of_mem _ (List.mem_append_left _ ht))

theorem spelledDocs_of_tokens : ∀ docs : List Doc,
    (∀ token ∈ tokensOfDocs docs, token.spelled = true) → spelledDocs docs = true
  | [], _ => rfl
  | [doc], h => by
    rw [spelledDocs, spelled_of_tokens doc h]
    rfl
  | doc :: next :: docs, h => by
    rw [tokensOfDocs, List.forall_mem_append] at h
    rw [spelledDocs, spelled_of_tokens doc h.1,
      spelledDocs_of_tokens (next :: docs) (List.forall_mem_cons.mp h.2).2]
    rfl

theorem spelledMembers_of_tokens : ∀ members : List (List Item × Doc),
    (∀ token ∈ tokensOfMembers members, token.spelled = true) → spelledMembers members = true
  | [], _ => rfl
  | [(name, doc)], h => by
    rw [tokensOfMembers, List.forall_mem_cons, List.forall_mem_cons] at h
    obtain ⟨hname, -, hdoc⟩ := h
    rw [spelledMembers, spelled_of_tokens doc hdoc, show name.all Item.spelled = true from hname]
    rfl
  | (name, doc) :: next :: members, h => by
    rw [tokensOfMembers, List.forall_mem_cons, List.forall_mem_cons, List.forall_mem_append,
      List.forall_mem_cons] at h
    obtain ⟨hname, -, hdoc, -, hmembers⟩ := h
    rw [spelledMembers, spelled_of_tokens doc hdoc, show name.all Item.spelled = true from hname,
      spelledMembers_of_tokens (next :: members) hmembers]
    rfl

end

/-- **What is read from a text is spelled as it stands there.** -/
theorem spelled_of_parseRunes {text : List Rune} {doc : Doc} (h : parseRunes text = some doc) :
    doc.spelled = true := by
  obtain ⟨tokens, htokens, hsolid⟩ := JsonDecoder.spells_of_parseRunes h
  refine spelled_of_tokens doc fun token ht => lex_spelled _ le_rfl htokens token ?_
  rw [← hsolid] at ht
  exact List.mem_of_mem_filter ht

/-! ### Compact documents -/

theorem spelled_compactItem {item : Item} (h : item.spelled = true) :
    (compactItem item).spelled = true := by
  cases item with
  | plain rune =>
    cases rune with
    | inr b => rfl
    | inl c =>
      rw [compactItem]
      split_ifs with hhtml
      · have hbounds := htmlRune_bounds hhtml
        exact spelled_hexDigits (by omega)
      · exact h
  | short letter => exact h
  | hex digits => exact h

theorem spelled_map_compactItem {items : List Item} (h : items.all Item.spelled = true) :
    (items.map compactItem).all Item.spelled = true := by
  rw [List.all_eq_true] at h ⊢
  intro item hitem
  obtain ⟨other, hother, rfl⟩ := List.mem_map.mp hitem
  exact spelled_compactItem (h other hother)

mutual

theorem spelled_compact : ∀ doc : Doc, doc.spelled = true → (compact doc).spelled = true
  | .null, _ => rfl
  | .bool _, _ => rfl
  | .num _, _ => rfl
  | .str _, h => spelled_map_compactItem h
  | .arr docs, h => spelledDocs_compactDocs docs h
  | .obj members, h => spelledMembers_compactMembers members h

theorem spelledDocs_compactDocs : ∀ docs : List Doc, spelledDocs docs = true →
    spelledDocs (compactDocs docs) = true
  | [], _ => rfl
  | doc :: docs, h => by
    rw [spelledDocs, Bool.and_eq_true] at h
    rw [compactDocs, spelledDocs, spelled_compact doc h.1, spelledDocs_compactDocs docs h.2]
    rfl

theorem spelledMembers_compactMembers : ∀ members : List (List Item × Doc),
    spelledMembers members = true → spelledMembers (compactMembers members) = true
  | [], _ => rfl
  | (name, doc) :: members, h => by
    rw [spelledMembers, Bool.and_eq_true, Bool.and_eq_true] at h
    rw [compactMembers, spelledMembers, spelled_map_compactItem h.1.1, spelled_compact doc h.1.2,
      spelledMembers_compactMembers members h.2]
    rfl

end

mutual

/-- A compact text has the same value, with its numbers as their tokens. -/
theorem decoded_compact : ∀ doc : Doc, decoded (compact doc) = decoded doc
  | .null => rfl
  | .bool _ => rfl
  | .num _ => rfl
  | .str items => by rw [compact, decoded, decoded, textOf_map_compactItem]
  | .arr docs => by rw [compact, decoded, decoded, decodedDocs_compactDocs docs]
  | .obj members => by rw [compact, decoded, decoded, decodedMembers_compactMembers members]

theorem decodedDocs_compactDocs : ∀ docs : List Doc, decodedDocs (compactDocs docs) = decodedDocs docs
  | [] => rfl
  | doc :: docs => by
    rw [compactDocs, decodedDocs, decodedDocs, decoded_compact doc, decodedDocs_compactDocs docs]

theorem decodedMembers_compactMembers : ∀ members : List (List Item × Doc),
    decodedMembers (compactMembers members) = decodedMembers members
  | [] => rfl
  | (name, doc) :: members => by
    rw [compactMembers, decodedMembers, decodedMembers, textOf_map_compactItem,
      decoded_compact doc, decodedMembers_compactMembers members]

end

mutual

/-- A document nests as deep as its value. -/
theorem depth_decoded : ∀ doc : Doc, depth (decoded doc) = doc.depth
  | .null => rfl
  | .bool _ => rfl
  | .num _ => rfl
  | .str _ => rfl
  | .arr docs => by rw [decoded, depth, Doc.depth, depthOfItems_decodedDocs docs]
  | .obj members => by rw [decoded, depth, Doc.depth, depthOfMembers_decodedMembers members]

theorem depthOfItems_decodedDocs : ∀ docs : List Doc, depthOfItems (decodedDocs docs) = depthOfDocs docs
  | [] => rfl
  | doc :: docs => by
    rw [decodedDocs, depthOfItems, depthOfDocs, depth_decoded doc, depthOfItems_decodedDocs docs]

theorem depthOfMembers_decodedMembers : ∀ members : List (List Item × Doc),
    depthOfMembers (decodedMembers members) = depthOfNamed members
  | [] => rfl
  | (name, doc) :: members => by
    rw [decodedMembers, depthOfMembers, depthOfNamed, depth_decoded doc,
      depthOfMembers_decodedMembers members]

end

theorem depth_compact (doc : Doc) : (compact doc).depth = doc.depth := by
  rw [← depth_decoded, decoded_compact, depth_decoded]

/-! ### In front of a comma -/

/-- No document goes on behind another one with a comma. -/
theorem text_ne_append_comma {doc other : Doc} (hspelled : doc.spelled = true)
    (hdepth : doc.depth ≤ maxNestingDepth) (hspelled' : other.spelled = true)
    (hdepth' : other.depth ≤ maxNestingDepth) (rest : List Rune) :
    other.text ≠ doc.text ++ .inl ',' :: rest := by
  intro h
  have hparse := parseRunes_text other hspelled' hdepth'
  rw [h] at hparse
  obtain ⟨tokens, htokens, hparse⟩ := Option.bind_eq_some_iff.mp hparse
  rw [lexes_text doc hspelled _ (ends_comma rest), lex_punct (by decide), Option.map_map] at htokens
  obtain ⟨more, -, rfl⟩ := Option.map_eq_some_iff.mp htokens
  have hread := readTokens_doc doc [] (by simpa using hdepth)
  simp only [Function.comp_apply, List.foldlM_append, hread, List.foldlM_cons] at hparse
  cases hparse

/-- **In front of a comma a document ends where its text does.** -/
theorem text_append_comma_inj {doc other : Doc} (hspelled : doc.spelled = true)
    (hdepth : doc.depth ≤ maxNestingDepth) (hspelled' : other.spelled = true)
    (hdepth' : other.depth ≤ maxNestingDepth) {rest more : List Rune}
    (h : doc.text ++ .inl ',' :: rest = other.text ++ .inl ',' :: more) :
    doc = other ∧ rest = more := by
  rcases List.append_eq_append_iff.mp h with ⟨between, hother, hrest⟩ | ⟨between, hdoc, hmore⟩
  · cases between with
    | nil =>
      rw [List.append_nil] at hother
      have hparse := parseRunes_text doc hspelled hdepth
      rw [← hother, parseRunes_text other hspelled' hdepth'] at hparse
      rw [List.nil_append, List.cons.injEq] at hrest
      exact ⟨(Option.some.inj hparse).symm, hrest.2⟩
    | cons rune between =>
      rw [List.cons_append, List.cons.injEq] at hrest
      rw [← hrest.1] at hother
      exact absurd hother (text_ne_append_comma hspelled hdepth hspelled' hdepth' between)
  · cases between with
    | nil =>
      rw [List.append_nil] at hdoc
      have hparse := parseRunes_text other hspelled' hdepth'
      rw [← hdoc, parseRunes_text doc hspelled hdepth] at hparse
      rw [List.nil_append, List.cons.injEq] at hmore
      exact ⟨Option.some.inj hparse, hmore.2.symm⟩
    | cons rune between =>
      rw [List.cons_append, List.cons.injEq] at hmore
      rw [← hmore.1] at hdoc
      exact absurd hdoc (text_ne_append_comma hspelled' hdepth' hspelled hdepth between)

end Modary.Lib.JsonText
