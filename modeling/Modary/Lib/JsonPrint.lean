import Modary.Lib.JsonText

/-! # Printing JSON

The text of a document without white space, and that it is read back as that document: a value is
followed by a comma, a closing bracket or the end, where every token of it ends. -/

namespace Modary.Lib.JsonText

open Modary.Lib.GoText Modary.Lib.JsonNumber Modary.Lib.JsonValue Modary.Lib.Lexing

/-! ### Texts -/

/-- The text of a string. -/
def stringText (items : List Item) : List Rune := .inl '"' :: (items.flatMap Item.text ++ [.inl '"'])

mutual

/-- The text of a document. -/
def Doc.text : Doc → List Rune
  | .null => "null".toList.map .inl
  | .bool true => "true".toList.map .inl
  | .bool false => "false".toList.map .inl
  | .num value => value.text.map .inl
  | .str items => stringText items
  | .arr docs => .inl '[' :: (textOfDocs docs ++ [.inl ']'])
  | .obj members => .inl '\x7b' :: (textOfMembers members ++ [.inl '\x7d'])

def textOfDocs : List Doc → List Rune
  | [] => []
  | [doc] => doc.text
  | doc :: next :: docs => doc.text ++ .inl ',' :: textOfDocs (next :: docs)

def textOfMembers : List (List Item × Doc) → List Rune
  | [] => []
  | [(name, doc)] => stringText name ++ .inl ':' :: doc.text
  | (name, doc) :: next :: members =>
    stringText name ++ .inl ':' :: (doc.text ++ .inl ',' :: textOfMembers (next :: members))

end

mutual

/-- The tokens of a document. -/
def Doc.tokens : Doc → List Token
  | .null => [.null]
  | .bool value => [.bool value]
  | .num value => [.number value]
  | .str items => [.string items]
  | .arr docs => .punct '[' :: (tokensOfDocs docs ++ [.punct ']'])
  | .obj members => .punct '\x7b' :: (tokensOfMembers members ++ [.punct '\x7d'])

def tokensOfDocs : List Doc → List Token
  | [] => []
  | [doc] => doc.tokens
  | doc :: next :: docs => doc.tokens ++ .punct ',' :: tokensOfDocs (next :: docs)

def tokensOfMembers : List (List Item × Doc) → List Token
  | [] => []
  | [(name, doc)] => .string name :: .punct ':' :: doc.tokens
  | (name, doc) :: next :: members =>
    .string name :: .punct ':' :: (doc.tokens ++ .punct ',' :: tokensOfMembers (next :: members))

end

mutual

/-- Every item of the document is as it stands in a text. -/
def Doc.spelled : Doc → Bool
  | .str items => items.all Item.spelled
  | .arr docs => spelledDocs docs
  | .obj members => spelledMembers members
  | _ => true

def spelledDocs : List Doc → Bool
  | [] => true
  | doc :: docs => doc.spelled && spelledDocs docs

def spelledMembers : List (List Item × Doc) → Bool
  | [] => true
  | (name, doc) :: members => name.all Item.spelled && doc.spelled && spelledMembers members

end

/-! ### Strings -/

/-- The text of a string is read back as its items. -/
theorem readString_text {items : List Item} (h : items.all Item.spelled = true)
    (rest : List Rune) :
    readString (items.flatMap Item.text ++ .inl '"' :: rest) = some (items, rest) := by
  induction items with
  | nil => rfl
  | cons item items ih =>
    rw [List.all_cons, Bool.and_eq_true] at h
    have ih := ih h.2
    rw [List.flatMap_cons, List.append_assoc]
    have hitem := h.1
    cases item with
    | plain rune =>
      cases rune with
      | inr b =>
        change readString (.inr b :: (items.flatMap Item.text ++ _)) = _
        rw [readString, ih]
        rfl
      | inl c =>
        simp only [Item.spelled, Bool.and_eq_true, decide_eq_true_eq] at hitem
        change readString (.inl c :: (items.flatMap Item.text ++ _)) = _
        rw [readString.eq_7 _ _ hitem.1.1 (fun _ _ _ _ _ _ => hitem.1.2)
          (fun _ _ _ => hitem.1.2) hitem.1.2, if_neg (by omega), ih]
        rfl
    | short letter =>
      change readString (.inl '\\' :: .inl letter :: (items.flatMap Item.text ++ _)) = _
      have hmem : letter ∈ ['"', '\\', '/', 'b', 'f', 'n', 'r', 't'] := of_decide_eq_true hitem
      have hu : letter ≠ 'u' := by
        rintro rfl
        exact absurd hmem (by decide)
      rw [readString.eq_5 _ _ (fun _ _ _ _ _ _ => hu), if_pos hmem, ih]
      rfl
    | hex digits =>
      rw [Item.spelled, Bool.and_eq_true, decide_eq_true_eq] at hitem
      obtain ⟨a, b, c, d, rfl⟩ : ∃ a b c d, digits = [a, b, c, d] :=
        List.length_eq_four.mp hitem.1
      change readString (.inl '\\' :: .inl 'u' :: .inl a :: .inl b :: .inl c :: .inl d ::
        (items.flatMap Item.text ++ _)) = _
      rw [readString, if_pos hitem.2, ih]
      rfl

/-! ### Numbers -/

/-- What may follow a number: nothing, or a rune that no number goes on with. -/
def Ends : List Rune → Prop
  | [] => True
  | .inr _ :: _ => True
  | .inl c :: _ => c = ',' ∨ c = ']' ∨ c = '\x7d'

theorem takeDigits_append {digits : List Char} (h : digits.all isDigit = true)
    {rest : List Rune} (hrest : ∀ c cs, rest = .inl c :: cs → isDigit c = false) :
    takeDigits (digits.map .inl ++ rest) = (digits, rest) := by
  induction digits with
  | nil =>
    cases rest with
    | nil => rfl
    | cons rune rest =>
      cases rune with
      | inr b => rfl
      | inl c =>
        rw [List.map_nil, List.nil_append, takeDigits, if_neg (by simp [hrest c rest rfl])]
  | cons c digits ih =>
    rw [List.all_cons, Bool.and_eq_true] at h
    rw [List.map_cons, List.cons_append, takeDigits, if_pos h.1, ih h.2]

theorem not_isDigit_of_ends {rest : List Rune} (h : Ends rest) :
    ∀ c cs, rest = .inl c :: cs → isDigit c = false := by
  rintro c cs rfl
  rcases h with rfl | rfl | rfl <;> decide

/-- The exponent of a number is read back. -/
theorem takeExponent_text {exponent : Option Exponent}
    (h : exponent.all (fun e => e.digits ≠ [] && e.digits.all isDigit) = true)
    {rest : List Rune} (hrest : Ends rest) :
    takeExponent ((match exponent with
      | none => []
      | some e => e.text).map .inl ++ rest) = (exponent, rest) := by
  cases exponent with
  | none =>
    cases rest with
    | nil => rfl
    | cons rune rest =>
      cases rune with
      | inr b => rfl
      | inl c =>
        have hc : ¬ (c = 'e' ∨ c = 'E') := by
          rcases hrest with rfl | rfl | rfl <;> decide
        rw [List.map_nil, List.nil_append, takeExponent, if_neg hc]
  | some e =>
    obtain ⟨capital, sign, digits⟩ := e
    simp only [Option.all_some, Bool.and_eq_true, decide_eq_true_eq] at h
    obtain ⟨hne, hdigits⟩ := h
    have htake := takeDigits_append hdigits (not_isDigit_of_ends hrest)
    have hplain : takeSign (digits.map .inl ++ rest) = (none, digits.map .inl ++ rest) := by
      cases digits with
      | nil => exact absurd rfl hne
      | cons d digits =>
        rw [List.all_cons, Bool.and_eq_true] at hdigits
        rw [List.map_cons, List.cons_append]
        unfold takeSign
        split
        · next heq =>
          cases heq
          exact absurd hdigits.1 (by decide)
        · next heq =>
          cases heq
          exact absurd hdigits.1 (by decide)
        · rfl
    rcases sign with - | - | -
    · cases capital <;> simp [Exponent.text, takeExponent, hplain, htake]
    · cases capital <;> simp [Exponent.text, takeExponent, takeSign, htake]
    · cases capital <;> simp [Exponent.text, takeExponent, takeSign, htake]

theorem digits_of_wholeNumber {whole : List Char} (h : wholeNumber whole = true) :
    whole.all isDigit = true := by
  cases whole with
  | nil => rfl
  | cons c cs =>
    simp only [wholeNumber, Bool.or_eq_true, Bool.and_eq_true, decide_eq_true_eq] at h
    rw [List.all_cons, Bool.and_eq_true]
    rcases h with ⟨rfl, rfl⟩ | ⟨⟨hlow, hhigh⟩, hall⟩
    · exact ⟨by decide, rfl⟩
    · refine ⟨?_, hall⟩
      have hzero : '0' ≤ c := le_trans (by decide) hlow
      rw [isDigit, Bool.and_eq_true]
      exact ⟨decide_eq_true hzero, decide_eq_true hhigh⟩

/-- **A number is read back from its text**, whatever ends it. -/
theorem readNumber_text (n : Number) {rest : List Rune} (hrest : Ends rest) :
    readNumber n.negative ((n.whole ++ n.rest).map .inl ++ rest) = some (n, rest) := by
  obtain ⟨negative, whole, fraction, exponent, hwhole, hfraction, hexponent⟩ := n
  have htail := takeExponent_text hexponent hrest
  have hdigits : whole.all isDigit = true := digits_of_wholeNumber hwhole
  generalize hT : (match exponent with
    | none => []
    | some e => e.text).map Sum.inl ++ rest = tail at htail
  have hstop : ∀ c cs, tail = .inl c :: cs → isDigit c = false ∧ c ≠ '.' := by
    rintro c cs rfl
    cases exponent with
    | none =>
      rw [List.map_nil, List.nil_append] at hT
      subst hT
      rcases hrest with rfl | rfl | rfl <;> decide
    | some e =>
      have hc : (if e.capital then 'E' else 'e') = c := by
        have hcons := List.cons.inj hT
        exact Sum.inl.inj hcons.1
      rw [← hc]
      cases e.capital <;> decide
  cases fraction with
  | none =>
    have hread : takeDigits (whole.map .inl ++ tail) = (whole, tail) :=
      takeDigits_append hdigits fun c cs h => (hstop c cs h).1
    have hnone : takeFraction tail = (none, tail) := by
      unfold takeFraction
      split
      · next rest' => exact absurd rfl (hstop '.' rest' rfl).2
      · rfl
    have htext : (whole ++ Number.rest ⟨negative, whole, none, exponent, hwhole, hfraction,
        hexponent⟩).map Sum.inl ++ rest = whole.map .inl ++ tail := by
      rw [Number.rest, List.nil_append, List.map_append, List.append_assoc]
      exact congrArg (whole.map Sum.inl ++ ·) hT
    rw [htext]
    simp only [readNumber, hread, hnone, htail, hwhole, hfraction, hexponent, dif_pos]
  | some digits =>
    have hinner : digits.all isDigit = true := by
      simp only [Option.all_some, Bool.and_eq_true] at hfraction
      exact hfraction.2
    have hread : takeDigits (whole.map .inl ++ .inl '.' :: (digits.map .inl ++ tail)) =
        (whole, .inl '.' :: (digits.map .inl ++ tail)) := by
      refine takeDigits_append hdigits ?_
      rintro c cs h
      cases h
      decide
    have hfrac : takeFraction (.inl '.' :: (digits.map .inl ++ tail)) = (some digits, tail) := by
      rw [takeFraction, takeDigits_append hinner fun c cs h => (hstop c cs h).1]
    have htext : (whole ++ Number.rest ⟨negative, whole, some digits, exponent, hwhole, hfraction,
        hexponent⟩).map Sum.inl ++ rest =
          whole.map .inl ++ .inl '.' :: (digits.map .inl ++ tail) := by
      rw [Number.rest, List.map_append, List.map_append, List.append_assoc, List.append_assoc]
      exact congrArg (fun text => whole.map Sum.inl ++ .inl '.' :: (digits.map Sum.inl ++ text)) hT
    rw [htext]
    simp only [readNumber, hread, hfrac, htail, hwhole, hfraction, hexponent, dif_pos]

/-! ### Tokens -/

theorem lex_token {rune : Rune} {text rest : List Rune} {token : Token}
    (h : nextToken rune text = some (token, rest)) :
    scanner.lex () (rune :: text) = (scanner.lex () rest).map (token :: ·) := by
  rw [Lexer.lex_cons]
  change ((nextToken rune text).map fun read => (read.1, (), read.2)).bind _ = _
  rw [h]
  rfl

theorem lex_punct {c : Char} (h : c ∈ ['\x7b', '\x7d', '[', ']', ',', ':']) (rest : List Rune) :
    scanner.lex () (.inl c :: rest) = (scanner.lex () rest).map (.punct c :: ·) := by
  refine lex_token ?_
  have hblank : isBlank c = false := by
    simp only [List.mem_cons, List.not_mem_nil, or_false] at h
    rcases h with rfl | rfl | rfl | rfl | rfl | rfl <;> decide
  rw [nextToken, hblank, if_neg (by decide), if_pos h]

theorem lex_string {items : List Item} (h : items.all Item.spelled = true) (rest : List Rune) :
    scanner.lex () (stringText items ++ rest) =
      (scanner.lex () rest).map (.string items :: ·) := by
  have htext : stringText items ++ rest =
      .inl '"' :: (items.flatMap Item.text ++ .inl '"' :: rest) := by
    simp [stringText]
  rw [htext]
  refine lex_token ?_
  rw [nextToken, if_neg (by decide), if_neg (by decide), if_pos rfl, readString_text h]
  rfl

theorem lex_number (n : Number) {rest : List Rune} (h : Ends rest) :
    scanner.lex () (n.text.map .inl ++ rest) = (scanner.lex () rest).map (.number n :: ·) := by
  have hread := readNumber_text n h
  cases hn : n.negative with
  | true =>
    have htext : n.text.map Sum.inl ++ rest =
        .inl '-' :: ((n.whole ++ n.rest).map .inl ++ rest) := by
      simp [Number.text, hn]
    rw [hn] at hread
    rw [htext]
    refine lex_token ?_
    rw [nextToken, if_neg (by decide), if_neg (by decide), if_neg (by decide), if_pos rfl, hread]
    rfl
  | false =>
    have htext : n.text.map Sum.inl ++ rest = (n.whole ++ n.rest).map .inl ++ rest := by
      simp [Number.text, hn]
    rw [hn] at hread
    rw [htext]
    have hvalid := digits_of_wholeNumber n.whole_valid
    have hwhole := n.whole_valid
    cases hw : n.whole with
    | nil =>
      rw [hw] at hwhole
      cases hwhole
    | cons c cs =>
      rw [hw] at hread hvalid
      rw [List.all_cons, Bool.and_eq_true] at hvalid
      rw [List.cons_append, List.map_cons, List.cons_append] at hread ⊢
      refine lex_token ?_
      have hc : c ≠ '-' ∧ c ≠ '"' ∧ c ∉ ['\x7b', '\x7d', '[', ']', ',', ':'] ∧
          isBlank c = false := by
        refine ⟨?_, ?_, ?_, ?_⟩
        · rintro rfl
          exact absurd hvalid.1 (by decide)
        · rintro rfl
          exact absurd hvalid.1 (by decide)
        · intro hmem
          simp only [List.mem_cons, List.not_mem_nil, or_false] at hmem
          rcases hmem with rfl | rfl | rfl | rfl | rfl | rfl <;> exact absurd hvalid.1 (by decide)
        · by_contra hblank
          simp only [isBlank, Bool.not_eq_false, Bool.or_eq_true, decide_eq_true_eq] at hblank
          rcases hblank with ((rfl | rfl) | rfl) | rfl <;> exact absurd hvalid.1 (by decide)
      rw [nextToken, hc.2.2.2, if_neg (by decide), if_neg hc.2.2.1, if_neg hc.2.1, if_neg hc.1,
        if_pos hvalid.1, hread]
      rfl

/-- Tokens are told apart by their texts. -/
theorem Number.text_injective {n m : Number} (h : n.text = m.text) : n = m := by
  have hn := @lex_number n [] trivial
  have hm := @lex_number m [] trivial
  rw [h, hm] at hn
  simpa using hn.symm

/-- The tokens of `more` behind those that a text has. -/
def Lexes (text : List Rune) (tokens : List Token) : Prop :=
  ∀ rest, Ends rest →
    scanner.lex () (text ++ rest) = (scanner.lex () rest).map (tokens ++ ·)

theorem ends_comma (rest : List Rune) : Ends (.inl ',' :: rest) := .inl rfl

theorem ends_bracket (rest : List Rune) : Ends (.inl ']' :: rest) := .inr (.inl rfl)

theorem ends_brace (rest : List Rune) : Ends (.inl '\x7d' :: rest) := .inr (.inr rfl)

theorem lexes_word (c : Char) (word : String) {token : Token}
    (hnext : ∀ rest, nextToken (.inl c) (word.toList.map .inl ++ rest) = some (token, rest)) :
    Lexes (.inl c :: word.toList.map .inl) [token] := by
  intro rest _
  rw [List.cons_append]
  exact lex_token (hnext rest)

theorem afterWord_append (word : String) (rest : List Rune) :
    afterWord word (word.toList.map .inl ++ rest) = some rest := by
  unfold afterWord
  simp

mutual

/-- **The text of a document has its tokens.** -/
theorem lexes_text : ∀ doc : Doc, doc.spelled = true → Lexes doc.text doc.tokens
  | .null, _ => lexes_word 'n' "ull" fun rest => by
    rw [nextToken, afterWord_append]
    rfl
  | .bool true, _ => lexes_word 't' "rue" fun rest => by
    rw [nextToken, afterWord_append]
    rfl
  | .bool false, _ => lexes_word 'f' "alse" fun rest => by
    rw [nextToken, afterWord_append]
    rfl
  | .num n, _ => fun rest hrest => by
    rw [Doc.text, lex_number n hrest]
    rfl
  | .str items, h => fun rest _ => by
    rw [Doc.text, lex_string h]
    rfl
  | .arr docs, h => fun rest _ => by
    have hdocs := lexes_docs docs h (.inl ']' :: rest) (ends_bracket rest)
    rw [Doc.text, List.cons_append, List.append_assoc, lex_punct (by decide)]
    change (scanner.lex () (textOfDocs docs ++ .inl ']' :: rest)).map _ = _
    rw [hdocs, lex_punct (by decide), Option.map_map, Option.map_map]
    congr 1
    funext tokens
    simp [Doc.tokens]
  | .obj members, h => fun rest _ => by
    have hmembers := lexes_members members h (.inl '\x7d' :: rest) (ends_brace rest)
    rw [Doc.text, List.cons_append, List.append_assoc, lex_punct (by decide)]
    change (scanner.lex () (textOfMembers members ++ .inl '\x7d' :: rest)).map _ = _
    rw [hmembers, lex_punct (by decide), Option.map_map, Option.map_map]
    congr 1
    funext tokens
    simp [Doc.tokens]

theorem lexes_docs : ∀ docs : List Doc, spelledDocs docs = true →
    Lexes (textOfDocs docs) (tokensOfDocs docs)
  | [], _ => fun rest _ => by simp [textOfDocs, tokensOfDocs]
  | [doc], h => by
    rw [spelledDocs, Bool.and_eq_true] at h
    exact lexes_text doc h.1
  | doc :: next :: docs, h => fun rest hrest => by
    rw [spelledDocs, Bool.and_eq_true] at h
    have hdoc := lexes_text doc h.1
    have hdocs := lexes_docs (next :: docs) h.2 rest hrest
    rw [textOfDocs, List.append_assoc, List.cons_append, hdoc _ (ends_comma _),
      lex_punct (by decide), hdocs, Option.map_map, Option.map_map]
    congr 1
    funext tokens
    simp [tokensOfDocs]

theorem lexes_members : ∀ members : List (List Item × Doc), spelledMembers members = true →
    Lexes (textOfMembers members) (tokensOfMembers members)
  | [], _ => fun rest _ => by simp [textOfMembers, tokensOfMembers]
  | [(name, doc)], h => fun rest hrest => by
    rw [spelledMembers, Bool.and_eq_true, Bool.and_eq_true] at h
    have hdoc := lexes_text doc h.1.2
    rw [textOfMembers, List.append_assoc, lex_string h.1.1, List.cons_append,
      lex_punct (by decide), hdoc rest hrest, Option.map_map, Option.map_map]
    rfl
  | (name, doc) :: next :: members, h => fun rest hrest => by
    rw [spelledMembers, Bool.and_eq_true, Bool.and_eq_true] at h
    have hdoc := lexes_text doc h.1.2
    have hmembers := lexes_members (next :: members) h.2 rest hrest
    rw [textOfMembers, List.append_assoc, lex_string h.1.1, List.cons_append,
      lex_punct (by decide), List.append_assoc, List.cons_append, hdoc _ (ends_comma _),
      lex_punct (by decide), hmembers, Option.map_map, Option.map_map, Option.map_map,
      Option.map_map]
    congr 1
    funext tokens
    simp [tokensOfMembers]

end

/-! ### Reading back -/

/-- A value is read in the same way where the end of the array might stand. -/
theorem tokens_first (doc : Doc) : ∃ token tokens, doc.tokens = token :: tokens ∧
    ∀ stack : List Frame, readToken (.item, .items [] :: stack) token =
      readToken (.value, .items [] :: stack) token := by
  cases doc with
  | null => exact ⟨_, _, rfl, fun _ => rfl⟩
  | bool value => exact ⟨_, _, rfl, fun _ => rfl⟩
  | num value => exact ⟨_, _, rfl, fun _ => rfl⟩
  | str items => exact ⟨_, _, rfl, fun _ => rfl⟩
  | arr docs => exact ⟨_, _, rfl, fun _ => rfl⟩
  | obj members => exact ⟨_, _, rfl, fun _ => rfl⟩

theorem readTokens_first (doc : Doc) (stack : List Frame) (more : List Token) :
    (doc.tokens ++ more).foldlM readToken (.item, .items [] :: stack) =
      (doc.tokens ++ more).foldlM readToken (.value, .items [] :: stack) := by
  obtain ⟨token, tokens, htokens, hfirst⟩ := tokens_first doc
  rw [htokens, List.cons_append, List.foldlM_cons, List.foldlM_cons, hfirst]

theorem readTokens_docs_first (doc : Doc) (docs : List Doc) (stack : List Frame)
    (more : List Token) :
    (tokensOfDocs (doc :: docs) ++ more).foldlM readToken (.item, .items [] :: stack) =
      (tokensOfDocs (doc :: docs) ++ more).foldlM readToken (.value, .items [] :: stack) := by
  cases docs with
  | nil => exact readTokens_first doc stack more
  | cons next docs =>
    rw [tokensOfDocs, List.append_assoc]
    exact readTokens_first doc stack _

theorem opened_of_lt {mode : Mode} {frame : Frame} {stack : List Frame}
    (h : stack.length < maxNestingDepth) : opened mode frame stack = some (mode, frame :: stack) :=
  if_pos h

mutual

/-- The tokens of a document are read as that document. -/
theorem readTokens_doc : ∀ (doc : Doc) (stack : List Frame),
    stack.length + doc.depth ≤ maxNestingDepth →
      doc.tokens.foldlM readToken (.value, stack) = some (.after doc, stack)
  | .null, _, _ => rfl
  | .bool _, _, _ => rfl
  | .num _, _, _ => rfl
  | .str _, _, _ => rfl
  | .arr docs, stack, h => by
    rw [Doc.depth] at h
    rw [Doc.tokens, List.foldlM_cons]
    change (opened .item (.items []) stack).bind _ = _
    rw [opened_of_lt (by omega), Option.bind_some]
    cases docs with
    | nil => rfl
    | cons doc docs =>
      rw [readTokens_docs_first, readTokens_docs (doc :: docs) [] stack (by simp) (by omega)]
      rfl
  | .obj members, stack, h => by
    rw [Doc.depth] at h
    rw [Doc.tokens, List.foldlM_cons]
    change (opened .member (.members []) stack).bind _ = _
    rw [opened_of_lt (by omega), Option.bind_some]
    cases members with
    | nil => rfl
    | cons member members =>
      exact readTokens_members (member :: members) [] stack .member (.inl rfl) (by simp) (by omega)

theorem readTokens_docs : ∀ (docs done : List Doc) (stack : List Frame), docs ≠ [] →
    stack.length + (1 + depthOfDocs docs) ≤ maxNestingDepth →
      (tokensOfDocs docs ++ [Token.punct ']']).foldlM readToken (.value, .items done :: stack) =
        some (.after (.arr (done ++ docs)), stack)
  | [], _, _, hne, _ => absurd rfl hne
  | [doc], done, stack, _, h => by
    have hdoc := readTokens_doc doc (.items done :: stack) (by
      rw [depthOfDocs] at h
      rw [List.length_cons]
      omega)
    rw [tokensOfDocs, List.foldlM_append, hdoc]
    rfl
  | doc :: next :: docs, done, stack, _, h => by
    rw [depthOfDocs] at h
    have hdoc := readTokens_doc doc (.items done :: stack) (by
      rw [List.length_cons]
      omega)
    have hdocs := readTokens_docs (next :: docs) (done ++ [doc]) stack (by simp) (by omega)
    rw [tokensOfDocs, List.append_assoc, List.foldlM_append, hdoc, List.cons_append]
    change (tokensOfDocs (next :: docs) ++ [Token.punct ']']).foldlM readToken
      (.value, .items (done ++ [doc]) :: stack) = _
    rw [hdocs, List.append_assoc]
    rfl

theorem readTokens_members : ∀ (members done : List (List Item × Doc)) (stack : List Frame)
    (mode : Mode), mode = .member ∨ mode = .name → members ≠ [] →
    stack.length + (1 + depthOfNamed members) ≤ maxNestingDepth →
      (tokensOfMembers members ++ [Token.punct '\x7d']).foldlM readToken
        (mode, .members done :: stack) = some (.after (.obj (done ++ members)), stack)
  | [], _, _, _, _, hne, _ => absurd rfl hne
  | [(name, doc)], done, stack, mode, hmode, _, h => by
    have hdoc := readTokens_doc doc (.member done name :: stack) (by
      rw [depthOfNamed] at h
      rw [List.length_cons]
      omega)
    have hstart : (tokensOfMembers [(name, doc)] ++ [Token.punct '\x7d']).foldlM readToken
        (mode, .members done :: stack) =
          (doc.tokens ++ [Token.punct '\x7d']).foldlM readToken (.value, .member done name :: stack) := by
      rcases hmode with rfl | rfl <;> rfl
    rw [hstart, List.foldlM_append, hdoc]
    rfl
  | (name, doc) :: (key, inner) :: members, done, stack, mode, hmode, _, h => by
    rw [depthOfNamed] at h
    have hdoc := readTokens_doc doc (.member done name :: stack) (by
      rw [List.length_cons]
      omega)
    have hmembers := readTokens_members ((key, inner) :: members) (done ++ [(name, doc)]) stack .name
      (.inr rfl) (by simp) (by omega)
    have hstart : (tokensOfMembers ((name, doc) :: (key, inner) :: members) ++
        [Token.punct '\x7d']).foldlM readToken (mode, .members done :: stack) =
          (doc.tokens ++ Token.punct ',' :: (tokensOfMembers ((key, inner) :: members) ++
            [Token.punct '\x7d'])).foldlM readToken (.value, .member done name :: stack) := by
      rw [tokensOfMembers, List.cons_append, List.cons_append, List.append_assoc,
        List.cons_append]
      rcases hmode with rfl | rfl <;> rfl
    rw [hstart, List.foldlM_append, hdoc]
    change (tokensOfMembers ((key, inner) :: members) ++ [Token.punct '\x7d']).foldlM readToken
      (.name, .members (done ++ [(name, doc)]) :: stack) = _
    rw [hmembers, List.append_assoc]
    rfl

end

/-- **The text of a document is read back as that document.** -/
theorem parseRunes_text (doc : Doc) (hspelled : doc.spelled = true)
    (hdepth : doc.depth ≤ maxNestingDepth) : parseRunes doc.text = some doc := by
  have hlex := lexes_text doc hspelled [] trivial
  have hread := readTokens_doc doc [] (by
    rw [List.length_nil]
    omega)
  rw [List.append_nil, Lexer.lex_nil, Option.map_some, List.append_nil] at hlex
  rw [parseRunes, hlex]
  change (doc.tokens.foldlM readToken (.value, [])).bind _ = _
  rw [hread]
  rfl

/-! ### Values -/

mutual

/-- The value of a document, with its numbers as their tokens. -/
def decoded : Doc → Json Number
  | .null => .null
  | .bool value => .bool value
  | .num value => .num value
  | .str items => .str (textOf items)
  | .arr docs => .arr (decodedDocs docs)
  | .obj members => .obj (decodedMembers members)

def decodedDocs : List Doc → List (Json Number)
  | [] => []
  | doc :: docs => decoded doc :: decodedDocs docs

def decodedMembers : List (List Item × Doc) → List (String × Json Number)
  | [] => []
  | (name, doc) :: members => (textOf name, decoded doc) :: decodedMembers members

end

mutual

/-- The document that is written for a value. -/
def encoded : Json Number → Doc
  | .null => .null
  | .bool value => .bool value
  | .num value => .num value
  | .str value => .str (encodeText value)
  | .arr items => .arr (encodedItems items)
  | .obj members => .obj (encodedMembers members)

def encodedItems : List (Json Number) → List Doc
  | [] => []
  | item :: items => encoded item :: encodedItems items

def encodedMembers : List (String × Json Number) → List (List Item × Doc)
  | [] => []
  | (name, value) :: members => (encodeText name, encoded value) :: encodedMembers members

end

mutual

theorem decoded_encoded : ∀ v : Json Number, decoded (encoded v) = v
  | .null => rfl
  | .bool _ => rfl
  | .num _ => rfl
  | .str value => by rw [encoded, decoded, textOf_encodeText]
  | .arr items => by rw [encoded, decoded, decodedDocs_encodedItems items]
  | .obj members => by rw [encoded, decoded, decodedMembers_encodedMembers members]

theorem decodedDocs_encodedItems : ∀ v : List (Json Number), decodedDocs (encodedItems v) = v
  | [] => rfl
  | item :: items => by
    rw [encodedItems, decodedDocs, decoded_encoded item, decodedDocs_encodedItems items]

theorem decodedMembers_encodedMembers : ∀ v : List (String × Json Number),
    decodedMembers (encodedMembers v) = v
  | [] => rfl
  | (name, value) :: members => by
    rw [encodedMembers, decodedMembers, decoded_encoded value, textOf_encodeText,
      decodedMembers_encodedMembers members]

end

theorem encoded_injective : Function.Injective encoded := Function.LeftInverse.injective decoded_encoded

theorem encodedItems_eq_map (items : List (Json Number)) : encodedItems items = items.map encoded := by
  induction items with
  | nil => rfl
  | cons item items ih => rw [encodedItems, ih, List.map_cons]

theorem encodedMembers_eq_map (members : List (String × Json Number)) :
    encodedMembers members = members.map fun member => (encodeText member.1, encoded member.2) := by
  induction members with
  | nil => rfl
  | cons member members ih =>
    obtain ⟨name, value⟩ := member
    rw [encodedMembers, ih, List.map_cons]

theorem hexDigit_valid {n : ℕ} (h : n < 16) : (hexValue (hexDigit n)).isSome = true := by
  rw [hexValue_hexDigit h]
  rfl

/-- Four digits of a small number are an escape. -/
theorem spelled_hexDigits {n : ℕ} (h : n < 65536) : (Item.hex (hexDigits n)).spelled = true := by
  rw [Item.spelled, hexDigits]
  simp only [List.length_cons, List.length_nil, List.all_cons, List.all_nil, Bool.and_true,
    Bool.and_eq_true, decide_eq_true_eq]
  exact ⟨trivial, hexDigit_valid (by omega), hexDigit_valid (by omega), hexDigit_valid (by omega),
    hexDigit_valid (by omega)⟩

/-- What is written for a text stands in a text as it is. -/
theorem spelled_encodeText (s : String) : (encodeText s).all Item.spelled = true := by
  rw [encodeText, List.all_map, List.all_eq_true]
  intro rune hrune
  obtain ⟨c, -, rfl⟩ := List.mem_map.mp hrune
  change (encodeRune (.inl c)).spelled = true
  rw [encodeRune]
  split_ifs with hquote hb hf hn hr ht hhex
  · rcases hquote with rfl | rfl <;> decide
  · decide
  · decide
  · decide
  · decide
  · decide
  · have hlt : c.toNat < 65536 := by
      rcases hhex with hlt | hhtml
      · omega
      · have hbounds := htmlRune_bounds hhtml
        omega
    exact spelled_hexDigits hlt
  · rw [Item.spelled, Bool.and_eq_true, Bool.and_eq_true, decide_eq_true_eq, decide_eq_true_eq,
      decide_eq_true_eq]
    exact ⟨⟨fun h => hquote (.inl h), fun h => hquote (.inr h)⟩, by omega⟩

mutual

theorem spelled_encoded : ∀ v : Json Number, (encoded v).spelled = true
  | .null => rfl
  | .bool _ => rfl
  | .num _ => rfl
  | .str value => by
    rw [encoded, Doc.spelled]
    exact spelled_encodeText value
  | .arr items => by
    rw [encoded, Doc.spelled]
    exact spelled_encodedItems items
  | .obj members => by
    rw [encoded, Doc.spelled]
    exact spelled_encodedMembers members

theorem spelled_encodedItems : ∀ v : List (Json Number), spelledDocs (encodedItems v) = true
  | [] => rfl
  | item :: items => by
    rw [encodedItems, spelledDocs, spelled_encoded item, spelled_encodedItems items]
    rfl

theorem spelled_encodedMembers : ∀ v : List (String × Json Number),
    spelledMembers (encodedMembers v) = true
  | [] => rfl
  | (name, value) :: members => by
    rw [encodedMembers, spelledMembers, spelled_encodeText, spelled_encoded value,
      spelled_encodedMembers members]
    rfl

end

mutual

theorem depth_encoded : ∀ v : Json Number, (encoded v).depth = depth v
  | .null => rfl
  | .bool _ => rfl
  | .num _ => rfl
  | .str _ => rfl
  | .arr items => by rw [encoded, Doc.depth, depth, depth_encodedItems items]
  | .obj members => by rw [encoded, Doc.depth, depth, depth_encodedMembers members]

theorem depth_encodedItems : ∀ v : List (Json Number), depthOfDocs (encodedItems v) = depthOfItems v
  | [] => rfl
  | item :: items => by
    rw [encodedItems, depthOfDocs, depthOfItems, depth_encoded item, depth_encodedItems items]

theorem depth_encodedMembers : ∀ v : List (String × Json Number),
    depthOfNamed (encodedMembers v) = depthOfMembers v
  | [] => rfl
  | (name, value) :: members => by
    rw [encodedMembers, depthOfNamed, depthOfMembers, depth_encoded value,
      depth_encodedMembers members]

end

/-! ### What is written is UTF-8 -/

theorem encodeRune_utf8 (r : Rune) : (encodeRune r).text.any Sum.isRight = false := by
  cases r with
  | inr b => simp [encodeRune, Item.text]
  | inl c => rcases encodeRune_cases c with h | ⟨letter, h, -⟩ | ⟨h, -⟩ <;> simp [h, Item.text]

theorem stringText_utf8 (text : GoString) : (stringText (encodeText text)).any Sum.isRight = false := by
  have hitems : ∀ runes : List Rune,
      ((runes.map encodeRune).flatMap Item.text).any Sum.isRight = false := by
    intro runes
    induction runes with
    | nil => rfl
    | cons r runes ih =>
      rw [List.map_cons, List.flatMap_cons, List.any_append, encodeRune_utf8, ih]
      rfl
  rw [stringText, List.any_cons, List.any_append, encodeText, hitems]
  rfl

theorem chars_utf8 (chars : List Char) :
    (chars.map (Sum.inl : Char → Rune)).any Sum.isRight = false := by
  rw [List.any_eq_false]
  intro r hr
  obtain ⟨c, -, rfl⟩ := List.mem_map.mp hr
  exact Bool.false_ne_true

mutual

theorem text_utf8 : ∀ v : Json Number, (encoded v).text.any Sum.isRight = false
  | .null => chars_utf8 _
  | .bool true => chars_utf8 _
  | .bool false => chars_utf8 _
  | .num value => chars_utf8 value.text
  | .str value => stringText_utf8 (.utf8 value)
  | .arr items => by
    rw [encoded, Doc.text, List.any_cons, List.any_append, textOfDocs_utf8 items]
    rfl
  | .obj members => by
    rw [encoded, Doc.text, List.any_cons, List.any_append, textOfMembers_utf8 members]
    rfl

theorem textOfDocs_utf8 : ∀ items : List (Json Number),
    (textOfDocs (encodedItems items)).any Sum.isRight = false
  | [] => rfl
  | [item] => by
    rw [encodedItems, encodedItems, textOfDocs]
    exact text_utf8 item
  | item :: next :: items => by
    have hrest := textOfDocs_utf8 (next :: items)
    rw [encodedItems] at hrest
    rw [encodedItems, encodedItems, textOfDocs, List.any_append, text_utf8 item, List.any_cons, hrest]
    rfl

theorem textOfMembers_utf8 : ∀ members : List (String × Json Number),
    (textOfMembers (encodedMembers members)).any Sum.isRight = false
  | [] => rfl
  | [(name, value)] => by
    rw [encodedMembers, encodedMembers, textOfMembers, List.any_append, stringText_utf8 (.utf8 name),
      List.any_cons, text_utf8 value]
    rfl
  | (name, value) :: next :: members => by
    have hrest := textOfMembers_utf8 (next :: members)
    rw [encodedMembers] at hrest
    rw [encodedMembers, encodedMembers, textOfMembers, List.any_append, stringText_utf8 (.utf8 name),
      List.any_cons, List.any_append, text_utf8 value, List.any_cons, hrest]
    rfl

end

/-- **A value is read back from what is written for it.** -/
theorem parseRunes_encoded (v : Json Number) (h : depth v ≤ maxNestingDepth) :
    (parseRunes (encoded v).text).map decoded = some v := by
  have hdepth : (encoded v).depth ≤ maxNestingDepth := by
    rw [depth_encoded]
    exact h
  rw [parseRunes_text _ (spelled_encoded v) hdepth, Option.map_some, decoded_encoded]

end Modary.Lib.JsonText
