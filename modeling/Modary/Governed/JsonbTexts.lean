import Modary.Action.Documents
import Modary.Governed.Columns

/-! # The texts of `jsonb` as documents

What `jsonb` prints of a short array of texts or references is a document of actions, so that the
model of `jsonvalue` gives the stores what they take of it. -/

namespace Modary.Governed.JsonbTexts

open Modary.Lib.JsonText Modary.Lib.JsonDecoder Modary.Lib.JsonValue Modary.Lib.GoText
open Modary.Action.Canonical
open Modary.Action.Decoding (DecodeError)
open Modary.Action.Documents Modary.Action.Errors Modary.Action.Persistence
open Modary.Governed.Columns

/-! ### Spellings -/

theorem exists_item (c : Char) :
    ∃ item : Item, item.spelled = true ∧ item.text = (jsonbChar c).map .inl := by
  unfold jsonbChar
  split_ifs with hquote hslash h8 h12 h10 h13 h9 h32
  · exact ⟨.short '"', by decide, rfl⟩
  · exact ⟨.short '\\', by decide, rfl⟩
  · exact ⟨.short 'b', by decide, rfl⟩
  · exact ⟨.short 'f', by decide, rfl⟩
  · exact ⟨.short 'n', by decide, rfl⟩
  · exact ⟨.short 'r', by decide, rfl⟩
  · exact ⟨.short 't', by decide, rfl⟩
  · refine ⟨.hex ['0', '0', Lib.Codec.hexDigit (c.toNat / 16), Lib.Codec.hexDigit (c.toNat % 16)], ?_, rfl⟩
    have hdigit : ∀ n < 16, (hexValue (Lib.Codec.hexDigit n)).isSome = true := by decide
    have hzero := hdigit 0 (by decide)
    simp [Item.spelled, hdigit _ (show c.toNat / 16 < 16 by omega),
      hdigit _ (show c.toNat % 16 < 16 by omega), show (hexValue '0').isSome = true from hzero]
  · refine ⟨.plain (.inl c), ?_, rfl⟩
    simp [Item.spelled, hquote, hslash]
    omega

theorem exists_stringText (s : String) :
    ∃ items, items.all Item.spelled = true ∧ stringText items = (jsonbString s).map .inl := by
  choose item hspelled htext using exists_item
  refine ⟨s.toList.map item, by simp [hspelled], ?_⟩
  simp [stringText, jsonbString, List.flatMap_map, List.map_flatMap, htext]

theorem spells_punct {c : Char} (hc : c ∈ ['\x7b', '\x7d', '[', ']', ',', ':']) {rest : List Rune}
    {tokens : List Token} (h : Spells rest tokens) :
    Spells (.inl c :: rest) (.punct c :: tokens) := by
  obtain ⟨all, hall, rfl⟩ := h
  exact ⟨.punct c :: all, by rw [lex_punct hc, hall]; rfl, rfl⟩

theorem spells_string {items : List Item} (hitems : items.all Item.spelled = true)
    {rest : List Rune} {tokens : List Token} (h : Spells rest tokens) :
    Spells (stringText items ++ rest) (.string items :: tokens) := by
  obtain ⟨all, hall, rfl⟩ := h
  exact ⟨.string items :: all, by rw [lex_string hitems, hall]; rfl, rfl⟩

theorem spells_space {rest : List Rune} {tokens : List Token} (h : Spells rest tokens) :
    Spells (.inl ' ' :: rest) tokens := by
  obtain ⟨all, hall, rfl⟩ := h
  exact ⟨.blank :: all, by rw [lex_token (nextToken_blank rfl _), hall]; rfl, rfl⟩

/-! ### Documents -/

/-- A text that is read as a document wherever it stands, of few values that nest at most once. -/
structure Reads (text : List Char) (doc : Doc) : Prop where
  spells : ∀ {rest : List Rune} {tokens : List Token}, Spells rest tokens →
    Spells (text.map .inl ++ rest) (doc.tokens ++ tokens)
  nodes : nodes (decoded doc) ≤ 3
  depth : depth (decoded doc) ≤ 1
  unique : distinct (decoded doc) = true
  numbers : allNumbers (fun n => n.text.length ≤ maxJSONNumberBytes) (decoded doc) = true

theorem exists_reads_string (s : String) : ∃ doc, Reads (jsonbString s) doc := by
  obtain ⟨items, hitems, htext⟩ := exists_stringText s
  exact ⟨.str items, fun h => htext ▸ spells_string hitems h, Nat.le_add_left 1 2, Nat.zero_le 1,
    rfl, rfl⟩

/-- The members of a reference. -/
def members (kind id : List Item) : List (List Item × Doc) :=
  [(encodeText (.utf8 "id"), .str id), (encodeText (.utf8 "kind"), .str kind)]

theorem map_append_five {a b c d e : List Char} {a' b' c' d' e' : List Rune}
    (ha : a.map .inl = a') (hb : b.map .inl = b') (hc : c.map .inl = c') (hd : d.map .inl = d')
    (he : e.map .inl = e') : (a ++ b ++ c ++ d ++ e).map .inl = a' ++ b' ++ c' ++ d' ++ e' := by
  simp only [List.map_append, ha, hb, hc, hd, he]

theorem exists_reads_reference (r : String × String) : ∃ doc, Reads (jsonbReference r) doc := by
  obtain ⟨kind, hkind, hkindText⟩ := exists_stringText r.1
  obtain ⟨id, hid, hidText⟩ := exists_stringText r.2
  have hdecoded : decoded (.obj (members kind id)) =
      .obj [("id", .str (textOf id)), ("kind", .str (textOf kind))] := by
    simp only [members, decoded, decodedMembers, textOf_encodeText]
  refine ⟨.obj (members kind id), ?_, ?_, ?_, ?_, ?_⟩
  · intro rest tokens h
    have hend := spells_punct (c := '\x7d') (by decide) h
    have hsecond := spells_punct (c := ',') (by decide) <| spells_space <|
      spells_string (spelled_encodeText "kind") <| spells_punct (c := ':') (by decide) <|
        spells_space <| spells_string hkind hend
    have hfirst := spells_punct (c := '\x7b') (by decide) <|
      spells_string (spelled_encodeText "id") <| spells_punct (c := ':') (by decide) <|
        spells_space <| spells_string hid hsecond
    have hopen : "\x7b\"id\": ".toList.map Sum.inl =
        .inl '\x7b' :: (stringText (encodeText (.utf8 "id")) ++ [.inl ':', .inl ' ']) := by decide
    have hnext : ", \"kind\": ".toList.map Sum.inl = .inl ',' :: .inl ' ' ::
        (stringText (encodeText (.utf8 "kind")) ++ [.inl ':', .inl ' ']) := by decide
    have hclose : "\x7d".toList.map Sum.inl = [(.inl '\x7d' : Rune)] := by decide
    -- the parts are matched before the texts of their names can be computed
    rw [show (jsonbReference r).map Sum.inl = _ from
      map_append_five hopen hidText.symm hnext hkindText.symm hclose]
    simpa only [members, Doc.tokens, tokensOfMembers, List.append_assoc, List.cons_append,
      List.nil_append] using hfirst
  all_goals rw [hdecoded]
  all_goals simp [nodes, nodesOfMembers, depth, depthOfMembers, distinct, distinctMembers,
    allNumbers, allMembers]

section Array

variable {α : Type} {f : α → List Char} {doc : α → Doc} (h : ∀ a, Reads (f a) (doc a)) (l : List α)
include h

theorem spells_items {rest : List Rune} {tokens : List Token} (hrest : Spells rest tokens) :
    Spells (((l.map f).flatMap fun item => ',' :: ' ' :: item).map .inl ++ rest)
      ((l.map doc).flatMap itemTokens ++ tokens) := by
  induction l with
  | nil => exact hrest
  | cons a l ih =>
    have hitem := spells_punct (c := ',') (by decide) (spells_space ((h a).spells ih))
    simpa [itemTokens] using hitem

theorem spells_array :
    Spells ((jsonbArray (l.map f)).map .inl) (Doc.arr (l.map doc)).tokens := by
  have hend := spells_punct (c := ']') (by decide) spells_nil
  cases l with
  | nil => exact spells_punct (by decide) hend
  | cons a l =>
    have hitems := spells_punct (c := '[') (by decide) ((h a).spells (spells_items h l hend))
    simpa [jsonbArray, Doc.tokens, tokensOfDocs_cons] using hitems

theorem fits_items :
    nodesOfItems (decodedDocs (l.map doc)) ≤ 3 * l.length ∧
      depthOfItems (decodedDocs (l.map doc)) ≤ 1 ∧
      distinctItems (decodedDocs (l.map doc)) = true ∧
      allItems (fun n => n.text.length ≤ maxJSONNumberBytes) (decodedDocs (l.map doc)) = true := by
  induction l with
  | nil => exact ⟨Nat.zero_le _, Nat.zero_le _, rfl, rfl⟩
  | cons a l ih =>
    obtain ⟨hnodes, hdepth, hunique, hnumbers⟩ := ih
    have := (h a).nodes
    rw [List.map_cons, decodedDocs, nodesOfItems, depthOfItems, distinctItems, allItems, hunique,
      hnumbers, (h a).unique, (h a).numbers, List.length_cons]
    exact ⟨by omega, max_le (h a).depth hdepth, rfl, rfl⟩

end Array

/-- The text of a short array of what is read so is a document of actions. -/
theorem document_array {cause : DecodeError → Err} {α : Type} {f : α → List Char}
    (h : ∀ a, ∃ doc, Reads (f a) doc) (l : List α) (hshort : shortArray (l.map f) = true) :
    validateJSONDocument cause (.utf8 (String.ofList (jsonbArray (l.map f)))) = .ok := by
  choose doc h using h
  have hbytes := byteLen_of_shortArray hshort
  simp only [shortArray, List.length_map, Bool.and_eq_true, decide_eq_true_eq] at hshort
  obtain ⟨hnodes, hdepth, hunique, hnumbers⟩ := fits_items h l
  have hnested : depth (decoded (.arr (l.map doc))) ≤ 2 := by
    rw [decoded, depth]
    omega
  have hparsed := parseRunes_of_spells (spells_array h l) (by
    rw [← depth_decoded]
    exact hnested.trans (by decide))
  have hrunes : runesOf (.utf8 (String.ofList (jsonbArray (l.map f)))) =
      (jsonbArray (l.map f)).map .inl := by
    rw [runesOf, String.toList_ofList]
  refine validateJSONDocument_eq_ok.mpr (Option.isSome_iff_exists.mpr
    ⟨decoded (.arr (l.map doc)), decode_eq_some.mpr ⟨?_, ?_, ?_, ?_, ?_, ?_, ?_⟩⟩)
  · rw [← byteLen_eq]
    exact hbytes
  · simp [hrunes]
  · rw [hrunes, hparsed]
    rfl
  · rw [decoded, nodes]
    exact le_trans (show _ ≤ 1 + 3 * 32 by omega) (by decide)
  · exact hnested.trans (by decide)
  · rw [decoded, distinct, hunique]
  · rw [decoded, allNumbers, hnumbers]

/-- **The model of `jsonvalue` is what the stores take it to be.** -/
theorem documents_own (cause : DecodeError → Err) {semverIsValid : GoString → Bool}
    (h : ∀ version, semverIsValid version = true → ∀ c ∈ version.runes, c.toNat < 128) :
    Documents { validateJSONDocument := validateJSONDocument cause, semverIsValid } where
  bounded _ := byteLen_of_document
  strings := document_array exists_reads_string
  references := document_array exists_reads_reference
  versions := h

/-- The model of `jsonvalue`, versions in ASCII. -/
def sampleChecks : Checks where
  validateJSONDocument := validateJSONDocument fun _ => .message "invalid JSON"
  semverIsValid version := version.runes.all fun c => c.toNat < 128

theorem documents_sample : Documents sampleChecks :=
  documents_own _ fun _ h c hc => by simpa using List.all_eq_true.mp h c hc

end Modary.Governed.JsonbTexts
