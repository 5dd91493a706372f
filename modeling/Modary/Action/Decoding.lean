import Modary.Action.Canonical
import Modary.Lib.JsonDecoder

/-! # The bounded JSON document

`jsonvalue.Decode`: a recursive consumer of the tokens of a decoder counts values, numbers and
nesting, refuses a second member of one name, and returns the value. It succeeds on the texts of one
document that keep the limits, and on no others. -/

namespace Modary.Action.Decoding

open Modary.Lib.GoText Modary.Lib.JsonNumber Modary.Lib.JsonText Modary.Lib.JsonDecoder
open Modary.Lib.JsonValue hiding Limits
open Modary.Action.Canonical (Value)

/-! ### The source -/

/-- `Limits`. -/
structure Limits where
  maxBytes : ℤ
  maxDepth : ℤ
  maxNodes : ℤ
  maxNumberBytes : ℤ

/-- Why a document is refused; `fuel` stands for a recursion that has not ended. -/
inductive DecodeError
  | failed (text : String)
  | limit (resource : String) (limit : ℤ)
  | token (err : TokenError)
  | duplicate (name : String)
  | delimiter (c : Char)
  | closing (token : Given)
  | fuel
  deriving DecidableEq

/-- `IsLimit`. -/
def DecodeError.isLimit : DecodeError → Bool
  | .limit _ _ => true
  | _ => false

/-- `validateLimits`. -/
def validateLimits (limits : Limits) : Except DecodeError Unit :=
  refuseIf (limits.maxBytes ≤ 0 ∨ limits.maxDepth ≤ 0 ∨ limits.maxNodes ≤ 0 ∨
    limits.maxNumberBytes ≤ 0) (.failed "JSON byte, depth, node, and number limits must be positive")

/-- `decoder.Token()`, whose error is returned as it is. -/
def nextOf (decoder : Decoder) : Except DecodeError (Given × Decoder) :=
  match token decoder with
  | .ok result => .ok result
  | .error err => .error (.token err)

/-- `consumeClosingDelimiter`. -/
def consumeClosingDelimiter (decoder : Decoder) (expected : Char) : Except DecodeError Decoder := do
  let next ← nextOf decoder
  refuseIf (next.1 ≠ .delim expected) (.closing next.1)
  return next.2

/-- What a value leaves: the value, the decoder behind it and the nodes that are counted. -/
abbrev Decoded (α : Type) := α × Decoder × ℕ

mutual

/-- `decodeValue`. -/
def decodeValue (limits : Limits) : ℕ → Decoder → ℕ → ℕ → Except DecodeError (Decoded Value)
  | 0, _, _, _ => .error .fuel
  | fuel + 1, decoder, nodes, depth => do
    refuseIf (limits.maxNodes < (nodes + 1 : ℕ)) (.limit "value nodes" limits.maxNodes)
    let next ← nextOf decoder
    match next.1 with
    | .null => return (.null, next.2, nodes + 1)
    | .bool value => return (.bool value, next.2, nodes + 1)
    | .string text => return (.str text, next.2, nodes + 1)
    | .number value =>
      refuseIf (limits.maxNumberBytes < value.text.length)
        (.limit "number bytes" limits.maxNumberBytes)
      return (.num value, next.2, nodes + 1)
    | .delim c =>
      refuseIf (limits.maxDepth ≤ depth) (.limit "nested containers" limits.maxDepth)
      if c = '\x7b' then
        let object ← decodeMembers limits fuel next.2 (nodes + 1) depth []
        let decoder ← consumeClosingDelimiter object.2.1 '\x7d'
        return (.obj object.1, decoder, object.2.2)
      else if c = '[' then
        let array ← decodeItems limits fuel next.2 (nodes + 1) depth []
        let decoder ← consumeClosingDelimiter array.2.1 ']'
        return (.arr array.1, decoder, array.2.2)
      else .error (.delimiter c)

/-- The loop over the members of an object. -/
def decodeMembers (limits : Limits) : ℕ → Decoder → ℕ → ℕ → List (String × Value) →
    Except DecodeError (Decoded (List (String × Value)))
  | 0, _, _, _, _ => .error .fuel
  | fuel + 1, decoder, nodes, depth, object =>
    if more decoder then do
      let next ← nextOf decoder
      match next.1 with
      | .string name =>
        refuseIf (name ∈ object.map Prod.fst) (.duplicate name)
        let value ← decodeValue limits fuel next.2 nodes (depth + 1)
        decodeMembers limits fuel value.2.1 value.2.2 depth (object ++ [(name, value.1)])
      | _ => .error (.failed "JSON object member name is not a string")
    else .ok (object, decoder, nodes)

/-- The loop over the items of an array. -/
def decodeItems (limits : Limits) : ℕ → Decoder → ℕ → ℕ → List Value →
    Except DecodeError (Decoded (List Value))
  | 0, _, _, _, _ => .error .fuel
  | fuel + 1, decoder, nodes, depth, array =>
    if more decoder then do
      let value ← decodeValue limits fuel decoder nodes (depth + 1)
      decodeItems limits fuel value.2.1 value.2.2 depth (array ++ [value.1])
    else .ok (array, decoder, nodes)

end

/-- The runes of a text. -/
def runes (text : String) : List Rune := text.toList.map .inl

/-- `decodeValue` on the whole text, and that nothing follows the value. -/
def decodeText (limits : Limits) (text : List Rune) : Except DecodeError Value := do
  let value ← decodeValue limits (2 * text.length + 1) (newDecoder text) 0 0
  match token value.2.1 with
  | .error .eof => return value.1
  | .error err => .error (.token err)
  | .ok _ => .error (.failed "multiple JSON values are not allowed")

/-- `Decode`. -/
def decode (data : ByteArray) (limits : Limits) : Except DecodeError Value := do
  validateLimits limits
  refuseIf (limits.maxBytes < data.size) (.limit "bytes" limits.maxBytes)
  refuseIf (data.size = 0) (.failed "JSON document is empty")
  match String.fromUTF8? data with
  | none => .error (.failed "JSON document is not valid UTF-8")
  | some text => decodeText limits (runes text)

/-- `Validate`. -/
def validate (data : ByteArray) (limits : Limits) : Except DecodeError Unit :=
  (decode data limits).map fun _ => ()

/-! ### What the limits say of a value -/

/-- A number token within the limit. -/
def numberFits (limits : Limits) (n : Number) : Bool := (n.text.length : ℤ) ≤ limits.maxNumberBytes

/-- The value may stand in so many containers. -/
structure Fits (limits : Limits) (around : ℕ) (v : Value) : Prop where
  nested : 0 < depth v → (around + depth v : ℤ) ≤ limits.maxDepth
  unique : distinct v = true
  numbers : allNumbers (numberFits limits) v = true

section Fits

variable {limits : Limits} {around : ℕ}

theorem depthOfItems_le {items : List Value} {n : ℕ} (h : ∀ item ∈ items, depth item ≤ n) :
    depthOfItems items ≤ n := by
  induction items with
  | nil => exact Nat.zero_le n
  | cons item items ih =>
    have hitem := h item List.mem_cons_self
    have hitems := ih fun other hother => h other (List.mem_cons_of_mem _ hother)
    rw [depthOfItems]
    omega

theorem depthOfMembers_le {members : List (String × Value)} {n : ℕ}
    (h : ∀ member ∈ members, depth member.2 ≤ n) : depthOfMembers members ≤ n := by
  induction members with
  | nil => exact Nat.zero_le n
  | cons member members ih =>
    have hmember := h member List.mem_cons_self
    have hmembers := ih fun other hother => h other (List.mem_cons_of_mem _ hother)
    rw [depthOfMembers]
    omega

theorem distinctItems_iff {items : List Value} :
    distinctItems items = true ↔ ∀ item ∈ items, distinct item = true := by
  induction items with
  | nil => simp [distinctItems]
  | cons item items ih => rw [distinctItems, Bool.and_eq_true, ih, List.forall_mem_cons]

theorem allItems_iff {p : Number → Bool} {items : List Value} :
    allItems p items = true ↔ ∀ item ∈ items, allNumbers p item = true := by
  induction items with
  | nil => simp [allItems]
  | cons item items ih => rw [allItems, Bool.and_eq_true, ih, List.forall_mem_cons]

theorem allMembers_iff {p : Number → Bool} {members : List (String × Value)} :
    allMembers p members = true ↔ ∀ member ∈ members, allNumbers p member.2 = true := by
  induction members with
  | nil => simp [allMembers]
  | cons member members ih => rw [allMembers, Bool.and_eq_true, ih, List.forall_mem_cons]

/-- An array fits when there is room for it and its items fit one container deeper. -/
theorem fits_arr {items : List Value} : Fits limits around (.arr items) ↔
    (around : ℤ) < limits.maxDepth ∧ ∀ item ∈ items, Fits limits (around + 1) item := by
  constructor
  · intro h
    have hnested := h.nested (by rw [depth]; omega)
    have hunique := distinctItems_iff.mp (by simpa [distinct] using h.unique)
    have hnumbers := allItems_iff.mp (by simpa [allNumbers] using h.numbers)
    rw [depth] at hnested
    refine ⟨by omega, fun item hitem => ⟨fun _ => ?_, hunique item hitem, hnumbers item hitem⟩⟩
    have hle := depth_le_of_mem_items hitem
    omega
  · rintro ⟨hroom, hitems⟩
    have hle : depthOfItems items ≤ (limits.maxDepth - around - 1).toNat := by
      refine depthOfItems_le fun item hitem => ?_
      have hnested := (hitems item hitem).nested
      omega
    refine ⟨fun _ => ?_, ?_, ?_⟩
    · rw [depth]
      omega
    · rw [distinct, distinctItems_iff]
      exact fun item hitem => (hitems item hitem).unique
    · rw [allNumbers, allItems_iff]
      exact fun item hitem => (hitems item hitem).numbers

/-- An object fits when there is room for it, its names differ and its values fit one container
deeper. -/
theorem fits_obj {members : List (String × Value)} : Fits limits around (.obj members) ↔
    (around : ℤ) < limits.maxDepth ∧ (members.map Prod.fst).Nodup ∧
      ∀ member ∈ members, Fits limits (around + 1) member.2 := by
  constructor
  · intro h
    have hnested := h.nested (by rw [depth]; omega)
    have hunique := h.unique
    rw [distinct, Bool.and_eq_true, decide_eq_true_eq, distinctMembers_iff] at hunique
    have hnumbers := allMembers_iff.mp (by simpa [allNumbers] using h.numbers)
    rw [depth] at hnested
    refine ⟨by omega, hunique.1, fun member hmember =>
      ⟨fun _ => ?_, hunique.2 member hmember, hnumbers member hmember⟩⟩
    have hle := depth_le_of_mem_members hmember
    omega
  · rintro ⟨hroom, hnodup, hmembers⟩
    have hle : depthOfMembers members ≤ (limits.maxDepth - around - 1).toNat := by
      refine depthOfMembers_le fun member hmember => ?_
      have hnested := (hmembers member hmember).nested
      omega
    refine ⟨fun _ => ?_, ?_, ?_⟩
    · rw [depth]
      omega
    · rw [distinct, Bool.and_eq_true, decide_eq_true_eq, distinctMembers_iff]
      exact ⟨hnodup, fun member hmember => (hmembers member hmember).unique⟩
    · rw [allNumbers, allMembers_iff]
      exact fun member hmember => (hmembers member hmember).numbers

end Fits

/-! ### What is returned was read -/

theorem nextOf_eq_ok {d : Decoder} {next : Given × Decoder} :
    nextOf d = .ok next ↔ token d = .ok next := by
  unfold nextOf
  split <;> simp_all

theorem consumeClosingDelimiter_eq_ok {d d' : Decoder} {c : Char} :
    consumeClosingDelimiter d c = .ok d' ↔ token d = .ok (.delim c, d') := by
  unfold consumeClosingDelimiter
  rw [bind_eq_ok]
  constructor
  · rintro ⟨next, hnext, h⟩
    obtain ⟨_, hsame, h⟩ := bind_eq_ok.mp h
    have hdelim : next.1 = .delim c := by simpa using refuseIf_eq_ok.mp hsame
    cases h
    rw [nextOf_eq_ok] at hnext
    rw [hnext, ← hdelim]
  · intro h
    exact ⟨_, nextOf_eq_ok.mpr h, bind_eq_ok.mpr ⟨(), refuseIf_eq_ok.mpr (by simp), rfl⟩⟩

/-- The decoder has gone over the tokens of a value. -/
structure Passes (d : Decoder) (tokens : List Token) (d' : Decoder) : Prop where
  stack : d'.stack = d.stack
  state : d'.state = d.state.passed
  notDigit : d.state.valueAllowed = false → NotDigit d.rest
  spells : ∀ rest, Spells d'.rest rest → NotDigit d'.rest →
    Spells d.rest (d.state.lead ++ tokens ++ rest)

/-- A scalar is passed. -/
theorem passes_scalar {d d' : Decoder} {g : Given} (h : token d = .ok (g, d'))
    (hstate : d.state.expectsValue = true) (hg : ∀ c, g ≠ .delim c) :
    ∃ t, given t = some g ∧ Passes d [t] d' := by
  obtain ⟨tokens, htakes, hbegins⟩ := token_eq_ok h
  obtain ⟨t, hgiven, rfl, hs, hstack⟩ := takes_scalar hstate hg htakes
  exact ⟨t, hgiven, hstack, hs, notDigit_of_token h, fun rest hrest hend =>
    hbegins.2 rest hrest (.inl hend)⟩

/-- The decoder has gone over what stands in a container. -/
structure Loops (d : Decoder) (tokens : List Token) (d' : Decoder) : Prop where
  stack : d'.stack = d.stack
  notDigit : d.state.valueAllowed = false → NotDigit d.rest
  last : NotDigit d'.rest
  spells : ∀ rest, Spells d'.rest rest → Spells d.rest (tokens ++ rest)

theorem loops_nil {d : Decoder} (h : more d = false) : Loops d [] d :=
  ⟨rfl, fun _ => notDigit_of_not_more h, notDigit_of_not_more h, fun _ hrest => hrest⟩

/-- A container is passed when what stands between its delimiters is. -/
theorem passes_container {d first last d' : Decoder} {opening closing : Char}
    {tokens : List Token} (hopen : token d = .ok (.delim opening, first))
    (hclose : token last = .ok (.delim closing, d')) (hc : opening = '[' ∨ opening = '\x7b')
    (hc' : closing = ']' ∨ closing = '\x7d') (hloops : Loops first tokens last) :
    Passes d (.punct opening :: (tokens ++ [.punct closing])) d' := by
  obtain ⟨_, htakes, hbegins⟩ := token_eq_ok hopen
  obtain ⟨rfl, -, hfirst⟩ := takes_open hc htakes
  obtain ⟨_, htakes', hbegins'⟩ := token_eq_ok hclose
  obtain ⟨rfl, outer, houter, hs'⟩ := takes_close hc' htakes'
  rw [hloops.stack, hfirst] at houter
  obtain ⟨houter, hstack⟩ := List.cons.inj houter
  refine ⟨hstack.symm, by rw [hs', ← houter]; rfl, notDigit_of_token hopen, fun rest hrest _ => ?_⟩
  have hend := hbegins'.2 rest hrest (.inr ⟨_, rfl⟩)
  have hmiddle := hbegins.2 _ (hloops.spells _ hend) (.inr ⟨_, rfl⟩)
  simpa using hmiddle

/-- The tokens of items behind those that are read. -/
def front (s : State) (docs : List Doc) : List Token :=
  if s = .arrayComma then docs.flatMap itemTokens else tokensOfDocs docs

/-- The tokens of members behind those that are read. -/
def frontMembers (s : State) (members : List (List Item × Doc)) : List Token :=
  if s = .objectComma then members.flatMap fun next => .punct ',' :: memberTokens next
  else tokensOfMembers members

theorem front_cons {s : State} (hs : s = .arrayStart ∨ s = .arrayComma) (doc : Doc)
    (docs : List Doc) : front s (doc :: docs) = s.lead ++ doc.tokens ++ front .arrayComma docs := by
  rcases hs with rfl | rfl
  · exact tokensOfDocs_cons doc docs
  · rfl

theorem frontMembers_cons {s : State} (hs : s.expectsName = true) (member : List Item × Doc)
    (members : List (List Item × Doc)) : frontMembers s (member :: members) =
      s.lead ++ memberTokens member ++ frontMembers .objectComma members := by
  cases s with
  | objectStart => exact tokensOfMembers_cons member members
  | objectComma => rfl
  | _ => cases hs

/-- What `decodeValue` leaves. -/
structure ValueRead (limits : Limits) (d : Decoder) (nodes around : ℕ) (r : Decoded Value)
    (doc : Doc) : Prop where
  value : r.1 = decoded doc
  fits : Fits limits around (decoded doc)
  count : r.2.2 = nodes + Modary.Lib.JsonValue.nodes (decoded doc)
  within : (r.2.2 : ℤ) ≤ limits.maxNodes
  passes : Passes d doc.tokens r.2.1

/-- What `decodeItems` leaves. -/
structure ItemsRead (limits : Limits) (d : Decoder) (nodes around : ℕ) (array : List Value)
    (r : Decoded (List Value)) (docs : List Doc) : Prop where
  value : r.1 = array ++ decodedDocs docs
  fits : ∀ item ∈ decodedDocs docs, Fits limits (around + 1) item
  count : r.2.2 = nodes + nodesOfItems (decodedDocs docs)
  within : (nodes : ℤ) ≤ limits.maxNodes → (r.2.2 : ℤ) ≤ limits.maxNodes
  loops : Loops d (front d.state docs) r.2.1

/-- What `decodeMembers` leaves. -/
structure MembersRead (limits : Limits) (d : Decoder) (nodes around : ℕ)
    (object : List (String × Value)) (r : Decoded (List (String × Value)))
    (members : List (List Item × Doc)) : Prop where
  value : r.1 = object ++ decodedMembers members
  fits : ∀ member ∈ decodedMembers members, Fits limits (around + 1) member.2
  unique : (object.map Prod.fst).Nodup → (r.1.map Prod.fst).Nodup
  count : r.2.2 = nodes + nodesOfMembers (decodedMembers members)
  within : (nodes : ℤ) ≤ limits.maxNodes → (r.2.2 : ℤ) ≤ limits.maxNodes
  loops : Loops d (frontMembers d.state members) r.2.1

section Sound

variable {limits : Limits}

/-- The value of a scalar. -/
def plain : Given → Value
  | .bool value => .bool value
  | .number value => .num value
  | .string text => .str text
  | _ => .null

theorem exists_scalar {t : Token} {g : Given} (h : given t = some g) :
    ∃ doc : Doc, doc.tokens = [t] ∧ decoded doc = plain g := by
  cases t with
  | null => cases h; exact ⟨.null, rfl, rfl⟩
  | bool value => cases h; exact ⟨.bool value, rfl, rfl⟩
  | number value => cases h; exact ⟨.num value, rfl, rfl⟩
  | string items => cases h; exact ⟨.str items, rfl, rfl⟩
  | punct c => cases h
  | blank => cases h

theorem nodes_plain (g : Given) : nodes (plain g) = 1 := by
  cases g <;> rfl

/-- A scalar fits when a number does. -/
theorem fits_plain {around : ℕ} {g : Given} :
    Fits limits around (plain g) ↔ ∀ n, g = .number n → numberFits limits n = true := by
  constructor
  · rintro h n rfl
    exact h.numbers
  · intro h
    cases g with
    | number n => exact ⟨fun hpos => absurd hpos (lt_irrefl 0), rfl, h n rfl⟩
    | _ => exact ⟨fun hpos => absurd hpos (lt_irrefl 0), rfl, rfl⟩

/-- A scalar that is returned was read. -/
theorem valueRead_scalar {d d' : Decoder} {g : Given} {nodes around : ℕ}
    (htoken : token d = .ok (g, d')) (hstate : d.state.expectsValue = true)
    (hg : ∀ c, g ≠ .delim c) (hnumber : ∀ n, g = .number n → numberFits limits n = true)
    (hwithin : ((nodes + 1 : ℕ) : ℤ) ≤ limits.maxNodes) :
    ∃ doc, ValueRead limits d nodes around (plain g, d', nodes + 1) doc := by
  obtain ⟨t, hgiven, hpasses⟩ := passes_scalar htoken hstate hg
  obtain ⟨doc, htokens, hvalue⟩ := exists_scalar hgiven
  refine ⟨doc, hvalue.symm, ?_, ?_, hwithin, ?_⟩
  · rw [hvalue]
    exact fits_plain.mpr hnumber
  · rw [hvalue, nodes_plain]
  · rw [htokens]
    exact hpasses

/-- A loop over items that ends at once. -/
theorem itemsRead_nil {d : Decoder} {nodes around : ℕ} {array : List Value}
    (h : more d = false) : ItemsRead limits d nodes around array (array, d, nodes) [] := by
  refine ⟨by simp [decodedDocs], by simp [decodedDocs], rfl, id, ?_⟩
  have hfront : front d.state [] = [] := by
    unfold front
    split_ifs <;> rfl
  rw [hfront]
  exact loops_nil h

/-- An item and what follows it. -/
theorem itemsRead_cons {d : Decoder} {nodes around : ℕ} {array : List Value} {doc : Doc}
    {docs : List Doc} {r : Decoded Value} {r' : Decoded (List Value)}
    (hstate : d.state = .arrayStart ∨ d.state = .arrayComma)
    (hvalue : ValueRead limits d nodes (around + 1) r doc)
    (hitems : ItemsRead limits r.2.1 r.2.2 around (array ++ [r.1]) r' docs) :
    ItemsRead limits d nodes around array r' (doc :: docs) := by
  have hs : r.2.1.state = .arrayComma := by
    rw [hvalue.passes.state]
    rcases hstate with hs | hs <;> rw [hs] <;> rfl
  have hloops := hitems.loops
  rw [hs] at hloops
  refine ⟨?_, ?_, ?_, fun _ => hitems.within hvalue.within, ?_⟩
  · rw [hitems.value, hvalue.value, decodedDocs, List.append_assoc, List.singleton_append]
  · rw [decodedDocs, List.forall_mem_cons]
    exact ⟨hvalue.fits, hitems.fits⟩
  · rw [hitems.count, hvalue.count, decodedDocs, nodesOfItems, Nat.add_assoc]
  · refine ⟨hloops.stack.trans hvalue.passes.stack, hvalue.passes.notDigit, hloops.last,
      fun rest hrest => ?_⟩
    have hrest' := hloops.spells rest hrest
    have hend : NotDigit r.2.1.rest := hloops.notDigit (by rw [hs]; rfl)
    rw [front_cons hstate, List.append_assoc]
    exact hvalue.passes.spells _ hrest' hend

theorem membersRead_nil {d : Decoder} {nodes around : ℕ} {object : List (String × Value)}
    (h : more d = false) : MembersRead limits d nodes around object (object, d, nodes) [] := by
  refine ⟨by simp [decodedMembers], by simp [decodedMembers], id, rfl, id, ?_⟩
  have hfront : frontMembers d.state [] = [] := by
    unfold frontMembers
    split_ifs <;> rfl
  rw [hfront]
  exact loops_nil h

/-- A member and what follows it. -/
theorem membersRead_cons {d first : Decoder} {nodes around : ℕ} {object : List (String × Value)}
    {text : String} {doc : Doc} {members : List (List Item × Doc)} {r : Decoded Value}
    {r' : Decoded (List (String × Value))} (hstate : d.state.expectsName = true)
    (hname : token d = .ok (.string text, first)) (hnew : text ∉ object.map Prod.fst)
    (hvalue : ValueRead limits first nodes (around + 1) r doc)
    (hmembers : MembersRead limits r.2.1 r.2.2 around (object ++ [(text, r.1)]) r' members) :
    ∃ items, MembersRead limits d nodes around object r' ((items, doc) :: members) := by
  obtain ⟨_, htakes, hbegins⟩ := token_eq_ok hname
  obtain ⟨items, rfl, rfl, hcolon, hstack⟩ := takes_name hstate htakes
  have hs : r.2.1.state = .objectComma := by
    rw [hvalue.passes.state, hcolon]
    rfl
  have hloops := hmembers.loops
  rw [hs] at hloops
  refine ⟨items, ?_, ?_, fun hnodup => ?_, ?_, fun _ => hmembers.within hvalue.within, ?_⟩
  · rw [hmembers.value, hvalue.value, decodedMembers, List.append_assoc, List.singleton_append]
  · rw [decodedMembers, List.forall_mem_cons]
    exact ⟨hvalue.fits, hmembers.fits⟩
  · refine hmembers.unique ?_
    rw [List.map_append, List.map_singleton, List.nodup_append]
    refine ⟨hnodup, List.nodup_singleton _, ?_⟩
    rintro a ha b hb rfl
    rw [List.mem_singleton] at hb
    rw [hb] at ha
    exact hnew ha
  · rw [hmembers.count, hvalue.count, decodedMembers, nodesOfMembers, Nat.add_assoc]
  · refine ⟨hloops.stack.trans (hvalue.passes.stack.trans hstack), notDigit_of_token hname,
      hloops.last, fun rest hrest => ?_⟩
    have hrest' := hloops.spells rest hrest
    have hend : NotDigit r.2.1.rest := hloops.notDigit (by rw [hs]; rfl)
    have hvalue' := hvalue.passes.spells _ hrest' hend
    have hend' : NotDigit first.rest := hvalue.passes.notDigit (by rw [hcolon]; rfl)
    have hall := hbegins.2 _ hvalue' (.inl hend')
    rw [hcolon] at hall
    rw [frontMembers_cons hstate]
    simpa [memberTokens, State.lead] using hall

/-- **What `decodeValue` returns was read from the text, and keeps the limits.** -/
theorem decodeValue_sound (fuel : ℕ) :
    (∀ d nodes around r, decodeValue limits fuel d nodes around = .ok r →
      d.state.expectsValue = true → ∃ doc, ValueRead limits d nodes around r doc) ∧
    (∀ d nodes around array r, decodeItems limits fuel d nodes around array = .ok r →
      d.state = .arrayStart ∨ d.state = .arrayComma →
        ∃ docs, ItemsRead limits d nodes around array r docs) ∧
    (∀ d nodes around object r, decodeMembers limits fuel d nodes around object = .ok r →
      d.state.expectsName = true → ∃ members, MembersRead limits d nodes around object r members) := by
  induction fuel with
  | zero =>
    refine ⟨fun d nodes around r h => ?_, fun d nodes around array r h => ?_,
      fun d nodes around object r h => ?_⟩
    · rw [decodeValue] at h
      cases h
    · rw [decodeItems] at h
      cases h
    · rw [decodeMembers] at h
      cases h
  | succ fuel ih =>
    obtain ⟨ihvalue, ihitems, ihmembers⟩ := ih
    refine ⟨fun d nodes around r h hstate => ?_, fun d nodes around array r h hstate => ?_,
      fun d nodes around object r h hstate => ?_⟩
    · rw [decodeValue] at h
      obtain ⟨_, hnodes, h⟩ := bind_eq_ok.mp h
      obtain ⟨⟨g, first⟩, hnext, h⟩ := bind_eq_ok.mp h
      have hwithin : ((nodes + 1 : ℕ) : ℤ) ≤ limits.maxNodes := not_lt.mp (refuseIf_eq_ok.mp hnodes)
      rw [nextOf_eq_ok] at hnext
      cases g with
      | null =>
        cases h
        exact valueRead_scalar hnext hstate (by simp) (by simp) hwithin
      | bool value =>
        cases h
        exact valueRead_scalar hnext hstate (by simp) (by simp) hwithin
      | string text =>
        cases h
        exact valueRead_scalar hnext hstate (by simp) (by simp) hwithin
      | number value =>
        obtain ⟨_, hlength, h⟩ := bind_eq_ok.mp h
        cases h
        refine valueRead_scalar hnext hstate (by simp) ?_ hwithin
        rintro n heq
        cases heq
        exact decide_eq_true (not_lt.mp (refuseIf_eq_ok.mp hlength))
      | delim c =>
        obtain ⟨_, hroom, h⟩ := bind_eq_ok.mp h
        have hroom : (around : ℤ) < limits.maxDepth := not_le.mp (refuseIf_eq_ok.mp hroom)
        obtain ⟨_, htakes, -⟩ := token_eq_ok hnext
        by_cases hobject : c = '\x7b'
        · subst hobject
          obtain ⟨object, hmembers, h⟩ := bind_eq_ok.mp h
          obtain ⟨last, hclose, h⟩ := bind_eq_ok.mp h
          cases h
          obtain ⟨-, hs, -⟩ := takes_open (.inr rfl) htakes
          have hs : first.state = .objectStart := hs
          obtain ⟨members, hread⟩ := ihmembers _ _ _ _ _ hmembers (by rw [hs]; rfl)
          have hloops := hread.loops
          rw [hs] at hloops
          refine ⟨.obj members, ?_, ?_, ?_, hread.within hwithin, ?_⟩
          · rw [hread.value]
            rfl
          · have hnodup := hread.unique List.nodup_nil
            rw [hread.value] at hnodup
            exact fits_obj.mpr ⟨hroom, hnodup, hread.fits⟩
          · rw [decoded, Modary.Lib.JsonValue.nodes, hread.count, Nat.add_assoc]
          · exact passes_container hnext (consumeClosingDelimiter_eq_ok.mp hclose) (.inr rfl)
              (.inr rfl) hloops
        · rw [if_neg hobject] at h
          by_cases harray : c = '['
          · subst harray
            rw [if_pos rfl] at h
            obtain ⟨array, hitems, h⟩ := bind_eq_ok.mp h
            obtain ⟨last, hclose, h⟩ := bind_eq_ok.mp h
            cases h
            obtain ⟨-, hs, -⟩ := takes_open (.inl rfl) htakes
            have hs : first.state = .arrayStart := hs
            obtain ⟨docs, hread⟩ := ihitems _ _ _ _ _ hitems (.inl hs)
            have hloops := hread.loops
            rw [hs] at hloops
            refine ⟨.arr docs, ?_, ?_, ?_, hread.within hwithin, ?_⟩
            · rw [hread.value]
              rfl
            · exact fits_arr.mpr ⟨hroom, hread.fits⟩
            · rw [decoded, Modary.Lib.JsonValue.nodes, hread.count, Nat.add_assoc]
            · exact passes_container hnext (consumeClosingDelimiter_eq_ok.mp hclose) (.inl rfl)
                (.inl rfl) hloops
          · rw [if_neg harray] at h
            cases h
    · rw [decodeItems] at h
      by_cases hmore : more d = true
      · rw [if_pos hmore] at h
        obtain ⟨value, hvalue, h⟩ := bind_eq_ok.mp h
        obtain ⟨doc, hdoc⟩ := ihvalue _ _ _ _ hvalue (by rcases hstate with hs | hs <;> rw [hs] <;> rfl)
        have hs : value.2.1.state = .arrayComma := by
          rw [hdoc.passes.state]
          rcases hstate with hs | hs <;> rw [hs] <;> rfl
        obtain ⟨docs, hdocs⟩ := ihitems _ _ _ _ _ h (.inr hs)
        exact ⟨doc :: docs, itemsRead_cons hstate hdoc hdocs⟩
      · rw [if_neg hmore] at h
        cases h
        exact ⟨[], itemsRead_nil (by simpa using hmore)⟩
    · rw [decodeMembers] at h
      by_cases hmore : more d = true
      · rw [if_pos hmore] at h
        obtain ⟨⟨g, first⟩, hnext, h⟩ := bind_eq_ok.mp h
        rw [nextOf_eq_ok] at hnext
        cases g with
        | string text =>
          obtain ⟨_, hnew, h⟩ := bind_eq_ok.mp h
          obtain ⟨value, hvalue, h⟩ := bind_eq_ok.mp h
          have hcolon : first.state = .objectColon := by
            obtain ⟨_, htakes, -⟩ := token_eq_ok hnext
            obtain ⟨_, -, -, hcolon, -⟩ := takes_name hstate htakes
            exact hcolon
          obtain ⟨doc, hdoc⟩ := ihvalue _ _ _ _ hvalue (by rw [hcolon]; rfl)
          have hs : value.2.1.state = .objectComma := by
            rw [hdoc.passes.state, hcolon]
            rfl
          obtain ⟨members, hread⟩ := ihmembers _ _ _ _ _ h (by rw [hs]; rfl)
          obtain ⟨items, hread⟩ := membersRead_cons hstate hnext (refuseIf_eq_ok.mp hnew) hdoc hread
          exact ⟨_, hread⟩
        | _ => cases h
      · rw [if_neg hmore] at h
        cases h
        exact ⟨[], membersRead_nil (by simpa using hmore)⟩

end Sound

/-! ### What keeps the limits is returned -/

section Complete

variable {limits : Limits}

/-- No value starts with the end of a container. -/
theorem tokens_head (doc : Doc) : ∃ t tokens, doc.tokens = t :: tokens ∧ t ≠ .punct ']' ∧
    t ≠ .punct '\x7d' := by
  cases doc with
  | arr docs => exact ⟨_, _, rfl, by simp, by simp⟩
  | obj members => exact ⟨_, _, rfl, by simp, by simp⟩
  | _ => exact ⟨_, _, rfl, by simp, by simp⟩

/-- The loop goes on where an item stands. -/
theorem more_of_front {d : Decoder} (hstate : d.state = .arrayStart ∨ d.state = .arrayComma)
    {doc : Doc} {docs : List Doc} {rest : List Token}
    (h : Spells d.rest (front d.state (doc :: docs) ++ rest)) : more d = true := by
  rw [front_cons hstate] at h
  rcases hstate with hs | hs
  · obtain ⟨t, tokens, htokens, hclose⟩ := tokens_head doc
    rw [hs, htokens] at h
    exact more_of_spells h hclose
  · rw [hs] at h
    exact more_of_spells h ⟨by simp, by simp⟩

theorem more_of_frontMembers {d : Decoder} (hstate : d.state.expectsName = true)
    {member : List Item × Doc} {members : List (List Item × Doc)} {rest : List Token}
    (h : Spells d.rest (frontMembers d.state (member :: members) ++ rest)) : more d = true := by
  rw [frontMembers_cons hstate] at h
  cases hs : d.state with
  | objectStart =>
    rw [hs] at h
    exact more_of_spells h ⟨by simp, by simp⟩
  | objectComma =>
    rw [hs] at h
    exact more_of_spells h ⟨by simp, by simp⟩
  | _ =>
    rw [hs] at hstate
    cases hstate

/-- A scalar at the front is returned. -/
theorem token_of_scalar {d : Decoder} {t : Token} {g : Given} {rest : List Token}
    (hstate : d.state.expectsValue = true) (hgiven : given t = some g)
    (h : Spells d.rest (d.state.lead ++ [t] ++ rest)) :
    ∃ d', token d = .ok (g, d') ∧ d'.state = d.state.passed ∧ d'.stack = d.stack ∧
      Spells d'.rest rest ∧ d'.rest.length < d.rest.length := by
  obtain ⟨text, htoken, htext, hlt⟩ := token_of_takes
    (takes_lead (.scalar (valueAllowed_entered hstate) hgiven)) h
  exact ⟨_, htoken, rfl, rfl, htext, hlt⟩

/-- The end of a container is taken. -/
theorem close_of_spells {d : Decoder} {c : Char} {outer : State} {stack : List State}
    {rest : List Token} (hstack : d.stack = outer :: stack)
    (hc : (c = ']' ∧ (d.state = .arrayStart ∨ d.state = .arrayComma)) ∨
      (c = '\x7d' ∧ d.state.expectsName = true))
    (h : Spells d.rest (.punct c :: rest)) :
    ∃ d', consumeClosingDelimiter d c = .ok d' ∧ d'.state = outer.valueEnd ∧ d'.stack = stack ∧
      Spells d'.rest rest ∧ d'.rest.length < d.rest.length := by
  have htakes : Takes d.state d.stack [.punct c] (.delim c) outer.valueEnd stack := by
    rw [hstack]
    rcases hc with ⟨rfl, hs⟩ | ⟨rfl, hs⟩
    · exact .direct (.closeArray hs)
    · refine .direct (.closeObject ?_)
      cases hd : d.state with
      | objectStart => exact .inl rfl
      | objectComma => exact .inr rfl
      | _ =>
        rw [hd] at hs
        cases hs
  obtain ⟨text, htoken, htext, hlt⟩ := token_of_takes htakes h
  exact ⟨_, consumeClosingDelimiter_eq_ok.mpr htoken, rfl, rfl, htext, hlt⟩

/-- What is left of a text behind the tokens of a value. -/
structure Leaves (d : Decoder) (rest : List Token) (d' : Decoder) : Prop where
  state : d'.state = d.state.passed
  stack : d'.stack = d.stack
  spells : Spells d'.rest rest
  shorter : d'.rest.length < d.rest.length

/-- A check that passes. -/
theorem refuseIf_bind {α : Type} {c : Prop} [Decidable c] {err : DecodeError} (h : ¬ c)
    (f : Unit → Except DecodeError α) : (refuseIf c err >>= f) = f () := by
  rw [refuseIf, if_neg h]
  rfl

theorem nextOf_bind {α : Type} {d : Decoder} {next : Given × Decoder} (h : token d = .ok next)
    (f : Given × Decoder → Except DecodeError α) : (nextOf d >>= f) = f next := by
  rw [nextOf_eq_ok.mpr h]
  rfl

mutual

/-- **The tokens of a document that fits are returned as its value.** -/
theorem decodeValue_of_tokens : ∀ (doc : Doc) (fuel : ℕ) (d : Decoder) (nodes around : ℕ)
    (rest : List Token), d.state.expectsValue = true →
      Spells d.rest (d.state.lead ++ doc.tokens ++ rest) → Fits limits around (decoded doc) →
      ((nodes + Modary.Lib.JsonValue.nodes (decoded doc) : ℕ) : ℤ) ≤ limits.maxNodes →
      2 * d.rest.length < fuel → ∃ d', decodeValue limits fuel d nodes around =
        .ok (decoded doc, d', nodes + Modary.Lib.JsonValue.nodes (decoded doc)) ∧ Leaves d rest d'
  | _, 0, _, _, _, _, _, _, _, _, hfuel => absurd hfuel (Nat.not_lt_zero _)
  | .null, fuel + 1, d, nodes, around, rest, hstate, htext, hfits, hnodes, hfuel
  | .bool _, fuel + 1, d, nodes, around, rest, hstate, htext, hfits, hnodes, hfuel
  | .str _, fuel + 1, d, nodes, around, rest, hstate, htext, hfits, hnodes, hfuel => by
    obtain ⟨d', htoken, hs, hstack, hrest, hlt⟩ := token_of_scalar hstate rfl htext
    refine ⟨d', ?_, hs, hstack, hrest, hlt⟩
    have hroom : ((nodes + 1 : ℕ) : ℤ) ≤ limits.maxNodes := hnodes
    rw [decodeValue, refuseIf_bind (not_lt.mpr hroom), nextOf_bind htoken]
    rfl
  | .num value, fuel + 1, d, nodes, around, rest, hstate, htext, hfits, hnodes, hfuel => by
    obtain ⟨d', htoken, hs, hstack, hrest, hlt⟩ := token_of_scalar hstate rfl htext
    have hlength : (value.text.length : ℤ) ≤ limits.maxNumberBytes := of_decide_eq_true hfits.numbers
    refine ⟨d', ?_, hs, hstack, hrest, hlt⟩
    have hroom : ((nodes + 1 : ℕ) : ℤ) ≤ limits.maxNodes := hnodes
    rw [decodeValue, refuseIf_bind (not_lt.mpr hroom), nextOf_bind htoken]
    change (refuseIf _ _ >>= _) = _
    rw [refuseIf_bind (not_lt.mpr hlength)]
    rfl
  | .arr docs, fuel + 1, d, nodes, around, rest, hstate, htext, hfits, hnodes, hfuel => by
    rw [decoded, Modary.Lib.JsonValue.nodes] at hnodes
    rw [decoded, fits_arr] at hfits
    have hopen : Spells d.rest (d.state.lead ++ [.punct '['] ++
        (tokensOfDocs docs ++ .punct ']' :: rest)) := by
      simpa [Doc.tokens] using htext
    have hdirect : Direct d.state.entered d.stack (.punct '[') (.delim '[') .arrayStart
        (d.state.entered :: d.stack) := .openArray (valueAllowed_entered hstate)
    obtain ⟨text, htoken, hinner, hlt⟩ := token_of_takes (takes_lead hdirect) hopen
    obtain ⟨last, hitems, hstack, hlast, hclose, hle⟩ := decodeItems_of_tokens docs fuel
      ⟨text, .arrayStart, d.state.entered :: d.stack⟩ (nodes + 1) around [] rest (.inl rfl) hinner
      hfits.2 (by omega) (by dsimp only; omega)
    obtain ⟨d', hd', hs, hstack', hrest, hlt'⟩ := close_of_spells hstack (.inl ⟨rfl, hlast⟩) hclose
    refine ⟨d', ?_, hs, hstack', hrest, by dsimp only at hle; omega⟩
    rw [decodeValue, refuseIf_bind (by omega), nextOf_bind htoken]
    change (refuseIf _ _ >>= _) = _
    rw [refuseIf_bind (not_le.mpr hfits.1), if_neg (by decide), if_pos rfl, hitems]
    change (consumeClosingDelimiter last ']' >>= _) = _
    rw [hd', decoded, Modary.Lib.JsonValue.nodes, ← Nat.add_assoc]
    rfl
  | .obj members, fuel + 1, d, nodes, around, rest, hstate, htext, hfits, hnodes, hfuel => by
    rw [decoded, Modary.Lib.JsonValue.nodes] at hnodes
    rw [decoded, fits_obj] at hfits
    have hopen : Spells d.rest (d.state.lead ++ [.punct '\x7b'] ++
        (tokensOfMembers members ++ .punct '\x7d' :: rest)) := by
      simpa [Doc.tokens] using htext
    have hdirect : Direct d.state.entered d.stack (.punct '\x7b') (.delim '\x7b') .objectStart
        (d.state.entered :: d.stack) := .openObject (valueAllowed_entered hstate)
    obtain ⟨text, htoken, hinner, hlt⟩ := token_of_takes (takes_lead hdirect) hopen
    obtain ⟨last, hmembers, hstack, hlast, hclose, hle⟩ := decodeMembers_of_tokens members fuel
      ⟨text, .objectStart, d.state.entered :: d.stack⟩ (nodes + 1) around [] rest rfl hinner
      hfits.2.2 hfits.2.1 (by omega) (by dsimp only; omega)
    obtain ⟨d', hd', hs, hstack', hrest, hlt'⟩ := close_of_spells hstack (.inr ⟨rfl, hlast⟩) hclose
    refine ⟨d', ?_, hs, hstack', hrest, by dsimp only at hle; omega⟩
    rw [decodeValue, refuseIf_bind (by omega), nextOf_bind htoken]
    change (refuseIf _ _ >>= _) = _
    rw [refuseIf_bind (not_le.mpr hfits.1), if_pos rfl, hmembers]
    change (consumeClosingDelimiter last '\x7d' >>= _) = _
    rw [hd', decoded, Modary.Lib.JsonValue.nodes, ← Nat.add_assoc]
    rfl

theorem decodeItems_of_tokens : ∀ (docs : List Doc) (fuel : ℕ) (d : Decoder) (nodes around : ℕ)
    (array : List Value) (rest : List Token), d.state = .arrayStart ∨ d.state = .arrayComma →
      Spells d.rest (front d.state docs ++ .punct ']' :: rest) →
      (∀ item ∈ decodedDocs docs, Fits limits (around + 1) item) →
      ((nodes + nodesOfItems (decodedDocs docs) : ℕ) : ℤ) ≤ limits.maxNodes →
      2 * d.rest.length + 1 < fuel → ∃ d', decodeItems limits fuel d nodes around array =
        .ok (array ++ decodedDocs docs, d', nodes + nodesOfItems (decodedDocs docs)) ∧
          d'.stack = d.stack ∧ (d'.state = .arrayStart ∨ d'.state = .arrayComma) ∧
          Spells d'.rest (.punct ']' :: rest) ∧ d'.rest.length ≤ d.rest.length
  | _, 0, _, _, _, _, _, _, _, _, _, hfuel => absurd hfuel (Nat.not_lt_zero _)
  | [], fuel + 1, d, nodes, around, array, rest, hstate, htext, _, _, _ => by
    have hfront : front d.state [] = [] := by
      unfold front
      split_ifs <;> rfl
    rw [hfront, List.nil_append] at htext
    refine ⟨d, ?_, rfl, hstate, htext, le_rfl⟩
    rw [decodeItems, if_neg (by simp [not_more_of_spells htext (.inl rfl)])]
    simp [decodedDocs, nodesOfItems]
  | doc :: docs, fuel + 1, d, nodes, around, array, rest, hstate, htext, hfits, hnodes, hfuel => by
    rw [decodedDocs, nodesOfItems] at hnodes
    rw [decodedDocs, List.forall_mem_cons] at hfits
    have hmore := more_of_front hstate htext
    rw [front_cons hstate, List.append_assoc] at htext
    obtain ⟨d₁, hvalue, hleaves⟩ := decodeValue_of_tokens doc fuel d nodes (around + 1) _
      (by rcases hstate with hs | hs <;> rw [hs] <;> rfl) htext hfits.1 (by omega) (by omega)
    have hs : d₁.state = .arrayComma := by
      rw [hleaves.state]
      rcases hstate with hs | hs <;> rw [hs] <;> rfl
    have hlt := hleaves.shorter
    obtain ⟨d', hitems, hstack, hlast, hclose, hle⟩ := decodeItems_of_tokens docs fuel d₁ _ around
      (array ++ [decoded doc]) rest (.inr hs) (by rw [hs]; exact hleaves.spells) hfits.2
      (by rw [Nat.add_assoc]; exact hnodes) (by omega)
    refine ⟨d', ?_, hstack.trans hleaves.stack, hlast, hclose, by omega⟩
    rw [decodeItems, if_pos hmore, hvalue]
    change decodeItems limits fuel d₁ _ around (array ++ [decoded doc]) = _
    rw [hitems, decodedDocs, nodesOfItems, List.append_assoc, List.singleton_append, Nat.add_assoc]

theorem decodeMembers_of_tokens : ∀ (members : List (List Item × Doc)) (fuel : ℕ) (d : Decoder)
    (nodes around : ℕ) (object : List (String × Value)) (rest : List Token),
      d.state.expectsName = true →
      Spells d.rest (frontMembers d.state members ++ .punct '\x7d' :: rest) →
      (∀ member ∈ decodedMembers members, Fits limits (around + 1) member.2) →
      ((object ++ decodedMembers members).map Prod.fst).Nodup →
      ((nodes + nodesOfMembers (decodedMembers members) : ℕ) : ℤ) ≤ limits.maxNodes →
      2 * d.rest.length + 1 < fuel → ∃ d', decodeMembers limits fuel d nodes around object =
        .ok (object ++ decodedMembers members, d',
          nodes + nodesOfMembers (decodedMembers members)) ∧
          d'.stack = d.stack ∧ d'.state.expectsName = true ∧
          Spells d'.rest (.punct '\x7d' :: rest) ∧ d'.rest.length ≤ d.rest.length
  | _, 0, _, _, _, _, _, _, _, _, _, _, hfuel => absurd hfuel (Nat.not_lt_zero _)
  | [], fuel + 1, d, nodes, around, object, rest, hstate, htext, _, _, _, _ => by
    have hfront : frontMembers d.state [] = [] := by
      unfold frontMembers
      split_ifs <;> rfl
    rw [hfront, List.nil_append] at htext
    refine ⟨d, ?_, rfl, hstate, htext, le_rfl⟩
    rw [decodeMembers, if_neg (by simp [not_more_of_spells htext (.inr rfl)])]
    simp [decodedMembers, nodesOfMembers]
  | (items, doc) :: members, fuel + 1, d, nodes, around, object, rest, hstate, htext, hfits, hnodup,
      hnodes, hfuel => by
    rw [decodedMembers, nodesOfMembers] at hnodes
    rw [decodedMembers, List.forall_mem_cons] at hfits
    rw [decodedMembers] at hnodup
    have hmore := more_of_frontMembers hstate htext
    rw [frontMembers_cons hstate] at htext
    have hname : Spells d.rest (d.state.lead ++ [.string items] ++ (State.objectColon.lead ++
        doc.tokens ++ (frontMembers .objectComma members ++ .punct '\x7d' :: rest))) := by
      simpa [memberTokens, State.lead] using htext
    have hdirect : Direct d.state.entered d.stack (.string items) (.string (textOf items))
        .objectColon d.stack := by
      refine .name ?_
      cases hd : d.state with
      | objectStart => exact .inl rfl
      | objectComma => exact .inr rfl
      | _ =>
        rw [hd] at hstate
        cases hstate
    obtain ⟨text, htoken, hinner, hlt⟩ := token_of_takes (takes_lead hdirect) hname
    obtain ⟨d₁, hvalue, hleaves⟩ := decodeValue_of_tokens doc fuel ⟨text, .objectColon, d.stack⟩
      nodes (around + 1) _ rfl hinner hfits.1 (by omega) (by dsimp only; omega)
    have hs : d₁.state = .objectComma := hleaves.state
    have hlt₁ := hleaves.shorter
    dsimp only at hlt₁
    obtain ⟨d', hmembers, hstack, hlast, hclose, hle⟩ := decodeMembers_of_tokens members fuel d₁ _
      around (object ++ [(textOf items, decoded doc)]) rest (by rw [hs]; rfl)
      (by rw [hs]; exact hleaves.spells) hfits.2
      (by rw [List.append_assoc, List.singleton_append]; exact hnodup)
      (by rw [Nat.add_assoc]; exact hnodes) (by omega)
    have hnew : textOf items ∉ object.map Prod.fst := by
      rw [List.map_append, List.map_cons] at hnodup
      intro hmem
      exact (List.nodup_append.mp hnodup).2.2 _ hmem _ List.mem_cons_self rfl
    refine ⟨d', ?_, hstack.trans hleaves.stack, hlast, hclose, by omega⟩
    rw [decodeMembers, if_pos hmore, nextOf_bind htoken]
    change (refuseIf _ _ >>= _) = _
    rw [refuseIf_bind hnew, hvalue]
    change decodeMembers limits fuel d₁ _ around (object ++ [(textOf items, decoded doc)]) = _
    rw [hmembers, decodedMembers, nodesOfMembers, List.append_assoc, List.singleton_append,
      Nat.add_assoc]

end

end Complete

/-! ### Whole documents -/

/-- The bytes are one JSON value: UTF-8 text with the tokens of the document and no others. -/
def Denotes (data : ByteArray) (doc : Doc) : Prop :=
  ∃ text : String, data = text.toByteArray ∧ Spells (runes text) doc.tokens

/-- Every limit is positive. -/
structure Limits.Positive (limits : Limits) : Prop where
  bytes : 0 < limits.maxBytes
  depth : 0 < limits.maxDepth
  nodes : 0 < limits.maxNodes
  numberBytes : 0 < limits.maxNumberBytes

/-- What the limits ask of the bytes and of their value. -/
structure Keeps (limits : Limits) (data : ByteArray) (v : Value) : Prop where
  bytes : (data.size : ℤ) ≤ limits.maxBytes
  depth : (depth v : ℤ) ≤ limits.maxDepth
  nodes : (nodes v : ℤ) ≤ limits.maxNodes
  numbers : allNumbers (fun n => decide ((n.text.length : ℤ) ≤ limits.maxNumberBytes)) v = true

theorem validateLimits_eq_ok {limits : Limits} : validateLimits limits = .ok () ↔ limits.Positive := by
  unfold validateLimits
  rw [refuseIf_eq_ok]
  constructor
  · intro h
    refine ⟨?_, ?_, ?_, ?_⟩
    all_goals omega
  · intro h
    have hbytes := h.bytes
    have hdepth := h.depth
    have hnodes := h.nodes
    have hnumbers := h.numberBytes
    omega

theorem fromUTF8?_eq_some {data : ByteArray} {text : String} :
    String.fromUTF8? data = some text ↔ data = text.toByteArray := by
  unfold String.fromUTF8?
  split_ifs with h
  · rw [Option.some.injEq]
    constructor
    · rintro rfl
      rfl
    · rintro rfl
      rfl
  · constructor
    · intro h
      cases h
    · rintro rfl
      exact absurd text.isValidUTF8 h

/-- One value and nothing behind it. -/
theorem decodeText_eq_ok {limits : Limits} {text : List Rune} {v : Value} :
    decodeText limits text = .ok v ↔ ∃ doc, Spells text doc.tokens ∧ v = decoded doc ∧
      Fits limits 0 v ∧ (nodes v : ℤ) ≤ limits.maxNodes := by
  unfold decodeText
  rw [bind_eq_ok]
  constructor
  · rintro ⟨r, hvalue, h⟩
    obtain ⟨doc, hread⟩ := (decodeValue_sound _).1 _ _ _ _ hvalue rfl
    have hs : r.2.1.state = .topValue := hread.passes.state
    split at h
    · next htoken =>
      cases h
      have hend := spells_nil_of_token htoken hs
      have hnot : NotDigit r.2.1.rest := by
        refine notDigit_of_trim ?_
        rw [spells_nil_iff.mp hend]
        trivial
      have htext := hread.passes.spells [] hend hnot
      have hnodes := hread.within
      rw [hread.count, Nat.zero_add] at hnodes
      rw [List.append_nil] at htext
      refine ⟨doc, htext, hread.value, ?_, ?_⟩
      · rw [hread.value]
        exact hread.fits
      · rw [hread.value]
        exact hnodes
    · cases h
    · cases h
  · rintro ⟨doc, htext, rfl, hfits, hnodes⟩
    obtain ⟨d', hvalue, hleaves⟩ := decodeValue_of_tokens doc (2 * text.length + 1) (newDecoder text)
      0 0 [] rfl (by rw [List.append_nil]; exact htext) hfits (by rw [Nat.zero_add]; exact hnodes)
      (Nat.lt_succ_self _)
    refine ⟨_, hvalue, ?_⟩
    dsimp only
    rw [token_of_spells_nil hleaves.spells]
    rfl

/-- **`Decode` succeeds exactly on the bytes of one JSON value that keeps the limits and has no object
with two members of one name, when the limits are positive; and it returns that value.** -/
theorem decode_eq_ok_iff (data : ByteArray) (limits : Limits) (v : Value) :
    decode data limits = .ok v ↔ limits.Positive ∧ ∃ doc, Denotes data doc ∧ v = decoded doc ∧
      Keeps limits data v ∧ distinct v = true := by
  unfold decode
  rw [bind_eq_ok]
  constructor
  · rintro ⟨_, hlimits, h⟩
    obtain ⟨_, hbytes, h⟩ := bind_eq_ok.mp h
    obtain ⟨_, -, h⟩ := bind_eq_ok.mp h
    have hpositive := validateLimits_eq_ok.mp hlimits
    refine ⟨hpositive, ?_⟩
    split at h
    · cases h
    · next text htext =>
      obtain ⟨doc, hspells, hvalue, hfits, hnodes⟩ := decodeText_eq_ok.mp h
      refine ⟨doc, ⟨text, fromUTF8?_eq_some.mp htext, hspells⟩, hvalue, ⟨?_, ?_, hnodes,
        hfits.numbers⟩, hfits.unique⟩
      · exact not_lt.mp (refuseIf_eq_ok.mp hbytes)
      · have hnested := hfits.nested
        have hdepth := hpositive.depth
        omega
  · rintro ⟨hpositive, doc, ⟨text, rfl, hspells⟩, hvalue, hkeeps, hunique⟩
    have hbytes := hkeeps.bytes
    have hdepth := hkeeps.depth
    have hne : text.toByteArray.size ≠ 0 := by
      intro hzero
      obtain rfl : text = "" := String.utf8ByteSize_eq_zero_iff.mp hzero
      obtain ⟨t, tokens, htokens, -⟩ := tokens_head doc
      obtain ⟨rune, rest, _, htrim, -⟩ := exists_of_spells_cons (htokens ▸ hspells)
      cases htrim
    refine ⟨(), validateLimits_eq_ok.mpr hpositive, bind_eq_ok.mpr ⟨(), refuseIf_eq_ok.mpr (by omega),
      bind_eq_ok.mpr ⟨(), refuseIf_eq_ok.mpr hne, ?_⟩⟩⟩
    rw [fromUTF8?_eq_some.mpr rfl]
    exact decodeText_eq_ok.mpr ⟨doc, hspells, hvalue, ⟨fun _ => by omega, hunique, hkeeps.numbers⟩,
      hkeeps.nodes⟩

/-- A limit that a document does not need must be positive all the same. -/
theorem unneeded_limit_refused :
    let one : Number := ⟨false, ['1'], none, none, rfl, rfl, rfl⟩
    let limits : Limits := ⟨1, 0, 1, 1⟩
    Denotes "1".toByteArray (.num one) ∧ Keeps limits "1".toByteArray (decoded (.num one)) ∧
      distinct (decoded (.num one)) = true ∧ decode "1".toByteArray limits =
        .error (.failed "JSON byte, depth, node, and number limits must be positive") := by
  refine ⟨⟨"1", rfl, [.number _], rfl, rfl⟩, ⟨?_, ?_, ?_, rfl⟩, rfl, rfl⟩
  · decide
  · decide
  · decide

end Modary.Action.Decoding
