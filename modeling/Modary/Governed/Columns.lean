import Modary.Audit.Events

/-! # Columns

What the stores of `governedpostgres` and their tables agree on: text parameters and their bounded
projection, `jsonb` texts and stored times. A `jsonb` column holds the value that was marshalled
into it. -/

namespace Modary.Governed.Columns

open Modary.Lib.GoText Modary.Lib.Codec Modary.Lib.Timestamp Modary.Action.Names Modary.Action.Types
open Modary.Action.Persistence Modary.Audit.Events

/-! ### Texts -/

/-- A text parameter. PostgreSQL takes neither invalid UTF-8 nor the zero character. -/
def textParam : GoString → Option String
  | .utf8 s => if Char.ofNat 0 ∈ s.toList then none else some s
  | .raw _ => none

/-- `octet_length` of a text. -/
def octetLength (s : String) : ℕ := byteLength s.toList

/-- `CASE WHEN octet_length(column) <= limit THEN column END`. -/
def projectText (limit : ℕ) (s : String) : Option String :=
  if octetLength s ≤ limit then some s else none

/-- `requireProjectedText`. -/
def requireProjectedText (value : Option String) (field : String) : Except String String :=
  match value with
  | some s => .ok s
  | none =>
    .error ("stored " ++ field ++ " is absent, has the wrong type, or exceeds its resource limit")

/-- A value that its column and its projection keep: `length` counts characters, the projection
octets. -/
structure Fits (given : GoString) (least most octets : ℕ) (s : String) : Prop where
  text : given = .utf8 s
  param : textParam (.utf8 s) = some s
  above : least ≤ s.length
  below : s.length ≤ most
  size : octetLength s ≤ octets

theorem Fits.given {given : GoString} {least most octets : ℕ} {s : String}
    (h : Fits given least most octets s) : textParam given = some s := by
  rw [h.text, h.param]

theorem Fits.projected {given : GoString} {least most octets : ℕ} {s : String}
    (h : Fits given least most octets s) (field : String) :
    requireProjectedText (projectText octets s) field = .ok s := by
  rw [projectText, if_pos h.size]
  rfl

/-- `length(column) BETWEEN least AND most`. -/
def between (s : String) (least most : ℕ) : Bool := least ≤ s.length && s.length ≤ most

theorem between_of_fits {given : GoString} {least most octets : ℕ} {s : String}
    (h : Fits given least most octets s) : between s least most = true := by
  simp only [between, Bool.and_eq_true, decide_eq_true_eq]
  exact ⟨h.above, h.below⟩

theorem byteLength_cons (c : Char) (s : List Char) :
    byteLength (c :: s) = c.utf8Size + byteLength s := rfl

theorem byteLength_append (s t : List Char) :
    byteLength (s ++ t) = byteLength s + byteLength t := by
  simp [byteLength]

theorem byteLength_le (s : List Char) : byteLength s ≤ 4 * s.length := by
  induction s with
  | nil => exact le_rfl
  | cons c s ih =>
    have hc : c.utf8Size ≤ 4 := Char.utf8Size_le_four c
    rw [byteLength_cons, List.length_cons]
    omega

theorem utf8Size_of_ascii {c : Char} (h : c.toNat < 128) : c.utf8Size = 1 := by
  have hle : c.val ≤ 127 := by
    refine UInt32.le_iff_toNat_le.mpr ?_
    have : c.val.toNat < 128 := h
    simpa using Nat.lt_succ_iff.mp this
  simp [Char.utf8Size, hle]

/-- A text in ASCII has as many octets as characters. -/
theorem byteLength_of_ascii {s : List Char} (h : ∀ c ∈ s, c.toNat < 128) :
    byteLength s = s.length := by
  induction s with
  | nil => rfl
  | cons c s ih =>
    obtain ⟨hc, hs⟩ := List.forall_mem_cons.mp h
    rw [byteLength_cons, ih hs, utf8Size_of_ascii hc, List.length_cons, Nat.add_comm]

theorem textParam_of_visible {s : String} (h : ∀ c ∈ s.toList, isControl c = false) :
    textParam (.utf8 s) = some s := by
  simp only [textParam]
  rw [if_neg]
  intro hzero
  exact absurd (h _ hzero) (by decide)

/-- A clean text fits four octets for each of its characters. -/
theorem fits_of_clean {given : GoString} {limit : ℕ} (h : Clean limit given) :
    ∃ s, Fits given 0 limit (4 * limit) s := by
  obtain ⟨s, rfl⟩ := h.utf8
  have hlen : s.toList.length ≤ limit := h.bounded
  rw [String.length_toList] at hlen
  refine ⟨s, rfl, textParam_of_visible h.visible, Nat.zero_le _, hlen, ?_⟩
  have hbytes := byteLength_le s.toList
  rw [String.length_toList] at hbytes
  unfold octetLength
  omega

/-- A text that is there has a character. -/
theorem Fits.present {given : GoString} {least most octets : ℕ} {s : String}
    (h : Fits given least most octets s) (hne : given ≠ .utf8 "") : Fits given 1 most octets s := by
  refine { h with above := Nat.one_le_iff_ne_zero.mpr fun h0 => ?_ }
  rw [String.length_eq_zero_iff.mp h0] at h
  exact hne h.text

theorem fits_of_required {given : GoString} {limit : ℕ} (h : Clean limit given ∧ given ≠ .utf8 "") :
    ∃ s, Fits given 1 limit (4 * limit) s := by
  obtain ⟨s, hs⟩ := fits_of_clean h.1
  exact ⟨s, hs.present h.2⟩

/-- A text of plain characters fits one octet for each of them. -/
theorem fits_of_plain {s : String} {least most : ℕ} (h0 : least ≤ s.length) (h1 : s.length ≤ most)
    (h : ∀ c ∈ s.toList, plain c = true) : Fits (.utf8 s) least most most s := by
  refine ⟨rfl, textParam_of_visible fun c hc => isControl_of_plain (h c hc), h0, h1, ?_⟩
  have hb : byteLength s.toList = s.toList.length := byteLength_of_ascii fun c hc => by
    have := h c hc
    simp only [plain, Bool.and_eq_true, decide_eq_true_eq] at this
    omega
  unfold octetLength
  rw [hb, String.length_toList]
  exact h1

theorem fits_of_validIdentifier {given : GoString} (h : validIdentifier given = true) :
    ∃ s, Fits given 1 maxActionIDRunes maxActionIDRunes s := by
  obtain ⟨hclean, hne⟩ := clean_of_validIdentifier h
  obtain ⟨s, hs⟩ := fits_of_required ⟨hclean, hne⟩
  refine ⟨s, { hs with size := ?_ }⟩
  have hb := (Bool.and_eq_true_iff.mp h).1
  rw [hs.text] at hb
  exact of_decide_eq_true hb

theorem fits_of_digest {given : GoString} (h : matchDigest given.runes = true) :
    ∃ s, Fits given maxHashRunes maxHashRunes maxHashRunes s := by
  cases given with
  | raw units => simp [GoString.runes, matchDigest] at h
  | utf8 s =>
    have hlen : s.length = maxHashRunes := by
      obtain ⟨hex, hs, hl, -⟩ := matchDigest_iff.mp h
      have hs : s.toList = "sha256:".toList ++ hex := hs
      rw [← String.length_toList, hs, List.length_append, hl]
      decide
    exact ⟨s, fits_of_plain hlen.ge hlen.le (plain_of_matchDigest h)⟩

theorem plain_of_idempotencyKeyPattern {s : List Char} (h : idempotencyKeyPattern s = true) :
    ∀ c ∈ s, plain c = true := by
  have hword : ∀ c, (isUpper c || isLower c || isDigit c) = true → plain c = true := by
    intro c hc
    simp only [Bool.or_eq_true] at hc
    rcases hc with (hc | hc) | hc
    · exact plain_of_isUpper hc
    · exact plain_of_isLower hc
    · exact plain_of_isDigit hc
  refine plain_of_matchToken h hword ?_
  intro c hc
  simp only [Bool.or_eq_true, beq_iff_eq] at hc
  rcases hc with ((((((hc | rfl) | rfl) | rfl) | rfl) | rfl) | rfl) | rfl
  · exact hword c (by simpa only [Bool.or_eq_true] using hc)
  all_goals rfl

theorem fits_of_idempotencyKey {given : GoString} (h : validateIdempotencyKey given = .ok ()) :
    ∃ s, Fits given 1 256 256 s := by
  unfold validateIdempotencyKey at h
  split at h
  · next hm =>
    cases given with
    | raw units => simp [GoString.runes, idempotencyKeyPattern, matchToken] at hm
    | utf8 s =>
      have hlen : 1 ≤ s.length ∧ s.length ≤ 256 := by
        rw [← String.length_toList]
        change idempotencyKeyPattern s.toList = true at hm
        unfold idempotencyKeyPattern at hm
        cases hs : s.toList with
        | nil => simp [hs, matchToken] at hm
        | cons c cs =>
          simp only [hs, matchToken, Bool.and_eq_true, decide_eq_true_eq] at hm
          have := hm.2
          simp only [List.length_cons]
          omega
      exact ⟨s, fits_of_plain hlen.1 hlen.2 (plain_of_idempotencyKeyPattern hm)⟩
  · cases h

/-- A version that was validated, when semantic versions are in ASCII. -/
theorem fits_of_version {checks : Checks} {given : GoString}
    (hascii : ∀ version, checks.semverIsValid version = true → ∀ c ∈ version.runes, c.toNat < 128)
    (h : (validatePersistentActionVersion checks given).isOk = true) :
    ∃ s, Fits given 1 maxVersionRunes maxVersionRunes s := by
  have hok : validatePersistentActionVersion checks given = .ok () := by
    cases hv : validatePersistentActionVersion checks given with
    | ok _ => rfl
    | error _ =>
      rw [hv] at h
      cases h
  obtain ⟨_, htext, hok⟩ := bind_eq_ok.mp hok
  have hsemver := refuseIf_eq_ok.mp hok
  push Not at hsemver
  obtain ⟨s, hs⟩ := fits_of_required (clean_required htext fun _ hc => hc)
  refine ⟨s, { hs with size := ?_ }⟩
  have hb := byteLength_of_ascii (hascii given (by simpa using hsemver.2))
  rw [hs.text] at hb
  unfold octetLength
  have hb : byteLength s.toList = s.toList.length := hb
  rw [hb, String.length_toList]
  exact hs.below

theorem fits_of_scope {execution : Execution} (h : execution.validate = .ok ()) :
    (∃ s, Fits execution.kind 1 64 (64 * 4) s) ∧ ∃ s, Fits execution.id 1 256 (256 * 4) s := by
  obtain ⟨hkind, hid⟩ := clean_of_scope h
  unfold Execution.validate at h
  split_ifs at h with h1 h2 h3 h4 h5
  refine ⟨fits_of_required ⟨hkind, ?_⟩, fits_of_required ⟨hid, ?_⟩⟩
  · intro h0
    rw [h0] at h2
    exact h2 rfl
  · intro h0
    rw [h0] at h4
    exact h4 rfl

theorem mapM_textParam {values : List GoString} {limit : ℕ}
    (h : ∀ value ∈ values, Clean limit value) :
    ∃ texts, values.mapM textParam = some texts ∧ values = texts.map .utf8 ∧
      ∀ s ∈ texts, s.length ≤ limit := by
  induction values with
  | nil => exact ⟨[], rfl, rfl, by simp⟩
  | cons value values ih =>
    obtain ⟨hvalue, hvalues⟩ := List.forall_mem_cons.mp h
    obtain ⟨s, hs⟩ := fits_of_clean hvalue
    obtain ⟨texts, hm, rfl, hle⟩ := ih hvalues
    obtain rfl := hs.text
    refine ⟨s :: texts, ?_, rfl, List.forall_mem_cons.mpr ⟨hs.below, hle⟩⟩
    rw [List.mapM_cons, hs.param, hm]
    rfl

/-! ### `jsonb` texts -/

/-- `action.MaxJSONDocumentBytes`. -/
def maxJSONDocumentBytes : ℕ := 1048576

/-- One character of a text inside `jsonb::text`. -/
def jsonbChar (c : Char) : List Char :=
  if c = '"' then ['\\', '"']
  else if c = '\\' then ['\\', '\\']
  else if c.toNat = 8 then ['\\', 'b']
  else if c.toNat = 12 then ['\\', 'f']
  else if c.toNat = 10 then ['\\', 'n']
  else if c.toNat = 13 then ['\\', 'r']
  else if c.toNat = 9 then ['\\', 't']
  else if c.toNat < 32 then '\\' :: 'u' :: '0' :: '0' :: [hexDigit (c.toNat / 16), hexDigit (c.toNat % 16)]
  else [c]

def jsonbString (s : String) : List Char := '"' :: (s.toList.flatMap jsonbChar ++ ['"'])

/-- An array in `jsonb::text`, given the texts of its items. -/
def jsonbArray : List (List Char) → List Char
  | [] => ['[', ']']
  | item :: items => '[' :: (item ++ items.flatMap (fun item => ',' :: ' ' :: item) ++ [']'])

/-- A reference in `jsonb::text`: shorter names come first. -/
def jsonbReference (reference : String × String) : List Char :=
  "\x7b\"id\": ".toList ++ jsonbString reference.2 ++ ", \"kind\": ".toList ++
    jsonbString reference.1 ++ "\x7d".toList

theorem byteLength_flatMap_le {α : Type} {f : α → List Char} {bound : ℕ} {l : List α}
    (h : ∀ a ∈ l, byteLength (f a) ≤ bound) : byteLength (l.flatMap f) ≤ bound * l.length := by
  induction l with
  | nil => exact le_rfl
  | cons a l ih =>
    obtain ⟨ha, hl⟩ := List.forall_mem_cons.mp h
    have := ih hl
    rw [List.flatMap_cons, byteLength_append, List.length_cons, Nat.mul_succ]
    omega

theorem byteLength_jsonbChar (c : Char) : byteLength (jsonbChar c) ≤ 24 := by
  have hlen : (jsonbChar c).length ≤ 6 := by
    unfold jsonbChar
    split_ifs <;> simp
  have := byteLength_le (jsonbChar c)
  omega

theorem byteLength_jsonbString (s : String) :
    byteLength (jsonbString s) ≤ 24 * s.length + 2 := by
  have h := byteLength_flatMap_le fun c (_ : c ∈ s.toList) => byteLength_jsonbChar c
  rw [String.length_toList] at h
  have hquote : '"'.utf8Size = 1 := rfl
  have hlast : byteLength ['"'] = 1 := rfl
  rw [jsonbString, byteLength_cons, byteLength_append, hquote, hlast]
  omega

theorem byteLength_jsonbReference (reference : String × String) :
    byteLength (jsonbReference reference) ≤
      24 * reference.1.length + 24 * reference.2.length + 22 := by
  have hsum : ∀ kind id : List Char, byteLength ("\x7b\"id\": ".toList ++ id ++
      ", \"kind\": ".toList ++ kind ++ "\x7d".toList) =
        7 + byteLength id + 10 + byteLength kind + 1 := by
    intro kind id
    rw [byteLength_append, byteLength_append, byteLength_append, byteLength_append]
    rfl
  have hkind := byteLength_jsonbString reference.1
  have hid := byteLength_jsonbString reference.2
  calc byteLength (jsonbReference reference) = _ := hsum _ _
    _ ≤ 24 * reference.1.length + 24 * reference.2.length + 22 := by omega

/-- An array of short items is short. -/
theorem byteLength_jsonbArray {items : List (List Char)} {bound : ℕ}
    (h : ∀ item ∈ items, byteLength item ≤ bound) :
    byteLength (jsonbArray items) ≤ (bound + 2) * items.length + 2 := by
  cases items with
  | nil =>
    have hempty : byteLength (jsonbArray []) = 2 := rfl
    rw [hempty]
    exact Nat.le_add_left 2 _
  | cons item items =>
    obtain ⟨hitem, hitems⟩ := List.forall_mem_cons.mp h
    have hrest : byteLength (items.flatMap fun item => ',' :: ' ' :: item) ≤
        (bound + 2) * items.length := by
      refine byteLength_flatMap_le fun item hi => ?_
      have hcomma : ','.utf8Size = 1 := rfl
      have hspace : ' '.utf8Size = 1 := rfl
      rw [byteLength_cons, byteLength_cons, hcomma, hspace]
      have := hitems item hi
      omega
    have hopen : '['.utf8Size = 1 := rfl
    have hclose : byteLength [']'] = 1 := rfl
    rw [jsonbArray, byteLength_cons, byteLength_append, byteLength_append, hopen, hclose,
      List.length_cons, Nat.mul_succ]
    omega

/-- `octet_length(column::text) <= 1048576`, of an array of `jsonb`. -/
def shortArray (items : List (List Char)) : Bool :=
  items.length ≤ 32 && byteLength (jsonbArray items) ≤ 1048576

theorem shortArray_strings {texts : List String} (hcount : texts.length ≤ 32)
    (h : ∀ s ∈ texts, s.length ≤ 256) : shortArray (texts.map jsonbString) = true := by
  have hitems : ∀ item ∈ texts.map jsonbString, byteLength item ≤ 24 * 256 + 2 := by
    intro item hi
    obtain ⟨s, hs, rfl⟩ := List.mem_map.mp hi
    have := byteLength_jsonbString s
    have := h s hs
    omega
  have hbytes := byteLength_jsonbArray hitems
  rw [List.length_map] at hbytes
  simp only [shortArray, List.length_map, Bool.and_eq_true, decide_eq_true_eq]
  omega

/-- The resources of an orderly impact are a short array. -/
theorem columns_of_impact {impact : Action.Authz.Impact} (h : OrderlyImpact impact) :
    ∃ resources, impact.resources.mapM textParam = some resources ∧
      impact.resources = resources.map .utf8 ∧ shortArray (resources.map jsonbString) = true := by
  obtain ⟨resources, hm, hr, hle⟩ := mapM_textParam fun r hr => (h.clean r hr).1
  have hcount := h.count
  rw [hr, List.length_map] at hcount
  exact ⟨resources, hm, hr, shortArray_strings hcount hle⟩

theorem byteLen_of_shortArray {items : List (List Char)} (h : shortArray items = true) :
    byteLen (.utf8 (String.ofList (jsonbArray items))) ≤ maxJSONDocumentBytes := by
  simp only [shortArray, Bool.and_eq_true, decide_eq_true_eq] at h
  rw [byteLen, String.toList_ofList]
  exact h.2

/-- The checks of `decodeStrictJSON` on a `jsonb` text; what it decodes is what the column holds. -/
def decodeStrictJSON (checks : Checks) (text : List Char) : Except String Unit :=
  refuseIf (checks.validateJSONDocument (.utf8 (String.ofList text)) ≠ .ok)
    "JSON document is invalid"

/-! ### Times -/

/-- The text of a stored time. -/
def storedTime (nanos : ℤ) : String := String.ofList (formatInstant nanos)

/-- `parseStoredTime`: a text that is not the one of its instant is refused, so it does not matter
which days of a month and which offsets `time.Parse` takes. -/
def parseStoredTime (name : String) (value : String) : Except String ℤ :=
  match parseInstant value.toList with
  | none => .error ("stored " ++ name ++ " is not canonical UTC RFC3339Nano")
  | some nanos =>
    if storedTime nanos ≠ value then
      .error ("stored " ++ name ++ " is not canonical UTC RFC3339Nano")
    else if nanos < minimumPersistentPlanTime ∨ maximumPersistentPlanTime ≤ nanos then
      .error (name ++ " is outside the durable PostgreSQL timestamp range")
    else .ok nanos

theorem parseStoredTime_storedTime {nanos : ℤ} (h : Persistable nanos) (name : String) :
    parseStoredTime name (storedTime nanos) = .ok nanos := by
  obtain ⟨h0, h1⟩ := h
  have hparse : parseInstant (storedTime nanos).toList = some nanos := by
    unfold minimumPersistentPlanTime at h0
    unfold maximumPersistentPlanTime at h1
    rw [storedTime, String.toList_ofList]
    exact parseInstant_formatInstant (by omega) (by omega)
  unfold parseStoredTime
  rw [hparse]
  simp only [ne_eq, not_true_eq_false, if_false]
  rw [if_neg (by omega)]

theorem length_storedTime (nanos : ℤ) :
    20 ≤ (storedTime nanos).length ∧ (storedTime nanos).length ≤ 30 := by
  rw [storedTime, ← String.length_toList, String.toList_ofList]
  exact length_formatInstant nanos

theorem octetLength_storedTime (nanos : ℤ) : octetLength (storedTime nanos) ≤ 30 := by
  rw [octetLength, storedTime, String.toList_ofList,
    byteLength_of_ascii fun _ hc => ascii_formatInstant hc]
  exact (length_formatInstant nanos).2

theorem between_storedTime (nanos : ℤ) : between (storedTime nanos) 20 30 = true := by
  simp only [between, Bool.and_eq_true, decide_eq_true_eq]
  exact length_storedTime nanos

/-! ### What the stores take of other packages -/

/-- What the store takes of `jsonvalue.Validate` and `semver.IsValid`: a document is at most so
long, the text of a short `jsonb` array of texts or references is one, and a version is in ASCII. -/
structure Documents (checks : Checks) : Prop where
  bounded : ∀ document, checks.validateJSONDocument document = .ok →
    byteLen document ≤ maxJSONDocumentBytes
  strings : ∀ texts : List String, shortArray (texts.map jsonbString) = true →
    checks.validateJSONDocument
      (.utf8 (String.ofList (jsonbArray (texts.map jsonbString)))) = .ok
  references : ∀ pairs : List (String × String), shortArray (pairs.map jsonbReference) = true →
    checks.validateJSONDocument
      (.utf8 (String.ofList (jsonbArray (pairs.map jsonbReference)))) = .ok
  versions : ∀ version, checks.semverIsValid version = true →
    ∀ c ∈ version.runes, c.toNat < 128

end Modary.Governed.Columns
