import Modary.Action.Documents
import Modary.Audit.Events
import Modary.Lib.JsonDelimited
import Modary.Runtime.Authorization
import Modary.Runtime.CanonicalInput

/-! # The plan behind a hash

`loadExecutionPlan` takes whatever the store returned and hashes it again. The material of the hash
can be read back field by field, so a hash stands for one plan, up to how its payload is spelled. -/

namespace Modary.Runtime.PlanBinding

open Modary.Lib.GoText Modary.Lib.Prog Modary.Lib.Codec Modary.Lib.Timestamp
open Modary.Action.Names Modary.Action.Authz Modary.Action.Types Modary.Action.Persistence
open Modary.Action.Canonical Modary.Audit.Events
open Modary.Lib.JsonText (Rune Doc runesOf parseRunes compact)
open Modary.Action.Documents (validateJSONDocument validateJSONDocument_eq_ok)
open Modary.Runtime.Environment Modary.Runtime.Engine Modary.Runtime.Traces
open Modary.Runtime.Runs

/-! ### The JSON functions of an engine -/

/-- The text of a `json.RawMessage` inside `json.Marshal`: that of its document, compact. -/
def compactText (payload : RawMessage) : Option (List Char) :=
  (parseRunes (runesOf payload)).bind fun doc => (compact doc).text.mapM Sum.getLeft?

/-- The JSON functions of an engine are those of `jsonvalue`, `canonicalInput` and `json.Marshal`:
what is accepted can be decoded, canonical inputs are the canonical bytes, and the payload of a plan
is written compact. -/
structure ReadsJSON (e : Engine) : Prop where
  document : ∀ document, e.checks.validateJSONDocument document = .ok →
    (decodeSingleJSON (runesOf document)).isSome = true
  canonical : ∀ input canonical, e.canonical input = .ok canonical →
    (∃ s : String, canonical = .utf8 s) ∧
      CanonicalInput.canonicalInput id (runesOf input) = some (runesOf canonical, runesOf canonical)
  compact : ∀ payload, (decodeSingleJSON (runesOf payload)).isSome = true →
    e.compact payload = compactText payload

theorem chars_of_mapM {text : List Rune} : ∀ {chars : List Char},
    text.mapM Sum.getLeft? = some chars → text = chars.map .inl := by
  induction text with
  | nil =>
    intro chars h
    cases h
    rfl
  | cons rune text ih =>
    intro chars h
    rw [List.mapM_cons] at h
    obtain ⟨c, hc, h⟩ := Option.bind_eq_some_iff.mp h
    obtain ⟨others, hothers, h⟩ := Option.bind_eq_some_iff.mp h
    cases h
    rw [List.map_cons, ← ih hothers, Sum.getLeft?_eq_some_iff.mp hc]

/-- The canonical input of a canonical input is itself, and so is its hash. -/
theorem hash_of_canonical {e : Engine} (he : ReadsJSON e) {input canonical again : RawMessage}
    {hash other : GoString} (h : Engine.canonicalInput e input = .ok (canonical, hash))
    (h' : Engine.canonicalInput e canonical = .ok (again, other)) : other = hash := by
  have hfirst : ∀ {given got : RawMessage} {h : GoString},
      Engine.canonicalInput e given = .ok (got, h) → e.canonical given = .ok got ∧
        h = .utf8 ("sha256:" ++ e.sha256 got.runes) := by
    intro given got h hgot
    unfold Engine.canonicalInput at hgot
    split at hgot
    all_goals cases hgot
    next heq => exact ⟨heq, rfl⟩
  obtain ⟨hc, rfl⟩ := hfirst h
  obtain ⟨hc', rfl⟩ := hfirst h'
  obtain ⟨⟨s, rfl⟩, hs⟩ := he.canonical _ _ hc
  obtain ⟨⟨t, rfl⟩, ht⟩ := he.canonical _ _ hc'
  rw [CanonicalInput.canonicalInput_canonical hs, Option.some.injEq, Prod.mk.injEq] at ht
  have hruns : s.toList = t.toList := (List.map_injective_iff.mpr Sum.inl_injective) ht.1
  rw [String.toList_inj.mp hruns]

/-! ### Plans that can be read back -/

/-- The text is well-formed. -/
def IsText (value : GoString) : Prop := ∃ s : String, value = .utf8 s

/-- The fields of a plan that passed `ValidatePlanRecord`, as far as its material needs them. -/
structure Written (plan : Plan) : Prop where
  actionID : IsText plan.actionID
  actionVersion : IsText plan.actionVersion
  contractHash : IsText plan.contractHash
  actorID : IsText plan.actorID
  actorType : IsText plan.actorType
  channel : IsText plan.channel
  scopeKind : IsText plan.scope.kind
  scopeID : IsText plan.scope.id
  inputHash : IsText plan.inputHash
  resources : ∀ resource ∈ plan.impact.resources, IsText resource
  snapshotHash : IsText plan.snapshotHash
  fingerprint : IsText plan.decisionFingerprint
  createdAt : plan.createdAt.utc = true ∧ Persistable plan.createdAt.nanos
  expiresAt : plan.expiresAt.utc = true ∧ Persistable plan.expiresAt.nanos

theorem isText_of_matchDigest {value : GoString} (h : matchDigest value.runes = true) :
    IsText value := by
  cases value with
  | utf8 s => exact ⟨s, rfl⟩
  | raw units => cases h

theorem isText_of_validateText {field : String} {value : GoString} {required : Bool} {maxRunes : ℕ}
    {forbidden : Char → Bool} (h : validateText field value required maxRunes forbidden = .ok ()) :
    IsText value := by
  obtain ⟨s, hs, -⟩ := validateText_ok h
  exact ⟨s, hs⟩

theorem isText_of_validateSnapshotHash {value : GoString} (h : validateSnapshotHash value = .ok ()) :
    IsText value := by
  unfold validateSnapshotHash at h
  split at h
  · cases h
  next hcond =>
  push Not at hcond
  by_cases hempty : value = .utf8 ""
  · exact ⟨"", hempty⟩
  · exact isText_of_matchDigest (by simpa using hcond hempty)

/-- What `ValidatePlanRecord` accepts. -/
theorem written_of_valid {checks : Checks} {plan : Plan}
    (h : validatePlanRecord checks plan = .ok ()) :
    Written plan ∧ checks.validateJSONDocument plan.payload = .ok := by
  have hv := validPlan_of_ok h
  obtain ⟨_, htoken, -⟩ := bind_eq_ok.mp hv.fingerprint
  obtain ⟨hkind, hid⟩ := utf8_of_scope_validate hv.scope
  obtain ⟨_, -, himpact⟩ := bind_eq_ok.mp hv.impact
  obtain ⟨_, -, himpact⟩ := bind_eq_ok.mp himpact
  obtain ⟨_, hversion, -⟩ := bind_eq_ok.mp hv.actionVersion
  exact ⟨
    { actionID := utf8_of_validIdentifier hv.actionID
      actionVersion := isText_of_validateText hversion
      contractHash := isText_of_matchDigest hv.contractHash
      actorID := isText_of_validateText hv.actorID
      actorType := isText_of_validateText hv.actorType
      channel := isText_of_validateText hv.channel
      scopeKind := hkind
      scopeID := hid
      inputHash := isText_of_matchDigest hv.inputHash
      resources := fun resource hresource =>
        isText_of_validateText ((validateResources_ok himpact).1 resource hresource)
      snapshotHash := isText_of_validateSnapshotHash hv.snapshotHash
      fingerprint := isText_of_validateText htoken
      createdAt := validatePersistentPlanTime_ok hv.createdAt
      expiresAt := validatePersistentPlanTime_ok hv.expiresAt },
    hv.payload⟩

/-! ### The pieces of the material -/

theorem text_inj {value other : GoString} {rest more : List Char} (hvalue : IsText value)
    (hother : IsText other) (h : encodeGoString value ++ rest = encodeGoString other ++ more) :
    value = other ∧ rest = more := by
  obtain ⟨s, rfl⟩ := hvalue
  obtain ⟨t, rfl⟩ := hother
  obtain ⟨rfl, hrest⟩ := encodeString_selfDelimiting _ _ _ _ h
  exact ⟨rfl, hrest⟩

/-- A member with a text. -/
theorem field_inj {label rest more : List Char} {value other : GoString} (hvalue : IsText value)
    (hother : IsText other)
    (h : label ++ (encodeGoString value ++ rest) = label ++ (encodeGoString other ++ more)) :
    value = other ∧ rest = more :=
  text_inj hvalue hother (List.append_cancel_left h)

/-- Texts in an array. -/
theorem encodeArray_map_utf8 (texts : List String) :
    encodeArray encodeGoString (texts.map .utf8) = encodeArray encodeString texts := by
  have htail : ∀ texts : List String,
      encodeTail encodeGoString (texts.map .utf8) = encodeTail encodeString texts := by
    intro texts
    induction texts with
    | nil => rfl
    | cons text texts ih => rw [List.map_cons, encodeTail, encodeTail, ih, encodeGoString]
  cases texts with
  | nil => rfl
  | cons text texts => rw [List.map_cons, encodeArray, encodeArray, htail, encodeGoString]

theorem exists_texts {values : List GoString} (h : ∀ value ∈ values, IsText value) :
    ∃ texts : List String, values = texts.map .utf8 := by
  induction values with
  | nil => exact ⟨[], rfl⟩
  | cons value values ih =>
    obtain ⟨hvalue, hvalues⟩ := List.forall_mem_cons.mp h
    obtain ⟨s, rfl⟩ := hvalue
    obtain ⟨texts, rfl⟩ := ih hvalues
    exact ⟨s :: texts, rfl⟩

theorem texts_inj {values others : List GoString} {rest more : List Char}
    (hvalues : ∀ value ∈ values, IsText value) (hothers : ∀ value ∈ others, IsText value)
    (h : encodeArray encodeGoString values ++ rest = encodeArray encodeGoString others ++ more) :
    values = others ∧ rest = more := by
  obtain ⟨texts, rfl⟩ := exists_texts hvalues
  obtain ⟨texts', rfl⟩ := exists_texts hothers
  rw [encodeArray_map_utf8, encodeArray_map_utf8] at h
  obtain ⟨rfl, hrest⟩ := encodeStrings_selfDelimiting _ _ _ _ h
  exact ⟨rfl, hrest⟩

/-- The text of an instant is that of its day and time, in quotes. -/
theorem encodeInstant_eq (nanos : ℤ) : encodeInstant nanos = '"' :: (formatInstant nanos ++ ['"']) := by
  unfold encodeInstant formatInstant
  simp only [List.append_assoc, List.cons_append, List.nil_append]

/-- There is no quote in the text of an instant. -/
theorem quote_not_mem_formatInstant (nanos : ℤ) : '"' ∉ formatInstant nanos := by
  intro h
  have hpad : ∀ {width n : ℕ}, '"' ∉ pad width n := by
    intro width n hmem
    have hdigit := isDigit_of_mem_pad hmem
    cases hdigit
  have hfraction : ∀ {n : ℕ}, '"' ∉ encodeFraction n := by
    intro n hmem
    unfold encodeFraction at hmem
    split at hmem
    · cases hmem
    rcases List.mem_cons.mp hmem with hdot | hmem
    · cases hdot
    · exact hpad ((List.rdropWhile_prefix (· == '0') (pad 9 n)).subset hmem)
  simp only [formatInstant, List.mem_append, List.mem_cons, List.not_mem_nil, or_false] at h
  rcases h with h | h | h | h | h | h | h | h | h | h | h | h | h
  all_goals first | exact hpad h | exact hfraction h | cases h

theorem quoted_inj {text other rest more : List Char} (htext : '"' ∉ text) (hother : '"' ∉ other)
    (h : text ++ '"' :: rest = other ++ '"' :: more) : text = other ∧ rest = more := by
  induction text generalizing other with
  | nil =>
    cases other with
    | nil =>
      rw [List.nil_append, List.nil_append, List.cons.injEq] at h
      exact ⟨rfl, h.2⟩
    | cons c other =>
      rw [List.nil_append, List.cons_append, List.cons.injEq] at h
      rw [h.1] at hother
      exact absurd List.mem_cons_self hother
  | cons c text ih =>
    cases other with
    | nil =>
      rw [List.nil_append, List.cons_append, List.cons.injEq] at h
      rw [h.1] at htext
      exact absurd List.mem_cons_self htext
    | cons d other =>
      rw [List.cons_append, List.cons_append, List.cons.injEq] at h
      obtain ⟨rfl, h⟩ := h
      rw [List.mem_cons, not_or] at htext hother
      obtain ⟨rfl, hrest⟩ := ih htext.2 hother.2 h
      exact ⟨rfl, hrest⟩

theorem instant_inj {time other : Time} {rest more : List Char}
    (htime : time.utc = true ∧ Persistable time.nanos)
    (hother : other.utc = true ∧ Persistable other.nanos)
    (h : encodeInstant time.nanos ++ rest = encodeInstant other.nanos ++ more) :
    time = other ∧ rest = more := by
  rw [encodeInstant_eq, encodeInstant_eq, List.cons_append, List.cons_append, List.cons.injEq,
    List.append_assoc, List.append_assoc] at h
  obtain ⟨htext, hrest⟩ :=
    quoted_inj (quote_not_mem_formatInstant _) (quote_not_mem_formatInstant _) h.2
  have hread : ∀ {t : Time}, Persistable t.nanos →
      parseInstant (formatInstant t.nanos) = some t.nanos := by
    intro t ht
    have hlow := ht.1
    have hhigh := ht.2
    unfold minimumPersistentPlanTime at hlow
    unfold maximumPersistentPlanTime at hhigh
    exact parseInstant_formatInstant (by omega) (by omega)
  have hnanos := hread htime.2
  rw [htext, hread hother.2, Option.some.injEq] at hnanos
  obtain ⟨nanos, utc⟩ := time
  obtain ⟨nanos', utc'⟩ := other
  obtain rfl : utc = true := htime.1
  obtain rfl : utc' = true := hother.1
  obtain rfl : nanos' = nanos := hnanos
  exact ⟨rfl, hrest⟩

/-- The two optional members of an impact. -/
theorem encodeImpact_append (impact : Impact) (rest : List Char) :
    encodeImpact impact ++ rest =
      '\x7b' :: (if impact.rows = 0 then
        (if impact.resources = [] then '\x7d' :: rest
        else "\"resources\":".toList ++ (encodeArray encodeGoString impact.resources ++ '\x7d' :: rest))
      else "\"rows\":".toList ++ (encodeInt impact.rows ++
        (if impact.resources = [] then '\x7d' :: rest
        else ',' :: ("\"resources\":".toList ++
          (encodeArray encodeGoString impact.resources ++ '\x7d' :: rest))))) := by
  have hopen : "\x7b".toList = ['\x7b'] := rfl
  have hclose : "\x7d".toList = ['\x7d'] := rfl
  have hrows : "\"rows\":".toList ++ encodeInt impact.rows ≠ [] :=
    List.append_ne_nil_of_left_ne_nil (by decide) _
  have hresources : "\"resources\":".toList ++ encodeArray encodeGoString impact.resources ≠ [] :=
    List.append_ne_nil_of_left_ne_nil (by decide) _
  unfold encodeImpact
  rw [hopen, hclose]
  by_cases hzero : impact.rows = 0
  · by_cases hnone : impact.resources = []
    · simp only [if_pos hzero, if_pos hnone, true_or, if_true, List.append_nil, List.cons_append,
        List.nil_append]
    · simp only [if_pos hzero, if_neg hnone, true_or, if_true, List.append_nil, List.cons_append,
        List.nil_append, List.append_assoc]
  · by_cases hnone : impact.resources = []
    · simp only [if_neg hzero, if_pos hnone, or_true, if_true, List.append_nil, List.cons_append,
        List.nil_append, List.append_assoc]
    · simp only [if_neg hzero, if_neg hnone, hrows, hresources, or_self, if_false, List.cons_append,
        List.nil_append, List.append_assoc]

/-- Behind its rows an impact goes on with its resources, or ends. -/
theorem resources_inj {values others : List GoString} {rest more : List Char}
    (hvalues : ∀ value ∈ values, IsText value) (hothers : ∀ value ∈ others, IsText value)
    (h : "\"resources\":".toList ++ (encodeArray encodeGoString values ++ '\x7d' :: rest) =
      "\"resources\":".toList ++ (encodeArray encodeGoString others ++ '\x7d' :: more)) :
    values = others ∧ rest = more := by
  rw [List.append_cancel_left_eq] at h
  obtain ⟨rfl, hrest⟩ := texts_inj hvalues hothers h
  rw [List.cons.injEq] at hrest
  exact ⟨rfl, hrest.2⟩

theorem rows_inj {rows other : ℤ} {c d : Char} {rest more : List Char} (hc : NotDecimal c)
    (hd : NotDecimal d)
    (h : "\"rows\":".toList ++ (encodeInt rows ++ c :: rest) =
      "\"rows\":".toList ++ (encodeInt other ++ d :: more)) :
    rows = other ∧ c = d ∧ rest = more := by
  rw [List.append_cancel_left_eq] at h
  exact encodeInt_delimitedBy _ _ _ _ _ _ hc hd h

theorem rowsLabel : "\"rows\":".toList = '"' :: 'r' :: 'o' :: "ws\":".toList := by decide

theorem resourcesLabel : "\"resources\":".toList = '"' :: 'r' :: 'e' :: "sources\":".toList := by decide

/-- Rows are not resources, and not the end. -/
theorem rows_ne {text more rest : List Char} {none : Prop} [Decidable none] :
    "\"rows\":".toList ++ text ≠ if none then '\x7d' :: rest else "\"resources\":".toList ++ more := by
  rw [rowsLabel, resourcesLabel]
  split
  · simp
  · simp

theorem impact_inj {impact other : Impact} {rest more : List Char}
    (himpact : ∀ resource ∈ impact.resources, IsText resource)
    (hother : ∀ resource ∈ other.resources, IsText resource)
    (h : encodeImpact impact ++ rest = encodeImpact other ++ more) :
    impact = other ∧ rest = more := by
  obtain ⟨rows, resources⟩ := impact
  obtain ⟨rows', resources'⟩ := other
  rw [encodeImpact_append, encodeImpact_append, List.cons.injEq] at h
  have h := h.2
  have hcomma : NotDecimal ',' := ⟨by decide, by decide⟩
  have hbrace : NotDecimal '\x7d' := ⟨by decide, by decide⟩
  have hend : ∀ {text : List Char}, '\x7d' :: text ≠ "\"resources\":".toList ++
      (encodeArray encodeGoString resources' ++ '\x7d' :: more) := by
    intro text
    rw [resourcesLabel]
    simp
  have hend' : ∀ {text : List Char}, "\"resources\":".toList ++
      (encodeArray encodeGoString resources ++ '\x7d' :: rest) ≠ '\x7d' :: text := by
    intro text
    rw [resourcesLabel]
    simp
  by_cases hzero : rows = 0
  · by_cases hzero' : rows' = 0
    · by_cases hnone : resources = []
      · by_cases hnone' : resources' = []
        · simp only [if_pos hzero, if_pos hzero', if_pos hnone, if_pos hnone', List.cons.injEq] at h
          exact ⟨by rw [hzero, hzero', hnone, hnone'], h.2⟩
        · simp only [if_pos hzero, if_pos hzero', if_pos hnone, if_neg hnone'] at h
          exact absurd h hend
      · by_cases hnone' : resources' = []
        · simp only [if_pos hzero, if_pos hzero', if_neg hnone, if_pos hnone'] at h
          exact absurd h hend'
        · simp only [if_pos hzero, if_pos hzero', if_neg hnone, if_neg hnone'] at h
          obtain ⟨heq, hrest⟩ := resources_inj himpact hother h
          have heq : resources = resources' := heq
          exact ⟨by rw [hzero, hzero', heq], hrest⟩
    · simp only [if_pos hzero, if_neg hzero'] at h
      exact absurd h.symm rows_ne
  · by_cases hzero' : rows' = 0
    · simp only [if_neg hzero, if_pos hzero'] at h
      exact absurd h rows_ne
    · by_cases hnone : resources = []
      · by_cases hnone' : resources' = []
        · simp only [if_neg hzero, if_neg hzero', if_pos hnone, if_pos hnone'] at h
          obtain ⟨heq, -, hrest⟩ := rows_inj hbrace hbrace h
          exact ⟨by rw [heq, hnone, hnone'], hrest⟩
        · simp only [if_neg hzero, if_neg hzero', if_pos hnone, if_neg hnone'] at h
          obtain ⟨-, hne, -⟩ := rows_inj hbrace hcomma h
          exact absurd hne (by decide)
      · by_cases hnone' : resources' = []
        · simp only [if_neg hzero, if_neg hzero', if_neg hnone, if_pos hnone'] at h
          obtain ⟨-, hne, -⟩ := rows_inj hcomma hbrace h
          exact absurd hne (by decide)
        · simp only [if_neg hzero, if_neg hzero', if_neg hnone, if_neg hnone'] at h
          obtain ⟨heq, -, hmore⟩ := rows_inj hcomma hcomma h
          obtain ⟨heq', hrest⟩ := resources_inj himpact hother hmore
          have heq' : resources = resources' := heq'
          exact ⟨by rw [heq, heq'], hrest⟩

/-- In front of a comma a payload ends where its document does. -/
theorem payload_inj {payload payload' rest more : List Char} {doc doc' : Doc}
    (htext : doc.text = payload.map .inl) (htext' : doc'.text = payload'.map .inl)
    (hspelled : doc.spelled = true) (hspelled' : doc'.spelled = true)
    (hdepth : doc.depth ≤ Lib.JsonText.maxNestingDepth)
    (hdepth' : doc'.depth ≤ Lib.JsonText.maxNestingDepth)
    (h : payload ++ (",\"impact\":".toList ++ rest) = payload' ++ (",\"impact\":".toList ++ more)) :
    doc = doc' ∧ rest = more := by
  have hlabel : ∀ text : List Char,
      ",\"impact\":".toList ++ text = ',' :: ("\"impact\":".toList ++ text) := fun _ => rfl
  rw [hlabel, hlabel] at h
  have hrunes := congrArg (List.map (Sum.inl : Char → Rune)) h
  rw [List.map_append, List.map_append, List.map_cons, List.map_cons, ← htext, ← htext'] at hrunes
  obtain ⟨hdoc, hrest⟩ :=
    Lib.JsonText.text_append_comma_inj hspelled hdepth hspelled' hdepth' hrunes
  have h := List.map_injective_iff.mpr Sum.inl_injective hrest
  exact ⟨hdoc, List.append_cancel_left h⟩

/-! ### The material as a whole -/

/-- The two plans are the same, but for their hashes and for how their payloads are spelled. -/
structure Agree (plan other : Plan) : Prop where
  fields : { plan with hash := other.hash, payload := other.payload } = other
  payload : decodeSingleJSON (runesOf plan.payload) = decodeSingleJSON (runesOf other.payload)
  readable : (decodeSingleJSON (runesOf plan.payload)).isSome = true

/-- **The material of a hash can be read back:** the fields of the plan, and the document of its
payload. -/
theorem planMaterial_inj {plan other : Plan} {payload payload' : List Char} {doc doc' : Doc}
    (hplan : Written plan) (hother : Written other)
    (htext : doc.text = payload.map .inl) (htext' : doc'.text = payload'.map .inl)
    (hspelled : doc.spelled = true) (hspelled' : doc'.spelled = true)
    (hdepth : doc.depth ≤ Lib.JsonText.maxNestingDepth)
    (hdepth' : doc'.depth ≤ Lib.JsonText.maxNestingDepth)
    (h : planMaterial plan payload = planMaterial other payload') :
    { plan with hash := other.hash, payload := other.payload } = other ∧ doc = doc' := by
  unfold planMaterial at h
  simp only [List.append_assoc] at h
  obtain ⟨hactionID, h⟩ := field_inj hplan.actionID hother.actionID h
  obtain ⟨hversion, h⟩ := field_inj hplan.actionVersion hother.actionVersion h
  obtain ⟨hcontract, h⟩ := field_inj hplan.contractHash hother.contractHash h
  obtain ⟨hactorID, h⟩ := field_inj hplan.actorID hother.actorID h
  obtain ⟨hactorType, h⟩ := field_inj hplan.actorType hother.actorType h
  obtain ⟨hchannel, h⟩ := field_inj hplan.channel hother.channel h
  obtain ⟨hkind, h⟩ := field_inj hplan.scopeKind hother.scopeKind h
  obtain ⟨hid, h⟩ := field_inj hplan.scopeID hother.scopeID h
  obtain ⟨hinput, h⟩ := field_inj hplan.inputHash hother.inputHash h
  obtain ⟨hdoc, h⟩ :=
    payload_inj htext htext' hspelled hspelled' hdepth hdepth' (List.append_cancel_left h)
  obtain ⟨himpact, h⟩ := impact_inj hplan.resources hother.resources h
  obtain ⟨hsnapshot, h⟩ := field_inj hplan.snapshotHash hother.snapshotHash h
  obtain ⟨hfingerprint, h⟩ := field_inj hplan.fingerprint hother.fingerprint h
  obtain ⟨hcreated, h⟩ := instant_inj hplan.createdAt hother.createdAt (List.append_cancel_left h)
  obtain ⟨hexpires, -⟩ := instant_inj hplan.expiresAt hother.expiresAt (List.append_cancel_left h)
  refine ⟨?_, hdoc⟩
  have hscope : plan.scope = other.scope := by
    have heta : ∀ scope : Execution, scope = ⟨scope.kind, scope.id⟩ := fun _ => rfl
    rw [heta plan.scope, hkind, hid]
  rw [hactionID, hversion, hcontract, hactorID, hactorType, hchannel, hscope, hinput, himpact,
    hsnapshot, hfingerprint, hcreated, hexpires]

/-- The compact text of a payload that was accepted is that of a shallow document. -/
theorem exists_document {e : Engine} (he : ReadsJSON e) {plan : Plan}
    (hvalid : validatePlanRecord e.checks plan = .ok ()) {payload : List Char}
    (h : e.compact plan.payload = some payload) :
    ∃ doc : Doc, parseRunes (runesOf plan.payload) = some doc ∧
      (compact doc).text = payload.map .inl ∧ (compact doc).spelled = true ∧
      (compact doc).depth ≤ Lib.JsonText.maxNestingDepth := by
  have hread := he.document _ (written_of_valid hvalid).2
  rw [he.compact _ hread] at h
  obtain ⟨doc, hdoc, htext⟩ := Option.bind_eq_some_iff.mp h
  refine ⟨doc, hdoc, chars_of_mapM htext, ?_, ?_⟩
  · exact Lib.JsonText.spelled_compact doc (Lib.JsonText.spelled_of_parseRunes hdoc)
  · obtain ⟨value, hvalue⟩ := Option.isSome_iff_exists.mp hread
    obtain ⟨-, -, hdecoded, -, hdepth, -⟩ := decode_eq_some.mp hvalue
    rw [hdoc, Option.map_some, Option.some.injEq] at hdecoded
    rw [← hdecoded, Lib.JsonText.depth_decoded] at hdepth
    rw [Lib.JsonText.depth_compact]
    exact hdepth.trans (by decide)

/-- What is read of a payload is decided by the value of its document. -/
theorem decoded_of_compact {text other : List Rune} {doc doc' : Doc}
    (hdoc : parseRunes text = some doc) (hdoc' : parseRunes other = some doc')
    (hsome : (decodeSingleJSON text).isSome = true)
    (hsome' : (decodeSingleJSON other).isSome = true) (h : compact doc = compact doc') :
    decodeSingleJSON text = decodeSingleJSON other := by
  obtain ⟨value, hvalue⟩ := Option.isSome_iff_exists.mp hsome
  obtain ⟨value', hvalue'⟩ := Option.isSome_iff_exists.mp hsome'
  obtain ⟨-, -, hdecoded, -⟩ := decode_eq_some.mp hvalue
  obtain ⟨-, -, hdecoded', -⟩ := decode_eq_some.mp hvalue'
  rw [hdoc, Option.map_some, Option.some.injEq] at hdecoded
  rw [hdoc', Option.map_some, Option.some.injEq] at hdecoded'
  have hsame : Lib.JsonText.decoded doc = Lib.JsonText.decoded doc' := by
    rw [← Lib.JsonText.decoded_compact doc, h, Lib.JsonText.decoded_compact]
  have hvalues : value = value' := by rw [← hdecoded, hsame, hdecoded']
  rw [hvalue, hvalue', hvalues]

theorem hashPlan_ok {e : Engine} {plan : Plan} {hash : GoString} (h : hashPlan e plan = .ok hash) :
    ∃ payload, e.compact plan.payload = some payload ∧
      hash = .utf8 ("sha256:" ++ e.sha256 (planMaterial plan payload)) := by
  unfold hashPlan at h
  split at h
  · cases h
  next payload hpayload =>
  split at h
  · cases h
    exact ⟨payload, hpayload, rfl⟩
  · cases h

/-- **A hash stands for one plan.** -/
theorem agree_of_hashPlan {e : Engine} (he : ReadsJSON e) (hsha : Function.Injective e.sha256)
    {plan other : Plan} {hash : GoString} (hplan : validatePlanRecord e.checks plan = .ok ())
    (hother : validatePlanRecord e.checks other = .ok ()) (h : hashPlan e plan = .ok hash)
    (h' : hashPlan e other = .ok hash) : Agree plan other := by
  obtain ⟨payload, hpayload, rfl⟩ := hashPlan_ok h
  obtain ⟨payload', hpayload', heq⟩ := hashPlan_ok h'
  obtain ⟨doc, hdoc, htext, hspelled, hdepth⟩ := exists_document he hplan hpayload
  obtain ⟨doc', hdoc', htext', hspelled', hdepth'⟩ := exists_document he hother hpayload'
  have hmaterial : planMaterial plan payload = planMaterial other payload' := by
    rw [GoString.utf8.injEq, ← String.toList_inj, String.toList_append, String.toList_append] at heq
    exact hsha (String.toList_inj.mp (List.append_cancel_left heq))
  obtain ⟨hfields, hcompact⟩ := planMaterial_inj (written_of_valid hplan).1
    (written_of_valid hother).1 htext htext' hspelled hspelled' hdepth hdepth' hmaterial
  have hread := he.document _ (written_of_valid hplan).2
  have hread' := he.document _ (written_of_valid hother).2
  exact ⟨hfields, decoded_of_compact hdoc hdoc' hread hread' hcompact, hread⟩

/-! ### Executions under a supplied hash -/

/-- What is known of a plan that is executed under a supplied hash: the hash of its fields is the one
of the request, its fields are those of the request and of the registered contract, and when it came
out of the store it had not expired. -/
structure Bound (e : Engine) (given : Action.Types.Request) (events : History) (plan : Plan) :
    Prop where
  valid : validatePlanRecord e.checks plan = .ok ()
  hash : plan.hash = given.planHash
  hashed : hashPlan e plan = .ok given.planHash
  actionID : plan.actionID = given.actionID
  contract : ∃ registered, ⟨.acquire given.actionID, .found registered⟩ ∈ events ∧
    plan.actionVersion = registered.descriptor.version ∧
    plan.contractHash = registered.contractHash
  actorID : plan.actorID = given.actor.id
  actorType : plan.actorType = given.actor.type
  channel : plan.channel = given.channel
  scope : plan.scope = given.scope
  input : ∃ canonical, Engine.canonicalInput e given.input = .ok (canonical, plan.inputHash)
  loaded : ∃ before after now,
    events = before ++ ⟨.planGet .request given.planHash, .returned plan .nil⟩ ::
      ⟨.clock .decision, some now⟩ :: after ∧ now < plan.expiresAt.nanos

/-- Before a handler is executed under a supplied hash. -/
theorem bound_of_ordered {e : Engine} (he : ReadsJSON e) {given : Action.Types.Request}
    (hgiven : given.planHash ≠ .utf8 "") {h : History} {ctx : Ctx} {plan : Plan}
    (ho : Ordered e given h (.handlerExecute ctx plan)) : Bound e given h plan := by
  obtain ⟨rfl, h₀, serial, job, i, j, hready, -, rfl, rfl⟩ := ho
  obtain ⟨id, canonical, hash, hrequest, hcanonical⟩ := hready.accepted.normalized
  have hhash : job.request.planHash = given.planHash := by rw [hrequest]
  have hload := hready.loaded (by rw [hhash]; exact hgiven)
  obtain ⟨before, after, now, hevents, hnow, hchecked⟩ :=
    hload.append (⟨.begin, .run serial⟩ :: job.reserved i j)
  obtain ⟨hvalid, hplan, hhashed, canonical', inputHash, hagain, hbound⟩ := checkLoaded_ok hchecked
  have hinput : job.request.input = canonical := by rw [hrequest]
  rw [hinput] at hagain
  obtain rfl : inputHash = hash := hash_of_canonical he hcanonical hagain
  simp only [boundTo, Bool.and_eq_true, beq_iff_eq] at hbound
  obtain ⟨⟨⟨⟨⟨⟨⟨haction, hversion⟩, hcontract⟩, hactorID⟩, hactorType⟩, hchannel⟩, hscope⟩, hhash'⟩ :=
    hbound
  rw [hhash] at hevents hplan
  exact
    { valid := hvalid
      hash := hplan
      hashed := by rw [hhashed, hplan]
      actionID := by rw [haction, hrequest]
      contract := ⟨job.registered, List.mem_append_left _ hready.accepted.acquired, hversion,
        hcontract⟩
      actorID := by rw [hactorID, hrequest]
      actorType := by rw [hactorType, hrequest]
      channel := by rw [hchannel, hrequest]
      scope := by rw [hscope, hrequest]
      input := ⟨canonical, by rw [hhash']; exact hcanonical⟩
      loaded := ⟨before, after, now, hevents, hnow⟩ }

/-- **Plans are bound to their hashes.** Whatever the store returned: the plan that `Execute` hands to
the handler under a supplied hash has that hash, its fields are those of the request and of the
registered contract, and it had not expired when it was loaded. If SHA-256 has no collisions, two
valid plans of one hash are the same, but for their `hash` fields and for how their payloads are
spelled; so what is executed under the hash of a previewed plan is that plan. -/
theorem plan_bound_to_hash {e : Engine} (he : ReadsJSON e) (given : Action.Types.Request)
    (hasContext : Bool) :
    (given.planHash ≠ .utf8 "" →
      ∀ events ctx plan, (execute e hasContext given).Calls events (.handlerExecute ctx plan) →
        Bound e given events plan) ∧
    (Function.Injective e.sha256 →
      ∀ plan other hash, validatePlanRecord e.checks plan = .ok () →
        validatePlanRecord e.checks other = .ok () → hashPlan e plan = .ok hash →
        hashPlan e other = .ok hash → Agree plan other) ∧
    ∀ draft sealed, sealPreviewPlan e draft = .ok sealed → given.planHash = sealed.hash →
      ∀ events ctx plan, (execute e hasContext given).Calls events (.handlerExecute ctx plan) →
        plan.hash = sealed.hash ∧ (Function.Injective e.sha256 → Agree plan sealed) := by
  have hbound : given.planHash ≠ .utf8 "" → ∀ events ctx plan,
      (execute e hasContext given).Calls events (.handlerExecute ctx plan) →
        Bound e given events plan := by
    intro hgiven events ctx plan hcalls
    exact bound_of_ordered he hgiven ((meets_execute hasContext).calls hcalls)
  refine ⟨hbound, ?_, ?_⟩
  · intro hsha plan other hash hplan hother hhash hhash'
    exact agree_of_hashPlan he hsha hplan hother hhash hhash'
  · intro draft sealed hseal hhash events ctx plan hcalls
    obtain ⟨hvalid, hsealed⟩ := sealPreviewPlan_ok hseal
    have hgiven : given.planHash ≠ .utf8 "" := by
      obtain ⟨payload, -, heq⟩ := hashPlan_ok hsealed
      rw [hhash, heq]
      intro hempty
      rw [GoString.utf8.injEq, ← String.toList_inj, String.toList_append] at hempty
      cases hempty
    have hplan := hbound hgiven events ctx plan hcalls
    refine ⟨by rw [hplan.hash, hhash], fun hsha => ?_⟩
    exact agree_of_hashPlan he hsha hplan.valid hvalid (by rw [hplan.hashed, hhash]) hsealed

/-! ### Samples -/

/-- The digests of the two texts that the sample hashes. -/
def inputDigest : String := "6b86b273ff34fce19d6b804eff5a3f5747ada4eaa22f1d49c01e52ddb7875b4b"
def planDigest : String := "613f2c8a2092a30237276a0049a291cb0db8cdcab5336ef0d5e3a16cb240cdb1"

/-- A previewed plan. -/
def boundPlan : Plan where
  hash := .utf8 ("sha256:" ++ planDigest)
  actionID := .utf8 "sales.post"
  actionVersion := .utf8 "1.0.0"
  contractHash := .utf8 ("sha256:" ++ sampleDigest)
  actorID := .utf8 "a"
  actorType := .utf8 "user"
  channel := .utf8 "http"
  scope := ⟨.utf8 "org", .utf8 "1"⟩
  inputHash := .utf8 ("sha256:" ++ inputDigest)
  payload := .utf8 " 1 "
  impact := { rows := 1, resources := [.utf8 "orders"] }
  snapshotHash := .utf8 ""
  decisionFingerprint := .utf8 "f"
  createdAt := { nanos := 1700000000120000000 }
  expiresAt := { nanos := 1700000300120000000 }

/-- SHA-256 on the texts of the sample; no other text has one of their digests. -/
def bindingDigest (text : List Char) : String :=
  if text = ['1'] then inputDigest
  else if text = planMaterial boundPlan ['1'] then planDigest
  else String.ofList ('x' :: text)

/-- `canonicalInput` of the engine. -/
def bindingCanonical (input : RawMessage) : Canonical :=
  match CanonicalInput.canonicalInput id (runesOf input) with
  | none => .malformed
  | some (canonical, _) =>
    match canonical.mapM Sum.getLeft? with
    | none => .malformed
    | some chars => .ok (.utf8 (String.ofList chars))

/-- An engine with the JSON functions. -/
def bindingEngine : Engine where
  heap _ := .untrusted
  checks :=
    { validateJSONDocument := validateJSONDocument fun _ => .message "invalid JSON"
      semverIsValid := fun _ => true }
  canonical := bindingCanonical
  compact := compactText
  sha256 := bindingDigest
  planTTL := 300000000000

theorem readsJSON_binding : ReadsJSON bindingEngine where
  document _ h := validateJSONDocument_eq_ok.mp h
  canonical input canonical h := by
    change bindingCanonical input = .ok canonical at h
    unfold bindingCanonical at h
    split at h
    · cases h
    next text other heq =>
    split at h
    · cases h
    next chars hchars =>
    cases h
    have htext := chars_of_mapM hchars
    obtain ⟨_, _, -, -, -, hsame, -⟩ := CanonicalInput.canonicalInput_eq_some heq
    have hsame : other = text := hsame
    refine ⟨⟨_, rfl⟩, ?_⟩
    rw [heq, hsame, runesOf, String.toList_ofList, htext]
  compact _ _ := rfl

theorem bindingDigest_injective : Function.Injective bindingEngine.sha256 := by
  have hplain : ∀ text : List Char, String.ofList ('x' :: text) ≠ inputDigest ∧
      String.ofList ('x' :: text) ≠ planDigest := by
    intro text
    constructor
    all_goals
      intro h
      rw [← String.toList_inj, String.toList_ofList] at h
      have hhead := congrArg List.head? h
      rw [List.head?_cons] at hhead
      revert hhead
      decide
  have hne : inputDigest ≠ planDigest := by decide
  intro text other h
  change bindingDigest text = bindingDigest other at h
  unfold bindingDigest at h
  split at h
  next heq =>
    split at h
    next heq' => rw [heq, heq']
    next =>
    split at h
    · exact absurd h hne
    · exact absurd h.symm (hplain other).1
  next =>
  split at h
  next heq =>
    split at h
    · exact absurd h.symm hne
    next =>
    split at h
    next heq' => rw [heq, heq']
    next => exact absurd h.symm (hplain other).2
  next =>
  split at h
  · exact absurd h (hplain text).1
  next =>
  split at h
  · exact absurd h (hplain text).2
  next =>
  rw [← String.toList_inj, String.toList_ofList, String.toList_ofList, List.cons.injEq] at h
  exact h.2

/-- A request under the hash of the plan. -/
def bindingRequest : Action.Types.Request :=
  { sampleRequest with planHash := boundPlan.hash }

/-- The run of `Execute` over a store that returns the plan. -/
def bindingRun : History × Except Action.Errors.Err Result :=
  (execute bindingEngine true bindingRequest).play
    ({ request := bindingRequest, plan := .returned boundPlan .nil } : Scenario).oracle

theorem valid_boundPlan : validatePlanRecord bindingEngine.checks boundPlan = .ok () := by
  decide +kernel

theorem hashPlan_boundPlan : hashPlan bindingEngine boundPlan = .ok boundPlan.hash := by
  decide +kernel

/-- The handler is called in that run, with the plan that was previewed. -/
theorem plan_bound_to_hash_sample :
    ∃ events ctx plan, (execute bindingEngine true bindingRequest).Calls events
      (.handlerExecute ctx plan) ∧ Bound bindingEngine bindingRequest events plan ∧
        Agree plan boundPlan := by
  have hgiven : bindingRequest.planHash ≠ .utf8 "" := by decide
  obtain ⟨hbound, hagree, -⟩ :=
    plan_bound_to_hash readsJSON_binding bindingRequest true
  have hruns : (execute bindingEngine true bindingRequest).Runs bindingRun.1 bindingRun.2 :=
    Prog.runs_play _ _
  have hany : bindingRun.1.any (fun c => isExecute c.op) = true := by
    decide +kernel
  obtain ⟨before, ctx, plan, hcalls⟩ := calls_execute hruns hany
  have hplan := hbound hgiven before ctx plan hcalls
  refine ⟨before, ctx, plan, hcalls, hplan, ?_⟩
  exact hagree bindingDigest_injective plan boundPlan _ hplan.valid valid_boundPlan hplan.hashed
    hashPlan_boundPlan

/-- The hash of a plan is no part of its material: two valid plans may differ in it alone. -/
theorem hash_outside_material : ¬ ∀ e : Engine, ReadsJSON e → Function.Injective e.sha256 →
    ∀ plan other hash, validatePlanRecord e.checks plan = .ok () →
      validatePlanRecord e.checks other = .ok () → hashPlan e plan = .ok hash →
      hashPlan e other = .ok hash → plan.hash = other.hash := by
  intro hall
  have hother : validatePlanRecord bindingEngine.checks
      { boundPlan with hash := .utf8 ("sha256:" ++ sampleDigest) } = .ok () := by decide +kernel
  have hsame := hall bindingEngine readsJSON_binding bindingDigest_injective boundPlan
    { boundPlan with hash := .utf8 ("sha256:" ++ sampleDigest) } boundPlan.hash valid_boundPlan
    hother hashPlan_boundPlan hashPlan_boundPlan
  revert hsame
  decide

end Modary.Runtime.PlanBinding
