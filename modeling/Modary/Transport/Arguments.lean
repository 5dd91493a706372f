import Modary.Action.Persistence
import Modary.Lib.JsonValue

/-! # Tool arguments

The arguments of an MCP tool as `decodeMCPActionArguments` reads them, against the envelope of the
input schema that the tool publishes. The decoder leaves the names of members to `encoding/json`,
which folds them, and tells an optional text from `null` only by its pointer. -/

namespace Modary.Transport.Arguments

open Modary.Lib.GoText Modary.Lib.JsonValue Modary.Action.Types Modary.Action.Persistence

variable {ν : Type}

/-! ### The decoder -/

/-- `mcpOperation`. -/
inductive Operation
  | preview
  | execute
  deriving DecidableEq, Repr

/-- `mcpTool`, as far as its arguments go. -/
structure Tool where
  operation : Operation
  previewPolicy : PreviewPolicy
  requiresIdempotency : Bool
  deriving DecidableEq, Repr

/-- `mcpActionArguments`. -/
structure ActionArguments (ν : Type) where
  input : Json ν
  planHash : String := ""
  idempotencyKey : String := ""

/-- `protocolJSONLimits(MaximumMCPBodyBytes)`; a number token is bounded by the document. -/
def mcpLimits : Limits where
  maxBytes := 16777216
  maxDepth := 512
  maxNodes := 131072

/-- `decodeMCPParams`: the members of an object whose names all go to fields. -/
def decodeMCPParams (raw : Raw ν) (fields : List String) :
    Except String (List (String × Json ν)) :=
  match raw.value with
  | .obj members =>
    if mcpLimits.validate raw = false then .error "parameters must be an object"
    else if members.all (fun member => (fieldOf fields member.1).isSome) then .ok members
    else .error "json: unknown field"
  | _ => .error "parameters must be an object"

/-- `Input`, which is required. -/
def requireInput (values : List (Json ν)) : Except String (Json ν) :=
  match values.getLast? with
  | some input => .ok input
  | none => .error "input is required"

/-- A `*string` field. -/
def pointerField (values : List (Json ν)) : Except String (Option String) :=
  match decodePointer values with
  | some value => .ok value
  | none => .error "json: cannot unmarshal into Go struct field of type string"

/-- `validateMCPIdempotencyKey`. -/
def validateMCPIdempotencyKey (value : Option String) (required : Bool) : Except String Unit :=
  match value with
  | none => refuseIf (required = true) "idempotency_key is required"
  | some key => validateIdempotencyKey (.utf8 key)

/-- The check on the plan hash of an execution. -/
def validateMCPPlanHash (value : Option String) (policy : PreviewPolicy) : Except String Unit :=
  match value with
  | some hash =>
    refuseIf ((validatePlanHash (.utf8 hash)).isOk = false) "plan_hash is invalid"
  | none => refuseIf (policy = .required) "plan_hash is required"

/-- The fields of the struct that the arguments of a tool are decoded into. -/
def argumentFields (tool : Tool) : List String :=
  if tool.operation = .preview then ["input"]
  else if tool.previewPolicy = .none then ["input", "idempotency_key"]
  else ["input", "plan_hash", "idempotency_key"]

/-- `decodeMCPActionArguments`. -/
def decodeMCPActionArguments (tool : Tool) (raw : Raw ν) : Except String (ActionArguments ν) := do
  let fields := argumentFields tool
  let members ← decodeMCPParams raw fields
  let values := assigned fields members
  if tool.operation = .preview then
    let input ← requireInput (values "input")
    return { input }
  else if tool.previewPolicy = .none then
    let key ← pointerField (values "idempotency_key")
    validateMCPIdempotencyKey key tool.requiresIdempotency
    let input ← requireInput (values "input")
    return { input, idempotencyKey := key.getD "" }
  else
    let planHash ← pointerField (values "plan_hash")
    let key ← pointerField (values "idempotency_key")
    validateMCPPlanHash planHash tool.previewPolicy
    validateMCPIdempotencyKey key tool.requiresIdempotency
    let input ← requireInput (values "input")
    return { input, planHash := planHash.getD "", idempotencyKey := key.getD "" }

/-! ### The published schema -/

/-- The schema of a property: that of the action's input, or that of a text. -/
inductive Property
  | action
  | text (minLength : ℕ) (maxLength : Option ℕ) (pattern : List Char → Bool)

/-- The envelope of a tool's input schema, with `additionalProperties` false. -/
structure Envelope where
  properties : List (String × Property)
  required : List String

def planHashProperty : Property := .text 0 none matchDigest

def idempotencyKeyProperty : Property := .text 1 (some 256) idempotencyKeyPattern

/-- `mcpToolInputSchema`, with the action's own schema left open. -/
def mcpToolInputSchema (tool : Tool) : Envelope :=
  if tool.operation = .preview then { properties := [("input", .action)], required := ["input"] }
  else
    { properties := [("input", .action)] ++
        (if tool.previewPolicy ≠ .none then [("plan_hash", planHashProperty)] else []) ++
        [("idempotency_key", idempotencyKeyProperty)]
      required := ["input"] ++
        (if tool.previewPolicy = .required then ["plan_hash"] else []) ++
        (if tool.requiresIdempotency then ["idempotency_key"] else []) }

/-- A value of a property; the action's own schema is not part of the envelope. -/
def Property.accepts : Property → Json ν → Bool
  | .action, _ => true
  | .text minLength maxLength pattern, .str s =>
    minLength ≤ s.length && maxLength.all (s.length ≤ ·) && pattern s.toList
  | .text _ _ _, _ => false

/-- An object that meets an envelope. -/
def Envelope.accepts (envelope : Envelope) (members : List (String × Json ν)) : Bool :=
  members.all (fun member =>
    (envelope.properties.lookup member.1).any fun property => property.accepts member.2) &&
    envelope.required.all fun name => name ∈ members.map Prod.fst

/-! ### What the decoder accepts -/

/-- Whether a text, if there is one, has a pattern, and is there if it has to be. -/
def fits (pattern : List Char → Bool) (required : Bool) : Option String → Bool
  | some s => pattern s.toList
  | none => !required

/-- The text that a field is left with when names are folded: that of the last member that goes to
it, none when that is `null`. -/
def lastText (fields : List String) (members : List (String × Json ν)) (field : String) :
    Option String :=
  ((assigned fields members field).getLast?).bind text?

/-- An object that meets the envelope once names are folded, the last member of a field counts and a
text that is `null` counts as absent. -/
structure Lenient (tool : Tool) (members : List (String × Json ν)) : Prop where
  known : ∀ member ∈ members, (fieldOf (argumentFields tool) member.1).isSome = true
  textual : ∀ field ∈ argumentFields tool, field ≠ "input" →
    (assigned (argumentFields tool) members field).all textual = true
  input : assigned (argumentFields tool) members "input" ≠ []
  planHash : "plan_hash" ∈ argumentFields tool →
    fits matchDigest (decide (tool.previewPolicy = .required))
      (lastText (argumentFields tool) members "plan_hash") = true
  idempotencyKey : "idempotency_key" ∈ argumentFields tool →
    fits idempotencyKeyPattern tool.requiresIdempotency
      (lastText (argumentFields tool) members "idempotency_key") = true

/-- A member that JSON Schema and the decoder read differently: its name is not declared but folds
to one that is, or it is a text that is `null`. -/
def loose (tool : Tool) (member : String × Json ν) : Bool :=
  (fieldOf (argumentFields tool) member.1).any fun field =>
    field ≠ member.1 || (field ≠ "input" && (text? member.2).isNone && textual member.2)

section Decoder

variable {tool : Tool} {members : List (String × Json ν)} {bytes : ℕ}

theorem pointerField_eq_ok {values : List (Json ν)} {value : Option String} :
    pointerField values = .ok value ↔
      values.all textual = true ∧ value = values.getLast?.bind text? := by
  unfold pointerField
  rw [decodePointer_eq]
  by_cases h : values.all textual = true
  · simp [h, eq_comm]
  · simp [h]

theorem requireInput_eq_ok {values : List (Json ν)} {input : Json ν} :
    requireInput values = .ok input ↔ values.getLast? = some input := by
  unfold requireInput
  cases values.getLast? <;> simp

theorem validateMCPIdempotencyKey_eq_ok {value : Option String} {required : Bool} :
    validateMCPIdempotencyKey value required = .ok () ↔
      fits idempotencyKeyPattern required value = true := by
  cases value with
  | none => simp [validateMCPIdempotencyKey, fits, refuseIf_eq_ok]
  | some key =>
    simp only [validateMCPIdempotencyKey, fits, validateIdempotencyKey, GoString.runes]
    by_cases h : idempotencyKeyPattern key.toList = true
    · simp [h]
    · simp [h]

theorem validateMCPPlanHash_eq_ok {value : Option String} {policy : PreviewPolicy} :
    validateMCPPlanHash value policy = .ok () ↔
      fits matchDigest (decide (policy = .required)) value = true := by
  cases value with
  | none => simp [validateMCPPlanHash, fits, refuseIf_eq_ok]
  | some hash =>
    simp only [validateMCPPlanHash, fits]
    rw [refuseIf_eq_ok]
    simp only [validatePlanHash, GoString.runes]
    by_cases h : matchDigest hash.toList = true
    · simp [h, Except.isOk, Except.toBool]
    · simp [h, Except.isOk, Except.toBool]

theorem decodeMCPParams_eq_ok (hv : mcpLimits.validate ⟨.obj members, bytes⟩ = true)
    {fields : List String} {result : List (String × Json ν)} :
    decodeMCPParams ⟨.obj members, bytes⟩ fields = .ok result ↔
      (∀ member ∈ members, (fieldOf fields member.1).isSome = true) ∧ result = members := by
  unfold decodeMCPParams
  dsimp only
  rw [if_neg (by simp [hv])]
  constructor
  · intro h
    split at h
    · next hall => exact ⟨List.all_eq_true.mp hall, (Except.ok.inj h).symm⟩
    · cases h
  · rintro ⟨hall, rfl⟩
    rw [if_pos (List.all_eq_true.mpr hall)]

theorem assigned_ne_nil {fields : List String} {input : Json ν}
    (h : (assigned fields members "input").getLast? = some input) :
    assigned fields members "input" ≠ [] := by
  intro hnil
  rw [hnil] at h
  cases h

/-- What the fields of a tool hold once its arguments are decoded. -/
structure Yields (tool : Tool) (members : List (String × Json ν)) (arguments : ActionArguments ν) :
    Prop where
  input : (assigned (argumentFields tool) members "input").getLast? = some arguments.input
  planHash : arguments.planHash =
    if "plan_hash" ∈ argumentFields tool then
      (lastText (argumentFields tool) members "plan_hash").getD "" else ""
  idempotencyKey : arguments.idempotencyKey =
    if "idempotency_key" ∈ argumentFields tool then
      (lastText (argumentFields tool) members "idempotency_key").getD "" else ""

/-- **What the decoder accepts, and what it yields.** -/
theorem decode_eq_ok (hv : mcpLimits.validate ⟨.obj members, bytes⟩ = true)
    {arguments : ActionArguments ν} :
    decodeMCPActionArguments tool ⟨.obj members, bytes⟩ = .ok arguments ↔
      Lenient tool members ∧ Yields tool members arguments := by
  obtain ⟨input, planHash, key⟩ := arguments
  unfold decodeMCPActionArguments
  rw [bind_eq_ok]
  simp only [decodeMCPParams_eq_ok hv]
  by_cases hpreview : tool.operation = .preview
  · have hf : argumentFields tool = ["input"] := if_pos hpreview
    simp only [if_pos hpreview]
    constructor
    · rintro ⟨result, ⟨hknown, rfl⟩, h⟩
      obtain ⟨value, hinput, hvalue⟩ := bind_eq_ok.mp h
      obtain ⟨rfl, rfl, rfl⟩ := ActionArguments.mk.inj (Except.ok.inj hvalue)
      have hlast := requireInput_eq_ok.mp hinput
      exact ⟨⟨hknown, by simp [hf], assigned_ne_nil hlast, by simp [hf], by simp [hf]⟩,
        ⟨hlast, by simp [hf], by simp [hf]⟩⟩
    · rintro ⟨hl, hy⟩
      refine ⟨_, ⟨hl.known, rfl⟩, bind_eq_ok.mpr ⟨_, requireInput_eq_ok.mpr hy.input, ?_⟩⟩
      have hplan := hy.planHash
      have hkey := hy.idempotencyKey
      simp only [hf, List.mem_singleton, String.reduceEq, if_false] at hplan hkey
      rw [hplan, hkey]
      rfl
  simp only [if_neg hpreview]
  by_cases hpolicy : tool.previewPolicy = .none
  · have hf : argumentFields tool = ["input", "idempotency_key"] := by
      rw [argumentFields, if_neg hpreview, if_pos hpolicy]
    simp only [if_pos hpolicy]
    constructor
    · rintro ⟨result, ⟨hknown, rfl⟩, h⟩
      obtain ⟨value, hfield, hrest⟩ := bind_eq_ok.mp h
      obtain ⟨htextual, rfl⟩ := pointerField_eq_ok.mp hfield
      obtain ⟨_, hvalid, hrest⟩ := bind_eq_ok.mp hrest
      obtain ⟨value, hinput, hvalue⟩ := bind_eq_ok.mp hrest
      obtain ⟨rfl, rfl, rfl⟩ := ActionArguments.mk.inj (Except.ok.inj hvalue)
      have hlast := requireInput_eq_ok.mp hinput
      refine ⟨⟨hknown, ?_, assigned_ne_nil hlast, by simp [hf], ?_⟩,
        ⟨hlast, by simp [hf], by simp [hf, lastText]⟩⟩
      · intro field hmem hne
        rw [hf] at hmem
        simp only [List.mem_cons, List.not_mem_nil, or_false] at hmem
        rcases hmem with rfl | rfl
        · exact absurd rfl hne
        · exact htextual
      · intro _
        exact validateMCPIdempotencyKey_eq_ok.mp hvalid
    · rintro ⟨hl, hy⟩
      have hmem : "idempotency_key" ∈ argumentFields tool := by simp [hf]
      refine ⟨_, ⟨hl.known, rfl⟩, bind_eq_ok.mpr ⟨_, pointerField_eq_ok.mpr
        ⟨hl.textual _ hmem (by decide), rfl⟩, bind_eq_ok.mpr ⟨(),
          validateMCPIdempotencyKey_eq_ok.mpr (hl.idempotencyKey hmem),
          bind_eq_ok.mpr ⟨_, requireInput_eq_ok.mpr hy.input, ?_⟩⟩⟩⟩
      have hplan : planHash = "" := by simpa [hf] using hy.planHash
      have hkey : key = _ := hy.idempotencyKey.trans (if_pos hmem)
      rw [hplan, hkey]
      rfl
  · have hf : argumentFields tool = ["input", "plan_hash", "idempotency_key"] := by
      rw [argumentFields, if_neg hpreview, if_neg hpolicy]
    simp only [if_neg hpolicy]
    constructor
    · rintro ⟨result, ⟨hknown, rfl⟩, h⟩
      obtain ⟨value, hhash, hrest⟩ := bind_eq_ok.mp h
      obtain ⟨hhashes, rfl⟩ := pointerField_eq_ok.mp hhash
      obtain ⟨value, hfield, hrest⟩ := bind_eq_ok.mp hrest
      obtain ⟨hkeys, rfl⟩ := pointerField_eq_ok.mp hfield
      obtain ⟨_, hplan, hrest⟩ := bind_eq_ok.mp hrest
      obtain ⟨_, hvalid, hrest⟩ := bind_eq_ok.mp hrest
      obtain ⟨value, hinput, hvalue⟩ := bind_eq_ok.mp hrest
      obtain ⟨rfl, rfl, rfl⟩ := ActionArguments.mk.inj (Except.ok.inj hvalue)
      have hlast := requireInput_eq_ok.mp hinput
      refine ⟨⟨hknown, ?_, assigned_ne_nil hlast, ?_, ?_⟩,
        ⟨hlast, by simp [hf, lastText], by simp [hf, lastText]⟩⟩
      · intro field hmem hne
        rw [hf] at hmem
        simp only [List.mem_cons, List.not_mem_nil, or_false] at hmem
        rcases hmem with rfl | rfl | rfl
        · exact absurd rfl hne
        · exact hhashes
        · exact hkeys
      · intro _
        exact validateMCPPlanHash_eq_ok.mp hplan
      · intro _
        exact validateMCPIdempotencyKey_eq_ok.mp hvalid
    · rintro ⟨hl, hy⟩
      have hhash : "plan_hash" ∈ argumentFields tool := by simp [hf]
      have hmem : "idempotency_key" ∈ argumentFields tool := by simp [hf]
      refine ⟨_, ⟨hl.known, rfl⟩, bind_eq_ok.mpr ⟨_, pointerField_eq_ok.mpr
        ⟨hl.textual _ hhash (by decide), rfl⟩, bind_eq_ok.mpr ⟨_, pointerField_eq_ok.mpr
          ⟨hl.textual _ hmem (by decide), rfl⟩, bind_eq_ok.mpr ⟨(),
            validateMCPPlanHash_eq_ok.mpr (hl.planHash hhash), bind_eq_ok.mpr ⟨(),
              validateMCPIdempotencyKey_eq_ok.mpr (hl.idempotencyKey hmem),
              bind_eq_ok.mpr ⟨_, requireInput_eq_ok.mpr hy.input, ?_⟩⟩⟩⟩⟩⟩
      have hplan : planHash = _ := hy.planHash.trans (if_pos hhash)
      have hkey : key = _ := hy.idempotencyKey.trans (if_pos hmem)
      rw [hplan, hkey]
      rfl

end Decoder

/-! ### What the schema accepts -/

section Schema

variable {tool : Tool} {members : List (String × Json ν)}

/-- The property that a tool declares under a name. -/
theorem lookup_properties (tool : Tool) (name : String) :
    (mcpToolInputSchema tool).properties.lookup name =
      if name ∈ argumentFields tool then
        some (if name = "plan_hash" then planHashProperty
          else if name = "idempotency_key" then idempotencyKeyProperty else .action)
      else none := by
  unfold mcpToolInputSchema argumentFields
  by_cases hinput : name = "input"
  · subst hinput
    by_cases hpreview : tool.operation = .preview <;>
      by_cases hpolicy : tool.previewPolicy = .none <;>
        simp [hpreview, hpolicy]
  · by_cases hhash : name = "plan_hash"
    · subst hhash
      by_cases hpreview : tool.operation = .preview <;>
        by_cases hpolicy : tool.previewPolicy = .none <;>
          simp [hpreview, hpolicy, lookup_cons_if]
    · by_cases hpreview : tool.operation = .preview <;>
        by_cases hpolicy : tool.previewPolicy = .none <;>
          by_cases hkey : name = "idempotency_key" <;>
            simp [hpreview, hpolicy, hinput, hhash, hkey, lookup_cons_if]

/-- The pattern of a text that a tool declares. -/
def patternOf (field : String) : List Char → Bool :=
  if field = "plan_hash" then matchDigest else idempotencyKeyPattern

theorem length_of_idempotencyKeyPattern {s : String} (h : idempotencyKeyPattern s.toList = true) :
    1 ≤ s.length ∧ s.length ≤ 256 := by
  rw [← String.length_toList]
  unfold idempotencyKeyPattern matchToken at h
  cases hs : s.toList with
  | nil => simp [hs] at h
  | cons c cs =>
    rw [hs] at h
    have hlen : cs.length ≤ 255 := of_decide_eq_true (Bool.and_eq_true_iff.mp h).2
    rw [List.length_cons]
    omega

theorem accepts_planHashProperty (value : Json ν) :
    planHashProperty.accepts value = true ↔ ∃ s, value = .str s ∧ matchDigest s.toList = true := by
  unfold planHashProperty
  cases value <;> simp [Property.accepts]

theorem accepts_idempotencyKeyProperty (value : Json ν) :
    idempotencyKeyProperty.accepts value = true ↔
      ∃ s, value = .str s ∧ idempotencyKeyPattern s.toList = true := by
  unfold idempotencyKeyProperty
  cases value with
  | str s =>
    have hlength := @length_of_idempotencyKeyPattern s
    constructor
    · intro h
      exact ⟨s, rfl, (Bool.and_eq_true_iff.mp h).2⟩
    · rintro ⟨t, heq, ht⟩
      cases heq
      obtain ⟨hmin, hmax⟩ := hlength ht
      simp [Property.accepts, ht, hmin, hmax]
  | _ => simp [Property.accepts]

/-- A member that the schema accepts has a declared name and, but for the input, a text of the
declared pattern. -/
theorem accepts_member_iff (member : String × Json ν) :
    ((mcpToolInputSchema tool).properties.lookup member.1).any
        (fun property => property.accepts member.2) = true ↔
      member.1 ∈ argumentFields tool ∧ (member.1 ≠ "input" →
        ∃ s, member.2 = .str s ∧ patternOf member.1 s.toList = true) := by
  rw [lookup_properties]
  by_cases hmem : member.1 ∈ argumentFields tool
  · rw [if_pos hmem, Option.any_some]
    simp only [hmem, true_and]
    by_cases hhash : member.1 = "plan_hash"
    · simp [hhash, patternOf, accepts_planHashProperty]
    · by_cases hkey : member.1 = "idempotency_key"
      · simp [hkey, patternOf, accepts_idempotencyKeyProperty]
      · have hinput : member.1 = "input" := by
          unfold argumentFields at hmem
          split_ifs at hmem <;> simpa [hhash, hkey] using hmem
        simp [hinput, Property.accepts]
  · simp [hmem]

/-- Whether a tool requires a field. -/
def requires (tool : Tool) (field : String) : Bool :=
  field = "input" || (field = "plan_hash" && tool.previewPolicy = .required) ||
    (field = "idempotency_key" && tool.requiresIdempotency)

theorem requires_planHash (tool : Tool) :
    requires tool "plan_hash" = decide (tool.previewPolicy = .required) := by
  simp [requires]

theorem mem_required_iff (field : String) :
    field ∈ (mcpToolInputSchema tool).required ↔
      field ∈ argumentFields tool ∧ requires tool field = true := by
  unfold mcpToolInputSchema argumentFields requires
  by_cases hpreview : tool.operation = .preview
  · simp only [if_pos hpreview, List.mem_singleton]
    constructor
    · rintro rfl
      simp
    · exact And.left
  · cases hpolicy : tool.previewPolicy <;> cases hkey : tool.requiresIdempotency <;>
      simp [hpreview] <;> aesop

end Schema

/-! ### The two descriptions -/

section Agreement

variable {tool : Tool} {members : List (String × Json ν)} {bytes : ℕ}

/-- One text under the two descriptions. -/
theorem text_iff (pattern : List Char → Bool) (required : Bool) (found : Option (Json ν)) :
    ((∀ value, found = some value → ∃ s, value = .str s ∧ pattern s.toList = true) ∧
        (required = true → found.isSome = true)) ↔
      (found.toList.all textual = true ∧
        fits pattern required (found.toList.getLast?.bind text?) = true ∧
        ∀ value, found = some value → ((text? value).isNone && textual value) = false) := by
  cases found with
  | none => cases required <;> simp [fits]
  | some value => cases value <;> simp [fits, textual, text?]

theorem accepts_iff :
    (mcpToolInputSchema tool).accepts members = true ↔
      (∀ member ∈ members, member.1 ∈ argumentFields tool ∧ (member.1 ≠ "input" →
        ∃ s, member.2 = .str s ∧ patternOf member.1 s.toList = true)) ∧
      ∀ field ∈ argumentFields tool, requires tool field = true → field ∈ members.map Prod.fst := by
  unfold Envelope.accepts
  rw [Bool.and_eq_true_iff, List.all_eq_true, List.all_eq_true]
  simp only [accepts_member_iff, mem_required_iff, decide_eq_true_eq, and_imp]

theorem exact_of_accepts (h : (mcpToolInputSchema tool).accepts members = true) :
    ∀ member ∈ members, fieldOf (argumentFields tool) member.1 = some member.1 := by
  intro member hmember
  exact fieldOf_of_mem ((accepts_iff.mp h).1 member hmember).1

theorem exact_of_not_loose (hl : Lenient tool members)
    (hloose : ∀ member ∈ members, loose tool member = false) :
    ∀ member ∈ members, fieldOf (argumentFields tool) member.1 = some member.1 := by
  intro member hmember
  obtain ⟨field, hfield⟩ := Option.isSome_iff_exists.mp (hl.known member hmember)
  have hself := hloose member hmember
  rw [loose, hfield, Option.any_some, Bool.or_eq_false_iff] at hself
  have heq : field = member.1 := by simpa using hself.1
  rw [hfield, heq]

theorem fields_cases {field : String} (h : field ∈ argumentFields tool) :
    field = "input" ∨ field = "plan_hash" ∨ field = "idempotency_key" := by
  unfold argumentFields at h
  split_ifs at h <;> simp at h <;> tauto

theorem input_mem_argumentFields (tool : Tool) : "input" ∈ argumentFields tool := by
  unfold argumentFields
  split_ifs <;> simp

/-- The schema, field by field. -/
theorem accepts_iff_found (hnodup : (members.map Prod.fst).Nodup)
    (hexact : ∀ member ∈ members, fieldOf (argumentFields tool) member.1 = some member.1) :
    (mcpToolInputSchema tool).accepts members = true ↔
      (members.lookup "input").isSome = true ∧ ∀ field ∈ argumentFields tool, field ≠ "input" →
        (∀ value, members.lookup field = some value →
          ∃ s, value = .str s ∧ patternOf field s.toList = true) ∧
        (requires tool field = true → (members.lookup field).isSome = true) := by
  have hfound : ∀ field, (members.lookup field).isSome = true ↔ field ∈ members.map Prod.fst := by
    intro field
    rw [Option.isSome_iff_exists, List.mem_map]
    simp only [lookup_eq_some_iff_mem hnodup, Prod.exists, exists_and_right, exists_eq_right]
  rw [accepts_iff]
  constructor
  · rintro ⟨hmembers, hrequired⟩
    refine ⟨(hfound _).mpr (hrequired _ (input_mem_argumentFields tool) rfl), ?_⟩
    intro field hfield hne
    refine ⟨fun value hvalue => ?_, fun hreq => (hfound _).mpr (hrequired _ hfield hreq)⟩
    exact (hmembers _ ((lookup_eq_some_iff_mem hnodup).mp hvalue)).2 hne
  · rintro ⟨hinput, hfields⟩
    constructor
    · intro member hmember
      have hmem := mem_of_fieldOf (hexact member hmember)
      exact ⟨hmem, fun hne =>
        (hfields _ hmem hne).1 _ ((lookup_eq_some_iff_mem hnodup).mpr hmember)⟩
    · intro field hfield hreq
      rw [← hfound]
      by_cases hne : field = "input"
      · exact hne ▸ hinput
      · exact (hfields _ hfield hne).2 hreq

/-- The decoder, field by field. -/
theorem lenient_iff_found (hnodup : (members.map Prod.fst).Nodup)
    (hexact : ∀ member ∈ members, fieldOf (argumentFields tool) member.1 = some member.1) :
    (Lenient tool members ∧ ∀ member ∈ members, loose tool member = false) ↔
      (members.lookup "input").isSome = true ∧ ∀ field ∈ argumentFields tool, field ≠ "input" →
        (members.lookup field).toList.all textual = true ∧
        fits (patternOf field) (requires tool field)
          ((members.lookup field).toList.getLast?.bind text?) = true ∧
        ∀ value, members.lookup field = some value →
          ((text? value).isNone && textual value) = false := by
  have hassigned := assigned_eq_lookup hnodup hexact
  have hinput : assigned (argumentFields tool) members "input" ≠ [] ↔
      (members.lookup "input").isSome = true := by
    rw [hassigned]
    cases members.lookup "input" <;> simp
  constructor
  · rintro ⟨hl, hloose⟩
    refine ⟨hinput.mp hl.input, fun field hfield hne => ⟨?_, ?_, ?_⟩⟩
    · rw [← hassigned]
      exact hl.textual field hfield hne
    · rw [← hassigned]
      rcases fields_cases hfield with rfl | rfl | rfl
      · exact absurd rfl hne
      · rw [requires_planHash]
        exact hl.planHash hfield
      · exact hl.idempotencyKey hfield
    · intro value hvalue
      have hself := hloose _ ((lookup_eq_some_iff_mem hnodup).mp hvalue)
      rw [loose, fieldOf_of_mem hfield] at hself
      simpa [hne] using hself
  · rintro ⟨hfound, hfields⟩
    refine ⟨⟨?_, ?_, hinput.mpr hfound, ?_, ?_⟩, ?_⟩
    · intro member hmember
      rw [hexact member hmember]
      rfl
    · intro field hfield hne
      rw [hassigned]
      exact (hfields field hfield hne).1
    · intro hfield
      rw [lastText, hassigned, ← requires_planHash]
      exact (hfields _ hfield (by decide)).2.1
    · intro hfield
      rw [lastText, hassigned]
      exact (hfields _ hfield (by decide)).2.1
    · intro member hmember
      have hmem := mem_of_fieldOf (hexact member hmember)
      rw [loose, hexact member hmember, Option.any_some]
      by_cases hne : member.1 = "input"
      · simp [hne]
      · have hself := (hfields _ hmem hne).2.2 _ ((lookup_eq_some_iff_mem hnodup).mpr hmember)
        simpa [hne] using hself

/-- **An object meets the schema exactly when the decoder accepts it and none of its members is
loose.** -/
theorem accepts_iff_lenient (hnodup : (members.map Prod.fst).Nodup) :
    (mcpToolInputSchema tool).accepts members = true ↔
      Lenient tool members ∧ ∀ member ∈ members, loose tool member = false := by
  constructor
  · intro h
    have hexact := exact_of_accepts h
    obtain ⟨hinput, hfields⟩ := (accepts_iff_found hnodup hexact).mp h
    exact (lenient_iff_found hnodup hexact).mpr ⟨hinput, fun field hfield hne =>
      (text_iff _ _ _).mp (hfields field hfield hne)⟩
  · rintro ⟨hl, hloose⟩
    have hexact := exact_of_not_loose hl hloose
    obtain ⟨hinput, hfields⟩ := (lenient_iff_found hnodup hexact).mp ⟨hl, hloose⟩
    exact (accepts_iff_found hnodup hexact).mpr ⟨hinput, fun field hfield hne =>
      (text_iff _ _ _).mpr (hfields field hfield hne)⟩

/-- The value of a text member. -/
def memberText (members : List (String × Json ν)) (name : String) : String :=
  ((members.lookup name).bind text?).getD ""

/-- The decoder accepts what the schema accepts, and yields the values of its members. -/
structure Faithful (tool : Tool) (members : List (String × Json ν)) (bytes : ℕ) : Prop where
  accepts : (decodeMCPActionArguments tool ⟨.obj members, bytes⟩).isOk = true ↔
    (mcpToolInputSchema tool).accepts members = true
  values : ∀ arguments, decodeMCPActionArguments tool ⟨.obj members, bytes⟩ = .ok arguments →
    members.lookup "input" = some arguments.input ∧
      arguments.planHash = memberText members "plan_hash" ∧
      arguments.idempotencyKey = memberText members "idempotency_key"

/-- Without folding, a field holds the member of its name. -/
theorem lastText_of_exact {fields : List String} (hnodup : (members.map Prod.fst).Nodup)
    (hexact : ∀ member ∈ members, fieldOf fields member.1 = some member.1) (field : String) :
    (if field ∈ fields then (lastText fields members field).getD "" else "") =
      memberText members field := by
  split_ifs with hfield
  · rw [lastText, assigned_eq_lookup hnodup hexact, memberText]
    cases members.lookup field <;> rfl
  · have hnone : members.lookup field = none := by
      rw [List.lookup_eq_none_iff]
      intro member hmember
      have hmem := mem_of_fieldOf (hexact member hmember)
      exact bne_iff_ne.mpr fun heq => hfield (heq ▸ hmem)
    rw [memberText, hnone]
    rfl

theorem yields_of_lenient (hl : Lenient tool members) :
    Yields tool members
      { input := (assigned (argumentFields tool) members "input").getLast hl.input
        planHash := if "plan_hash" ∈ argumentFields tool then
          (lastText (argumentFields tool) members "plan_hash").getD "" else ""
        idempotencyKey := if "idempotency_key" ∈ argumentFields tool then
          (lastText (argumentFields tool) members "idempotency_key").getD "" else "" } :=
  ⟨List.getLast?_eq_some_getLast hl.input, rfl, rfl⟩

theorem isOk_decode_iff (hv : mcpLimits.validate ⟨.obj members, bytes⟩ = true) :
    (decodeMCPActionArguments tool ⟨.obj members, bytes⟩).isOk = true ↔ Lenient tool members := by
  constructor
  · intro h
    cases hd : decodeMCPActionArguments tool ⟨.obj members, bytes⟩ with
    | error err => rw [hd] at h; cases h
    | ok arguments => exact ((decode_eq_ok hv).mp hd).1
  · intro hl
    have hd := (decode_eq_ok hv).mpr ⟨hl, yields_of_lenient hl⟩
    rw [hd]
    rfl

/-- **The decoder agrees with the published schema on an object exactly when none of its members is
loose, or it is refused even when names are folded.** -/
theorem decoder_faithful_iff (hv : mcpLimits.validate ⟨.obj members, bytes⟩ = true) :
    Faithful tool members bytes ↔
      (∀ member ∈ members, loose tool member = false) ∨ ¬ Lenient tool members := by
  have hnodup := nodup_of_validate hv
  constructor
  · intro h
    by_cases hl : Lenient tool members
    · have haccepts := h.accepts.mp ((isOk_decode_iff hv).mpr hl)
      exact .inl ((accepts_iff_lenient hnodup).mp haccepts).2
    · exact .inr hl
  · intro h
    constructor
    · rw [isOk_decode_iff hv, accepts_iff_lenient hnodup]
      constructor
      · intro hl
        exact ⟨hl, h.resolve_right (not_not.mpr hl)⟩
      · exact And.left
    · intro arguments hd
      obtain ⟨hl, hy⟩ := (decode_eq_ok hv).mp hd
      have hexact := exact_of_not_loose hl (h.resolve_right (not_not.mpr hl))
      refine ⟨?_, ?_, ?_⟩
      · have hinput := hy.input
        rw [assigned_eq_lookup hnodup hexact] at hinput
        cases hfound : members.lookup "input" <;> simp_all
      · rw [hy.planHash, lastText_of_exact hnodup hexact]
      · rw [hy.idempotencyKey, lastText_of_exact hnodup hexact]

/-- A tool that executes an action with no preview. -/
def sampleTool : Tool := ⟨.execute, .none, false⟩

/-- An input and a key, under their own names. -/
def sampleMembers : List (String × Json ℕ) := [("input", .null), ("idempotency_key", .str "a1")]

/-- The condition is met by an ordinary call. -/
theorem decoder_faithful_sample :
    mcpLimits.validate ⟨.obj sampleMembers, 38⟩ = true ∧ Faithful sampleTool sampleMembers 38 := by
  have hv : mcpLimits.validate ⟨.obj sampleMembers, 38⟩ = true := by decide +kernel
  exact ⟨hv, (decoder_faithful_iff hv).mpr (.inl (by decide +kernel))⟩

/-- An input under a name that folds to its own. -/
def foldedMembers : List (String × Json ℕ) := [("INPUT", .null)]

/-- `{"INPUT":null}` is accepted although the schema declares no such member. -/
theorem folded_name_accepted :
    mcpLimits.validate ⟨.obj foldedMembers, 14⟩ = true ∧
      ¬ Faithful sampleTool foldedMembers 14 := by
  refine ⟨by decide +kernel, fun h => ?_⟩
  have haccepts := h.accepts.mp (by decide +kernel)
  exact absurd haccepts (by decide +kernel)

end Agreement

end Modary.Transport.Arguments
