import Modary.Action.Canonical
import Modary.Action.Descriptors
import Modary.Schema.Frame
import Modary.Schema.View

/-! # Action contracts

`PrepareDescriptor`: the checks on a whole descriptor, and the hash of its contract that plans and
idempotency records are bound to. -/

namespace Modary.Action.Contract

open Modary.Lib.GoText Modary.Lib.JsonValue Modary.Lib.JsonText Modary.Lib.JsonPlace
open Modary.Lib.Sorting
open Modary.Action.Names Modary.Action.Errors Modary.Action.Types Modary.Action.Persistence
open Modary.Action.Descriptors (validActionVersion validateChannels validateErrorSpecs
  maxActionVersionRunes maxDescriptorChannels)
open Modary.Action.Canonical
open Modary.Schema.Profile (Setting Texts canonicalDraft7URI)
open Modary.Schema.Graph Modary.Schema.Walk Modary.Schema.Frame Modary.Schema.View

/-! ### Descriptors -/

/-- `action.Descriptor`. A schema is the text it is given as. -/
structure Descriptor where
  id : GoString
  version : GoString
  title : GoString
  description : GoString
  inputSchema : List Rune
  previewSchema : List Rune
  outputSchema : List Rune
  permission : GoString
  preview : GoString
  auditLevel : GoString
  channels : List GoString
  errors : List ErrorSpec
  requiresIdempotency : Bool
  deriving DecidableEq, Repr

/-- The code that the checks call: `semver.IsValid`, what schema preparation leaves to others,
`engine.NewLocalSchema` with its error, if there is one, and SHA-256 with its prefix. -/
structure Dependencies (δ : Type) where
  checks : Checks
  setting : Setting
  newLocalSchema : Value → Option Texts
  sha256 : List Rune → δ

/-- Why a schema is refused. -/
inductive SchemaFault
  | empty
  | notJSON
  | refused (reason : Schema.Profile.Refusal)
  | notCompiled (texts : Texts)
  | panics
  | numbers
  | canonicalForm
  deriving DecidableEq, Repr

/-- Why a descriptor is refused. -/
inductive Refusal
  | schemaBytes (name : String)
  | field (reason : Descriptors.Refusal)
  | title (text : String)
  | description (text : String)
  | previewPolicy (value : GoString)
  | auditLevel
  | schema (name : String) (fault : SchemaFault)
  | previewMissing
  | previewDeclared
  | canonicalize (name : String) (fault : SchemaFault)
  deriving DecidableEq, Repr

def maxDescriptorTitleRunes : ℕ := 160

def maxDescriptorDescriptionRunes : ℕ := 2048

def previewNone : GoString := .utf8 "none"

def previewOptional : GoString := .utf8 "optional"

def previewRequired : GoString := .utf8 "required"

def auditMetadata : GoString := .utf8 "metadata"

def auditDetailed : GoString := .utf8 "detailed"

variable {δ : Type}

/-! ### Schemas -/

/-- `decodeAndPrepareSchema`. -/
def decodeAndPrepareSchema (deps : Dependencies δ) (data : List Rune) :
    Except SchemaFault SchemaGraph :=
  match decodeSingleJSON data with
  | none => .error .notJSON
  | some document => (prepare deps.setting document).mapError .refused

/-- What the compiler comes back with. -/
def accepted : Option Texts → Except SchemaFault Unit
  | none => .ok ()
  | some texts => .error (.notCompiled texts)

/-- `CompileValidator`: the graph that is compiled. -/
def compileValidator (deps : Dependencies δ) (schema : List Rune) : Except SchemaFault SchemaGraph := do
  refuseIf (schema = []) .empty
  let graph ← decodeAndPrepareSchema deps schema
  accepted (deps.newLocalSchema graph.root)
  return graph

/-- `prepareSchemaDocument`: the document that the given one becomes. -/
def prepareSchemaDocument (deps : Dependencies δ) (document : Value) : Except SchemaFault Value := do
  let graph ← (prepare deps.setting document).mapError .refused
  match document, graph.rootClone with
  | _, none => .error .panics
  | .obj _, some (.obj source) => .ok (declared (.obj source))
  | document, some _ => .ok document

/-- The closure `canonicalSchema`; a `json.RawMessage` is the document that it spells. -/
def canonicalSchema (deps : Dependencies δ) (schema : List Rune) : Except SchemaFault (Option Doc) :=
  if schema = [] then .ok none
  else
    match decodeSingleJSON schema with
    | none => .error .notJSON
    | some value => do
      let prepared ← prepareSchemaDocument deps value
      match canonicalizeJSONValue prepared with
      | none => .error .numbers
      | some canonical =>
        let document := encoded (ordered canonical)
        refuseIf (decodeSingleJSON document.text = none) .canonicalForm
        return some document

/-! ### The hash -/

/-- A member of the material. -/
def field (name : String) (document : Doc) : List Item × Doc := (encodeText (.utf8 name), document)

/-- A Go string as `json.Marshal` writes it. -/
def written (text : GoString) : Doc := .str (encodeText text)

/-- `ErrorSpec`, as `json.Marshal` writes it. -/
def writtenSpec (spec : ErrorSpec) : Doc :=
  .obj [field "code" (written spec.code), field "kind" (written spec.kind.text)]

/-- The `material` of a contract. A schema that is not there is a nil message. -/
def material (descriptor : Descriptor) (input preview output : Option Doc) : Doc :=
  .obj (
    [field "id" (written descriptor.id), field "version" (written descriptor.version),
      field "input_schema" (input.getD .null)] ++
    (preview.toList.map fun document => field "preview_schema" document) ++
    [field "output_schema" (output.getD .null), field "permission" (written descriptor.permission),
      field "preview" (written descriptor.preview),
      field "audit_level" (written descriptor.auditLevel),
      field "channels" (.arr (descriptor.channels.map written))] ++
    (if descriptor.errors = [] then []
      else [field "errors" (.arr (descriptor.errors.map writtenSpec))]) ++
    [field "requires_idempotency" (.bool descriptor.requiresIdempotency)])

/-- `hashDescriptorContract`. -/
def hashDescriptorContract (deps : Dependencies δ) (descriptor : Descriptor) : Except Refusal δ := do
  let input ← (canonicalSchema deps descriptor.inputSchema).mapError (.canonicalize "input")
  let preview ← (canonicalSchema deps descriptor.previewSchema).mapError (.canonicalize "preview")
  let output ← (canonicalSchema deps descriptor.outputSchema).mapError (.canonicalize "output")
  return deps.sha256 (material descriptor input preview output).text

/-! ### Preparation -/

/-- `compiledDescriptor`. -/
structure CompiledDescriptor where
  input : SchemaGraph
  preview : Option SchemaGraph
  output : SchemaGraph

/-- The validator of the preview summary: there is one unless the policy is none. -/
def compilePreview (deps : Dependencies δ) (descriptor : Descriptor) :
    Except Refusal (Option SchemaGraph) :=
  if descriptor.preview ≠ previewNone then do
    refuseIf (descriptor.previewSchema = []) .previewMissing
    let preview ← (compileValidator deps descriptor.previewSchema).mapError (.schema "preview summary")
    return some preview
  else do
    refuseIf (descriptor.previewSchema ≠ []) .previewDeclared
    return none

/-- `compileDescriptor`. -/
def compileDescriptor (deps : Dependencies δ) (descriptor : Descriptor) :
    Except Refusal CompiledDescriptor := do
  refuseIf (validIdentifier descriptor.id = false) (.field .id)
  (Descriptors.validateDescriptorText "version" descriptor.version true
    maxActionVersionRunes).mapError fun text => .field (.version text)
  refuseIf (validActionVersion deps.checks descriptor.version = false) (.field .semanticVersion)
  (Descriptors.validateDescriptorText "title" descriptor.title true
    maxDescriptorTitleRunes).mapError .title
  (Descriptors.validateDescriptorText "description" descriptor.description false
    maxDescriptorDescriptionRunes).mapError .description
  refuseIf (validIdentifier descriptor.permission = false) (.field .permission)
  refuseIf (descriptor.preview ∉ [previewNone, previewOptional, previewRequired])
    (.previewPolicy descriptor.preview)
  refuseIf (descriptor.auditLevel ∉ [auditMetadata, auditDetailed]) .auditLevel
  let input ← (compileValidator deps descriptor.inputSchema).mapError (.schema "input")
  let preview ← compilePreview deps descriptor
  let output ← (compileValidator deps descriptor.outputSchema).mapError (.schema "output")
  refuseIf (descriptor.channels = []) (.field .noChannel)
  refuseIf (maxDescriptorChannels < descriptor.channels.length) (.field .channelCount)
  (validateChannels [] descriptor.channels).mapError .field
  (validateErrorSpecs descriptor.errors).mapError .field
  return ⟨input, preview, output⟩

/-- `PreparedDescriptor`. -/
structure PreparedDescriptor (δ : Type) where
  descriptor : Descriptor
  compiled : CompiledDescriptor
  contractHash : δ

/-- The descriptor with its channels and its errors in order. Where two errors have one code
`sort.Slice` leaves their order open; here it stays. -/
def Descriptor.sorted (descriptor : Descriptor) : Descriptor :=
  { descriptor with
    channels := sortOn GoString.runes descriptor.channels
    errors := sortOn (fun spec => spec.code.runes) descriptor.errors }

/-- `PrepareDescriptor`. -/
def prepareDescriptor (deps : Dependencies δ) (descriptor : Descriptor) :
    Except Refusal (PreparedDescriptor δ) := do
  [("input", descriptor.inputSchema), ("preview", descriptor.previewSchema),
    ("output", descriptor.outputSchema)].forM fun schema =>
      refuseIf (actionJSONLimits.maxBytes < byteSize schema.2) (.schemaBytes schema.1)
  let compiled ← compileDescriptor deps descriptor.sorted
  let contractHash ← hashDescriptorContract deps descriptor.sorted
  return ⟨descriptor.sorted, compiled, contractHash⟩

/-! ### Canonical schemas -/

variable {deps : Dependencies δ} {descriptor other : Descriptor}

/-- A prepared document is stated at all that is reached. -/
theorem prepareSchemaDocument_ok {document prepared : Value} (hd : distinct document = true)
    (h : prepareSchemaDocument deps document = .ok prepared) :
    prepared = stated Reached document := by
  obtain ⟨graph, hgraph, h⟩ := bind_eq_ok.mp h
  rw [mapError_eq_ok] at hgraph
  have hschema := isSchemaValue_of_prepare hgraph
  have hroot := rootClone_eq (show prepareWithLimits _ _ (⟨document, hd⟩ : Document).1 = _ from hgraph)
  simp only [hroot] at h
  cases document with
  | obj members =>
    rw [rewrite] at h
    cases h
    rw [stated, rewrite]
  | bool value =>
    cases h
    rfl
  | _ => cases hschema

/-- The canonical document of a schema. -/
structure CanonicalOf (schema : List Rune) (document : Doc) (value canonical : Value) : Prop where
  nonempty : schema ≠ []
  decoded : decodeSingleJSON schema = some value
  distinct : distinct value = true
  canonicalized : canonicalizeJSONValue (stated Reached value) = some canonical
  document_eq : document = encoded (ordered canonical)
  shallow : depth value ≤ actionJSONLimits.maxDepth

theorem CanonicalOf.bounded_stated {schema : List Rune} {document : Doc} {v c : Value}
    (h : CanonicalOf schema document v c) : depth (stated Reached v) ≤ maxNestingDepth :=
  (depth_stated Reached v).trans (h.shallow.trans (by decide))

theorem CanonicalOf.bounded {schema : List Rune} {document : Doc} {v c : Value}
    (h : CanonicalOf schema document v c) : depth c ≤ maxNestingDepth := by
  rw [((canonicalizeJSONValue_eq_some _ _).mp h.canonicalized).2, depth_mapNumbers]
  exact h.bounded_stated

theorem canonicalSchema_ok {schema : List Rune} {result : Option Doc}
    (h : canonicalSchema deps schema = .ok result) :
    (schema = [] ∧ result = none) ∨
      ∃ document value canonical, result = some document ∧
        CanonicalOf schema document value canonical := by
  unfold canonicalSchema at h
  by_cases hempty : schema = []
  · rw [if_pos hempty] at h
    cases h
    exact .inl ⟨hempty, rfl⟩
  · rw [if_neg hempty] at h
    cases hdecode : decodeSingleJSON schema with
    | none =>
      simp only [hdecode] at h
      cases h
    | some value =>
      simp only [hdecode] at h
      obtain ⟨prepared, hprepared, h⟩ := bind_eq_ok.mp h
      obtain ⟨-, -, -, -, hdepth, hdistinct, -⟩ := decode_eq_some.mp hdecode
      have hstated := prepareSchemaDocument_ok hdistinct hprepared
      cases hcanonical : canonicalizeJSONValue prepared with
      | none =>
        simp only [hcanonical] at h
        cases h
      | some canonical =>
        simp only [hcanonical] at h
        obtain ⟨_, -, h⟩ := bind_eq_ok.mp h
        cases h
        rw [hstated] at hcanonical
        exact .inr ⟨_, value, canonical, rfl, hempty, hdecode, hdistinct, hcanonical, rfl, hdepth⟩

/-- Two schemas that are the same JSON value, but for the declarations of some objects and that of
the root; or there is none. -/
def SameSchema (objects : Value → Place → Prop) (schema other : List Rune) : Prop :=
  (schema = [] ∧ other = []) ∨
    ∃ v w, decodeSingleJSON schema = some v ∧ decodeSingleJSON other = some w ∧
      SameValue (stated objects v) (stated objects w)

/-- **Schemas have the same canonical document exactly when they are the same JSON value**, up to
the declarations of what is reached. -/
theorem canonicalSchema_eq_iff {schema other : List Rune} {result result' : Option Doc}
    (h : canonicalSchema deps schema = .ok result) (h' : canonicalSchema deps other = .ok result') :
    result = result' ↔ SameSchema Reached schema other := by
  rcases canonicalSchema_ok h with ⟨hnil, rfl⟩ | ⟨document, v, c, rfl, hv⟩
  · rcases canonicalSchema_ok h' with ⟨hnil', rfl⟩ | ⟨document', w, c', rfl, hw⟩
    · exact iff_of_true rfl (.inl ⟨hnil, hnil'⟩)
    · refine iff_of_false (fun heq => by cases heq) ?_
      rintro (⟨-, hnil'⟩ | ⟨v, _, hv, -⟩)
      · exact hw.nonempty hnil'
      · rw [hnil] at hv
        cases hv
  · rcases canonicalSchema_ok h' with ⟨hnil', rfl⟩ | ⟨document', w, c', rfl, hw⟩
    · refine iff_of_false (fun heq => by cases heq) ?_
      rintro (⟨hnil, -⟩ | ⟨_, w, -, hw, -⟩)
      · exact hv.nonempty hnil
      · rw [hnil'] at hw
        cases hw
    · have hdocument : document = document' ↔ marshal c = marshal c' := by
        rw [hv.document_eq, hw.document_eq, encoded_injective.eq_iff, marshal_eq_iff hv.bounded hw.bounded]
      have hvalue := marshal_canonical_eq_iff hv.canonicalized hw.canonicalized
        (distinct_stated Reached hv.distinct) (distinct_stated Reached hw.distinct)
        hv.bounded_stated hw.bounded_stated
      rw [Option.some_inj, hdocument, hvalue]
      constructor
      · intro hsame
        exact .inr ⟨v, w, hv.decoded, hw.decoded, hsame⟩
      · rintro (⟨hnil, -⟩ | ⟨v', w', hv', hw', hsame⟩)
        · exact absurd hnil hv.nonempty
        · rw [hv.decoded] at hv'
          rw [hw.decoded] at hw'
          cases hv'
          cases hw'
          exact hsame

/-! ### The terms of a contract -/

/-- What a contract states: the texts of a descriptor and its canonical schemas. -/
structure Terms where
  id : String
  version : String
  input : Value
  previewSchema : Option Value
  output : Value
  permission : String
  preview : String
  auditLevel : String
  channels : List String
  errors : List (String × String)
  requiresIdempotency : Bool

/-- An error of a contract as a JSON value. -/
def specValue (spec : String × String) : Value := .obj [("code", .str spec.1), ("kind", .str spec.2)]

/-- The material as a JSON value. -/
def Terms.value (terms : Terms) : Value :=
  .obj (
    [("id", .str terms.id), ("version", .str terms.version), ("input_schema", terms.input)] ++
    (terms.previewSchema.toList.map fun schema => ("preview_schema", schema)) ++
    [("output_schema", terms.output), ("permission", .str terms.permission),
      ("preview", .str terms.preview), ("audit_level", .str terms.auditLevel),
      ("channels", .arr (terms.channels.map .str))] ++
    (if terms.errors = [] then []
      else [("errors", .arr (terms.errors.map specValue))]) ++
    [("requires_idempotency", .bool terms.requiresIdempotency)])

/-- **The material tells contracts apart.** -/
theorem Terms.value_injective : Function.Injective Terms.value := by
  intro t u h
  obtain ⟨id, version, input, previewSchema, output, permission, preview, auditLevel, channels, errors,
    requiresIdempotency⟩ := t
  obtain ⟨id', version', input', previewSchema', output', permission', preview', auditLevel', channels',
    errors', requiresIdempotency'⟩ := u
  have hchannels : channels.map (Json.str (ν := Lib.JsonNumber.Number)) = channels'.map .str ↔ channels = channels' :=
    (List.map_injective_iff.mpr fun a b hab => Json.str.inj hab).eq_iff
  have herrors : errors.map specValue = errors'.map specValue ↔ errors = errors' := by
    refine (List.map_injective_iff.mpr fun a b hab => ?_).eq_iff
    simp only [specValue, Json.obj.injEq, List.cons.injEq, Prod.mk.injEq, Json.str.injEq, true_and,
      and_true] at hab
    exact Prod.ext hab.1 hab.2
  simp only [Terms.value, Json.obj.injEq] at h
  -- The members that are left out are told by the name of the next one.
  cases previewSchema <;> cases previewSchema' <;> by_cases hnone : errors = [] <;>
    by_cases hnone' : errors' = [] <;> simp_all

/-- The text of a Go string that is one. -/
def spelt (value : GoString) : String := String.ofList value.runes

@[simp] theorem spelt_utf8 (s : String) : spelt (.utf8 s) = s := String.ofList_toList

/-- A Go string is text. -/
def IsText (value : GoString) : Prop := ∃ s : String, value = .utf8 s

theorem IsText.spelt_inj {a b : GoString} (ha : IsText a) (hb : IsText b) (h : spelt a = spelt b) :
    a = b := by
  obtain ⟨s, rfl⟩ := ha
  obtain ⟨t, rfl⟩ := hb
  rw [spelt_utf8, spelt_utf8] at h
  rw [h]

theorem IsText.written_eq {value : GoString} (h : IsText value) : written value = encoded (.str (spelt value)) := by
  obtain ⟨s, rfl⟩ := h
  rw [spelt_utf8]
  rfl

/-- What the checks leave of a descriptor: its texts are UTF-8, and no channel and no code is in it
twice. -/
structure Sound (descriptor : Descriptor) : Prop where
  id : IsText descriptor.id
  version : IsText descriptor.version
  permission : IsText descriptor.permission
  preview : IsText descriptor.preview
  auditLevel : IsText descriptor.auditLevel
  channels : ∀ channel ∈ descriptor.channels, IsText channel
  channels_nodup : descriptor.channels.Nodup
  errors : ∀ spec ∈ descriptor.errors, IsText spec.code ∧ spec.kind.valid = true
  errors_nodup : (descriptor.errors.map ErrorSpec.code).Nodup
  input : descriptor.inputSchema ≠ []
  output : descriptor.outputSchema ≠ []

theorem compileValidator_ok {schema : List Rune} {graph : SchemaGraph}
    (h : compileValidator deps schema = .ok graph) : schema ≠ [] := by
  obtain ⟨_, hempty, -⟩ := bind_eq_ok.mp h
  exact refuseIf_eq_ok.mp hempty

theorem compileDescriptor_ok {compiled : CompiledDescriptor}
    (h : compileDescriptor deps descriptor = .ok compiled) : Sound descriptor := by
  simp only [compileDescriptor, bind_eq_ok] at h
  obtain ⟨_, hid, _, hversion, _, -, _, -, _, -, _, hpermission, _, hpreview, _, hauditLevel, _,
    hinput, _, -, _, houtput, _, -, _, -, _, hchannels, _, herrors, -⟩ := h
  rw [refuseIf_eq_ok, Bool.not_eq_false] at hid hpermission
  rw [refuseIf_eq_ok, not_not] at hpreview hauditLevel
  rw [mapError_eq_ok] at hversion hinput houtput hchannels herrors
  obtain ⟨_, hversionText, -⟩ := validateText_ok hversion
  obtain ⟨hnodup, htexts⟩ := Descriptors.validateChannels_ok hchannels
  obtain ⟨_, -, hspecs⟩ := bind_eq_ok.mp herrors
  obtain ⟨hcodes, hkinds⟩ := Descriptors.validateSpecs_ok hspecs
  have hlisted : ∀ {value : GoString} {list : List GoString}, value ∈ list →
      (∀ text ∈ list, IsText text) → IsText value := fun hmem hall => hall _ hmem
  exact {
    id := utf8_of_validIdentifier hid
    version := ⟨_, hversionText⟩
    permission := utf8_of_validIdentifier hpermission
    preview := hlisted hpreview (by simp [IsText, previewNone, previewOptional, previewRequired])
    auditLevel := hlisted hauditLevel (by simp [IsText, auditMetadata, auditDetailed])
    channels := fun channel hmem => (htexts channel hmem).1
    channels_nodup := hnodup
    errors := fun spec hmem => ⟨(hkinds spec hmem).1, (hkinds spec hmem).2.1⟩
    errors_nodup := hcodes
    input := compileValidator_ok hinput
    output := compileValidator_ok houtput }

/-- The terms of a descriptor, with its canonical schemas. -/
def Descriptor.terms (descriptor : Descriptor) (input preview output : Option Value) : Terms where
  id := spelt descriptor.id
  version := spelt descriptor.version
  input := input.getD .null
  previewSchema := preview
  output := output.getD .null
  permission := spelt descriptor.permission
  preview := spelt descriptor.preview
  auditLevel := spelt descriptor.auditLevel
  channels := descriptor.channels.map spelt
  errors := descriptor.errors.map fun spec => (spelt spec.code, spelt spec.kind.text)
  requiresIdempotency := descriptor.requiresIdempotency

theorem encoded_getD (schema : Option Value) :
    (schema.map encoded).getD .null = encoded (schema.getD .null) := by
  cases schema <;> rfl

theorem Sound.material_eq (h : Sound descriptor) (input preview output : Option Value) :
    material descriptor (input.map encoded) (preview.map encoded) (output.map encoded) =
      encoded (descriptor.terms input preview output).value := by
  have hchannels : descriptor.channels.map written =
      (descriptor.channels.map fun channel => encoded (.str (spelt channel))) :=
    List.map_congr_left fun channel hmem => (h.channels channel hmem).written_eq
  have herrors : descriptor.errors.map writtenSpec =
      descriptor.errors.map fun spec => encoded (specValue (spelt spec.code, spelt spec.kind.text)) := by
    refine List.map_congr_left fun spec hmem => ?_
    obtain ⟨hcode, hkind⟩ := h.errors spec hmem
    have hkind : IsText spec.kind.text := Descriptors.utf8_of_valid hkind
    rw [writtenSpec, hcode.written_eq, hkind.written_eq]
    rfl
  unfold material
  rw [h.id.written_eq, h.version.written_eq, h.permission.written_eq, h.preview.written_eq,
    h.auditLevel.written_eq, hchannels, herrors, encoded_getD, encoded_getD]
  cases preview <;> by_cases hnone : descriptor.errors = [] <;>
    simp [Terms.value, Descriptor.terms, encoded, encodedMembers_eq_map, encodedItems_eq_map, field,
      hnone, Function.comp_def]

/-! ### Prepared descriptors -/

theorem canonicalSchema_encoded {schema : List Rune} {result : Option Doc}
    (h : canonicalSchema deps schema = .ok result) :
    ∃ value : Option Value, result = value.map encoded ∧
      ∀ v ∈ value, depth v ≤ actionJSONLimits.maxDepth := by
  rcases canonicalSchema_ok h with ⟨-, rfl⟩ | ⟨document, v, c, rfl, hv⟩
  · exact ⟨none, rfl, by simp⟩
  · refine ⟨some (ordered c), by rw [hv.document_eq]; rfl, ?_⟩
    intro value hvalue
    cases hvalue
    rw [depth_ordered, ((canonicalizeJSONValue_eq_some _ _).mp hv.canonicalized).2, depth_mapNumbers]
    exact (depth_stated Reached v).trans hv.shallow

/-- What an accepted descriptor is hashed to. -/
structure Accepted (deps : Dependencies δ) (descriptor : Descriptor) (hash : δ)
    (input preview output : Option Value) : Prop where
  sound : Sound descriptor.sorted
  input_eq : canonicalSchema deps descriptor.inputSchema = .ok (input.map encoded)
  preview_eq : canonicalSchema deps descriptor.previewSchema = .ok (preview.map encoded)
  output_eq : canonicalSchema deps descriptor.outputSchema = .ok (output.map encoded)
  shallow : depth (descriptor.sorted.terms input preview output).value ≤ maxNestingDepth
  hash_eq : hash = deps.sha256 (encoded (descriptor.sorted.terms input preview output).value).text

theorem depth_value_le (terms : Terms) {bound : ℕ} (hbound : 2 ≤ bound)
    (hinput : depth terms.input ≤ bound) (houtput : depth terms.output ≤ bound)
    (hpreview : ∀ v ∈ terms.previewSchema, depth v ≤ bound) :
    depth terms.value ≤ bound + 1 := by
  have hchannels : depth (.arr (terms.channels.map .str) : Value) ≤ bound := by
    have hitems : ∀ channels : List String,
        depthOfItems (channels.map (Json.str (ν := Lib.JsonNumber.Number))) = 0 := by
      intro channels
      induction channels with
      | nil => rfl
      | cons channel channels ih => rw [List.map_cons, depthOfItems, ih]; rfl
    rw [depth, hitems]
    omega
  have herrors : depth (.arr (terms.errors.map specValue) : Value) ≤ bound := by
    have hitems : ∀ errors : List (String × String), depthOfItems (errors.map specValue) ≤ 1 := by
      intro errors
      induction errors with
      | nil => exact Nat.zero_le _
      | cons spec errors ih =>
        rw [List.map_cons, depthOfItems]
        exact max_le le_rfl ih
    have hle := hitems terms.errors
    rw [depth]
    omega
  have hmembers : depth terms.value = 1 + depthOfMembers _ := rfl
  rw [hmembers, Nat.add_comm]
  refine Nat.succ_le_succ (depthOfMembers_le_iff.mpr ?_)
  intro member hmember
  simp only [List.mem_append, List.mem_cons, List.mem_map, List.not_mem_nil, or_false,
    Option.mem_toList] at hmember
  rcases hmember with (((hmember | ⟨v, hv, rfl⟩) | hmember) | hmember) | rfl
  · rcases hmember with rfl | rfl | rfl
    · exact Nat.zero_le _
    · exact Nat.zero_le _
    · exact hinput
  · exact hpreview v hv
  · rcases hmember with rfl | rfl | rfl | rfl | rfl
    · exact houtput
    · exact Nat.zero_le _
    · exact Nat.zero_le _
    · exact Nat.zero_le _
    · exact hchannels
  · split_ifs at hmember with hnone
    · cases hmember
    · rw [List.mem_singleton] at hmember
      rw [hmember]
      exact herrors
  · exact Nat.zero_le _

theorem prepareDescriptor_ok {prepared : PreparedDescriptor δ}
    (h : prepareDescriptor deps descriptor = .ok prepared) :
    ∃ input preview output, Accepted deps descriptor prepared.contractHash input preview output := by
  obtain ⟨_, -, h⟩ := bind_eq_ok.mp h
  obtain ⟨compiled, hcompiled, h⟩ := bind_eq_ok.mp h
  obtain ⟨hash, hhash, h⟩ := bind_eq_ok.mp h
  cases h
  have hsound := compileDescriptor_ok hcompiled
  obtain ⟨input, hinput, hhash⟩ := bind_eq_ok.mp hhash
  obtain ⟨preview, hpreview, hhash⟩ := bind_eq_ok.mp hhash
  obtain ⟨output, houtput, hhash⟩ := bind_eq_ok.mp hhash
  rw [mapError_eq_ok] at hinput hpreview houtput
  obtain ⟨input, rfl, hinputDepth⟩ := canonicalSchema_encoded hinput
  obtain ⟨preview, rfl, hpreviewDepth⟩ := canonicalSchema_encoded hpreview
  obtain ⟨output, rfl, houtputDepth⟩ := canonicalSchema_encoded houtput
  have hgetD : ∀ schema : Option Value, (∀ v ∈ schema, depth v ≤ actionJSONLimits.maxDepth) →
      depth (schema.getD .null) ≤ actionJSONLimits.maxDepth := by
    intro schema hschema
    cases schema with
    | none => exact Nat.zero_le _
    | some v => exact hschema v rfl
  refine ⟨input, preview, output, hsound, hinput, hpreview, houtput, ?_, ?_⟩
  · have hbound : 2 ≤ actionJSONLimits.maxDepth := by decide
    have hdepth := depth_value_le (descriptor.sorted.terms input preview output) hbound
      (hgetD input hinputDepth) (hgetD output houtputDepth) hpreviewDepth
    exact hdepth.trans (by decide)
  · cases hhash
    rw [hsound.material_eq]

/-- The parts of two descriptors that govern execution are the same. -/
structure SameGovernance (d d' : Descriptor) : Prop where
  id : d.id = d'.id
  version : d.version = d'.version
  permission : d.permission = d'.permission
  preview : d.preview = d'.preview
  auditLevel : d.auditLevel = d'.auditLevel
  channels : ∀ channel, channel ∈ d.channels ↔ channel ∈ d'.channels
  errors : ∀ spec, spec ∈ d.errors ↔ spec ∈ d'.errors
  requiresIdempotency : d.requiresIdempotency = d'.requiresIdempotency

/-- The three schemas of two descriptors are the same, up to some declarations. -/
structure SameSchemas (objects : Value → Place → Prop) (d d' : Descriptor) : Prop where
  input : SameSchema objects d.inputSchema d'.inputSchema
  preview : SameSchema objects d.previewSchema d'.previewSchema
  output : SameSchema objects d.outputSchema d'.outputSchema

theorem eq_of_map_eq {α β : Type} {f : β → α} {l l' : List β}
    (hf : ∀ a ∈ l, ∀ b ∈ l', f a = f b → a = b) (h : l.map f = l'.map f) : l = l' := by
  induction l generalizing l' with
  | nil =>
    cases l' with
    | nil => rfl
    | cons b l' => cases h
  | cons a l ih =>
    cases l' with
    | nil => cases h
    | cons b l' =>
      rw [List.map_cons, List.map_cons, List.cons.injEq] at h
      have hab : a = b := hf a List.mem_cons_self b List.mem_cons_self h.1
      have htail : l = l' := ih
        (fun x hx y hy => hf x (List.mem_cons_of_mem a hx) y (List.mem_cons_of_mem b hy)) h.2
      rw [hab, htail]

theorem sortOn_eq_iff {β : Type} {key : β → List Char} {l l' : List β} (hl : l.Nodup) (hl' : l'.Nodup)
    (hkey : ∀ a ∈ l, ∀ b ∈ l, key a = key b → a = b) :
    sortOn key l = sortOn key l' ↔ ∀ a, a ∈ l ↔ a ∈ l' := by
  constructor
  · intro h a
    have hmem : a ∈ sortOn key l ↔ a ∈ sortOn key l' := by rw [h]
    rwa [mem_sortOn, mem_sortOn] at hmem
  · intro h
    exact sortOn_congr ((List.perm_ext_iff_of_nodup hl hl').mpr h) hkey

/-- Sorted lists without repetition are spelled alike exactly when they have the same members. -/
theorem map_sortOn_eq_iff {α β : Type} {key : β → List Char} {spell : β → α} {l l' : List β}
    (hl : (sortOn key l).Nodup) (hl' : (sortOn key l').Nodup)
    (hkey : ∀ a ∈ sortOn key l, ∀ b ∈ sortOn key l, key a = key b → a = b)
    (hspell : ∀ a ∈ sortOn key l, ∀ b ∈ sortOn key l', spell a = spell b → a = b) :
    (sortOn key l).map spell = (sortOn key l').map spell ↔ ∀ a, a ∈ l ↔ a ∈ l' := by
  have hspelled : (sortOn key l).map spell = (sortOn key l').map spell ↔
      sortOn key l = sortOn key l' := by
    constructor
    · intro h
      exact eq_of_map_eq hspell h
    · intro h
      rw [h]
  rw [hspelled]
  refine sortOn_eq_iff ((sortOn_perm key l).nodup_iff.mp hl) ((sortOn_perm key l').nodup_iff.mp hl') ?_
  intro a ha b hb
  exact hkey a (mem_sortOn.mpr ha) b (mem_sortOn.mpr hb)

/-- Sound descriptors have the same governing texts when those are spelled alike. -/
theorem sameGovernance_iff (hd : Sound descriptor.sorted) (ho : Sound other.sorted)
    (i v o : Option Value) :
    descriptor.sorted.terms i v o = other.sorted.terms i v o ↔ SameGovernance descriptor other := by
  have hspec : ∀ a b : ErrorSpec, IsText a.code → IsText b.code → a.kind.valid = true →
      b.kind.valid = true → (spelt a.code, spelt a.kind.text) = (spelt b.code, spelt b.kind.text) →
        a = b := by
    intro a b hacode hbcode hakind hbkind heq
    have hcode := hacode.spelt_inj hbcode (Prod.mk.inj heq).1
    have htext : a.kind.text = b.kind.text :=
      IsText.spelt_inj (Descriptors.utf8_of_valid hakind) (Descriptors.utf8_of_valid hbkind)
        (Prod.mk.inj heq).2
    have hkind : a.kind = b.kind := by
      rw [← ofText_text (.inl hakind), htext, ofText_text (.inl hbkind)]
    obtain ⟨acode, akind⟩ := a
    obtain ⟨bcode, bkind⟩ := b
    cases hcode
    cases hkind
    rfl
  have hchannels : descriptor.sorted.channels.map spelt = other.sorted.channels.map spelt ↔
      ∀ channel, channel ∈ descriptor.channels ↔ channel ∈ other.channels := by
    refine map_sortOn_eq_iff hd.channels_nodup ho.channels_nodup ?_ ?_
    · intro a ha b hb heq
      exact (hd.channels a ha).spelt_inj (hd.channels b hb) (congrArg String.ofList heq)
    · intro a ha b hb heq
      exact (hd.channels a ha).spelt_inj (ho.channels b hb) heq
  have herrors : (descriptor.sorted.errors.map fun spec => (spelt spec.code, spelt spec.kind.text)) =
      (other.sorted.errors.map fun spec => (spelt spec.code, spelt spec.kind.text)) ↔
      ∀ spec, spec ∈ descriptor.errors ↔ spec ∈ other.errors := by
    refine map_sortOn_eq_iff hd.errors_nodup.of_map ho.errors_nodup.of_map ?_ ?_
    · intro a ha b hb heq
      have hcode : a.code = b.code :=
        (hd.errors a ha).1.spelt_inj (hd.errors b hb).1 (congrArg String.ofList heq)
      exact List.inj_on_of_nodup_map hd.errors_nodup ha hb hcode
    · intro a ha b hb heq
      exact hspec a b (hd.errors a ha).1 (ho.errors b hb).1 (hd.errors a ha).2 (ho.errors b hb).2 heq
  constructor
  · intro h
    rw [Descriptor.terms, Descriptor.terms, Terms.mk.injEq] at h
    obtain ⟨hid, hversion, -, -, -, hpermission, hpreview, hauditLevel, hch, her, hrequires⟩ := h
    exact {
      id := hd.id.spelt_inj ho.id hid
      version := hd.version.spelt_inj ho.version hversion
      permission := hd.permission.spelt_inj ho.permission hpermission
      preview := hd.preview.spelt_inj ho.preview hpreview
      auditLevel := hd.auditLevel.spelt_inj ho.auditLevel hauditLevel
      channels := hchannels.mp hch
      errors := herrors.mp her
      requiresIdempotency := hrequires }
  · intro h
    rw [Descriptor.terms, Descriptor.terms, Terms.mk.injEq]
    refine ⟨congrArg spelt h.id, congrArg spelt h.version, rfl, rfl, rfl, congrArg spelt h.permission,
      congrArg spelt h.preview, congrArg spelt h.auditLevel, hchannels.mpr h.channels,
      herrors.mpr h.errors, h.requiresIdempotency⟩

theorem canonicalSchema_isSome {schema : List Rune} {value : Option Value} (hne : schema ≠ [])
    (h : canonicalSchema deps schema = .ok (value.map encoded)) : ∃ v, value = some v := by
  rcases canonicalSchema_ok h with ⟨hnil, -⟩ | ⟨document, v, c, hsome, -⟩
  · exact absurd hnil hne
  · cases value with
    | none => cases hsome
    | some w => exact ⟨w, rfl⟩

theorem canonicalSchema_inj {schema text : List Rune} {value result : Option Value}
    (h : canonicalSchema deps schema = .ok (value.map encoded))
    (h' : canonicalSchema deps text = .ok (result.map encoded)) :
    value = result ↔ SameSchema Reached schema text := by
  rw [← canonicalSchema_eq_iff h h', (Option.map_injective encoded_injective).eq_iff]

theorem text_encoded_inj {v w : Value} (hv : depth v ≤ maxNestingDepth) (hw : depth w ≤ maxNestingDepth)
    (h : (encoded v).text = (encoded w).text) : v = w := by
  have hparsed := parseRunes_encoded v hv
  rw [h, parseRunes_encoded w hw] at hparsed
  exact (Option.some.inj hparsed).symm

section Accepted

variable {hash hash' : δ} {input preview output input' preview' output' : Option Value}

/-- **The hashed terms are equal exactly when the governing parts are the same** and the schemas are
the same JSON values, up to the declarations of what is reached. -/
theorem Accepted.terms_eq_iff (h : Accepted deps descriptor hash input preview output)
    (h' : Accepted deps other hash' input' preview' output') :
    descriptor.sorted.terms input preview output = other.sorted.terms input' preview' output' ↔
      SameGovernance descriptor other ∧ SameSchemas Reached descriptor other := by
  obtain ⟨v, rfl⟩ := canonicalSchema_isSome h.sound.input h.input_eq
  obtain ⟨v', rfl⟩ := canonicalSchema_isSome h'.sound.input h'.input_eq
  obtain ⟨w, rfl⟩ := canonicalSchema_isSome h.sound.output h.output_eq
  obtain ⟨w', rfl⟩ := canonicalSchema_isSome h'.sound.output h'.output_eq
  have hinput := canonicalSchema_inj h.input_eq h'.input_eq
  have hpreview := canonicalSchema_inj h.preview_eq h'.preview_eq
  have houtput := canonicalSchema_inj h.output_eq h'.output_eq
  constructor
  · intro heq
    have hschemas := heq
    rw [Descriptor.terms, Descriptor.terms, Terms.mk.injEq] at hschemas
    obtain ⟨-, -, hi, hp, ho, -⟩ := hschemas
    have hi : some v = some v' := congrArg some hi
    have ho : some w = some w' := congrArg some ho
    rw [hi, hp, ho] at heq
    exact ⟨(sameGovernance_iff h.sound h'.sound _ _ _).mp heq,
      ⟨hinput.mp hi, hpreview.mp hp, houtput.mp ho⟩⟩
  · rintro ⟨hgovernance, hschemas⟩
    rw [hinput.mpr hschemas.input, hpreview.mpr hschemas.preview, houtput.mpr hschemas.output]
    exact (sameGovernance_iff h.sound h'.sound _ _ _).mpr hgovernance

theorem Accepted.hash_eq_of_terms (h : Accepted deps descriptor hash input preview output)
    (h' : Accepted deps other hash' input' preview' output')
    (hterms : descriptor.sorted.terms input preview output =
      other.sorted.terms input' preview' output') : hash = hash' := by
  rw [h.hash_eq, h'.hash_eq, hterms]

theorem Accepted.terms_eq_of_hash (hsha : Function.Injective deps.sha256)
    (h : Accepted deps descriptor hash input preview output)
    (h' : Accepted deps other hash' input' preview' output') (hhash : hash = hash') :
    descriptor.sorted.terms input preview output =
      other.sorted.terms input' preview' output' := by
  rw [h.hash_eq, h'.hash_eq] at hhash
  exact Terms.value_injective (text_encoded_inj h.shallow h'.shallow (hsha hhash))

end Accepted

theorem SameSchema.reached {schema text : List Rune} (h : SameSchema Structural schema text) :
    SameSchema Reached schema text := by
  rcases h with hnil | ⟨v, w, hv, hw, hsame⟩
  · exact .inl hnil
  · obtain ⟨-, -, -, -, -, hdv, -⟩ := decode_eq_some.mp hv
    obtain ⟨-, -, -, -, -, hdw, -⟩ := decode_eq_some.mp hw
    exact .inr ⟨v, w, hv, hw, same_reached hdv hdw hsame⟩

theorem SameSchemas.reached (h : SameSchemas Structural descriptor other) :
    SameSchemas Reached descriptor other :=
  ⟨h.input.reached, h.preview.reached, h.output.reached⟩

/-- **The hash of a contract.** It is kept where two descriptors differ in their title, their
description, the order of channels and errors, the spelling of their schemas and the declarations
of the drafts alone; without collisions, it changes with all that governs execution. -/
theorem contractHash_iff {prepared prepared' : PreparedDescriptor δ}
    (h : prepareDescriptor deps descriptor = .ok prepared)
    (h' : prepareDescriptor deps other = .ok prepared') :
    (SameGovernance descriptor other → SameSchemas Structural descriptor other →
      prepared.contractHash = prepared'.contractHash) ∧
    (Function.Injective deps.sha256 → prepared.contractHash = prepared'.contractHash →
      SameGovernance descriptor other ∧ SameSchemas Reached descriptor other) := by
  obtain ⟨_, _, _, haccepted⟩ := prepareDescriptor_ok h
  obtain ⟨_, _, _, haccepted'⟩ := prepareDescriptor_ok h'
  have hterms := haccepted.terms_eq_iff haccepted'
  constructor
  · intro hgovernance hschemas
    exact haccepted.hash_eq_of_terms haccepted' (hterms.mpr ⟨hgovernance, hschemas.reached⟩)
  · intro hsha hhash
    exact hterms.mp (haccepted.terms_eq_of_hash hsha haccepted' hhash)

/-- Dependencies that trust what they are given, and a hash that keeps all of it. -/
def trusting : Dependencies (List Rune) where
  checks := ⟨fun _ => .ok, fun _ => true⟩
  setting := lenient
  newLocalSchema _ := none
  sha256 := id

/-- A descriptor with one property in its input. -/
def plain : Descriptor where
  id := .utf8 "a"
  version := .utf8 "1.0.0"
  title := .utf8 "T"
  description := .utf8 ""
  inputSchema := runesOf (.utf8 "\x7b\"properties\":\x7b\"a\":\x7b\x7d\x7d\x7d")
  previewSchema := []
  outputSchema := runesOf (.utf8 "true")
  permission := .utf8 "p"
  preview := previewNone
  auditLevel := auditMetadata
  channels := [.utf8 "mcp", .utf8 "http"]
  errors := []
  requiresIdempotency := false

/-- The same descriptor under another title, with its channels the other way round. -/
def reordered : Descriptor := { plain with
  title := .utf8 "U"
  channels := [.utf8 "http", .utf8 "mcp"] }

/-- The same descriptor with the draft declared at its property. -/
def nested : Descriptor := { plain with
  inputSchema := runesOf (.utf8 ("\x7b\"properties\":\x7b\"a\":\x7b\"$schema\":" ++
    "\"http://json-schema.org/draft-07/schema#\"\x7d\x7d\x7d")) }

theorem exists_prepared {d : Descriptor} {hash : δ}
    (h : (prepareDescriptor deps d).toOption.map PreparedDescriptor.contractHash = some hash) :
    ∃ prepared, prepareDescriptor deps d = .ok prepared ∧ prepared.contractHash = hash := by
  cases hprepare : prepareDescriptor deps d with
  | error reason =>
    rw [hprepare] at h
    cases h
  | ok prepared =>
    rw [hprepare] at h
    exact ⟨prepared, rfl, Option.some.inj h⟩

/-- `contractHash_iff` at two descriptors that differ in their titles and the order of channels. -/
theorem contractHash_reordered : ∃ prepared prepared',
    prepareDescriptor trusting plain = .ok prepared ∧
      prepareDescriptor trusting reordered = .ok prepared' ∧
      prepared.contractHash = prepared'.contractHash ∧
      SameGovernance plain reordered ∧ SameSchemas Reached plain reordered := by
  have hplain : ((prepareDescriptor trusting plain).toOption.map
      PreparedDescriptor.contractHash).isSome = true := by decide +kernel
  have hreordered : ((prepareDescriptor trusting reordered).toOption.map
      PreparedDescriptor.contractHash).isSome = true := by decide +kernel
  have hdecoded : (decodeSingleJSON plain.inputSchema).isSome = true ∧
      (decodeSingleJSON plain.outputSchema).isSome = true := by decide +kernel
  obtain ⟨hash, hhash⟩ := Option.isSome_iff_exists.mp hplain
  obtain ⟨hash', hhash'⟩ := Option.isSome_iff_exists.mp hreordered
  obtain ⟨prepared, hprepared, -⟩ := exists_prepared hhash
  obtain ⟨prepared', hprepared', -⟩ := exists_prepared hhash'
  obtain ⟨v, hv⟩ := Option.isSome_iff_exists.mp hdecoded.1
  obtain ⟨w, hw⟩ := Option.isSome_iff_exists.mp hdecoded.2
  have hgovernance : SameGovernance plain reordered :=
    ⟨rfl, rfl, rfl, rfl, rfl, fun _ => by simp [plain, reordered, or_comm], fun _ => Iff.rfl, rfl⟩
  obtain ⟨-, -, -, -, -, hdv, -⟩ := decode_eq_some.mp hv
  obtain ⟨-, -, -, -, -, hdw, -⟩ := decode_eq_some.mp hw
  have hschemas : SameSchemas Structural plain reordered :=
    ⟨.inr ⟨v, v, hv, hv, .refl (distinct_stated Structural hdv)⟩, .inl ⟨rfl, rfl⟩,
      .inr ⟨w, w, hw, hw, .refl (distinct_stated Structural hdw)⟩⟩
  obtain ⟨hkept, hchanges⟩ := contractHash_iff hprepared hprepared'
  have hhash := hkept hgovernance hschemas
  exact ⟨prepared, prepared', hprepared, hprepared', hhash, hchanges Function.injective_id hhash⟩

theorem exists_decoded {text : List Rune} {v : Value}
    (h : (decodeSingleJSON text).any (fun u => alike (valueOf u) (valueOf v)) = true) :
    ∃ u, decodeSingleJSON text = some u ∧ SameValue u v := by
  obtain ⟨u, hu, hsame⟩ := (Option.any_eq_true _ _).mp h
  exact ⟨u, hu, hsame⟩

/-- **A declaration below the root counts**: with it, the hash is another one. -/
theorem nested_declaration_counts : ∃ prepared prepared' v w,
    prepareDescriptor trusting plain = .ok prepared ∧
      prepareDescriptor trusting nested = .ok prepared' ∧
      nested = { plain with inputSchema := nested.inputSchema } ∧
      (decodeSingleJSON plain.inputSchema = some v ∧
        SameValue v (.obj [("properties", .obj [("a", .obj [])])])) ∧
      (decodeSingleJSON nested.inputSchema = some w ∧
        SameValue w (.obj [("properties", .obj [("a", .obj [
          ("$schema", .str "http://json-schema.org/draft-07/schema#")])])])) ∧
      prepared.contractHash ≠ prepared'.contractHash := by
  have hplain : ((prepareDescriptor trusting plain).toOption.map
      PreparedDescriptor.contractHash).isSome = true := by decide +kernel
  have hnested : ((prepareDescriptor trusting nested).toOption.map
      PreparedDescriptor.contractHash).isSome = true := by decide +kernel
  have hne : (prepareDescriptor trusting plain).toOption.map PreparedDescriptor.contractHash ≠
      (prepareDescriptor trusting nested).toOption.map PreparedDescriptor.contractHash := by
    decide +kernel
  obtain ⟨v, hv⟩ : ∃ v, decodeSingleJSON plain.inputSchema = some v ∧
      SameValue v (.obj [("properties", .obj [("a", .obj [])])]) :=
    exists_decoded (by decide +kernel)
  obtain ⟨w, hw⟩ : ∃ w, decodeSingleJSON nested.inputSchema = some w ∧
      SameValue w (.obj [("properties", .obj [("a", .obj [
        ("$schema", .str "http://json-schema.org/draft-07/schema#")])])]) :=
    exists_decoded (by decide +kernel)
  obtain ⟨hash, hhash⟩ := Option.isSome_iff_exists.mp hplain
  obtain ⟨hash', hhash'⟩ := Option.isSome_iff_exists.mp hnested
  rw [hhash, hhash'] at hne
  obtain ⟨prepared, hprepared, rfl⟩ := exists_prepared hhash
  obtain ⟨prepared', hprepared', rfl⟩ := exists_prepared hhash'
  exact ⟨prepared, prepared', v, w, hprepared, hprepared', rfl, hv, hw, fun heq => hne (by rw [heq])⟩

end Modary.Action.Contract
