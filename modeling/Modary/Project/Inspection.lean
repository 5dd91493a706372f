import Modary.Project.Composition

/-! # Inspection

`InspectContext`: the registrations of a definition in canonical order, registered one by one, and the
projection of what they declare. -/

namespace Modary.Project.Inspection

open Modary.Lib.GoText Modary.Lib.GoOrder Modary.Lib.Sorting Modary.Lib.JsonText
open Modary.Action.Errors Modary.Action.Declared
open Modary.Action.Contract (Dependencies PreparedDescriptor CompiledDescriptor compileDescriptor
  hashDescriptorContract)
open Modary.Action.Canonical
open Modary.Action.Descriptors (validateErrorSpecs)
open Modary.Module.Manifests
open Modary.Module.Services (MigrationSource HostError checkMigrations capabilityDatabase)
open Modary.Module.Verify (Graph VerifyError verify)
open Modary.App.Binding Modary.Project.Composition

variable {δ φ : Type}

/-! ### Registration -/

/-- A descriptor with its channels and its errors in order. -/
def sorted (c : Choices) (descriptor : Action.Contract.Descriptor) : Action.Contract.Descriptor :=
  { descriptor with
    channels := sortOn order descriptor.channels
    errors := c.sortSpecs descriptor.errors }

/-- The check of `PrepareDescriptor` on the sizes of the schemas. -/
def checkSizes (descriptor : Action.Contract.Descriptor) : Except Action.Contract.Refusal Unit :=
  [("input", descriptor.inputSchema), ("preview", descriptor.previewSchema),
    ("output", descriptor.outputSchema)].forM fun schema =>
      refuseIf (actionJSONLimits.maxBytes < byteSize schema.2) (.schemaBytes schema.1)

/-- `PrepareDescriptor`, an error of the engine with all the texts that it may have. -/
def checkDescriptor (c : Choices) (deps : Dependencies δ) (descriptor : Action.Contract.Descriptor) :
    Except Action.Contract.Refusal (PreparedDescriptor δ) := do
  checkSizes descriptor
  let compiled ← compileDescriptor deps (sorted c descriptor)
  let contractHash ← hashDescriptorContract deps (sorted c descriptor)
  return ⟨sorted c descriptor, compiled, contractHash⟩

/-- `PrepareDescriptor`. -/
def prepareDescriptor (c : Choices) (deps : Dependencies δ) (descriptor : Action.Contract.Descriptor) :
    Except Action.Contract.Refusal (PreparedDescriptor δ) :=
  (checkDescriptor c deps descriptor).mapError c.refusal

/-- Why `Register` refuses: an action of a module, with the reason its message ends in, or anything else. -/
inductive RegisterError
  | host (reason : HostError)
  | descriptor (moduleID action : GoString) (reason : Action.Contract.Refusal)

/-- The contracts of actions by their ids. -/
abbrev Table (δ : Type) := List (GoString × PreparedDescriptor δ)

/-- The loop of `prepareRegistration` over the actions, with the contracts prepared so far. -/
def prepareActions (c : Choices) (deps : Dependencies δ) (id : GoString) :
    Table δ → List ActionBinding → Except RegisterError (Table δ)
  | prepared, [] => .ok prepared
  | prepared, binding :: rest => do
    refuseIf (binding.newHandler = false) (.host (.noFactory binding.descriptor.id id))
    let contract ← (prepareDescriptor c deps binding.descriptor).mapError
      (.descriptor id binding.descriptor.id)
    refuseIf (binding.descriptor.id ∈ prepared.map Prod.fst)
      (.host (.actionRepeated binding.descriptor.id id))
    prepareActions c deps id (prepared ++ [(binding.descriptor.id, contract)]) rest

/-- The checks of `prepareRegistration` before it comes to the actions. -/
def prepareModule (isValid : GoString → Bool) (registration : Registration) : Except HostError Unit := do
  let manifest := registration.manifest
  (validateManifest isValid manifest).mapError .manifest
  refuseIf (registration.migrations ≠ [] ∧ capabilityDatabase ∉ manifest.requires ∧
    capabilityDatabase ∉ manifest.provides) (.migrationsUndeclared manifest.id)
  checkMigrations manifest.id [] registration.migrations

/-- `prepareRegistration`. -/
def prepareRegistration (c : Choices) (env : Environment δ φ) (registration : Registration) :
    Except RegisterError (Table δ) := do
  (prepareModule env.isValid registration).mapError .host
  prepareActions c env.deps registration.manifest.id [] registration.actions

/-- What a Host holds: its registrations and the contracts of their actions. -/
abbrev Held (δ : Type) := List Registration × Table δ

/-- The module that declares an action. -/
def actionOwner (registrations : List Registration) (action : GoString) : Option GoString :=
  (registrations.find? fun registration =>
    registration.actions.any fun binding => binding.descriptor.id = action).map fun registration =>
      registration.manifest.id

/-- `Register` of one registration: the first of its actions that has an owner, as the map of its
contracts is iterated, is reported. -/
def register (c : Choices) (env : Environment δ φ) (held : Held δ) (registration : Registration) :
    Except RegisterError (Held δ) := do
  let id := registration.manifest.id
  refuseIf (id ∈ moduleIDs held.1) (.host (.alreadyRegistered id))
  let prepared ← prepareRegistration c env registration
  match (c.iterate (prepared.map Prod.fst)).find? fun action => (actionOwner held.1 action).isSome with
  | some action => .error (.host (.actionOwned action ((actionOwner held.1 action).getD default) id))
  | none => .ok (held.1 ++ [registration], held.2 ++ prepared)

/-! ### Canonical JSON -/

mutual

/-- A document as Go's maps hold it: of two members of one name the last. -/
def mapped : Value → Value
  | .arr items => .arr (mappedItems items)
  | .obj members => .obj (lastMembers (mappedMembers members))
  | value => value

def mappedItems : List Value → List Value
  | [] => []
  | item :: items => mapped item :: mappedItems items

def mappedMembers : List (String × Value) → List (String × Value)
  | [] => []
  | (name, value) :: members => (name, mapped value) :: mappedMembers members

end

/-- `canonicalJSON`. -/
def canonicalJSON (data : List Rune) : Option (List Rune) :=
  (parseRunes data).map fun document => marshal (mapped (decoded document))

/-! ### Snapshots -/

/-- `ModuleInfo`. -/
structure ModuleInfo where
  id : GoString
  version : GoString
  type : GoString
  requires : List GoString
  provides : List GoString
  migrations : List GoString

/-- `Snapshot`. -/
structure Snapshot (δ : Type) where
  application : Metadata
  modules : List ModuleInfo
  graph : Graph
  actions : List (CatalogEntry δ)

/-- The projection of a registration. -/
def moduleInfo (registration : Registration) : ModuleInfo where
  id := registration.manifest.id
  version := registration.manifest.version
  type := registration.manifest.type
  requires := sortOn order registration.manifest.requires
  provides := sortOn order registration.manifest.provides
  migrations := sortOn order (registration.migrations.map MigrationSource.driver)

/-- Why `InspectContext` refuses. -/
inductive InspectError
  | contextRequired
  | cancelled
  | metadata (reason : MetadataRefusal)
  | noModules
  | duplicate (reason : Duplicate)
  | register (reason : RegisterError)
  | catalog (reason : CatalogRefusal)
  | graph (reason : VerifyError)
  | canonicalize (action : GoString) (schema : String)

/-- A schema in canonical form. -/
def canonicalSchema (action : GoString) (schema : String) (data : List Rune) :
    Except InspectError (List Rune) :=
  match canonicalJSON data with
  | none => .error (.canonicalize action schema)
  | some canonical => .ok canonical

/-- The schema of the preview summary in canonical form, if there is one. -/
def canonicalPreview (descriptor : Action.Contract.Descriptor) : Except InspectError (List Rune) :=
  if descriptor.previewSchema = [] then .ok []
  else canonicalSchema descriptor.id "preview" descriptor.previewSchema

/-- An entry of the catalog with its schemas in canonical form. -/
def canonicalEntry (entry : CatalogEntry δ) : Except InspectError (CatalogEntry δ) := do
  let descriptor := entry.descriptor
  let input ← canonicalSchema descriptor.id "input" descriptor.inputSchema
  let preview ← canonicalPreview descriptor
  let output ← canonicalSchema descriptor.id "output" descriptor.outputSchema
  return { entry with descriptor := { descriptor with
    inputSchema := input, previewSchema := preview, outputSchema := output } }

/-- The context of an inspection: none, one that is cancelled, or one that lives until the end. -/
inductive Context
  | none
  | cancelled
  | live
  deriving DecidableEq, Repr

/-- What follows the registrations. -/
def project (env : Environment δ φ) (metadata : Metadata) (registrations : List Registration)
    (prepared : Table δ) : Except InspectError (Snapshot δ) := do
  let catalog ← (catalogOf env registrations prepared).mapError .catalog
  let graph ← (verify env.isValid (registrations.map Registration.manifest)).mapError .graph
  let actions ← catalog.mapM canonicalEntry
  return ⟨metadata, sortOn (fun info : ModuleInfo => order info.id) (registrations.map moduleInfo), graph,
    actions⟩

/-- `InspectContext`. -/
def inspect (c : Choices) (env : Environment δ φ) (context : Context) (definition : Definition) :
    Except InspectError (Snapshot δ) := do
  refuseIf (context = .none) .contextRequired
  refuseIf (context = .cancelled) .cancelled
  (validateMetadata env.isValid definition.metadata).mapError .metadata
  refuseIf (definition.modules = []) .noModules
  (preScanDuplicateIdentities c definition.modules).mapError .duplicate
  let registrations := canonicalRegistrations c definition.modules
  let held ← (registrations.foldlM (register c env) ([], [])).mapError .register
  project env definition.metadata registrations held.2

/-! ### One descriptor -/

/-- The errors of two lists in order that pass are the same. -/
theorem eq_of_validateErrorSpecs {specs others : List ErrorSpec} (hp : specs.Perm others)
    (h : InOrder specs) (h' : InOrder others) (hok : validateErrorSpecs specs = .ok ()) : specs = others := by
  obtain ⟨_, -, hok⟩ := bind_eq_ok.mp hok
  obtain ⟨-, hnodup⟩ := validateSpecs_ok_iff.mp hok
  refine List.Perm.eq_of_pairwise ?_ h h' hp
  intro a b ha hb hab hba
  exact List.inj_on_of_nodup_map hnodup ha (hp.mem_iff.mpr hb) (order_injective (le_antisymm hab hba))

theorem bind_bind {ε α β γ : Type} (x : Except ε α) (f : α → Except ε β) (g : β → Except ε γ) :
    (x.bind f).bind g = x.bind fun a => (f a).bind g := by
  cases x <;> rfl

/-- The errors of a descriptor are checked last. -/
theorem compileDescriptor_errors (deps : Dependencies δ) (descriptor : Action.Contract.Descriptor)
    (specs : List ErrorSpec) : compileDescriptor deps { descriptor with errors := specs } =
      (compileDescriptor deps { descriptor with errors := [] }).bind fun compiled =>
        ((validateErrorSpecs specs).mapError .field).bind fun _ => .ok compiled := by
  have hnil : (validateErrorSpecs []).mapError Action.Contract.Refusal.field = .ok () := rfl
  unfold compileDescriptor
  simp only [bind, pure, Except.pure, bind_bind, hnil]
  rfl

/-- The check of the errors of a descriptor is reached. -/
def ReachesErrors (deps : Dependencies δ) (descriptor : Action.Contract.Descriptor) : Prop :=
  checkSizes descriptor = .ok () ∧
    ∃ compiled, compileDescriptor deps (sorted steady { descriptor with errors := [] }) = .ok compiled

section
variable {c c' : Choices} {deps : Dependencies δ} {binding other : ActionBinding}

theorem sorted_eq (h : AlikeBinding binding other) :
    { sorted c binding.descriptor with errors := [] } = { sorted c' other.descriptor with errors := [] } := by
  obtain ⟨⟨id, version, title, description, inputSchema, previewSchema, outputSchema, permission, preview,
    auditLevel, channels, errors, requiresIdempotency⟩, newHandler⟩ := binding
  obtain ⟨⟨id', version', title', description', inputSchema', previewSchema', outputSchema', permission',
    preview', auditLevel', channels', errors', requiresIdempotency'⟩, newHandler'⟩ := other
  have hrest := h.rest
  simp only [Action.Contract.Descriptor.mk.injEq, true_and] at hrest
  simp only [sorted, Action.Contract.Descriptor.mk.injEq, true_and]
  obtain ⟨h₁, h₂, h₃, h₄, h₅, h₆, h₇, h₈, h₉, h₁₀, h₁₁, h₁₂⟩ := hrest
  exact ⟨h₁, h₂, h₃, h₄, h₅, h₆, h₇, h₈, h₉, h₁₀, by rw [h₁₁], h₁₂⟩

theorem checkSizes_eq (h : AlikeBinding binding other) :
    checkSizes binding.descriptor = checkSizes other.descriptor := by
  have hsizes := congrArg checkSizes h.rest
  exact hsizes

theorem sortSpecs_perm (hc : c.Lawful) (hc' : c'.Lawful) (h : AlikeBinding binding other) :
    (c.sortSpecs binding.descriptor.errors).Perm (c'.sortSpecs other.descriptor.errors) :=
  (hc.sortSpecs_perm _).trans (h.errors.trans (hc'.sortSpecs_perm _).symm)

/-- A descriptor is checked alike when its errors are checked alike, if they are reached. -/
theorem checkDescriptor_eq (hc : c.Lawful) (hc' : c'.Lawful) (h : AlikeBinding binding other)
    (hchecked : ReachesErrors deps binding.descriptor →
      validateErrorSpecs (c.sortSpecs binding.descriptor.errors) =
        validateErrorSpecs (c'.sortSpecs other.descriptor.errors)) :
    checkDescriptor c deps binding.descriptor = checkDescriptor c' deps other.descriptor := by
  have hperm := sortSpecs_perm hc hc' h
  have hbase := @sorted_eq c c' _ _ h
  have hcompile : ∀ d : Choices, ∀ descriptor : Action.Contract.Descriptor,
      compileDescriptor deps (sorted d descriptor) =
        (compileDescriptor deps { sorted d descriptor with errors := [] }).bind fun compiled =>
          ((validateErrorSpecs (d.sortSpecs descriptor.errors)).mapError .field).bind fun _ => .ok compiled :=
    fun d descriptor => compileDescriptor_errors deps (sorted d descriptor) (d.sortSpecs descriptor.errors)
  cases hok : validateErrorSpecs (c.sortSpecs binding.descriptor.errors) with
  | ok _ =>
    -- errors that pass are the same, and so are the descriptors
    have hspecs := eq_of_validateErrorSpecs hperm (hc.sortSpecs_inOrder _) (hc'.sortSpecs_inOrder _) hok
    have hsorted : sorted c binding.descriptor = sorted c' other.descriptor := by
      have hleft : sorted c binding.descriptor =
          { ({ sorted c binding.descriptor with errors := [] } : Action.Contract.Descriptor) with
            errors := c.sortSpecs binding.descriptor.errors } := rfl
      have hright : sorted c' other.descriptor =
          { ({ sorted c' other.descriptor with errors := [] } : Action.Contract.Descriptor) with
            errors := c'.sortSpecs other.descriptor.errors } := rfl
      rw [hleft, hright, hbase, hspecs]
    unfold checkDescriptor
    rw [checkSizes_eq h, hsorted]
  | error reason =>
    unfold checkDescriptor
    rw [hcompile c, hcompile c', ← hbase, ← checkSizes_eq h]
    cases hsizes : checkSizes binding.descriptor with
    | error reason => rfl
    | ok _ =>
      cases hcompiled : compileDescriptor deps
          { sorted c binding.descriptor with errors := [] } with
      | error reason => rfl
      | ok compiled =>
        rw [← hchecked ⟨hsizes, compiled, hcompiled⟩, hok]
        rfl

/-- **A descriptor that is prepared is prepared alike.** -/
theorem prepareDescriptor_ok (hc : c.Lawful) (hc' : c'.Lawful) (h : AlikeBinding binding other)
    {contract : PreparedDescriptor δ} (hok : prepareDescriptor c deps binding.descriptor = .ok contract) :
    prepareDescriptor c' deps other.descriptor = .ok contract ∧ binding = other := by
  unfold prepareDescriptor at hok ⊢
  rw [mapError_eq_ok] at hok ⊢
  have hspecs : validateErrorSpecs (c.sortSpecs binding.descriptor.errors) = .ok () := by
    obtain ⟨_, -, hok⟩ := bind_eq_ok.mp hok
    obtain ⟨compiled, hcompiled, -⟩ := bind_eq_ok.mp hok
    have hsplit := compileDescriptor_errors deps (sorted c binding.descriptor)
      (c.sortSpecs binding.descriptor.errors)
    obtain ⟨_, -, hcompiled⟩ := bind_eq_ok.mp (hsplit.symm.trans hcompiled)
    obtain ⟨_, hspecs, -⟩ := bind_eq_ok.mp hcompiled
    exact mapError_eq_ok.mp hspecs
  have hperm := sortSpecs_perm hc hc' h
  constructor
  · rw [← checkDescriptor_eq hc hc' h fun _ => ?_]
    · exact hok
    · rw [eq_of_validateErrorSpecs hperm (hc.sortSpecs_inOrder _) (hc'.sortSpecs_inOrder _) hspecs]
  · have herrors : binding.descriptor.errors = other.descriptor.errors := by
      refine eq_of_validateErrorSpecs h.errors h.inOrder h.inOrder_other ?_
      exact (validateErrorSpecs_ok_perm (hc.sortSpecs_perm _)).mp hspecs
    obtain ⟨descriptor, newHandler⟩ := binding
    obtain ⟨descriptor', newHandler'⟩ := other
    have hleft : descriptor = { ({ descriptor with errors := [] } : Action.Contract.Descriptor) with
        errors := descriptor.errors } := rfl
    have hright : descriptor' = { ({ descriptor' with errors := [] } : Action.Contract.Descriptor) with
        errors := descriptor'.errors } := rfl
    have hdescriptor : descriptor = descriptor' := by
      rw [hleft, hright, h.rest, herrors]
    exact congrArg₂ ActionBinding.mk hdescriptor h.newHandler

end

/-! ### The actions of a registration -/

section
variable {c c' : Choices} {deps : Dependencies δ} {id : GoString}

theorem prepareActions_append {before rest : List ActionBinding} : ∀ {prepared : Table δ},
    prepareActions c deps id prepared (before ++ rest) =
      (prepareActions c deps id prepared before).bind fun table => prepareActions c deps id table rest := by
  induction before with
  | nil => intro prepared; rfl
  | cons binding before ih =>
    intro prepared
    rw [List.cons_append]
    simp only [prepareActions, bind, bind_bind, ih]

/-- A descriptor leaves one thing to report: its errors are settled, if they are reached, and so is
the text of an error of the engine. -/
structure SettledDescriptor (deps : Dependencies δ) (descriptor : Action.Contract.Descriptor) : Prop where
  errors : ReachesErrors deps descriptor → Settled descriptor.errors
  texts : ∀ reason, checkDescriptor steady deps descriptor = .error reason → OneText reason

/-- **Actions that are prepared are prepared alike.** -/
theorem prepareActions_ok (hc : c.Lawful) (hc' : c'.Lawful) {actions others : List ActionBinding}
    (h : List.Forall₂ AlikeBinding actions others) : ∀ {prepared table : Table δ},
      prepareActions c deps id prepared actions = .ok table →
        prepareActions c' deps id prepared others = .ok table ∧ actions = others := by
  induction h with
  | nil => intro prepared table hok; exact ⟨hok, rfl⟩
  | cons hab _ ih =>
    intro prepared table hok
    obtain ⟨_, hhandler, hok⟩ := bind_eq_ok.mp hok
    obtain ⟨contract, hcontract, hok⟩ := bind_eq_ok.mp hok
    obtain ⟨_, hnew, hok⟩ := bind_eq_ok.mp hok
    obtain ⟨hprepared, rfl⟩ := prepareDescriptor_ok hc hc' hab (mapError_eq_ok.mp hcontract)
    obtain ⟨hrest, rfl⟩ := ih hok
    refine ⟨bind_eq_ok.mpr ⟨(), hhandler, bind_eq_ok.mpr ⟨contract, ?_, ?_⟩⟩, rfl⟩
    · exact mapError_eq_ok.mpr hprepared
    · exact bind_eq_ok.mpr ⟨(), hnew, hrest⟩

end

/-! ### Registrations -/

section
variable {c c' : Choices} {env : Environment δ φ} {held : Held δ} {registration other : Registration}

/-- The actions of a registration that have an owner, by their ids. -/
def sharedActions (held : Held δ) (prepared : Table δ) : List GoString :=
  (prepared.map Prod.fst).filter fun action => (actionOwner held.1 action).isSome

theorem prepareModule_alike (h : AlikeRegistration registration other) :
    prepareModule env.isValid registration = prepareModule env.isValid other := by
  unfold prepareModule
  rw [h.manifest, h.migrations]

theorem prepareRegistration_ok (hc : c.Lawful) (hc' : c'.Lawful) (h : AlikeRegistration registration other)
    {prepared : Table δ} (hok : prepareRegistration c env registration = .ok prepared) :
    prepareRegistration c' env other = .ok prepared ∧ registration = other := by
  obtain ⟨_, hmodule, hactions⟩ := bind_eq_ok.mp hok
  obtain ⟨hprepared, hsame⟩ := prepareActions_ok hc hc' h.actions hactions
  constructor
  · refine bind_eq_ok.mpr ⟨(), ?_, ?_⟩
    · rw [← prepareModule_alike h]
      exact hmodule
    · rw [← h.manifest]
      exact hprepared
  · obtain ⟨manifest, actions, migrations, start⟩ := registration
    obtain ⟨manifest', actions', migrations', start'⟩ := other
    obtain ⟨hmanifest, -, hmigrations, hstart⟩ := h
    cases hmanifest
    cases hmigrations
    cases hstart
    cases hsame
    rfl

/-- The outcome of a registration: refused for its id or its own sake, for a shared action, or held. -/
theorem register_eq (hnew : registration.manifest.id ∉ moduleIDs held.1) :
    register c env held registration = (prepareRegistration c env registration).bind fun prepared =>
      match (c.iterate (prepared.map Prod.fst)).find? fun action => (actionOwner held.1 action).isSome with
      | some action => .error (.host (.actionOwned action ((actionOwner held.1 action).getD default)
          registration.manifest.id))
      | none => .ok (held.1 ++ [registration], held.2 ++ prepared) := by
  unfold register
  simp only [refuseIf, if_neg hnew]
  rfl

/-- What a registration that is held has passed. -/
theorem register_ok_iff (hc : c.Lawful) {next : Held δ} : register c env held registration = .ok next ↔
    registration.manifest.id ∉ moduleIDs held.1 ∧ ∃ prepared,
      prepareRegistration c env registration = .ok prepared ∧ sharedActions held prepared = [] ∧
        next = (held.1 ++ [registration], held.2 ++ prepared) := by
  by_cases hid : registration.manifest.id ∈ moduleIDs held.1
  · constructor
    · intro h
      unfold register at h
      simp only [refuseIf, if_pos hid] at h
      cases h
    · rintro ⟨hnew, -⟩
      exact absurd hid hnew
  · rw [register_eq hid]
    have hfind : ∀ prepared : Table δ, (c.iterate (prepared.map Prod.fst)).find?
        (fun action => (actionOwner held.1 action).isSome) = none ↔ sharedActions held prepared = [] := by
      intro prepared
      unfold sharedActions
      rw [List.find?_eq_none, List.filter_eq_nil_iff]
      simp only [(hc.iterate_perm _).mem_iff]
    constructor
    · intro h
      obtain ⟨prepared, hprepared, h⟩ := bind_eq_ok.mp h
      refine ⟨hid, prepared, hprepared, ?_⟩
      cases hshared : (c.iterate (prepared.map Prod.fst)).find?
          (fun action => (actionOwner held.1 action).isSome) with
      | some action =>
        rw [hshared] at h
        cases h
      | none =>
        rw [hshared] at h
        exact ⟨(hfind prepared).mp hshared, (Except.ok.inj h).symm⟩
    · rintro ⟨-, prepared, hprepared, hshared, rfl⟩
      refine bind_eq_ok.mpr ⟨prepared, hprepared, ?_⟩
      rw [(hfind prepared).mpr hshared]

/-- **A registration that is held is held alike.** -/
theorem register_ok_alike (hc : c.Lawful) (hc' : c'.Lawful) (h : AlikeRegistration registration other)
    {next : Held δ} (hok : register c env held registration = .ok next) :
    register c' env held other = .ok next ∧ registration = other := by
  obtain ⟨hnew, prepared, hprepared, hshared, rfl⟩ := (register_ok_iff hc).mp hok
  obtain ⟨hprepared', rfl⟩ := prepareRegistration_ok hc hc' h hprepared
  exact ⟨(register_ok_iff hc').mpr ⟨hnew, prepared, hprepared', hshared, rfl⟩, rfl⟩

end

/-! ### All registrations -/

section
variable {c c' : Choices} {env : Environment δ φ}

/-- **Registrations that are held are held alike.** -/
theorem foldlM_register_ok (hc : c.Lawful) (hc' : c'.Lawful) {registrations others : List Registration}
    (h : List.Forall₂ AlikeRegistration registrations others) : ∀ {held next : Held δ},
      registrations.foldlM (register c env) held = .ok next →
        others.foldlM (register c' env) held = .ok next ∧ registrations = others := by
  induction h with
  | nil => intro held next hok; exact ⟨hok, rfl⟩
  | cons hab _ ih =>
    intro held next hok
    rw [List.foldlM_cons] at hok
    obtain ⟨middle, hmiddle, hok⟩ := bind_eq_ok.mp hok
    obtain ⟨hmiddle', rfl⟩ := register_ok_alike hc hc' hab hmiddle
    obtain ⟨hrest, rfl⟩ := ih hok
    rw [List.foldlM_cons]
    exact ⟨bind_eq_ok.mpr ⟨middle, hmiddle', hrest⟩, rfl⟩

end

/-! ### Definitions -/

section
variable {c c' : Choices} {env : Environment δ φ} {definition other : Definition}

/-- What a definition has passed before its modules are registered. -/
structure Scanned (env : Environment δ φ) (definition : Definition) : Prop where
  metadata : validateMetadata env.isValid definition.metadata = .ok ()
  modules : definition.modules ≠ []
  unique : Unique definition.modules

/-- The registrations of a scanned definition. -/
theorem inspect_scanned (hc : c.Lawful) (h : Scanned env definition) :
    inspect c env .live definition =
      (((canonicalRegistrations c definition.modules).foldlM (register c env) ([], [])).mapError .register).bind
        fun held => project env definition.metadata (canonicalRegistrations c definition.modules) held.2 := by
  have hmodules : refuseIf (definition.modules = []) InspectError.noModules = .ok () :=
    refuseIf_eq_ok.mpr h.modules
  unfold inspect
  rw [h.metadata, (preScan_ok_iff hc).mpr h.unique, hmodules]
  rfl

theorem modules_eq_nil_iff (h : Reordered definition other) : definition.modules = [] ↔ other.modules = [] := by
  obtain ⟨modules, hsame, hperm⟩ := h.modules
  have hlength : definition.modules.length = other.modules.length := hsame.length_eq.trans hperm.length_eq
  rw [← List.length_eq_zero_iff, ← List.length_eq_zero_iff, hlength]

theorem Scanned.reordered (hscanned : Scanned env definition) (h : Reordered definition other) :
    Scanned env other where
  metadata := h.metadata ▸ hscanned.metadata
  modules := fun hnil => hscanned.modules ((modules_eq_nil_iff h).mpr hnil)
  unique := by
    have hscan := preScan_reordered steady_lawful steady_lawful h
    rw [(preScan_ok_iff steady_lawful).mpr hscanned.unique] at hscan
    exact (preScan_ok_iff steady_lawful).mp hscan.symm

theorem forall₂_append {α β : Type} {R : α → β → Prop} {a : α} {before after : List α} :
    ∀ {others : List β}, List.Forall₂ R (before ++ a :: after) others →
      ∃ before' b after', others = before' ++ b :: after' ∧ List.Forall₂ R before before' ∧ R a b := by
  induction before with
  | nil =>
    intro others h
    cases h with
    | cons hab htail => exact ⟨[], _, _, rfl, .nil, hab⟩
  | cons x before ih =>
    intro others h
    cases h with
    | cons hxy htail =>
      obtain ⟨before', b, after', rfl, hbefore, hab⟩ := ih htail
      exact ⟨_ :: before', b, after', rfl, .cons hxy hbefore, hab⟩

/-- The Host holds what was registered. -/
theorem foldlM_register_held : ∀ {registrations : List Registration} {held next : Held δ},
    registrations.foldlM (register steady env) held = .ok next → next.1 = held.1 ++ registrations := by
  intro registrations
  induction registrations with
  | nil =>
    intro held next h
    cases h
    exact (List.append_nil _).symm
  | cons registration rest ih =>
    intro held next h
    rw [List.foldlM_cons] at h
    obtain ⟨middle, hmiddle, h⟩ := bind_eq_ok.mp h
    obtain ⟨-, prepared, -, -, rfl⟩ := (register_ok_iff steady_lawful).mp hmiddle
    rw [ih h, List.append_assoc, List.singleton_append]

/-- A registration that is reached is reached in every order. -/
theorem exists_reached (hc : c.Lawful) (hscanned : Scanned env definition) {before after : List Registration}
    {registration : Registration} {held : Held δ}
    (hsplit : canonicalRegistrations steady definition.modules = before ++ registration :: after)
    (hheld : before.foldlM (register steady env) ([], []) = .ok held) :
    ∃ reached, AlikeRegistration registration reached ∧ reached.manifest.id ∉ moduleIDs held.1 ∧
      ∀ reason, register c env held reached = .error reason →
        inspect c env .live definition = .error (.register reason) := by
  have halike := canonicalRegistrations_alike steady_lawful hc (Reordered.refl definition) hscanned.unique
  rw [hsplit] at halike
  obtain ⟨before', reached, after', hsplit', hbefore, hreached⟩ := forall₂_append halike
  obtain ⟨hheld', rfl⟩ := foldlM_register_ok steady_lawful hc hbefore hheld
  refine ⟨reached, hreached, ?_, fun reason hreason => ?_⟩
  · -- the Host holds the registrations before, whose ids are others
    have hids : (moduleIDs (before ++ reached :: after')).Nodup := by
      rw [← hsplit']
      have hperm : (moduleIDs (canonicalRegistrations c definition.modules)).Perm
          (moduleIDs definition.modules) := by
        unfold moduleIDs canonicalRegistrations
        refine ((sortOn_perm _ _).map _).trans ?_
        rw [List.map_map]
        exact List.Perm.refl _
      exact hperm.nodup_iff.mpr hscanned.unique.modules
    rw [foldlM_register_held hheld, List.nil_append]
    intro hmem
    have hnodup : (moduleIDs before ++ reached.manifest.id :: moduleIDs after').Nodup := by
      have heq : moduleIDs (before ++ reached :: after') =
          moduleIDs before ++ reached.manifest.id :: moduleIDs after' := by
        simp [moduleIDs]
      rw [← heq]
      exact hids
    exact (List.nodup_append.mp hnodup).2.2 _ hmem _ List.mem_cons_self rfl
  · rw [inspect_scanned hc hscanned, hsplit', List.foldlM_append, hheld']
    show ((((reached :: after').foldlM (register c env) held).mapError _).bind _) = _
    rw [List.foldlM_cons, hreason]
    rfl

/-- An action that an inspection comes to. -/
structure Reaches (env : Environment δ φ) (definition : Definition) (registration : Registration)
    (binding : ActionBinding) : Prop where
  scanned : Scanned env definition
  split : ∃ before after, canonicalRegistrations steady definition.modules = before ++ registration :: after ∧
    ∃ held, before.foldlM (register steady env) ([], []) = .ok held
  module : prepareModule env.isValid registration = .ok ()
  actions : ∃ before after, registration.actions = before ++ binding :: after ∧
    ∃ table, prepareActions steady env.deps registration.manifest.id [] before = .ok table
  newHandler : binding.newHandler = true

section
variable {registration : Registration} {binding : ActionBinding}

/-- What an inspection reports of an action that it comes to and refuses. -/
theorem Reaches.reported (h : Reaches env definition registration binding) (hc : c.Lawful) :
    ∃ found, AlikeBinding binding found ∧
      ∀ reason, prepareDescriptor c env.deps found.descriptor = .error reason →
        inspect c env .live definition =
          .error (.register (.descriptor registration.manifest.id binding.descriptor.id reason)) := by
  obtain ⟨before, after, hsplit, held, hheld⟩ := h.split
  obtain ⟨before', after', hactions, table, htable⟩ := h.actions
  obtain ⟨reached, halike, hnew, hinspect⟩ := exists_reached hc h.scanned hsplit hheld
  have hactions' := halike.actions
  rw [hactions] at hactions'
  obtain ⟨earlier, found, later, hfound, hearlier, hbinding⟩ := forall₂_append hactions'
  obtain ⟨htable', -⟩ := prepareActions_ok steady_lawful hc hearlier htable
  refine ⟨found, hbinding, fun reason hdescriptor => hinspect _ ?_⟩
  rw [register_eq hnew]
  unfold prepareRegistration
  rw [← prepareModule_alike halike, h.module, ← halike.manifest, hfound, prepareActions_append, htable']
  show ((prepareActions _ _ _ table (found :: later)).bind _) = _
  rw [prepareActions, ← hbinding.newHandler, h.newHandler, hdescriptor, ← hbinding.id]
  rfl

end

end

end Modary.Project.Inspection
