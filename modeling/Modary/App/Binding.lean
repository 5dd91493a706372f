import Modary.Action.Contract
import Modary.Module.Services

/-! # Application contracts

`Preflight` and `Start` of an application: the checks on its definition, the static contract with its
fingerprint, and what a plan of HTTP routes asks of the application it is to be composed over. -/

namespace Modary.App.Binding

open Modary.Lib.GoText Modary.Lib.JsonValue Modary.Lib.JsonText Modary.Lib.Sorting
open Modary.Module.Manifests Modary.Module.Verify
open Modary.Module.Services hiding Value
open Modary.Action.Contract (Descriptor Dependencies PreparedDescriptor prepareDescriptor field written
  spelt sortOn_eq_iff eq_of_map_eq text_encoded_inj)
open Modary.Action.Canonical (Value)

/-! ### Definitions -/

def maxMetadataNameRunes : ℕ := 160

def maxMetadataVersionRunes : ℕ := 128

/-- `Metadata`. -/
structure Metadata where
  id : GoString
  name : GoString
  version : GoString
  deriving DecidableEq, Repr

/-- `ActionBinding`: `newHandler` says whether it has a handler factory. -/
structure ActionBinding where
  descriptor : Descriptor
  newHandler : Bool
  deriving DecidableEq, Repr

/-- `Registration`: `start` says whether it has a start callback. -/
structure Registration where
  manifest : Manifest
  actions : List ActionBinding
  migrations : List MigrationSource
  start : Bool
  deriving DecidableEq, Repr

/-- `Definition`. -/
structure Definition where
  metadata : Metadata
  modules : List Registration
  deriving DecidableEq, Repr

/-- `Options`, with their durations in nanoseconds. -/
structure Options where
  callbackTimeout : ℤ
  planTTL : ℤ
  auditTimeout : ℤ
  rollbackTimeout : ℤ
  skipMigrations : Bool
  deriving DecidableEq, Repr

/-- The code that `Preflight` calls: what `PrepareDescriptor` takes, `semver.IsValid`, and
`sha256.Sum256`. -/
structure Environment (δ φ : Type) where
  deps : Dependencies δ
  isValid : GoString → Bool
  sum256 : List Rune → φ

/-- Why the metadata of an application are refused. -/
inductive MetadataRefusal
  | id (value : GoString)
  | text (message : String)
  | version (value : GoString)
  deriving DecidableEq, Repr

/-- Why the catalog of a Host is refused. -/
inductive CatalogRefusal
  | unprepared (moduleID action : GoString)
  | graph (reason : VerifyError)

/-- Why `Preflight` refuses. -/
inductive Refusal
  | options (message : String)
  | metadata (reason : MetadataRefusal)
  | noModules
  | host (message : String)
  | register (reason : HostError)
  | catalog (reason : CatalogRefusal)

/-- `validateMetadataText`. -/
def validateMetadataText (name : String) (value : GoString) (limit : ℕ) : Except String Unit :=
  validateText ("application metadata " ++ name) value true limit isControl

/-- `ValidateMetadata`. -/
def validateMetadata (isValid : GoString → Bool) (metadata : Metadata) :
    Except MetadataRefusal Unit := do
  refuseIf (validName metadata.id.runes = false) (.id metadata.id)
  (validateMetadataText "name" metadata.name maxMetadataNameRunes).mapError .text
  (validateMetadataText "version" metadata.version maxMetadataVersionRunes).mapError .text
  refuseIf (hasCoreVersion metadata.version = false ∨ isValid (tagged metadata.version) = false)
    (.version metadata.version)

/-- `validateStartOptions`. -/
def validateStartOptions (options : Options) : Except String Unit := do
  refuseIf (options.callbackTimeout < 0) "cleanup callback timeout cannot be negative"
  refuseIf (options.planTTL < 0) "plan TTL cannot be negative"
  refuseIf (options.auditTimeout < 0) "audit timeout cannot be negative"
  refuseIf (options.rollbackTimeout < 0) "rollback timeout cannot be negative"

/-- The checks of `NewHostWithOptions`. -/
def validateHostOptions (options : Options) : Except String Unit := do
  refuseIf (options.callbackTimeout < 0) "shutdown callback timeout cannot be negative"
  refuseIf (options.planTTL < 0) "plan TTL cannot be negative"
  refuseIf (options.auditTimeout < 0) "audit timeout cannot be negative"

/-! ### The catalog -/

/-- `CatalogEntry`. -/
structure CatalogEntry (δ : Type) where
  descriptor : Descriptor
  moduleID : GoString
  contractHash : δ

variable {δ φ : Type}

/-- A registration as the Host holds it. -/
def Registration.held (deps : Dependencies δ) (registration : Registration) :
    Modary.Module.Services.Registration where
  manifest := registration.manifest
  actions := registration.actions.map fun binding =>
    ⟨binding.descriptor.id, (prepareDescriptor deps binding.descriptor).toOption.isSome,
      binding.newHandler⟩
  migrations := registration.migrations
  start := registration.start

/-- The table of the prepared contracts of a registration, by the ids of its actions. -/
def Registration.prepared (deps : Dependencies δ) (registration : Registration) :
    List (GoString × PreparedDescriptor δ) :=
  registration.actions.filterMap fun binding =>
    (prepareDescriptor deps binding.descriptor).toOption.map fun contract =>
      (binding.descriptor.id, contract)

/-- `Register` on a new Host: the prepared contracts of all registrations, or none. -/
def register (env : Environment δ φ) (options : Options) (registrations : List Registration) :
    Except HostError (List (GoString × PreparedDescriptor δ)) := do
  let _ ← (Host.create options.skipMigrations).register env.isValid
    (registrations.map (Registration.held env.deps))
  return registrations.flatMap (Registration.prepared env.deps)

/-- The entry of an action, from the table. -/
def entryOf (prepared : List (GoString × PreparedDescriptor δ)) (moduleID : GoString)
    (binding : ActionBinding) : Except CatalogRefusal (CatalogEntry δ) :=
  match prepared.lookup binding.descriptor.id with
  | none => .error (.unprepared moduleID binding.descriptor.id)
  | some contract => .ok ⟨contract.descriptor, moduleID, contract.contractHash⟩

/-- `Catalog`, that is `validateRegistrations`: the ids are the keys of the table, and sort it. -/
def catalogOf (env : Environment δ φ) (registrations : List Registration)
    (prepared : List (GoString × PreparedDescriptor δ)) :
    Except CatalogRefusal (List (CatalogEntry δ)) := do
  let held := sortOn (fun registration : Registration => registration.manifest.id.runes) registrations
  let entries ← held.mapM fun registration =>
    registration.actions.mapM (entryOf prepared registration.manifest.id)
  let _ ← (verify env.isValid (held.map Registration.manifest)).mapError .graph
  return sortOn (fun entry : CatalogEntry δ => entry.descriptor.id.runes) entries.flatten

/-! ### Contracts -/

/-- `ModuleContract`. -/
structure ModuleContract where
  id : GoString
  version : GoString
  type : GoString
  requires : List GoString
  provides : List GoString
  deriving DecidableEq, Repr

/-- `Contract`. -/
structure Contract (δ φ : Type) where
  metadata : Metadata
  modules : List ModuleContract
  catalog : List (CatalogEntry δ)
  providers : GoString → Option GoString
  fingerprint : φ

/-- The contract of a module: its capabilities are in order. -/
def moduleContract (manifest : Manifest) : ModuleContract where
  id := manifest.id
  version := manifest.version
  type := manifest.type
  requires := sortOn GoString.runes manifest.requires
  provides := sortOn GoString.runes manifest.provides

/-- The capabilities of a contract as `json.Marshal` writes them: where there are none the slice is
nil. -/
def writtenCapabilities (capabilities : List GoString) : Doc :=
  if capabilities = [] then .null else .arr (capabilities.map written)

/-- `ModuleContract`, as `json.Marshal` writes it. -/
def writtenModule (contract : ModuleContract) : Doc :=
  .obj [field "ID" (written contract.id), field "Version" (written contract.version),
    field "Type" (written contract.type), field "Requires" (writtenCapabilities contract.requires),
    field "Provides" (writtenCapabilities contract.provides)]

/-- `Metadata`, as `json.Marshal` writes it. -/
def writtenMetadata (metadata : Metadata) : Doc :=
  .obj [field "id" (written metadata.id), field "name" (written metadata.name),
    field "version" (written metadata.version)]

/-- The `fingerprintInput`. -/
def fingerprintInput (metadata : Metadata) (contracts : List ModuleContract) : Doc :=
  .obj [field "Metadata" (writtenMetadata metadata),
    field "Modules" (.arr (contracts.map writtenModule))]

/-- The module contracts of a definition, by id. -/
def moduleContracts (registrations : List Registration) : List ModuleContract :=
  sortOn (fun contract : ModuleContract => contract.id.runes)
    (registrations.map fun registration => moduleContract registration.manifest)

/-- `newContract`. -/
def newContract (env : Environment δ φ) (metadata : Metadata) (registrations : List Registration)
    (catalog : List (CatalogEntry δ)) : Contract δ φ where
  metadata := metadata
  modules := moduleContracts registrations
  catalog := catalog
  providers := registrations.foldl (fun providers registration =>
    registration.manifest.provides.foldl (fun providers capability =>
      Function.update providers capability (some registration.manifest.id)) providers) fun _ => none
  fingerprint := env.sum256 (fingerprintInput metadata (moduleContracts registrations)).text

/-- `prepare`, that is `Preflight`. -/
def preflight (env : Environment δ φ) (definition : Definition) (options : Options) :
    Except Refusal (Contract δ φ) := do
  (validateStartOptions options).mapError .options
  (validateMetadata env.isValid definition.metadata).mapError .metadata
  refuseIf (definition.modules = []) .noModules
  (validateHostOptions options).mapError .host
  let prepared ← (register env options definition.modules).mapError .register
  let catalog ← (catalogOf env definition.modules prepared).mapError .catalog
  return newContract env definition.metadata definition.modules catalog

/-! ### Applications -/

/-- `Application`, without its facades. -/
structure Application (δ φ : Type) where
  metadata : Metadata
  catalog : List (CatalogEntry δ)
  contractFingerprint : φ

/-- How the lifecycle of a startup goes: whether it is given a context, what `Start` and `Assemble` of
the Host answer, and whether the context still lives at each check between them. -/
structure Startup where
  context : Bool
  started : Bool
  liveStarted : Bool
  assembled : Bool
  liveAssembled : Bool
  liveFinally : Bool

/-- Why `Start` refuses. -/
inductive StartError
  | contextRequired
  | prepare (reason : Refusal)
  | startModules
  | assembleServices
  | cancelled

/-- `Start`. -/
def start (env : Environment δ φ) (definition : Definition) (options : Options) (startup : Startup) :
    Except StartError (Application δ φ) := do
  refuseIf (startup.context = false) .contextRequired
  let contract ← (preflight env definition options).mapError .prepare
  refuseIf (startup.started = false) .startModules
  refuseIf (startup.liveStarted = false) .cancelled
  refuseIf (startup.assembled = false) .assembleServices
  refuseIf (startup.liveAssembled = false) .cancelled
  refuseIf (startup.liveFinally = false) .cancelled
  return ⟨definition.metadata, contract.catalog, contract.fingerprint⟩

/-- `Binds`. -/
def Contract.binds [DecidableEq φ] (contract : Contract δ φ) (application : Option (Application δ φ)) :
    Bool :=
  match application with
  | none => false
  | some application => contract.fingerprint = application.contractFingerprint

/-- Why a plan is not composed over an application. -/
inductive HandlerError
  | contextRequired
  | planMismatch
  | applicationUnavailable
  deriving DecidableEq, Repr

/-- `Plan.Handler` up to its first builder: the application that all of its builders get. -/
def handlerApplication [DecidableEq φ] (context : Bool) (plan : Option (Contract δ φ))
    (application : Option (Application δ φ)) (ready : Bool) :
    Except HandlerError (Application δ φ) := do
  refuseIf (context = false) .contextRequired
  match plan, application with
  | some contract, some application =>
    refuseIf (contract.binds (some application) = false) .planMismatch
    refuseIf (ready = false) .applicationUnavailable
    return application
  | _, _ => .error .planMismatch

/-! ### Registered actions -/

section
variable {isValid : GoString → Bool}

/-- What a registration that is prepared has passed. -/
theorem prepareActions_ok {id : GoString} {actions : List Modary.Module.Services.ActionBinding} :
    ∀ {seen ids : List GoString}, prepareActions id seen actions = .ok ids → seen.Nodup →
      ids = seen ++ actions.map (·.id) ∧ ids.Nodup ∧ ∀ binding ∈ actions, binding.accepted = true := by
  induction actions with
  | nil =>
    intro seen ids h hseen
    cases h
    exact ⟨(List.append_nil seen).symm, hseen, by simp⟩
  | cons binding rest ih =>
    intro seen ids h hseen
    obtain ⟨_, -, h⟩ := bind_eq_ok.mp h
    obtain ⟨_, haccepted, h⟩ := bind_eq_ok.mp h
    obtain ⟨_, hnew, h⟩ := bind_eq_ok.mp h
    rw [refuseIf_eq_ok] at haccepted hnew
    have hnodup : (seen ++ [binding.id]).Nodup := by
      refine List.nodup_append.mpr ⟨hseen, List.nodup_singleton _, ?_⟩
      intro a ha b hb hab
      rw [List.mem_singleton] at hb
      exact hnew (hb ▸ hab ▸ ha)
    obtain ⟨hids, hnodup, hrest⟩ := ih h hnodup
    refine ⟨by simpa using hids, hnodup, ?_⟩
    intro other hother
    rcases List.mem_cons.mp hother with rfl | hother
    · exact eq_true_of_ne_false haccepted
    · exact hrest other hother

/-- The ids of the actions of registrations. -/
def actionIDs (registrations : List Modary.Module.Services.Registration) : List GoString :=
  registrations.flatMap fun registration => registration.actions.map (·.id)

theorem not_mem_of_actionOwner {registrations : List Modary.Module.Services.Registration}
    {action : GoString} (h : (actionOwner registrations action).isSome = false) :
    action ∉ actionIDs registrations := by
  intro hmem
  obtain ⟨registration, hregistration, hmem⟩ := List.mem_flatMap.mp hmem
  obtain ⟨binding, hbinding, rfl⟩ := List.mem_map.mp hmem
  rw [actionOwner, Option.isSome_map, Bool.eq_false_iff, ne_eq, List.find?_isSome] at h
  exact h ⟨registration, hregistration, List.any_eq_true.mpr ⟨binding, hbinding, by simp⟩⟩

/-- One round of `Register` keeps the ids of the actions apart. -/
theorem registerOne_ok {held held' : List Modary.Module.Services.Registration × List GoString}
    {registration : Modary.Module.Services.Registration}
    (h : registerOne isValid held registration = .ok held') (hnodup : (actionIDs held.1).Nodup) :
    held'.1 = held.1 ++ [registration] ∧ (actionIDs held'.1).Nodup ∧
      ∀ binding ∈ registration.actions, binding.accepted = true := by
  obtain ⟨_, -, h⟩ := bind_eq_ok.mp h
  obtain ⟨prepared, hprepared, h⟩ := bind_eq_ok.mp h
  obtain ⟨_, -, hprepared⟩ := bind_eq_ok.mp hprepared
  obtain ⟨_, -, hprepared⟩ := bind_eq_ok.mp hprepared
  obtain ⟨_, -, hprepared⟩ := bind_eq_ok.mp hprepared
  obtain ⟨hids, hown, haccepted⟩ := prepareActions_ok hprepared List.nodup_nil
  rw [List.nil_append] at hids
  cases hfind : prepared.find? fun action => (actionOwner held.1 action).isSome with
  | some action =>
    simp only [hfind] at h
    cases h
  | none =>
    simp only [hfind] at h
    cases h
    refine ⟨rfl, ?_, haccepted⟩
    have happend : actionIDs (held.1 ++ [registration]) = actionIDs held.1 ++ prepared := by
      simp [actionIDs, hids]
    rw [happend]
    refine List.nodup_append.mpr ⟨hnodup, hown, ?_⟩
    rintro a ha b hb rfl
    have hfree := List.find?_eq_none.mp hfind a hb
    exact not_mem_of_actionOwner (by simpa using hfree) ha

/-- **Registered actions have ids of their own**, and their descriptors are accepted. -/
theorem foldlM_registerOne_ok {registrations : List Modary.Module.Services.Registration} :
    ∀ {held held' : List Modary.Module.Services.Registration × List GoString},
      registrations.foldlM (registerOne isValid) held = .ok held' → (actionIDs held.1).Nodup →
      held'.1 = held.1 ++ registrations ∧ (actionIDs held'.1).Nodup ∧
        ∀ registration ∈ registrations, ∀ binding ∈ registration.actions, binding.accepted = true := by
  induction registrations with
  | nil =>
    intro held held' h hnodup
    cases h
    exact ⟨(List.append_nil _).symm, hnodup, by simp⟩
  | cons registration rest ih =>
    intro held held' h hnodup
    rw [List.foldlM_cons] at h
    obtain ⟨next, hnext, h⟩ := bind_eq_ok.mp h
    obtain ⟨hheld, hnodup, haccepted⟩ := registerOne_ok hnext hnodup
    obtain ⟨hheld', hnodup, hrest⟩ := ih h hnodup
    refine ⟨by rw [hheld', hheld, List.append_assoc, List.singleton_append], hnodup, ?_⟩
    intro other hother
    rcases List.mem_cons.mp hother with rfl | hother
    · exact haccepted
    · exact hrest other hother

end

/-! ### The catalog of a definition -/

/-- The definition declares an action with this contract, in this module. -/
def Definition.Declares (deps : Dependencies δ) (definition : Definition) (owner : GoString) (hash : δ) :
    Prop :=
  ∃ registration ∈ definition.modules, ∃ binding ∈ registration.actions, ∃ contract,
    prepareDescriptor deps binding.descriptor = .ok contract ∧
      registration.manifest.id = owner ∧ contract.contractHash = hash

/-- The catalog lists an action with this contract, under this owner. -/
def Lists (catalog : List (CatalogEntry δ)) (owner : GoString) (hash : δ) : Prop :=
  ∃ entry ∈ catalog, entry.moduleID = owner ∧ entry.contractHash = hash

section
variable {env : Environment δ φ} {options : Options} {registrations : List Registration}
  {prepared : List (GoString × PreparedDescriptor δ)}

theorem lookup_eq_some_of_nodup {α β : Type} [BEq α] [LawfulBEq α] {a : α} {b : β} {l : List (α × β)}
    (h : (l.map Prod.fst).Nodup) (hmem : (a, b) ∈ l) : l.lookup a = some b := by
  induction l with
  | nil => cases hmem
  | cons entry rest ih =>
    obtain ⟨a', b'⟩ := entry
    rw [List.map_cons, List.nodup_cons] at h
    rw [List.lookup_cons]
    rcases List.mem_cons.mp hmem with heq | hmem
    · cases heq
      simp
    · have hne : a ≠ a' := fun heq => h.1 (heq ▸ List.mem_map.mpr ⟨_, hmem, rfl⟩)
      rw [beq_eq_false_iff_ne.mpr hne]
      exact ih h.2 hmem

/-- Once registered, every action is found in the table with its own contract. -/
theorem register_ok (h : register env options registrations = .ok prepared) :
    ∀ registration ∈ registrations, ∀ binding ∈ registration.actions, ∃ contract,
      prepareDescriptor env.deps binding.descriptor = .ok contract ∧
        prepared.lookup binding.descriptor.id = some contract := by
  obtain ⟨host, hhost, h⟩ := bind_eq_ok.mp h
  cases h
  obtain ⟨_, -, hhost⟩ := bind_eq_ok.mp hhost
  obtain ⟨held, hheld, -⟩ := bind_eq_ok.mp hhost
  obtain ⟨hall, hnodup, haccepted⟩ := foldlM_registerOne_ok hheld List.nodup_nil
  have hcontract : ∀ registration ∈ registrations, ∀ binding ∈ registration.actions, ∃ contract,
      prepareDescriptor env.deps binding.descriptor = .ok contract := by
    intro registration hregistration binding hbinding
    have hsome := haccepted _ (List.mem_map.mpr ⟨registration, hregistration, rfl⟩) _
      (List.mem_map.mpr ⟨binding, hbinding, rfl⟩)
    cases hc : prepareDescriptor env.deps binding.descriptor with
    | error reason =>
      simp only [hc] at hsome
      cases hsome
    | ok contract => exact ⟨contract, rfl⟩
  have hkeys : (registrations.flatMap (Registration.prepared env.deps)).map Prod.fst =
      actionIDs (registrations.map (Registration.held env.deps)) := by
    rw [actionIDs, List.map_flatMap, List.flatMap_map]
    refine List.flatMap_congr fun registration hregistration => ?_
    rw [Registration.prepared, Registration.held, List.map_map, List.map_filterMap]
    refine List.filterMap_eq_map_iff_forall_eq_some.mpr fun binding hbinding => ?_
    obtain ⟨contract, hc⟩ := hcontract registration hregistration binding hbinding
    rw [hc]
    rfl
  intro registration hregistration binding hbinding
  obtain ⟨contract, hc⟩ := hcontract registration hregistration binding hbinding
  refine ⟨contract, hc, lookup_eq_some_of_nodup ?_ ?_⟩
  · rw [hkeys]
    rw [hall] at hnodup
    exact hnodup
  · refine List.mem_flatMap.mpr ⟨registration, hregistration, List.mem_filterMap.mpr ⟨binding, hbinding, ?_⟩⟩
    rw [hc]
    rfl

/-- **The catalog lists what the definition declares.** -/
theorem lists_iff {definition : Definition} {catalog : List (CatalogEntry δ)}
    (hprepared : register env options definition.modules = .ok prepared)
    (h : catalogOf env definition.modules prepared = .ok catalog) (owner : GoString) (hash : δ) :
    Lists catalog owner hash ↔ definition.Declares env.deps owner hash := by
  obtain ⟨entries, hentries, h⟩ := bind_eq_ok.mp h
  obtain ⟨_, -, h⟩ := bind_eq_ok.mp h
  cases h
  have hentry : ∀ registration ∈ definition.modules, ∀ binding ∈ registration.actions, ∃ contract,
      prepareDescriptor env.deps binding.descriptor = .ok contract ∧
        entryOf prepared registration.manifest.id binding =
          .ok ⟨contract.descriptor, registration.manifest.id, contract.contractHash⟩ := by
    intro registration hregistration binding hbinding
    obtain ⟨contract, hc, hlookup⟩ := register_ok hprepared registration hregistration binding hbinding
    refine ⟨contract, hc, ?_⟩
    rw [entryOf, hlookup]
  obtain ⟨hforth, hback⟩ := mem_of_mapM_eq_ok hentries
  constructor
  · rintro ⟨entry, hmem, hid, hhash⟩
    obtain ⟨part, hpart, hmem⟩ := List.mem_flatten.mp (mem_sortOn.mp hmem)
    obtain ⟨registration, hregistration, hpart⟩ := hback part hpart
    obtain ⟨binding, hbinding, he⟩ := (mem_of_mapM_eq_ok hpart).2 entry hmem
    rw [mem_sortOn] at hregistration
    obtain ⟨contract, hc, hown⟩ := hentry registration hregistration binding hbinding
    rw [hown] at he
    cases he
    exact ⟨registration, hregistration, binding, hbinding, contract, hc, hid, hhash⟩
  · rintro ⟨registration, hregistration, binding, hbinding, contract, hc, hid, hhash⟩
    obtain ⟨part, hpart, hpart'⟩ := hforth registration (mem_sortOn.mpr hregistration)
    obtain ⟨entry, hmem, he⟩ := (mem_of_mapM_eq_ok hpart').1 binding hbinding
    obtain ⟨contract', hc', hown⟩ := hentry registration hregistration binding hbinding
    rw [hown] at he
    cases he
    rw [hc] at hc'
    cases hc'
    exact ⟨_, mem_sortOn.mpr (List.mem_flatten.mpr ⟨part, hpart, hmem⟩), hid, hhash⟩

end

/-! ### The terms of an application -/

/-- What a module contract states: its capabilities are in no order. -/
structure ModuleTerms where
  id : GoString
  version : GoString
  type : GoString
  requires : Set GoString
  provides : Set GoString

def termsOf (manifest : Manifest) : ModuleTerms :=
  ⟨manifest.id, manifest.version, manifest.type, {c | c ∈ manifest.requires},
    {c | c ∈ manifest.provides}⟩

/-- The modules of a definition, in no order. -/
def Definition.terms (definition : Definition) : Set ModuleTerms :=
  {terms | ∃ registration ∈ definition.modules, termsOf registration.manifest = terms}

/-- Two definitions declare the same actions: the same contracts, under the same owners. -/
def SameActions (deps : Dependencies δ) (definition other : Definition) : Prop :=
  ∀ owner hash, definition.Declares deps owner hash ↔ other.Declares deps owner hash

/-- A manifest that passes: its texts are text, and no capability is in a list twice. -/
structure Sound (manifest : Manifest) : Prop where
  named : Named manifest
  version : IsText manifest.version
  type : IsText manifest.type
  requires_nodup : manifest.requires.Nodup

theorem isText_of_tagged {value : GoString} (h : IsText (tagged value)) : IsText value := by
  cases value with
  | utf8 s => exact ⟨s, rfl⟩
  | raw units =>
    obtain ⟨s, hs⟩ := h
    cases hs

theorem sound_of_validateManifest {isValid : GoString → Bool} {manifest : Manifest}
    (htext : ∀ value, isValid value = true → IsText value)
    (h : validateManifest isValid manifest = .ok ()) : Sound manifest := by
  have hnamed := named_of_validateManifest h
  simp only [validateManifest, bind_eq_ok] at h
  obtain ⟨_, -, _, -, _, hversion, _, htype, _, hrequires, -⟩ := h
  rw [refuseIf_eq_ok, not_or, Bool.not_eq_false, Bool.not_eq_false] at hversion
  rw [refuseIf_eq_ok] at htype
  refine ⟨hnamed, isText_of_tagged (htext _ hversion.2), ?_, (validateCapabilities_ok hrequires).1⟩
  by_cases hfeature : manifest.type = moduleTypeFeature
  · exact ⟨_, hfeature⟩
  · by_cases hadapter : manifest.type = moduleTypeAdapter
    · exact ⟨_, hadapter⟩
    · exact absurd ⟨hfeature, hadapter⟩ htype

theorem sortOn_runes_eq_iff {capabilities others : List GoString} (hnodup : capabilities.Nodup)
    (hnodup' : others.Nodup) (htext : ∀ c ∈ capabilities, IsText c) :
    sortOn GoString.runes capabilities = sortOn GoString.runes others ↔
      {c | c ∈ capabilities} = {c | c ∈ others} := by
  rw [sortOn_eq_iff hnodup hnodup' fun a ha b hb => (htext a ha).eq_of_runes (htext b hb), Set.ext_iff]
  exact Iff.rfl

/-- A module contract says what its manifest states. -/
theorem Sound.moduleContract_eq_iff {manifest other : Manifest} (h : Sound manifest) (h' : Sound other) :
    moduleContract manifest = moduleContract other ↔ termsOf manifest = termsOf other := by
  simp only [moduleContract, termsOf, ModuleContract.mk.injEq, ModuleTerms.mk.injEq,
    sortOn_runes_eq_iff h.requires_nodup h'.requires_nodup h.named.requires,
    sortOn_runes_eq_iff h.named.provides_nodup h'.named.provides_nodup h.named.provides]

/-- What the graph of a definition has passed. -/
structure Admitted (definition : Definition) : Prop where
  id : IsText definition.metadata.id
  name : IsText definition.metadata.name
  version : IsText definition.metadata.version
  sound : ∀ registration ∈ definition.modules, Sound registration.manifest
  ids_nodup : (definition.modules.map fun registration => registration.manifest.id).Nodup

/-- The contracts of one definition are among those of another exactly when its terms are. -/
theorem Admitted.contracts_subset_iff {definition other : Definition} (h : Admitted definition)
    (h' : Admitted other) :
    (∀ contract, contract ∈ definition.modules.map (fun registration =>
        moduleContract registration.manifest) →
      contract ∈ other.modules.map fun registration => moduleContract registration.manifest) ↔
      definition.terms ⊆ other.terms := by
  constructor
  · rintro hsub _ ⟨registration, hregistration, rfl⟩
    obtain ⟨registration', hregistration', hsame⟩ :=
      List.mem_map.mp (hsub _ (List.mem_map_of_mem hregistration))
    exact ⟨registration', hregistration',
      ((h'.sound _ hregistration').moduleContract_eq_iff (h.sound _ hregistration)).mp hsame⟩
  · rintro hsub contract hcontract
    obtain ⟨registration, hregistration, rfl⟩ := List.mem_map.mp hcontract
    obtain ⟨registration', hregistration', hsame⟩ := hsub ⟨registration, hregistration, rfl⟩
    exact List.mem_map.mpr ⟨registration', hregistration',
      ((h'.sound _ hregistration').moduleContract_eq_iff (h.sound _ hregistration)).mpr hsame⟩

/-- **The sorted module contracts tell apart the sets of modules.** -/
theorem Admitted.moduleContracts_eq_iff {definition other : Definition} (h : Admitted definition)
    (h' : Admitted other) :
    moduleContracts definition.modules = moduleContracts other.modules ↔
      definition.terms = other.terms := by
  have hnodup : ∀ {d : Definition}, Admitted d →
      (d.modules.map fun registration => moduleContract registration.manifest).Nodup := by
    intro d hd
    refine List.Nodup.of_map ModuleContract.id ?_
    rw [List.map_map]
    exact hd.ids_nodup
  have hkey : ∀ contract ∈ definition.modules.map fun registration => moduleContract registration.manifest,
      ∀ contract' ∈ definition.modules.map fun registration => moduleContract registration.manifest,
      contract.id.runes = contract'.id.runes → contract = contract' := by
    intro contract hcontract contract' hcontract' hid
    obtain ⟨registration, hregistration, rfl⟩ := List.mem_map.mp hcontract
    obtain ⟨registration', hregistration', rfl⟩ := List.mem_map.mp hcontract'
    have hids : registration.manifest.id = registration'.manifest.id :=
      (h.sound _ hregistration).named.id.eq_of_runes (h.sound _ hregistration').named.id hid
    rw [List.inj_on_of_nodup_map h.ids_nodup hregistration hregistration' hids]
  rw [moduleContracts, moduleContracts, sortOn_eq_iff (hnodup h) (hnodup h') hkey]
  constructor
  · intro heq
    exact Set.Subset.antisymm ((h.contracts_subset_iff h').mp fun c => (heq c).mp)
      ((h'.contracts_subset_iff h).mp fun c => (heq c).mpr)
  · intro heq c
    exact ⟨(h.contracts_subset_iff h').mpr heq.subset c, (h'.contracts_subset_iff h).mpr heq.superset c⟩

/-! ### The fingerprint -/

/-- The capabilities of a contract as a JSON value. -/
def capabilitiesValue (capabilities : List GoString) : Value :=
  if capabilities = [] then .null else .arr (capabilities.map fun c => .str (spelt c))

/-- A module contract as a JSON value. -/
def moduleValue (contract : ModuleContract) : Value :=
  .obj [("ID", .str (spelt contract.id)), ("Version", .str (spelt contract.version)),
    ("Type", .str (spelt contract.type)), ("Requires", capabilitiesValue contract.requires),
    ("Provides", capabilitiesValue contract.provides)]

/-- The input of the fingerprint as a JSON value. -/
def inputValue (metadata : Metadata) (contracts : List ModuleContract) : Value :=
  .obj [("Metadata", .obj [("id", .str (spelt metadata.id)), ("name", .str (spelt metadata.name)),
      ("version", .str (spelt metadata.version))]),
    ("Modules", .arr (contracts.map moduleValue))]

/-- The texts of a module contract are text. -/
structure Worded (contract : ModuleContract) : Prop where
  id : IsText contract.id
  version : IsText contract.version
  type : IsText contract.type
  requires : ∀ c ∈ contract.requires, IsText c
  provides : ∀ c ∈ contract.provides, IsText c

theorem Sound.worded {manifest : Manifest} (h : Sound manifest) : Worded (moduleContract manifest) :=
  ⟨h.named.id, h.version, h.type, fun c hc => h.named.requires c (mem_sortOn.mp hc),
    fun c hc => h.named.provides c (mem_sortOn.mp hc)⟩

theorem Admitted.worded {definition : Definition} (h : Admitted definition) :
    ∀ contract ∈ moduleContracts definition.modules, Worded contract := by
  intro contract hcontract
  obtain ⟨registration, hregistration, rfl⟩ := List.mem_map.mp (mem_sortOn.mp hcontract)
  exact (h.sound _ hregistration).worded

theorem written_eq {value : GoString} (h : IsText value) : written value = encoded (.str (spelt value)) :=
  Action.Contract.IsText.written_eq h

theorem spelt_inj {a b : GoString} (ha : IsText a) (hb : IsText b) : spelt a = spelt b ↔ a = b :=
  ⟨Action.Contract.IsText.spelt_inj ha hb, congrArg spelt⟩

theorem writtenCapabilities_eq {capabilities : List GoString} (h : ∀ c ∈ capabilities, IsText c) :
    writtenCapabilities capabilities = encoded (capabilitiesValue capabilities) := by
  have hmap : capabilities.map written = capabilities.map fun c => encoded (.str (spelt c)) :=
    List.map_congr_left fun c hc => written_eq (h c hc)
  unfold writtenCapabilities capabilitiesValue
  by_cases hnone : capabilities = []
  · rw [if_pos hnone, if_pos hnone]
    rfl
  · rw [if_neg hnone, if_neg hnone, hmap, encoded, encodedItems_eq_map, List.map_map]
    rfl

theorem Worded.writtenModule_eq {contract : ModuleContract} (h : Worded contract) :
    writtenModule contract = encoded (moduleValue contract) := by
  rw [writtenModule, written_eq h.id, written_eq h.version, written_eq h.type,
    writtenCapabilities_eq h.requires, writtenCapabilities_eq h.provides]
  rfl

theorem Admitted.fingerprintInput_eq {definition : Definition} (h : Admitted definition) :
    fingerprintInput definition.metadata (moduleContracts definition.modules) =
      encoded (inputValue definition.metadata (moduleContracts definition.modules)) := by
  have hmap : (moduleContracts definition.modules).map writtenModule =
      (moduleContracts definition.modules).map fun contract => encoded (moduleValue contract) :=
    List.map_congr_left fun contract hcontract => (h.worded contract hcontract).writtenModule_eq
  rw [fingerprintInput, writtenMetadata, written_eq h.id, written_eq h.name, written_eq h.version, hmap]
  simp [inputValue, encoded, encodedMembers_eq_map, encodedItems_eq_map, field, Function.comp_def]

theorem capabilitiesValue_inj {capabilities others : List GoString} (h : ∀ c ∈ capabilities, IsText c)
    (h' : ∀ c ∈ others, IsText c) (heq : capabilitiesValue capabilities = capabilitiesValue others) :
    capabilities = others := by
  unfold capabilitiesValue at heq
  split_ifs at heq with hnone hnone' hnone'
  · rw [hnone, hnone']
  · refine eq_of_map_eq (fun a ha b hb hab => ?_) (Json.arr.inj heq)
    exact (spelt_inj (h a ha) (h' b hb)).mp (Json.str.inj hab)

theorem Worded.moduleValue_inj {contract other : ModuleContract} (h : Worded contract) (h' : Worded other)
    (heq : moduleValue contract = moduleValue other) : contract = other := by
  simp only [moduleValue, Json.obj.injEq, List.cons.injEq, Prod.mk.injEq, Json.str.injEq, true_and,
    and_true] at heq
  obtain ⟨hid, hversion, htype, hrequires, hprovides⟩ := heq
  rw [spelt_inj h.id h'.id] at hid
  rw [spelt_inj h.version h'.version] at hversion
  rw [spelt_inj h.type h'.type] at htype
  have hrequires := capabilitiesValue_inj h.requires h'.requires hrequires
  have hprovides := capabilitiesValue_inj h.provides h'.provides hprovides
  cases contract
  cases other
  simp_all

theorem depth_inputValue_le (metadata : Metadata) (contracts : List ModuleContract) :
    depth (inputValue metadata contracts) ≤ maxNestingDepth := by
  have hcapabilities : ∀ capabilities, depth (capabilitiesValue capabilities) ≤ 1 := by
    intro capabilities
    have hitems : depthOfItems (capabilities.map fun c => (.str (spelt c) : Value)) = 0 := by
      induction capabilities with
      | nil => rfl
      | cons c rest ih => rw [List.map_cons, depthOfItems, ih]; rfl
    unfold capabilitiesValue
    split_ifs
    · exact Nat.zero_le _
    · rw [depth, hitems]
  have hmodule : ∀ contract, depth (moduleValue contract) ≤ 2 := by
    intro contract
    have hrequires := hcapabilities contract.requires
    have hprovides := hcapabilities contract.provides
    simp only [moduleValue, depth, depthOfMembers]
    omega
  have hmodules : depthOfItems (contracts.map moduleValue) ≤ 2 := by
    induction contracts with
    | nil => exact Nat.zero_le _
    | cons contract rest ih =>
      rw [List.map_cons, depthOfItems]
      exact max_le (hmodule contract) ih
  have hbound : 4 ≤ maxNestingDepth := by decide
  simp only [inputValue, depth, depthOfMembers]
  omega

/-- **The fingerprint covers the metadata and the modules**, and nothing else. -/
theorem Admitted.fingerprint_eq_iff {env : Environment δ φ} {definition other : Definition}
    {catalog catalog' : List (CatalogEntry δ)} (hsum : Function.Injective env.sum256)
    (h : Admitted definition) (h' : Admitted other) :
    (newContract env definition.metadata definition.modules catalog).fingerprint =
        (newContract env other.metadata other.modules catalog').fingerprint ↔
      definition.metadata = other.metadata ∧ definition.terms = other.terms := by
  rw [← h.moduleContracts_eq_iff h']
  show env.sum256 _ = env.sum256 _ ↔ _
  rw [hsum.eq_iff, h.fingerprintInput_eq, h'.fingerprintInput_eq]
  constructor
  · intro htext
    have hvalue := text_encoded_inj (depth_inputValue_le _ _) (depth_inputValue_le _ _) htext
    simp only [inputValue, Json.obj.injEq, List.cons.injEq, Prod.mk.injEq, Json.str.injEq, true_and,
      and_true, Json.arr.injEq, spelt_inj h.id h'.id, spelt_inj h.name h'.name,
      spelt_inj h.version h'.version] at hvalue
    obtain ⟨⟨hid, hname, hversion⟩, hmodules⟩ := hvalue
    constructor
    · cases hm : definition.metadata
      cases hm' : other.metadata
      simp_all
    · refine eq_of_map_eq (fun a ha b hb hab => ?_) hmodules
      exact (h.worded a ha).moduleValue_inj (h'.worded b hb) hab
  · rintro ⟨hmetadata, hmodules⟩
    rw [hmetadata, hmodules]

/-! ### Binding -/

/-- Two catalogs have the same owners and contract hashes. -/
def SameCatalog (catalog other : List (CatalogEntry δ)) : Prop :=
  ∀ owner hash, Lists catalog owner hash ↔ Lists other owner hash

section
variable {env : Environment δ φ} {definition other : Definition} {options options' : Options}
  {contract : Contract δ φ}

theorem admitted_of_catalogOf {prepared : List (GoString × PreparedDescriptor δ)}
    {catalog : List (CatalogEntry δ)} (htext : ∀ value, env.isValid value = true → IsText value)
    (hmetadata : validateMetadata env.isValid definition.metadata = .ok ())
    (h : catalogOf env definition.modules prepared = .ok catalog) : Admitted definition := by
  obtain ⟨_, hid, hmetadata⟩ := bind_eq_ok.mp hmetadata
  obtain ⟨_, hname, hmetadata⟩ := bind_eq_ok.mp hmetadata
  obtain ⟨_, hversion, -⟩ := bind_eq_ok.mp hmetadata
  rw [refuseIf_eq_ok, Bool.not_eq_false] at hid
  rw [mapError_eq_ok] at hname hversion
  obtain ⟨name, hname, -⟩ := validateText_ok hname
  obtain ⟨version, hversion, -⟩ := validateText_ok hversion
  obtain ⟨_, -, h⟩ := bind_eq_ok.mp h
  obtain ⟨graph, hgraph, -⟩ := bind_eq_ok.mp h
  rw [mapError_eq_ok] at hgraph
  obtain ⟨hvalid, hresolvable⟩ := verify_ok_iff.mp ⟨graph, hgraph⟩
  have hperm := (sortOn_perm (fun registration : Registration => registration.manifest.id.runes)
    definition.modules).map Registration.manifest
  refine ⟨isText_of_moduleIDPattern hid, ⟨name, hname⟩, ⟨version, hversion⟩, ?_, ?_⟩
  · intro registration hregistration
    refine sound_of_validateManifest htext (hvalid _ (hperm.mem_iff.mpr ?_))
    exact List.mem_map.mpr ⟨registration, hregistration, rfl⟩
  · have hids := (hperm.map Manifest.id).nodup_iff.mp hresolvable.ids
    rwa [List.map_map] at hids

/-- What an accepted definition gives. -/
theorem preflight_ok (htext : ∀ value, env.isValid value = true → IsText value)
    (h : preflight env definition options = .ok contract) :
    Admitted definition ∧
      (∃ catalog, contract = newContract env definition.metadata definition.modules catalog) ∧
      ∀ owner hash, Lists contract.catalog owner hash ↔ definition.Declares env.deps owner hash := by
  simp only [preflight, bind_eq_ok] at h
  obtain ⟨_, -, _, hmetadata, _, -, _, -, prepared, hprepared, catalog, hcatalog, h⟩ := h
  cases h
  rw [mapError_eq_ok] at hmetadata hprepared hcatalog
  exact ⟨admitted_of_catalogOf htext hmetadata hcatalog, ⟨catalog, rfl⟩, lists_iff hprepared hcatalog⟩

variable {startup : Startup} {application : Application δ φ}

/-- An application carries the contract of its definition. -/
theorem start_ok (h : start env definition options startup = .ok application) :
    ∃ contract, preflight env definition options = .ok contract ∧
      application = ⟨definition.metadata, contract.catalog, contract.fingerprint⟩ := by
  simp only [start, bind_eq_ok] at h
  obtain ⟨_, -, contract, hcontract, _, -, _, -, _, -, _, -, _, -, h⟩ := h
  cases h
  exact ⟨contract, mapError_eq_ok.mp hcontract, rfl⟩

/-- **What a contract binds**: the applications with its metadata and its modules. -/
theorem binds_iff_terms [DecidableEq φ] (hsum : Function.Injective env.sum256)
    (htext : ∀ value, env.isValid value = true → IsText value)
    (h : preflight env definition options = .ok contract)
    (h' : start env other options' startup = .ok application) :
    contract.binds (some application) = true ↔
      definition.metadata = other.metadata ∧ definition.terms = other.terms := by
  obtain ⟨contract', hcontract', rfl⟩ := start_ok h'
  obtain ⟨hadmitted, ⟨catalog, rfl⟩, -⟩ := preflight_ok htext h
  obtain ⟨hadmitted', ⟨catalog', rfl⟩, -⟩ := preflight_ok htext hcontract'
  rw [Contract.binds, decide_eq_true_iff]
  show (newContract env definition.metadata definition.modules catalog).fingerprint =
    (newContract env other.metadata other.modules catalog').fingerprint ↔ _
  exact hadmitted.fingerprint_eq_iff hsum hadmitted'

/-- The catalogs are the same when the definitions declare the same actions. -/
theorem sameCatalog_iff (htext : ∀ value, env.isValid value = true → IsText value)
    (h : preflight env definition options = .ok contract)
    (h' : start env other options' startup = .ok application) :
    SameCatalog contract.catalog application.catalog ↔ SameActions env.deps definition other := by
  obtain ⟨contract', hcontract', rfl⟩ := start_ok h'
  obtain ⟨-, -, hlists⟩ := preflight_ok htext h
  obtain ⟨-, -, hlists'⟩ := preflight_ok htext hcontract'
  refine forall₂_congr fun owner hash => ?_
  rw [hlists owner hash, hlists' owner hash]

variable [DecidableEq φ]

/-- A plan is composed over no application that its contract does not bind. -/
theorem handlerApplication_ok {context ready : Bool} {composed : Application δ φ}
    (h : handlerApplication context (some contract) (some application) ready = .ok composed) :
    composed = application ∧ contract.binds (some application) = true := by
  obtain ⟨_, -, h⟩ := bind_eq_ok.mp h
  obtain ⟨_, hbinds, h⟩ := bind_eq_ok.mp h
  obtain ⟨_, -, h⟩ := bind_eq_ok.mp h
  cases h
  rw [refuseIf_eq_ok, Bool.not_eq_false] at hbinds
  exact ⟨rfl, hbinds⟩

/-- The contract of the first definition binds an application of the second exactly when the two have
the same metadata, modules and catalog, and no plan of the first is composed over it otherwise. -/
def BindsFaithfully (contract : Contract δ φ) (definition other : Definition)
    (application : Application δ φ) : Prop :=
  (contract.binds (some application) = true ↔ definition.metadata = other.metadata ∧
    definition.terms = other.terms ∧ SameCatalog contract.catalog application.catalog) ∧
  ∀ context ready composed,
    handlerApplication context (some contract) (some application) ready = .ok composed →
      definition.metadata = other.metadata ∧ definition.terms = other.terms ∧
        SameCatalog contract.catalog composed.catalog

/-- **When contracts bind faithfully**: unless two definitions with the same metadata and the same
modules declare different actions. -/
theorem bindsFaithfully_iff (hsum : Function.Injective env.sum256)
    (htext : ∀ value, env.isValid value = true → IsText value)
    (h : preflight env definition options = .ok contract)
    (h' : start env other options' startup = .ok application) :
    BindsFaithfully contract definition other application ↔
      (definition.metadata = other.metadata → definition.terms = other.terms →
        SameActions env.deps definition other) := by
  have hbinds := binds_iff_terms hsum htext h h'
  have hcatalog := sameCatalog_iff htext h h'
  constructor
  · rintro ⟨hfaithful, -⟩ hmetadata hterms
    obtain ⟨-, -, hsame⟩ := hfaithful.mp (hbinds.mpr ⟨hmetadata, hterms⟩)
    exact hcatalog.mp hsame
  · intro hactions
    have hbound : contract.binds (some application) = true → definition.metadata = other.metadata ∧
        definition.terms = other.terms ∧ SameCatalog contract.catalog application.catalog := by
      intro hbound
      obtain ⟨hmetadata, hterms⟩ := hbinds.mp hbound
      exact ⟨hmetadata, hterms, hcatalog.mpr (hactions hmetadata hterms)⟩
    constructor
    · constructor
      · exact hbound
      · rintro ⟨hmetadata, hterms, -⟩
        exact hbinds.mpr ⟨hmetadata, hterms⟩
    · intro context ready composed hcomposed
      obtain ⟨rfl, hb⟩ := handlerApplication_ok hcomposed
      exact hbound hb

end

/-! ### A weaker permission -/

/-- A module with one action. -/
def serving (descriptor : Descriptor) : Registration where
  manifest := ⟨schemaVersion, .utf8 "notes", .utf8 "1.0.0", moduleTypeFeature, [], []⟩
  actions := [⟨descriptor, true⟩]
  migrations := []
  start := false

/-- An application with one module and one action. -/
def offering (descriptor : Descriptor) : Definition :=
  ⟨⟨.utf8 "app", .utf8 "App", .utf8 "1.0.0"⟩, [serving descriptor]⟩

/-- An action, and the same action under another permission. -/
def guarded : Descriptor := Action.Contract.plain

def unguarded : Descriptor := { guarded with permission := .utf8 "q" }

/-- One version is valid; contracts and fingerprints keep all that they are made from. -/
def trustingEnvironment : Environment (List Rune) (List Rune) where
  deps := Action.Contract.trusting
  isValid value := value = .utf8 "v1.0.0"
  sum256 := id

def defaultOptions : Options := ⟨0, 0, 0, 0, false⟩

def smooth : Startup := ⟨true, true, true, true, true, true⟩

theorem trustingEnvironment_texts :
    ∀ value, trustingEnvironment.isValid value = true → IsText value :=
  fun _ h => ⟨_, of_decide_eq_true h⟩

theorem offering_admitted : (∃ contract,
      preflight trustingEnvironment (offering guarded) defaultOptions = .ok contract) ∧
    ∃ application,
      start trustingEnvironment (offering unguarded) defaultOptions smooth = .ok application := by
  have hcontract : (preflight trustingEnvironment (offering guarded) defaultOptions).toOption.isSome =
      true := by decide +kernel
  have happlication : (start trustingEnvironment (offering unguarded) defaultOptions
      smooth).toOption.isSome = true := by decide +kernel
  constructor
  · cases h : preflight trustingEnvironment (offering guarded) defaultOptions with
    | error reason =>
      rw [h] at hcontract
      cases hcontract
    | ok contract => exact ⟨contract, rfl⟩
  · cases h : start trustingEnvironment (offering unguarded) defaultOptions smooth with
    | error reason =>
      rw [h] at happlication
      cases happlication
    | ok application => exact ⟨application, rfl⟩

theorem offering_terms (descriptor other : Descriptor) :
    (offering descriptor).terms = (offering other).terms := by
  ext terms
  simp [Definition.terms, offering, serving]

theorem offering_actions_differ :
    ¬ SameActions trustingEnvironment.deps (offering guarded) (offering unguarded) := by
  have hne : (prepareDescriptor Action.Contract.trusting guarded).toOption.map
      PreparedDescriptor.contractHash ≠ (prepareDescriptor Action.Contract.trusting
        unguarded).toOption.map PreparedDescriptor.contractHash := by decide +kernel
  have hsome : (prepareDescriptor Action.Contract.trusting guarded).toOption.isSome = true := by
    decide +kernel
  intro hsame
  cases hc : prepareDescriptor Action.Contract.trusting guarded with
  | error reason =>
    rw [hc] at hsome
    cases hsome
  | ok contract =>
    have hdeclared : (offering guarded).Declares trustingEnvironment.deps (.utf8 "notes")
        contract.contractHash :=
      ⟨serving guarded, List.mem_singleton_self _, ⟨guarded, true⟩, List.mem_singleton_self _, contract,
        hc, rfl, rfl⟩
    obtain ⟨registration, hregistration, binding, hbinding, contract', hc', -, hhash⟩ :=
      (hsame _ _).mp hdeclared
    obtain rfl := List.mem_singleton.mp hregistration
    obtain rfl := List.mem_singleton.mp hbinding
    refine hne ?_
    have hc' : prepareDescriptor Action.Contract.trusting unguarded = .ok contract' := hc'
    rw [hc, hc']
    exact congrArg some hhash.symm

/-- **A contract binds an application whose action asks for another permission.** -/
theorem binds_other_catalog : ∃ contract application,
    preflight trustingEnvironment (offering guarded) defaultOptions = .ok contract ∧
      start trustingEnvironment (offering unguarded) defaultOptions smooth = .ok application ∧
      contract.binds (some application) = true ∧
      ¬ SameCatalog contract.catalog application.catalog ∧
      ¬ BindsFaithfully contract (offering guarded) (offering unguarded) application := by
  obtain ⟨⟨contract, hcontract⟩, application, happlication⟩ := offering_admitted
  have hbinds := (binds_iff_terms Function.injective_id trustingEnvironment_texts hcontract
    happlication).mpr ⟨rfl, offering_terms guarded unguarded⟩
  have hcatalog : ¬ SameCatalog contract.catalog application.catalog := by
    rw [sameCatalog_iff trustingEnvironment_texts hcontract happlication]
    exact offering_actions_differ
  exact ⟨contract, application, hcontract, happlication, hbinds, hcatalog,
    fun hfaithful => hcatalog (hfaithful.1.mp hbinds).2.2⟩

theorem bindsFaithfully_offering : ∃ contract application,
    preflight trustingEnvironment (offering guarded) defaultOptions = .ok contract ∧
      start trustingEnvironment (offering unguarded) defaultOptions smooth = .ok application ∧
      (BindsFaithfully contract (offering guarded) (offering unguarded) application ↔
        ((offering guarded).metadata = (offering unguarded).metadata →
          (offering guarded).terms = (offering unguarded).terms →
            SameActions trustingEnvironment.deps (offering guarded) (offering unguarded))) := by
  obtain ⟨⟨contract, hcontract⟩, application, happlication⟩ := offering_admitted
  exact ⟨contract, application, hcontract, happlication,
    bindsFaithfully_iff Function.injective_id trustingEnvironment_texts hcontract happlication⟩

end Modary.App.Binding
