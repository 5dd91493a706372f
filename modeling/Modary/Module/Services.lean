import Modary.Module.Verify

/-! # The tables of a Module Host

What a Host keeps under its lock, and what one call of `Register`, `Assemble`, `Provide`, `Resolve`
or `OnStop` does to it. A key is the address of its identity; two keys are the same when the
identities are. -/

namespace Modary.Module.Services

open Modary.Lib.GoText Modary.Module.Manifests

/-! ### Keys and values -/

/-- `reflect.Type` of a service: the two internal ones, or one of the others. -/
inductive ValueType
  | control
  | persistence
  | named (index : ℕ)
  deriving DecidableEq, Repr

/-- `keyIdentity`, with the address that makes it unforgeable. -/
structure KeyIdentity where
  address : ℕ
  name : GoString
  capability : GoString
  valueType : ValueType
  deriving DecidableEq, Repr

/-- The value of a service. A `databasecontrol.Control` and a `runtimecontrol.Persistence` are
sealed: their methods return the parts they were made of. -/
inductive Value
  | nil
  | service (id : ℕ)
  | control (id : ℕ) (driver : GoString) (access store : Value)
  | persistence (id : ℕ) (plans idempotency transactions : Value)
  deriving DecidableEq, Repr

/-- `CapabilityDatabase`. -/
def capabilityDatabase : GoString := .utf8 "database"

/-- `databaseStoreKey`. -/
def databaseStoreKey : KeyIdentity := ⟨0, .utf8 "database.store", capabilityDatabase, .named 0⟩

/-- `actionDatabaseKey`. -/
def actionDatabaseKey : KeyIdentity :=
  ⟨1, .utf8 "database.governed-access", capabilityDatabase, .named 1⟩

/-- `authorizerKey`. -/
def authorizerKey : KeyIdentity :=
  ⟨7, .utf8 "authorization.authorizer", .utf8 "authorization", .named 7⟩

/-- `auditHookKey`. -/
def auditHookKey : KeyIdentity := ⟨8, .utf8 "audit.hook", .utf8 "audit", .named 8⟩

/-- The facades an Assembly may hold, in the order `assembleLocked` resolves them. -/
def facadeKeys : List KeyIdentity := [
  ⟨2, .utf8 "identity.resolver", .utf8 "identity", .named 2⟩,
  ⟨3, .utf8 "identity.password-authenticator", .utf8 "identity.passwords", .named 3⟩,
  ⟨4, .utf8 "identity.browser-authenticator", .utf8 "identity.browser", .named 4⟩,
  ⟨12, .utf8 "observability.service", .utf8 "observability", .named 12⟩,
  ⟨5, .utf8 "identity.session-manager", .utf8 "identity.sessions", .named 5⟩,
  ⟨6, .utf8 "identity.token-authenticator", .utf8 "identity.bearers", .named 6⟩,
  ⟨10, .utf8 "tasks.service", .utf8 "tasks", .named 10⟩,
  ⟨11, .utf8 "tasks.inspector", .utf8 "tasks.read", .named 11⟩,
  ⟨9, .utf8 "audit.reader", .utf8 "audit.read", .named 9⟩,
  databaseStoreKey,
  authorizerKey]

/-- The identities the package owns. -/
def canonicalKeys : List KeyIdentity := actionDatabaseKey :: auditHookKey :: facadeKeys

/-- `canonicalServiceIdentity`. -/
def canonicalServiceIdentity (name : GoString) : Option KeyIdentity :=
  canonicalKeys.find? fun key => key.name = name

/-- `databasecontrol.ServiceName`. -/
def databaseControlName : GoString := .utf8 "modary.database-control"

/-- `runtimecontrol.ServiceName`. -/
def actionPersistenceName : GoString := .utf8 "modary.action-persistence"

/-! ### Registrations -/

/-- An action of a module: `accepted` says whether `PrepareDescriptor` takes its descriptor. -/
structure ActionBinding where
  id : GoString
  accepted : Bool
  newHandler : Bool
  deriving DecidableEq, Repr

/-- A migration source: `files` says whether it still has any. -/
structure MigrationSource where
  driver : GoString
  files : Bool
  deriving DecidableEq, Repr

/-- A registration: `start` says whether it has a start callback. -/
structure Registration where
  manifest : Manifest
  actions : List ActionBinding
  migrations : List MigrationSource
  start : Bool
  deriving DecidableEq, Repr

/-- What `releaseStartupReferencesLocked` leaves of a registration. -/
def Registration.released (registration : Registration) : Registration :=
  { registration with
    start := false
    actions := registration.actions.map fun binding => { binding with newHandler := false }
    migrations := registration.migrations.map fun source => { source with files := false } }

/-! ### The Host -/

/-- `State`. -/
inductive State
  | new
  | starting
  | running
  | stopping
  | stopped
  | failed
  deriving DecidableEq, Repr

/-- The operations a state can refuse. -/
inductive Operation
  | registerModules
  | migrate
  | start
  | shutdown
  | provideServices
  | resolveServices
  | registerCleanup
  | assembleApplication
  deriving DecidableEq, Repr

/-- What the calls on a Host and its scopes are refused for, with the values of the messages. -/
inductive HostError
  | state (operation : Operation) (state : State)
  | invalidScope
  | invalidResolver
  | nilCleanup
  | manifest (refusal : Refusal)
  | migrationsUndeclared (id : GoString)
  | migrationDriver (id driver : GoString)
  | migrationFiles (id driver : GoString)
  | migrationRepeated (id driver : GoString)
  | noFactory (action id : GoString)
  | descriptor (id action : GoString)
  | actionRepeated (action id : GoString)
  | alreadyRegistered (id : GoString)
  | actionOwned (action owner id : GoString)
  | invalidKey
  | nilService (name : GoString)
  | reservedName (name : GoString)
  | cannotProvide (id capability name : GoString)
  | privilegedDatabase
  | alreadyProvided (name owner : GoString)
  | controlIncomplete
  | controlProvided (owner : GoString)
  | persistenceIncomplete
  | persistenceProvided (owner : GoString)
  | notDeclared (id capability name : GoString)
  | notAvailable (name : GoString)
  | keyMismatch (name : GoString)
  | wrongType (name : GoString)
  deriving DecidableEq, Repr

/-- `serviceRecord`. -/
structure ServiceRecord where
  key : KeyIdentity
  value : Value
  owner : GoString
  deriving DecidableEq, Repr

/-- `moduleRuntime`, with the scope and the resolvers made for it. A cleanup callback is the number
of its registration. -/
structure Runtime where
  id : GoString
  manifest : Manifest
  scope : Bool
  resolvers : List Bool
  services : List GoString
  cleanups : List ℕ
  active : Bool
  mutable : Bool
  cleaned : Bool
  deriving DecidableEq, Repr

/-- `assemblyGate`: whether facades can be entered, and how many calls are inside. -/
structure Gate where
  isOpen : Bool
  active : ℕ
  deriving DecidableEq, Repr

/-- The part of `actionruntime.Registry` that cleanup waits for. -/
structure Registry where
  revoked : Bool
  leases : ℕ
  deriving DecidableEq, Repr

/-- An Assembly: the services behind its facades, and the persistence behind its runtime. -/
structure Assembly where
  runtime : Option (Value × Value × Value)
  facades : List (GoString × Value)
  deriving DecidableEq, Repr

/-- `Host`. The module runtimes are numbered in the order they are made; `shutdownDone` counts how
often the channel was closed. -/
structure Host where
  state : State
  registrations : List Registration
  prepared : List GoString
  services : GoString → Option ServiceRecord
  started : List GoString
  runtimes : List ℕ
  database : Option Value
  databaseOwner : GoString
  persistence : Option Value
  persistenceOwner : GoString
  skipMigrations : Bool
  facades : Gate
  registry : Registry
  assembly : Option (Except HostError Assembly)
  startDone : Bool
  stopRequested : Bool
  shutdownDone : ℕ
  shutdownErr : Bool

/-- `NewHostWithOptions`. -/
def Host.create (skipMigrations : Bool) : Host where
  state := .new
  registrations := []
  prepared := []
  services := fun _ => none
  started := []
  runtimes := []
  database := none
  databaseOwner := .utf8 ""
  persistence := none
  persistenceOwner := .utf8 ""
  skipMigrations := skipMigrations
  facades := ⟨true, 0⟩
  registry := ⟨false, 0⟩
  assembly := none
  startDone := false
  stopRequested := false
  shutdownDone := 0
  shutdownErr := false

/-- `releaseStartupReferencesLocked`. -/
def Host.releaseStartupReferences (host : Host) : Host :=
  { host with registrations := host.registrations.map Registration.released }

/-! ### Register -/

/-- `migrationDriverPattern`. -/
def migrationDriverPattern (value : GoString) : Bool :=
  matchToken isLower (fun c => isLower c || isDigit c || c == '.' || c == '_' || c == '-') 62
    value.runes

/-- The migration sources of a registration, with the drivers met so far. -/
def checkMigrations (id : GoString) :
    List GoString → List MigrationSource → Except HostError Unit
  | _, [] => .ok ()
  | seen, source :: rest => do
    refuseIf (migrationDriverPattern source.driver = false) (.migrationDriver id source.driver)
    refuseIf (source.files = false) (.migrationFiles id source.driver)
    refuseIf (source.driver ∈ seen) (.migrationRepeated id source.driver)
    checkMigrations id (source.driver :: seen) rest

/-- The actions of a registration, with the ids met so far. -/
def prepareActions (id : GoString) :
    List GoString → List ActionBinding → Except HostError (List GoString)
  | seen, [] => .ok seen
  | seen, binding :: rest => do
    refuseIf (binding.newHandler = false) (.noFactory binding.id id)
    refuseIf (binding.accepted = false) (.descriptor id binding.id)
    refuseIf (binding.id ∈ seen) (.actionRepeated binding.id id)
    prepareActions id (seen ++ [binding.id]) rest

/-- `prepareRegistration`: the ids of its actions. -/
def prepareRegistration (isValid : GoString → Bool) (registration : Registration) :
    Except HostError (List GoString) := do
  let manifest := registration.manifest
  (validateManifest isValid manifest).mapError .manifest
  refuseIf (registration.migrations ≠ [] ∧ capabilityDatabase ∉ manifest.requires ∧
    capabilityDatabase ∉ manifest.provides) (.migrationsUndeclared manifest.id)
  checkMigrations manifest.id [] registration.migrations
  prepareActions manifest.id [] registration.actions

/-- The module among these that declares an action. -/
def actionOwner (registrations : List Registration) (action : GoString) : Option GoString :=
  (registrations.find? fun registration =>
    registration.actions.any fun binding => binding.id = action).map fun registration =>
      registration.manifest.id

/-- One round of `Register`, over what is registered and pending. -/
def registerOne (isValid : GoString → Bool) (held : List Registration × List GoString)
    (registration : Registration) : Except HostError (List Registration × List GoString) := do
  let id := registration.manifest.id
  refuseIf (id ∈ held.1.map fun other => other.manifest.id) (.alreadyRegistered id)
  let prepared ← prepareRegistration isValid registration
  match prepared.find? fun action => (actionOwner held.1 action).isSome with
  | some action => .error (.actionOwned action ((actionOwner held.1 action).getD default) id)
  | none => .ok (held.1 ++ [registration], held.2 ++ prepared)

/-- `Register`: all of the registrations or none. -/
def Host.register (isValid : GoString → Bool) (host : Host) (registrations : List Registration) :
    Except HostError Host := do
  refuseIf (host.state ≠ .new) (.state .registerModules host.state)
  let held ← registrations.foldlM (registerOne isValid) (host.registrations, host.prepared)
  .ok { host with registrations := held.1, prepared := held.2 }

/-! ### Provide -/

/-- Enter a service under the name of its key. -/
def Host.publish (host : Host) (record : ServiceRecord) : Host :=
  { host with services := Function.update host.services record.key.name (some record) }

/-- Refuse a name that has an owner. -/
def Host.vacant (host : Host) (name : GoString) : Except HostError Unit :=
  match host.services name with
  | some existing => .error (.alreadyProvided name existing.owner)
  | none => .ok ()

/-- `provideDatabaseServiceLocked`: the control, its store and its governed access. -/
def provideDatabaseService (host : Host) (runtime : Runtime) (key : KeyIdentity) (value : Value) :
    Except HostError (Host × Runtime) := do
  refuseIf (key.capability ≠ capabilityDatabase ∨ key.valueType ≠ .control)
    (.reservedName databaseControlName)
  match value with
  | .control _ _ access store => do
    refuseIf (access = .nil ∨ store = .nil) .controlIncomplete
    host.vacant databaseControlName
    host.vacant databaseStoreKey.name
    host.vacant actionDatabaseKey.name
    refuseIf (host.database ≠ none) (.controlProvided host.databaseOwner)
    let owner := runtime.manifest.id
    let published := ((host.publish ⟨key, value, owner⟩).publish
      ⟨databaseStoreKey, store, owner⟩).publish ⟨actionDatabaseKey, access, owner⟩
    .ok ({ published with database := some value, databaseOwner := owner },
      { runtime with services := runtime.services ++
          [databaseControlName, databaseStoreKey.name, actionDatabaseKey.name] })
  | _ => .error .controlIncomplete

/-- `provideActionPersistenceLocked`. -/
def provideActionPersistence (host : Host) (runtime : Runtime) (key : KeyIdentity)
    (value : Value) : Except HostError (Host × Runtime) := do
  refuseIf (key.capability ≠ capabilityDatabase ∨ key.valueType ≠ .persistence)
    (.reservedName actionPersistenceName)
  match value with
  | .persistence _ plans idempotency transactions => do
    refuseIf (plans = .nil ∨ idempotency = .nil ∨ transactions = .nil) .persistenceIncomplete
    host.vacant actionPersistenceName
    refuseIf (host.persistence ≠ none) (.persistenceProvided host.persistenceOwner)
    let owner := runtime.manifest.id
    .ok ({ host.publish ⟨key, value, owner⟩ with
            persistence := some value, persistenceOwner := owner },
      { runtime with services := runtime.services ++ [actionPersistenceName] })
  | _ => .error .persistenceIncomplete

/-- `provideService`, with an identity that may be missing. -/
def provideService (host : Host) (runtime : Runtime) (identity : Option KeyIdentity)
    (value : Value) : Except HostError (Host × Runtime) := do
  refuseIf (runtime.scope = false) .invalidScope
  match identity with
  | none => .error (.nilService (.utf8 "<invalid>"))
  | some key => do
    refuseIf (key.name = .utf8 "" ∨ key.capability = .utf8 "" ∨ value = .nil)
      (.nilService key.name)
    refuseIf ((canonicalServiceIdentity key.name).any fun canonical => key ≠ canonical)
      (.reservedName key.name)
    refuseIf (runtime.active = false ∨ runtime.mutable = false ∨
      key.capability ∉ runtime.manifest.provides)
      (.cannotProvide runtime.manifest.id key.capability key.name)
    refuseIf (key = databaseStoreKey ∨ key = actionDatabaseKey) .privilegedDatabase
    refuseIf (host.state ≠ .starting) (.state .provideServices host.state)
    if key.name = databaseControlName then provideDatabaseService host runtime key value
    else if key.name = actionPersistenceName then provideActionPersistence host runtime key value
    else do
      host.vacant key.name
      .ok (host.publish ⟨key, value, runtime.manifest.id⟩,
        { runtime with services := runtime.services ++ [key.name] })

/-! ### Resolve and OnStop -/

/-- `resolveLocked`. -/
def Host.resolveLocked (host : Host) (key : KeyIdentity) : Except HostError ServiceRecord := do
  refuseIf (key.name = .utf8 "" ∨ key.capability = .utf8 "") .invalidKey
  match host.services key.name with
  | none => .error (.notAvailable key.name)
  | some record => do
    refuseIf (record.key ≠ key) (.keyMismatch key.name)
    .ok record

/-- Whether the scope of a runtime, or one of its resolvers, can still be used. -/
def Runtime.usable (runtime : Runtime) : Option ℕ → Bool
  | none => runtime.scope
  | some resolver => runtime.resolvers[resolver]? == some true

/-- `resolveService` of a scope or of a resolver, with `resolveModuleService`. -/
def resolveService (host : Host) (runtime : Runtime) (via : Option ℕ)
    (identity : Option KeyIdentity) : Except HostError ServiceRecord := do
  refuseIf (runtime.usable via = false) (if via.isSome then .invalidResolver else .invalidScope)
  match identity with
  | none => .error .invalidKey
  | some key => do
    refuseIf (key.name = .utf8 "" ∨ key.capability = .utf8 "") .invalidKey
    refuseIf (runtime.active = false ∨
      key.capability ∉ runtime.manifest.requires ∧ key.capability ∉ runtime.manifest.provides)
      (.notDeclared runtime.manifest.id key.capability key.name)
    refuseIf (host.state ≠ .starting) (.state .resolveServices host.state)
    host.resolveLocked key

/-- `OnStop`: the callback may be nil. -/
def onStop (host : Host) (runtime : Runtime) (cleanup : Option ℕ) : Except HostError Runtime :=
  match cleanup with
  | none => .error .nilCleanup
  | some callback => do
    refuseIf (runtime.scope = false ∨ runtime.active = false ∨ runtime.mutable = false)
      .invalidScope
    refuseIf (host.state ≠ .starting) (.state .registerCleanup host.state)
    .ok { runtime with cleanups := runtime.cleanups ++ [callback] }

/-! ### Assemble -/

/-- `resolveOptionalHostServiceLocked`. -/
def Host.resolveOptional (host : Host) (key : KeyIdentity) :
    Except HostError (Option (GoString × Value)) :=
  match host.services key.name with
  | none => .ok none
  | some _ => do
    let record ← host.resolveLocked key
    refuseIf (record.value = .nil) (.wrongType key.name)
    .ok (some (key.name, record.value))

/-- `resolveRequiredHostServiceLocked`. -/
def Host.resolveRequired (host : Host) (key : KeyIdentity) : Except HostError Value := do
  let record ← host.resolveLocked key
  refuseIf (record.value = .nil) (.wrongType key.name)
  .ok record.value

/-- `assembleActionRuntimeLocked`: the services its runtime is made of. -/
def Host.assembleActionRuntime (host : Host) : Except HostError (Value × Value × Value) := do
  let authorizer ← host.resolveRequired authorizerKey
  let auditHook ← host.resolveRequired auditHookKey
  match host.persistence with
  | none => .error .persistenceIncomplete
  | some persistence => .ok (authorizer, auditHook, persistence)

/-- `assembleLocked`. -/
def Host.assembleLocked (host : Host) : Except HostError Assembly := do
  let runtime ←
    if host.prepared = [] then .ok none else host.assembleActionRuntime.map some
  let facades ← facadeKeys.mapM host.resolveOptional
  .ok ⟨runtime, facades.reduceOption⟩

/-- `Assemble`: the first call in a running Host decides, and its outcome is kept. -/
def Host.assemble (host : Host) : Except HostError (Host × Except HostError Assembly) := do
  refuseIf (host.state ≠ .running) (.state .assembleApplication host.state)
  match host.assembly with
  | some outcome => .ok (host, outcome)
  | none => .ok ({ host with assembly := some host.assembleLocked }, host.assembleLocked)

/-! ### What a successful call was -/

theorem vacant_ok {host : Host} {name : GoString} {u : Unit} (h : host.vacant name = .ok u) :
    host.services name = none := by
  unfold Host.vacant at h
  split at h
  · cases h
  · assumption

/-- **What `Provide` enters**: new names, under keys the module may publish, owned by it. -/
structure Provided (host : Host) (runtime : Runtime) (records : List ServiceRecord)
    (host' : Host) (runtime' : Runtime) : Prop where
  scope : runtime.scope = true
  active : runtime.active = true
  starting : host.state = .starting
  vacant : ∀ r ∈ records, host.services r.key.name = none
  names : (records.map fun r => r.key.name).Nodup
  owner : ∀ r ∈ records, r.owner = runtime.manifest.id
  capability : ∀ r ∈ records, r.key.capability ∈ runtime.manifest.provides
  canonical : ∀ r ∈ records, ∀ key ∈ canonicalServiceIdentity r.key.name, r.key = key
  runtime : runtime' =
    { runtime with services := runtime.services ++ records.map fun r => r.key.name }
  services : ∀ name record, host'.services name = some record ↔
    host.services name = some record ∨ record ∈ records ∧ record.key.name = name
  frame : ∃ services database databaseOwner persistence persistenceOwner, host' =
    { host with services, database, databaseOwner, persistence, persistenceOwner }
  database : host'.database = host.database ∧ host'.databaseOwner = host.databaseOwner ∨
    ∃ r ∈ records, r.key.name = databaseStoreKey.name ∧ r.owner = host'.databaseOwner
  persistence : host'.persistence = host.persistence ∧
    host'.persistenceOwner = host.persistenceOwner ∨
    ∃ r ∈ records, r.key.name = actionPersistenceName ∧ r.owner = host'.persistenceOwner

theorem publish_services {host : Host} {record : ServiceRecord}
    (h : host.services record.key.name = none) (name : GoString) (r : ServiceRecord) :
    (host.publish record).services name = some r ↔
      host.services name = some r ∨ r = record ∧ record.key.name = name := by
  by_cases hn : name = record.key.name
  · subst hn
    simp [Host.publish, h, eq_comm]
  · simp [Host.publish, hn, Ne.symm hn]

/-- What the checks of `provideService` pass. -/
structure Admits (host : Host) (runtime : Runtime) (key : KeyIdentity) : Prop where
  scope : runtime.scope = true
  active : runtime.active = true
  starting : host.state = .starting
  capability : key.capability ∈ runtime.manifest.provides
  canonical : ∀ canonical ∈ canonicalServiceIdentity key.name, key = canonical

theorem provided_single {host : Host} {runtime : Runtime} {key : KeyIdentity} (value : Value)
    (ha : Admits host runtime key) (hv : host.services key.name = none) :
    Provided host runtime [⟨key, value, runtime.manifest.id⟩]
      (host.publish ⟨key, value, runtime.manifest.id⟩)
      { runtime with services := runtime.services ++ [key.name] } := by
  refine
    { scope := ha.scope, active := ha.active, starting := ha.starting, vacant := ?_
      names := List.nodup_singleton _, owner := ?_, capability := ?_, canonical := ?_
      runtime := rfl, services := ?_, frame := ⟨_, _, _, _, _, rfl⟩
      database := Or.inl ⟨rfl, rfl⟩, persistence := Or.inl ⟨rfl, rfl⟩ }
  · simpa using hv
  · simp
  · simpa using ha.capability
  · simpa using ha.canonical
  · intro name record
    rw [publish_services hv]
    constructor
    · rintro (h | ⟨rfl, h⟩)
      · exact Or.inl h
      · exact Or.inr ⟨List.mem_singleton_self _, h⟩
    · rintro (h | ⟨hm, h⟩)
      · exact Or.inl h
      · obtain rfl := List.mem_singleton.mp hm
        exact Or.inr ⟨rfl, h⟩

theorem provideDatabaseService_ok {host host' : Host} {runtime runtime' : Runtime}
    {key : KeyIdentity} {value : Value} (ha : Admits host runtime key)
    (hname : key.name = databaseControlName)
    (h : provideDatabaseService host runtime key value = .ok (host', runtime')) :
    ∃ records, Provided host runtime records host' runtime' := by
  obtain ⟨_, hkey, h⟩ := bind_eq_ok.mp h
  have hcap : key.capability = capabilityDatabase := by
    by_contra hne
    exact refuseIf_eq_ok.mp hkey (Or.inl hne)
  cases value with
  | control id driver access store =>
    simp only [bind_eq_ok] at h
    obtain ⟨_, -, _, hv₁, _, hv₂, _, hv₃, _, -, h⟩ := h
    obtain ⟨rfl, rfl⟩ := Prod.mk.inj (Except.ok.inj h)
    have hcontrol := vacant_ok hv₁
    have hstore := vacant_ok hv₂
    have haccess := vacant_ok hv₃
    have hne₁ : databaseStoreKey.name ≠ databaseControlName := by decide
    have hne₂ : actionDatabaseKey.name ≠ databaseControlName := by decide
    have hne₃ : actionDatabaseKey.name ≠ databaseStoreKey.name := by decide
    have hcaps : databaseStoreKey.capability = capabilityDatabase ∧
        actionDatabaseKey.capability = capabilityDatabase := ⟨rfl, rfl⟩
    refine ⟨[⟨key, .control id driver access store, runtime.manifest.id⟩,
      ⟨databaseStoreKey, store, runtime.manifest.id⟩,
      ⟨actionDatabaseKey, access, runtime.manifest.id⟩],
      { scope := ha.scope, active := ha.active, starting := ha.starting, vacant := ?_
        names := ?_, owner := ?_, capability := ?_, canonical := ?_
        runtime := ?_, services := ?_, frame := ⟨_, _, _, _, _, rfl⟩
        database := Or.inr ?_, persistence := Or.inl ⟨rfl, rfl⟩ }⟩
    · simp [hname, hcontrol, hstore, haccess]
    · simp [hname, hne₁.symm, hne₂.symm, hne₃.symm]
    · simp
    · have hp := ha.capability
      rw [hcap] at hp
      simp [hcap, hcaps, hp]
    · intro r hr canonical hc
      simp only [List.mem_cons, List.not_mem_nil, or_false] at hr
      obtain rfl | rfl | rfl := hr
      · exact ha.canonical canonical hc
      · have : canonicalServiceIdentity databaseStoreKey.name = some databaseStoreKey := by decide
        rw [this] at hc
        exact Option.some.inj hc
      · have : canonicalServiceIdentity actionDatabaseKey.name = some actionDatabaseKey := by
          decide
        rw [this] at hc
        exact Option.some.inj hc
    · simp [hname]
    · intro name record
      have h₁ : host.services key.name = none := hname ▸ hcontrol
      have h₂ : (host.publish ⟨key, .control id driver access store, runtime.manifest.id⟩).services
          databaseStoreKey.name = none := by
        simp [Host.publish, hname, hne₁, hstore]
      have h₃ : ((host.publish ⟨key, .control id driver access store,
          runtime.manifest.id⟩).publish ⟨databaseStoreKey, store, runtime.manifest.id⟩).services
          actionDatabaseKey.name = none := by
        simp [Host.publish, hname, hne₂, hne₃, haccess]
      show ((((host.publish _).publish _).publish _).services name = some record ↔ _)
      rw [publish_services h₃, publish_services h₂, publish_services h₁]
      simp only [List.mem_cons, List.not_mem_nil, or_false]
      aesop
    · exact ⟨⟨databaseStoreKey, store, runtime.manifest.id⟩, by simp, rfl, rfl⟩
  | _ => cases h

theorem provideActionPersistence_ok {host host' : Host} {runtime runtime' : Runtime}
    {key : KeyIdentity} {value : Value} (ha : Admits host runtime key)
    (hname : key.name = actionPersistenceName)
    (h : provideActionPersistence host runtime key value = .ok (host', runtime')) :
    ∃ records, Provided host runtime records host' runtime' := by
  obtain ⟨_, -, h⟩ := bind_eq_ok.mp h
  cases value with
  | persistence id plans idempotency transactions =>
    obtain ⟨_, -, h⟩ := bind_eq_ok.mp h
    obtain ⟨_, hv, h⟩ := bind_eq_ok.mp h
    obtain ⟨_, -, h⟩ := bind_eq_ok.mp h
    obtain ⟨rfl, rfl⟩ := Prod.mk.inj (Except.ok.inj h)
    have hp := provided_single (.persistence id plans idempotency transactions) ha
      (hname ▸ vacant_ok hv)
    refine ⟨_, { hp with
      runtime := ?_, services := hp.services, frame := ⟨_, _, _, _, _, rfl⟩
      database := Or.inl ⟨rfl, rfl⟩, persistence := Or.inr ?_ }⟩
    · simp [hname]
    · exact ⟨_, List.mem_singleton_self _, hname, rfl⟩
  | _ => cases h

/-- **A successful `Provide`.** -/
theorem provideService_ok {host host' : Host} {runtime runtime' : Runtime}
    {identity : Option KeyIdentity} {value : Value}
    (h : provideService host runtime identity value = .ok (host', runtime')) :
    ∃ records, Provided host runtime records host' runtime' := by
  obtain ⟨_, hscope, h⟩ := bind_eq_ok.mp h
  cases identity with
  | none => cases h
  | some key =>
    simp only [bind_eq_ok] at h
    obtain ⟨_, -, _, hcanon, _, hdecl, _, -, _, hstate, h⟩ := h
    have hdecl := refuseIf_eq_ok.mp hdecl
    push Not at hdecl
    have ha : Admits host runtime key := by
      refine ⟨by simpa using refuseIf_eq_ok.mp hscope, by simpa using hdecl.1,
        by simpa using refuseIf_eq_ok.mp hstate, hdecl.2.2, ?_⟩
      intro canonical hc
      by_contra hne
      refine refuseIf_eq_ok.mp hcanon ?_
      rw [Option.mem_def.mp hc]
      simpa using hne
    split at h
    next hname => exact provideDatabaseService_ok ha hname h
    next =>
      split at h
      next hname => exact provideActionPersistence_ok ha hname h
      next =>
        obtain ⟨_, hv, h⟩ := bind_eq_ok.mp h
        obtain ⟨rfl, rfl⟩ := Prod.mk.inj (Except.ok.inj h)
        exact ⟨_, provided_single value ha (vacant_ok hv)⟩

/-- What a successful `Resolve` found. -/
structure Resolved (host : Host) (runtime : Runtime) (via : Option ℕ) (record : ServiceRecord) :
    Prop where
  usable : runtime.usable via = true
  starting : host.state = .starting
  declared : record.key.capability ∈ runtime.manifest.requires ∨
    record.key.capability ∈ runtime.manifest.provides
  found : ∃ name, host.services name = some record

/-- **A successful `Resolve`.** -/
theorem resolveService_ok {host : Host} {runtime : Runtime} {via : Option ℕ}
    {identity : Option KeyIdentity} {record : ServiceRecord}
    (h : resolveService host runtime via identity = .ok record) :
    Resolved host runtime via record := by
  obtain ⟨_, huse, h⟩ := bind_eq_ok.mp h
  cases identity with
  | none => cases h
  | some key =>
    obtain ⟨_, -, h⟩ := bind_eq_ok.mp h
    obtain ⟨_, hdecl, h⟩ := bind_eq_ok.mp h
    obtain ⟨_, hstate, h⟩ := bind_eq_ok.mp h
    obtain ⟨_, -, h⟩ := bind_eq_ok.mp h
    have hdecl := refuseIf_eq_ok.mp hdecl
    cases hs : host.services key.name with
    | none =>
      rw [hs] at h
      cases h
    | some found =>
      rw [hs] at h
      obtain ⟨_, hkey, h⟩ := bind_eq_ok.mp h
      obtain rfl := Except.ok.inj h
      have hkey : found.key = key := by simpa using refuseIf_eq_ok.mp hkey
      refine ⟨by simpa using refuseIf_eq_ok.mp huse, by simpa using refuseIf_eq_ok.mp hstate,
        ?_, key.name, hs⟩
      rw [hkey]
      by_contra hn
      push Not at hn
      exact hdecl (Or.inr hn)

/-- What a successful `OnStop` did. -/
structure Enrolled (host : Host) (runtime : Runtime) (callback : ℕ) (runtime' : Runtime) :
    Prop where
  scope : runtime.scope = true
  starting : host.state = .starting
  runtime : runtime' = { runtime with cleanups := runtime.cleanups ++ [callback] }

/-- **A successful `OnStop`.** -/
theorem onStop_ok {host : Host} {runtime runtime' : Runtime} {cleanup : Option ℕ}
    (h : onStop host runtime cleanup = .ok runtime') :
    ∃ callback, cleanup = some callback ∧ Enrolled host runtime callback runtime' := by
  cases cleanup with
  | none => cases h
  | some callback =>
    obtain ⟨_, hscope, h⟩ := bind_eq_ok.mp h
    obtain ⟨_, hstate, h⟩ := bind_eq_ok.mp h
    obtain rfl := Except.ok.inj h
    have hscope := refuseIf_eq_ok.mp hscope
    push Not at hscope
    exact ⟨callback, rfl, by simpa using hscope.1, by simpa using refuseIf_eq_ok.mp hstate, rfl⟩

end Modary.Module.Services
