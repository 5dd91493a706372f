import Modary.Lib.Machine
import Modary.Module.Services

/-! # The threads of a Module Host

One call of `Start` or `Migrate` does the startup, and one goroutine of `Shutdown` finishes a
running Host. Each takes its next step, up to the next lock it releases, in one event; the outcome
of a callback, of a context check or of a migration is part of the event. Every other call, from
whatever goroutine, is an event of its own: `Register`, `Shutdown` and `Assemble`, the scopes and
resolvers that callbacks were given (also after they returned), and the calls on facades and action
bindings that cleanup waits for. -/

namespace Modary.Module.Host

open Modary.Lib.GoText Modary.Lib.Sorting Modary.Module.Verify
open Modary.Module.Services

/-! ### Cleanup -/

/-- Where `cleanup` stands: at the reset of the registry, at its wait, at the head of its loop over
the runtimes, before the next callback of one, inside a callback, or at its return. -/
inductive CleanupPoint
  | reset (runtimes : List ℕ)
  | drain (runtimes : List ℕ)
  | visit (rest : List ℕ)
  | invoke (runtime : ℕ) (services : List GoString) (callbacks : List ℕ) (rest : List ℕ)
  | inside (callback : ℕ) (runtime : ℕ) (services : List GoString) (callbacks : List ℕ)
      (rest : List ℕ)
  | returned
  deriving DecidableEq, Repr

/-- A call of `cleanup`: its point, and whether its result is an error so far. -/
structure Cleanup where
  point : CleanupPoint
  failed : Bool
  deriving DecidableEq, Repr

/-- The outcome of a callback: `nil`, an error or a recovered panic, or none within its time. -/
inductive Outcome
  | done
  | failed
  | timedOut
  deriving DecidableEq, Repr

/-! ### Threads -/

/-- The call that does the startup. -/
inductive Mode
  | start
  | migrate
  deriving DecidableEq, Repr

/-- What a startup that does not end in a running Host completes with. -/
inductive Ending
  | startFailure
  | migration
  deriving DecidableEq, Repr

/-- The steps of `Start` for one module after its start callback. -/
inductive Act
  | check
  | applyMigrations
  | newHandler (binding : ActionBinding)
  | deactivate
  deriving DecidableEq, Repr

/-- Where `Start` or `Migrate` stands. -/
inductive Starter
  | idle
  | validating
  | entering (order : List GoString)
  | top (todo : List GoString)
  | early (runtime : ℕ) (todo : List GoString)
  | calling (runtime : ℕ) (todo : List GoString)
  | late (runtime : ℕ) (acts : List Act) (todo : List GoString)
  | factory (runtime : ℕ) (acts : List Act) (todo : List GoString)
  | applying (todo : List GoString)
  | last
  | cleaning (cleanup : Cleanup) (ending : Ending)
  | returning
  | gone
  deriving DecidableEq, Repr

/-- Where `finishShutdown` stands. -/
inductive Finisher
  | idle
  | waiting (runtimes : List ℕ)
  | cleaning (cleanup : Cleanup)
  | gone
  deriving DecidableEq, Repr

/-- A successful `Resolve` of a module. -/
structure Resolution where
  consumer : ℕ
  name : GoString
  record : ServiceRecord
  deriving DecidableEq, Repr

/-- The Host, its threads, and what has happened: the number of callbacks registered, those invoked
(the first one first), those that timed out and still run, the services published and resolved, and
whether a shutdown was accepted. `order` and `taken` are local to the startup. -/
structure World where
  host : Services.Host
  created : List Runtime
  mode : Mode
  taken : List Registration
  order : List GoString
  starter : Starter
  finisher : Finisher
  registered : ℕ
  invoked : List ℕ
  overdue : List ℕ
  published : List ServiceRecord
  resolved : List Resolution
  requested : Bool

/-- A new Host. -/
def World.create (skipMigrations : Bool) : World where
  host := .create skipMigrations
  created := []
  mode := .start
  taken := []
  order := []
  starter := .idle
  finisher := .idle
  registered := 0
  invoked := []
  overdue := []
  published := []
  resolved := []
  requested := false

/-- Change one runtime. -/
def World.modify (w : World) (i : ℕ) (f : Runtime → Runtime) : World :=
  { w with created := w.created.modify i f }

/-- The startup goes on elsewhere. -/
def World.goto (w : World) (next : Starter) : World := { w with starter := next }

/-- `expire` of a scope. -/
def expire (runtime : Runtime) : Runtime := { runtime with scope := false }

/-- `deactivate`. -/
def deactivate (runtime : Runtime) : Runtime := { runtime with active := false, mutable := false }

/-- What `beginCleanup` leaves of a runtime. -/
def retire (runtime : Runtime) : Runtime :=
  { runtime with active := false, mutable := false, cleaned := true }

/-- A new resolver, the last of the runtime. -/
def openResolver (runtime : Runtime) : Runtime :=
  { runtime with resolvers := runtime.resolvers ++ [true] }

/-- `expire` of the resolver made last. -/
def closeResolver (runtime : Runtime) : Runtime :=
  { runtime with resolvers := runtime.resolvers.dropLast ++ [false] }

/-- A service of this owner is removed, with what the Host took from it. -/
def releaseOne (id : GoString) (host : Services.Host) (name : GoString) : Services.Host :=
  match host.services name with
  | none => host
  | some record =>
    if record.owner = id then
      let host := { host with services := Function.update host.services name none }
      let host := if name = databaseStoreKey.name ∧ host.databaseOwner = id then
        { host with database := none, databaseOwner := .utf8 "" } else host
      if name = actionPersistenceName ∧ host.persistenceOwner = id then
        { host with persistence := none, persistenceOwner := .utf8 "" } else host
    else host

/-- The critical section at the end of the cleanup of one runtime. -/
def release (host : Services.Host) (id : GoString) (services : List GoString) : Services.Host :=
  services.foldl (releaseOne id) host

/-- The next step of `cleanup`. -/
def cleanupStep (w : World) (cleanup : Cleanup) (outcome : Outcome) : Option (World × Cleanup) :=
  match cleanup.point with
  | .reset runtimes =>
    some ({ w with host.registry.revoked := true }, { cleanup with point := .drain runtimes })
  | .drain runtimes =>
    if w.host.registry.leases = 0 then
      some (w, { cleanup with point := .visit runtimes.reverse })
    else none
  | .visit [] => some (w, { cleanup with point := .returned })
  | .visit (i :: rest) =>
    match w.created[i]? with
    | none => none
    | some runtime =>
      if runtime.cleaned then some (w, { cleanup with point := .visit rest })
      else some (w.modify i retire,
        { cleanup with point := .invoke i runtime.services runtime.cleanups.reverse rest })
  | .invoke i services (callback :: callbacks) rest =>
    some ({ w with invoked := w.invoked ++ [callback] },
      { cleanup with point := .inside callback i services callbacks rest })
  | .invoke i services [] rest =>
    match w.created[i]? with
    | none => none
    | some runtime =>
      some ({ w with host := release w.host runtime.id services },
        { cleanup with point := .visit rest })
  | .inside callback i services callbacks rest =>
    some ({ w with overdue := if outcome = .timedOut then w.overdue ++ [callback] else w.overdue },
      { point := .invoke i services callbacks rest
        failed := cleanup.failed || outcome != .done })
  | .returned => none

/-! ### Startup -/

/-- `validateRegistrations`: the ids are the keys of the table, and sort it. -/
def validateRegistrations (isValid : GoString → Bool) (registrations : List Registration)
    (prepared : List GoString) : Option Graph :=
  if registrations.all fun registration =>
      registration.actions.all fun binding => binding.id ∈ prepared then
    match verify isValid ((sortOn (fun registration => registration.manifest.id.runes)
        registrations).map Registration.manifest) with
    | .ok graph => some graph
    | .error _ => none
  else none

/-- One pass over the edges. -/
def extendStartupSet (edges : List GraphEdge) (startupSet : List GoString) : List GoString :=
  edges.foldl (fun found edge =>
    if edge.source ∈ found ∧ edge.target ∉ found then found ++ [edge.target] else found) startupSet

/-- The database provider with its transitive dependencies: passes until one changes nothing, which
comes before there are more of them than edges. -/
def startupSet (graph : Graph) (databaseOwner : GoString) : List GoString :=
  (extendStartupSet graph.edges)^[graph.edges.length + 1] [databaseOwner]

/-- The registration a startup copied under an id. -/
def World.registration (w : World) (id : GoString) : Option Registration :=
  w.taken.find? fun registration => registration.manifest.id = id

/-- `applyMigrations` succeeds. -/
def World.migrates (w : World) (registration : Registration) (outcome : Outcome) : Bool :=
  registration.migrations.isEmpty ||
    match w.host.database with
    | some (.control _ driver _ _) =>
      (registration.migrations.any fun source => source.driver = driver) && outcome == .done
    | _ => false

/-- `contains(Manifest.Provides, CapabilityDatabase)`. -/
def providesDatabase (registration : Registration) : Bool :=
  registration.manifest.provides.contains capabilityDatabase

/-- What the loop of `Start` or `Migrate` does for a module after its start callback. -/
def acts (mode : Mode) (skipMigrations : Bool) (registration : Registration) : List Act :=
  match mode with
  | .migrate => [.deactivate]
  | .start =>
    [.check] ++
      (if providesDatabase registration && !skipMigrations then [.applyMigrations] else []) ++
      registration.actions.map .newHandler ++ [.deactivate]

/-- `startFailure`: the runtimes to clean up, the current one last. -/
def World.fail (w : World) (current : Option ℕ) : World :=
  w.goto (.cleaning ⟨.reset (w.host.runtimes ++ current.toList), false⟩ .startFailure)

/-- The first critical section of `Start` and of `Migrate`. -/
def World.begin (w : World) (mode : Mode) : World :=
  if w.host.state = .new then
    { w with
      host.state := .starting
      host.startDone := true
      host.stopRequested := false
      mode := mode
      taken := w.host.registrations
      starter := .validating }
  else w

/-- After the validation. -/
def World.validated (isValid : GoString → Bool) (w : World) : World :=
  match validateRegistrations isValid w.taken w.host.prepared with
  | none => w.goto (.cleaning ⟨.returned, false⟩ .startFailure)
  | some graph =>
    match w.mode with
    | .start => { w with order := graph.order, starter := .entering graph.order }
    | .migrate =>
      if w.taken.all fun registration => registration.migrations.isEmpty then
        w.goto (.cleaning ⟨.returned, false⟩ .migration)
      else match graph.provides capabilityDatabase with
        | none => w.goto (.cleaning ⟨.returned, false⟩ .startFailure)
        | some owner =>
          { w with
            order := graph.order
            starter := .top (graph.order.filter fun id => id ∈ startupSet graph owner) }

/-- A runtime and its scope, for the next module of the loop. -/
def World.install (w : World) (id : GoString) (registration : Registration)
    (todo : List GoString) : World :=
  { w with
    created := w.created ++ [⟨id, registration.manifest, true, [], [], [], true, true, false⟩]
    starter :=
      if w.mode = .start && !providesDatabase registration && !w.host.skipMigrations then
        .early w.created.length todo
      else .calling w.created.length todo }

/-- One act after the start callback of a module. -/
def World.act (w : World) (i : ℕ) (registration : Registration) (acts : List Act)
    (todo : List GoString) (outcome : Outcome) : Act → World
  | .check => if outcome = .done then w.goto (.late i acts todo) else w.fail (some i)
  | .applyMigrations =>
    if w.migrates registration outcome then w.goto (.late i acts todo)
    else w.fail (some i)
  | .newHandler _ => (w.modify i openResolver).goto (.factory i acts todo)
  | .deactivate => (w.modify i deactivate).goto (.late i acts todo)

/-- The critical section at the end of the loop body. -/
def World.append (w : World) (i : ℕ) (id : GoString) (todo : List GoString) : World :=
  { w with
    host.runtimes := w.host.runtimes ++ [i]
    host.started := w.host.started ++ [id]
    starter := .top todo }

/-- `completeStartFailure` or `completeMigration`, with the result of the cleanup. -/
def World.complete (w : World) (failed : Bool) (ending : Ending) : World :=
  { w with
    host := { w.host.releaseStartupReferences with
      state :=
        match ending with
        | .startFailure => if !failed && w.host.stopRequested then .stopped else .failed
        | .migration => if failed then .failed else .stopped
      shutdownErr := failed
      shutdownDone := if w.host.shutdownDone = 0 then 1 else w.host.shutdownDone }
    starter := .returning }

/-- The critical section that makes the Host run. -/
def World.run (w : World) : World :=
  { w with
    host := { w.host.releaseStartupReferences with state := .running }
    starter := .returning }

/-- `finishStart`. -/
def World.finishStart (w : World) : World :=
  { w with host.startDone := false, starter := .gone }

/-- The next step of `Start` or `Migrate`. -/
def starterStep (isValid : GoString → Bool) (w : World) (outcome : Outcome) : Option World :=
  match w.starter with
  | .idle | .gone => none
  | .validating => some (w.validated isValid)
  | .entering order =>
    some (if outcome = .done then w.goto (.top order) else w.fail none)
  | .top [] =>
    some (match w.mode with
      | .start => w.goto .last
      | .migrate => w.goto (.applying w.order))
  | .top (id :: todo) =>
    if outcome = .done then
      (w.registration id).map fun registration => w.install id registration todo
    else some (w.fail none)
  | .early i todo =>
    (w.created[i]?.bind fun runtime => w.registration runtime.id).map fun registration =>
      if w.migrates registration outcome then w.goto (.calling i todo)
      else (w.modify i expire).fail (some i)
  | .calling i todo =>
    (w.created[i]?.bind fun runtime => w.registration runtime.id).map fun registration =>
      if registration.start = false ∨ outcome = .done then
        (w.modify i expire).goto (.late i (acts w.mode w.host.skipMigrations registration) todo)
      else (w.modify i expire).fail (some i)
  | .late i [] todo => w.created[i]?.map fun runtime => w.append i runtime.id todo
  | .late i (act :: acts) todo =>
    (w.created[i]?.bind fun runtime => w.registration runtime.id).map fun registration =>
      w.act i registration acts todo outcome act
  | .factory i acts todo =>
    some (if outcome = .done then (w.modify i closeResolver).goto (.late i acts todo)
      else (w.modify i closeResolver).fail (some i))
  | .applying [] =>
    some (w.goto (.cleaning ⟨.reset w.host.runtimes, false⟩ .migration))
  | .applying (id :: todo) =>
    (w.registration id).map fun registration =>
      if w.migrates registration outcome then w.goto (.applying todo)
      else w.fail none
  | .last =>
    some (if w.host.stopRequested ∨ outcome ≠ .done then w.fail none else w.run)
  | .cleaning ⟨.returned, failed⟩ ending => some (w.complete failed ending)
  | .cleaning cleanup ending =>
    (cleanupStep w cleanup outcome).map fun r => { r.1 with starter := .cleaning r.2 ending }
  | .returning => some w.finishStart

/-! ### Shutdown -/

/-- `Shutdown`, up to its wait. -/
def World.shutdown (w : World) : World :=
  match w.host.state with
  | .new => w
  | .starting => { w with host.stopRequested := true, requested := true }
  | .running =>
    { w with
      host.state := .stopping
      host.facades.isOpen := false
      host.registry.revoked := true
      finisher := .waiting w.host.runtimes
      requested := true }
  | .stopping | .stopped | .failed => { w with requested := true }

/-- The critical section that ends `finishShutdown`. -/
def World.finishShutdown (w : World) (failed : Bool) : World :=
  { w with
    host.state := if failed then .failed else .stopped
    host.shutdownErr := failed
    host.shutdownDone := w.host.shutdownDone + 1
    finisher := .gone }

/-- The next step of `finishShutdown`. -/
def finisherStep (w : World) (outcome : Outcome) : Option World :=
  match w.finisher with
  | .idle | .gone => none
  | .waiting runtimes =>
    if w.host.facades.isOpen = false ∧ w.host.facades.active = 0 then
      some { w with finisher := .cleaning ⟨.reset runtimes, false⟩ }
    else none
  | .cleaning ⟨.returned, failed⟩ => some (w.finishShutdown failed)
  | .cleaning cleanup =>
    (cleanupStep w cleanup outcome).map fun r => { r.1 with finisher := .cleaning r.2 }

/-! ### The machine -/

/-- What can happen next. -/
inductive Event
  | register (registrations : List Registration)
  | start (mode : Mode)
  | proceed (outcome : Outcome)
  | shutdown
  | finish (outcome : Outcome)
  | assemble
  | provide (runtime : ℕ) (key : Option KeyIdentity) (value : Value)
  | resolve (runtime : ℕ) (via : Option ℕ) (key : Option KeyIdentity)
  | onStop (runtime : ℕ) (isNil : Bool)
  | enterFacade
  | leaveFacade
  | acquireLease
  | releaseLease
  | finishOverdue (callback : ℕ)
  deriving Repr

/-- The records a successful `Provide` entered. -/
def entered (before after : Runtime) (host : Services.Host) : List ServiceRecord :=
  (after.services.drop before.services.length).filterMap host.services

/-- **One step.** A call that is refused changes nothing. -/
def step (isValid : GoString → Bool) (w : World) : Event → Option World
  | .register registrations =>
    match w.host.register isValid registrations with
    | .ok host => some { w with host := host }
    | .error _ => some w
  | .start mode => some (w.begin mode)
  | .proceed outcome => starterStep isValid w outcome
  | .shutdown => some w.shutdown
  | .finish outcome => finisherStep w outcome
  | .assemble =>
    match w.host.assemble with
    | .ok (host, _) => some { w with host := host }
    | .error _ => some w
  | .provide i key value =>
    w.created[i]?.map fun runtime =>
      match provideService w.host runtime key value with
      | .ok (host, after) =>
        { w with
          host := host
          created := w.created.set i after
          published := w.published ++ entered runtime after host }
      | .error _ => w
  | .resolve i via key =>
    w.created[i]?.map fun runtime =>
      match resolveService w.host runtime via key with
      | .ok record => { w with resolved := w.resolved ++ [⟨i, record.key.name, record⟩] }
      | .error _ => w
  | .onStop i isNil =>
    w.created[i]?.map fun runtime =>
      match onStop w.host runtime (if isNil then none else some w.registered) with
      | .ok after =>
        { w with created := w.created.set i after, registered := w.registered + 1 }
      | .error _ => w
  | .enterFacade =>
    if w.host.facades.isOpen then some { w with host.facades.active := w.host.facades.active + 1 }
    else some w
  | .leaveFacade => some { w with host.facades.active := w.host.facades.active - 1 }
  | .acquireLease =>
    if w.host.registry.revoked then some w
    else some { w with host.registry.leases := w.host.registry.leases + 1 }
  | .releaseLease => some { w with host.registry.leases := w.host.registry.leases - 1 }
  | .finishOverdue callback => some { w with overdue := w.overdue.erase callback }

end Modary.Module.Host
