import Modary.Lib.GoText
import Modary.Lib.Machine
import Modary.Lib.Slots

/-! # The process manager

The phases of a `processkit.Manager`, the requests it admits, the calls that drain it, and the
server that owns the application beneath it. -/

namespace Modary.Process.Admission

open Modary.Lib.GoText Modary.Lib.Machine Modary.Lib.Slots

/-- `Phase`. -/
inductive Phase
  | starting
  | ready
  | draining
  | stopped
  deriving DecidableEq, Repr

def Phase.text : Phase → String
  | .starting => "starting"
  | .ready => "ready"
  | .draining => "draining"
  | .stopped => "stopped"

/-! ### The manager -/

/-- `Manager`, without its checks; `closes` counts the closes of the drained channel, and `drainOnce`
tells whether `drainOnce.Do` has run. -/
structure Manager where
  phase : Phase := .starting
  active : ℤ := 0
  drainOnce : Bool := false
  closes : ℕ := 0
  deriving DecidableEq, Repr

namespace Manager

variable (manager : Manager)

/-- `drainOnce.Do(func() { close(manager.drained) })`. -/
def closeDrained : Manager :=
  if manager.drainOnce then manager
  else { manager with drainOnce := true, closes := manager.closes + 1 }

/-- `MarkReady`. -/
def markReady : Manager × Except String Unit :=
  if manager.phase = .ready then (manager, .ok ())
  else if manager.phase ≠ .starting then
    (manager, .error ("cannot mark process ready from " ++ manager.phase.text))
  else ({ manager with phase := .ready }, .ok ())

/-- `BeginDrain`. -/
def beginDrain : Manager :=
  let begun := if manager.phase = .starting ∨ manager.phase = .ready then
    { manager with phase := .draining } else manager
  if begun.phase = .draining ∧ begun.active = 0 then begun.closeDrained else begun

/-- `MarkStopped`. -/
def markStopped : Manager × Except String Unit :=
  if manager.phase = .stopped then (manager, .ok ())
  else if manager.phase ≠ .draining ∨ manager.active ≠ 0 then
    (manager, .error ("cannot stop process from " ++ manager.phase.text ++ " with " ++
      toString manager.active ++ " active requests"))
  else ({ manager with phase := .stopped }, .ok ())

/-- `acquire`. -/
def acquire : Manager × Bool :=
  if manager.phase ≠ .ready then (manager, false)
  else ({ manager with active := manager.active + 1 }, true)

/-- `release`. -/
def release : Manager :=
  let fewer := { manager with active := manager.active - 1 }
  if fewer.phase = .draining ∧ fewer.active = 0 then fewer.closeDrained else fewer

end Manager

/-- How a function of others ends: it returns, panics, or ends its goroutine (`runtime.Goexit`). -/
inductive Ending
  | returned (err : Option String)
  | panicked
  | exited
  deriving DecidableEq, Repr

/-- A request behind `Middleware`: its handler runs, its handler has ended and its release is
deferred, or it is over. -/
inductive Request
  | refused
  | running
  | unwinding (ending : Ending)
  | over
  deriving DecidableEq, Repr

/-- An admitted request whose release is still to come. -/
def Request.active : Request → Bool
  | .running => true
  | .unwinding _ => true
  | _ => false

/-- A call of `Drain` after its `BeginDrain`. -/
inductive Drain
  | waiting
  | returned (err : Option String)
  deriving DecidableEq, Repr

/-! ### The server -/

/-- The limits of `ServerOptions`, in nanoseconds and bytes, and what `NormalizeBuildInfo` returns. -/
structure ServerOptions where
  shutdownTimeout : ℤ := 0
  readHeaderTimeout : ℤ := 0
  readTimeout : ℤ := 0
  writeTimeout : ℤ := 0
  idleTimeout : ℤ := 0
  maxHeaderBytes : ℤ := 0
  build : Except String Unit := .ok ()

/-- Ten minutes. -/
def maximumTimeout : ℤ := 600000000000

/-- `MaximumHeaderBytes`. -/
def maximumHeaderBytes : ℤ := 16777216

/-- The check of one timeout. -/
def validateTimeout (name : String) (value : ℤ) : Except String Unit :=
  refuseIf (value < 0 ∨ maximumTimeout < value)
    ("process " ++ name ++ " timeout must be between zero and ten minutes")

/-- The checks of `Serve` after its dependencies are checked. -/
def ServerOptions.validate (options : ServerOptions) : Except String Unit := do
  validateTimeout "shutdown" options.shutdownTimeout
  validateTimeout "read header" options.readHeaderTimeout
  validateTimeout "read" options.readTimeout
  validateTimeout "write" options.writeTimeout
  validateTimeout "idle" options.idleTimeout
  refuseIf (options.maxHeaderBytes < 0 ∨ maximumHeaderBytes < options.maxHeaderBytes)
    "process maximum header bytes must be between zero and 16777216"
  options.build

/-- Where a call of `Serve` stands. The points from `cleanup` on are in the deferred function. -/
inductive Point
  | preparing
  | marking
  | refused
  | serving
  | begin
  | stopping
  | drain
  | waiting
  | shutdown
  | calling
  | markStopped
  | reporting
  | leaving
  | cleanup
  | cleanupDrain
  | cleanupWaiting
  | cleanupShutdown
  | cleanupCalling
  | cleanupStopped
  | ended
  deriving DecidableEq, Repr

/-- A call of `Serve` that has passed the check of its dependencies: where it stands, whether the
deferred cleanup is needed, and the errors it has to return; and for the record how often it has
invoked `Shutdown`, whether each time after draining began, and whether the callback has ended the
goroutine in the invocation outside the deferred function. -/
structure Serve where
  options : ServerOptions
  point : Point := .preparing
  cleanupNeeded : Bool := true
  errors : List String := []
  shutdowns : ℕ := 0
  afterDrain : Bool := true
  exited : Bool := false

/-- What a step of `Serve` depends on: the listener, the result of the server, its context, a panic
or the end of the goroutine in a logger or a context of others, the shutdown of the server, the
drained channel or the timeout, and the end of the callback. -/
inductive Input
  | go
  | listen (outcome : Except String Unit)
  | result (err : Option String)
  | canceled
  | unwind
  | stop (serverErr completedErr : Option String)
  | drained
  | timeout (err : String)
  | callback (ending : Ending)

/-- Draining has begun. -/
def Phase.drainBegun (phase : Phase) : Bool := phase = .draining || phase = .stopped

/-- The error that `invokeShutdown` returns for the ending of the callback. -/
def shutdownErrors : Ending → List String
  | .returned err => err.toList
  | _ => ["application shutdown callback panicked"]

/-- The errors of a call. -/
def exceptErrors : Except String Unit → List String
  | .ok () => []
  | .error err => [err]

/-- One more invocation of `Shutdown`. -/
def Serve.invoke (serve : Serve) (manager : Manager) (next : Point) : Serve :=
  { serve with
    point := next
    shutdowns := serve.shutdowns + 1
    afterDrain := serve.afterDrain && manager.phase.drainBegun }

/-- One step of `Serve`. -/
def Serve.step (manager : Manager) (serve : Serve) : Input → Option (Manager × Serve)
  | .listen outcome =>
    match serve.point with
    | .preparing =>
      match serve.options.validate >>= fun _ => outcome with
      | .error err => some (manager, { serve with point := .leaving, errors := [err] })
      | .ok () => some (manager, { serve with point := .marking })
    | _ => none
  | .result err =>
    match serve.point with
    | .refused =>
      some (manager, { serve with point := .leaving, errors := serve.errors ++ err.toList })
    | .serving => some (manager, { serve with point := .begin, errors := err.toList })
    | _ => none
  | .canceled =>
    match serve.point with
    | .serving => some (manager, { serve with point := .begin })
    | _ => none
  | .unwind =>
    match serve.point with
    | .serving => some (manager, { serve with point := .leaving })
    | .stopping => some (manager, { serve with point := .leaving })
    | .reporting => some (manager, { serve with point := .leaving })
    | _ => none
  | .stop serverErr completedErr =>
    match serve.point with
    | .stopping =>
      some (manager, { serve with
        point := .drain, errors := serve.errors ++ completedErr.toList ++ serverErr.toList })
    | _ => none
  | .drained =>
    if manager.closes = 0 then none
    else
      match serve.point with
      | .waiting => some (manager, { serve with point := .shutdown })
      | .cleanupWaiting => some (manager, { serve with point := .cleanupShutdown })
      | _ => none
  | .timeout err =>
    match serve.point with
    | .waiting => some (manager, { serve with point := .shutdown, errors := serve.errors ++ [err] })
    | .cleanupWaiting =>
      some (manager, { serve with point := .cleanupShutdown, errors := serve.errors ++ [err] })
    | _ => none
  | .callback ending =>
    match serve.point with
    | .calling =>
      if ending = .exited then
        some (manager, { serve with point := .leaving, exited := true })
      else
        some (manager, { serve with
          point := .markStopped, errors := serve.errors ++ shutdownErrors ending })
    | .cleanupCalling =>
      if ending = .exited then some (manager, { serve with point := .ended })
      else
        some (manager, { serve with
          point := .cleanupStopped, errors := serve.errors ++ shutdownErrors ending })
    | _ => none
  | .go =>
    match serve.point with
    | .marking =>
      let (manager, err) := manager.markReady
      match err with
      | .error err => some (manager, { serve with point := .refused, errors := [err] })
      | .ok () => some (manager, { serve with point := .serving })
    | .begin => some (manager.beginDrain, { serve with point := .stopping })
    | .drain => some (manager.beginDrain, { serve with point := .waiting })
    | .shutdown => some (manager, serve.invoke manager .calling)
    | .markStopped =>
      let (manager, err) := manager.markStopped
      some (manager, { serve with
        point := .reporting, cleanupNeeded := false, errors := serve.errors ++ exceptErrors err })
    | .reporting => some (manager, { serve with point := .leaving })
    | .leaving =>
      some (manager, { serve with point := if serve.cleanupNeeded then .cleanup else .ended })
    | .cleanup => some (manager.beginDrain, { serve with point := .cleanupDrain })
    | .cleanupDrain => some (manager.beginDrain, { serve with point := .cleanupWaiting })
    | .cleanupShutdown => some (manager, serve.invoke manager .cleanupCalling)
    | .cleanupStopped =>
      let (manager, err) := manager.markStopped
      some (manager, { serve with point := .ended, errors := serve.errors ++ exceptErrors err })
    | _ => none

/-! ### Interleavings -/

/-- A manager and all that has been called on it. -/
structure State where
  manager : Manager := {}
  requests : List Request := []
  drains : List Drain := []
  serves : List Serve := []

/-- What happens next. -/
inductive Event
  | markReady
  | beginDrain
  | markStopped
  | request
  | handler (request : ℕ) (ending : Ending)
  | release (request : ℕ)
  | drain
  | drained (drain : ℕ)
  | drainDone (drain : ℕ) (err : String)
  | serve (options : ServerOptions)
  | advance (serve : ℕ) (input : Input)

/-- One step of the manager or of a call on it. -/
def step (s : State) : Event → Option State
  | .markReady => some { s with manager := s.manager.markReady.1 }
  | .beginDrain => some { s with manager := s.manager.beginDrain }
  | .markStopped => some { s with manager := s.manager.markStopped.1 }
  | .request =>
    let (manager, admitted) := s.manager.acquire
    some { s with manager, requests := s.requests ++ [if admitted then .running else .refused] }
  | .handler i ending =>
    match s.requests[i]? with
    | some .running => some { s with requests := s.requests.set i (.unwinding ending) }
    | _ => none
  | .release i =>
    match s.requests[i]? with
    | some (.unwinding _) =>
      some { s with manager := s.manager.release, requests := s.requests.set i .over }
    | _ => none
  | .drain => some { s with manager := s.manager.beginDrain, drains := s.drains ++ [.waiting] }
  | .drained i =>
    match s.drains[i]? with
    | some .waiting =>
      if s.manager.closes = 0 then none
      else some { s with drains := s.drains.set i (.returned none) }
    | _ => none
  | .drainDone i err =>
    match s.drains[i]? with
    | some .waiting => some { s with drains := s.drains.set i (.returned (some err)) }
    | _ => none
  | .serve options => some { s with serves := s.serves ++ [{ options }] }
  | .advance i input =>
    match s.serves[i]? with
    | some serve =>
      (serve.step s.manager input).map fun (manager, next) =>
        { s with manager, serves := s.serves.set i next }
    | none => none

/-! ### The operations of the manager -/

section Operations

/-- The moves of the phase. -/
def Phase.moves : Phase → Phase → Bool
  | .starting, .ready => true
  | .starting, .draining => true
  | .ready, .draining => true
  | .draining, .stopped => true
  | before, after => before = after

theorem Phase.moves_self (phase : Phase) : phase.moves phase = true := by
  cases phase <;> rfl

theorem Phase.drainBegun_of_moves {before after : Phase} (h : before.moves after = true)
    (hbegun : before.drainBegun = true) : after.drainBegun = true := by
  revert h hbegun
  cases before <;> cases after <;> decide

/-- **The invariant of the manager**: the channel is closed once, exactly when draining has begun and
nothing is active, and nothing is active once the process has stopped. -/
structure Manager.Sound (manager : Manager) : Prop where
  closes : manager.closes = if manager.drainOnce then 1 else 0
  drained : manager.drainOnce = true ↔ manager.phase.drainBegun = true ∧ manager.active = 0
  stopped : manager.phase = .stopped → manager.active = 0

/-- What an operation may do to a manager besides counting requests. -/
structure Manager.Follows (before after : Manager) : Prop where
  moves : before.phase.moves after.phase = true
  drainOnce : before.drainOnce = true → after.drainOnce = true

variable {manager : Manager}

theorem Manager.Follows.refl (manager : Manager) : manager.Follows manager :=
  ⟨manager.phase.moves_self, id⟩

theorem sound_initial : Manager.Sound {} := by
  refine ⟨rfl, ?_, fun h => by cases h⟩
  simp [Phase.drainBegun]

theorem closeDrained_follows (manager : Manager) : manager.Follows manager.closeDrained := by
  unfold Manager.closeDrained
  split
  · exact Manager.Follows.refl manager
  · exact ⟨manager.phase.moves_self, fun _ => rfl⟩

/-- Closing the channel when draining has begun and nothing is active. -/
theorem closeDrained_sound (hcloses : manager.closes = if manager.drainOnce then 1 else 0)
    (hphase : manager.phase.drainBegun = true) (hactive : manager.active = 0) :
    manager.closeDrained.Sound ∧ manager.closeDrained.phase = manager.phase ∧
      manager.closeDrained.active = 0 := by
  unfold Manager.closeDrained
  by_cases honce : manager.drainOnce = true
  · rw [if_pos honce]
    exact ⟨⟨hcloses, iff_of_true honce ⟨hphase, hactive⟩, fun _ => hactive⟩, rfl, hactive⟩
  · rw [if_neg honce]
    rw [if_neg honce] at hcloses
    refine ⟨⟨?_, iff_of_true rfl ⟨hphase, hactive⟩, fun _ => hactive⟩, rfl, hactive⟩
    simp [hcloses]

theorem markReady_sound (h : manager.Sound) :
    manager.markReady.1.Sound ∧ manager.Follows manager.markReady.1 ∧
      manager.markReady.1.active = manager.active := by
  unfold Manager.markReady
  split_ifs with hready hstarting
  · exact ⟨h, Manager.Follows.refl manager, rfl⟩
  · exact ⟨h, Manager.Follows.refl manager, rfl⟩
  · have hphase : manager.phase = .starting := not_not.mp hstarting
    have honce : manager.drainOnce = false := by
      rw [← Bool.not_eq_true, h.drained, hphase]
      simp [Phase.drainBegun]
    refine ⟨⟨h.closes, ?_, fun hstop => by cases hstop⟩, ⟨?_, id⟩, rfl⟩
    · simp [honce, Phase.drainBegun]
    · rw [hphase]
      rfl

theorem beginDrain_sound (h : manager.Sound) :
    manager.beginDrain.Sound ∧ manager.Follows manager.beginDrain ∧
      manager.beginDrain.active = manager.active ∧
      manager.beginDrain.phase.drainBegun = true := by
  by_cases hopen : manager.phase = .starting ∨ manager.phase = .ready
  · have hmoves : manager.phase.moves .draining = true := by
      rcases hopen with heq | heq <;> rw [heq] <;> rfl
    have honce : manager.drainOnce = false := by
      rw [← Bool.not_eq_true, h.drained]
      rcases hopen with heq | heq <;> simp [heq, Phase.drainBegun]
    have hcloses := h.closes
    rw [honce] at hcloses
    by_cases hidle : manager.active = 0
    · have hbegin : manager.beginDrain =
          { manager with phase := .draining }.closeDrained := by
        simp [Manager.beginDrain, hopen, hidle]
      have hfollows := closeDrained_follows { manager with phase := .draining }
      obtain ⟨hsound, hphase, hactive⟩ := @closeDrained_sound { manager with phase := .draining }
        h.closes rfl hidle
      rw [hbegin]
      refine ⟨hsound, ⟨?_, hfollows.drainOnce⟩, hactive.trans hidle.symm, ?_⟩
      · rw [hphase]
        exact hmoves
      · rw [hphase]
        rfl
    · have hbegin : manager.beginDrain = { manager with phase := .draining } := by
        simp [Manager.beginDrain, hopen, hidle]
      rw [hbegin]
      refine ⟨⟨h.closes, ?_, fun hstop => by cases hstop⟩, ⟨hmoves, id⟩, rfl, rfl⟩
      simp [honce, hidle]
  · have hbegun : manager.phase.drainBegun = true := by
      revert hopen
      cases manager.phase <;> decide
    by_cases hidle : manager.phase = .draining ∧ manager.active = 0
    · have hbegin : manager.beginDrain = manager.closeDrained := by
        simp [Manager.beginDrain, hidle]
      obtain ⟨hsound, hphase, hactive⟩ := closeDrained_sound h.closes hbegun hidle.2
      rw [hbegin]
      refine ⟨hsound, closeDrained_follows manager, hactive.trans hidle.2.symm, ?_⟩
      rw [hphase]
      exact hbegun
    · have hbegin : manager.beginDrain = manager := by
        simp only [Manager.beginDrain, if_neg hopen, if_neg hidle]
      rw [hbegin]
      exact ⟨h, Manager.Follows.refl manager, rfl, hbegun⟩

theorem markStopped_sound (h : manager.Sound) :
    manager.markStopped.1.Sound ∧ manager.Follows manager.markStopped.1 ∧
      manager.markStopped.1.active = manager.active := by
  unfold Manager.markStopped
  split_ifs with hstopped hearly
  · exact ⟨h, Manager.Follows.refl manager, rfl⟩
  · exact ⟨h, Manager.Follows.refl manager, rfl⟩
  · rw [not_or, not_not, not_not] at hearly
    have honce : manager.drainOnce = true := by
      rw [h.drained, hearly.1]
      exact ⟨rfl, hearly.2⟩
    refine ⟨⟨h.closes, ?_, fun _ => hearly.2⟩, ⟨?_, id⟩, rfl⟩
    · exact iff_of_true honce ⟨rfl, hearly.2⟩
    · rw [hearly.1]
      rfl

/-- A request is admitted only when the process is ready. -/
theorem acquire_sound (h : manager.Sound) :
    manager.acquire.1.Sound ∧ manager.Follows manager.acquire.1 ∧
      manager.acquire.1.active = manager.active + (if manager.acquire.2 then 1 else 0) ∧
      (manager.acquire.2 = true → manager.phase = .ready) := by
  unfold Manager.acquire
  by_cases hready : manager.phase ≠ .ready
  · rw [if_pos hready]
    exact ⟨h, Manager.Follows.refl manager, by simp, fun hfalse => by cases hfalse⟩
  · rw [if_neg hready]
    have hphase : manager.phase = .ready := not_not.mp hready
    have honce : manager.drainOnce = false := by
      rw [← Bool.not_eq_true, h.drained, hphase]
      simp [Phase.drainBegun]
    refine ⟨⟨h.closes, ?_, fun hstop => ?_⟩, ⟨manager.phase.moves_self, id⟩, rfl,
      fun _ => hphase⟩
    · simp [honce, hphase, Phase.drainBegun]
    · cases hphase.symm.trans hstop

theorem release_sound (h : manager.Sound) (hactive : 0 < manager.active) :
    manager.release.Sound ∧ manager.Follows manager.release ∧
      manager.release.active = manager.active - 1 := by
  have honce : manager.drainOnce = false := by
    rw [← Bool.not_eq_true, h.drained]
    omega
  have hnotStopped : manager.phase ≠ .stopped := by
    intro hstop
    have hzero := h.stopped hstop
    omega
  by_cases hlast : manager.phase = .draining ∧ manager.active - 1 = 0
  · have hrelease : manager.release = { manager with active := manager.active - 1 }.closeDrained := by
      simp only [Manager.release, if_pos hlast]
    have hfollows := closeDrained_follows { manager with active := manager.active - 1 }
    have hphase : manager.phase.drainBegun = true := by
      rw [hlast.1]
      rfl
    obtain ⟨hsound, -, hzero⟩ := @closeDrained_sound { manager with active := manager.active - 1 }
      h.closes hphase hlast.2
    rw [hrelease]
    exact ⟨hsound, ⟨hfollows.moves, hfollows.drainOnce⟩, hzero.trans hlast.2.symm⟩
  · have hrelease : manager.release = { manager with active := manager.active - 1 } := by
      simp only [Manager.release, if_neg hlast]
    rw [hrelease]
    refine ⟨⟨h.closes, ?_, fun hstop => absurd hstop hnotStopped⟩,
      ⟨manager.phase.moves_self, id⟩, rfl⟩
    rw [honce]
    refine iff_of_false Bool.false_ne_true ?_
    rintro ⟨hbegun, hzero⟩
    apply hlast
    refine ⟨?_, hzero⟩
    revert hbegun hnotStopped
    cases manager.phase <;> decide

end Operations

/-! ### The server -/

section Server

/-- How often the callback has been invoked when its goroutine is about to clean up. -/
def Serve.earlier (serve : Serve) : ℕ := if serve.exited then 1 else 0

/-- What the point of a call of `Serve` says about its invocations of `Shutdown`. -/
def Serve.AtPoint (phase : Phase) (serve : Serve) : Prop :=
  match serve.point with
  | .preparing | .marking | .refused | .serving | .begin =>
    serve.shutdowns = 0 ∧ serve.exited = false ∧ serve.cleanupNeeded = true
  | .stopping | .drain | .waiting | .shutdown =>
    (serve.shutdowns = 0 ∧ serve.exited = false ∧ serve.cleanupNeeded = true) ∧
      phase.drainBegun = true
  | .calling | .markStopped =>
    serve.shutdowns = 1 ∧ serve.exited = false ∧ serve.cleanupNeeded = true
  | .reporting => serve.shutdowns = 1 ∧ serve.exited = false ∧ serve.cleanupNeeded = false
  | .leaving => if serve.cleanupNeeded then serve.shutdowns = serve.earlier
    else serve.shutdowns = 1 ∧ serve.exited = false
  | .cleanup => serve.shutdowns = serve.earlier
  | .cleanupDrain | .cleanupWaiting | .cleanupShutdown =>
    serve.shutdowns = serve.earlier ∧ phase.drainBegun = true
  | .cleanupCalling | .cleanupStopped | .ended => serve.shutdowns = serve.earlier + 1

/-- **The invariant of a call of `Serve`.** -/
structure Serve.Sound (phase : Phase) (serve : Serve) : Prop where
  point : serve.AtPoint phase
  afterDrain : serve.afterDrain = true

variable {manager : Manager} {serve : Serve}

theorem Serve.Sound.moves {before after : Phase} (h : serve.Sound before)
    (hmoves : before.moves after = true) : serve.Sound after := by
  refine ⟨?_, h.afterDrain⟩
  have hbegun := Phase.drainBegun_of_moves hmoves
  have hpoint := h.point
  unfold Serve.AtPoint at hpoint ⊢
  cases hcase : serve.point <;> simp only [hcase] at hpoint ⊢
  all_goals first
    | exact hpoint
    | exact ⟨hpoint.1, hbegun hpoint.2⟩

/-- What a step of `Serve` keeps. -/
structure Serve.Keeps (manager after : Manager) (next : Serve) : Prop where
  sound : after.Sound
  follows : manager.Follows after
  active : after.active = manager.active
  serve : next.Sound after.phase

theorem Serve.keeps_of_same (hm : manager.Sound) {next : Serve} (h : next.Sound manager.phase) :
    Serve.Keeps manager manager next :=
  ⟨hm, Manager.Follows.refl manager, rfl, h⟩

/-- The steps that start something on the manager. -/
theorem Serve.keeps_go (hm : manager.Sound) (h : serve.Sound manager.phase) {after : Manager}
    {next : Serve} (hstep : serve.step manager .go = some (after, next)) :
    Serve.Keeps manager after next := by
  have hpoint := h.point
  unfold Serve.AtPoint at hpoint
  simp only [Serve.step] at hstep
  split at hstep
  · next hcase =>
    simp only [hcase] at hpoint
    obtain ⟨hsound, hfollows, hactive⟩ := markReady_sound hm
    split at hstep <;> cases hstep
    · exact ⟨hsound, hfollows, hactive, hpoint, h.afterDrain⟩
    · exact ⟨hsound, hfollows, hactive, hpoint, h.afterDrain⟩
  · next hcase =>
    simp only [hcase] at hpoint
    cases hstep
    obtain ⟨hsound, hfollows, hactive, hbegun⟩ := beginDrain_sound hm
    exact ⟨hsound, hfollows, hactive, ⟨hpoint, hbegun⟩, h.afterDrain⟩
  · next hcase =>
    simp only [hcase] at hpoint
    cases hstep
    obtain ⟨hsound, hfollows, hactive, hbegun⟩ := beginDrain_sound hm
    exact ⟨hsound, hfollows, hactive, ⟨hpoint.1, hbegun⟩, h.afterDrain⟩
  · next hcase =>
    simp only [hcase] at hpoint
    cases hstep
    obtain ⟨⟨hcount, hexited, hneeded⟩, hbegun⟩ := hpoint
    refine Serve.keeps_of_same hm ⟨⟨?_, hexited, hneeded⟩, ?_⟩
    · rw [Serve.invoke, hcount]
    · rw [Serve.invoke, h.afterDrain, hbegun]
      rfl
  · next hcase =>
    simp only [hcase] at hpoint
    cases hstep
    obtain ⟨hsound, hfollows, hactive⟩ := markStopped_sound hm
    exact ⟨hsound, hfollows, hactive, ⟨hpoint.1, hpoint.2.1, rfl⟩, h.afterDrain⟩
  · next hcase =>
    simp only [hcase] at hpoint
    cases hstep
    obtain ⟨hcount, hexited, hneeded⟩ := hpoint
    refine Serve.keeps_of_same hm ⟨?_, h.afterDrain⟩
    simp only [Serve.AtPoint, hneeded]
    exact ⟨hcount, hexited⟩
  · next hcase =>
    simp only [hcase] at hpoint
    cases hstep
    refine Serve.keeps_of_same hm ⟨?_, h.afterDrain⟩
    by_cases hneeded : serve.cleanupNeeded = true
    · simp only [Serve.AtPoint, if_pos hneeded] at hpoint ⊢
      exact hpoint
    · rw [if_neg hneeded] at hpoint
      simp only [Serve.AtPoint, if_neg hneeded]
      rw [hpoint.1, Serve.earlier, hpoint.2]
      rfl
  · next hcase =>
    simp only [hcase] at hpoint
    cases hstep
    obtain ⟨hsound, hfollows, hactive, hbegun⟩ := beginDrain_sound hm
    exact ⟨hsound, hfollows, hactive, ⟨hpoint, hbegun⟩, h.afterDrain⟩
  · next hcase =>
    simp only [hcase] at hpoint
    cases hstep
    obtain ⟨hsound, hfollows, hactive, hbegun⟩ := beginDrain_sound hm
    exact ⟨hsound, hfollows, hactive, ⟨hpoint.1, hbegun⟩, h.afterDrain⟩
  · next hcase =>
    simp only [hcase] at hpoint
    cases hstep
    obtain ⟨hcount, hbegun⟩ := hpoint
    have hnext : (serve.invoke manager .cleanupCalling).AtPoint manager.phase := by
      have hsucc : serve.shutdowns + 1 = serve.earlier + 1 := congrArg (· + 1) hcount
      exact hsucc
    refine Serve.keeps_of_same hm ⟨hnext, ?_⟩
    rw [Serve.invoke, h.afterDrain, hbegun]
    rfl
  · next hcase =>
    simp only [hcase] at hpoint
    cases hstep
    obtain ⟨hsound, hfollows, hactive⟩ := markStopped_sound hm
    exact ⟨hsound, hfollows, hactive, hpoint, h.afterDrain⟩
  · cases hstep

/-- A step of `Serve` keeps both invariants. -/
theorem Serve.keeps_step (hm : manager.Sound) (h : serve.Sound manager.phase) {input : Input}
    {after : Manager} {next : Serve} (hstep : serve.step manager input = some (after, next)) :
    Serve.Keeps manager after next := by
  have hpoint := h.point
  unfold Serve.AtPoint at hpoint
  have hleaving : ∀ {errors : List String}, serve.shutdowns = 0 → serve.exited = false →
      serve.cleanupNeeded = true →
      Serve.Keeps manager manager { serve with point := .leaving, errors } := by
    intro errors hcount hexited hneeded
    refine Serve.keeps_of_same hm ⟨?_, h.afterDrain⟩
    simp only [Serve.AtPoint, if_pos hneeded, Serve.earlier, hexited]
    exact hcount
  cases input with
  | go => exact Serve.keeps_go hm h hstep
  | listen outcome =>
    simp only [Serve.step] at hstep
    split at hstep
    · next hcase =>
      simp only [hcase] at hpoint
      split at hstep <;> cases hstep
      · exact hleaving hpoint.1 hpoint.2.1 hpoint.2.2
      · exact Serve.keeps_of_same hm ⟨hpoint, h.afterDrain⟩
    · cases hstep
  | result err =>
    simp only [Serve.step] at hstep
    split at hstep
    · next hcase =>
      simp only [hcase] at hpoint
      cases hstep
      exact hleaving hpoint.1 hpoint.2.1 hpoint.2.2
    · next hcase =>
      simp only [hcase] at hpoint
      cases hstep
      exact Serve.keeps_of_same hm ⟨hpoint, h.afterDrain⟩
    · cases hstep
  | canceled =>
    simp only [Serve.step] at hstep
    split at hstep
    · next hcase =>
      simp only [hcase] at hpoint
      cases hstep
      exact Serve.keeps_of_same hm ⟨hpoint, h.afterDrain⟩
    · cases hstep
  | unwind =>
    simp only [Serve.step] at hstep
    split at hstep
    · next hcase =>
      simp only [hcase] at hpoint
      cases hstep
      exact hleaving hpoint.1 hpoint.2.1 hpoint.2.2
    · next hcase =>
      simp only [hcase] at hpoint
      cases hstep
      exact hleaving hpoint.1.1 hpoint.1.2.1 hpoint.1.2.2
    · next hcase =>
      simp only [hcase] at hpoint
      cases hstep
      obtain ⟨hcount, hexited, hneeded⟩ := hpoint
      refine Serve.keeps_of_same hm ⟨?_, h.afterDrain⟩
      simp only [Serve.AtPoint, hneeded]
      exact ⟨hcount, hexited⟩
    · cases hstep
  | stop serverErr completedErr =>
    simp only [Serve.step] at hstep
    split at hstep
    · next hcase =>
      simp only [hcase] at hpoint
      cases hstep
      exact Serve.keeps_of_same hm ⟨hpoint, h.afterDrain⟩
    · cases hstep
  | drained =>
    simp only [Serve.step] at hstep
    split at hstep
    · cases hstep
    · split at hstep
      · next hcase =>
        simp only [hcase] at hpoint
        cases hstep
        exact Serve.keeps_of_same hm ⟨hpoint, h.afterDrain⟩
      · next hcase =>
        simp only [hcase] at hpoint
        cases hstep
        exact Serve.keeps_of_same hm ⟨hpoint, h.afterDrain⟩
      · cases hstep
  | timeout err =>
    simp only [Serve.step] at hstep
    split at hstep
    · next hcase =>
      simp only [hcase] at hpoint
      cases hstep
      exact Serve.keeps_of_same hm ⟨hpoint, h.afterDrain⟩
    · next hcase =>
      simp only [hcase] at hpoint
      cases hstep
      exact Serve.keeps_of_same hm ⟨hpoint, h.afterDrain⟩
    · cases hstep
  | callback ending =>
    simp only [Serve.step] at hstep
    split at hstep
    · next hcase =>
      simp only [hcase] at hpoint
      split at hstep <;> cases hstep
      · -- the deferred function will invoke the callback once more
        refine Serve.keeps_of_same hm ⟨?_, h.afterDrain⟩
        simp only [Serve.AtPoint, hpoint.2.2, if_true, Serve.earlier]
        exact hpoint.1
      · exact Serve.keeps_of_same hm ⟨hpoint, h.afterDrain⟩
    · next hcase =>
      simp only [hcase] at hpoint
      split at hstep <;> cases hstep
      · exact Serve.keeps_of_same hm ⟨hpoint, h.afterDrain⟩
      · exact Serve.keeps_of_same hm ⟨hpoint, h.afterDrain⟩
    · cases hstep

end Server

/-! ### Every interleaving -/

section Runs

/-- The number of admitted requests that are not released. -/
def State.admitted (s : State) : ℕ := s.requests.countP Request.active

/-- **The invariant.** -/
structure Inv (s : State) : Prop where
  manager : s.manager.Sound
  active : s.manager.active = s.admitted
  drains : ∀ drain ∈ s.drains, drain = .returned none → s.manager.drainOnce = true
  serves : ∀ serve ∈ s.serves, serve.Sound s.manager.phase

/-- What one step does: the phase moves as it may, and a request is admitted only in the ready
phase. -/
structure Moves (s next : State) : Prop where
  phase : s.manager.phase.moves next.manager.phase = true
  admits : s.admitted < next.admitted → s.manager.phase = .ready

variable {s next : State}

theorem inv_initial : Inv {} where
  manager := sound_initial
  active := rfl
  drains := fun _ h => by cases h
  serves := fun _ h => by cases h

/-- A step of the manager alone. -/
theorem Inv.follow (h : Inv s) {after : Manager} (hsound : after.Sound)
    (hfollows : s.manager.Follows after) (hactive : after.active = s.manager.active) :
    Inv { s with manager := after } where
  manager := hsound
  active := hactive.trans h.active
  drains := fun drain hmem heq => hfollows.drainOnce (h.drains drain hmem heq)
  serves := fun serve hmem => (h.serves serve hmem).moves hfollows.moves

theorem moves_of_follows {after : Manager} (hfollows : s.manager.Follows after) :
    Moves s { s with manager := after } :=
  ⟨hfollows.moves, fun hlt => absurd hlt (Nat.lt_irrefl _)⟩

/-- A request arrives. -/
theorem Inv.request (h : Inv s) :
    Inv { s with
        manager := s.manager.acquire.1
        requests := s.requests ++ [if s.manager.acquire.2 then .running else .refused] } ∧
      Moves s { s with
        manager := s.manager.acquire.1
        requests := s.requests ++ [if s.manager.acquire.2 then .running else .refused] } := by
  obtain ⟨hsound, hfollows, hactive, hready⟩ := acquire_sound h.manager
  have hcount : (s.requests ++ [if s.manager.acquire.2 then Request.running else .refused]).countP
      Request.active = s.admitted + (if s.manager.acquire.2 then 1 else 0) := by
    rw [List.countP_append]
    cases s.manager.acquire.2 <;> rfl
  refine ⟨⟨hsound, ?_, ?_, ?_⟩, ⟨hfollows.moves, fun hlt => ?_⟩⟩
  · unfold State.admitted
    rw [hactive, h.active, hcount]
    cases s.manager.acquire.2 <;> simp
  · exact fun drain hmem heq => hfollows.drainOnce (h.drains drain hmem heq)
  · exact fun serve hmem => (h.serves serve hmem).moves hfollows.moves
  · apply hready
    by_contra hrefused
    unfold State.admitted at hlt
    rw [hcount, if_neg hrefused] at hlt
    exact absurd hlt (Nat.lt_irrefl _)

/-- The handler of a request ends. -/
theorem Inv.handler (h : Inv s) {i : ℕ} (hold : s.requests[i]? = some .running) (ending : Ending) :
    Inv { s with requests := s.requests.set i (.unwinding ending) } ∧
      Moves s { s with requests := s.requests.set i (.unwinding ending) } := by
  have hcount : (s.requests.set i (.unwinding ending)).countP Request.active = s.admitted := by
    have hset := countP_set Request.active hold (.unwinding ending)
    exact Nat.add_right_cancel hset
  refine ⟨⟨h.manager, ?_, h.drains, h.serves⟩, ⟨s.manager.phase.moves_self, fun hlt => ?_⟩⟩
  · unfold State.admitted
    rw [hcount]
    exact h.active
  · unfold State.admitted at hlt
    rw [hcount] at hlt
    exact absurd hlt (Nat.lt_irrefl _)

/-- A request is released. -/
theorem Inv.release (h : Inv s) {i : ℕ} {ending : Ending}
    (hold : s.requests[i]? = some (.unwinding ending)) :
    Inv { s with manager := s.manager.release, requests := s.requests.set i .over } ∧
      Moves s { s with manager := s.manager.release, requests := s.requests.set i .over } := by
  have hcount : (s.requests.set i .over).countP Request.active + 1 = s.admitted :=
    countP_set Request.active hold .over
  have hpositive : 0 < s.manager.active := by
    rw [h.active]
    omega
  obtain ⟨hsound, hfollows, hactive⟩ := release_sound h.manager hpositive
  refine ⟨⟨hsound, ?_, ?_, ?_⟩, ⟨hfollows.moves, fun hlt => ?_⟩⟩
  · have hbefore := h.active
    unfold State.admitted
    dsimp only
    omega
  · exact fun drain hmem heq => hfollows.drainOnce (h.drains drain hmem heq)
  · exact fun serve hmem => (h.serves serve hmem).moves hfollows.moves
  · unfold State.admitted at hlt hcount
    dsimp only at hlt
    omega

/-- `Drain` has begun draining and waits. -/
theorem Inv.drain (h : Inv s) :
    Inv { s with manager := s.manager.beginDrain, drains := s.drains ++ [.waiting] } ∧
      Moves s { s with manager := s.manager.beginDrain, drains := s.drains ++ [.waiting] } := by
  obtain ⟨hsound, hfollows, hactive, -⟩ := beginDrain_sound h.manager
  have hfollow := h.follow hsound hfollows hactive
  refine ⟨⟨hsound, hfollow.active, ?_, hfollow.serves⟩,
    ⟨hfollows.moves, fun hlt => absurd hlt (Nat.lt_irrefl _)⟩⟩
  intro drain hmem heq
  rcases List.mem_append.mp hmem with hmem | hmem
  · exact hfollow.drains drain hmem heq
  · cases (List.mem_singleton.mp hmem).symm.trans heq

/-- `Drain` returns; nil only when the channel is closed. -/
theorem Inv.drainReturns (h : Inv s) {i : ℕ} {err : Option String}
    (hnil : err = none → s.manager.drainOnce = true) :
    Inv { s with drains := s.drains.set i (.returned err) } ∧
      Moves s { s with drains := s.drains.set i (.returned err) } := by
  refine ⟨⟨h.manager, h.active, ?_, h.serves⟩,
    ⟨s.manager.phase.moves_self, fun hlt => absurd hlt (Nat.lt_irrefl _)⟩⟩
  intro drain hmem heq
  rcases mem_of_mem_set hmem with rfl | hmem
  · exact hnil (Drain.returned.inj heq)
  · exact h.drains drain hmem heq

/-- A call of `Serve` takes a step. -/
theorem Inv.advance (h : Inv s) {i : ℕ} {serve after : Serve} {input : Input} {manager : Manager}
    (hold : s.serves[i]? = some serve) (hstep : serve.step s.manager input = some (manager, after)) :
    Inv { s with manager, serves := s.serves.set i after } ∧
      Moves s { s with manager, serves := s.serves.set i after } := by
  have hkeeps := Serve.keeps_step h.manager (h.serves serve (List.mem_of_getElem? hold)) hstep
  have hfollow := h.follow hkeeps.sound hkeeps.follows hkeeps.active
  refine ⟨⟨hkeeps.sound, hfollow.active, hfollow.drains, ?_⟩,
    ⟨hkeeps.follows.moves, fun hlt => absurd hlt (Nat.lt_irrefl _)⟩⟩
  intro other hmem
  rcases mem_of_mem_set hmem with rfl | hmem
  · exact hkeeps.serve
  · exact hfollow.serves other hmem

/-- A step keeps the invariant and moves as it may. -/
theorem Inv.keep (h : Inv s) {event : Event} (hstep : step s event = some next) :
    Inv next ∧ Moves s next := by
  cases event with
  | markReady =>
    cases hstep
    obtain ⟨hsound, hfollows, hactive⟩ := markReady_sound h.manager
    exact ⟨h.follow hsound hfollows hactive, moves_of_follows hfollows⟩
  | beginDrain =>
    cases hstep
    obtain ⟨hsound, hfollows, hactive, -⟩ := beginDrain_sound h.manager
    exact ⟨h.follow hsound hfollows hactive, moves_of_follows hfollows⟩
  | markStopped =>
    cases hstep
    obtain ⟨hsound, hfollows, hactive⟩ := markStopped_sound h.manager
    exact ⟨h.follow hsound hfollows hactive, moves_of_follows hfollows⟩
  | request =>
    cases hstep
    exact h.request
  | handler i ending =>
    simp only [step] at hstep
    split at hstep
    · next hold =>
      cases hstep
      exact h.handler hold ending
    · cases hstep
  | release i =>
    simp only [step] at hstep
    split at hstep
    · next hold =>
      cases hstep
      exact h.release hold
    · cases hstep
  | drain =>
    cases hstep
    exact h.drain
  | drained i =>
    simp only [step] at hstep
    split at hstep
    · split at hstep
      · cases hstep
      · next hopen =>
        cases hstep
        refine h.drainReturns fun _ => ?_
        have hcloses := h.manager.closes
        by_contra honce
        rw [if_neg honce] at hcloses
        exact hopen hcloses
    · cases hstep
  | drainDone i err =>
    simp only [step] at hstep
    split at hstep
    · cases hstep
      exact h.drainReturns fun hnone => by cases hnone
    · cases hstep
  | serve options =>
    cases hstep
    refine ⟨⟨h.manager, h.active, h.drains, ?_⟩,
      ⟨s.manager.phase.moves_self, fun hlt => absurd hlt (Nat.lt_irrefl _)⟩⟩
    intro serve hmem
    rcases List.mem_append.mp hmem with hmem | hmem
    · exact h.serves serve hmem
    · obtain rfl := List.mem_singleton.mp hmem
      exact ⟨⟨rfl, rfl, rfl⟩, rfl⟩
  | advance i input =>
    simp only [step] at hstep
    split at hstep
    · next serve hold =>
      obtain ⟨⟨manager, after⟩, hserve, heq⟩ := Option.map_eq_some_iff.mp hstep
      cases heq
      exact h.advance hold hserve
    · cases hstep

theorem inv_of_run {events : List Event} (hrun : run step events {} = some s) : Inv s :=
  run_induction (P := fun _ s => Inv s) inv_initial
    (fun _ _ _ _ h hstep => (h.keep hstep).1) hrun

/-- Draining has begun and no admitted request is active; from here on none is admitted. -/
structure Quiet (s : State) : Prop where
  begun : s.manager.phase.drainBegun = true
  idle : ∀ request ∈ s.requests, request.active = false

/-- What holds of the manager and the calls on it in every state reached. -/
structure Meets (s : State) : Prop where
  closes : s.manager.closes ≤ 1
  closed : s.manager.closes = 1 → Quiet s
  drained : ∀ drain ∈ s.drains, drain = .returned none → Quiet s
  stopped : s.manager.phase = .stopped → Quiet s
  afterDrain : ∀ serve ∈ s.serves, serve.afterDrain = true
  once : ∀ serve ∈ s.serves, serve.point = .ended → (serve.shutdowns = 1 ↔ serve.exited = false)

theorem Inv.quiet (h : Inv s) (hbegun : s.manager.phase.drainBegun = true)
    (hactive : s.manager.active = 0) : Quiet s := by
  refine ⟨hbegun, ?_⟩
  have hzero : s.admitted = 0 := by
    have hcount := h.active
    omega
  intro request hmem
  have hnone := List.countP_eq_zero.mp hzero request hmem
  simpa using hnone

theorem Inv.quiet_of_drainOnce (h : Inv s) (honce : s.manager.drainOnce = true) : Quiet s := by
  obtain ⟨hbegun, hactive⟩ := h.manager.drained.mp honce
  exact h.quiet hbegun hactive

theorem Inv.meets (h : Inv s) : Meets s := by
  have hcloses := h.manager.closes
  constructor
  · rw [hcloses]
    split <;> omega
  · intro hone
    apply h.quiet_of_drainOnce
    by_contra honce
    rw [if_neg honce, hone] at hcloses
    omega
  · intro drain hmem heq
    exact h.quiet_of_drainOnce (h.drains drain hmem heq)
  · intro hstop
    refine h.quiet ?_ (h.manager.stopped hstop)
    rw [hstop]
    rfl
  · intro serve hmem
    exact (h.serves serve hmem).afterDrain
  · intro serve hmem hended
    have hpoint := (h.serves serve hmem).point
    unfold Serve.AtPoint at hpoint
    simp only [hended, Serve.earlier] at hpoint
    rw [hpoint]
    cases serve.exited <;> simp

/-- **Every interleaving of the calls on a manager**: each step moves the phase and admits requests
as it may, and each state reached is as it should be; a call of `Serve` that has ended has invoked
`Shutdown` exactly once, unless the callback ended the goroutine of `Serve`. -/
theorem process_sound {events : List Event} (hrun : run step events {} = some s) :
    Meets s ∧ ∀ event next, step s event = some next → Moves s next := by
  have h := inv_of_run hrun
  exact ⟨h.meets, fun event next hstep => (h.keep hstep).2⟩

/-- A process that becomes ready, admits a request, is told to stop, and shuts down. -/
def servedEvents : List Event :=
  [.serve {}, .advance 0 (.listen (.ok ())), .advance 0 .go, .request, .advance 0 .canceled,
    .advance 0 .go, .request, .handler 0 .panicked, .release 0, .advance 0 (.stop none none),
    .advance 0 .go, .advance 0 .drained, .advance 0 .go, .advance 0 (.callback (.returned none)),
    .advance 0 .go, .advance 0 .go, .advance 0 .go]

theorem process_sound_served :
    ∃ s, run step servedEvents {} = some s ∧
      (s.manager.phase = .stopped ∧ s.requests = [.over, .refused] ∧
        s.serves.map Serve.shutdowns = [1]) ∧
      Meets s ∧ ∀ event next, step s event = some next → Moves s next := by
  have heval : (run step servedEvents {}).map (fun s =>
      (s.manager.phase, s.requests, s.serves.map Serve.shutdowns)) =
        some (.stopped, [.over, .refused], [1]) := by decide +kernel
  obtain ⟨s, hrun, heval⟩ := Option.map_eq_some_iff.mp heval
  obtain ⟨hphase, hrest⟩ := Prod.mk.inj heval
  obtain ⟨hrequests, hserves⟩ := Prod.mk.inj hrest
  exact ⟨s, hrun, ⟨hphase, hrequests, hserves⟩, process_sound hrun⟩

/-- The same process, whose shutdown callback ends its goroutine. -/
def exitedEvents : List Event :=
  [.serve {}, .advance 0 (.listen (.ok ())), .advance 0 .go, .advance 0 .canceled,
    .advance 0 .go, .advance 0 (.stop none none), .advance 0 .go, .advance 0 .drained,
    .advance 0 .go, .advance 0 (.callback .exited), .advance 0 .go, .advance 0 .go, .advance 0 .go,
    .advance 0 .drained, .advance 0 .go, .advance 0 (.callback (.returned none)), .advance 0 .go]

/-- **`Shutdown` is invoked twice** when the callback ends the goroutine of `Serve`: its deferred
function still takes the cleanup to be needed. -/
theorem shutdown_invoked_twice :
    ∃ s, run step exitedEvents {} = some s ∧
      ∃ serve ∈ s.serves, serve.point = .ended ∧ serve.shutdowns = 2 := by
  have heval : (run step exitedEvents {}).map (fun s =>
      s.serves.map fun serve => (serve.point, serve.shutdowns)) = some [(.ended, 2)] := by
    decide +kernel
  obtain ⟨s, hrun, heval⟩ := Option.map_eq_some_iff.mp heval
  refine ⟨s, hrun, ?_⟩
  have hmem : (Point.ended, 2) ∈ s.serves.map fun serve => (serve.point, serve.shutdowns) := by
    rw [heval]
    exact List.mem_singleton_self _
  obtain ⟨serve, hserve, heq⟩ := List.mem_map.mp hmem
  exact ⟨serve, hserve, (Prod.mk.inj heq).1, (Prod.mk.inj heq).2⟩

end Runs

end Modary.Process.Admission
