import Mathlib.Data.Finset.Card
import Mathlib.Logic.Function.Basic
import Mathlib.Tactic.IntervalCases
import Modary.Lib.Machine

/-! # The gate of the assembled facades

`assemblyGate` and the facade methods over it, under any interleaving of their calls and of `revoke`.
A method is the list of the points at which it touches the gate or calls code of others; a panic
there unwinds the method and runs what it has deferred. -/

namespace Modary.Module.Facades

open Modary.Lib.Machine

/-! ### The gate -/

/-- `assemblyGate`; `closes` counts the calls of `close(gate.drained)`. -/
structure Gate where
  isOpen : Bool := true
  active : ℤ := 0
  drainOne : Bool := false
  closes : ℕ := 0
  deriving DecidableEq, Repr

/-- `gate.drainOne.Do(func() { close(gate.drained) })`. -/
def Gate.drain (gate : Gate) : Gate :=
  if gate.drainOne then gate else { gate with drainOne := true, closes := gate.closes + 1 }

/-- The section of `acquire`. -/
def Gate.acquire (gate : Gate) : Option Gate :=
  if gate.isOpen then some { gate with active := gate.active + 1 } else none

/-- `release`. -/
def Gate.release (gate : Gate) : Gate :=
  let gate := { gate with active := gate.active - 1 }
  if !gate.isOpen && gate.active == 0 then gate.drain else gate

/-- `revoke`. -/
def Gate.revoke (gate : Gate) : Gate :=
  if gate.isOpen then
    let gate := { gate with isOpen := false }
    if gate.active == 0 then gate.drain else gate
  else gate

/-! ### The methods -/

/-- The points of a facade method. -/
inductive Instr
  /-- `gate.acquire` for the call -/
  | acquire
  /-- `defer release()` -/
  | deferRelease
  /-- `StartOperation`: `gate.acquire` for the operation -/
  | startAcquire
  /-- `StartOperation` of the observer behind the gate -/
  | startNext
  /-- the wrapped service, or `WrapHTTP` of the observer -/
  | service
  /-- the wrapped `QueryContext` -/
  | query
  /-- the method returns a value that keeps the leases -/
  | handOver
  /-- `Err` of exhausted rows, or `Close` of the wrapped rows -/
  | rowsEnd
  /-- `Next` or `Close` of rows that wrap nothing -/
  | rowsNil
  /-- the `finish` function of the observer behind the gate -/
  | finishNext
  /-- `release()` of the operation, after its `finish` -/
  | finishRelease
  /-- `release()` of the call -/
  | release
  deriving DecidableEq, Repr

/-- A method that defers its release and calls one service. -/
def guarded : List Instr := [.acquire, .deferRelease, .service]

/-- `beginOperation`, the wrapped service, `finish`. -/
def operation : List Instr := [.startAcquire, .startNext, .service, .finishNext, .finishRelease]

/-- A method that defers its release and reports the service to the observer. -/
def observedMethod : List Instr := .acquire :: .deferRelease :: operation

/-- `assemblyRows.finish`, and the error path of `QueryContext`. -/
def rowsFinish : List Instr := [.finishNext, .finishRelease, .release]

/-- `QueryContext` behind a wrapped one that gave neither rows nor an error: the rows it hands over
wrap nil, and their `Next` and `Close` return before `finish`. -/
def nilRows : List Instr := [.handOver, .rowsNil]

/-- The methods of the assembled facades. `scanRow` is `assemblyLazyRow.Scan`, `serveHTTP` the
handler that `WrapHTTP` returns, `handle` the handler a task runner calls. -/
inductive Method
  | preview | execute | cleanupExpiredPlans
  | execContext | queryContext | scanRow | withinTransaction
  | authorize | resolveByID | authenticatePassword | begin | complete
  | createSession | revokeSession | resolveSession | authenticateToken
  | wrapHTTP | serveHTTP | ready | startOperation
  | enqueue | newRunner | handle | listTasks | listAudit
  deriving DecidableEq, Repr

/-- What a method does, in order. -/
def Method.script : Method → List Instr
  | .preview | .execute | .cleanupExpiredPlans => guarded
  | .authorize | .resolveByID | .authenticatePassword | .begin | .complete => guarded
  | .createSession | .revokeSession | .resolveSession | .authenticateToken => guarded
  | .serveHTTP | .ready | .newRunner | .listAudit => guarded
  | .execContext | .scanRow | .withinTransaction | .enqueue | .listTasks => observedMethod
  | .handle => operation
  | .queryContext =>
    [.acquire, .startAcquire, .startNext, .query, .handOver, .rowsEnd] ++ rowsFinish
  | .wrapHTTP => [.acquire, .service, .release]
  | .startOperation => [.startAcquire, .startNext, .handOver, .finishNext, .finishRelease]

/-! ### The calls -/

/-- A lease of a call; its `sync.Once` lets only a held lease be released. -/
inductive Lease
  | absent
  | held
  | released
  deriving DecidableEq, Repr

inductive Phase
  | idle
  | running
  /-- the rows or the operation are with the caller -/
  | handed
  /-- ending the rows panicked or returned before their lease was touched -/
  | stuck
  | ended
  deriving DecidableEq, Repr

/-- A call: what is left of its method, and its leases. -/
structure Call where
  phase : Phase := .idle
  code : List Instr := []
  deferred : Bool := false
  own : Lease := .absent
  op : Lease := .absent
  deriving DecidableEq, Repr

/-- How the code of others comes back. -/
inductive Outcome
  | ok
  | error
  /-- nil rows and a nil error -/
  | nothing
  | panic
  deriving DecidableEq, Repr

structure World where
  gate : Gate
  call : ℕ → Call

def World.init : World := { gate := {}, call := fun _ => {} }

inductive Event
  | call (c : ℕ) (method : Method)
  | exec (c : ℕ) (outcome : Outcome)
  /-- the caller exhausts or closes the rows, or finishes the operation -/
  | resume (c : ℕ)
  | revoke
  deriving DecidableEq, Repr

def World.go (w : World) (c : ℕ) (next : Call) (gate : Gate) : World :=
  { gate := gate, call := Function.update w.call c next }

/-- The call returns or unwinds: what it deferred is run. -/
def World.exit (w : World) (c : ℕ) : World :=
  if (w.call c).deferred && (w.call c).own == .held then
    w.go c { w.call c with phase := .ended, code := [], own := .released } w.gate.release
  else w.go c { w.call c with phase := .ended, code := [] } w.gate

/-- The next point of a running call; only code of others fails or panics. Without an observer, or
when the gate is closed by then, `StartOperation` gives a `finish` that does nothing. -/
def World.exec (observed : Bool) (w : World) (c : ℕ) (outcome : Outcome) : Option World :=
  let call := w.call c
  match call.code, outcome with
  | [], .ok => some (w.exit c)
  | .acquire :: rest, .ok =>
    match w.gate.acquire with
    | some gate => some (w.go c { call with code := rest, own := .held } gate)
    | none => some (w.exit c)
  -- the context is nil
  | .acquire :: _, .error => some (w.exit c)
  | .deferRelease :: rest, .ok => some (w.go c { call with code := rest, deferred := true } w.gate)
  | .startAcquire :: rest, .ok =>
    match observed, w.gate.acquire with
    | true, some gate => some (w.go c { call with code := rest, op := .held } gate)
    | _, _ => some (w.go c { call with code := rest } w.gate)
  | .startAcquire :: rest, .error => some (w.go c { call with code := rest } w.gate)
  | .startNext :: rest, .ok => some (w.go c { call with code := rest } w.gate)
  | .startNext :: _, .panic => if call.op = .held then some (w.exit c) else none
  | .service :: rest, .ok => some (w.go c { call with code := rest } w.gate)
  | .service :: rest, .error => some (w.go c { call with code := rest } w.gate)
  | .service :: _, .panic => some (w.exit c)
  | .query :: rest, .ok => some (w.go c { call with code := rest } w.gate)
  | .query :: _, .error => some (w.go c { call with code := rowsFinish } w.gate)
  | .query :: _, .nothing => some (w.go c { call with code := nilRows } w.gate)
  | .query :: _, .panic => some (w.exit c)
  | .handOver :: rest, .ok => some (w.go c { call with code := rest, phase := .handed } w.gate)
  | .rowsEnd :: rest, .ok => some (w.go c { call with code := rest } w.gate)
  | .rowsEnd :: rest, .error => some (w.go c { call with code := rest } w.gate)
  | .rowsEnd :: _, .panic => some (w.go c { call with phase := .stuck } w.gate)
  | .rowsNil :: _, .ok => some (w.go c { call with phase := .stuck } w.gate)
  | .finishNext :: rest, .ok => some (w.go c { call with code := rest } w.gate)
  | .finishNext :: _, .panic => if call.op = .held then some (w.exit c) else none
  | .finishRelease :: rest, .ok =>
    if call.op = .held then
      some (w.go c { call with code := rest, op := .released } w.gate.release)
    else some (w.go c { call with code := rest } w.gate)
  | .release :: rest, .ok =>
    if call.own = .held then
      some (w.go c { call with code := rest, own := .released } w.gate.release)
    else some (w.go c { call with code := rest } w.gate)
  | _, _ => none

/-- One event; `none` when it cannot happen. -/
def step (observed : Bool) (w : World) : Event → Option World
  | .call c method =>
    if (w.call c).phase = .idle then
      some (w.go c { phase := .running, code := method.script } w.gate)
    else none
  | .exec c outcome => if (w.call c).phase = .running then w.exec observed c outcome else none
  | .resume c =>
    if (w.call c).phase = .handed ∨ (w.call c).phase = .stuck then
      some (w.go c { w.call c with phase := .running } w.gate)
    else none
  | .revoke => some { w with gate := w.gate.revoke }

/-- A run from a new gate. -/
def Run (observed : Bool) (es : List Event) (w : World) : Prop :=
  run (step observed) es World.init = some w

/-! ### What one event does -/

/-- The lease of the instruction is not there to be released, or the instruction has none. -/
def Call.passes (call : Call) : Instr → Prop
  | .acquire => False
  | .deferRelease => False
  | .handOver => False
  | .rowsNil => False
  | .finishRelease => call.op ≠ .held
  | .release => call.own ≠ .held
  | _ => True

/-- What one event does. -/
inductive Step (w : World) : Event → World → Prop
  | call {c : ℕ} {method : Method} (hc : (w.call c).phase = .idle) :
      Step w (.call c method) (w.go c { phase := .running, code := method.script } w.gate)
  | returns {c : ℕ} (hc : (w.call c).phase = .running) (hcode : (w.call c).code = []) :
      Step w (.exec c .ok) (w.exit c)
  | refused {c : ℕ} {outcome : Outcome} {rest : List Instr} (hc : (w.call c).phase = .running)
      (hcode : (w.call c).code = .acquire :: rest) (ho : outcome ≠ .panic) :
      Step w (.exec c outcome) (w.exit c)
  | takeOwn {c : ℕ} {rest : List Instr} (hc : (w.call c).phase = .running)
      (hcode : (w.call c).code = .acquire :: rest) (hg : w.gate.isOpen = true) :
      Step w (.exec c .ok) (w.go c { w.call c with code := rest, own := .held }
        { w.gate with active := w.gate.active + 1 })
  | defers {c : ℕ} {rest : List Instr} (hc : (w.call c).phase = .running)
      (hcode : (w.call c).code = .deferRelease :: rest) :
      Step w (.exec c .ok) (w.go c { w.call c with code := rest, deferred := true } w.gate)
  | takeOp {c : ℕ} {rest : List Instr} (hc : (w.call c).phase = .running)
      (hcode : (w.call c).code = .startAcquire :: rest) (hg : w.gate.isOpen = true) :
      Step w (.exec c .ok) (w.go c { w.call c with code := rest, op := .held }
        { w.gate with active := w.gate.active + 1 })
  | passes {c : ℕ} {outcome : Outcome} {head : Instr} {rest : List Instr}
      (hc : (w.call c).phase = .running) (hcode : (w.call c).code = head :: rest)
      (ho : outcome ≠ .panic) (hp : (w.call c).passes head) :
      Step w (.exec c outcome) (w.go c { w.call c with code := rest } w.gate)
  | fails {c : ℕ} {rest : List Instr} (hc : (w.call c).phase = .running)
      (hcode : (w.call c).code = .query :: rest) :
      Step w (.exec c .error) (w.go c { w.call c with code := rowsFinish } w.gate)
  | nils {c : ℕ} {rest : List Instr} (hc : (w.call c).phase = .running)
      (hcode : (w.call c).code = .query :: rest) :
      Step w (.exec c .nothing) (w.go c { w.call c with code := nilRows } w.gate)
  | unwinds {c : ℕ} {head : Instr} {rest : List Instr} (hc : (w.call c).phase = .running)
      (hcode : (w.call c).code = head :: rest) (hh : head ≠ .rowsEnd) :
      Step w (.exec c .panic) (w.exit c)
  | hands {c : ℕ} {rest : List Instr} (hc : (w.call c).phase = .running)
      (hcode : (w.call c).code = .handOver :: rest) :
      Step w (.exec c .ok) (w.go c { w.call c with code := rest, phase := .handed } w.gate)
  | sticks {c : ℕ} {rest : List Instr} (hc : (w.call c).phase = .running)
      (hcode : (w.call c).code = .rowsEnd :: rest) :
      Step w (.exec c .panic) (w.go c { w.call c with phase := .stuck } w.gate)
  | skips {c : ℕ} {rest : List Instr} (hc : (w.call c).phase = .running)
      (hcode : (w.call c).code = .rowsNil :: rest) :
      Step w (.exec c .ok) (w.go c { w.call c with phase := .stuck } w.gate)
  | dropOp {c : ℕ} {rest : List Instr} (hc : (w.call c).phase = .running)
      (hcode : (w.call c).code = .finishRelease :: rest) (hop : (w.call c).op = .held) :
      Step w (.exec c .ok) (w.go c { w.call c with code := rest, op := .released } w.gate.release)
  | dropOwn {c : ℕ} {rest : List Instr} (hc : (w.call c).phase = .running)
      (hcode : (w.call c).code = .release :: rest) (hown : (w.call c).own = .held) :
      Step w (.exec c .ok) (w.go c { w.call c with code := rest, own := .released } w.gate.release)
  | resume {c : ℕ} (hc : (w.call c).phase = .handed ∨ (w.call c).phase = .stuck) :
      Step w (.resume c) (w.go c { w.call c with phase := .running } w.gate)
  | revoke : Step w .revoke { w with gate := w.gate.revoke }

theorem exec_cases {observed : Bool} {w w' : World} {c : ℕ} {outcome : Outcome}
    (hc : (w.call c).phase = .running) (h : w.exec observed c outcome = some w') :
    Step w (.exec c outcome) w' := by
  unfold World.exec at h
  dsimp only at h
  split at h
  · next hcode => exact Option.some.inj h ▸ .returns hc hcode
  · next hcode =>
    rw [Gate.acquire] at h
    by_cases hg : w.gate.isOpen = true
    · rw [if_pos hg] at h
      exact Option.some.inj h ▸ .takeOwn hc hcode hg
    · rw [if_neg hg] at h
      exact Option.some.inj h ▸ .refused hc hcode (by simp)
  · next hcode => exact Option.some.inj h ▸ .refused hc hcode (by simp)
  · next hcode => exact Option.some.inj h ▸ .defers hc hcode
  · next hcode =>
    split at h
    · next gate hg =>
      rw [Gate.acquire] at hg
      split at hg
      · next hopen =>
        obtain rfl := Option.some.inj hg
        exact Option.some.inj h ▸ .takeOp hc hcode hopen
      · cases hg
    · exact Option.some.inj h ▸ .passes hc hcode (by simp) trivial
  · next hcode => exact Option.some.inj h ▸ .passes hc hcode (by simp) trivial
  · next hcode => exact Option.some.inj h ▸ .passes hc hcode (by simp) trivial
  · next hcode =>
    split at h
    · exact Option.some.inj h ▸ .unwinds hc hcode (by simp)
    · cases h
  · next hcode => exact Option.some.inj h ▸ .passes hc hcode (by simp) trivial
  · next hcode => exact Option.some.inj h ▸ .passes hc hcode (by simp) trivial
  · next hcode => exact Option.some.inj h ▸ .unwinds hc hcode (by simp)
  · next hcode => exact Option.some.inj h ▸ .passes hc hcode (by simp) trivial
  · next hcode => exact Option.some.inj h ▸ .fails hc hcode
  · next hcode => exact Option.some.inj h ▸ .nils hc hcode
  · next hcode => exact Option.some.inj h ▸ .unwinds hc hcode (by simp)
  · next hcode => exact Option.some.inj h ▸ .hands hc hcode
  · next hcode => exact Option.some.inj h ▸ .passes hc hcode (by simp) trivial
  · next hcode => exact Option.some.inj h ▸ .passes hc hcode (by simp) trivial
  · next hcode => exact Option.some.inj h ▸ .sticks hc hcode
  · next hcode => exact Option.some.inj h ▸ .skips hc hcode
  · next hcode => exact Option.some.inj h ▸ .passes hc hcode (by simp) trivial
  · next hcode =>
    split at h
    · exact Option.some.inj h ▸ .unwinds hc hcode (by simp)
    · cases h
  · next hcode =>
    split at h
    · next hop => exact Option.some.inj h ▸ .dropOp hc hcode hop
    · next hop => exact Option.some.inj h ▸ .passes hc hcode (by simp) hop
  · next hcode =>
    split at h
    · next hown => exact Option.some.inj h ▸ .dropOwn hc hcode hown
    · next hown => exact Option.some.inj h ▸ .passes hc hcode (by simp) hown
  · cases h

theorem step_cases {observed : Bool} {w w' : World} {e : Event}
    (h : step observed w e = some w') : Step w e w' := by
  cases e with
  | call c method =>
    rw [step] at h
    split at h
    · next hc => exact Option.some.inj h ▸ .call hc
    · cases h
  | exec c outcome =>
    rw [step] at h
    split at h
    · next hc => exact exec_cases hc h
    · cases h
  | resume c =>
    rw [step] at h
    split at h
    · next hc => exact Option.some.inj h ▸ .resume hc
    · cases h
  | revoke => exact Option.some.inj h ▸ .revoke

/-! ### What is left of a method releases its leases -/

/-- After a lease is taken the method defers or makes its release, and it takes each lease once. -/
def Sound : List Instr → Prop
  | [] => True
  | .acquire :: rest => (.deferRelease ∈ rest ∨ .release ∈ rest) ∧ .acquire ∉ rest ∧ Sound rest
  | .startAcquire :: rest =>
    .finishRelease ∈ rest ∧ .startAcquire ∉ rest ∧ .acquire ∉ rest ∧ Sound rest
  | _ :: rest => Sound rest

theorem sound_script (method : Method) : Sound method.script := by
  cases method <;>
    simp [Method.script, guarded, observedMethod, operation, rowsFinish, Sound]

theorem sound_rowsFinish : Sound rowsFinish := by simp [rowsFinish, Sound]

theorem Sound.tail {head : Instr} {rest : List Instr} (h : Sound (head :: rest)) : Sound rest := by
  cases head with
  | acquire => exact h.2.2
  | startAcquire => exact h.2.2.2
  | _ => exact h

/-- The code and the leases of a call that is not over; rows over nil keep theirs. -/
structure Call.Covered (call : Call) : Prop where
  sound : Sound call.code
  fresh : .acquire ∈ call.code ∨ call.phase = .idle → call.own = .absent ∧ call.op = .absent
  freshOp : .startAcquire ∈ call.code → call.op = .absent
  own : call.phase ≠ .ended → call.own = .held →
    call.deferred = true ∨ .deferRelease ∈ call.code ∨ .release ∈ call.code ∨
      .rowsNil ∈ call.code
  op : call.phase ≠ .ended → call.op = .held → .finishRelease ∈ call.code ∨ .rowsNil ∈ call.code

section Calls

variable {call : Call} {head : Instr} {rest : List Instr}

theorem covered_new (method : Method) :
    ({ phase := .running, code := method.script } : Call).Covered :=
  ⟨sound_script method, fun _ => ⟨rfl, rfl⟩, fun _ => rfl, by simp, by simp⟩

theorem Call.Covered.passes (h : call.Covered) (hcode : call.code = head :: rest)
    (hp : call.passes head) : Call.Covered { call with code := rest } := by
  have hmem : ∀ x, x ∈ rest → x ∈ call.code := fun x hx => hcode ▸ List.mem_cons_of_mem _ hx
  refine ⟨(hcode ▸ h.sound).tail, fun hx => h.fresh (hx.imp_left (hmem _)),
    fun hx => h.freshOp (hmem _ hx), fun hph hown => ?_, fun hph hop => ?_⟩
  · have hcov := h.own hph hown
    rw [hcode, List.mem_cons, List.mem_cons, List.mem_cons] at hcov
    rcases hcov with hd | (rfl | hx) | (rfl | hx) | (rfl | hx)
    · exact .inl hd
    · exact absurd hp id
    · exact .inr (.inl hx)
    · exact absurd hown hp
    · exact .inr (.inr (.inl hx))
    · exact absurd hp id
    · exact .inr (.inr (.inr hx))
  · have hcov := h.op hph hop
    rw [hcode, List.mem_cons, List.mem_cons] at hcov
    rcases hcov with (rfl | hx) | (rfl | hx)
    · exact absurd hop hp
    · exact .inl hx
    · exact absurd hp id
    · exact .inr hx

theorem Call.Covered.takeOwn (h : call.Covered) (hc : call.phase = .running)
    (hcode : call.code = .acquire :: rest) :
    Call.Covered { call with code := rest, own := .held } := by
  have hs : Sound (.acquire :: rest) := hcode ▸ h.sound
  have hfresh := h.fresh (by simp [hcode])
  refine ⟨hs.tail, by simp [hc, hs.2.1], fun _ => hfresh.2,
    fun _ _ => .inr (hs.1.imp_right .inl), ?_⟩
  intro _ hop
  rw [hfresh.2] at hop
  cases hop

theorem Call.Covered.takeOp (h : call.Covered) (hc : call.phase = .running)
    (hcode : call.code = .startAcquire :: rest) :
    Call.Covered { call with code := rest, op := .held } := by
  have hs : Sound (.startAcquire :: rest) := hcode ▸ h.sound
  refine ⟨hs.tail, by simp [hc, hs.2.2.1], fun hx => absurd hx hs.2.1, ?_,
    fun _ _ => .inl hs.1⟩
  intro hph hown
  simpa [hcode] using h.own hph hown

theorem Call.Covered.defers (h : call.Covered) (hcode : call.code = .deferRelease :: rest) :
    Call.Covered { call with code := rest, deferred := true } := by
  have hmem : ∀ x, x ∈ rest → x ∈ call.code := fun x hx => hcode ▸ List.mem_cons_of_mem _ hx
  refine ⟨(hcode ▸ h.sound).tail, fun hx => h.fresh (hx.imp_left (hmem _)),
    fun hx => h.freshOp (hmem _ hx), fun _ _ => .inl rfl, fun hph hop => ?_⟩
  simpa [hcode] using h.op hph hop

theorem covered_rowsFinish (hc : call.phase = .running) :
    Call.Covered { call with code := rowsFinish } := by
  refine ⟨sound_rowsFinish, ?_, ?_, ?_, ?_⟩ <;> simp [rowsFinish, hc]

theorem covered_nilRows (hc : call.phase = .running) :
    Call.Covered { call with code := nilRows } := by
  refine ⟨trivial, ?_, ?_, ?_, ?_⟩ <;> simp [nilRows, hc]

theorem Call.Covered.hands (h : call.Covered) (hc : call.phase = .running)
    (hcode : call.code = .handOver :: rest) :
    Call.Covered { call with code := rest, phase := .handed } := by
  have hmem : ∀ x, x ∈ rest → x ∈ call.code := fun x hx => hcode ▸ List.mem_cons_of_mem _ hx
  refine ⟨(hcode ▸ h.sound).tail, fun hx => h.fresh (.inl (hmem _ (by simpa using hx))),
    fun hx => h.freshOp (hmem _ hx), fun _ hown => ?_, fun _ hop => ?_⟩
  · simpa [hcode] using h.own (by simp [hc]) hown
  · simpa [hcode] using h.op (by simp [hc]) hop

theorem Call.Covered.dropOp (h : call.Covered) (hcode : call.code = .finishRelease :: rest)
    (hop : call.op = .held) : Call.Covered { call with code := rest, op := .released } := by
  have hmem : ∀ x, x ∈ rest → x ∈ call.code := fun x hx => hcode ▸ List.mem_cons_of_mem _ hx
  refine ⟨(hcode ▸ h.sound).tail, fun hx => ?_, fun hx => ?_, fun hph hown => ?_, by simp⟩
  · simp [(h.fresh (hx.imp_left (hmem _))).2] at hop
  · simp [h.freshOp (hmem _ hx)] at hop
  · simpa [hcode] using h.own hph hown

theorem Call.Covered.dropOwn (h : call.Covered) (hcode : call.code = .release :: rest)
    (hown : call.own = .held) : Call.Covered { call with code := rest, own := .released } := by
  have hmem : ∀ x, x ∈ rest → x ∈ call.code := fun x hx => hcode ▸ List.mem_cons_of_mem _ hx
  refine ⟨(hcode ▸ h.sound).tail, fun hx => ?_, fun hx => h.freshOp (hmem _ hx), by simp,
    fun hph hop => ?_⟩
  · simp [(h.fresh (hx.imp_left (hmem _))).1] at hown
  · simpa [hcode] using h.op hph hop

/-- A call that is over owes nothing. -/
theorem covered_ended (deferred : Bool) (own op : Lease) :
    Call.Covered { phase := .ended, code := [], deferred := deferred, own := own, op := op } := by
  refine ⟨trivial, ?_, ?_, ?_, ?_⟩ <;> simp

theorem Call.Covered.phase {phase : Phase} (h : call.Covered) (hc : call.phase ≠ .ended)
    (hp : phase ≠ .idle) : Call.Covered { call with phase := phase } :=
  ⟨h.sound, fun hx => h.fresh (.inl (by simpa [hp] using hx)), h.freshOp, fun _ => h.own hc, fun _ => h.op hc⟩

end Calls

@[simp] theorem go_call (w : World) (c k : ℕ) (next : Call) (gate : Gate) :
    (w.go c next gate).call k = if k = c then next else w.call k :=
  Function.update_apply ..

/-- What an exit leaves of the call. -/
def Call.exit (call : Call) : Call :=
  { call with
    phase := .ended
    code := []
    own := if call.deferred && call.own == .held then .released else call.own }

theorem exit_call (w : World) (c k : ℕ) :
    (w.exit c).call k = if k = c then (w.call c).exit else w.call k := by
  unfold World.exit Call.exit
  split <;> simp

theorem covered_go {w : World} {c : ℕ} {next : Call} {gate : Gate}
    (hw : ∀ k, (w.call k).Covered) (hn : next.Covered) (k : ℕ) :
    ((w.go c next gate).call k).Covered := by
  by_cases hk : k = c
  · simpa [hk] using hn
  · simpa [hk] using hw k

theorem covered_step {w w' : World} {e : Event} (hw : ∀ k, (w.call k).Covered)
    (h : Step w e w') (k : ℕ) : (w'.call k).Covered := by
  cases h with
  | @call c method hc => exact covered_go hw (covered_new method) k
  | @returns c hc hcode | @refused c o rest hc hcode ho | @unwinds c head rest hc hcode hh =>
    rw [exit_call]
    split
    · exact covered_ended ..
    · exact hw k
  | @takeOwn c rest hc hcode hg => exact covered_go hw ((hw c).takeOwn hc hcode) k
  | @defers c rest hc hcode => exact covered_go hw ((hw c).defers hcode) k
  | @takeOp c rest hc hcode hg => exact covered_go hw ((hw c).takeOp hc hcode) k
  | @passes c o head rest hc hcode ho hp => exact covered_go hw ((hw c).passes hcode hp) k
  | @fails c rest hc hcode => exact covered_go hw (covered_rowsFinish hc) k
  | @nils c rest hc hcode => exact covered_go hw (covered_nilRows hc) k
  | @hands c rest hc hcode => exact covered_go hw ((hw c).hands hc hcode) k
  | @sticks c rest hc hcode | @skips c rest hc hcode =>
    exact covered_go hw ((hw c).phase (by simp [hc]) (by simp)) k
  | @dropOp c rest hc hcode hop => exact covered_go hw ((hw c).dropOp hcode hop) k
  | @dropOwn c rest hc hcode hown => exact covered_go hw ((hw c).dropOwn hcode hown) k
  | @resume c hc =>
    exact covered_go hw ((hw c).phase (by rcases hc with hc | hc <;> simp [hc]) (by simp)) k
  | revoke => exact hw k

/-! ### The gate counts the held leases -/

/-- The lease of a call, or that of its operation. -/
def World.lease (w : World) : ℕ × Bool → Lease
  | (c, true) => (w.call c).own
  | (c, false) => (w.call c).op

/-- The gate's counter is the number of held leases, and `drained` is closed, once, when the gate is
closed and none is held. -/
structure Account (w : World) (held : Finset (ℕ × Bool)) : Prop where
  mem : ∀ x, x ∈ held ↔ w.lease x = .held
  active : w.gate.active = held.card
  drained : w.gate.drainOne = true ↔ w.gate.isOpen = false ∧ w.gate.active = 0
  closes : w.gate.closes = if w.gate.drainOne then 1 else 0

theorem account_init : Account World.init ∅ := by
  refine ⟨?_, rfl, by simp [World.init], rfl⟩
  rintro ⟨c, b⟩
  cases b <;> simp [World.init, World.lease]

/-- Closing the channel when the gate is closed and nothing is held. -/
theorem drain_account {gate : Gate} (ho : gate.isOpen = false) (ha : gate.active = 0)
    (hc : gate.closes = if gate.drainOne then 1 else 0) :
    (gate.drain.drainOne = true ↔ gate.drain.isOpen = false ∧ gate.drain.active = 0) ∧
    gate.drain.closes = (if gate.drain.drainOne then 1 else 0) ∧
    gate.drain.active = gate.active ∧ gate.drain.isOpen = gate.isOpen := by
  unfold Gate.drain
  split
  · next hd => exact ⟨by simp [hd, ho, ha], by simpa [hd] using hc, rfl, rfl⟩
  · next hd => exact ⟨by simp [ho, ha], by simp [hc, hd], rfl, rfl⟩

section Accounts

variable {w w' : World} {held : Finset (ℕ × Bool)} {x : ℕ × Bool}

theorem Account.same (hw : Account w held) (hl : ∀ y, w'.lease y = .held ↔ w.lease y = .held)
    (hg : w'.gate = w.gate) : Account w' held := by
  refine ⟨fun y => by rw [hl, hw.mem], ?_, ?_, ?_⟩ <;> rw [hg]
  · exact hw.active
  · exact hw.drained
  · exact hw.closes

theorem Account.take (hw : Account w held) (hx : w.lease x ≠ .held)
    (hl : ∀ y, w'.lease y = .held ↔ y = x ∨ w.lease y = .held) (ho : w.gate.isOpen = true)
    (hg : w'.gate = { w.gate with active := w.gate.active + 1 }) :
    Account w' (insert x held) := by
  have hxm : x ∉ held := by rwa [hw.mem]
  refine ⟨fun y => by rw [hl, Finset.mem_insert, hw.mem], ?_, ?_, ?_⟩ <;> rw [hg]
  · rw [Finset.card_insert_of_notMem hxm, hw.active]
    simp
  · have hd := hw.drained
    simp only [ho] at hd ⊢
    simpa using hd
  · exact hw.closes

theorem Account.drop (hw : Account w held) (hx : w.lease x = .held)
    (hl : ∀ y, w'.lease y = .held ↔ y ≠ x ∧ w.lease y = .held)
    (hg : w'.gate = w.gate.release) : Account w' (held.erase x) := by
  have hxm : x ∈ held := (hw.mem x).mpr hx
  have hpos : 0 < held.card := Finset.card_pos.mpr ⟨x, hxm⟩
  have hcard : (held.erase x).card = held.card - 1 := Finset.card_erase_of_mem hxm
  have hactive : w.gate.active - 1 = (held.erase x).card := by
    rw [hw.active, hcard]
    omega
  have hnd : w.gate.drainOne = false := by
    have hd := hw.drained
    rw [hw.active] at hd
    by_contra hdo
    have h0 := (hd.mp (by simpa using hdo)).2
    omega
  have hmem : ∀ y, y ∈ held.erase x ↔ w'.lease y = .held := by
    intro y
    rw [hl, Finset.mem_erase, hw.mem]
  by_cases hlast : w.gate.isOpen = false ∧ w.gate.active - 1 = 0
  · have hrel : w.gate.release = Gate.drain { w.gate with active := w.gate.active - 1 } := by
      simp [Gate.release, hlast.1, hlast.2]
    obtain ⟨h1, h2, h3, h4⟩ := @drain_account { w.gate with active := w.gate.active - 1 }
      hlast.1 hlast.2 hw.closes
    refine ⟨hmem, ?_, ?_, ?_⟩ <;> rw [hg, hrel]
    · rw [h3]
      exact hactive
    · exact h1
    · exact h2
  · have hrel : w.gate.release = { w.gate with active := w.gate.active - 1 } := by
      rw [Gate.release]
      refine if_neg ?_
      simpa using hlast
    refine ⟨hmem, ?_, ?_, ?_⟩ <;> rw [hg, hrel]
    · exact hactive
    · simp only [hnd]
      simpa using hlast
    · exact hw.closes

theorem Account.revoke (hw : Account w held) :
    Account { w with gate := w.gate.revoke } held := by
  by_cases ho : w.gate.isOpen = true
  · by_cases ha : w.gate.active = 0
    · have hrev : w.gate.revoke = Gate.drain { w.gate with isOpen := false } := by
        simp [Gate.revoke, ho, ha]
      obtain ⟨h1, h2, h3, -⟩ := @drain_account { w.gate with isOpen := false } rfl ha
        hw.closes
      refine ⟨hw.mem, ?_, ?_, ?_⟩ <;> simp only [hrev]
      · rw [h3]
        exact hw.active
      · exact h1
      · exact h2
    · have hrev : w.gate.revoke = { w.gate with isOpen := false } := by
        simp [Gate.revoke, ho, ha]
      have hnd : w.gate.drainOne = false := by
        by_contra hdo
        exact ha (hw.drained.mp (by simpa using hdo)).2
      refine ⟨hw.mem, ?_, ?_, ?_⟩ <;> simp only [hrev]
      · exact hw.active
      · simp [hnd, ha]
      · exact hw.closes
  · have hrev : w.gate.revoke = w.gate := by
      rw [Gate.revoke]
      exact if_neg ho
    exact hw.same (fun _ => Iff.rfl) hrev

theorem Account.goSame {c : ℕ} {next : Call} (hw : Account w held)
    (hown : next.own = .held ↔ (w.call c).own = .held)
    (hop : next.op = .held ↔ (w.call c).op = .held) : Account (w.go c next w.gate) held := by
  refine hw.same ?_ rfl
  rintro ⟨k, b⟩
  by_cases hk : k = c <;> cases b <;> simp [World.lease, hk, hown, hop]

theorem Account.dropOwn {c : ℕ} {next : Call} (hw : Account w held)
    (hown : (w.call c).own = .held) (hn : next.own = .released) (hop : next.op = (w.call c).op) :
    Account (w.go c next w.gate.release) (held.erase (c, true)) := by
  refine hw.drop (x := (c, true)) hown ?_ rfl
  rintro ⟨k, b⟩
  by_cases hk : k = c <;> cases b <;> simp [World.lease, hk, hn, hop]

theorem Account.exit {c : ℕ} (hw : Account w held) : ∃ held', Account (w.exit c) held' := by
  unfold World.exit
  split
  · next h =>
    simp only [Bool.and_eq_true, beq_iff_eq] at h
    exact ⟨_, hw.dropOwn h.2 rfl rfl⟩
  · exact ⟨held, hw.goSame Iff.rfl Iff.rfl⟩

end Accounts

theorem account_step {w w' : World} {e : Event} {held : Finset (ℕ × Bool)}
    (hcov : ∀ k, (w.call k).Covered) (hw : Account w held) (h : Step w e w') :
    ∃ held', Account w' held' := by
  cases h with
  | @call c method hc =>
    have hfresh := (hcov c).fresh (.inr hc)
    exact ⟨held, hw.goSame (by simp [hfresh.1]) (by simp [hfresh.2])⟩
  | returns hc hcode | refused hc hcode ho | unwinds hc hcode hh => exact hw.exit
  | @takeOwn c rest hc hcode hg =>
    have hfresh := (hcov c).fresh (by simp [hcode])
    refine ⟨_, hw.take (x := (c, true)) (by simp [World.lease, hfresh.1]) ?_ hg rfl⟩
    rintro ⟨k, b⟩
    by_cases hk : k = c <;> cases b <;> simp [World.lease, hk]
  | @takeOp c rest hc hcode hg =>
    have hfresh := (hcov c).freshOp (by simp [hcode])
    refine ⟨_, hw.take (x := (c, false)) (by simp [World.lease, hfresh]) ?_ hg rfl⟩
    rintro ⟨k, b⟩
    by_cases hk : k = c <;> cases b <;> simp [World.lease, hk]
  | @dropOp c rest hc hcode hop =>
    refine ⟨_, hw.drop (x := (c, false)) hop ?_ rfl⟩
    rintro ⟨k, b⟩
    by_cases hk : k = c <;> cases b <;> simp [World.lease, hk]
  | @dropOwn c rest hc hcode hown => exact ⟨_, hw.dropOwn hown rfl rfl⟩
  | defers | passes | fails | nils | hands | sticks | skips | resume =>
    exact ⟨held, hw.goSame Iff.rfl Iff.rfl⟩
  | revoke => exact ⟨held, hw.revoke⟩

/-! ### Every exit gives the leases back -/

/-- A call that is over, and rows whose end was reached, have no lease. -/
def Call.Settled (call : Call) : Prop :=
  call.phase = .ended ∨ call.phase = .stuck → call.own ≠ .held ∧ call.op ≠ .held

/-- A panic finds no lease that a deferred release does not give back: no operation is open, and the
method has deferred its own release; ending rows runs nothing that was deferred. Rows that wrap nil
are not ended while they have a lease. -/
def protects (w : World) : Event → Prop
  | .exec c .panic => (w.call c).op ≠ .held ∧
      ((w.call c).own = .held → (w.call c).deferred = true ∧
        (w.call c).code.head? ≠ some .rowsEnd)
  | .exec c .ok => (w.call c).code.head? = some .rowsNil →
      (w.call c).own ≠ .held ∧ (w.call c).op ≠ .held
  | _ => True

theorem protects_of_ne_panic (w : World) (c : ℕ) {outcome : Outcome} (h : outcome ≠ .panic)
    (hcode : (w.call c).code.head? ≠ some .rowsNil) : protects w (.exec c outcome) := by
  cases outcome with
  | ok => exact fun hnil => absurd hnil hcode
  | panic => exact absurd rfl h
  | error | nothing => trivial

theorem settled_exit {call : Call} (hown : call.own = .held → call.deferred = true)
    (hop : call.op ≠ .held) : call.exit.Settled := by
  intro _
  refine ⟨?_, hop⟩
  unfold Call.exit
  by_cases hh : call.own = .held
  · simp [hh, hown hh]
  · simp [hh]

theorem settled_of_exit {call : Call} (h : call.exit.Settled) :
    call.op ≠ .held ∧ (call.own = .held → call.deferred = true) := by
  obtain ⟨hown, hop⟩ := h (.inl rfl)
  refine ⟨hop, fun hh => ?_⟩
  by_contra hd
  simp [Call.exit, hh, hd] at hown

theorem settled_go {w : World} {c : ℕ} {next : Call} {gate : Gate}
    (hw : ∀ k, (w.call k).Settled) (hn : next.phase ≠ .ended ∧ next.phase ≠ .stuck) (k : ℕ) :
    ((w.go c next gate).call k).Settled := by
  by_cases hk : k = c
  · rw [go_call, if_pos hk]
    intro hp
    rcases hp with hp | hp
    · exact absurd hp hn.1
    · exact absurd hp hn.2
  · simpa [hk] using hw k

theorem settled_world_exit {w : World} {c : ℕ} (hw : ∀ k, (w.call k).Settled)
    (hc : (w.call c).exit.Settled) (k : ℕ) : ((w.exit c).call k).Settled := by
  rw [exit_call]
  split
  · exact hc
  · exact hw k

/-- **One event**: the calls stay settled exactly when the event is protected. -/
theorem settled_step {w w' : World} {e : Event} (hcov : ∀ k, (w.call k).Covered)
    (hw : ∀ k, (w.call k).Settled) (h : Step w e w') :
    (∀ k, (w'.call k).Settled) ↔ protects w e := by
  cases h with
  | call hc => exact iff_of_true (settled_go hw (by simp)) trivial
  | @returns c hc hcode =>
    refine iff_of_true (settled_world_exit hw (settled_exit (fun hown => ?_) fun hop => ?_))
      (protects_of_ne_panic w c (by simp) (by simp [hcode]))
    · simpa [hcode] using (hcov c).own (by simp [hc]) hown
    · simpa [hcode] using (hcov c).op (by simp [hc]) hop
  | @refused c outcome rest hc hcode ho =>
    have hfresh := (hcov c).fresh (by simp [hcode])
    refine iff_of_true (settled_world_exit hw (settled_exit ?_ ?_)) ?_
    · simp [hfresh.1]
    · simp [hfresh.2]
    · exact protects_of_ne_panic w c ho (by simp [hcode])
  | @passes c outcome head rest hc hcode ho hp =>
    refine iff_of_true (settled_go hw (by simp [hc])) (protects_of_ne_panic w c ho ?_)
    rintro hnil
    rw [hcode, List.head?_cons, Option.some.injEq] at hnil
    rw [hnil] at hp
    exact hp
  | takeOwn hc hcode | defers hc hcode | takeOp hc hcode | dropOp hc hcode | dropOwn hc hcode =>
    exact iff_of_true (settled_go hw (by simp [hc]))
      (protects_of_ne_panic w _ (by simp) (by simp [hcode]))
  | fails hc | nils hc => exact iff_of_true (settled_go hw (by simp [hc])) trivial
  | hands hc hcode =>
    exact iff_of_true (settled_go hw (by simp)) (protects_of_ne_panic w _ (by simp) (by simp [hcode]))
  | resume hc => exact iff_of_true (settled_go hw (by simp)) trivial
  | revoke => exact iff_of_true hw trivial
  | @unwinds c head rest hc hcode hh =>
    constructor
    · intro hs
      have hc := hs c
      rw [exit_call, if_pos rfl] at hc
      obtain ⟨hop, hown⟩ := settled_of_exit hc
      exact ⟨hop, fun hheld => ⟨hown hheld, by simpa [hcode] using hh⟩⟩
    · intro hp
      exact settled_world_exit hw (settled_exit (fun hown => (hp.2 hown).1) hp.1)
  | @sticks c rest hc hcode =>
    constructor
    · intro hs
      have hc := hs c
      rw [go_call, if_pos rfl] at hc
      obtain ⟨hown, hop⟩ := hc (.inr rfl)
      exact ⟨hop, fun hheld => absurd hheld hown⟩
    · intro hp k
      by_cases hk : k = c
      · rw [go_call, if_pos hk]
        refine fun _ => ⟨fun hown => ?_, hp.1⟩
        have hhead := (hp.2 hown).2
        simp [hcode] at hhead
      · simpa [hk] using hw k
  | @skips c rest hc hcode =>
    constructor
    · intro hs _
      have hc := hs c
      rw [go_call, if_pos rfl] at hc
      exact hc (.inr rfl)
    · intro hp k
      by_cases hk : k = c
      · rw [go_call, if_pos hk]
        exact fun _ => hp (by simp [hcode])
      · simpa [hk] using hw k

/-! ### Every interleaving -/

/-- What holds in every state of every run. -/
structure Inv (es : List Event) (w : World) : Prop where
  covered : ∀ k, (w.call k).Covered
  account : ∃ held, Account w held
  isOpen : w.gate.isOpen = false ↔ .revoke ∈ es

theorem Step.isOpen {w w' : World} {e : Event} (h : Step w e w') :
    w'.gate.isOpen = false ↔ w.gate.isOpen = false ∨ e = .revoke := by
  have hdrain : ∀ gate : Gate, gate.drain.isOpen = gate.isOpen := by
    intro gate
    unfold Gate.drain
    split <;> rfl
  have hrelease : w.gate.release.isOpen = w.gate.isOpen := by
    unfold Gate.release
    dsimp only
    split
    · exact hdrain _
    · rfl
  have hrevoke : w.gate.revoke.isOpen = false := by
    unfold Gate.revoke
    split
    · dsimp only
      split
      · exact hdrain _
      · rfl
    · next ho => simpa using ho
  have hexit : ∀ c, (w.exit c).gate.isOpen = w.gate.isOpen := by
    intro c
    unfold World.exit
    split
    · exact hrelease
    · rfl
  cases h with
  | returns | refused | unwinds => simp [hexit]
  | dropOp | dropOwn => simp [World.go, hrelease]
  | revoke => simp [hrevoke]
  | _ => simp [World.go]

theorem inv_run {observed : Bool} {es : List Event} {w : World} (h : Run observed es w) :
    Inv es w := by
  refine run_induction (P := Inv) ⟨?_, ⟨∅, account_init⟩, by simp [World.init]⟩ ?_ h
  · intro k
    refine ⟨trivial, ?_, ?_, ?_, ?_⟩ <;> simp [World.init]
  · intro es e w w' hw hs
    obtain ⟨held, ha⟩ := hw.account
    have hstep := step_cases hs
    refine ⟨covered_step hw.covered hstep, account_step hw.covered ha hstep, ?_⟩
    rw [hstep.isOpen, hw.isOpen]
    simp [eq_comm]

/-- Every event of the run is protected. -/
def Protected (observed : Bool) (es : List Event) : Prop :=
  ∀ before e, before ++ [e] <+: es → ∀ m, Run observed before m → protects m e

/-- In every state of the run, the calls that are over have given back their leases. -/
def SettledAlong (observed : Bool) (es : List Event) : Prop :=
  ∀ before, before <+: es → ∀ m, Run observed before m → ∀ k, (m.call k).Settled

theorem settledAlong_iff {observed : Bool} {es : List Event} {w : World}
    (h : Run observed es w) : SettledAlong observed es ↔ Protected observed es := by
  induction es using List.reverseRecOn generalizing w with
  | nil =>
    refine iff_of_true ?_ ?_
    · intro before hb m hm k
      obtain rfl := List.prefix_nil.mp hb
      cases hm
      simp [World.init, Call.Settled]
    · intro before e hb
      simp at hb
  | append_singleton es e ih =>
    obtain ⟨m, hm, hs⟩ := run_snoc h
    have hstep := step_cases hs
    constructor
    · intro hall before e' hb n hn
      rcases List.prefix_concat_iff.mp hb with heq | hb
      · obtain ⟨rfl, he⟩ := List.append_inj' heq rfl
        obtain rfl := List.singleton_inj.mp he
        obtain rfl : m = n := Option.some.inj (hm.symm.trans hn)
        have hsm := hall before (List.prefix_append ..) m hm
        exact (settled_step (inv_run hm).covered hsm hstep).mp (hall _ (List.prefix_refl _) w h)
      · have hes : SettledAlong observed es := fun b hb => hall b (hb.trans (List.prefix_append ..))
        exact (ih hm).mp hes before e' hb n hn
    · intro hprot before hb n hn
      have hes : SettledAlong observed es :=
        (ih hm).mpr fun b e' hb => hprot b e' (hb.trans (List.prefix_append ..))
      rcases List.prefix_concat_iff.mp hb with rfl | hb
      · obtain rfl : w = n := Option.some.inj (h.symm.trans hn)
        refine (settled_step (inv_run hm).covered (hes es (List.prefix_refl _) m hm) hstep).mpr ?_
        exact hprot es e (List.prefix_refl _) m hm
      · exact hes before hb n hn

/-- A closed gate gives no lease. -/
theorem Step.lease_of_closed {w w' : World} {e : Event} (h : Step w e w')
    (hg : w.gate.isOpen = false) (x : ℕ × Bool) (hx : w'.lease x = .held) :
    w.lease x = .held := by
  have hgo : ∀ (c : ℕ) (next : Call) (gate : Gate),
      (w.go c next gate).lease x = .held → (next.own = .held → (w.call c).own = .held) →
      (next.op = .held → (w.call c).op = .held) → w.lease x = .held := by
    intro c next gate hheld hown hop
    obtain ⟨k, b⟩ := x
    by_cases hk : k = c
    · subst hk
      cases b
      · exact hop (by simpa [World.lease] using hheld)
      · exact hown (by simpa [World.lease] using hheld)
    · cases b <;> simpa [World.lease, hk] using hheld
  have hexit : ∀ c, (w.exit c).lease x = .held → w.lease x = .held := by
    intro c hheld
    unfold World.exit at hheld
    split at hheld
    · exact hgo c _ _ hheld (by simp) id
    · exact hgo c _ _ hheld id id
  cases h with
  | @call c method hc => exact hgo c _ _ hx (by simp) (by simp)
  | returns | refused | unwinds => exact hexit _ hx
  | takeOwn hc hcode ho => simp [hg] at ho
  | takeOp hc hcode ho => simp [hg] at ho
  | @dropOp c => exact hgo c _ _ hx id (by simp)
  | @dropOwn c => exact hgo c _ _ hx (by simp) id
  | @defers c | @passes c | @fails c | @nils c | @hands c | @sticks c | @skips c | @resume c =>
    exact hgo c _ _ hx id id
  | revoke => exact hx

/-- **The facades over every interleaving.** After `revoke` no lease is given; `drained` is closed at
most once, and it is closed exactly when the gate is revoked and no lease is held; in every state
the calls that are over and the rows that are at their end have given back their leases, exactly
when every event is protected; so in such a run the drain completes once all calls have ended. -/
theorem facade_interleavings {observed : Bool} {es : List Event} {w : World}
    (h : Run observed es w) :
    (∀ before e after m m', es = before ++ e :: after → .revoke ∈ before →
      Run observed before m → Run observed (before ++ [e]) m' →
      ∀ x, m'.lease x = .held → m.lease x = .held) ∧
    w.gate.closes ≤ 1 ∧
    (w.gate.closes = 1 ↔ .revoke ∈ es ∧ ∀ x, w.lease x ≠ .held) ∧
    (SettledAlong observed es ↔ Protected observed es) ∧
    (Protected observed es → .revoke ∈ es →
      (∀ k, (w.call k).phase = .idle ∨ (w.call k).phase = .ended) → w.gate.closes = 1) := by
  have hw := inv_run h
  obtain ⟨held, ha⟩ := hw.account
  have hnone : w.gate.active = 0 ↔ ∀ x, w.lease x ≠ .held := by
    rw [ha.active, Int.natCast_eq_zero, Finset.card_eq_zero, Finset.eq_empty_iff_forall_notMem]
    exact forall_congr' fun x => not_congr (ha.mem x)
  have hone : w.gate.closes = 1 ↔ .revoke ∈ es ∧ ∀ x, w.lease x ≠ .held := by
    rw [← hw.isOpen, ← hnone, ← ha.drained, ha.closes]
    by_cases hd : w.gate.drainOne = true <;> simp [hd]
  refine ⟨?_, ?_, hone, settledAlong_iff h, ?_⟩
  · intro before e after m m' _ hr hm hm' x hx
    obtain ⟨n, hn, hs⟩ := run_snoc hm'
    obtain rfl : m = n := Option.some.inj (hm.symm.trans hn)
    exact (step_cases hs).lease_of_closed ((inv_run hm).isOpen.mpr hr) x hx
  · rw [ha.closes]
    split <;> omega
  · intro hprot hr hended
    refine hone.mpr ⟨hr, ?_⟩
    rintro ⟨k, b⟩
    have hk : (w.call k).own ≠ .held ∧ (w.call k).op ≠ .held := by
      rcases hended k with hidle | hover
      · have hfresh := (hw.covered k).fresh (.inr hidle)
        simp [hfresh.1, hfresh.2]
      · exact (settledAlong_iff h).mpr hprot es (List.prefix_refl _) w h k (.inl hover)
    cases b
    · exact hk.2
    · exact hk.1

/-- The wrapped `ExecContext` panics, then the gate is revoked. -/
def execPanics : List Event :=
  [.call 0 .execContext, .exec 0 .ok, .exec 0 .ok, .exec 0 .ok, .exec 0 .ok, .exec 0 .panic, .revoke]

theorem protected_execPanics : Protected false execPanics := by
  rintro before e ⟨after, hes⟩ m hm
  have hbefore : before = execPanics.take before.length := by simp [← hes]
  have he : execPanics[before.length]? = some e := by simp [← hes]
  have hlen : before.length < 7 := by
    have := congrArg List.length hes
    simp only [List.length_append, execPanics, List.length_cons,
      List.length_nil] at this
    omega
  generalize before.length = n at hbefore he hlen
  subst hbefore
  interval_cases n <;> cases he <;> cases hm
  · trivial
  all_goals first
    | exact fun hnil => absurd hnil (by decide)
    | exact ⟨by decide, fun _ => ⟨rfl, by decide⟩⟩
    | trivial

/-- The call is over, its lease is back and the gate drained. -/
theorem facade_interleavings_exec :
    ∃ w, Run false execPanics w ∧ (∀ x, w.lease x ≠ .held) ∧ SettledAlong false execPanics ∧
      w.gate.closes = 1 := by
  obtain ⟨w, hw⟩ : ∃ w, Run false execPanics w := ⟨_, rfl⟩
  obtain ⟨-, -, hone, hiff, hdrained⟩ := facade_interleavings hw
  have hended : ∀ k, (w.call k).phase = .idle ∨ (w.call k).phase = .ended := by
    intro k
    cases hw
    cases k with
    | zero => exact .inr rfl
    | succ k => exact .inl rfl
  have hcloses := hdrained protected_execPanics (by simp [execPanics]) hended
  exact ⟨w, hw, (hone.mp hcloses).2, hiff.mpr protected_execPanics, hcloses⟩

/-- The wrapped `QueryContext` panics: the call is over, its lease is never given back, and after
`revoke` the channel stays open. The same lease stays behind when it returns neither rows nor an
error and the caller has closed what it got. -/
theorem query_panic_keeps_lease :
    (∃ w, Run false [.call 0 .queryContext, .exec 0 .ok, .exec 0 .ok, .exec 0 .ok, .exec 0 .panic,
        .revoke] w ∧
      (w.call 0).phase = .ended ∧ (w.call 0).own = .held ∧
      (∀ k, (w.call k).phase = .idle ∨ (w.call k).phase = .ended) ∧ w.gate.closes = 0) ∧
    ∃ w, Run false [.call 0 .queryContext, .exec 0 .ok, .exec 0 .ok, .exec 0 .ok, .exec 0 .nothing,
        .exec 0 .ok, .resume 0, .exec 0 .ok, .revoke] w ∧
      (w.call 0).phase = .stuck ∧ (w.call 0).own = .held ∧ w.gate.closes = 0 := by
  refine ⟨⟨_, rfl, rfl, rfl, fun k => ?_, rfl⟩, _, rfl, rfl, rfl, rfl⟩
  cases k with
  | zero => exact .inr rfl
  | succ k => exact .inl rfl

end Modary.Module.Facades
