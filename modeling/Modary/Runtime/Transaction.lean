import Modary.Lib.Machine
import Modary.Runtime.Callback

/-! # `Engine.withinTransaction`

The runtime hands a guarded callback to a transaction manager it does not trust. Here the manager is
any behaviour at all: any number of goroutines may call the callback at any time, with a context or
with nil, before or after the manager returns, and the manager may return any error or panic. A run
is an interleaving of the critical sections of the guard with the steps of `withinTransaction`. -/

namespace Modary.Runtime.Transaction

open Modary.Lib.GoText Modary.Lib.Machine Modary.Action.Errors Modary.Runtime.Callback

/-! ### The errors of a transaction -/

/-- `newTransactionAtomicityFailure`. -/
def newTransactionAtomicityFailure (cause : Err) : Err :=
  actionError codeInternal "action transaction did not complete atomically"
    (.outcomeError .actionruntime cause .nil)

/-- `newTransactionManagerFailure`. -/
def newTransactionManagerFailure (cause : Err) : Err :=
  actionError codeInternal "action transaction manager failed"
    (.dependencyError .actionruntime "run action transaction" cause)

/-- `newTransactionContractViolation`. -/
def newTransactionContractViolation (manager operation : Err) : Err :=
  actionError codeInternal "transaction manager violated callback contract"
    (.contractError .actionruntime manager operation)

/-- The code that `newTransactionOperationFailure` gives to the failure of an operation: the one of
an `*action.Error`, when it has one. -/
def surfacedCode (heap : Heap) (operation : Err) : GoString :=
  match asActionError heap operation with
  | some (envelope, _) => if envelope.code = .utf8 "" then codeInternal else envelope.code
  | none => codeInternal

/-- The message that goes with it. -/
def surfacedMessage (heap : Heap) (operation : Err) : GoString :=
  match asActionError heap operation with
  | some (envelope, _) =>
    if envelope.message = .utf8 "" then .utf8 "action transaction operation failed"
    else envelope.message
  | none => .utf8 "action transaction operation failed"

/-- `newTransactionOperationFailure`. -/
def newTransactionOperationFailure (heap : Heap) (operation manager : Err) : Err :=
  .action fresh
    { code := surfacedCode heap operation
      kind := errorKindOf heap operation
      message := surfacedMessage heap operation }
    (.outcomeError .actionruntime manager .nil)

/-! ### The guarded callback -/

/-- What the operation does when it is run. -/
inductive OperationResult
  | returned (err : Err)
  | panicked
  /-- it leaves through `runtime.Goexit`, past every `return` -/
  | exited
  deriving DecidableEq, Repr

/-- One call of the callback: the context is nil, or the operation is run. -/
inductive Call
  | nilContext
  | run (result : OperationResult)
  deriving DecidableEq, Repr

/-- The value of `operationFailure` after the call. -/
def Call.failure (serial : ℕ) : Call → Option OperationFailure
  | .nilContext =>
    some { serial, cause := .sentinel .transactionManagerContract, invalidContext := true }
  | .run (.returned err) => if err = .nil then none else some { serial, cause := err }
  | .run .panicked => some { serial, cause := .panicEvidence, panicked := true }
  | .run .exited => some { serial, cause := .panicEvidence, panicked := true }

/-- What the callback returns, unless it exits. -/
def Call.result (serial : ℕ) (call : Call) : Err :=
  match call.failure serial with
  | none => .nil
  | some failure => failure.err .actionruntime

/-- How the manager comes back. -/
inductive ManagerReply
  | returned (err : Err)
  | panicked
  deriving DecidableEq, Repr

/-- The variable `managerErr`. -/
def ManagerReply.err : ManagerReply → Err
  | .returned err => err
  | .panicked => .callbackPanic "run action transaction"

/-- The decision on an operation that failed. -/
def settleFailure (heap : Heap) (reply : ManagerReply) (snapshot : ExactlyOnce)
    (failure : OperationFailure) : Err :=
  let operationFailure := failure.err .actionruntime
  if failure.invalidContext || !is heap snapshot.result operationFailure || reply == .panicked then
    newTransactionContractViolation reply.err operationFailure
  else
    match root reply.err with
    | none => newTransactionContractViolation reply.err operationFailure
    | some proof =>
      if !is heap proof.operation operationFailure then
        newTransactionContractViolation reply.err operationFailure
      else
        match proof.state with
        | .rolledBack =>
          if failure.panicked then
            actionError codeInternal "action transaction operation panicked"
              (.outcomeError .actionruntime reply.err .nil)
          else newTransactionOperationFailure heap failure.cause reply.err
        | .rollbackPending | .rollbackFailed => newTransactionAtomicityFailure reply.err
        | .commitFailed | .unknown => newTransactionContractViolation reply.err operationFailure

/-- The decision `withinTransaction` takes once the window is closed. -/
def settle (heap : Heap) (reply : ManagerReply) (snapshot : ExactlyOnce)
    (operationFailure : Option OperationFailure) : Err :=
  match snapshot.outcome with
  | .notInvoked =>
    if reply.err = .nil ∨ (root reply.err).isSome then newTransactionContractViolation .nil .nil
    else newTransactionManagerFailure reply.err
  | .returned =>
    match operationFailure with
    | none =>
      if snapshot.result ≠ .nil then newTransactionContractViolation reply.err snapshot.result
      else if reply.err = .nil then .nil
      else if (root reply.err).isSome then newTransactionAtomicityFailure reply.err
      else newTransactionContractViolation reply.err .nil
    | some failure => settleFailure heap reply snapshot failure
  | .panicked =>
    newTransactionContractViolation reply.err (failureErr .actionruntime operationFailure)
  | .contractViolation =>
    newTransactionContractViolation reply.err (failureErr .actionruntime operationFailure)

/-! ### What is decided -/

/-- An error of the runtime's own, with the code `INTERNAL_ERROR`. -/
def Internal (err : Err) : Prop := ∃ message cause, err = actionError codeInternal message cause

/-- The manager's error is itself a proof that this very failure was rolled back. -/
def Proven (heap : Heap) (reply : ManagerReply) (failure : OperationFailure) : Prop :=
  ∃ proof, root reply.err = some proof ∧ proof.state = .rolledBack ∧
    is heap proof.operation (failure.err .actionruntime) = true

theorem Internal.errorCode {err : Err} (heap : Heap) (h : Internal err) :
    errorCode heap err = codeInternal := by
  obtain ⟨message, cause, rfl⟩ := h
  simp [actionError]

theorem Internal.ne_nil {err : Err} (h : Internal err) : err ≠ .nil := by
  obtain ⟨message, cause, rfl⟩ := h
  simp [actionError]

theorem internal_contractViolation (manager operation : Err) :
    Internal (newTransactionContractViolation manager operation) := ⟨_, _, rfl⟩

theorem internal_atomicityFailure (cause : Err) : Internal (newTransactionAtomicityFailure cause) :=
  ⟨_, _, rfl⟩

/-- A failure of the operation that is not its own error, proven rolled back, is internal. -/
theorem settleFailure_internal {heap : Heap} {reply : ManagerReply} {snapshot : ExactlyOnce}
    {failure : OperationFailure}
    (h : failure.invalidContext = true ∨ failure.panicked = true ∨ ¬ Proven heap reply failure) :
    Internal (settleFailure heap reply snapshot failure) := by
  unfold settleFailure
  simp only
  split
  · exact internal_contractViolation _ _
  next hc =>
  split
  · exact internal_contractViolation _ _
  next proof hp =>
  split
  · exact internal_contractViolation _ _
  next hi =>
  split
  · next hs =>
    split
    · exact ⟨_, _, rfl⟩
    next hq =>
    rcases h with h | h | h
    · simp [h] at hc
    · exact absurd h hq
    · exact absurd ⟨proof, hp, hs, by simpa using hi⟩ h
  · exact internal_atomicityFailure _
  · exact internal_atomicityFailure _
  · exact internal_contractViolation _ _
  · exact internal_contractViolation _ _

/-- The operation's own error is surfaced under a proof of its rollback. -/
theorem settleFailure_of_proven {heap : Heap} {reply : ManagerReply} {snapshot : ExactlyOnce}
    {failure : OperationFailure} (hr : snapshot.result = failure.err .actionruntime)
    (hc : failure.invalidContext = false) (hp : failure.panicked = false)
    (h : Proven heap reply failure) :
    settleFailure heap reply snapshot failure =
      newTransactionOperationFailure heap failure.cause reply.err := by
  obtain ⟨proof, h1, h2, h3⟩ := h
  have hn : (reply == .panicked) = false := by
    cases reply with
    | returned err => rfl
    | panicked => cases h1
  have hs : is heap snapshot.result (failure.err .actionruntime) = true := by
    rw [hr]
    exact is_self heap (by simp [OperationFailure.err])
  simp [settleFailure, hc, hs, hn, h1, h3, h2, hp]

theorem errorCode_operationFailure (heap : Heap) (operation manager : Err) :
    errorCode heap (newTransactionOperationFailure heap operation manager) =
      surfacedCode heap operation := by
  have h : surfacedCode heap operation ≠ .utf8 "" := by
    unfold surfacedCode
    split
    · split_ifs with hc
      · decide
      · exact hc
    · decide
  simp [newTransactionOperationFailure, h]

theorem settleFailure_ne_nil (heap : Heap) (reply : ManagerReply) (snapshot : ExactlyOnce)
    (failure : OperationFailure) : settleFailure heap reply snapshot failure ≠ .nil := by
  unfold settleFailure
  dsimp only
  split
  · exact (internal_contractViolation _ _).ne_nil
  split
  · exact (internal_contractViolation _ _).ne_nil
  split
  · exact (internal_contractViolation _ _).ne_nil
  split
  · split <;> simp [actionError, newTransactionOperationFailure]
  · exact (internal_atomicityFailure _).ne_nil
  · exact (internal_atomicityFailure _).ne_nil
  · exact (internal_contractViolation _ _).ne_nil
  · exact (internal_contractViolation _ _).ne_nil

/-- The decision is nil on one path only, and internal on every other one on which the operation did
not fail. -/
theorem settle_cases (heap : Heap) (reply : ManagerReply) (snapshot : ExactlyOnce)
    (failure : Option OperationFailure) :
    (settle heap reply snapshot failure = .nil ∧ snapshot.outcome = .returned ∧ failure = none ∧
      reply.err = .nil) ∨
    (Internal (settle heap reply snapshot failure) ∧ (snapshot.outcome = .returned →
      failure = none ∧ (snapshot.result = .nil → reply.err ≠ .nil))) ∨
    ∃ f, snapshot.outcome = .returned ∧ failure = some f ∧
      settle heap reply snapshot failure = settleFailure heap reply snapshot f := by
  unfold settle
  split
  · next ho =>
    refine Or.inr (Or.inl ⟨?_, by simp [ho]⟩)
    split_ifs
    · exact internal_contractViolation _ _
    · exact ⟨_, _, rfl⟩
  · next ho =>
    cases failure with
    | some f => exact Or.inr (Or.inr ⟨f, ho, rfl, rfl⟩)
    | none =>
      dsimp only
      split_ifs with h1 h2 h3
      · exact Or.inr (Or.inl ⟨internal_contractViolation _ _, fun _ => ⟨rfl, fun h => absurd h h1⟩⟩)
      · exact Or.inl ⟨rfl, ho, rfl, h2⟩
      · exact Or.inr (Or.inl ⟨internal_atomicityFailure _, fun _ => ⟨rfl, fun _ => h2⟩⟩)
      · exact Or.inr (Or.inl ⟨internal_contractViolation _ _, fun _ => ⟨rfl, fun _ => h2⟩⟩)
  · next ho => exact Or.inr (Or.inl ⟨internal_contractViolation _ _, by simp [ho]⟩)
  · next ho => exact Or.inr (Or.inl ⟨internal_contractViolation _ _, by simp [ho]⟩)

theorem Call.failure_eq_none {serial : ℕ} {call : Call} :
    call.failure serial = none ↔ call = .run (.returned .nil) := by
  rcases call with _ | (err | _ | _) <;> simp [Call.failure]

theorem Call.failure_eq_some {serial : ℕ} {call : Call} {f : OperationFailure}
    (h : call.failure serial = some f) :
    f.invalidContext = true ∨ f.panicked = true ∨
      ∃ cause, cause ≠ .nil ∧ call = .run (.returned cause) ∧ f = { serial, cause } := by
  rcases call with _ | (err | _ | _)
  · cases h; exact Or.inl rfl
  · simp only [Call.failure] at h
    split_ifs at h with hn
    cases h
    exact Or.inr (Or.inr ⟨err, hn, rfl, rfl⟩)
  · cases h; exact Or.inr (Or.inl rfl)
  · cases h; exact Or.inr (Or.inl rfl)

theorem Call.result_eq {serial : ℕ} {call : Call} {f : OperationFailure}
    (h : call.failure serial = some f) : call.result serial = f.err .actionruntime := by
  simp [Call.result, h]

theorem ManagerReply.err_eq_nil {reply : ManagerReply} :
    reply.err = .nil ↔ reply = .returned .nil := by
  cases reply <;> simp [ManagerReply.err]

/-! ### Runs -/

/-- Where the admitted call is. -/
inductive Progress
  | idle
  | operating (call : Call)
  | ended (call : Call)
  | recorded (call : Call)
  | finished (call : Call)
  deriving DecidableEq, Repr

/-- Where `withinTransaction` is. -/
inductive Main
  | calling
  | returned (reply : ManagerReply)
  | closed (reply : ManagerReply)
  | done (reply : ManagerReply) (err : Err)
  deriving DecidableEq, Repr

/-- The variables of one `withinTransaction` call. -/
structure State where
  guard : ExactlyOnce := {}
  operationFailure : Option OperationFailure := none
  progress : Progress := .idle
  main : Main := .calling
  deriving DecidableEq, Repr

/-- The atomic steps. `invoke` may be taken by any goroutine at any time; the three that follow
belong to the admitted call; the last three are those of `withinTransaction` itself. -/
inductive Event
  | invoke (call : Call)
  | operate
  | record
  | finish
  | managerReturns (reply : ManagerReply)
  | close
  | snapshot
  deriving DecidableEq, Repr

/-- The first section of a call of the callback. -/
def State.invoke (s : State) (call : Call) : State :=
  match s.guard.enter with
  | (none, guard) => { s with guard, progress := .operating call }
  | (some _, guard) => { s with guard }

section Runs

variable (heap : Heap) (serial : ℕ)

/-- One step of the run of a call whose failure, if any, is the pointer `serial`. -/
def step (s : State) : Event → Option State
  | .invoke call =>
    match s.main with
    | .done _ _ => none
    | .calling | .returned _ | .closed _ => some (s.invoke call)
  | .operate =>
    match s.progress with
    | .operating call =>
      some { s with progress := .ended call, operationFailure := call.failure serial }
    | .idle | .ended _ | .recorded _ | .finished _ => none
  | .record =>
    match s.progress with
    | .ended call =>
      -- a call that exits never comes to this section
      if call = .run .exited then none
      else some { s with progress := .recorded call, guard := s.guard.record (call.result serial) }
    | .idle | .operating _ | .recorded _ | .finished _ => none
  | .finish =>
    match s.progress with
    | .recorded call => some { s with progress := .finished call, guard := s.guard.finish }
    | .ended call =>
      if call = .run .exited then
        some { s with progress := .finished call, guard := s.guard.finish }
      else none
    | .idle | .operating _ | .finished _ => none
  | .managerReturns reply =>
    match s.main with
    | .calling => some { s with main := .returned reply }
    | .returned _ | .closed _ | .done _ _ => none
  | .close =>
    match s.main with
    | .returned reply => some { s with main := .closed reply, guard := s.guard.close }
    | .calling | .closed _ | .done _ _ => none
  | .snapshot =>
    match s.main with
    | .closed reply =>
      -- `CloseAndWait` waits for a call that is still in flight
      if s.guard.inFlight then none
      else some { s with main := .done reply (settle heap reply s.guard s.operationFailure) }
    | .calling | .returned _ | .done _ _ => none

/-- `withinTransaction` returns `err` at the end of the run `events`, in which the manager came back
with `reply`. -/
def Returns (events : List Event) (reply : ManagerReply) (err : Err) : Prop :=
  ∃ s, run (step heap serial) events {} = some s ∧ s.main = .done reply err

/-- The calls of a run, in order. -/
def callsOf (events : List Event) : List Call :=
  events.filterMap fun
    | .invoke call => some call
    | .operate | .record | .finish | .managerReturns _ | .close | .snapshot => none

/-- The admitted call was over when the first event at `boundary` took place. -/
def FinishedBefore (boundary : Event → Bool) (events : List Event) : Prop :=
  ∃ before after b, events = before ++ b :: after ∧ boundary b = true ∧ .finish ∈ before

/-- The return of the manager. -/
def Event.isManagerReturn : Event → Bool
  | .managerReturns _ => true
  | .invoke _ | .operate | .record | .finish | .close | .snapshot => false

/-- The closing of the window, the first thing `withinTransaction` does after the return. -/
def Event.isClose : Event → Bool
  | .close => true
  | .invoke _ | .operate | .record | .finish | .managerReturns _ | .snapshot => false

/-! ### What a run keeps -/

/-- The flags and the result that the admitted call sets. -/
def flags (guard : ExactlyOnce) : Bool × Bool × Bool × Err :=
  (guard.inFlight, guard.completed, guard.returned, guard.result)

/-- The admitted call is the first one of the run. -/
def Admitted (events : List Event) (guard : ExactlyOnce) (call : Call) : Prop :=
  0 < guard.calls ∧ (callsOf events).head? = some call

/-- What the guard and `operationFailure` hold while the admitted call is at `progress`. -/
def ProgressAt (events : List Event) (guard : ExactlyOnce) (failure : Option OperationFailure) :
    Progress → Prop
  | .idle => guard.calls = 0 ∧ flags guard = (false, false, false, .nil) ∧ failure = none
  | .operating call =>
    Admitted events guard call ∧ flags guard = (true, false, false, .nil) ∧ failure = none
  | .ended call =>
    Admitted events guard call ∧ flags guard = (true, false, false, .nil) ∧
      failure = call.failure serial
  | .recorded call =>
    Admitted events guard call ∧ flags guard = (true, false, true, call.result serial) ∧
      failure = call.failure serial ∧ call ≠ .run .exited
  | .finished call =>
    Admitted events guard call ∧ failure = call.failure serial ∧
      flags guard =
        if call = .run .exited then (false, true, false, .nil)
        else (false, true, true, call.result serial)

/-- What they hold while `withinTransaction` is at `main`. -/
def MainAt (events : List Event) (guard : ExactlyOnce) (failure : Option OperationFailure) :
    Main → Prop
  | .calling => guard.closed = false
  | .returned reply => guard.closed = false ∧ .managerReturns reply ∈ events
  | .closed reply => guard.closed = true ∧ .managerReturns reply ∈ events
  | .done reply err =>
    guard.closed = true ∧ guard.inFlight = false ∧ .managerReturns reply ∈ events ∧
      err = settle heap reply guard failure

/-- What holds of a run and the state it ends in. -/
structure Inv (events : List Event) (s : State) : Prop where
  progress : ProgressAt serial events s.guard s.operationFailure s.progress
  finish : .finish ∈ events ↔ s.guard.completed = true
  /-- a call that is not counted was late -/
  calls_le : s.guard.calls ≤ (callsOf events).length
  late : s.guard.late = false ↔ s.guard.calls = (callsOf events).length
  late_closed : s.guard.late = true → s.guard.closed = true
  repeated : s.guard.repeated = decide (1 < s.guard.calls)
  closed : s.guard.closed = true ↔ .close ∈ events
  /-- before the window closes nothing has escaped -/
  kept : s.guard.closed = false → s.guard.escaped = false
  /-- what is in flight after that has -/
  escaped : s.guard.closed = true → s.guard.inFlight = true → s.guard.escaped = true
  finished : s.guard.closed = true →
    (FinishedBefore Event.isClose events ↔ s.guard.completed = true ∧ s.guard.escaped = false)
  main : MainAt heap events s.guard s.operationFailure s.main

theorem callsOf_append (es fs : List Event) : callsOf (es ++ fs) = callsOf es ++ callsOf fs :=
  List.filterMap_append

/-- An event after the closing of the window does not change whether the call was over by then. -/
theorem finishedBefore_append {events : List Event} {e : Event} (he : e.isClose = false) :
    FinishedBefore Event.isClose (events ++ [e]) ↔ FinishedBefore Event.isClose events := by
  constructor
  · rintro ⟨before, after, b, h, hb, hf⟩
    rcases List.eq_nil_or_concat after with rfl | ⟨after, x, rfl⟩
    · obtain ⟨-, h⟩ := List.append_inj' h rfl
      cases h
      exact absurd hb (by simp [he])
    · rw [List.concat_eq_append, ← List.cons_append, ← List.append_assoc] at h
      exact ⟨before, after, b, (List.append_inj' h rfl).1, hb, hf⟩
  · rintro ⟨before, after, b, rfl, hb, hf⟩
    exact ⟨before, after ++ [e], b, by simp, hb, hf⟩

/-- At the closing of the window itself, the call is over if it has finished. -/
theorem finishedBefore_close {events : List Event} (h : .close ∉ events) :
    FinishedBefore Event.isClose (events ++ [.close]) ↔ .finish ∈ events := by
  constructor
  · rintro ⟨before, after, b, he, hb, hf⟩
    rcases List.eq_nil_or_concat after with rfl | ⟨after, x, rfl⟩
    · rw [(List.append_inj' he rfl).1]
      exact hf
    · rw [List.concat_eq_append, ← List.cons_append, ← List.append_assoc] at he
      have hm : b ∈ events := by rw [(List.append_inj' he rfl).1]; simp
      cases b <;> simp [Event.isClose] at hb
      exact absurd hm h
  · intro hf
    exact ⟨events, [], .close, rfl, rfl, hf⟩

theorem inv_init : Inv heap serial [] {} where
  progress := ⟨rfl, rfl, rfl⟩
  finish := by simp
  calls_le := by simp
  late := by simp [callsOf]
  late_closed := by simp
  repeated := rfl
  closed := by simp
  kept := fun _ => rfl
  escaped := by simp
  finished := by simp
  main := rfl

/-- Until `withinTransaction` is done, all it goes by is whether the window is closed. -/
theorem MainAt.append {events : List Event} {guard guard' : ExactlyOnce}
    {failure failure' : Option OperationFailure} {main : Main} (e : Event)
    (h : MainAt heap events guard failure main) (hd : ∀ reply err, main ≠ .done reply err)
    (hc : guard'.closed = guard.closed) : MainAt heap (events ++ [e]) guard' failure' main := by
  cases main with
  | calling => exact hc.trans h
  | returned reply => exact ⟨hc.trans h.1, List.mem_append_left _ h.2⟩
  | closed reply => exact ⟨hc.trans h.1, List.mem_append_left _ h.2⟩
  | done reply err => exact absurd rfl (hd reply err)

theorem Admitted.append {events : List Event} {guard guard' : ExactlyOnce} {call : Call} (e : Event)
    (h : Admitted events guard call) (hc : guard.calls ≤ guard'.calls) :
    Admitted (events ++ [e]) guard' call := by
  refine ⟨h.1.trans_le hc, ?_⟩
  rw [callsOf_append, List.head?_append, h.2]
  rfl

/-- A call that is not admitted, or a step of `withinTransaction`, leaves the admitted call where
it is. -/
theorem ProgressAt.append {events : List Event} {guard guard' : ExactlyOnce}
    {failure : Option OperationFailure} {progress : Progress} (e : Event)
    (h : ProgressAt serial events guard failure progress) (hf : flags guard' = flags guard)
    (hc : guard.calls ≤ guard'.calls) (h0 : guard.calls = 0 → guard'.calls = 0) :
    ProgressAt serial (events ++ [e]) guard' failure progress := by
  cases progress with
  | idle => exact ⟨h0 h.1, hf.trans h.2.1, h.2.2⟩
  | operating call => exact ⟨h.1.append e hc, hf.trans h.2.1, h.2.2⟩
  | ended call => exact ⟨h.1.append e hc, hf.trans h.2.1, h.2.2⟩
  | recorded call => exact ⟨h.1.append e hc, hf.trans h.2.1, h.2.2⟩
  | finished call => exact ⟨h.1.append e hc, h.2.1, hf.trans h.2.2⟩

theorem ProgressAt.idle_of_calls {events : List Event} {guard : ExactlyOnce}
    {failure : Option OperationFailure} {progress : Progress}
    (h : ProgressAt serial events guard failure progress) (h0 : guard.calls = 0) :
    progress = .idle := by
  cases progress with
  | idle => rfl
  | operating call => exact absurd h.1.1 (by omega)
  | ended call => exact absurd h.1.1 (by omega)
  | recorded call => exact absurd h.1.1 (by omega)
  | finished call => exact absurd h.1.1 (by omega)

theorem ProgressAt.inFlight_of_completed {events : List Event} {guard : ExactlyOnce}
    {failure : Option OperationFailure} {progress : Progress}
    (h : ProgressAt serial events guard failure progress) (hc : guard.completed = true) :
    guard.inFlight = false := by
  cases progress <;> simp only [ProgressAt, flags] at h
  case finished call =>
    obtain ⟨-, -, h⟩ := h
    split_ifs at h <;> exact (Prod.mk.inj h).1
  all_goals simp_all

/-- A step of the admitted call leaves the window and the number of calls as they are. -/
theorem Inv.advance {events : List Event} {e : Event} {s t : State} (hi : Inv heap serial events s)
    (hf : s.guard.inFlight = true) (hs : s.guard.completed = false) (hm : t.main = s.main)
    (hg : { t.guard with
      inFlight := s.guard.inFlight, completed := s.guard.completed, returned := s.guard.returned,
      result := s.guard.result } = s.guard)
    (he : callsOf [e] = []) (hc : e.isClose = false)
    (hfin : e = .finish ↔ t.guard.completed = true)
    (hp : ProgressAt serial (events ++ [e]) t.guard t.operationFailure t.progress) :
    Inv heap serial (events ++ [e]) t := by
  have hx : callsOf (events ++ [e]) = callsOf events := by simp [callsOf_append, he]
  obtain ⟨h1, h2, h3, h4, h5⟩ : t.guard.calls = s.guard.calls ∧ t.guard.late = s.guard.late ∧
      t.guard.repeated = s.guard.repeated ∧ t.guard.closed = s.guard.closed ∧
      t.guard.escaped = s.guard.escaped := by
    rw [← hg]; exact ⟨rfl, rfl, rfl, rfl, rfl⟩
  have hn : .finish ∉ events := by rw [hi.finish, hs]; simp
  have hcm : .close ∈ events ++ [e] ↔ .close ∈ events := by
    cases e <;> simp [Event.isClose] at hc ⊢
  exact
    { progress := hp
      finish := by rw [← hfin]; simp [hn, eq_comm]
      calls_le := by rw [hx, h1]; exact hi.calls_le
      late := by rw [hx, h1, h2]; exact hi.late
      late_closed := by rw [h2, h4]; exact hi.late_closed
      repeated := by rw [h1, h3]; exact hi.repeated
      closed := by rw [h4, hcm]; exact hi.closed
      kept := by rw [h4, h5]; exact hi.kept
      escaped := by rw [h4, h5]; exact fun hd _ => hi.escaped hd hf
      finished := by
        -- the call is still in flight, so it was not over when the window closed
        intro hd
        rw [h4] at hd
        rw [finishedBefore_append hc, hi.finished hd, hs, h5, hi.escaped hd hf]
        simp
      main := by
        rw [hm]
        refine hi.main.append heap e (fun reply err hd => ?_) h4
        have := hi.main
        rw [hd] at this
        exact absurd (hf.symm.trans this.2.1) (by simp) }

/-- A call of the callback, admitted or not. -/
theorem Inv.invoke {events : List Event} {s : State} (call : Call) (hi : Inv heap serial events s)
    (hd : ∀ reply err, s.main ≠ .done reply err) :
    Inv heap serial (events ++ [.invoke call]) (s.invoke call) := by
  have hx : callsOf (events ++ [.invoke call]) = callsOf events ++ [call] := by simp [callsOf]
  have hb : FinishedBefore Event.isClose (events ++ [.invoke call]) ↔ _ := finishedBefore_append rfl
  have hm : ∀ guard : ExactlyOnce, guard.closed = s.guard.closed →
      MainAt heap (events ++ [.invoke call]) guard s.operationFailure s.main := fun guard =>
    hi.main.append heap _ hd
  have hp := hi.progress
  have hl := hi.late
  have hc := hi.calls_le
  unfold State.invoke ExactlyOnce.enter
  split_ifs with h1 h2
  · -- too late: the window is closed
    exact
      { hi with
        progress := hp.append serial _ rfl le_rfl id
        finish := by simpa using hi.finish
        calls_le := by rw [hx]; simp; omega
        late := by rw [hx]; simp; omega
        late_closed := fun _ => h1
        closed := by simpa using hi.closed
        finished := fun hd => hb.trans (hi.finished hd)
        main := hm _ rfl }
  · -- a call was admitted before
    exact
      { hi with
        progress := hp.append serial _ rfl (by simp) (by simp; omega)
        finish := by simpa using hi.finish
        calls_le := by rw [hx]; simp; omega
        late := by rw [hx]; simp; omega
        repeated := by simp; omega
        closed := by simpa using hi.closed
        finished := fun hd => hb.trans (hi.finished hd)
        main := hm _ rfl }
  · -- the first call of all
    have h0 : s.guard.calls = 0 := by omega
    have hl0 : s.guard.late = false := by
      rcases h : s.guard.late with _ | _
      · rfl
      · exact absurd (hi.late_closed h) h1
    have hn : callsOf events = [] := List.length_eq_zero_iff.mp (by rw [← hl.mp hl0, h0])
    have hidle := hp.idle_of_calls serial h0
    simp only [hidle, ProgressAt, flags, Prod.mk.injEq] at hp
    obtain ⟨-, ⟨-, f2, f3, f4⟩, f5⟩ := hp
    exact
      { hi with
        progress := ⟨⟨Nat.succ_pos _, by simp [hx, hn]⟩, by simp [flags, f2, f3, f4], f5⟩
        finish := by simpa using hi.finish
        calls_le := by rw [hx]; simp; omega
        late := by rw [hx]; simp; omega
        repeated := by rw [hi.repeated]; simp [h0]
        closed := by simpa using hi.closed
        escaped := fun hd => absurd hd h1
        finished := fun hd => absurd hd h1
        main := hm _ rfl }

theorem inv_step {events : List Event} {e : Event} {s t : State} (hi : Inv heap serial events s)
    (h : step heap serial s e = some t) : Inv heap serial (events ++ [e]) t := by
  have hp := hi.progress
  cases e with
  | invoke call =>
    have hd : ∀ reply err, s.main ≠ .done reply err := by
      intro reply err hd
      simp [step, hd] at h
    have ht : t = s.invoke call := by
      simp only [step] at h
      split at h <;> cases h <;> rfl
    exact ht ▸ hi.invoke heap serial call hd
  | operate =>
    simp only [step] at h
    split at h <;> cases h
    next call hs =>
    simp only [hs, ProgressAt, flags, Prod.mk.injEq] at hp
    obtain ⟨ha, ⟨h1, h2, h3, h4⟩, -⟩ := hp
    refine hi.advance heap serial h1 h2 rfl rfl rfl rfl (by simp [h2]) ?_
    exact ⟨ha.append _ le_rfl, by simp [flags, *], rfl⟩
  | record =>
    simp only [step] at h
    split at h <;> try cases h
    next call hs =>
    split at h <;> cases h
    next hx =>
    simp only [hs, ProgressAt, flags, Prod.mk.injEq] at hp
    obtain ⟨ha, ⟨h1, h2, h3, h4⟩, h5⟩ := hp
    refine hi.advance heap serial h1 h2 rfl rfl rfl rfl (by simp [ExactlyOnce.record, h2]) ?_
    exact ⟨ha.append _ le_rfl, by simp [flags, ExactlyOnce.record, *], h5, hx⟩
  | finish =>
    simp only [step] at h
    split at h <;> try cases h
    · next call hs =>
      simp only [hs, ProgressAt, flags, Prod.mk.injEq] at hp
      obtain ⟨ha, ⟨h1, h2, h3, h4⟩, h5, hx⟩ := hp
      refine hi.advance heap serial h1 h2 rfl rfl rfl rfl (by simp [ExactlyOnce.finish]) ?_
      exact ⟨ha.append _ le_rfl, h5, by simp [flags, ExactlyOnce.finish, *]⟩
    · next call hs =>
      split at h <;> cases h
      next hx =>
      simp only [hs, ProgressAt, flags, Prod.mk.injEq] at hp
      obtain ⟨ha, ⟨h1, h2, h3, h4⟩, h5⟩ := hp
      refine hi.advance heap serial h1 h2 rfl rfl rfl rfl (by simp [ExactlyOnce.finish]) ?_
      exact ⟨ha.append _ le_rfl, h5, by simp [flags, ExactlyOnce.finish, *]⟩
  | managerReturns reply =>
    have hx : callsOf (events ++ [.managerReturns reply]) = callsOf events := by simp [callsOf]
    simp only [step] at h
    split at h <;> cases h
    next hs =>
    have hm := hi.main
    rw [hs] at hm
    exact
      { hi with
        progress := hp.append serial _ rfl le_rfl id
        finish := by simpa using hi.finish
        calls_le := by rw [hx]; exact hi.calls_le
        late := by rw [hx]; exact hi.late
        closed := by simpa using hi.closed
        finished := fun hd => (finishedBefore_append rfl).trans (hi.finished hd)
        main := ⟨hm, by simp⟩ }
  | close =>
    have hx : callsOf (events ++ [.close]) = callsOf events := by simp [callsOf]
    simp only [step] at h
    split at h <;> cases h
    next reply hs =>
    have hm := hi.main
    rw [hs] at hm
    have hc : .close ∉ events := by rw [← hi.closed, hm.1]; simp
    exact
      { progress := hp.append serial _ rfl le_rfl id
        finish := by simpa [ExactlyOnce.close] using hi.finish
        calls_le := by rw [hx]; exact hi.calls_le
        late := by rw [hx]; exact hi.late
        late_closed := fun _ => rfl
        repeated := hi.repeated
        closed := by simp [ExactlyOnce.close]
        kept := by simp [ExactlyOnce.close]
        escaped := fun _ hf => by simpa [ExactlyOnce.close] using Or.inr hf
        finished := fun _ => by
          have hk := hi.kept hm.1
          have hn := hp.inFlight_of_completed
          simp only [finishedBefore_close hc, hi.finish, ExactlyOnce.close, hk, Bool.false_or]
          exact ⟨fun h => ⟨h, hn h⟩, And.left⟩
        main := ⟨rfl, List.mem_append_left _ hm.2⟩ }
  | snapshot =>
    have hx : callsOf (events ++ [.snapshot]) = callsOf events := by simp [callsOf]
    simp only [step] at h
    split at h <;> try cases h
    next reply hs =>
    split at h <;> cases h
    next hf =>
    have hm := hi.main
    rw [hs] at hm
    exact
      { hi with
        progress := hp.append serial _ rfl le_rfl id
        finish := by simpa using hi.finish
        calls_le := by rw [hx]; exact hi.calls_le
        late := by rw [hx]; exact hi.late
        closed := by simpa using hi.closed
        finished := fun hd => (finishedBefore_append rfl).trans (hi.finished hd)
        main := ⟨hm.1, by simpa using hf, List.mem_append_left _ hm.2, rfl⟩ }

theorem inv_run {events : List Event} {s : State}
    (h : run (step heap serial) events {} = some s) : Inv heap serial events s :=
  run_induction (inv_init heap serial) (fun _ _ _ _ => inv_step heap serial) h

/-! ### What the window saw -/

theorem ProgressAt.finished_of_completed {events : List Event} {guard : ExactlyOnce}
    {failure : Option OperationFailure} {progress : Progress}
    (h : ProgressAt serial events guard failure progress) (hc : guard.completed = true) :
    ∃ call, progress = .finished call := by
  cases progress <;> simp only [ProgressAt, flags] at h
  case finished call => exact ⟨call, rfl⟩
  all_goals simp_all

/-- A window that saw one call return in time knows what the call was. -/
theorem Inv.returned {events : List Event} {s : State} (hi : Inv heap serial events s)
    (ho : s.guard.outcome = .returned) :
    ∃ call, callsOf events = [call] ∧ FinishedBefore Event.isClose events ∧ call ≠ .run .exited ∧
      s.operationFailure = call.failure serial ∧ s.guard.result = call.result serial := by
  obtain ⟨h1, h2, h3, h4, h5, h6⟩ : s.guard.closed = true ∧ s.guard.calls = 1 ∧
      s.guard.completed = true ∧ s.guard.late = false ∧ s.guard.escaped = false ∧
      s.guard.returned = true := by
    unfold ExactlyOnce.outcome at ho
    split_ifs at ho
    simp_all
  have hp := hi.progress
  obtain ⟨call, hs⟩ := hp.finished_of_completed serial h3
  simp only [hs, ProgressAt, flags] at hp
  obtain ⟨⟨-, hh⟩, hf, hr⟩ := hp
  have hl : (callsOf events).length = 1 := by rw [← hi.late.mp h4, h2]
  obtain ⟨c, hc⟩ := List.length_eq_one_iff.mp hl
  rw [hc] at hh
  cases hh
  split_ifs at hr with hx
  · simp only [Prod.mk.injEq, h6] at hr
    exact absurd hr.2.2.1 (by simp)
  · exact ⟨call, hc, (hi.finished h1).mpr ⟨h3, h5⟩, hx, hf,
      (Prod.mk.inj (Prod.mk.inj (Prod.mk.inj hr).2).2).2⟩

/-- One call that returned, and was over before the window closed, is what the window saw. -/
theorem Inv.outcome_returned {events : List Event} {s : State} {call : Call}
    (hi : Inv heap serial events s) (hc : s.guard.closed = true) (hcalls : callsOf events = [call])
    (hx : call ≠ .run .exited) (hf : FinishedBefore Event.isClose events) :
    s.guard.outcome = .returned := by
  obtain ⟨h1, h2⟩ := (hi.finished hc).mp hf
  have hp := hi.progress
  have hn := hp.inFlight_of_completed serial h1
  obtain ⟨c, hs⟩ := hp.finished_of_completed serial h1
  simp only [hs, ProgressAt, Admitted, hcalls, flags] at hp
  obtain ⟨⟨hpos, hh⟩, -, hr⟩ := hp
  cases hh
  rw [if_neg hx] at hr
  have hcl : s.guard.calls = 1 := by
    have := hi.calls_le
    rw [hcalls, List.length_singleton] at this
    omega
  have hlate : s.guard.late = false := hi.late.mpr (by rw [hcl, hcalls]; rfl)
  have hrep : s.guard.repeated = false := by rw [hi.repeated, hcl]; rfl
  have hret : s.guard.returned = true := (Prod.mk.inj (Prod.mk.inj (Prod.mk.inj hr).2).2).1
  simp [ExactlyOnce.outcome, hc, hcl, hn, h1, hrep, hlate, h2, hret]

/-! ### The window, summed up -/

/-- What a run says about the calls of the callback. -/
inductive Window
  /-- it was never called -/
  | unused
  /-- it was called once, returned, and was over when the window closed -/
  | seen (call : Call)
  /-- anything else -/
  | violated (failure : Option OperationFailure)
  deriving DecidableEq, Repr

/-- A guard that saw just that. -/
def Window.snapshot : Window → ExactlyOnce
  | .unused => ({} : ExactlyOnce).close
  | .seen call => (({} : ExactlyOnce).enter.2.record (call.result serial)).finish.close
  | .violated _ => { closed := true, late := true }

/-- The failure of the operation, as far as it was run. -/
def Window.failure : Window → Option OperationFailure
  | .unused => none
  | .seen call => call.failure serial
  | .violated failure => failure

/-- The decision on a summed up window. -/
def Window.settle (reply : ManagerReply) (window : Window) : Err :=
  Transaction.settle heap reply (window.snapshot serial) (window.failure serial)

/-- The window that a run amounts to. -/
def Window.Of (events : List Event) : Window → Prop
  | .unused => callsOf events = []
  | .seen call => callsOf events = [call] ∧ call ≠ .run .exited ∧
      FinishedBefore Event.isClose events
  | .violated _ => True

/-- The decision goes by the outcome, the result and the failure only. -/
theorem settle_congr {reply : ManagerReply} {snapshot snapshot' : ExactlyOnce}
    {failure : Option OperationFailure} (ho : snapshot.outcome = snapshot'.outcome)
    (hr : snapshot.result = snapshot'.result) :
    settle heap reply snapshot failure = settle heap reply snapshot' failure := by
  unfold settle settleFailure
  rw [ho, hr]

/-- Whatever the interleaving, `withinTransaction` decides by the summed up window. -/
theorem exists_window {events : List Event} {reply : ManagerReply} {err : Err}
    (h : Returns heap serial events reply err) :
    ∃ window : Window, window.Of events ∧ err = window.settle heap serial reply := by
  obtain ⟨s, hrun, hmain⟩ := h
  have hi := inv_run heap serial hrun
  have hm := hi.main
  rw [hmain] at hm
  obtain ⟨hc, -, -, rfl⟩ := hm
  rcases ho : s.guard.outcome with _ | _ | _ | _
  · exact ⟨.violated s.operationFailure, trivial, by
      simp [settle, Window.settle, Window.snapshot, Window.failure, ho, outcome_late]⟩
  · refine ⟨.unused, ?_, by
      simp [settle, Window.settle, Window.snapshot, ho, outcome_none]⟩
    obtain ⟨h1, h2⟩ : s.guard.calls = 0 ∧ s.guard.late = false := by
      unfold ExactlyOnce.outcome at ho
      split_ifs at ho
      simp_all
    exact List.length_eq_zero_iff.mp (by rw [← hi.late.mp h2, h1])
  · obtain ⟨call, h1, h2, h3, h4, h5⟩ := hi.returned heap serial ho
    refine ⟨.seen call, ⟨h1, h3, h2⟩, ?_⟩
    rw [h4]
    exact settle_congr heap (ho.trans (outcome_once _).symm) h5
  · exact ⟨.violated s.operationFailure, trivial, by
      simp [settle, Window.settle, Window.snapshot, Window.failure, ho, outcome_late]⟩

/-- The operation returned `cause` from the one call, in time, and the manager proved at the root of
its error that it rolled back this very failure. -/
def Surfaces (events : List Event) (reply : ManagerReply) (cause : Err) : Prop :=
  cause ≠ .nil ∧ callsOf events = [.run (.returned cause)] ∧
    FinishedBefore Event.isClose events ∧ Proven heap reply { serial, cause }

/-- **The contract of `withinTransaction`**, over every interleaving of any manager with any
operation: it returns nil exactly when the callback was called once, returned nil, was over when the
window closed, and the manager returned nil; the code of the operation's own error is surfaced under
a root-level proof of its rollback, and every other failure is internal. -/
theorem withinTransaction_contract {events : List Event} {reply : ManagerReply} {err : Err}
    (h : Returns heap serial events reply err) :
    (err = .nil ↔ callsOf events = [.run (.returned .nil)] ∧
      FinishedBefore Event.isClose events ∧ reply = .returned .nil) ∧
    (∀ cause, Surfaces heap serial events reply cause →
      errorCode heap err = surfacedCode heap cause) ∧
    (err ≠ .nil → (¬ ∃ cause, Surfaces heap serial events reply cause) →
      errorCode heap err = codeInternal) := by
  obtain ⟨s, hrun, hmain⟩ := h
  have hi := inv_run heap serial hrun
  have hm := hi.main
  rw [hmain] at hm
  obtain ⟨hc, -, -, rfl⟩ := hm
  -- a call that returned in time is what the decision is about
  have hseen : ∀ r, callsOf events = [.run (.returned r)] → FinishedBefore Event.isClose events →
      s.guard.outcome = .returned ∧ s.operationFailure = Call.failure serial (.run (.returned r)) ∧
        s.guard.result = Call.result serial (.run (.returned r)) := by
    intro r h1 h2
    have ho := hi.outcome_returned heap serial hc h1 (by simp) h2
    obtain ⟨call, h3, -, -, h4, h5⟩ := hi.returned heap serial ho
    rw [h1] at h3
    cases h3
    exact ⟨ho, h4, h5⟩
  rcases settle_cases heap reply s.guard s.operationFailure with
    ⟨hnil, ho, hf, he⟩ | ⟨hint, hnot⟩ | ⟨f, ho, hf, hs⟩
  · obtain ⟨call, h1, h2, -, h3, -⟩ := hi.returned heap serial ho
    rw [hf, eq_comm, Call.failure_eq_none] at h3
    subst h3
    refine ⟨⟨fun _ => ⟨h1, h2, ManagerReply.err_eq_nil.mp he⟩, fun _ => hnil⟩, ?_,
      fun h => absurd hnil h⟩
    rintro cause ⟨hn, h4, -⟩
    rw [h1] at h4
    cases h4
    exact absurd rfl hn
  · refine ⟨⟨fun h => absurd h hint.ne_nil, ?_⟩, ?_, fun _ _ => hint.errorCode heap⟩
    · rintro ⟨h1, h2, rfl⟩
      obtain ⟨ho, -, hr⟩ := hseen _ h1 h2
      exact absurd rfl ((hnot ho).2 hr)
    · rintro cause ⟨hn, h1, h2, -⟩
      obtain ⟨ho, hf, -⟩ := hseen _ h1 h2
      rw [(hnot ho).1, eq_comm, Call.failure_eq_none] at hf
      cases hf
      exact absurd rfl hn
  · obtain ⟨call, h1, h2, -, h3, h4⟩ := hi.returned heap serial ho
    rw [hf] at h3
    rw [hs]
    refine ⟨⟨fun h => absurd h (settleFailure_ne_nil _ _ _ _), ?_⟩, ?_, ?_⟩
    · rintro ⟨h5, -, -⟩
      rw [h1] at h5
      cases h5
      cases h3
    · rintro cause ⟨hn, h5, -, hp⟩
      rw [h1] at h5
      cases h5
      simp only [Call.failure, hn, if_false, Option.some.injEq] at h3
      subst h3
      rw [settleFailure_of_proven (by rw [h4]; exact Call.result_eq (by simp [Call.failure, hn]))
        rfl rfl hp, errorCode_operationFailure]
    · intro _ hno
      refine (settleFailure_internal ?_).errorCode heap
      rcases Call.failure_eq_some h3.symm with h | h | ⟨cause, hn, rfl, rfl⟩
      · exact Or.inl h
      · exact Or.inr (Or.inl h)
      · exact Or.inr (Or.inr fun hp => hno ⟨cause, hn, h1, h2, hp⟩)

/-- A manager that calls back once, and returns. -/
def onceRun (operation : Err) (reply : ManagerReply) : List Event :=
  [.invoke (.run (.returned operation)), .operate, .record, .finish, .managerReturns reply, .close,
    .snapshot]

/-- The first manager commits; the second proves that it rolled back the error of the operation,
whose code is surfaced; the third reports another error. -/
theorem withinTransaction_contract_commit :
    let heap : Heap := fun _ => .untrusted
    let cause : Err := newError (.utf8 "OUT_OF_STOCK") (.utf8 "out of stock")
    let proof : ManagerReply :=
      .returned (rolledBack (.operation .actionruntime 1 cause false false))
    Returns heap 1 (onceRun .nil (.returned .nil)) (.returned .nil) .nil ∧
      FinishedBefore Event.isClose (onceRun .nil (.returned .nil)) ∧
      (∃ err, Returns heap 1 (onceRun cause proof) proof err ∧
        errorCode heap err = .utf8 "OUT_OF_STOCK") ∧
      ∃ err, Returns heap 1 (onceRun cause (.returned cause)) (.returned cause) err ∧
        errorCode heap err = codeInternal := by
  intro heap cause proof
  have hcommit : Returns heap 1 (onceRun .nil (.returned .nil)) (.returned .nil) .nil :=
    ⟨_, rfl, rfl⟩
  obtain ⟨err, hproof⟩ : ∃ err, Returns heap 1 (onceRun cause proof) proof err :=
    ⟨_, _, rfl, rfl⟩
  obtain ⟨other, hother⟩ : ∃ err, Returns heap 1 (onceRun cause (.returned cause))
      (.returned cause) err := ⟨_, _, rfl, rfl⟩
  refine ⟨hcommit, ((withinTransaction_contract _ _ hcommit).1.mp rfl).2.1,
    ⟨err, hproof, ?_⟩, other, hother, ?_⟩
  · refine ((withinTransaction_contract _ _ hproof).2.1 cause ⟨by decide, rfl, ?_, ?_⟩).trans
      (by decide)
    · exact ⟨(onceRun cause proof).take 5, [.snapshot], .close, rfl, rfl, by decide⟩
    · exact ⟨_, rfl, rfl, by decide⟩
  · refine (withinTransaction_contract _ _ hother).2.2 ?_ ?_
    · intro hnil
      have hreply := ((withinTransaction_contract _ _ hother).1.mp hnil).2.2
      exact absurd hreply (by decide)
    · rintro ⟨other, -, -, -, proof, hroot, -⟩
      cases hroot

/-- A call that outlives the manager by a moment: it finishes after the manager has returned and
before the window closes, and the transaction still counts as a success. -/
theorem late_finish_accepted :
    ¬ ∀ (heap : Heap) (serial : ℕ) (events : List Event) (reply : ManagerReply) (err : Err),
      Returns heap serial events reply err →
        (err = .nil ↔ callsOf events = [.run (.returned .nil)] ∧
          FinishedBefore Event.isManagerReturn events ∧ reply = .returned .nil) := by
  intro hall
  have h : Returns (fun _ => .untrusted) 1
      [.invoke (.run (.returned .nil)), .managerReturns (.returned .nil), .operate, .record, .finish,
        .close, .snapshot] (.returned .nil) .nil := ⟨_, rfl, rfl⟩
  obtain ⟨-, ⟨before, after, b, he, hb, hf⟩, -⟩ := (hall _ _ _ _ _ h).mp rfl
  -- the only return of the manager is the second event, and nothing has finished before it
  rcases before with _ | ⟨x, _ | ⟨y, before⟩⟩
  · simp at hf
  · cases he
    simp at hf
  · have hm : b ∈ [.operate, .record, .finish, .close, .snapshot] := by
      rw [(List.cons.inj (List.cons.inj he).2).2]
      simp
    simp only [List.mem_cons, List.not_mem_nil, or_false] at hm
    rcases hm with rfl | rfl | rfl | rfl | rfl <;> cases hb

end Runs

end Modary.Runtime.Transaction
