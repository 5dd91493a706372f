import Modary.Action.Errors

/-! # The exactly-once guard

`callbackcontract.ExactlyOnce`: the record behind the mutex, and one function for each critical
section of `Invoke`, `CloseAndWait` and `Snapshot`. -/

namespace Modary.Runtime.Callback

open Modary.Action.Errors

/-- `callbackcontract.ExactlyOnce`. The channel `done` is closed as `completed` is set. -/
structure ExactlyOnce where
  calls : ℕ := 0
  inFlight : Bool := false
  completed : Bool := false
  returned : Bool := false
  repeated : Bool := false
  late : Bool := false
  closed : Bool := false
  escaped : Bool := false
  result : Err := .nil
  deriving DecidableEq, Repr

/-- `callbackcontract.Outcome`. -/
inductive Outcome
  | contractViolation
  | notInvoked
  | returned
  | panicked
  deriving DecidableEq, Repr

/-- `Snapshot.Outcome`. -/
def ExactlyOnce.outcome (s : ExactlyOnce) : Outcome :=
  if s.closed && s.calls == 0 && !s.inFlight && !s.completed && !s.returned && !s.repeated &&
      !s.late && !s.escaped && s.result == .nil then .notInvoked
  else if s.closed && s.calls == 1 && !s.inFlight && s.completed && !s.repeated && !s.late &&
      !s.escaped then
    if s.returned then .returned
    else if s.result == .nil then .panicked
    else .contractViolation
  else .contractViolation

/-- The first section of `Invoke`: `none` when the call is admitted, else the error it gets. -/
def ExactlyOnce.enter (guard : ExactlyOnce) : Option Err × ExactlyOnce :=
  if guard.closed then (some (.sentinel .closedInvocation), { guard with late := true })
  else if guard.calls + 1 ≠ 1 then
    (some (.sentinel .repeatedInvocation),
      { guard with calls := guard.calls + 1, repeated := true })
  else (none, { guard with calls := guard.calls + 1, inFlight := true })

/-- The section of `Invoke` after the operation has returned. -/
def ExactlyOnce.record (guard : ExactlyOnce) (result : Err) : ExactlyOnce :=
  { guard with returned := true, result := result }

/-- The deferred section of `Invoke`. -/
def ExactlyOnce.finish (guard : ExactlyOnce) : ExactlyOnce :=
  { guard with inFlight := false, completed := true }

/-- The first section of `CloseAndWait`. -/
def ExactlyOnce.close (guard : ExactlyOnce) : ExactlyOnce :=
  { guard with closed := true, escaped := guard.escaped || guard.inFlight }

/-! ### The failure of a guarded operation -/

/-- `transactionOperationError`. -/
structure OperationFailure where
  serial : ℕ
  cause : Err
  invalidContext : Bool := false
  panicked : Bool := false
  deriving DecidableEq, Repr

/-- The failure as an error of its package. -/
def OperationFailure.err (layer : Layer) (failure : OperationFailure) : Err :=
  .operation layer failure.serial failure.cause failure.invalidContext failure.panicked

/-- The variable `operationFailure` where it is passed as an `error`: a nil pointer makes an
interface value that is not nil. -/
def failureErr (layer : Layer) : Option OperationFailure → Err
  | none => .nilOperation layer
  | some failure => failure.err layer

/-! ### Windows with at most one call -/

/-- The guard of an invocation window in which the callback ran once, returned `result` and was over
before the window closed. -/
theorem outcome_once (result : Err) :
    ((({} : ExactlyOnce).enter.2.record result).finish.close).outcome = .returned := rfl

/-- The guard of a window in which no call was made. -/
theorem outcome_none : ({} : ExactlyOnce).close.outcome = .notInvoked := rfl

/-- A guard that saw a late call. -/
theorem outcome_late :
    ({ closed := true, late := true } : ExactlyOnce).outcome = .contractViolation := rfl

end Modary.Runtime.Callback
