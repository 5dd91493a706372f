import Modary.Runtime.Traces

/-! # Consultation

The parts of the engine that only ask: for the time, for a decision, for a plan. They call nothing
else, whatever the replies are. -/

namespace Modary.Runtime.Consulting

open Modary.Lib.GoText Modary.Lib.Prog
open Modary.Action.Authz Modary.Action.Errors Modary.Action.Types
open Modary.Runtime.Environment
open Modary.Runtime.Engine Modary.Runtime.Traces

/-- The calls that only ask. -/
def consults : Op → Bool
  | .clock _ => true
  | .authorize _ _ => true
  | .planGet _ _ => true
  | .lookup _ _ => true
  | .handlerPlan _ _ => true
  | _ => false

variable {P : Op → Prop} {ε α : Type} {request : Action.Types.Request} {registered : Registration}

theorem confined_ofExcept {x : Except Err α} : Attempt.Confined P (Step.ofExcept x) := by
  cases x with
  | ok a => exact Attempt.confined_pure
  | error err => exact Attempt.confined_throw

theorem confined_lift {p : Program α} (hp : ∀ h, p.Meets (fun _ op => P op) (fun _ _ => True) h) :
    Attempt.Confined P (ExceptT.lift p : Attempt Op Op.Response ε α) :=
  fun h => meets_lift.mpr (hp h)

variable (e : Engine) (hP : ∀ op, consults op = true → P op)

include hP

theorem confined_currentTime : Attempt.Confined P currentTime :=
  Attempt.confined_attempt (hP _ rfl)

theorem confined_lookup {ctx : Ctx} {record : IdempotencyRecord} :
    Attempt.Confined P (lookup ctx record) :=
  Attempt.confined_attempt (hP _ rfl)

theorem confined_handlerPlan : Attempt.Confined P (handlerPlan e request registered) :=
  Attempt.confined_attempt (hP _ rfl)

theorem confined_authorizeWithFallback {ctx : Ctx} {descriptor : Descriptor} {phase : Phase}
    {impact : Impact} {fallback : GoString} :
    Attempt.Confined P (authorizeWithFallback e ctx request descriptor phase impact fallback) :=
  Attempt.confined_attempt (hP _ rfl)

theorem confined_authorizeImpact {ctx : Ctx} {descriptor : Descriptor} {intent : Decision}
    {impact : Impact} {expected : GoString} :
    Attempt.Confined P (authorizeImpact e ctx request descriptor intent impact expected) := by
  unfold authorizeImpact
  refine (confined_authorizeWithFallback e hP).bind fun decision => ?_
  split
  · exact Attempt.confined_throw
  · split
    · exact Attempt.confined_throw
    · exact Attempt.confined_pure

theorem confined_completedResult {intent : Decision} {expected existing : IdempotencyRecord} :
    Attempt.Confined P (completedResult e request registered intent expected existing) := by
  unfold completedResult
  refine confined_ofExcept.bind fun _ => ?_
  exact (confined_authorizeWithFallback e hP).bind fun _ => confined_ofExcept

theorem confined_loadExecutionPlan :
    Attempt.Confined P (loadExecutionPlan e request registered) := by
  unfold loadExecutionPlan
  refine (Attempt.confined_attempt (hP _ rfl)).bind fun plan => Attempt.Confined.adapt ?_
  refine confined_ofExcept.bind fun _ => (confined_currentTime hP).bind fun now => ?_
  exact confined_ofExcept.bind fun _ => Attempt.confined_pure

theorem confined_planInline : Attempt.Confined P (planInline e request registered) := by
  unfold planInline
  refine (confined_handlerPlan e hP).bind fun data => ?_
  refine confined_ofExcept.bind fun _ => (confined_currentTime hP).bind fun now => ?_
  exact confined_ofExcept.bind fun _ => Attempt.confined_pure

theorem confined_resolveExecutionPlan :
    Attempt.Confined P (resolveExecutionPlan e request registered) := by
  unfold resolveExecutionPlan
  dsimp only
  split
  · exact Attempt.confined_throw
  · split
    · exact confined_loadExecutionPlan e hP
    · exact (confined_planInline e hP).adapt

theorem confined_preparePlan {intent : Decision} {record : IdempotencyRecord} :
    Attempt.Confined P (preparePlan e request registered intent record) := by
  unfold preparePlan
  refine Attempt.Confined.bind (confined_resolveExecutionPlan e hP).adapt fun plan => ?_
  dsimp only
  refine Attempt.Confined.bind (confined_authorizeImpact e hP).adapt fun decision => ?_
  refine Attempt.Confined.bind (Attempt.Confined.adapt ?_) fun plan => ?_
  · split
    · exact confined_ofExcept
    · exact Attempt.confined_pure
  · exact Attempt.Confined.bind confined_ofExcept.adapt fun _ => Attempt.confined_pure

end Modary.Runtime.Consulting
