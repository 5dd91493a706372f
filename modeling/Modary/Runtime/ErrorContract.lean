import Modary.Runtime.Runs

/-! # The error contract

What leaves `Preview`, `Execute` and `CleanupExpiredPlans` as an error, over every run: whatever the
dependencies return or panic with, nothing that they put into an error is taken for a decision of the
framework. -/

namespace Modary.Runtime.ErrorContract

open Modary.Lib.GoText
open Modary.Action.Errors Modary.Action.Types
open Modary.Runtime.Environment Modary.Runtime.Engine
open Modary.Runtime.Faults Modary.Runtime.Traces Modary.Runtime.Runs

/-- The call ends with this error. -/
def EndsWith (e : Engine) (given : Action.Types.Request) (hasContext : Bool) (events : History)
    (err : Err) : Prop :=
  (execute e hasContext given).Runs events (.error err) ∨
    (preview e hasContext given).Runs events (.error err) ∨
    (cleanupExpiredPlans e hasContext).Runs events (.error err)

/-- **The error contract.** Every error that leaves the runtime has a first action error with a valid
message, and its code and kind are what the faults of the run allow. -/
theorem error_contract (e : Engine) (given : Action.Types.Request) (hasContext : Bool)
    (events : History) (err : Err) (h : EndsWith e given hasContext events err) :
    ∃ envelope cause, findActionError e.heap err = some (envelope, cause) ∧
      validErrorMessage envelope.message = true ∧
      Verdict e given events (envelope.code, envelope.kind) := by
  rcases h with h | h | h
  · exact (meets_execute hasContext).result h
  · exact (meets_preview hasContext).result h
  · exact (meets_cleanupExpiredPlans hasContext).result h

/-- A plan store that returns `ErrPlanNotFound` is at no other fault. -/
example (heap : Heap) (hash : GoString) (plan : Plan) :
    fault heap ⟨.planGet .request hash, .returned plan (.sentinel .planNotFound)⟩ =
      some .planMissing := rfl

/-- A handler that forges a denial ends with an internal error. -/
theorem error_contract_forged :
    ∃ events err, EndsWith sampleEngine sampleRequest true events err ∧
      errorCode sampleEngine.heap err = codeInternal ∧
      ∃ envelope cause, findActionError sampleEngine.heap err = some (envelope, cause) ∧
        Verdict sampleEngine sampleRequest events (envelope.code, envelope.kind) := by
  let scenario : Scenario :=
    { handler := .returned {} (newError codeAuthzDenied (.utf8 "not for you")) }
  have hcode : codeOf sampleEngine.heap scenario.run.2 = some codeInternal := by decide +kernel
  obtain ⟨err, he, hc⟩ := codeOf_eq_some hcode
  have hruns := scenario.runs
  rw [he] at hruns
  have hends : EndsWith sampleEngine sampleRequest true scenario.run.1 err := Or.inl hruns
  obtain ⟨envelope, cause, hf, -, hv⟩ :=
    error_contract sampleEngine sampleRequest true scenario.run.1 err hends
  exact ⟨scenario.run.1, err, hends, hc, envelope, cause, hf, hv⟩

/-- The call records an event outside a transaction, and the sink fails. -/
def isFailedDetached : Environment.Call → Bool
  | ⟨.auditDetached _, reply⟩ => failed (reply : Reply Unit)
  | _ => false

/-- The manager returns an error. -/
def isFailedFinish : Environment.Call → Bool
  | ⟨.finish _ _, finished⟩ => (finished : Finished).reply != .returned .nil
  | _ => false

/-- Not every error of a dependency is reported as an internal one: the audit sink may fail to record
a call that is refused for its channel, and the manager returns an error when it proves the rollback
of a handler's failure. -/
theorem dependency_errors_not_internal :
    (∃ scenario : Scenario, ∃ err,
      (execute sampleEngine true scenario.request).Runs scenario.run.1 (.error err) ∧
      scenario.run.1.any isFailedDetached = true ∧
      errorCode sampleEngine.heap err = codeAuthzDenied) ∧
    ∃ scenario : Scenario, ∃ err,
      (execute sampleEngine true scenario.request).Runs scenario.run.1 (.error err) ∧
      scenario.run.1.any isFailedFinish = true ∧
      errorCode sampleEngine.heap err = codeValidationFailed := by
  constructor
  · let scenario : Scenario :=
      { request := { sampleRequest with channel := .utf8 "mail" }
        detached := .returned () (.message "disk full") }
    have hcode : codeOf sampleEngine.heap scenario.run.2 = some codeAuthzDenied := by decide +kernel
    obtain ⟨err, he, hc⟩ := codeOf_eq_some hcode
    exact ⟨scenario, err, he ▸ scenario.runs, by decide +kernel, hc⟩
  · let scenario : Scenario :=
      { handler := .returned {} (newError codeValidationFailed (.utf8 "bad input")) }
    have hcode : codeOf sampleEngine.heap scenario.run.2 = some codeValidationFailed := by
      decide +kernel
    obtain ⟨err, he, hc⟩ := codeOf_eq_some hcode
    exact ⟨scenario, err, he ▸ scenario.runs, by decide +kernel, hc⟩

end Modary.Runtime.ErrorContract
