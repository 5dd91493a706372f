import Modary.Action.Persistence
import Modary.Lib.Prog
import Modary.Lib.Timestamp
import Modary.Runtime.Failures
import Modary.Runtime.Transaction

/-! # The environment of the runtime

The operations of its dependencies that `Engine` calls, with what they may reply: any value, any
error, a panic. The pure functions outside this development (the JSON reader, the schema validators,
SHA-256) are parameters. -/

namespace Modary.Runtime.Environment

open Modary.Lib.GoText Modary.Lib.Prog
open Modary.Action.Authz Modary.Action.Errors Modary.Action.Types
open Modary.Action.Persistence Modary.Runtime.Transaction

/-! ### Parameters -/

/-- How far the steps of `canonicalInput` get on a value. A panic of `normalizeJSONNumber` is not
among them: it ends the engine's call where it stands, and the calls made by then are those of a
partial run with any other outcome. -/
inductive Canonical
  | limit
  | malformed
  | uncanonical (cause : Err)
  | marshalError (text : String)
  | limitAfter
  | invalidAfter (cause : Err)
  | ok (canonical : RawMessage)
  deriving DecidableEq, Repr

/-- What `Validator.Validate` finds. -/
inductive SchemaCheck
  | valid
  | uninitialized
  | limit
  | malformed
  | evaluationLimit
  | evaluationError (text : String)
  | mismatch
  deriving DecidableEq, Repr

/-- The error that `Validator.Validate` makes of it. -/
def SchemaCheck.err : SchemaCheck → Err
  | .valid => .nil
  | .uninitialized => .message "JSON Schema validator is not initialized"
  | .limit => newError codeLimitExceeded (.utf8 "input exceeds the Action JSON resource limits")
  | .malformed => newError codeValidationFailed (.utf8 "input is not valid JSON")
  | .evaluationLimit =>
    .action fresh
      { code := codeLimitExceeded, kind := .limit,
        message := .utf8 "input exceeds the Action JSON Schema evaluation limits" } .nil
  | .evaluationError text => .wrapped "validate JSON schema" (.message text)
  | .mismatch =>
    .action fresh
      { code := codeValidationFailed, kind := .validation,
        message := .utf8 "input does not satisfy the Action schema" }
      (.message "JSON Schema validation failed")

/-- The same as a check. -/
def SchemaCheck.verify (check : SchemaCheck) : Except Err Unit :=
  if check.err = .nil then .ok () else .error check.err

/-- `registration`: the contract of an action; its handler is reached through the operations. -/
structure Registration where
  descriptor : Descriptor
  contractHash : GoString
  validateInput : RawMessage → SchemaCheck
  validatePreview : RawMessage → SchemaCheck
  validateOutput : RawMessage → SchemaCheck

/-- `registration{}`. -/
def Registration.zero : Registration where
  descriptor :=
    { id := .utf8 "", version := .utf8 "", permission := .utf8 "", preview := .none
      auditLevel := .metadata, channels := [], errors := [], requiresIdempotency := false }
  contractHash := .utf8 ""
  validateInput _ := .uninitialized
  validatePreview _ := .uninitialized
  validateOutput _ := .uninitialized

/-- What an `Engine` computes with: the errors of its dependencies, the pure functions, its plan
lifetime in nanoseconds. -/
structure Engine where
  heap : Heap
  checks : Checks
  canonical : RawMessage → Canonical
  /-- the text of a `json.RawMessage` inside `json.Marshal`: compact, HTML-safe, or an error -/
  compact : RawMessage → Option (List Char)
  /-- the lower-case hexadecimal SHA-256 digest -/
  sha256 : List Char → String
  planTTL : ℤ

/-! ### Operations -/

/-- The context an operation is called with: that of the request, or that of the transaction. -/
inductive Ctx
  | request
  | tx
  deriving DecidableEq, Repr

/-- Why the clock is read: for a decision, or to stamp an audit event. -/
inductive ClockUse
  | decision
  | event
  deriving DecidableEq, Repr

/-- What the runtime calls. -/
inductive Op
  | acquire (actionID : GoString)
  /-- `registry.acquireLease`: whether the lease is granted -/
  | acquireLease
  | randomRequestID
  | clock (use : ClockUse)
  | authorize (ctx : Ctx) (request : Action.Authz.Request)
  | planGet (ctx : Ctx) (hash : GoString)
  | planSave (ctx : Ctx) (plan : Plan)
  | planDeleteExpired (ctx : Ctx) (now : Time)
  | lookup (ctx : Ctx) (record : IdempotencyRecord)
  | reserve (ctx : Ctx) (record : IdempotencyRecord)
  | complete (ctx : Ctx) (record : IdempotencyRecord)
  | abort (ctx : Ctx) (record : IdempotencyRecord)
  | handlerPlan (ctx : Ctx) (request : Action.Types.Request)
  | handlerExecute (ctx : Ctx) (plan : Plan)
  | auditRequired (ctx : Ctx) (event : AuditEvent)
  | auditDetached (event : AuditEvent)
  /-- the transaction manager is called -/
  | begin
  /-- the operation inside the transaction has returned; its failure is at the address `serial` -/
  | finish (serial : ℕ) (result : Err)

/-- How a dependency comes back. -/
inductive Reply (α : Type)
  | returned (value : α) (err : Err)
  | panicked
  deriving DecidableEq, Repr

/-- What `registry.acquire` finds. -/
inductive Acquired
  | revoked
  | missing
  | found (registered : Registration)

/-- What the manager does with the callback: the operation is run, its failure would be at the
address `serial`; or the manager comes back without having run it. -/
inductive Started
  | run (serial : ℕ)
  | unused (reply : ManagerReply)
  | nilContext (serial : ℕ) (reply : ManagerReply)
  | violated (reply : ManagerReply)
  deriving DecidableEq, Repr

/-- How the manager comes back after the operation: what it returns, whether the one call was over
in time, and, unseen by the runtime, whether the writes of the transaction were committed. -/
structure Finished where
  reply : ManagerReply
  inTime : Bool
  committed : Bool
  deriving DecidableEq, Repr

/-- The type of the reply to each operation. -/
abbrev Op.Response : Op → Type
  | .acquire _ => Acquired
  | .acquireLease => Bool
  | .randomRequestID => GoString
  | .clock _ => Option ℤ
  | .authorize _ _ => Reply Decision
  | .planGet _ _ => Reply Plan
  | .planSave _ _ => Reply Unit
  | .planDeleteExpired _ _ => Reply ℤ
  | .lookup _ _ => Reply (Option IdempotencyRecord)
  | .reserve _ _ => Reply (Option IdempotencyRecord)
  | .complete _ _ => Reply Unit
  | .abort _ _ => Reply Unit
  | .handlerPlan _ _ => Reply PlanData
  | .handlerExecute _ _ => Reply Result
  | .auditRequired _ _ => Reply Unit
  | .auditDetached _ => Reply Unit
  | .begin => Started
  | .finish _ _ => Finished

/-- A program of the runtime. -/
abbrev Program := Prog Op Op.Response

/-- A program that may fail with an error. -/
abbrev Step (α : Type) := Attempt Op Op.Response Err α

/-- A call with its reply. -/
abbrev Call := Event Op Op.Response

/-! ### Callbacks -/

/-- `invokeCallback`: a panic becomes an error. -/
def Reply.outcome {α : Type} (operation : String) : Reply α → Except Err α
  | .returned value err => if err = .nil then .ok value else .error err
  | .panicked => .error (.callbackPanic operation)

/-- The classification that `invokeDependencyCallback` fixes before anything looks at the error. -/
def dependencyFailure (operation : String) (cause : Err) : Err :=
  actionError codeInternal (operation ++ " failed") (.dependencyError .actionruntime operation cause)

/-- `invokeDependencyCallback` on a reply. -/
def Reply.dependency {α : Type} (operation : String) (reply : Reply α) : Except Err α :=
  match reply.outcome operation with
  | .ok value => .ok value
  | .error cause => .error (dependencyFailure operation cause)

/-- A label with an identifier behind it. -/
def describe (label : String) (id : GoString) : String := label ++ String.ofList id.runes

end Modary.Runtime.Environment
