import Modary.Action.Persistence
import Modary.Lib.Timestamp

/-! # The SQL audit hook

The checks that the hook of package `sqlaudit` makes before it writes an event, and which events of
the runtime pass them. Decision and level are closed types here, so that the checks of the source
that they are among the known texts always pass. -/

namespace Modary.Audit.Hook

open Modary.Lib.GoText Modary.Lib.Timestamp
open Modary.Action.Names Modary.Action.Authz Modary.Action.Errors Modary.Action.Types
open Modary.Action.Persistence

/-! ### The checks -/

/-- `validateRequired`. -/
def validateRequired (name : String) (value : GoString) (limit : ℕ) : Except String Unit :=
  refuseIf (value.validString = false ∨ value = .utf8 "" ∨ limit < value.runes.length ∨
    value.runes ≠ trimSpace value.runes ∨ value.runes.any isControl = true) (name ++ " is invalid")

/-- `validateRequired` on a field that may be left out. -/
def validatePresent (name : String) (value : GoString) (limit : ℕ) : Except String Unit :=
  if value ≠ .utf8 "" then validateRequired name value limit else .ok ()

/-- `successfulDecision`. -/
def successfulDecision : AuditDecision → Bool
  | .allowed => true
  | .idempotentReplay => true
  | .previewed => true
  | .denied => false
  | .rejected => false
  | .failed => false

/-- `validVersion`. -/
def validVersion (checks : Checks) (value : GoString) : Bool :=
  let core := value.runes.takeWhile fun c => c != '-' && c != '+'
  byteLen value ≤ maxVersionRunes && core.count '.' == 2 && checks.semverIsValid value

/-- `"audit … must be a lowercase SHA-256 digest"`. -/
def validateDigest (name : String) (value : GoString) : Except String Unit :=
  refuseIf (matchDigest value.runes = false)
    ("audit " ++ name ++ " must be a lowercase SHA-256 digest")

/-- The same check on a digest that may be left out. -/
def validatePresentDigest (name : String) (value : GoString) : Except String Unit :=
  if value ≠ .utf8 "" then validateDigest name value else .ok ()

/-- `validateSuccessfulProvenance`. -/
def validateSuccessfulProvenance (checks : Checks) (event : AuditEvent) : Except String Unit := do
  validateRequired "audit actor id" event.actorID maxActorIDRunes
  validateRequired "audit actor type" event.actorType maxActorTypeRunes
  validateRequired "audit channel" event.channel maxChannelRunes
  refuseIf (validIdentifier event.actionID = false) "audit action id is invalid"
  refuseIf (validVersion checks event.actionVersion = false) "audit action version is invalid"
  validateDigest "contract hash" event.contractHash
  validateDigest "input hash" event.inputHash
  validateDigest "plan hash" event.planHash
  event.scope.validate
  refuseIf (event.errorCode ≠ .utf8 "") "successful audit event cannot contain an error code"
  refuseIf (event.errorKind ≠ .unset) "successful audit event cannot contain an error kind"
  refuseIf (event.auditLevel = .detailed ∧ event.impact = none)
    "detailed successful audit event requires impact"

/-- The code and the kind of an event that failed. -/
def validateErrorPair (code : GoString) (kind : ErrorKind) : Except String Unit := do
  refuseIf (code = .utf8 "" ∨ kind.valid = false)
    "failed audit event must contain a valid error code and kind"
  match builtinErrorKind code with
  | some builtinKind => refuseIf (kind ≠ builtinKind) "audit error code and kind do not match"
  | none => do
    refuseIf (validCustomErrorCode code = false) "audit error code is invalid"
    refuseIf (kind = .internal) "consumer audit error cannot use the internal kind"

/-- The decision and the kind of an event that failed. -/
def validateDecisionKind (decision : AuditDecision) (kind : ErrorKind) : Except String Unit :=
  match decision with
  | .denied => refuseIf (kind ≠ .denied) "denied audit event must use the denied error kind"
  | .rejected =>
    refuseIf (kind = .denied ∨ kind = .unavailable ∨ kind = .internal)
      "rejected audit event has an invalid error kind"
  | .failed =>
    refuseIf (kind ≠ .unavailable ∧ kind ≠ .internal) "failed audit event has an invalid error kind"
  | _ => .ok ()

/-- `validateOptionalProvenance`. -/
def validateOptionalProvenance (checks : Checks) (event : AuditEvent) : Except String Unit := do
  validatePresent "audit actor id" event.actorID maxActorIDRunes
  validatePresent "audit actor type" event.actorType maxActorTypeRunes
  validatePresent "audit channel" event.channel maxChannelRunes
  validatePresent "audit error code" event.errorCode maxCodeRunes
  validatePresent "audit error kind" event.errorKind.text Action.Types.maxKindRunes
  validateErrorPair event.errorCode event.errorKind
  validateDecisionKind event.decision event.errorKind
  refuseIf (event.actionVersion ≠ .utf8 "" ∧ validVersion checks event.actionVersion = false)
    "audit action version is invalid"
  validatePresentDigest "contract hash" event.contractHash
  validatePresentDigest "input hash" event.inputHash
  validatePresentDigest "plan hash" event.planHash

/-- What an event must come with, by its decision. -/
def validateProvenance (checks : Checks) (event : AuditEvent) : Except String Unit :=
  if successfulDecision event.decision then validateSuccessfulProvenance checks event
  else validateOptionalProvenance checks event

/-- `scope.Execution{}`. -/
def noScope : Execution := { kind := .utf8 "", id := .utf8 "" }

/-- The zero `time.Time`: midnight of 1 January of year 1. -/
def zeroTime : ℤ := -62135596800000000000

/-- The instant that `parseTimestamp` reads back from `formatTimestamp`: the layout writes a year
with four digits. -/
def roundTrips (value : Time) : Bool := marshalable value.nanos

/-- The check on each item of a list with the items seen so far. -/
def validateEach {α : Type} [DecidableEq α] (check : α → Except String Unit) (duplicated : String) :
    List α → List α → Except String Unit
  | _, [] => .ok ()
  | seen, item :: rest => do
    check item
    refuseIf (item ∈ seen) duplicated
    validateEach check duplicated (item :: seen) rest

/-- The check of `validateEvent` on an impact. -/
def validateAuditImpact (impact : Impact) : Except String Unit := do
  refuseIf (impact.rows < 0 ∨ maxResources < impact.resources.length) "audit impact is invalid"
  validateEach (fun resource => validateRequired "audit resource" resource maxResourceRunes)
    "audit resource is duplicated" [] impact.resources

/-- The check of `validateEvent` on the references. -/
def validateAuditReferences (references : List Reference) : Except String Unit := do
  refuseIf (maxReferences < references.length) "audit references exceed persistence bounds"
  validateEach
    (fun reference => do
      validateRequired "audit reference kind" reference.kind Action.Types.maxKindRunes
      validateRequired "audit reference id" reference.id Action.Types.maxIDRunes)
    "audit reference is duplicated" [] references

/-- The check of `validateEvent` on the times. -/
def validateTimes (event : AuditEvent) : Except String Unit := do
  refuseIf (event.startedAt.nanos = zeroTime ∨ event.finishedAt.nanos = zeroTime ∨
    event.finishedAt.nanos < event.startedAt.nanos) "audit time range is invalid"
  refuseIf (roundTrips event.startedAt = false ∨ roundTrips event.finishedAt = false)
    "audit timestamp is outside the canonical persistence range"

/-- `validateEvent`. -/
def validateEvent (checks : Checks) (event : AuditEvent) : Except String Unit := do
  validateRequired "request id" event.requestID maxRequestIDRunes
  validateRequired "action id" event.actionID maxActionIDRunes
  refuseIf (event.auditLevel = .metadata ∧ (event.impact ≠ none ∨ event.resultRefs ≠ []))
    "metadata audit event cannot contain impact or result references"
  validateProvenance checks event
  (if event.scope = noScope then .ok () else event.scope.validate)
  validateTimes event
  refuseIf (maxSummaryRunes < event.resultSummary.runes.length ∨
    maxReasonRunes < event.reason.runes.length) "audit text exceeds persistence bounds"
  (match event.impact with
    | some impact => validateAuditImpact impact
    | none => .ok ())
  validateAuditReferences event.resultRefs

/-- `validateRawEvent`. -/
def validateRawEvent (checks : Checks) (event : AuditEvent) : Except String Unit :=
  if successfulDecision event.decision then validateSuccessfulProvenance checks event else .ok ()

/-- `hook.Record` up to the statement that writes the event. -/
def record (checks : Checks) (event : AuditEvent) : Except String Unit := do
  validateRawEvent checks event
  validateEvent checks (normalizeEvent event)

end Modary.Audit.Hook
