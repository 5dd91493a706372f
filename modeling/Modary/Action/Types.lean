import Modary.Action.Authz
import Modary.Action.Errors

/-! # Actions

The records of package `action`, `audit` and `actionpersistence` that one governed execution reads
and writes. A defensive copy in the source is the identity here. -/

namespace Modary.Action.Types

open Modary.Lib.GoText Modary.Action.Names Modary.Action.Authz Modary.Action.Errors

/-- `json.RawMessage`. -/
abbrev RawMessage := GoString

/-- The number of bytes of a Go string. -/
def byteLen : GoString → ℕ
  | .utf8 s => byteLength s.toList
  | .raw units => (units.map (Sum.elim Char.utf8Size fun _ => 1)).sum

/-- `time.Time`: nanoseconds since the Unix epoch, and whether the location is `time.UTC`. -/
structure Time where
  nanos : ℤ
  utc : Bool := true
  deriving DecidableEq, Repr

/-- `action.PreviewPolicy` of a registered action. -/
inductive PreviewPolicy
  | none
  | optional
  | required
  deriving DecidableEq, Repr

/-- `action.AuditLevel` of a registered action. -/
inductive AuditLevel
  | metadata
  | detailed
  deriving DecidableEq, Repr

/-- `action.Descriptor`, as far as the runtime reads it. -/
structure Descriptor where
  id : GoString
  version : GoString
  permission : GoString
  preview : PreviewPolicy
  auditLevel : AuditLevel
  channels : List GoString
  errors : List ErrorSpec
  requiresIdempotency : Bool
  deriving DecidableEq, Repr

/-- `action.Request`. -/
structure Request where
  requestID : GoString
  actor : Actor
  channel : GoString
  actionID : GoString
  scope : Execution
  input : RawMessage
  idempotencyKey : GoString := .utf8 ""
  planHash : GoString := .utf8 ""
  deriving DecidableEq, Repr

/-- `action.PlanData`. -/
structure PlanData where
  payload : RawMessage
  summary : RawMessage
  impact : Impact
  snapshotHash : GoString
  deriving DecidableEq, Repr

/-- `action.Plan`. -/
structure Plan where
  hash : GoString := .utf8 ""
  actionID : GoString
  actionVersion : GoString
  contractHash : GoString
  actorID : GoString
  actorType : GoString
  channel : GoString
  scope : Execution
  inputHash : GoString
  payload : RawMessage
  impact : Impact
  snapshotHash : GoString
  decisionFingerprint : GoString := .utf8 ""
  createdAt : Time
  expiresAt : Time
  deriving DecidableEq, Repr

/-- `action.Preview`. -/
structure Preview where
  planHash : GoString
  summary : RawMessage
  impact : Impact
  expiresAt : Time
  deriving DecidableEq, Repr

/-- `audit.Reference`. -/
structure Reference where
  kind : GoString
  id : GoString
  deriving DecidableEq, Repr

/-- `action.Result`. -/
structure Result where
  data : RawMessage := .utf8 ""
  summary : GoString := .utf8 ""
  references : List Reference := []
  deriving DecidableEq, Repr

/-- `actionpersistence.IdempotencyStatus`; `other` is any other text. -/
inductive IdempotencyStatus
  | running
  | completed
  | other (text : GoString)
  deriving DecidableEq, Repr

/-- `actionpersistence.IdempotencyRecord`. -/
structure IdempotencyRecord where
  scope : Execution
  actorID : GoString
  actorType : GoString
  actionID : GoString
  actionVersion : GoString
  contractHash : GoString
  channel : GoString
  key : GoString
  inputHash : GoString
  planHash : GoString
  impact : Impact := {}
  decisionFingerprint : GoString := .utf8 ""
  status : IdempotencyStatus
  result : Result := {}
  deriving DecidableEq, Repr

/-! ### Audit events -/

def maxSummaryRunes : ℕ := 512
def maxReasonRunes : ℕ := 2048
def maxResources : ℕ := 32
def maxReferences : ℕ := 32
def maxResourceRunes : ℕ := 256
def maxKindRunes : ℕ := 80
def maxIDRunes : ℕ := 256
def maxRequestIDRunes : ℕ := 128
def maxChannelRunes : ℕ := 64
def maxActionIDRunes : ℕ := 127
def maxVersionRunes : ℕ := 128
def maxHashRunes : ℕ := 71
def maxCodeRunes : ℕ := 64

/-- `audit.Event.Decision`. -/
inductive AuditDecision
  | previewed
  | allowed
  | idempotentReplay
  | denied
  | rejected
  | failed
  deriving DecidableEq, Repr

/-- `audit.Event`. -/
structure AuditEvent where
  requestID : GoString
  actorID : GoString
  actorType : GoString
  channel : GoString
  actionID : GoString
  actionVersion : GoString
  contractHash : GoString
  scope : Execution
  inputHash : GoString
  planHash : GoString
  decision : AuditDecision
  auditLevel : AuditLevel
  resultSummary : GoString
  impact : Option Impact
  resultRefs : List Reference
  errorCode : GoString
  errorKind : ErrorKind := .unset
  reason : GoString := .utf8 ""
  startedAt : Time
  finishedAt : Time
  deriving DecidableEq, Repr

/-- `strings.ToValidUTF8(value, "")`. -/
def toValidUTF8 : GoString → List Char
  | .utf8 s => s.toList
  | .raw units => units.filterMap Sum.getLeft?

/-- `audit.truncate`. -/
def truncate (value : List Char) (limit : ℕ) : List Char :=
  if limit ≤ 0 ∨ value.length ≤ limit then value
  else if limit ≤ 3 then value.take limit
  else value.take (limit - 3) ++ "...".toList

/-- `audit.sanitizeIdentifier`. -/
def sanitizeIdentifier (value : GoString) (limit : ℕ) : GoString :=
  .utf8 (String.ofList (truncate (trimSpace ((toValidUTF8 value).filter fun c => !isControl c)) limit))

/-- `audit.normalizeFreeText`. -/
def normalizeFreeText (value : GoString) (limit : ℕ) : GoString :=
  .utf8 (String.ofList
    (truncate (trimSpace ((toValidUTF8 value).map fun c => if isControl c then ' ' else c)) limit))

/-- `audit.boundedStrings`. -/
def boundedStrings (values : List GoString) (limit runeLimit : ℕ) : List GoString :=
  ((values.take limit).map (sanitizeIdentifier · runeLimit)).filter (· != .utf8 "")

/-- `audit.Normalize`: metadata events keep neither summary, impact nor references. -/
def normalizeEvent (e : AuditEvent) : AuditEvent :=
  let detailed := e.auditLevel == .detailed
  let impact := if detailed then e.impact else none
  let refs := if detailed then e.resultRefs else []
  { e with
    requestID := sanitizeIdentifier e.requestID maxRequestIDRunes
    actorID := sanitizeIdentifier e.actorID maxActorIDRunes
    actorType := sanitizeIdentifier e.actorType maxActorTypeRunes
    channel := sanitizeIdentifier e.channel maxChannelRunes
    actionID := sanitizeIdentifier e.actionID maxActionIDRunes
    actionVersion := sanitizeIdentifier e.actionVersion maxVersionRunes
    contractHash := sanitizeIdentifier e.contractHash maxHashRunes
    inputHash := sanitizeIdentifier e.inputHash maxHashRunes
    planHash := sanitizeIdentifier e.planHash maxHashRunes
    errorCode := sanitizeIdentifier e.errorCode maxCodeRunes
    errorKind := .ofText (sanitizeIdentifier e.errorKind.text maxKindRunes)
    scope :=
      { kind := sanitizeIdentifier e.scope.kind Names.maxKindRunes
        id := sanitizeIdentifier e.scope.id Names.maxIDRunes }
    resultSummary :=
      normalizeFreeText (if detailed then e.resultSummary else .utf8 "") maxSummaryRunes
    reason := normalizeFreeText e.reason maxReasonRunes
    impact := impact.map fun i =>
      Impact.mk (if i.rows < 0 then 0 else i.rows)
        (boundedStrings i.resources maxResources maxResourceRunes)
    resultRefs := ((refs.take maxReferences).map fun r =>
      { kind := sanitizeIdentifier r.kind maxKindRunes
        id := sanitizeIdentifier r.id maxIDRunes }).filter
      fun r => r.kind != .utf8 "" && r.id != .utf8 "" }

end Modary.Action.Types
