import Modary.Action.Types

/-! # Persisted records

The checks of package `actionpersistence` on plans and idempotency records, and those of package
`action` they call. `encoding/json`, `semver` and the JSON reader of `jsonvalue` are parameters. -/

namespace Modary.Action.Persistence

open Modary.Lib.GoText Modary.Action.Names Modary.Action.Authz Modary.Action.Errors
open Modary.Action.Types

/-- What `action.ValidateJSONDocument` finds: one bounded JSON value, a resource limit, or anything
else that is wrong with it. -/
inductive JSONCheck
  | ok
  | limit
  | invalid (cause : Err)
  deriving DecidableEq, Repr

/-- The functions outside this development that the checks call. -/
structure Checks where
  /-- `jsonvalue.Validate` with the limits of package `action` -/
  validateJSONDocument : RawMessage → JSONCheck
  /-- `semver.IsValid` -/
  semverIsValid : GoString → Bool

/-! ### Texts -/

/-- `validatePersistenceText`. -/
def validatePersistenceText (field : String) (value : GoString) (required : Bool)
    (maxRunes : ℕ) : Except String Unit :=
  validateText field value required maxRunes isControl

/-- `validatePersistenceToken`. -/
def validatePersistenceToken (field : String) (value : GoString) (required : Bool)
    (maxRunes : ℕ) : Except String Unit := do
  validatePersistenceText field value required maxRunes
  refuseIf (value.runes.any isSpace) (field ++ " cannot contain whitespace")

def maxFingerprintRunes : ℕ := 256

/-- `action.ValidateDecisionFingerprint`. -/
def validateDecisionFingerprint (value : GoString) : Except String Unit :=
  validatePersistenceToken "decision fingerprint" value true maxFingerprintRunes

/-- `action.ValidatePlanHash`. -/
def validatePlanHash (value : GoString) : Except String Unit :=
  if matchDigest value.runes then .ok () else .error "plan hash must be a lowercase SHA-256 digest"

/-- `action.ValidateSnapshotHash`. -/
def validateSnapshotHash (value : GoString) : Except String Unit :=
  if value ≠ .utf8 "" ∧ matchDigest value.runes = false then
    .error "snapshot hash must be empty or a lowercase SHA-256 digest"
  else .ok ()

/-- `^[A-Za-z0-9][A-Za-z0-9._~:/+-]{0,255}$`. -/
def idempotencyKeyPattern (s : List Char) : Bool :=
  let word := fun c => isUpper c || isLower c || isDigit c
  matchToken word (fun c => word c || c == '.' || c == '_' || c == '~' || c == ':' || c == '/' ||
    c == '+' || c == '-') 255 s

/-- `action.ValidateIdempotencyKey`. -/
def validateIdempotencyKey (value : GoString) : Except String Unit :=
  if idempotencyKeyPattern value.runes then .ok ()
  else .error "idempotency key must match ^[A-Za-z0-9][A-Za-z0-9._~:/+-]\x7b0,255\x7d$"

/-! ### Impacts, results, versions and times -/

/-- The check on each resource with the duplicates seen so far. -/
def validateResources (check : GoString → Except String Unit) :
    List GoString → List GoString → Except String Unit
  | _, [] => .ok ()
  | seen, resource :: rest => do
    check resource
    if resource ∈ seen then throw "resource identifier is duplicated"
    validateResources check (resource :: seen) rest

/-- `validatePersistentImpact`. -/
def validatePersistentImpact (impact : Impact) : Except String Unit := do
  refuseIf (impact.rows < 0) "row count cannot be negative"
  refuseIf (maxResources < impact.resources.length) "resource count exceeds 32"
  validateResources
    (fun resource => validatePersistenceText "resource identifier" resource true maxResourceRunes)
    [] impact.resources

/-- The check on each reference with the duplicates seen so far. -/
def validateReferences (check : String → GoString → ℕ → Except String Unit) :
    List Reference → List Reference → Except String Unit
  | _, [] => .ok ()
  | seen, reference :: rest => do
    check "result reference kind" reference.kind Types.maxKindRunes
    check "result reference id" reference.id Types.maxIDRunes
    if reference ∈ seen then throw "result reference is duplicated"
    validateReferences check (reference :: seen) rest

/-- `validatePersistentResult`. -/
def validatePersistentResult (result : Result) : Except String Unit := do
  validatePersistenceText "result summary" result.summary false maxSummaryRunes
  refuseIf (maxReferences < result.references.length) "result reference count exceeds 32"
  validateReferences (fun field value limit => validatePersistenceToken field value true limit) []
    result.references

/-- `validatePersistentActionVersion`. -/
def validatePersistentActionVersion (checks : Checks) (value : GoString) : Except String Unit := do
  validatePersistenceText "action version" value true maxVersionRunes
  let core := value.runes.takeWhile fun c => c != '-' && c != '+'
  refuseIf (core.count '.' ≠ 2 ∨ checks.semverIsValid value = false)
    "action version is not valid Semantic Versioning 2.0.0"

/-- Midnight of 1 January 1678 UTC, the first instant of `minimumPersistentPlanYear`. -/
def minimumPersistentPlanTime : ℤ := -9214560000000000000

/-- Midnight of 1 January 2262 UTC, the first instant after `maximumPersistentPlanYear`. -/
def maximumPersistentPlanTime : ℤ := 9214646400000000000

/-- An instant that stores can keep. -/
def Persistable (nanos : ℤ) : Prop :=
  minimumPersistentPlanTime ≤ nanos ∧ nanos < maximumPersistentPlanTime

/-- `validatePersistentPlanTime`. -/
def validatePersistentPlanTime (name : String) (value : Time) : Except String Unit :=
  if value.nanos < minimumPersistentPlanTime ∨ maximumPersistentPlanTime ≤ value.nanos then
    .error (name ++ " is outside the portable persistence range")
  else if value.utc = false then .error (name ++ " must use UTC")
  else .ok ()

/-! ### Plans -/

/-- `ValidatePlanRecord`. -/
def validatePlanRecord (checks : Checks) (plan : Plan) : Except String Unit := do
  validatePlanHash plan.hash
  refuseIf (validIdentifier plan.actionID = false)
    "plan action id is not a canonical Action identifier"
  refuseIf ((validatePersistentActionVersion checks plan.actionVersion).isOk = false)
    "plan action version is invalid"
  refuseIf (matchDigest plan.contractHash.runes = false)
    "plan contract hash must be a lowercase SHA-256 digest"
  validateActorID plan.actorID
  validateActorType plan.actorType
  validatePersistenceText "plan channel" plan.channel true maxChannelRunes
  plan.scope.validate
  refuseIf (matchDigest plan.inputHash.runes = false)
    "plan input hash must be a lowercase SHA-256 digest"
  refuseIf (checks.validateJSONDocument plan.payload ≠ .ok)
    "plan payload must contain exactly one JSON value"
  validatePersistentImpact plan.impact
  validateSnapshotHash plan.snapshotHash
  validateDecisionFingerprint plan.decisionFingerprint
  validatePersistentPlanTime "plan creation time" plan.createdAt
  validatePersistentPlanTime "plan expiry time" plan.expiresAt
  refuseIf (plan.expiresAt.nanos ≤ plan.createdAt.nanos) "plan expiry must be after creation"

/-- What `ValidatePlanRecord` has checked of a plan. -/
structure ValidPlan (checks : Checks) (plan : Plan) : Prop where
  hash : validatePlanHash plan.hash = .ok ()
  actionID : validIdentifier plan.actionID = true
  actionVersion : validatePersistentActionVersion checks plan.actionVersion = .ok ()
  contractHash : matchDigest plan.contractHash.runes = true
  actorID : validateActorID plan.actorID = .ok ()
  actorType : validateActorType plan.actorType = .ok ()
  channel : validatePersistenceText "plan channel" plan.channel true maxChannelRunes = .ok ()
  scope : plan.scope.validate = .ok ()
  inputHash : matchDigest plan.inputHash.runes = true
  payload : checks.validateJSONDocument plan.payload = .ok
  impact : validatePersistentImpact plan.impact = .ok ()
  snapshotHash : validateSnapshotHash plan.snapshotHash = .ok ()
  fingerprint : validateDecisionFingerprint plan.decisionFingerprint = .ok ()
  createdAt : validatePersistentPlanTime "plan creation time" plan.createdAt = .ok ()
  expiresAt : validatePersistentPlanTime "plan expiry time" plan.expiresAt = .ok ()

theorem validPlan_of_ok {checks : Checks} {plan : Plan}
    (h : validatePlanRecord checks plan = .ok ()) : ValidPlan checks plan := by
  simp only [validatePlanRecord, bind_eq_ok] at h
  obtain ⟨_, hash, _, actionID, _, actionVersion, _, contractHash, _, actorID, _, actorType, _,
    channel, _, scope, _, inputHash, _, payload, _, impact, _, snapshotHash, _, fingerprint, _,
    createdAt, _, expiresAt, -⟩ := h
  refine ⟨hash, by simpa using refuseIf_eq_ok.mp actionID, ?_,
    by simpa using refuseIf_eq_ok.mp contractHash, actorID, actorType, channel, scope,
    by simpa using refuseIf_eq_ok.mp inputHash, not_not.mp (refuseIf_eq_ok.mp payload), impact,
    snapshotHash, fingerprint, createdAt, expiresAt⟩
  have hversion := refuseIf_eq_ok.mp actionVersion
  cases h : validatePersistentActionVersion checks plan.actionVersion with
  | error err =>
    rw [h] at hversion
    exact absurd rfl hversion
  | ok _ => rfl

/-! ### Idempotency records -/

/-- `ValidateIdempotencyLookupRecord`. -/
def validateIdempotencyLookupRecord (checks : Checks) (record : IdempotencyRecord) :
    Except String Unit := do
  record.scope.validate
  validateActorID record.actorID
  validateActorType record.actorType
  refuseIf (validIdentifier record.actionID = false)
    "idempotency record action id is not a canonical Action identifier"
  refuseIf ((validatePersistentActionVersion checks record.actionVersion).isOk = false)
    "idempotency record action version is invalid"
  refuseIf (matchDigest record.contractHash.runes = false)
    "idempotency record contract hash must be a lowercase SHA-256 digest"
  validatePersistenceText "idempotency record channel" record.channel true maxChannelRunes
  validateIdempotencyKey record.key
  refuseIf (matchDigest record.inputHash.runes = false)
    "idempotency record input hash must be a lowercase SHA-256 digest"
  if record.planHash ≠ .utf8 "" then validatePlanHash record.planHash

/-- The part that reservations and completions share. -/
def validateIdempotencyExecution (checks : Checks) (missing : String)
    (record : IdempotencyRecord) : Except String Unit := do
  validateIdempotencyLookupRecord checks record
  refuseIf (record.planHash = .utf8 "") missing
  validatePersistentImpact record.impact
  validateDecisionFingerprint record.decisionFingerprint

/-- `ValidateIdempotencyReservationRecord`. -/
def validateIdempotencyReservationRecord (checks : Checks) (record : IdempotencyRecord) :
    Except String Unit := do
  validateIdempotencyExecution checks "idempotency reservation requires a plan hash" record
  refuseIf (record.status ≠ .running) "idempotency reservation must have status \"running\""
  refuseIf (record.result ≠ {}) "running idempotency record cannot contain a result"

/-- `ValidateIdempotencyCompletionRecord`. -/
def validateIdempotencyCompletionRecord (checks : Checks) (record : IdempotencyRecord) :
    Except String Unit := do
  validateIdempotencyExecution checks "completed idempotency record requires a plan hash" record
  refuseIf (record.status ≠ .completed)
    "completed idempotency record must have status \"completed\""
  refuseIf (checks.validateJSONDocument record.result.data ≠ .ok)
    "idempotency result data must contain exactly one JSON value"
  validatePersistentResult record.result

/-- `ValidateStoredIdempotencyRecord`. -/
def validateStoredIdempotencyRecord (checks : Checks) (record : IdempotencyRecord) :
    Except String Unit :=
  match record.status with
  | .running => validateIdempotencyReservationRecord checks record
  | .completed => validateIdempotencyCompletionRecord checks record
  | .other _ => .error "stored idempotency status is invalid"

end Modary.Action.Persistence
