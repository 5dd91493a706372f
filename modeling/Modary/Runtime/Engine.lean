import Modary.Runtime.Environment

/-! # The engine

`Engine.Preview`, `Engine.Execute` and `Engine.CleanupExpiredPlans` as programs over their
environment. An error exit of the source that goes through `fail` throws an `Exit`, which carries
the request and the registration as they stand there. -/

namespace Modary.Runtime.Engine

open Modary.Lib.GoText Modary.Lib.Prog Modary.Lib.Codec Modary.Lib.Timestamp
open Modary.Action.Names Modary.Action.Authz Modary.Action.Errors Modary.Action.Types
open Modary.Action.Persistence Modary.Runtime.Failures Modary.Runtime.Transaction
open Modary.Runtime.Environment

variable (e : Engine)

/-! ### Pure parts -/

/-- `canonicalInput`: the canonical text and its hash. -/
def canonicalInput (input : RawMessage) : Except Err (RawMessage × GoString) :=
  match e.canonical input with
  | .limit =>
    .error (newError codeLimitExceeded (.utf8 "input exceeds the Action JSON resource limits"))
  | .malformed => .error (newError codeValidationFailed (.utf8 "input is not valid JSON"))
  | .uncanonical cause =>
    .error (actionError codeValidationFailed "input cannot be canonicalized" cause)
  | .marshalError text => .error (.message text)
  | .limitAfter =>
    .error (newError codeLimitExceeded
      (.utf8 "input exceeds the Action JSON resource limits after canonicalization"))
  | .invalidAfter cause => .error (actionError codeInternal "canonical JSON is invalid" cause)
  | .ok canonical => .ok (canonical, .utf8 ("sha256:" ++ e.sha256 canonical.runes))

/-- `canonicalHandlerJSON`. -/
def canonicalHandlerJSON (value : RawMessage) (field : String) : Except Err RawMessage :=
  let value := if byteLen value = 0 then .utf8 "\x7b\x7d" else value
  match canonicalInput e value with
  | .ok (canonical, _) => .ok canonical
  | .error err => .error (actionError codeInternal ("handler returned invalid " ++ field) err)

def maxJSONDocumentBytes : ℕ := 1048576

/-- `validateActionJSONSize`. -/
def validateActionJSONSize (value : RawMessage) (field : String) : Except Err Unit :=
  if maxJSONDocumentBytes < byteLen value then .error (.message (field ++ " exceeds 1048576 bytes"))
  else .ok ()

/-- `validateImpactCollectionSize`. -/
def validateImpactCollectionSize (impact : Impact) : Except Err Unit :=
  if maxResources < impact.resources.length then .error (.message "resource count exceeds 32")
  else .ok ()

/-- `validateResultCollectionSize`. -/
def validateResultCollectionSize (result : Result) : Except Err Unit :=
  if maxReferences < result.references.length then
    .error (.message "result reference count exceeds 32")
  else .ok ()

/-- The error of a check whose text is all that is known of it. -/
def checked (check : Except String Unit) : Except Err Unit := check.mapError .message

/-- The check on one resource of `validateImpact`. -/
def validateResource (resource : GoString) : Except String Unit :=
  if resource.validString = false ∨ resource = .utf8 "" ∨
      trimSpace resource.runes ≠ resource.runes ∨ maxResourceRunes < resource.runes.length ∨
      resource.runes.any isControl = true then .error "resource identifier is invalid"
  else .ok ()

/-- `validateImpact`. -/
def validateImpact (impact : Impact) : Except Err Unit :=
  if impact.rows < 0 then .error (.message "row count cannot be negative")
  else
    match validateImpactCollectionSize impact with
    | .error err => .error err
    | .ok () => checked (validateResources validateResource [] impact.resources)

/-- `validatePolicyText`. -/
def validatePolicyText (field : String) (value : GoString) (required : Bool) (maxRunes : ℕ) :
    Except String Unit :=
  validateText field value required maxRunes isControlOrSeparator

/-- `validatePolicyToken`. -/
def validatePolicyToken (field : String) (value : GoString) (required : Bool) (maxRunes : ℕ) :
    Except String Unit := do
  validatePolicyText field value required maxRunes
  refuseIf (value.runes.any isSpace) (field ++ " cannot contain whitespace")

/-- `validateResult`. -/
def validateResult (result : Result) : Except Err Unit := do
  checked (validatePolicyText "result summary" result.summary false maxSummaryRunes)
  validateResultCollectionSize result
  checked (validateReferences (fun field value limit => validatePolicyToken field value true limit)
    [] result.references)

/-- `validateDeletedPlanCount`. -/
def validateDeletedPlanCount (deleted : ℤ) : Except Err Unit :=
  if deleted < 0 then
    .error (actionError codeInternal "plan store returned an invalid deletion count" .nil)
  else .ok ()

/-- `validateExecutionPlanPolicy`. -/
def validateExecutionPlanPolicy (descriptor : Descriptor) (planHash : GoString) : Except Err Unit :=
  if descriptor.preview = .required ∧ planHash = .utf8 "" then
    .error (newError codePlanRequired (.utf8 "a valid plan_hash from preview is required"))
  else if descriptor.preview = .none ∧ planHash ≠ .utf8 "" then
    .error (newError codePreconditionFailed (.utf8 "action does not accept a preview plan"))
  else .ok ()

/-! ### Plan hashes -/

/-- The JSON object of an impact: zero rows and an empty resource list are left out. -/
def encodeImpact (impact : Impact) : List Char :=
  let rows := if impact.rows = 0 then [] else "\"rows\":".toList ++ encodeInt impact.rows
  let resources :=
    if impact.resources = [] then []
    else "\"resources\":".toList ++ encodeArray encodeGoString impact.resources
  let comma := if rows = [] ∨ resources = [] then [] else [',']
  "\x7b".toList ++ rows ++ comma ++ resources ++ "\x7d".toList

/-- The JSON material of a plan hash, with the compact text of its payload. -/
def planMaterial (plan : Plan) (payload : List Char) : List Char :=
  "\x7b\"action_id\":".toList ++ encodeGoString plan.actionID ++
    ",\"action_version\":".toList ++ encodeGoString plan.actionVersion ++
    ",\"contract_hash\":".toList ++ encodeGoString plan.contractHash ++
    ",\"actor_id\":".toList ++ encodeGoString plan.actorID ++
    ",\"actor_type\":".toList ++ encodeGoString plan.actorType ++
    ",\"channel\":".toList ++ encodeGoString plan.channel ++
    ",\"scope\":\x7b\"kind\":".toList ++ encodeGoString plan.scope.kind ++
    ",\"id\":".toList ++ encodeGoString plan.scope.id ++
    "\x7d,\"input_hash\":".toList ++ encodeGoString plan.inputHash ++
    ",\"payload\":".toList ++ payload ++
    ",\"impact\":".toList ++ encodeImpact plan.impact ++
    ",\"snapshot_hash\":".toList ++ encodeGoString plan.snapshotHash ++
    ",\"decision_fingerprint\":".toList ++ encodeGoString plan.decisionFingerprint ++
    ",\"created_at\":".toList ++ encodeInstant plan.createdAt.nanos ++
    ",\"expires_at\":".toList ++ encodeInstant plan.expiresAt.nanos ++ "\x7d".toList

/-- `hashPlan`. It is only called on plans whose times are in UTC. -/
def hashPlan (plan : Plan) : Except Err GoString :=
  match e.compact plan.payload with
  | none => .error (.wrapped "marshal Action plan hash material" (.message "payload is not JSON"))
  | some payload =>
    if marshalable plan.createdAt.nanos && marshalable plan.expiresAt.nanos then
      .ok (.utf8 ("sha256:" ++ e.sha256 (planMaterial plan payload)))
    else
      .error (.wrapped "marshal Action plan hash material" (.message "year outside of range [0,9999]"))

/-- `sealExecutionPlan`. -/
def sealExecutionPlan (plan : Plan) (decisionFingerprint : GoString) : Except Err Plan :=
  if plan.hash ≠ .utf8 "" ∨ plan.decisionFingerprint ≠ .utf8 "" then
    .error (actionError codeInternal "internal execution plan is already sealed" .nil)
  else
    match checked (validateDecisionFingerprint decisionFingerprint) with
    | .error err =>
      .error (actionError codeInternal "authorizer returned an invalid decision fingerprint" err)
    | .ok () =>
      let candidate := { plan with decisionFingerprint := decisionFingerprint }
      match hashPlan e candidate with
      | .error err => .error (actionError codeInternal "hash internal execution plan" err)
      | .ok hash =>
        match checked (validatePlanRecord e.checks { candidate with hash := hash }) with
        | .error err => .error (actionError codeInternal "internal execution plan is invalid" err)
        | .ok () => .ok { candidate with hash := hash }

/-! ### Steps -/

/-- One call. -/
def ask (op : Op) : Program op.Response := Prog.request op

/-- A pure check inside a program. -/
def Step.ofExcept {α : Type} : Except Err α → Step α
  | .ok a => pure a
  | .error err => throw err

/-- `currentTime`, where its error is looked at. -/
def currentTime : Step Time :=
  Attempt.attempt (.clock .decision) fun
    | some nanos => .ok { nanos }
    | none =>
      .error (dependencyFailure "read action runtime clock"
        (.callbackPanic "read action runtime clock"))

/-- `withinTransaction`, with the window that the calls of the callback amount to. -/
def withinTransaction {α : Type} (operation : Step α) : Step α :=
  ExceptT.mk do
    match ← ask .begin with
    | .unused reply => pure (.error (Window.settle e.heap 0 reply .unused))
    | .nilContext serial reply => pure (.error (Window.settle e.heap serial reply (.seen .nilContext)))
    | .violated reply => pure (.error (Window.settle e.heap 0 reply (.violated none)))
    | .run serial =>
      let result ← operation.run
      let err := match result with
        | .ok _ => Err.nil
        | .error err => err
      let call := Transaction.Call.run (.returned err)
      let finished ← ask (.finish serial err)
      let window := if finished.inTime then Window.seen call else .violated (call.failure serial)
      match result, Window.settle e.heap serial finished.reply window with
      | .ok a, .nil => pure (.ok a)
      | _, err => pure (.error err)

/-! ### Authorization -/

def maxDecisionCodeRunes : ℕ := 64
def maxDecisionReasonRunes : ℕ := 512

/-- The last part of `normalizeDecision` for a decision that allows. -/
def normalizeAllowed (decision : Decision) : Except String Decision := do
  refuseIf (decision.code ≠ .utf8 "") "an allowed decision cannot include an error code"
  return decision

/-- The last part of `normalizeDecision` for a decision that denies. -/
def normalizeDenied (decision : Decision) (descriptor : Descriptor) : Except String Decision := do
  refuseIf (decision.maxRows ≠ 0) "a denied decision cannot grant row constraints"
  let code := if decision.code = .utf8 "" then codeAuthzDenied else decision.code
  refuseIf (descriptorErrorKind descriptor code ≠ some .denied)
    "denied decision code is not declared as an authorization denial"
  return { decision with
    code := code
    reason :=
      if decision.reason = .utf8 "" then .utf8 "actor is not allowed to execute this action"
      else decision.reason }

/-- `normalizeDecision`. -/
def normalizeDecision (decision : Decision) (descriptor : Descriptor) (fallback : GoString) :
    Except String Decision := do
  let permission := descriptor.permission
  let required :=
    if decision.requiredPermission = .utf8 "" then permission else decision.requiredPermission
  refuseIf (required ≠ permission ∨ validIdentifier required = false)
    "required permission does not match the Action contract"
  refuseIf (decision.maxRows < 0) "maximum row constraint cannot be negative"
  let fingerprint := if decision.fingerprint = .utf8 "" then fallback else decision.fingerprint
  validatePolicyToken "decision fingerprint" fingerprint true maxFingerprintRunes
  validatePolicyToken "decision code" decision.code false maxDecisionCodeRunes
  validatePolicyText "decision reason" decision.reason false maxDecisionReasonRunes
  let decision := { decision with requiredPermission := required, fingerprint := fingerprint }
  if decision.allowed then normalizeAllowed decision else normalizeDenied decision descriptor

/-- What `authorizeWithFallback` makes of the reply of the authorizer. -/
def judge (request : Action.Types.Request) (descriptor : Descriptor) (fallback : GoString)
    (reply : Reply Decision) : Except Err Decision :=
  match reply.dependency (describe "authorize action " descriptor.id) with
  | .error err => .error (withRequest e.heap err request descriptor.permission)
  | .ok decision =>
    match normalizeDecision decision descriptor fallback with
    | .error text =>
      .error (withRequest e.heap
        (actionError codeInternal "authorizer returned an invalid decision" (.message text))
        request descriptor.permission)
    | .ok decision =>
      if decision.allowed then .ok decision
      else
        .error (withRequest e.heap
          (.action fresh
            { code := decision.code
              kind := (descriptorErrorKind descriptor decision.code).getD .unset
              message := decision.reason } .nil)
          request descriptor.permission)

/-- The request that is put to the authorizer. -/
def authzRequest (request : Action.Types.Request) (descriptor : Descriptor) (phase : Phase)
    (impact : Impact) : Action.Authz.Request :=
  { actor := request.actor
    operationID := request.actionID
    permission := descriptor.permission
    scope := request.scope
    phase, impact }

/-- `authorizeWithFallback`. -/
def authorizeWithFallback (ctx : Ctx) (request : Action.Types.Request) (descriptor : Descriptor)
    (phase : Phase) (impact : Impact) (fallback : GoString) : Step Decision :=
  Attempt.attempt (.authorize ctx (authzRequest request descriptor phase impact))
    (judge e request descriptor fallback)

/-- `authorize`. -/
def authorize (ctx : Ctx) (request : Action.Types.Request) (descriptor : Descriptor)
    (phase : Phase) (impact : Impact) : Step Decision :=
  authorizeWithFallback e ctx request descriptor phase impact (.utf8 "")

/-- `enforceConstraints`. -/
def enforceConstraints (decision : Decision) (impact : Impact) : Except Err Unit :=
  if decision.maxRows < 0 then
    .error (actionError codeInternal "authorizer returned invalid row constraints" .nil)
  else if 0 < decision.maxRows ∧ decision.maxRows < impact.rows then
    .error (newError codeLimitExceeded
      (.utf8 ("planned impact of " ++ toString impact.rows ++
        " rows exceeds the authorized limit of " ++ toString decision.maxRows)))
  else .ok ()

/-- `authorizeImpact`. -/
def authorizeImpact (ctx : Ctx) (request : Action.Types.Request) (descriptor : Descriptor)
    (intent : Decision) (impact : Impact) (expectedFingerprint : GoString) : Step Decision := do
  let decision ←
    authorizeWithFallback e ctx request descriptor .impact impact intent.fingerprint
  match enforceConstraints decision impact with
  | .error err => throw (withRequest e.heap err request descriptor.permission)
  | .ok () =>
    if expectedFingerprint ≠ .utf8 "" ∧ decision.fingerprint ≠ expectedFingerprint then
      throw (withRequest e.heap
        (newError codePlanStale (.utf8 "authorization or grant changed after preview"))
        request descriptor.permission)
    else return decision

/-! ### Audit -/

/-- The hash that an event carries; an input that has none leaves it empty. -/
def eventInputHash (input : RawMessage) : GoString :=
  match canonicalInput e input with
  | .ok (_, hash) => hash
  | .error _ => .utf8 ""

/-- The time that a reading of the clock stamps an event with; one that panics leaves the start
time. -/
def finishedAt (startedAt : Time) : Option ℤ → Time
  | some nanos => { nanos }
  | none => startedAt

/-- The event of `event` before it is normalized. -/
def draftEvent (request : Action.Types.Request) (registered : Registration) (startedAt : Time)
    (decision : AuditDecision) (errorCode summary : GoString) (impact : Impact)
    (references : List Reference) (reading : Option ℤ) : AuditEvent :=
  { requestID := request.requestID
    actorID := request.actor.id
    actorType := request.actor.type
    channel := request.channel
    actionID := request.actionID
    actionVersion := registered.descriptor.version
    contractHash := registered.contractHash
    scope := request.scope
    inputHash := eventInputHash e request.input
    planHash := request.planHash
    decision := decision
    auditLevel := registered.descriptor.auditLevel
    resultSummary := summary
    impact := some impact
    resultRefs := references
    errorCode := errorCode
    startedAt := startedAt
    finishedAt := finishedAt startedAt reading }

/-- The event that `event` makes of a reading of the clock. -/
def eventAt (request : Action.Types.Request) (registered : Registration) (startedAt : Time)
    (decision : AuditDecision) (errorCode summary : GoString) (impact : Impact)
    (references : List Reference) (reading : Option ℤ) : AuditEvent :=
  normalizeEvent
    (draftEvent e request registered startedAt decision errorCode summary impact references reading)

/-- `event`. -/
def event (request : Action.Types.Request) (registered : Registration) (startedAt : Time)
    (decision : AuditDecision) (errorCode summary : GoString) (impact : Impact)
    (references : List Reference) : Program AuditEvent := do
  let reading ← ask (.clock .event)
  return eventAt e request registered startedAt decision errorCode summary impact references reading

/-- `recordRequired`. -/
def recordRequired (auditEvent : AuditEvent) : Step Unit :=
  Attempt.attempt (.auditRequired .tx auditEvent) fun reply =>
    match reply.dependency "record required action audit" with
    | .ok () => .ok ()
    | .error err => .error (.requiredAuditError err)

/-- `recordDetached`: what becomes of it goes to the failure report alone. -/
def recordDetached (auditEvent : AuditEvent) : Program Unit := do
  let _ ← ask (.auditDetached auditEvent)
  return ()

/-- An error exit with the request and the registration that `fail` is given. -/
structure Exit where
  request : Action.Types.Request
  registered : Registration
  err : Err

/-- The decision that a failure is audited with. -/
def failureDecision : ErrorKind → AuditDecision
  | .denied => .denied
  | .unavailable => .failed
  | .internal => .failed
  | .unset => .rejected
  | .validation => .rejected
  | .notFound => .rejected
  | .precondition => .rejected
  | .preconditionRequired => .rejected
  | .conflict => .rejected
  | .limit => .rejected
  | .other _ => .rejected

/-- `fail`. -/
def fail (startedAt : Time) (exit : Exit) : Program Err := do
  let wrapped := finalizeRuntimeFailure e.heap
    (withRequest e.heap exit.err exit.request exit.registered.descriptor.permission)
  let kind := errorKindOf e.heap wrapped
  let auditEvent ← event e exit.request exit.registered startedAt (failureDecision kind)
    (errorCode e.heap wrapped) (.utf8 "") {} []
  let reason := match findActionError e.heap wrapped with
    | some (envelope, _) => envelope.message
    | none => .utf8 "action execution failed"
  recordDetached (normalizeEvent { auditEvent with errorKind := kind, reason := reason })
  return wrapped

/-! ### Idempotency -/

/-- `ownStoredIdempotencyRecord`. -/
def ownStoredIdempotencyRecord (record : IdempotencyRecord) : Except Err IdempotencyRecord :=
  let invalid := actionError codeInternal "stored idempotency record is invalid"
  match validateActionJSONSize record.result.data "stored idempotency result" with
  | .error err => .error (invalid err)
  | .ok () =>
    match validateImpactCollectionSize record.impact with
    | .error err => .error (invalid err)
    | .ok () =>
      match validateResultCollectionSize record.result with
      | .error err => .error (invalid err)
      | .ok () => .ok record

/-- The checks of `completedResult` on the stored record before the impact is authorized. -/
def checkStored (expected existing : IdempotencyRecord) : Except Err Unit := do
  (checked (validateStoredIdempotencyRecord e.checks existing)).mapError
    (actionError codeInternal "stored idempotency record is invalid")
  refuseIf (existing.scope ≠ expected.scope ∨ existing.actorID ≠ expected.actorID ∨
      existing.actionID ≠ expected.actionID ∨ existing.key ≠ expected.key)
    (newError codeIdempotencyConflict
      (.utf8 "idempotency record binding does not match request"))
  refuseIf (existing.actorType ≠ expected.actorType ∨ existing.channel ≠ expected.channel)
    (newError codeIdempotencyConflict
      (.utf8 "idempotency key belongs to a different actor type or channel"))
  refuseIf (existing.actionVersion ≠ expected.actionVersion ∨
      existing.contractHash ≠ expected.contractHash)
    (newError codeIdempotencyConflict
      (.utf8 "idempotency key belongs to a different action contract"))
  refuseIf (expected.planHash ≠ .utf8 "" ∧ existing.planHash ≠ expected.planHash)
    (newError codeIdempotencyConflict
      (.utf8 "idempotency key belongs to a different execution plan"))
  refuseIf (existing.inputHash ≠ expected.inputHash)
    (newError codeIdempotencyConflict
      (.utf8 "idempotency key was used with different input"))
  refuseIf (existing.status ≠ .completed)
    (newError codeIdempotencyProgress
      (.utf8 "an execution with this idempotency key is still in progress"))
  (validateImpact existing.impact).mapError
    (actionError codeInternal "stored idempotent impact is invalid")

/-- The checks of `completedResult` once the impact is authorized. -/
def checkReplay (registered : Registration) (decision : Decision) (existing : IdempotencyRecord) :
    Except Err Result := do
  enforceConstraints decision existing.impact
  refuseIf (decision.fingerprint ≠ existing.decisionFingerprint)
    (newError codePlanStale
      (.utf8 "authorization or grant changed since the original execution"))
  (registered.validateOutput existing.result.data).verify.mapError
    (actionError codeInternal "stored idempotent result is invalid")
  (validateResult existing.result).mapError
    (actionError codeInternal "stored idempotent result metadata is invalid")
  return existing.result

/-- `completedResult`. -/
def completedResult (request : Action.Types.Request) (registered : Registration)
    (intent : Decision) (expected existing : IdempotencyRecord) : Step Result := do
  Step.ofExcept (checkStored e expected existing)
  let decision ← authorizeWithFallback e .tx request registered.descriptor .impact existing.impact
    intent.fingerprint
  Step.ofExcept (checkReplay registered decision existing)

/-- `idempotency.Lookup`. -/
def lookup (ctx : Ctx) (record : IdempotencyRecord) : Step (Option IdempotencyRecord) :=
  Attempt.attempt (.lookup ctx record) fun reply => reply.dependency "look up idempotency record"

/-- `idempotency.Reserve`. -/
def reserve (record : IdempotencyRecord) : Step (Option IdempotencyRecord) :=
  Attempt.attempt (.reserve .tx record) fun reply => reply.dependency "reserve idempotency record"

/-- `idempotency.Complete`. -/
def complete (record : IdempotencyRecord) : Step Unit :=
  Attempt.attempt (.complete .tx record) fun reply => reply.dependency "complete idempotency record"

/-- `idempotency.Abort`. -/
def abort (record : IdempotencyRecord) : Step Unit :=
  Attempt.attempt (.abort .tx record) fun reply =>
    reply.dependency "release idempotency reservation"

/-- The deferred release: an operation that fails after its reservation aborts it. -/
def releasing {α : Type} (reservation : IdempotencyRecord) (operation : Step α) : Step α :=
  ExceptT.mk do
    match ← operation.run with
    | .ok a => pure (.ok a)
    | .error err =>
      match ← (abort reservation).run with
      | .ok () => pure (.error err)
      | .error abortErr => pure (.error (errorsJoin err abortErr))

/-! ### Execution plans -/

/-- `"handler returned invalid …"`. -/
def invalidHandlerValue (field : String) (cause : Err) : Err :=
  actionError codeInternal ("handler returned invalid " ++ field) cause

/-- What `loadExecutionPlan` makes of the reply of the plan store. -/
def loaded (request : Action.Types.Request) (registered : Registration) (reply : Reply Plan) :
    Except Err Plan :=
  match reply.dependency "load preview plan" with
  | .ok plan => .ok plan
  | .error err =>
    if is e.heap err (.sentinel .planNotFound) then
      .error (withRequest e.heap (actionError codePlanNotFound "preview plan was not found" err)
        request registered.descriptor.permission)
    else
      .error (withRequest e.heap (actionError codeInternal "load preview plan" err)
        request registered.descriptor.permission)

/-- `"action contract, actor, … differs from preview"`: what a stored plan is compared with. -/
def boundTo (plan : Plan) (request : Action.Types.Request) (registered : Registration)
    (inputHash : GoString) : Bool :=
  plan.actionID == request.actionID && plan.actionVersion == registered.descriptor.version &&
    plan.contractHash == registered.contractHash && plan.actorID == request.actor.id &&
    plan.actorType == request.actor.type && plan.channel == request.channel &&
    plan.scope == request.scope && plan.inputHash == inputHash

/-- The checks of `loadExecutionPlan` on the stored plan before the clock is read. -/
def checkLoaded (request : Action.Types.Request) (registered : Registration) (plan : Plan) :
    Except Err Unit := do
  let stale := fun text => newError codePlanStale (.utf8 text)
  refuseIf ((validateActionJSONSize plan.payload "stored plan payload").isOk = false)
    (stale "preview plan contains invalid persisted fields")
  refuseIf ((validateImpactCollectionSize plan.impact).isOk = false)
    (stale "preview plan contains invalid impact")
  refuseIf ((validatePlanRecord e.checks plan).isOk = false)
    (stale "preview plan contains invalid persisted fields")
  refuseIf (plan.hash ≠ request.planHash ∨ hashPlan e plan ≠ .ok plan.hash)
    (stale "preview plan integrity check failed")
  let (_, inputHash) ← canonicalInput e request.input
  refuseIf (boundTo plan request registered inputHash = false)
    (stale
      "action contract, actor, channel, execution scope, or input differs from preview")

/-- The checks of `loadExecutionPlan` at the time it read. -/
def checkCurrent (now : Time) (plan : Plan) : Except Err Unit := do
  refuseIf (plan.expiresAt.nanos ≤ now.nanos)
    (newError codePlanStale (.utf8 "preview plan expired"))
  refuseIf ((validateImpact plan.impact).isOk = false)
    (newError codePlanStale (.utf8 "preview plan contains invalid impact"))

/-- `loadExecutionPlan`. -/
def loadExecutionPlan (request : Action.Types.Request) (registered : Registration) : Step Plan := do
  let plan ← Attempt.attempt (.planGet .request request.planHash) (loaded e request registered)
  Attempt.adapt (fun err => withRequest e.heap err request registered.descriptor.permission) do
    Step.ofExcept (checkLoaded e request registered plan)
    let now ← currentTime
    Step.ofExcept (checkCurrent now plan)
    return plan

/-- `Handler.Plan`. -/
def handlerPlan (request : Action.Types.Request) (registered : Registration) : Step PlanData :=
  Attempt.attempt (.handlerPlan .request request) fun reply =>
    match reply.outcome (describe "plan action " registered.descriptor.id) with
    | .ok data => .ok data
    | .error err => .error (normalizeHandlerFailure e.heap err registered.descriptor)

/-- The sizes of what `Handler.Plan` returned. -/
def checkPlanSizes (data : PlanData) : Except Err Unit := do
  (validateActionJSONSize data.payload "plan payload").mapError (invalidHandlerValue "plan payload")
  (validateActionJSONSize data.summary "preview summary").mapError
    (invalidHandlerValue "preview summary")
  (validateImpactCollectionSize data.impact).mapError (invalidHandlerValue "impact")

/-- The preview summary against its schema. -/
def checkPreview (registered : Registration) (data : PlanData) : Except Err Unit :=
  (registered.validatePreview data.summary).verify.mapError (invalidHandlerValue "preview summary")

/-- The impact and the snapshot hash of what `Handler.Plan` returned. -/
def checkPlanFacts (data : PlanData) : Except Err Unit := do
  (validateImpact data.impact).mapError (invalidHandlerValue "impact")
  (checked (validateSnapshotHash data.snapshotHash)).mapError (invalidHandlerValue "snapshot hash")

/-- The checks of `resolveExecutionPlan` on what `Handler.Plan` returned, and the input hash. -/
def checkPlanned (request : Action.Types.Request) (registered : Registration) (data : PlanData) :
    Except Err GoString := do
  checkPlanSizes data
  (if registered.descriptor.preview = .none then .ok () else checkPreview registered data)
  checkPlanFacts data
  let (_, inputHash) ← canonicalInput e request.input
  return inputHash

/-- The plan of a request, not sealed yet. -/
def buildPlan (request : Action.Types.Request) (registered : Registration) (data : PlanData)
    (inputHash : GoString) (payload : RawMessage) (createdAt : Time) : Plan :=
  { actionID := request.actionID
    actionVersion := registered.descriptor.version
    contractHash := registered.contractHash
    actorID := request.actor.id
    actorType := request.actor.type
    channel := request.channel
    scope := request.scope
    inputHash := inputHash
    payload := payload
    impact := data.impact
    snapshotHash := data.snapshotHash
    createdAt := createdAt
    expiresAt := { createdAt with nanos := createdAt.nanos + e.planTTL } }

/-- The part of `resolveExecutionPlan` that asks the handler for a plan. -/
def planInline (request : Action.Types.Request) (registered : Registration) : Step Plan := do
  let data ← handlerPlan e request registered
  let inputHash ← Step.ofExcept (checkPlanned e request registered data)
  let now ← currentTime
  let payload ← Step.ofExcept (canonicalHandlerJSON e data.payload "plan payload")
  return buildPlan e request registered data inputHash payload now

/-- `resolveExecutionPlan`. -/
def resolveExecutionPlan (request : Action.Types.Request) (registered : Registration) :
    Step Plan :=
  let decorate := fun err => withRequest e.heap err request registered.descriptor.permission
  match validateExecutionPlanPolicy registered.descriptor request.planHash with
  | .error err => throw (decorate err)
  | .ok () =>
    if request.planHash ≠ .utf8 "" then loadExecutionPlan e request registered
    else Attempt.adapt decorate (planInline e request registered)

/-! ### The way in -/

/-- `validateDescriptorText`. -/
def validateDescriptorText (field : String) (value : GoString) (required : Bool) (maxRunes : ℕ) :
    Except String Unit :=
  validateText field value required maxRunes isControl

/-- `validateRequestEnvelope`. -/
def validateRequestEnvelope (request : Action.Types.Request) : Except String Unit := do
  validateDescriptorText "request id" request.requestID true maxRequestIDRunes
  refuseIf (validIdentifier request.actionID = false)
    "action id must be a canonical Action identifier"
  validateDescriptorText "channel" request.channel true maxChannelRunes
  validateActor request.actor
  (if request.idempotencyKey = .utf8 "" then .ok ()
    else validateIdempotencyKey request.idempotencyKey)
  refuseIf (request.planHash ≠ .utf8 "" ∧ (validatePlanHash request.planHash).isOk = false)
    "plan hash must be a lowercase SHA-256 digest"

/-- A program of the runtime whose error exits go through `fail`. -/
abbrev Governed (α : Type) := Attempt Op Op.Response Exit α

/-- The checks of `validateAcquired` before the input is looked at. -/
def checkCaller (request : Action.Types.Request) (registered : Registration) : Except Err Unit := do
  refuseIf (registered.descriptor.channels ≠ [] ∧ request.channel ∉ registered.descriptor.channels)
    (newError codeAuthzDenied (.utf8 "action is not available through this channel"))
  refuseIf (request.actor.id = .utf8 "")
    (newError codeAuthzDenied (.utf8 "authenticated actor is required"))
  refuseIf (request.scope.validate.isOk = false)
    (newError codeAuthzDenied
      (.utf8 "actor execution scope does not match request scope"))

/-- `validateAcquired`: the request with its canonical input. -/
def validateAcquired (request : Action.Types.Request) (acquired : Option Registration) :
    Except Exit Action.Types.Request :=
  let refuse := fun (request : Action.Types.Request) (permission : GoString) err =>
    .error ⟨request, Registration.zero, withRequest e.heap err request permission⟩
  match validateRequestEnvelope request with
  | .error text =>
    let message := if validIdentifier request.actionID then text else "action id is invalid"
    refuse request (.utf8 "") (newError codeValidationFailed (.utf8 message))
  | .ok () =>
    match acquired with
    | none => refuse request (.utf8 "") (newError codeActionNotFound (.utf8 "action is not registered"))
    | some registered =>
      let permission := registered.descriptor.permission
      match checkCaller request registered with
      | .error err => refuse request permission err
      | .ok () =>
        match canonicalInput e request.input with
        | .error err => refuse request permission err
        | .ok (canonical, _) =>
          let request := { request with input := canonical }
          match (registered.validateInput canonical).verify with
          | .error err => refuse request permission err
          | .ok () => .ok request

/-- `preflightActionJSONLimit` and `validateAcquired`. -/
def validated (request : Action.Types.Request) (acquired : Option Registration) :
    Except Exit Action.Types.Request :=
  if e.checks.validateJSONDocument request.input = .limit then
    .error
      { request := { request with input := .utf8 "" }
        registered := acquired.getD Registration.zero
        err := withRequest e.heap
          (newError codeLimitExceeded (.utf8 "input exceeds the Action JSON resource limits"))
          request (.utf8 "") }
  else validateAcquired e request acquired

/-- `normalizeRequest`. -/
def normalizeRequest (request : Action.Types.Request) : Program Action.Types.Request := do
  if request.requestID = .utf8 "" then
    let requestID ← ask .randomRequestID
    return { request with requestID := requestID }
  else return request

/-- An error exit from here on carries this request and this registration. -/
def exiting {α : Type} (request : Action.Types.Request) (registered : Registration)
    (step : Step α) : Governed α :=
  Attempt.adapt (fun err => ⟨request, registered, err⟩) step

/-- The same with the context of the request. -/
def decorated {α : Type} (request : Action.Types.Request) (registered : Registration)
    (step : Step α) : Governed α :=
  Attempt.adapt
    (fun err => ⟨request, registered,
      withRequest e.heap err request registered.descriptor.permission⟩) step

/-- The core of an entry point on what was acquired. -/
def admitted {α : Type} (request : Action.Types.Request) (acquired : Option Registration)
    (core : Action.Types.Request → Registration → Governed α) : Governed α :=
  match validated e request acquired with
  | .error exit => throw exit
  | .ok request => core request (acquired.getD Registration.zero)

/-- What `Preview` and `Execute` share: the deferred gate, the lease, the first reading of the
clock, the checks of the request and `fail`. -/
def governed {α : Type} (hasContext : Bool) (request : Action.Types.Request)
    (core : Time → Action.Types.Request → Registration → Governed α) : Program (Except Err α) := do
  let refuse := fun err => Except.error (finalizeRuntimeFailure e.heap err)
  if hasContext = false then
    return refuse (newError codeValidationFailed (.utf8 "context is required"))
  match ← ask (.acquire request.actionID) with
  | .revoked =>
    return refuse (newError codeUnavailable (.utf8 "action runtime is shutting down"))
  | .missing => afterLease none
  | .found registered => afterLease (some registered)
where
  /-- With the lease held. -/
  afterLease (acquired : Option Registration) : Program (Except Err α) := do
    let request ← normalizeRequest request
    match ← currentTime.run with
    | .error err =>
      return .error (finalizeRuntimeFailure e.heap (withRequest e.heap err request (.utf8 "")))
    | .ok startedAt =>
      match ← (admitted e request acquired (core startedAt)).run with
      | .ok a => return .ok a
      | .error exit =>
        let err ← fail e startedAt exit
        return .error (finalizeRuntimeFailure e.heap err)

/-! ### `Engine.Execute` -/

/-- The idempotency record of a request. -/
def requestRecord (request : Action.Types.Request) (registered : Registration)
    (inputHash : GoString) : IdempotencyRecord :=
  { scope := request.scope
    actorID := request.actor.id
    actorType := request.actor.type
    actionID := request.actionID
    actionVersion := registered.descriptor.version
    contractHash := registered.contractHash
    channel := request.channel
    key := request.idempotencyKey
    inputHash := inputHash
    planHash := request.planHash
    status := .running }

/-- The checks on what `Handler.Execute` returned. -/
def checkOutput (registered : Registration) (result : Result) : Except Err Unit := do
  (validateActionJSONSize result.data "result data").mapError (invalidHandlerValue "output")
  (validateResultCollectionSize result).mapError (invalidHandlerValue "result metadata")
  (registered.validateOutput result.data).verify.mapError (invalidHandlerValue "output")
  (validateResult result).mapError (invalidHandlerValue "result metadata")

/-- `Handler.Execute` and the checks on its result. -/
def handlerExecute (registered : Registration) (plan : Plan) : Step Result := do
  let result ← Attempt.attempt (.handlerExecute .tx plan) fun reply =>
    match reply.outcome (describe "execute action " registered.descriptor.id) with
    | .ok result => .ok result
    | .error err => .error (normalizeHandlerFailure e.heap err registered.descriptor)
  Step.ofExcept (checkOutput registered result)
  return result

/-- What a transaction of `Execute` ends with: its own result, or a recorded one. -/
inductive Outcome
  | executed (result : Result)
  | replayed (existing : IdempotencyRecord) (result : Result)

/-- The event of an execution inside its transaction. -/
def auditAllowed (startedAt : Time) (request : Action.Types.Request) (registered : Registration)
    (plan : Plan) (result : Result) : Step Unit := do
  let auditEvent ← ExceptT.lift (event e request registered startedAt .allowed (.utf8 "")
    result.summary plan.impact result.references)
  recordRequired auditEvent

/-- The reservation for a plan that was authorized. -/
def reservationOf (record : IdempotencyRecord) (plan : Plan) (decision : Decision) :
    IdempotencyRecord :=
  { record with
    impact := plan.impact, planHash := plan.hash, decisionFingerprint := decision.fingerprint }

/-- The completion of a reservation. -/
def completionOf (reservation : IdempotencyRecord) (result : Result) : IdempotencyRecord :=
  { reservation with status := .completed, result := result }

/-- The completion of a reservation, if there is one. -/
def completeReservation (reservation : Option IdempotencyRecord) (result : Result) : Step Unit :=
  match reservation with
  | some reservation => complete (completionOf reservation result)
  | none => pure ()

/-- The handler, the completion of the reservation and the event. -/
def executePlan (startedAt : Time) (request : Action.Types.Request) (registered : Registration)
    (plan : Plan) (reservation : Option IdempotencyRecord) : Step Outcome := do
  let result ← handlerExecute e registered plan
  completeReservation reservation result
  auditAllowed e startedAt request registered plan result
  return .executed result

/-- The transaction of an execution. -/
def executeBody (startedAt : Time) (request : Action.Types.Request) (registered : Registration)
    (record : IdempotencyRecord) (plan : Plan) : Step Outcome := do
  let intent ← authorize e .tx request registered.descriptor .intent {}
  let decision ← authorizeImpact e .tx request registered.descriptor intent plan.impact
    plan.decisionFingerprint
  if request.idempotencyKey = .utf8 "" then executePlan e startedAt request registered plan none
  else
    let reservation := reservationOf record plan decision
    match ← reserve reservation with
    | some existing =>
      let existing ← Step.ofExcept (ownStoredIdempotencyRecord existing)
      let result ← completedResult e request registered intent record existing
      return .replayed existing result
    | none =>
      releasing reservation (executePlan e startedAt request registered plan (some reservation))

/-- The transaction of a replay. -/
def replayBody (request : Action.Types.Request) (registered : Registration)
    (record : IdempotencyRecord) : Step Outcome := do
  match ← lookup .tx record with
  | none =>
    throw (newError codeIdempotencyProgress
      (.utf8 "idempotency record changed while authorization was rechecked"))
  | some current =>
    let existing ← Step.ofExcept (ownStoredIdempotencyRecord current)
    let intent ← authorize e .tx request registered.descriptor .intent {}
    let result ← completedResult e request registered intent record existing
    return .replayed existing result

/-- The result of a transaction; a replay is recorded outside it. -/
def Outcome.settle (startedAt : Time) (request : Action.Types.Request) (registered : Registration) :
    Outcome → Program Result
  | .executed result => return result
  | .replayed existing result => do
    let auditEvent ← event e { request with planHash := existing.planHash } registered startedAt
      .idempotentReplay (.utf8 "") result.summary existing.impact result.references
    recordDetached auditEvent
    return result

/-- The plan to execute, and the request with its hash. -/
def preparePlan (request : Action.Types.Request) (registered : Registration) (intent : Decision)
    (record : IdempotencyRecord) : Governed (Action.Types.Request × Plan) := do
  let plan ← exiting request registered (resolveExecutionPlan e request registered)
  let internalPlan := plan.decisionFingerprint = .utf8 ""
  let request := if internalPlan then request else { request with planHash := plan.hash }
  let decision ← exiting request registered
    (authorizeImpact e .request request registered.descriptor intent plan.impact
      plan.decisionFingerprint)
  let plan ← decorated e request registered
    (if internalPlan then Step.ofExcept (sealExecutionPlan e plan decision.fingerprint)
      else pure plan)
  let request := { request with planHash := plan.hash }
  decorated e request registered (Step.ofExcept
    (refuseIf (record.inputHash ≠ plan.inputHash)
      (newError codePlanStale (.utf8 "action input differs from preview"))))
  return (request, plan)

/-- `Execute` once no record of the key was found. -/
def executeFresh (startedAt : Time) (request : Action.Types.Request) (registered : Registration)
    (intent : Decision) (record : IdempotencyRecord) : Governed Result := do
  let (request, plan) ← preparePlan e request registered intent record
  let outcome ← decorated e request registered
    (withinTransaction e (executeBody e startedAt request registered record plan))
  ExceptT.lift (outcome.settle e startedAt request registered)

/-- `Execute` once a record of the key was found. -/
def executeReplay (startedAt : Time) (request : Action.Types.Request) (registered : Registration)
    (record : IdempotencyRecord) : Governed Result := do
  let outcome ← decorated e request registered
    (withinTransaction e (replayBody e request registered record))
  ExceptT.lift (outcome.settle e startedAt request registered)

/-- The checks of `Execute` after the first authorization, and the input hash. -/
def checkExecute (request : Action.Types.Request) (registered : Registration) :
    Except Err GoString := do
  refuseIf (registered.descriptor.requiresIdempotency ∧ request.idempotencyKey = .utf8 "")
    (newError codeIdempotencyRequired (.utf8 "idempotency_key is required"))
  validateExecutionPlanPolicy registered.descriptor request.planHash
  let (_, inputHash) ← canonicalInput e request.input
  return inputHash

/-- `Execute` on an admitted request. -/
def executeAdmitted (startedAt : Time) (request : Action.Types.Request)
    (registered : Registration) : Governed Result := do
  let intent ← exiting request registered
    (authorize e .request request registered.descriptor .intent {})
  let inputHash ← decorated e request registered
    (Step.ofExcept (checkExecute e request registered))
  let record := requestRecord request registered inputHash
  if request.idempotencyKey = .utf8 "" then executeFresh e startedAt request registered intent record
  else
    match ← decorated e request registered (lookup .request record) with
    | some _ => executeReplay e startedAt request registered record
    | none => executeFresh e startedAt request registered intent record

/-- `Engine.Execute`. -/
def execute (hasContext : Bool) (request : Action.Types.Request) : Program (Except Err Result) :=
  governed e hasContext request (executeAdmitted e)

/-! ### `Engine.Preview` -/

/-- The plan of a preview with its hash. -/
def sealPreviewPlan (draft : Plan) : Except Err Plan := do
  let hash ← hashPlan e draft
  (checked (validatePlanRecord e.checks { draft with hash := hash })).mapError
    (actionError codeInternal "runtime produced an invalid preview plan")
  return { draft with hash := hash }

/-- The transaction of a preview. -/
def previewBody (startedAt : Time) (request : Action.Types.Request) (registered : Registration)
    (data : PlanData) (inputHash : GoString) (payload : RawMessage) : Step Plan := do
  let intent ← authorize e .tx request registered.descriptor .intent {}
  let decision ← authorizeImpact e .tx request registered.descriptor intent data.impact (.utf8 "")
  let createdAt ← currentTime
  let deleted ← Attempt.attempt (.planDeleteExpired .tx createdAt) fun reply =>
    reply.dependency "clean expired preview plans"
  Step.ofExcept (validateDeletedPlanCount deleted)
  let draft :=
    { buildPlan e request registered data inputHash payload createdAt with
      decisionFingerprint := decision.fingerprint }
  let plan ← Step.ofExcept (sealPreviewPlan e draft)
  Attempt.attempt (.planSave .tx plan) fun reply => reply.dependency "save preview plan"
  let auditEvent ← ExceptT.lift (event e { request with planHash := plan.hash } registered startedAt
    .previewed (.utf8 "") (.utf8 ("previewed " ++ toString data.impact.rows ++ " rows"))
    data.impact [])
  recordRequired auditEvent
  return plan

/-- What `Handler.Plan` returned, checked as `Preview` does, with the canonical payload and
summary. -/
def checkPreviewed (registered : Registration) (data : PlanData) :
    Except Err (RawMessage × RawMessage) := do
  checkPlanSizes data
  checkPreview registered data
  let payload ← canonicalHandlerJSON e data.payload "plan payload"
  let summary ← canonicalHandlerJSON e data.summary "preview summary"
  checkPlanFacts data
  return (payload, summary)

/-- `Preview` on an admitted request. -/
def previewAdmitted (startedAt : Time) (request : Action.Types.Request)
    (registered : Registration) : Governed Preview := do
  decorated e request registered (Step.ofExcept
    (refuseIf (registered.descriptor.preview = .none)
      (newError codePreconditionFailed (.utf8 "action does not support preview"))))
  let intent ← exiting request registered
    (authorize e .request request registered.descriptor .intent {})
  let data ← decorated e request registered (handlerPlan e request registered)
  let (payload, summary) ← decorated e request registered
    (Step.ofExcept (checkPreviewed e registered data))
  let _ ← exiting request registered
    (authorizeImpact e .request request registered.descriptor intent data.impact (.utf8 ""))
  let (_, inputHash) ← decorated e request registered
    (Step.ofExcept (canonicalInput e request.input))
  let plan ← decorated e request registered
    (withinTransaction e (previewBody e startedAt request registered data inputHash payload))
  return { planHash := plan.hash, summary := summary, impact := plan.impact,
           expiresAt := plan.expiresAt }

/-- `Engine.Preview`. -/
def preview (hasContext : Bool) (request : Action.Types.Request) : Program (Except Err Preview) :=
  governed e hasContext request (previewAdmitted e)

/-! ### `Engine.CleanupExpiredPlans` -/

/-- `CleanupExpiredPlans` with the lease held. -/
def cleanupLeased : Step ℤ := do
  let now ← Attempt.adapt (fun err => actionError codeInternal "read action runtime clock" err)
    currentTime
  let deleted ← Attempt.attempt (.planDeleteExpired .request now) fun reply =>
    match reply.dependency "clean expired preview plans" with
    | .ok deleted => .ok deleted
    | .error err => .error (actionError codeInternal "clean expired preview plans" err)
  Step.ofExcept (validateDeletedPlanCount deleted)
  return deleted

/-- `Engine.CleanupExpiredPlans`. -/
def cleanupExpiredPlans (hasContext : Bool) : Program (Except Err ℤ) := do
  let refuse := fun err => Except.error (finalizeRuntimeFailure e.heap err)
  if hasContext = false then
    return refuse (newError codeValidationFailed (.utf8 "context is required"))
  if ← ask .acquireLease then
    match ← cleanupLeased.run with
    | .ok deleted => return .ok deleted
    | .error err => return refuse err
  else return refuse (newError codeUnavailable (.utf8 "action runtime is shutting down"))

end Modary.Runtime.Engine
