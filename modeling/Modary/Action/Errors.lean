import Modary.Action.Names
import Modary.Lib.Traversal

/-! # Errors

Go errors as the framework sees them. A value that a dependency made is an address of a heap, where
its trusted part can be any graph, cycles and typed nils included; the values the framework makes
itself are terms over these. The classifiers of package `safeerr` look at no more than 64 nodes and
never call a method of a dependency, so a heap node only says what they can see. -/

namespace Modary.Action.Errors

open Modary.Lib.GoText Modary.Lib.Traversal Modary.Action.Names

/-! ### Codes and kinds -/

/-- `action.ErrorKind`: `unset` is the empty text, `other` any text outside the closed set. -/
inductive ErrorKind
  | unset
  | validation
  | denied
  | notFound
  | precondition
  | preconditionRequired
  | conflict
  | limit
  | unavailable
  | internal
  | other (text : GoString)
  deriving DecidableEq, Repr

/-- `ErrorKind.Valid`. -/
def ErrorKind.valid : ErrorKind → Bool
  | .unset => false
  | .other _ => false
  | .validation => true
  | .denied => true
  | .notFound => true
  | .precondition => true
  | .preconditionRequired => true
  | .conflict => true
  | .limit => true
  | .unavailable => true
  | .internal => true

/-- The text of a kind. -/
def ErrorKind.text : ErrorKind → GoString
  | .unset => .utf8 ""
  | .validation => .utf8 "validation"
  | .denied => .utf8 "denied"
  | .notFound => .utf8 "not_found"
  | .precondition => .utf8 "precondition"
  | .preconditionRequired => .utf8 "precondition_required"
  | .conflict => .utf8 "conflict"
  | .limit => .utf8 "limit"
  | .unavailable => .utf8 "unavailable"
  | .internal => .utf8 "internal"
  | .other text => text

/-- The kind with a text. -/
def ErrorKind.ofText (text : GoString) : ErrorKind :=
  ([.unset, .validation, .denied, .notFound, .precondition, .preconditionRequired, .conflict,
    .limit, .unavailable, .internal].find? fun kind : ErrorKind => kind.text == text).getD
    (.other text)

theorem text_ofText (text : GoString) : (ErrorKind.ofText text).text = text := by
  unfold ErrorKind.ofText
  cases hf : List.find? (fun kind : ErrorKind => kind.text == text) _ with
  | none => rfl
  | some kind => simpa using List.find?_some hf

theorem ofText_text {kind : ErrorKind} (h : kind.valid = true ∨ kind = .unset) :
    ErrorKind.ofText kind.text = kind := by
  rcases h with h | rfl
  · cases kind with
    | unset => cases h
    | other text => cases h
    | _ => rfl
  · rfl

def codeActionNotFound : GoString := .utf8 "ACTION_NOT_FOUND"
def codeValidationFailed : GoString := .utf8 "VALIDATION_FAILED"
def codeAuthzDenied : GoString := .utf8 "AUTHZ_DENIED"
def codePreconditionFailed : GoString := .utf8 "PRECONDITION_FAILED"
def codePlanRequired : GoString := .utf8 "PLAN_REQUIRED"
def codePlanNotFound : GoString := .utf8 "PLAN_NOT_FOUND"
def codePlanStale : GoString := .utf8 "PLAN_STALE"
def codeLimitExceeded : GoString := .utf8 "LIMIT_EXCEEDED"
def codeIdempotencyRequired : GoString := .utf8 "IDEMPOTENCY_REQUIRED"
def codeIdempotencyConflict : GoString := .utf8 "IDEMPOTENCY_CONFLICT"
def codeIdempotencyProgress : GoString := .utf8 "IDEMPOTENCY_IN_PROGRESS"
def codeUnavailable : GoString := .utf8 "UNAVAILABLE"
def codeInternal : GoString := .utf8 "INTERNAL_ERROR"

/-- `builtinErrorKinds`. -/
def builtinErrorKinds : List (GoString × ErrorKind) :=
  [(codeActionNotFound, .notFound), (codeValidationFailed, .validation),
   (codeAuthzDenied, .denied), (codePreconditionFailed, .precondition),
   (codePlanRequired, .preconditionRequired), (codePlanNotFound, .notFound),
   (codePlanStale, .conflict), (codeLimitExceeded, .limit),
   (codeIdempotencyRequired, .preconditionRequired), (codeIdempotencyConflict, .conflict),
   (codeIdempotencyProgress, .conflict), (codeUnavailable, .unavailable),
   (codeInternal, .internal)]

/-- `action.BuiltinErrorKind`. -/
def builtinErrorKind (code : GoString) : Option ErrorKind := builtinErrorKinds.lookup code

/-- `action.ErrorSpec`. -/
structure ErrorSpec where
  code : GoString
  kind : ErrorKind
  deriving DecidableEq, Repr

def maxErrorCodeBytes : ℕ := 64

/-- `^[A-Z][A-Z0-9_]{0,30}\.[A-Z][A-Z0-9_]{0,31}$`. -/
def customErrorCodePattern (s : List Char) : Bool :=
  let part := matchToken isUpper fun c => isUpper c || isDigit c || c == '_'
  match s.splitOn '.' with
  | [space, name] => part 30 space && part 31 name
  | _ => false

/-- `action.ValidCustomErrorCode`. -/
def validCustomErrorCode (code : GoString) : Bool :=
  byteLength code.runes ≤ maxErrorCodeBytes && customErrorCodePattern code.runes

def maxErrorMessageRunes : ℕ := 512

/-- A control character, or one of the line separators `'\u2028'`, `'\u2029'`. -/
def isControlOrSeparator (c : Char) : Bool :=
  isControl c || c.toNat == 0x2028 || c.toNat == 0x2029

/-- `action.ValidErrorMessage`. -/
def validErrorMessage (message : GoString) : Bool :=
  message.validString && message != .utf8 "" && trimSpace message.runes == message.runes &&
    message.runes.length ≤ maxErrorMessageRunes && !message.runes.any isControlOrSeparator

/-! ### Error values -/

/-- `action.Error` without its cause. -/
structure Envelope where
  code : GoString
  kind : ErrorKind := .unset
  message : GoString
  actionID : GoString := .utf8 ""
  requiredPermission : GoString := .utf8 ""
  actorID : GoString := .utf8 ""
  scope : Option Execution := none
  requestID : GoString := .utf8 ""
  deriving DecidableEq, Repr

/-- The package-level errors that the framework compares with. -/
inductive Sentinel
  /-- `action.ErrCallbackPanic` -/
  | callbackPanic
  /-- `actionpersistence.ErrPlanNotFound` -/
  | planNotFound
  /-- `runtimecontrol.ErrTransactionManagerContract` -/
  | transactionManagerContract
  /-- `errTransactionBackendContract` -/
  | transactionBackendContract
  /-- `database.ErrDependencyPanic` -/
  | dependencyPanic
  /-- `errNestedTransactionRollback` -/
  | nestedTransactionRollback
  /-- `errNestedTransactionPanic` -/
  | nestedTransactionPanic
  /-- `callbackcontract.ErrRepeatedInvocation` -/
  | repeatedInvocation
  /-- `callbackcontract.ErrClosedInvocation` -/
  | closedInvocation
  deriving DecidableEq, Repr

/-- `transactionoutcome.State`. -/
inductive OutcomeState
  | unknown
  | rollbackPending
  | rolledBack
  | rollbackFailed
  | commitFailed
  deriving DecidableEq, Repr

/-- The two packages that run a guarded transaction callback, each with its own error types. -/
inductive Layer
  | actionruntime
  | databasecontrol
  deriving DecidableEq, Repr

/-- A value of the Go type `error`. -/
inductive Err
  | nil
  /-- a value made by a dependency, at an address of the heap -/
  | foreign (address : ℕ)
  | sentinel (name : Sentinel)
  /-- `errors.New`, or `fmt.Errorf` without a wrapped error -/
  | message (text : String)
  /-- `fmt.Errorf("text: %w", cause)` -/
  | wrapped (text : String) (cause : Err)
  /-- `errors.Join` of two errors that are not both nil -/
  | join (first second : Err)
  /-- `safeerr.opaqueError` -/
  | opaqueError (cause : Err)
  /-- `transactionoutcome.outcome` -/
  | outcome (state : OutcomeState) (operation completion : Err)
  /-- `*action.Error`; the serial tells two of them apart as their addresses do -/
  | action (serial : ℕ) (envelope : Envelope) (cause : Err)
  /-- `*transactionOperationError`, told apart by its serial -/
  | operation (layer : Layer) (serial : ℕ) (cause : Err) (invalidContext panicked : Bool)
  /-- a nil `*transactionOperationError` inside the interface -/
  | nilOperation (layer : Layer)
  /-- `*transactionOutcomeError` -/
  | outcomeError (layer : Layer) (cause diagnostic : Err)
  /-- `*transactionContractError`: what the manager or backend returned, and the operation -/
  | contractError (layer : Layer) (manager operation : Err)
  /-- `*dependencyError` -/
  | dependencyError (layer : Layer) (operation : String) (cause : Err)
  /-- `*action.CallbackPanicError` -/
  | callbackPanic (operation : String)
  /-- `*transactionPanicEvidence` -/
  | panicEvidence
  /-- `*requiredAuditError`; the event it also carries is for the failure report alone -/
  | requiredAuditError (cause : Err)
  deriving DecidableEq, Repr

instance : Inhabited Err := ⟨.nil⟩

/-- What the classifiers can see of a value made by a dependency. -/
inductive Node
  /-- a nil pointer inside the interface, of type `*action.Error` or of another type -/
  | typedNil (ofActionError : Bool)
  /-- an `*action.Error`, whose fields are public -/
  | actionError (envelope : Envelope) (cause : Err)
  /-- a wrapper of a trusted package with what it unwraps to -/
  | trusted (children : List Err)
  /-- a value of any other type: it is never unwrapped -/
  | untrusted

/-- The dependencies' error values. -/
abbrev Heap := ℕ → Node

/-! ### Package `safeerr` -/

/-- `safeerr.Opaque`. -/
def toOpaque : Err → Err
  | .nil => .nil
  | .opaqueError cause => .opaqueError cause
  | err => .opaqueError err

/-- The result of an `Unwrap() error` method as a list of children. -/
def one (child : Err) : List Err := if child = .nil then [] else [child]

/-- `safeerr.unwrapTrusted`: what the `Unwrap` methods of the trusted types return. -/
def unwrapTrusted (heap : Heap) : Err → List Err
  | .nil => []
  | .foreign a =>
    match heap a with
    | .typedNil _ => []
    | .actionError _ cause => one (toOpaque cause)
    | .trusted children => children
    | .untrusted => []
  | .sentinel _ => []
  | .message _ => []
  | .wrapped _ cause => one cause
  | .join first second => one first ++ one second
  | .opaqueError cause => one cause
  | .outcome _ operation completion => one operation ++ one completion
  | .action _ _ cause => one (toOpaque cause)
  | .operation _ _ cause _ _ => one (toOpaque cause)
  | .nilOperation _ => []
  | .outcomeError _ cause _ => one (toOpaque cause)
  | .contractError layer manager operation =>
    .sentinel (match layer with
      | .actionruntime => .transactionManagerContract
      | .databasecontrol => .transactionBackendContract) ::
      (one (toOpaque manager) ++ one (toOpaque operation))
  | .dependencyError _ _ cause => one (toOpaque cause)
  | .callbackPanic _ => [.sentinel .callbackPanic]
  | .panicEvidence => [.sentinel .callbackPanic]
  | .requiredAuditError cause => one (toOpaque cause)

def maxNodes : ℕ := 64

/-- `safeerr.Walk`, as the list of the errors it visits. -/
def walk (heap : Heap) (root : Err) : List Err :=
  visit (unwrapTrusted heap) (fun err => err == .nil) maxNodes [root]

/-- `safeerr.Is`. The targets of the framework are values of its own, compared by identity. -/
def is (heap : Heap) (root target : Err) : Bool :=
  if target = .nil then root == .nil else (walk heap root).any (· == target)

/-- The type assertion `candidate.(*action.Error)` to a pointer that is not nil. -/
def asActionError (heap : Heap) : Err → Option (Envelope × Err)
  | .action _ envelope cause => some (envelope, cause)
  | .foreign a =>
    match heap a with
    | .actionError envelope cause => some (envelope, cause)
    | .typedNil _ => none
    | .trusted _ => none
    | .untrusted => none
  | _ => none

/-- `findActionError`. -/
def findActionError (heap : Heap) (root : Err) : Option (Envelope × Err) :=
  (walk heap root).findSome? (asActionError heap)

/-- `errors.Join`. -/
def errorsJoin (first second : Err) : Err :=
  if first = .nil ∧ second = .nil then .nil else .join first second

/-! ### `action.Error` -/

/-- The address of an error that the framework has just built. The framework compares addresses only
of the errors a handler returned, so one serial does for all of its own. -/
def fresh : ℕ := 0

/-- `&action.Error{Code: …, Message: …, Cause: …}`. -/
def actionError (code : GoString) (message : String) (cause : Err) : Err :=
  .action fresh { code := code, message := .utf8 message } cause

/-- `action.NewError`. -/
def newError (code : GoString) (message : GoString) : Err :=
  .action fresh { code := code, kind := (builtinErrorKind code).getD .unset, message := message }
    .nil

/-- `action.ErrorCode`. -/
def errorCode (heap : Heap) (err : Err) : GoString :=
  match findActionError heap err with
  | some (envelope, _) => if envelope.code = .utf8 "" then codeInternal else envelope.code
  | none => codeInternal

/-- The kind that `action.ErrorKindOf` reads off one envelope. -/
def Envelope.governedKind (envelope : Envelope) : ErrorKind :=
  match builtinErrorKind envelope.code with
  | some kind => if envelope.kind = .unset ∨ envelope.kind = kind then kind else .internal
  | none => if envelope.kind.valid then envelope.kind else .internal

/-- `action.ErrorKindOf`. -/
def errorKindOf (heap : Heap) (err : Err) : ErrorKind :=
  match findActionError heap err with
  | some (envelope, _) => envelope.governedKind
  | none => .internal

/-! ### Package `transactionoutcome` -/

/-- `transactionoutcome.newOutcome`. -/
def newOutcome (state : OutcomeState) (operation completion : Err) : Err :=
  .outcome state (toOpaque operation) (toOpaque completion)

/-- `RollbackPending`: a nested operation failed and the outer transaction is now rollback-only. -/
def rollbackPending (operation : Err) : Err := newOutcome .rollbackPending operation .nil

/-- `RolledBack`: the operation failed and the rollback completed. -/
def rolledBack (operation : Err) : Err := newOutcome .rolledBack operation .nil

/-- `RollbackFailed`: the operation failed and the rollback did not complete. -/
def rollbackFailed (operation completion : Err) : Err :=
  newOutcome .rollbackFailed operation completion

/-- `CommitFailed`: the callback succeeded and could not be committed. -/
def commitFailed (completion : Err) : Err := newOutcome .commitFailed .nil completion

/-- `transactionoutcome.Snapshot`. -/
structure Proof where
  state : OutcomeState
  operation : Err
  completion : Err
  deriving DecidableEq, Repr

/-- `outcome.valid`. -/
def Proof.valid (proof : Proof) : Bool :=
  match proof.state with
  | .rollbackPending | .rolledBack => proof.operation != .nil && proof.completion == .nil
  | .rollbackFailed => proof.operation != .nil && proof.completion != .nil
  | .commitFailed => proof.operation == .nil && proof.completion != .nil
  | .unknown => false

/-- `transactionoutcome.Root`: only an outcome itself is a proof, never a wrapper around one. -/
def root : Err → Option Proof
  | .outcome state operation completion =>
    if Proof.valid ⟨state, operation, completion⟩ then some ⟨state, operation, completion⟩ else none
  | _ => none

/-! ### What the classifiers see first -/

theorem toOpaque_eq_nil {err : Err} : toOpaque err = .nil ↔ err = .nil := by
  cases err <;> simp [toOpaque]

theorem root_commitFailed {completion : Err} (h : completion ≠ .nil) :
    root (commitFailed completion) = some ⟨.commitFailed, .nil, toOpaque completion⟩ := by
  simp [commitFailed, newOutcome, root, Proof.valid, toOpaque_eq_nil, h]

theorem root_rolledBack {operation : Err} (h : operation ≠ .nil) :
    root (rolledBack operation) = some ⟨.rolledBack, toOpaque operation, .nil⟩ := by
  simp [rolledBack, newOutcome, root, Proof.valid, toOpaque_eq_nil, h]

theorem root_rollbackFailed {operation completion : Err} (h : operation ≠ .nil)
    (hc : completion ≠ .nil) :
    root (rollbackFailed operation completion) =
      some ⟨.rollbackFailed, toOpaque operation, toOpaque completion⟩ := by
  simp [rollbackFailed, newOutcome, root, Proof.valid, toOpaque_eq_nil, h, hc]

theorem walk_eq_cons (heap : Heap) {err : Err} (h : err ≠ .nil) :
    walk heap err = err :: visit (unwrapTrusted heap) (fun e => e == .nil) 63
      ((unwrapTrusted heap err).take 63) := by
  unfold walk maxNodes
  rw [visit_cons (by simpa using h), List.append_nil]

theorem is_self (heap : Heap) {err : Err} (h : err ≠ .nil) : is heap err err = true := by
  simp [is, h, walk_eq_cons heap h]

theorem is_of_mem (heap : Heap) {err target : Err} (ht : target ≠ .nil)
    (h : target ∈ walk heap err) : is heap err target = true := by
  simpa [is, ht] using h

/-- An error is recognized behind an opaque boundary. -/
theorem is_toOpaque (heap : Heap) {err : Err} (h : err ≠ .nil) :
    is heap (toOpaque err) err = true := by
  by_cases ho : ∃ cause, err = .opaqueError cause
  · obtain ⟨cause, rfl⟩ := ho
    exact is_self heap h
  have ht : toOpaque err = .opaqueError err := by
    unfold toOpaque
    split
    · exact absurd rfl h
    · exact absurd ⟨_, rfl⟩ ho
    · rfl
  rw [ht]
  refine is_of_mem heap h (mem_visit_children rfl ?_)
  simp only [unwrapTrusted, one, h, if_false, List.take_succ_cons, List.cons_append]
  exact mem_visit_head (by simpa using h) _ _

/-- The first action error of an action error is the error itself. -/
@[simp] theorem findActionError_action (heap : Heap) (serial : ℕ) (envelope : Envelope)
    (cause : Err) : findActionError heap (.action serial envelope cause) = some (envelope, cause) := by
  have h : Err.action serial envelope cause ≠ .nil := by simp
  rw [findActionError, walk_eq_cons heap h, List.findSome?_cons]
  rfl

@[simp] theorem errorCode_action (heap : Heap) (serial : ℕ) (envelope : Envelope) (cause : Err) :
    errorCode heap (.action serial envelope cause) =
      if envelope.code = .utf8 "" then codeInternal else envelope.code := by
  simp [errorCode]

end Modary.Action.Errors
