import Modary.Action.Types

/-! # Request errors and the error contract

`action.WithRequest` and `error_contract.go`: how an error of a handler is checked against the
descriptor, and the last gate before an error leaves the runtime. -/

namespace Modary.Runtime.Failures

open Modary.Lib.GoText Modary.Action.Names Modary.Action.Errors Modary.Action.Types

/-! ### `action.WithRequest` -/

/-- `action.validRequestContextID`. -/
def validRequestContextID (value : GoString) : Bool :=
  value != .utf8 "" && value.validString && trimSpace value.runes == value.runes &&
    value.runes.length ≤ maxRequestIDRunes && !value.runes.any isControlOrSeparator

/-- The request context that `WithRequest` writes over an envelope. -/
def Envelope.forRequest (envelope : Envelope) (request : Request) (permission : GoString) :
    Envelope :=
  { code := envelope.code
    kind :=
      if envelope.kind.valid then envelope.kind
      else (builtinErrorKind envelope.code).getD .unset
    message := envelope.message
    actionID := if validIdentifier request.actionID then request.actionID else .utf8 ""
    requiredPermission := if validIdentifier permission then permission else .utf8 ""
    actorID := if (validateActorID request.actor.id).isOk then request.actor.id else .utf8 ""
    scope := if request.scope.validate.isOk then some request.scope else none
    requestID := if validRequestContextID request.requestID then request.requestID else .utf8 "" }

/-- `action.WithRequest`: the first action error of the graph, or a new internal one, with the
context of this request. -/
def withRequest (heap : Heap) (err : Err) (request : Request) (permission : GoString) : Err :=
  if err = .nil then .nil
  else
    match findActionError heap err with
    | some (envelope, cause) => .action fresh (Envelope.forRequest envelope request permission) cause
    | none =>
      .action fresh
        (Envelope.forRequest { code := codeInternal, message := .utf8 "action execution failed" }
          request permission) err

/-! ### The error contract of a handler -/

/-- `descriptorErrorKind`. -/
def descriptorErrorKind (descriptor : Descriptor) (code : GoString) : Option ErrorKind :=
  match builtinErrorKind code with
  | some kind => some kind
  | none =>
    match descriptor.errors.find? (fun spec => spec.code == code) with
    | some spec => if spec.kind.valid then some spec.kind else none
    | none => none

/-- The built-in codes that a handler may use. -/
def handlerCodes : List GoString :=
  [codeValidationFailed, codePreconditionFailed, codePlanStale, codeLimitExceeded]

/-- `handlerErrorKind`. -/
def handlerErrorKind (descriptor : Descriptor) (code : GoString) : Option ErrorKind :=
  match builtinErrorKind code with
  | some kind => if code ∈ handlerCodes then some kind else none
  | none =>
    match descriptorErrorKind descriptor code with
    | some kind => if kind = .denied ∨ kind = .internal then none else some kind
    | none => none

/-- The type assertion `candidate.(*action.Error)`, with the nil pointers: `some none` is one. -/
def actionPointer (heap : Heap) : Err → Option (Option (Envelope × Err))
  | .action _ envelope cause => some (some (envelope, cause))
  | .foreign a =>
    match heap a with
    | .actionError envelope cause => some (some (envelope, cause))
    | .typedNil ofActionError => if ofActionError then some none else none
    | .trusted _ => none
    | .untrusted => none
  | _ => none

/-- `uniqueActionError`: the only action error of the graph, if it has exactly one and no nil one.
Two errors are the same when they are the same pointer. -/
def uniqueActionError (heap : Heap) (err : Err) : Option (Envelope × Err) :=
  let candidates := (walk heap err).filter fun e => (actionPointer heap e).isSome
  if candidates.any fun e => actionPointer heap e == some none then none
  else
    match candidates.dedup with
    | [e] => (actionPointer heap e).join
    | _ => none

/-- `invalidHandlerFailure`. -/
def invalidHandlerFailure (cause : Err) : Err :=
  .action fresh
    { code := codeInternal, kind := .internal, message := .utf8 "handler returned an invalid error" }
    cause

/-- `normalizeHandlerFailure`. -/
def normalizeHandlerFailure (heap : Heap) (err : Err) (descriptor : Descriptor) : Err :=
  if err = .nil then .nil
  else
    match uniqueActionError heap err with
    | none => invalidHandlerFailure err
    | some (envelope, _) =>
      match handlerErrorKind descriptor envelope.code with
      | none => invalidHandlerFailure err
      | some kind =>
        if (envelope.kind ≠ .unset ∧ envelope.kind ≠ kind) ∨
            validErrorMessage envelope.message = false then invalidHandlerFailure err
        else .action fresh { code := envelope.code, kind := kind, message := envelope.message } err

/-! ### The last gate -/

/-- `invalidRuntimeFailure`. -/
def invalidRuntimeFailure (cause : Err) : Err :=
  .action fresh
    { code := codeInternal, kind := .internal, message := .utf8 "action execution failed" } cause

/-- The kind that the gate gives to an envelope, if it lets it pass. -/
def Envelope.finalKind (envelope : Envelope) : Option ErrorKind :=
  if validErrorMessage envelope.message = false then none
  else
    match builtinErrorKind envelope.code with
    | some kind => if envelope.kind ≠ .unset ∧ envelope.kind ≠ kind then none else some kind
    | none =>
      if validCustomErrorCode envelope.code = false ∨ envelope.kind.valid = false ∨
          envelope.kind = .internal then none
      else some envelope.kind

/-- `finalizeRuntimeFailure`. -/
def finalizeRuntimeFailure (heap : Heap) (err : Err) : Err :=
  if err = .nil then .nil
  else
    match findActionError heap err with
    | none => invalidRuntimeFailure err
    | some (envelope, cause) =>
      match Envelope.finalKind envelope with
      | none => invalidRuntimeFailure err
      | some kind =>
        if envelope.kind = kind then err else .action fresh { envelope with kind := kind } cause

end Modary.Runtime.Failures
