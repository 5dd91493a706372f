import Modary.Governed.IdempotencyStore
import Modary.Runtime.OwnRecords

/-! # A handler's business error

What a caller sees of an error that `Handler.Execute` returned, with and without an idempotency key.
With a key the reservation is released first, on the session of the transaction; when that statement
fails too, the two failures are joined and the caller sees an internal error. -/

namespace Modary.Runtime.Rejection

open Modary.Lib.GoText Modary.Lib.Prog Modary.Lib.Traversal
open Modary.Action.Authz Modary.Action.Errors Modary.Action.Types
open Modary.Action.Persistence Modary.Runtime.Failures Modary.Runtime.Callback
open Modary.Runtime.Transaction Modary.Runtime.Environment Modary.Runtime.Engine
open Modary.Runtime.Faults Modary.Runtime.Traces Modary.Runtime.Consulting Modary.Runtime.Runs

/-! ### What is seen of an error -/

/-- The code, the kind and the message of an error. -/
structure Face where
  code : GoString
  kind : ErrorKind
  message : GoString
  deriving DecidableEq, Repr

/-- The face of the first action error of a graph. -/
def faceOf (heap : Heap) (err : Err) : Option Face :=
  (findActionError heap err).map fun p => ⟨p.1.code, p.1.kind, p.1.message⟩

/-- What is shown when the last gate stops an error. -/
def internalFace : Face := ⟨codeInternal, .internal, .utf8 "action execution failed"⟩

/-- The error is a valid business error of the action, and this is its face. -/
structure Business (heap : Heap) (descriptor : Descriptor) (err : Err) (face : Face) : Prop where
  unique : ∃ envelope cause, uniqueActionError heap err = some (envelope, cause) ∧
    envelope.code = face.code ∧ envelope.message = face.message ∧
    (envelope.kind = .unset ∨ envelope.kind = face.kind)
  declared : handlerErrorKind descriptor face.code = some face.kind
  code : builtinErrorKind face.code = none → validCustomErrorCode face.code = true
  message : validErrorMessage face.message = true

section Faces

variable {heap : Heap} {descriptor : Descriptor} {err : Err} {face : Face}

theorem Business.ne_nil (h : Business heap descriptor err face) : err ≠ .nil := by
  rintro rfl
  obtain ⟨envelope, cause, hu, -⟩ := h.unique
  cases hu

theorem Business.kind_valid (h : Business heap descriptor err face) :
    face.kind.valid = true ∧ face.kind ≠ .internal ∧ face.code ≠ codeInternal ∧
      face.code ≠ .utf8 "" := by
  have hd := h.declared
  unfold handlerErrorKind at hd
  split at hd
  · next kind hb =>
    split at hd
    · next hm =>
      obtain rfl := Option.some.inj hd
      have hcodes : ∀ code ∈ handlerCodes, builtinErrorKind code ≠ some .internal ∧
          code ≠ codeInternal ∧ code ≠ .utf8 "" := by decide
      obtain ⟨h₁, h₂, h₃⟩ := hcodes _ hm
      exact ⟨builtin_valid hb, fun hk => h₁ (hk ▸ hb), h₂, h₃⟩
    · cases hd
  · next hb =>
    have hcustom := h.code hb
    split at hd
    · next kind hk =>
      split at hd
      · cases hd
      · next hne =>
        obtain rfl := Option.some.inj hd
        push Not at hne
        refine ⟨descriptorErrorKind_valid hk, hne.2, ?_, ?_⟩
        · intro hc
          rw [hc] at hb
          exact absurd hb (by decide)
        · intro hc
          rw [hc] at hcustom
          exact absurd hcustom (by decide)
    · cases hd

/-- A built-in code goes with its own kind. -/
theorem Business.builtin (h : Business heap descriptor err face) {kind : ErrorKind}
    (hb : builtinErrorKind face.code = some kind) : kind = face.kind := by
  have hd := h.declared
  unfold handlerErrorKind at hd
  rw [hb] at hd
  simp only at hd
  split at hd
  · exact Option.some.inj hd
  · cases hd

/-- What `normalizeHandlerFailure` makes of a business error. -/
theorem normalize_of_business (h : Business heap descriptor err face) :
    normalizeHandlerFailure heap err descriptor =
      .action fresh { code := face.code, kind := face.kind, message := face.message } err := by
  obtain ⟨envelope, cause, hu, hc, hm, hk⟩ := h.unique
  have hkind : ¬ ((envelope.kind ≠ .unset ∧ envelope.kind ≠ face.kind) ∨
      validErrorMessage envelope.message = false) := by
    rw [hm, h.message]
    rintro (⟨h₁, h₂⟩ | h₃)
    · exact hk.elim h₁ h₂
    · cases h₃
  unfold normalizeHandlerFailure
  simp only [if_neg h.ne_nil, hu, hc, h.declared]
  rw [if_neg hkind, hm]

/-- The governed kind of a business error is its own. -/
theorem governedKind_of_business (h : Business heap descriptor err face) :
    Envelope.governedKind { code := face.code, kind := face.kind, message := face.message } =
      face.kind := by
  unfold Envelope.governedKind
  cases hb : builtinErrorKind face.code with
  | some kind =>
    obtain rfl := h.builtin hb
    simp
  | none => simp [h.kind_valid.1]

/-- The way out of an error: the request is written over it twice, and the gate looks at it. -/
def Emerges (heap : Heap) (err out : Err) : Prop :=
  ∃ request permission request' permission', out = finalizeRuntimeFailure heap
    (withRequest heap (withRequest heap err request permission) request' permission')

/-- A business error that was proven rolled back shows its own face. -/
theorem faceOf_business (h : Business heap descriptor err face) {manager out : Err}
    (ho : Emerges heap (newTransactionOperationFailure heap
      (normalizeHandlerFailure heap err descriptor) manager) out) :
    faceOf heap out = some face := by
  obtain ⟨request, permission, request', permission', rfl⟩ := ho
  obtain ⟨hv, hni, hci, hce⟩ := h.kind_valid
  have hmsg : face.message ≠ .utf8 "" := by
    intro he
    have := h.message
    rw [he] at this
    exact absurd this (by decide)
  rw [normalize_of_business h]
  have hgov := governedKind_of_business h
  have hop : ∀ cause, newTransactionOperationFailure heap
      (.action fresh { code := face.code, kind := face.kind, message := face.message } cause) manager =
      .action fresh { code := face.code, kind := face.kind, message := face.message }
        (.outcomeError .actionruntime manager .nil) := by
    intro cause
    simp [newTransactionOperationFailure, surfacedCode, surfacedMessage, asActionError, hce, hmsg,
      errorKindOf, hgov]
  have hfinal : ∀ envelope : Envelope, envelope.code = face.code → envelope.kind = face.kind →
      envelope.message = face.message → Envelope.finalKind envelope = some face.kind := by
    intro envelope h₁ h₂ h₃
    unfold Envelope.finalKind
    rw [h₁, h₂, h₃, h.message]
    cases hb : builtinErrorKind face.code with
    | some kind =>
      obtain rfl := h.builtin hb
      simp
    | none => simp [h.code hb, hv, hni]
  rw [hop]
  simp only [withRequest, findActionError_action, Envelope.forRequest, hv, if_true,
    finalizeRuntimeFailure, reduceCtorEq, if_false]
  rw [hfinal _ rfl rfl rfl]
  simp [faceOf]

/-- The first action error of a join may stand right behind it. -/
theorem findActionError_join (serial : ℕ) (envelope : Envelope) (cause second : Err) :
    findActionError heap (.join (.action serial envelope cause) second) = some (envelope, cause) := by
  have hchildren : (unwrapTrusted heap (.join (.action serial envelope cause) second)).take 63 =
      .action serial envelope cause :: (one second).take 62 := by
    simp [unwrapTrusted, one]
  rw [findActionError, walk_eq_cons heap (by simp), hchildren, visit_cons (by simp)]
  rfl

/-- A failure that is joined with another one shows an internal error. -/
theorem faceOf_joined (h : Business heap descriptor err face) {manager abortErr out : Err}
    (hi : Internal abortErr)
    (ho : Emerges heap (newTransactionOperationFailure heap
      (errorsJoin (normalizeHandlerFailure heap err descriptor) abortErr) manager) out) :
    faceOf heap out = some internalFace := by
  obtain ⟨request, permission, request', permission', rfl⟩ := ho
  obtain ⟨hv, hni, -, -⟩ := h.kind_valid
  obtain ⟨message, cause, rfl⟩ := hi
  rw [normalize_of_business h]
  have hgov := governedKind_of_business h
  -- the join is no action error, but the first one behind it gives its kind
  have hop : newTransactionOperationFailure heap (.join (.action fresh
      { code := face.code, kind := face.kind, message := face.message } err)
      (actionError codeInternal message cause)) manager =
      .action fresh
        { code := codeInternal, kind := face.kind
          message := .utf8 "action transaction operation failed" }
        (.outcomeError .actionruntime manager .nil) := by
    unfold newTransactionOperationFailure errorKindOf
    rw [findActionError_join]
    simp [surfacedCode, surfacedMessage, asActionError, hgov]
  have hstop : ∀ envelope : Envelope, envelope.code = codeInternal → envelope.kind = face.kind →
      Envelope.finalKind envelope = none := by
    intro envelope h₁ h₂
    have hb : builtinErrorKind codeInternal = some .internal := by decide
    have hu : face.kind ≠ .unset := by
      intro hu
      rw [hu] at hv
      cases hv
    unfold Envelope.finalKind
    rw [h₁, h₂, hb]
    simp [hu, hni]
  have hjoin : ∀ first second : Err, first ≠ .nil → errorsJoin first second = .join first second := by
    intro first second hne
    simp [errorsJoin, hne]
  rw [hjoin _ _ (by simp), hop]
  simp only [withRequest, findActionError_action, Envelope.forRequest, hv, if_true,
    finalizeRuntimeFailure, reduceCtorEq, if_false]
  rw [hstop _ rfl rfl]
  simp [faceOf, invalidRuntimeFailure, internalFace]

end Faces

/-! ### The trace of a rejection -/

/-- The handler returned an error. -/
def rejects : Environment.Call → Bool
  | ⟨.handlerExecute _ _, reply⟩ =>
    match (reply : Reply Result) with
    | .returned _ err => err != .nil
    | .panicked => false
  | _ => false

/-- The handler has not returned an error. -/
def Untroubled (h : History) : Prop := ∀ c ∈ h, rejects c = false

theorem rejects_eq_false {op : Op} (hop : isExecute op = false) (r : op.Response) :
    rejects ⟨op, r⟩ = false := by
  cases op <;> first | rfl | cases hop

theorem Untroubled.snoc {h : History} {c : Environment.Call} (hu : Untroubled h)
    (hc : rejects c = false) : Untroubled (h ++ [c]) := by
  intro d hd
  rcases List.mem_append.mp hd with hd | hd
  · exact hu d hd
  · rw [List.mem_singleton.mp hd]
    exact hc

theorem untroubled_of_quiet {h : History} (hq : ∀ c ∈ h, quiet c.op = true) : Untroubled h := by
  rintro ⟨op, r⟩ hc
  refine rejects_eq_false ?_ r
  have := hq _ hc
  cases op <;> first | rfl | cases this

theorem Untroubled.append_quiet {h tail : History} (hu : Untroubled h)
    (hq : ∀ c ∈ tail, quiet c.op = true) : Untroubled (h ++ tail) := by
  intro c hc
  rcases List.mem_append.mp hc with hc | hc
  · exact hu c hc
  · exact untroubled_of_quiet hq c hc

/-- **How the reservation is released** after the handler failed with `cause`: the calls, and the
error the operation ends with. -/
inductive Release (key : GoString) (cause : Err) : History → Err → Prop
  | unkeyed (unkeyed : key = .utf8 "") : Release key cause [] cause
  | released (keyed : key ≠ .utf8 "") {record : IdempotencyRecord} {reply : Reply Unit}
      (released : failed reply = false) : Release key cause [⟨.abort .tx record, reply⟩] cause
  | joined (keyed : key ≠ .utf8 "") {record : IdempotencyRecord} {reply : Reply Unit}
      {abortErr : Err} (failure : failed reply = true) (internal : Internal abortErr) :
      Release key cause [⟨.abort .tx record, reply⟩] (errorsJoin cause abortErr)

/-- The operation of a transaction failed because the handler did. -/
def Refused (e : Engine) (key : GoString) (descriptor : Descriptor) (h : History) (op : Err) : Prop :=
  ∃ pre plan value err released, h = pre ++ ⟨.handlerExecute .tx plan, .returned value err⟩ :: released ∧
    Untroubled pre ∧ err ≠ .nil ∧
    Release key (normalizeHandlerFailure e.heap err descriptor) released op

/-- The same for a call of `Execute`, whose result is `r` when the manager proves the rollback. -/
def Reported (e : Engine) (given : Action.Types.Request) (h : History) (out : Err → Prop) : Prop :=
  ∃ registered h' op serial finished tail, ⟨.acquire given.actionID, .found registered⟩ ∈ h ∧
    Refused e given.idempotencyKey registered.descriptor h' op ∧
    h = h' ++ ⟨.finish serial op, finished⟩ :: tail ∧ (∀ c ∈ tail, quiet c.op = true) ∧
    (finished.inTime = true → Proven e.heap finished.reply { serial, cause := op } →
      out (newTransactionOperationFailure e.heap op finished.reply.err))

/-! ### Programs that do not execute -/

/-- The program does not call `Handler.Execute`. -/
def Spared {ε α : Type} (p : Attempt Op Op.Response ε α) : Prop :=
  Attempt.Confined (fun op => isExecute op = false) p

section Spared

variable {ε α β : Type}

theorem Spared.bind {p : Attempt Op Op.Response ε α} {f : α → Attempt Op Op.Response ε β}
    (hp : Spared p) (hf : ∀ a, Spared (f a)) : Spared (p >>= f) := Attempt.Confined.bind hp hf

/-- To ask is not to execute. -/
theorem spares (op : Op) (h : consults op = true) : isExecute op = false := by
  cases op <;> first | rfl | cases h

/-- A program that does not execute leaves the handler untroubled. -/
theorem Spared.untroubled {p : Attempt Op Op.Response ε α} (hp : Spared p) {h : History}
    (h0 : Untroubled h) :
    Attempt.Meets (fun _ _ => True) (fun h' _ => Untroubled h') (fun h' _ => Untroubled h') p h :=
  Attempt.Confined.keeps hp (fun _ _ hu hop r => hu.snoc (rejects_eq_false hop r)) h0

end Spared

/-! ### The parts of an execution -/

section Execution

variable {e : Engine} {h : History} {request : Action.Types.Request} {registered : Registration}
  {startedAt : Time} {plan : Plan}

/-- The handler, the completion of the reservation and the event. -/
theorem meets_executePlan_refused {reservation : Option IdempotencyRecord} (h0 : Untroubled h) :
    Attempt.Meets (fun _ _ => True) (fun h' _ => Untroubled h')
      (fun h' op => Untroubled h' ∨ ∃ value err,
        h' = h ++ [⟨.handlerExecute .tx plan, .returned value err⟩] ∧ err ≠ .nil ∧
          op = normalizeHandlerFailure e.heap err registered.descriptor)
      (executePlan e startedAt request registered plan reservation) h := by
  unfold executePlan
  have weaken : ∀ {β : Type} {p : Step β} {h' : History}, Spared p → Untroubled h' →
      Attempt.Meets (fun _ _ => True) (fun h' _ => Untroubled h')
        (fun h' op => Untroubled h' ∨ ∃ value err,
          h' = h ++ [⟨.handlerExecute .tx plan, .returned value err⟩] ∧ err ≠ .nil ∧
            op = normalizeHandlerFailure e.heap err registered.descriptor) p h' :=
    fun hp hu => (hp.untroubled hu).mono (fun _ _ => id) fun _ _ => Or.inl
  have hcall : Attempt.Meets (fun _ _ => True) (fun h' (_ : Result) => Untroubled h')
      (fun h' op => Untroubled h' ∨ ∃ value err,
        h' = h ++ [⟨.handlerExecute .tx plan, .returned value err⟩] ∧ err ≠ .nil ∧
          op = normalizeHandlerFailure e.heap err registered.descriptor)
      (handlerExecute e registered plan) h := by
    unfold handlerExecute
    refine Attempt.Meets.bind ?_ fun h' result hu =>
      Attempt.Meets.bind (weaken confined_ofExcept hu) fun h'' _ hu' => Attempt.meets_pure.mpr hu'
    refine Attempt.meets_attempt.mpr ⟨trivial, fun reply => ?_⟩
    cases reply with
    | panicked => exact Or.inl (h0.snoc rfl)
    | returned value err =>
      by_cases hn : err = .nil
      · subst hn
        exact h0.snoc rfl
      · simp only [Reply.outcome, if_neg hn]
        exact Or.inr ⟨value, err, rfl, hn, rfl⟩
  refine Attempt.Meets.bind hcall ?_
  intro h' result hu
  refine Attempt.Meets.bind (weaken (p := completeReservation reservation result) ?_ hu) ?_
  · cases reservation with
    | none => exact Attempt.confined_pure
    | some reservation => exact Attempt.confined_attempt rfl
  intro h' _ hu
  refine Attempt.Meets.bind (weaken (p := auditAllowed e startedAt request registered plan result)
    ?_ hu) fun h'' _ hu' => Attempt.meets_pure.mpr hu'
  exact Spared.bind (confined_lift fun h => ⟨rfl, fun _ => trivial⟩) fun _ =>
    Attempt.confined_attempt rfl

/-- The deferred release after a failure. -/
theorem meets_releasing_refused {α : Type} {reservation : IdempotencyRecord} {operation : Step α}
    {Q : History → α → Prop} {E E' : History → Err → Prop}
    (hop : Attempt.Meets (fun _ _ => True) Q E operation h)
    (hE : ∀ h' op reply, E h' op →
      (failed reply = false → E' (h' ++ [⟨.abort .tx reservation, reply⟩]) op) ∧
      (failed reply = true → ∀ abortErr, Internal abortErr →
        E' (h' ++ [⟨.abort .tx reservation, reply⟩]) (errorsJoin op abortErr))) :
    Attempt.Meets (fun _ _ => True) Q E' (releasing reservation operation) h := by
  unfold Attempt.Meets releasing
  rw [ExceptT.run_mk, Prog.meets_bind]
  refine Prog.Meets.mono (fun h' result hr => ?_) hop
  cases result with
  | ok a => exact hr
  | error err =>
    unfold abort Attempt.attempt
    rw [Prog.meets_bind, ExceptT.run_mk, Prog.meets_bind, Prog.meets_request]
    refine ⟨trivial, fun reply => ?_⟩
    rw [Prog.meets_pure]
    dsimp only
    obtain ⟨h₁, h₂⟩ := hE h' err reply hr
    cases hd : Reply.dependency "release idempotency reservation" reply with
    | ok u =>
      obtain rfl := dependency_eq_ok.mp hd
      exact h₁ rfl
    | error abortErr =>
      obtain ⟨hi, hf⟩ := dependency_eq_error hd
      exact h₂ hf abortErr hi

/-- The transaction of an execution. -/
theorem meets_executeBody_refused {record : IdempotencyRecord} (h0 : Untroubled h) :
    Attempt.Meets (fun _ _ => True) (fun h' _ => Untroubled h')
      (fun h' op => Untroubled h' ∨
        Refused e request.idempotencyKey registered.descriptor h' op)
      (executeBody e startedAt request registered record plan) h := by
  have weaken : ∀ {β : Type} {p : Step β} {h' : History}, Spared p → Untroubled h' →
      Attempt.Meets (fun _ _ => True) (fun h' _ => Untroubled h')
        (fun h' op => Untroubled h' ∨
          Refused e request.idempotencyKey registered.descriptor h' op) p h' :=
    fun hp hu => (hp.untroubled hu).mono (fun _ _ => id) fun _ _ => Or.inl
  unfold executeBody
  refine Attempt.Meets.bind (weaken (confined_authorizeWithFallback e spares) h0) ?_
  intro h' intent hu
  refine Attempt.Meets.bind (weaken (confined_authorizeImpact e spares) hu) ?_
  intro h' decision hu
  split
  · next hk =>
    refine (meets_executePlan_refused hu).mono (fun _ _ => id) ?_
    rintro h'' op (hu' | ⟨value, err, rfl, hn, rfl⟩)
    · exact Or.inl hu'
    · exact Or.inr ⟨h', plan, value, err, [], rfl, hu, hn, .unkeyed hk⟩
  next hk =>
  refine Attempt.Meets.bind (weaken (Attempt.confined_attempt rfl) hu) ?_
  intro h' found hu
  cases found with
  | some existing =>
    refine Attempt.Meets.bind (weaken confined_ofExcept hu) fun h'' existing' hu' => ?_
    refine Attempt.Meets.bind (weaken (confined_completedResult e spares) hu') fun h₃ result hu₃ => ?_
    exact Attempt.meets_pure.mpr hu₃
  | none =>
    refine meets_releasing_refused (meets_executePlan_refused hu) ?_
    rintro h'' op reply (hu' | ⟨value, err, rfl, hn, rfl⟩)
    · exact ⟨fun _ => Or.inl (hu'.snoc rfl), fun _ _ _ => Or.inl (hu'.snoc rfl)⟩
    · constructor
      · intro hr
        exact Or.inr ⟨h', plan, value, err, _, List.append_assoc _ _ _, hu, hn, .released hk hr⟩
      · intro hr abortErr hi
        exact Or.inr ⟨h', plan, value, err, _, List.append_assoc _ _ _, hu, hn, .joined hk hr hi⟩

/-- What a transaction makes of an operation that may fail because the handler did. -/
theorem meets_withinTransaction_refused {α : Type} {given : Action.Types.Request}
    {operation : Step α} (h0 : Untroubled h)
    (hop : ∀ serial, Attempt.Meets (fun _ _ => True) (fun h' _ => Untroubled h')
      (fun h' op => op ≠ .nil ∧ (Untroubled h' ∨
        Refused e given.idempotencyKey registered.descriptor h' op) ∧
        ⟨.acquire given.actionID, .found registered⟩ ∈ h')
      operation (h ++ [⟨.begin, .run serial⟩])) :
    Attempt.Meets (fun _ _ => True) (fun h' _ => Untroubled h')
      (fun h' err => Untroubled h' ∨ Reported e given h' (fun failure => err = failure))
      (withinTransaction e operation) h := by
  refine meets_withinTransaction e trivial ?_ ?_
  · intro started err _ _
    exact Or.inl (h0.snoc rfl)
  · intro serial
    refine (hop serial).mono ?_ ?_
    · intro h' a hu
      refine ⟨trivial, fun finished => ⟨fun _ _ => hu.snoc rfl, fun err _ => Or.inl (hu.snoc rfl)⟩⟩
    · rintro h' op ⟨hn, hcase, hacq⟩
      refine ⟨hn, trivial, fun finished => ⟨fun ht hp => ?_, fun hnot err' _ => ?_⟩⟩
      · rcases hcase with hu | hr
        · exact Or.inl (hu.snoc rfl)
        · exact Or.inr ⟨registered, h', op, serial, finished, [], List.mem_append_left _ hacq, hr,
            rfl, by simp, fun _ _ => rfl⟩
      · rcases hcase with hu | hr
        · exact Or.inl (hu.snoc rfl)
        · exact Or.inr ⟨registered, h', op, serial, finished, [], List.mem_append_left _ hacq, hr,
            rfl, by simp, fun ht hp => absurd hp (hnot ht)⟩

/-- More quiet calls leave the report as it is. -/
theorem Reported.append {given : Action.Types.Request} {out out' : Err → Prop} {tail : History}
    (hr : Reported e given h out) (hq : ∀ c ∈ tail, quiet c.op = true)
    (hout : ∀ failure, out failure → out' failure) : Reported e given (h ++ tail) out' := by
  obtain ⟨registered, h', op, serial, finished, rest, ha, href, rfl, hrest, hf⟩ := hr
  refine ⟨registered, h', op, serial, finished, rest ++ tail, List.mem_append_left _ ha, href,
    by simp, ?_, fun ht hp => hout _ (hf ht hp)⟩
  intro c hc
  rcases List.mem_append.mp hc with hc | hc
  · exact hrest c hc
  · exact hq c hc

/-- What an exit of `Execute` reports. -/
def Leaves (e : Engine) (given : Action.Types.Request) (h : History) (exit : Exit) : Prop :=
  Untroubled h ∨ Reported e given h
    (fun failure => ∃ request permission, exit.err = withRequest e.heap failure request permission)

variable {given : Action.Types.Request}

theorem Spared.leaves {α : Type} {p : Governed α} (hp : Spared p) (h0 : Untroubled h) :
    Attempt.Meets (fun _ _ => True) (fun h' _ => Untroubled h') (Leaves e given) p h :=
  (hp.untroubled h0).mono (fun _ _ => id) fun _ _ => Or.inl

/-- The transaction of `Execute` and what follows it. -/
theorem meets_outcome_refused {body : Step Engine.Outcome} (h0 : Untroubled h)
    (hbody : ∀ serial, Attempt.Meets (fun _ _ => True) (fun h' _ => Untroubled h')
      (fun h' op => op ≠ .nil ∧ (Untroubled h' ∨
        Refused e given.idempotencyKey registered.descriptor h' op) ∧
        ⟨.acquire given.actionID, .found registered⟩ ∈ h')
      body (h ++ [⟨.begin, .run serial⟩])) :
    Attempt.Meets (fun _ _ => True) (fun h' _ => Untroubled h') (Leaves e given)
      (do
        let outcome ← decorated e request registered (withinTransaction e body)
        ExceptT.lift (outcome.settle e startedAt request registered)) h := by
  refine Attempt.Meets.bind (Attempt.meets_adapt.mpr
    ((meets_withinTransaction_refused h0 hbody).mono (fun _ _ => id) ?_)) ?_
  · rintro h' err (hu | hr)
    · exact Or.inl hu
    · refine Or.inr ?_
      have happ : Reported e given (h' ++ []) (fun failure => ∃ request' permission,
          withRequest e.heap err request registered.descriptor.permission =
            withRequest e.heap failure request' permission) :=
        hr.append (by simp) fun failure he =>
          ⟨request, registered.descriptor.permission, by rw [he]⟩
      rwa [List.append_nil] at happ
  · intro h' outcome hu
    have hsettle := @meets_settle e given request registered h' startedAt outcome
    refine meets_lift.mpr ((hsettle.weaken fun _ _ _ => trivial).mono ?_)
    rintro h'' result ⟨⟨tail, rfl, hq⟩, -⟩
    exact hu.append_quiet hq

/-- An operation whose errors are not nil, on a history that keeps its past. -/
theorem refused_keeps {A : History → Op → Prop} {Q : History → Engine.Outcome → Prop}
    {body : Step Engine.Outcome} (ha : ⟨.acquire given.actionID, .found registered⟩ ∈ h)
    (hn : Attempt.Meets A Q (Surfaceable e registered.descriptor) body h)
    (hbody : Attempt.Meets (fun _ _ => True) (fun h' _ => Untroubled h')
      (fun h' op => Untroubled h' ∨ Refused e given.idempotencyKey registered.descriptor h' op)
      body h) :
    Attempt.Meets (fun _ _ => True) (fun h' _ => Untroubled h')
      (fun h' op => op ≠ .nil ∧ (Untroubled h' ∨
        Refused e given.idempotencyKey registered.descriptor h' op) ∧
        ⟨.acquire given.actionID, .found registered⟩ ∈ h') body h := by
  have hboth := (hbody.and hn).keeps
    (I := fun h' => ⟨.acquire given.actionID, .found registered⟩ ∈ h')
    (fun h' op hm _ r => List.mem_append_left _ hm) ha
  refine hboth.mono (fun _ _ hq => hq.1.1) ?_
  rintro h' op ⟨⟨hcase, hs⟩, hm⟩
  exact ⟨hs.1, hcase, hm⟩

theorem meets_executeFresh_refused {intent : Decision} {record : IdempotencyRecord}
    (ha : Admitted e given h request registered) (h0 : Untroubled h)
    (hr : ∃ canonical hash, canonicalInput e request.input = .ok (canonical, hash) ∧
      record = requestRecord request registered hash) :
    Attempt.Meets (fun _ _ => True) (fun h' _ => Untroubled h') (Leaves e given)
      (executeFresh e startedAt request registered intent record) h := by
  unfold executeFresh
  have hprepared := @meets_preparePlan e (fun _ _ => True) h request registered intent record
    (fun _ _ _ => trivial) ha.calm
  refine Attempt.Meets.bind (((Spared.leaves (confined_preparePlan e spares) h0).and hprepared).mono
    (fun _ _ hq => hq) fun _ _ hq => hq.1) ?_
  rintro h' ⟨planned, plan⟩ ⟨hu, ⟨seg, rfl⟩, hp⟩
  have hready := hp.ready startedAt (ha.append hp.calm) hr
  obtain rfl : planned = { request with planHash := plan.hash } := hp.planned
  obtain ⟨id, canonical, hash, rfl, -⟩ := ha.normalized
  refine meets_outcome_refused hu fun serial => ?_
  have hfault : faults e.heap (h ++ seg ++ [⟨.begin, .run serial⟩]) = [] := by
    rw [faults_append, hp.calm.2]
    rfl
  exact refused_keeps (List.mem_append_left _ (ha.append hp.calm).acquired) (meets_executeBody hready hfault)
    (meets_executeBody_refused (hu.snoc rfl))

theorem meets_executeReplay_refused {record : IdempotencyRecord}
    (ha : Admitted e given h request registered) (h0 : Untroubled h)
    (hk : request.idempotencyKey ≠ .utf8 "")
    (hr : ∃ canonical hash, canonicalInput e request.input = .ok (canonical, hash) ∧
      record = requestRecord request registered hash) :
    Attempt.Meets (fun _ _ => True) (fun h' _ => Untroubled h') (Leaves e given)
      (executeReplay e startedAt request registered record) h := by
  unfold executeReplay
  have hacc : Accepted e given h request registered record :=
    ⟨ha.calm.1, ha.calm.2, ha.acquired, ha.normalized, ha.passed, hr⟩
  refine meets_outcome_refused h0 fun serial => ?_
  have hfault : faults e.heap (h ++ [⟨.begin, .run serial⟩]) = [] := by
    rw [faults_append, ha.calm.2]
    rfl
  refine refused_keeps (List.mem_append_left _ ha.acquired)
    ((meets_replayBody hacc hk hfault).mono (fun _ _ => id) fun _ _ hb => hb.surfaceable) ?_
  refine (Spared.untroubled ?_ (h0.snoc rfl)).mono (fun _ _ => id) fun _ _ => Or.inl
  unfold replayBody
  refine Spared.bind (Attempt.confined_attempt rfl) fun found => ?_
  cases found with
  | none => exact Attempt.confined_throw
  | some current =>
    refine confined_ofExcept.bind fun existing => ?_
    refine Spared.bind (confined_authorizeWithFallback e spares) fun intent => ?_
    exact Spared.bind (confined_completedResult e spares) fun result => Attempt.confined_pure

theorem meets_executeAdmitted_refused (ha : Admitted e given h request registered) :
    Attempt.Meets (fun _ _ => True) (fun h' _ => Untroubled h') (Leaves e given)
      (executeAdmitted e startedAt request registered) h := by
  have h0 := untroubled_of_quiet ha.calm.1
  unfold executeAdmitted
  have hauth := @meets_authorizeWithFallback e registered.descriptor (fun _ _ => True) h .request
    request .intent {} (.utf8 "") trivial ha.calm.2
  refine Attempt.Meets.bind (Q := fun h' _ => Admitted e given h' request registered)
    (Attempt.meets_adapt.mpr ((hauth.and
      (Spared.untroubled (confined_authorizeWithFallback e spares) h0)).mono ?_ fun _ _ hq => Or.inl hq.2)) ?_
  · rintro h' intent ⟨⟨reply, rfl, -, hf⟩, -⟩
    exact ha.append (ha.calm.snoc rfl hf)
  intro h' intent ha
  have h0 := untroubled_of_quiet ha.calm.1
  have hcheck := @meets_check _ e registered.descriptor (fun _ _ => True) h' _ ha.calm.2
    (own_checkExecute e request registered)
  refine Attempt.Meets.bind (Attempt.meets_adapt.mpr ((hcheck.and
    (Spared.untroubled confined_ofExcept h0)).mono (fun _ _ hq => hq.1) fun _ _ hq => Or.inl hq.2)) ?_
  rintro h'' inputHash ⟨rfl, hc⟩
  have hr := record_of_checkExecute hc
  split
  · exact meets_executeFresh_refused ha h0 hr
  next hk =>
  have hlookup := @meets_lookup e registered.descriptor (fun _ _ => True) h'' .request
    (requestRecord request registered inputHash) trivial ha.calm.2
  refine Attempt.Meets.bind (Q := fun h' _ => Admitted e given h' request registered)
    (Attempt.meets_adapt.mpr ((hlookup.and (Spared.untroubled (Attempt.confined_attempt rfl)
      h0)).mono ?_ fun _ _ hq => Or.inl hq.2)) ?_
  · rintro h' found ⟨⟨rfl, hf⟩, -⟩
    exact ha.append (ha.calm.snoc rfl hf)
  intro h' found ha
  have h0 := untroubled_of_quiet ha.calm.1
  cases found with
  | some existing => exact meets_executeReplay_refused ha h0 hk hr
  | none => exact meets_executeFresh_refused ha h0 hr

/-- **`Engine.Execute`** when the handler returns an error: how its transaction ends, and what is
reported. -/
theorem meets_execute_refused (hasContext : Bool) :
    Prog.Meets (fun _ _ => True)
      (fun h' r => Untroubled h' ∨ Reported e given h'
        (fun failure => ∃ out, r = .error out ∧ Emerges e.heap failure out))
      (execute e hasContext given) [] := by
  refine meets_governed_of (E := fun _ => Leaves e given) (fun _ _ _ => trivial)
    (fun h err hq _ => Or.inl (untroubled_of_quiet hq)) ?_ ?_ ?_
  · intro h nanos id acquired exit hc _ _ _ _
    exact Or.inl (untroubled_of_quiet hc.1)
  · intro h nanos _ request registered _ _ ha _
    exact (meets_executeAdmitted_refused ha).mono (fun _ _ => Or.inl) fun _ _ => id
  · intro h startedAt exit hl
    refine (meets_fail fun _ _ _ => trivial).mono ?_
    rintro h' err ⟨tail, rfl, hq, -, rfl⟩
    rcases hl with hu | hr
    · exact Or.inl (hu.append_quiet hq)
    · refine Or.inr (hr.append hq ?_)
      rintro failure ⟨request, permission, he⟩
      rw [finalize_idem, he]
      exact ⟨_, rfl, request, permission, _, _, rfl⟩

end Execution

/-! ### With and without a key -/

/-- How the server answers a statement. -/
inductive StatementReply
  | done
  | failed
  deriving DecidableEq, Repr

/-- A statement that failed has put the transaction in the aborted state. -/
def aborted (statements : List StatementReply) : Bool := statements.any (· == .failed)

/-- The answer to one more statement, whose own answer would be `own`: in the aborted state every
statement fails. -/
def nextReply (statements : List StatementReply) (own : StatementReply) : StatementReply :=
  if aborted statements then .failed else own

/-- A call of `Execute` whose handler returns `err` after these statements on the session of the
transaction, over a manager that rolls a failed operation back and proves it. The release of a
reservation is one more statement of that session. -/
structure Rejecting (e : Engine) (given : Action.Types.Request) (registered : Registration)
    (err : Err) (statements : List StatementReply) (own : StatementReply) (h : History)
    (result : Except Err Result) : Prop where
  runs : (execute e true given).Runs h result
  acquired : ∀ found, ⟨.acquire given.actionID, .found found⟩ ∈ h → found = registered
  handler : ∃ plan value, ⟨.handlerExecute .tx plan, .returned value err⟩ ∈ h
  release : ∀ record reply, ⟨.abort .tx record, reply⟩ ∈ h →
    failed reply = (nextReply statements own == .failed)
  rollback : ∀ serial op finished, ⟨.finish serial op, finished⟩ ∈ h → op ≠ .nil →
    finished.inTime = true ∧ Proven e.heap finished.reply { serial, cause := op } ∧
      finished.committed = false

/-- The transaction of the call came to its end, and nothing was committed. -/
def RolledBack (h : History) : Prop :=
  (∃ serial op finished, ⟨.finish serial op, finished⟩ ∈ h) ∧
    ∀ serial op finished, ⟨.finish serial op, finished⟩ ∈ h → finished.committed = false

section Parity

variable {e : Engine} {given : Action.Types.Request} {registered : Registration} {err : Err}
  {face : Face} {statements : List StatementReply} {own : StatementReply} {h : History}
  {result : Except Err Result}

/-- Before the handler is called no transaction has ended. -/
theorem not_finish_before {pre post : History} {plan : Plan} {reply : Reply Result}
    (hr : (execute e true given).Runs (pre ++ ⟨.handlerExecute .tx plan, reply⟩ :: post) result) :
    ∀ serial op finished, ⟨.finish serial op, finished⟩ ∉ pre := by
  intro serial op finished hm
  have hcall := (@meets_execute e given true).calls hr.calls
  obtain ⟨-, h₀, serial', job, i, j, hready, -, hpre, -⟩ := hcall
  rw [List.nil_append] at hpre
  rw [hpre] at hm
  rcases List.mem_append.mp hm with hm | hm
  · have := hready.accepted.quiet _ hm
    cases this
  · have hnot : ∀ c ∈ job.reserved i j, isBoundary c.op = false := by
      intro c hc
      simp only [Job.reserved, Job.cleared, Job.ifKeyed, List.mem_append, List.mem_cons,
        List.not_mem_nil, or_false] at hc
      rcases hc with (rfl | rfl) | hc
      · rfl
      · rfl
      · split at hc
        · cases hc
        · rw [List.mem_singleton.mp hc]
          rfl
    rcases List.mem_cons.mp hm with hm | hm
    · cases hm
    · have := hnot _ hm
      cases this

/-- **What a rejection reports**: the release of the reservation decides. -/
theorem Rejecting.reports (hr : Rejecting e given registered err statements own h result)
    (hb : Business e.heap registered.descriptor err face) :
    (∃ out, result = .error out ∧ faceOf e.heap out =
      some (if given.idempotencyKey ≠ .utf8 "" ∧ nextReply statements own = .failed then internalFace
        else face)) ∧ RolledBack h := by
  obtain ⟨plan, value, hm⟩ := hr.handler
  rcases (@meets_execute_refused e given true).result hr.runs with hu | hrep
  · have := hu _ hm
    simp [rejects, hb.ne_nil] at this
  rw [List.nil_append] at hrep
  obtain ⟨found, h', op, serial, finished, tail, ha, href, rfl, hq, hout⟩ := hrep
  obtain rfl := hr.acquired found ha
  obtain ⟨pre, plan', value', err', released, rfl, hpre, hne, hrel⟩ := href
  have hrel' := hrel
  -- the handler returned one error only
  have hsame : err' = err := by
    simp only [List.append_assoc, List.cons_append, List.mem_append, List.mem_cons] at hm
    rcases hm with hm | hm | hm | hm | hm
    · have := hpre _ hm
      simp [rejects, hb.ne_nil] at this
    · cases hm
      rfl
    · cases hrel with
      | unkeyed _ => cases hm
      | released _ _ => cases List.mem_singleton.mp hm
      | joined _ _ _ => cases List.mem_singleton.mp hm
    · cases hm
    · cases hq _ hm
  subst hsame
  have hop : op ≠ .nil := by
    have hn : normalizeHandlerFailure e.heap err' found.descriptor ≠ .nil := by
      rw [normalize_of_business hb]
      simp
    cases hrel with
    | unkeyed _ => exact hn
    | released _ _ => exact hn
    | joined _ _ _ => simp [errorsJoin, hn]
  obtain ⟨htime, hproven, hcommitted⟩ := hr.rollback serial op finished (by simp) hop
  obtain ⟨out, rfl, hem⟩ := hout htime hproven
  refine ⟨⟨out, rfl, ?_⟩, ⟨serial, op, finished, by simp⟩, ?_⟩
  · cases hrel with
    | unkeyed hk =>
      rw [if_neg (by simp [hk])]
      exact faceOf_business hb hem
    | @released hk record reply hf =>
      have hreply := hr.release record reply (by simp)
      rw [hf] at hreply
      rw [if_neg (by rintro ⟨-, hx⟩; rw [hx] at hreply; cases hreply)]
      exact faceOf_business hb hem
    | @joined hk record reply abortErr hf hi =>
      have hreply := hr.release record reply (by simp)
      rw [hf] at hreply
      rw [if_pos ⟨hk, by simpa using hreply.symm⟩]
      exact faceOf_joined hb hi hem
  · intro serial' op' finished' hm'
    have hbefore := not_finish_before (by
      have := hr.runs
      rw [List.append_assoc] at this
      exact this) serial' op' finished'
    simp only [List.append_assoc, List.cons_append, List.mem_append, List.mem_cons] at hm'
    rcases hm' with hm' | hm' | hm' | hm' | hm'
    · exact absurd hm' hbefore
    · cases hm'
    · cases hrel' with
      | unkeyed _ => cases hm'
      | released _ _ => cases List.mem_singleton.mp hm'
      | joined _ _ _ => cases List.mem_singleton.mp hm'
    · cases hm'
      exact hcommitted
    · cases hq _ hm'

/-- **A business error with and without a key.** Both calls roll back. Without a key the caller sees
the error itself; with one it sees the same exactly when the reservation could be released, which an
aborted transaction never allows, and an internal error otherwise. -/
theorem keyed_rejection {plain : History} {plainResult : Except Err Result}
    (hkey : given.idempotencyKey ≠ .utf8 "") (hb : Business e.heap registered.descriptor err face)
    (hk : Rejecting e given registered err statements own h result)
    (hp : Rejecting e { given with idempotencyKey := .utf8 "" } registered err statements own plain
      plainResult) :
    ∃ out plainOut, result = .error out ∧ plainResult = .error plainOut ∧
      faceOf e.heap plainOut = some face ∧
      (faceOf e.heap out = faceOf e.heap plainOut ↔ nextReply statements own = .done) ∧
      (nextReply statements own = .failed → faceOf e.heap out = some internalFace) ∧
      RolledBack h ∧ RolledBack plain := by
  obtain ⟨⟨out, rfl, hout⟩, hroll⟩ := hk.reports hb
  obtain ⟨⟨plainOut, rfl, hplain⟩, hroll'⟩ := hp.reports hb
  rw [if_neg (by simp)] at hplain
  refine ⟨out, plainOut, rfl, rfl, hplain, ?_, ?_, hroll, hroll'⟩
  · rw [hplain, hout]
    cases hn : nextReply statements own with
    | done => simp
    | failed =>
      have hne : internalFace ≠ face := by
        rintro rfl
        exact hb.kind_valid.2.1 rfl
      simp [hkey, hne]
  · intro hn
    rw [hout, if_pos ⟨hkey, hn⟩]

/-! ### Over the store -/

/-- `Abort` of the store on the session of the transaction: a record that it refuses is no statement,
and its `DELETE` is answered as any other statement. -/
def abortReply (checks : Checks) (statements : List StatementReply) (own : StatementReply)
    (record : IdempotencyRecord) (table : List Governed.IdempotencyStore.Row) : Reply Unit :=
  match Governed.IdempotencyStore.abort checks record table with
  | .error text => .returned () (.message text)
  | .ok _ =>
    if nextReply statements own = .done then .returned () .nil
    else .returned () (.message "abort idempotency reservation")

/-- **Over the store a release fails exactly when its statement does**: the engine never releases a
record that the store refuses. -/
theorem release_of_store {render : RawMessage → OwnRecords.Rendered}
    (he : OwnRecords.Assembled e render) (hd : Governed.Columns.Documents e.checks)
    (hruns : (execute e true given).Runs h result)
    (hr : ∀ found, ⟨.acquire given.actionID, .found found⟩ ∈ h → OwnRecords.Bound e found)
    {record : IdempotencyRecord} {table : List Governed.IdempotencyStore.Row}
    (hm : ⟨.abort .tx record, abortReply e.checks statements own record table⟩ ∈ h) :
    failed (abortReply e.checks statements own record table) =
      (nextReply statements own == .failed) := by
  have hvalid : validateIdempotencyReservationRecord e.checks record = .ok () :=
    OwnRecords.persists_of_run he hruns hr _ hm
  obtain ⟨_, hshared, -⟩ := bind_eq_ok.mp hvalid
  obtain ⟨b, hb, -⟩ := Governed.IdempotencyStore.kept_of_execution hd hshared
  unfold abortReply Governed.IdempotencyStore.abort
  rw [hvalid, hb]
  cases nextReply statements own with
  | done => rfl
  | failed => rfl

end Parity

/-! ### A sample rejection -/

/-- The sample handler refuses its input. -/
def sampleRefusal : Err := newError codeValidationFailed (.utf8 "bad input")

theorem business_sampleRefusal : Business sampleEngine.heap sampleRegistration.descriptor
    sampleRefusal ⟨codeValidationFailed, .validation, .utf8 "bad input"⟩ where
  unique := ⟨_, _, rfl, rfl, rfl, Or.inr rfl⟩
  declared := by decide
  code := by decide
  message := by decide

/-- The sample environment with this handler, in which a reservation is released with this reply. -/
def refusingOracle (reply : Reply Unit) : (op : Op) → op.Response
  | .abort _ _ => reply
  | op => ({ handler := .returned {} sampleRefusal } : Scenario).oracle op

/-- The run of `Execute` in it. -/
def refusingRun (reply : Reply Unit) (request : Action.Types.Request) :
    History × Except Err Result :=
  (execute sampleEngine true request).play (refusingOracle reply)

theorem proven_sampleRollback (heap : Heap) (serial : ℕ) (op : Err) :
    Proven heap (sampleRollback serial op).reply { serial, cause := op } := by
  refine ⟨_, root_rolledBack (by simp), rfl, ?_⟩
  exact is_toOpaque heap (by simp [OperationFailure.err])

theorem rejecting_refusingRun {reply : Reply Unit} {request : Action.Types.Request}
    {statements : List StatementReply} {own : StatementReply}
    (hcalled : (refusingRun reply request).1.any rejects = true)
    (hreply : failed reply = (nextReply statements own == .failed)) :
    Rejecting sampleEngine request sampleRegistration sampleRefusal statements own
      (refusingRun reply request).1 (refusingRun reply request).2 where
  runs := Prog.runs_play _ _
  acquired found hm := by
    have := Prog.reply_of_mem_play _ hm
    cases this
    rfl
  handler := by
    obtain ⟨⟨op, r⟩, hm, hc⟩ := List.any_eq_true.mp hcalled
    have hr := Prog.reply_of_mem_play _ hm
    cases op with
    | handlerExecute ctx plan =>
      obtain ⟨pre, post, hsplit⟩ := List.append_of_mem hm
      have hruns : (execute sampleEngine true request).Runs
          (pre ++ ⟨.handlerExecute ctx plan, r⟩ :: post) (refusingRun reply request).2 := by
        rw [← hsplit]
        exact Prog.runs_play _ _
      have hctx := (@meets_execute sampleEngine request true).calls hruns.calls
      obtain rfl : ctx = .tx := hctx.1
      obtain rfl : r = .returned {} sampleRefusal := hr
      exact ⟨plan, {}, hm⟩
    | _ => cases hc
  release record r hm := by
    have hr : r = reply := Prog.reply_of_mem_play _ hm
    rw [hr]
    exact hreply
  rollback serial op finished hm hn := by
    have hr : finished = if op = .nil then sampleCommit else sampleRollback serial op :=
      Prog.reply_of_mem_play _ hm
    rw [if_neg hn] at hr
    subst hr
    exact ⟨rfl, proven_sampleRollback _ serial op, rfl⟩

/-- The sample request without its key. -/
def plainRequest : Action.Types.Request := { sampleRequest with idempotencyKey := .utf8 "" }

/-- After statements that all succeeded the key makes no difference. -/
theorem keyed_rejection_sample : ∃ out plainOut,
    (refusingRun (.returned () .nil) sampleRequest).2 = .error out ∧
    (refusingRun (.returned () .nil) plainRequest).2 = .error plainOut ∧
    faceOf sampleEngine.heap out = faceOf sampleEngine.heap plainOut := by
  have hk := @rejecting_refusingRun (.returned () .nil) sampleRequest [.done] .done
    (by decide +kernel) (by decide)
  have hp := @rejecting_refusingRun (.returned () .nil) plainRequest [.done] .done
    (by decide +kernel) (by decide)
  obtain ⟨out, plainOut, h₁, h₂, -, hiff, -⟩ :=
    keyed_rejection (by decide) business_sampleRefusal hk hp
  exact ⟨out, plainOut, h₁, h₂, hiff.mpr (by decide)⟩

/-- What PostgreSQL answers to a statement of a transaction that a failed one has aborted. -/
def abortedReply : Reply Unit := .returned () (.message "current transaction is aborted")

/-- After a statement that failed the key hides the business error. -/
theorem aborted_release_hides_error :
    ¬ ∀ (e : Engine) (given : Action.Types.Request) (registered : Registration) (err : Err)
      (face : Face) (statements : List StatementReply) (h plain : History)
      (out plainOut : Err), given.idempotencyKey ≠ .utf8 "" →
      Business e.heap registered.descriptor err face →
      Rejecting e given registered err statements .done h (.error out) →
      Rejecting e { given with idempotencyKey := .utf8 "" } registered err statements .done plain
        (.error plainOut) →
      faceOf e.heap out = faceOf e.heap plainOut := by
  intro hall
  have hk := @rejecting_refusingRun abortedReply sampleRequest [.failed] .done
    (by decide +kernel) (by decide)
  have hp := @rejecting_refusingRun abortedReply plainRequest [.failed] .done
    (by decide +kernel) (by decide)
  obtain ⟨⟨out, ho, hface⟩, -⟩ := hk.reports business_sampleRefusal
  obtain ⟨⟨plainOut, hpo, hplain⟩, -⟩ := hp.reports business_sampleRefusal
  rw [ho] at hk
  rw [hpo] at hp
  have := hall sampleEngine sampleRequest sampleRegistration sampleRefusal _ [.failed] _ _ out
    plainOut (by decide) business_sampleRefusal hk hp
  rw [hface, hplain] at this
  exact absurd this (by decide)

end Modary.Runtime.Rejection
