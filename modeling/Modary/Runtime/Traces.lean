import Modary.Runtime.Faults

/-! # Traces of an execution

What `Engine.Execute` calls, and in which order. Every transaction that ends well has one of three
traces: an execution, a replay found when the reservation is made, a replay found before. -/

namespace Modary.Runtime.Traces

open Modary.Lib.GoText Modary.Lib.Prog
open Modary.Action.Authz Modary.Action.Errors Modary.Action.Types
open Modary.Action.Persistence Modary.Runtime.Failures
open Modary.Runtime.Transaction Modary.Runtime.Environment Modary.Runtime.Engine
open Modary.Runtime.Faults

/-- The calls made so far, with their replies. -/
abbrev History := List Environment.Call

/-! ### Rules for the parts of the engine -/

section Rules

variable {α : Type} {A : History → Op → Prop} {Q : History → α → Prop} {E : History → Err → Prop}
  {h : History}

theorem meets_ofExcept {x : Except Err α} :
    Attempt.Meets A Q E (Step.ofExcept x) h ↔ Attempt.post Q E h x := by
  cases x <;> exact Iff.rfl

/-- A program that cannot fail, inside one that can. -/
theorem meets_lift {ε : Type} {E : History → ε → Prop} {p : Program α} :
    Attempt.Meets A Q E (ExceptT.lift p : Attempt Op Op.Response ε α) h ↔ p.Meets A Q h := by
  unfold Attempt.Meets
  show Prog.Meets A (Attempt.post Q E) (p >>= fun a => pure (.ok a)) h ↔ _
  rw [Prog.meets_bind]
  exact Iff.rfl

/-- What `withinTransaction` makes of the window when the operation has succeeded. -/
theorem settle_of_success (heap : Heap) (serial : ℕ) (finished : Finished) :
    let window :=
      if finished.inTime then Window.seen (.run (.returned .nil)) else .violated none
    (finished.reply = .returned .nil ∧ finished.inTime = true ∧
      window.settle heap serial finished.reply = .nil) ∨
    Internal (window.settle heap serial finished.reply) := by
  dsimp only
  split
  · next ht =>
    rcases settle_cases heap finished.reply
      (Window.snapshot serial (.seen (.run (.returned .nil)))) none with h | h | ⟨f, -, h, -⟩
    · exact Or.inl ⟨ManagerReply.err_eq_nil.mp h.2.2.2, ht, h.1⟩
    · exact Or.inr h.1
    · cases h
  · exact Or.inr (internal_contractViolation _ _)

/-- A failed operation is not turned into a success. -/
theorem settle_of_failure (heap : Heap) (serial : ℕ) (finished : Finished) {err : Err}
    (hn : err ≠ .nil) :
    let call := Transaction.Call.run (.returned err)
    let window := if finished.inTime then Window.seen call else .violated (call.failure serial)
    (finished.inTime = true ∧ Proven heap finished.reply { serial, cause := err } ∧
      window.settle heap serial finished.reply =
        newTransactionOperationFailure heap err finished.reply.err) ∨
    ((finished.inTime = true → ¬ Proven heap finished.reply { serial, cause := err }) ∧
      Internal (window.settle heap serial finished.reply)) := by
  have hf : Transaction.Call.failure serial (.run (.returned err)) = some { serial, cause := err } := by
    simp [Transaction.Call.failure, hn]
  have hr := Call.result_eq hf
  dsimp only
  split
  · next ht =>
    have hs : Window.settle heap serial finished.reply (.seen (.run (.returned err))) =
        settleFailure heap finished.reply
          (Window.snapshot serial (.seen (.run (.returned err)))) { serial, cause := err } := by
      simp [Window.settle, Window.failure, hf, Transaction.settle, Window.snapshot,
        Callback.outcome_once]
    by_cases hp : Proven heap finished.reply { serial, cause := err }
    · refine Or.inl ⟨ht, hp, ?_⟩
      rw [hs, settleFailure_of_proven (by exact hr) rfl rfl hp]
    · refine Or.inr ⟨fun _ => hp, ?_⟩
      rw [hs]
      exact settleFailure_internal (Or.inr (Or.inr hp))
  · next ht => exact Or.inr ⟨fun h => absurd h ht, internal_contractViolation _ _⟩

/-- The rule of `withinTransaction`: what the operation does between `begin` and `finish`, and what
the manager's reply then makes of it. -/
theorem meets_withinTransaction (e : Engine) {operation : Step α} (hb : A h .begin)
    (hskip : ∀ started err, (∀ serial, started ≠ .run serial) → Internal err →
      E (h ++ [⟨.begin, started⟩]) err)
    (hrun : ∀ serial, Attempt.Meets A
      (fun h' a => A h' (.finish serial .nil) ∧ ∀ finished : Finished,
        (finished.reply = .returned .nil → finished.inTime = true →
          Q (h' ++ [⟨.finish serial .nil, finished⟩]) a) ∧
        ∀ err, Internal err → E (h' ++ [⟨.finish serial .nil, finished⟩]) err)
      (fun h' err => err ≠ .nil ∧ A h' (.finish serial err) ∧ ∀ finished : Finished,
        (finished.inTime = true → Proven e.heap finished.reply { serial, cause := err } →
          E (h' ++ [⟨.finish serial err, finished⟩])
            (newTransactionOperationFailure e.heap err finished.reply.err)) ∧
        ((finished.inTime = true → ¬ Proven e.heap finished.reply { serial, cause := err }) →
          ∀ err', Internal err' → E (h' ++ [⟨.finish serial err, finished⟩]) err'))
      operation (h ++ [⟨.begin, .run serial⟩])) :
    Attempt.Meets A Q E (withinTransaction e operation) h := by
  unfold Attempt.Meets withinTransaction ask
  rw [ExceptT.run_mk, Prog.meets_bind, Prog.meets_request]
  refine ⟨hb, fun started => ?_⟩
  cases started with
  | unused reply =>
    refine hskip _ _ (by simp) ?_
    rcases settle_cases e.heap reply (Window.snapshot 0 .unused) none with h | h | ⟨f, -, h, -⟩
    · exact absurd h.2.1 (by simp [Window.snapshot, Callback.outcome_none])
    · exact h.1
    · cases h
  | nilContext serial reply =>
    refine hskip _ _ (by simp) ?_
    have hs : Window.settle e.heap serial reply (.seen .nilContext) =
        settleFailure e.heap reply (Window.snapshot serial (.seen .nilContext))
          { serial, cause := .sentinel .transactionManagerContract, invalidContext := true } := rfl
    rw [hs]
    exact settleFailure_internal (Or.inl rfl)
  | violated reply => exact hskip _ _ (by simp) (internal_contractViolation _ _)
  | run serial =>
    dsimp only
    rw [Prog.meets_bind]
    refine Prog.Meets.mono (fun h' result hr => ?_) (hrun serial)
    cases result with
    | ok a =>
      obtain ⟨h1, h2⟩ := hr
      rw [Prog.meets_bind, Prog.meets_request]
      refine ⟨h1, fun finished => ?_⟩
      obtain ⟨h3, h4⟩ := h2 finished
      rcases settle_of_success e.heap serial finished with ⟨hr, ht, hs⟩ | hi
      · dsimp only at hs ⊢
        rw [ht] at hs ⊢
        simp only [if_true] at hs ⊢
        rw [hs]
        exact h3 hr ht
      · obtain ⟨message, cause, hi⟩ := hi
        have hc : Transaction.Call.failure serial (.run (.returned .nil)) = none := rfl
        dsimp only at hi ⊢
        rw [hc, hi]
        exact h4 _ ⟨message, cause, rfl⟩
    | error err =>
      obtain ⟨hn, h1, h2⟩ := hr
      rw [Prog.meets_bind, Prog.meets_request]
      refine ⟨h1, fun finished => ?_⟩
      obtain ⟨h3, h4⟩ := h2 finished
      rcases settle_of_failure e.heap serial finished hn with ⟨ht, hp, hs⟩ | ⟨hp, hs⟩
      · dsimp only at hs ⊢
        rw [hs]
        exact h3 ht hp
      · exact h4 hp _ hs

end Rules

/-! ### Single calls -/

section Calls

variable {α : Type} (e : Engine) (descriptor : Descriptor) {A : History → Op → Prop} {h : History}

/-- The error may be reported after the faults of this history. -/
def Blamed (h : History) (err : Err) : Prop :=
  Fit e.heap (Ruling descriptor (faults e.heap h)) err

/-- The same, and no plan was missing, so that an internal error may be reported too. -/
def BlamedInside (h : History) (err : Err) : Prop :=
  Blamed e descriptor h err ∧ .planMissing ∉ faults e.heap h

/-- The error of an operation inside a transaction: what is surfaced of it may be reported. -/
def Surfaceable (h : History) (err : Err) : Prop :=
  err ≠ .nil ∧ .planMissing ∉ faults e.heap h ∧
    ∀ manager, Blamed e descriptor h (newTransactionOperationFailure e.heap err manager)

variable {e descriptor}

theorem BlamedInside.surfaceable {err : Err} (hb : BlamedInside e descriptor h err) :
    Surfaceable e descriptor h err :=
  ⟨hb.1.1, hb.2, fun manager =>
    hb.1.operationFailure (fun _ => Ruling.known) (ruling_internal descriptor hb.2) manager⟩

/-- The rule of a single call. -/
theorem meets_call {op : Op} {f : op.Response → Except Err α} (hA : A h op)
    (h0 : faults e.heap h = []) (hok : ∀ r a, f r = .ok a → fault e.heap ⟨op, r⟩ = none)
    (herr : ∀ r err, f r = .error err → BlamedInside e descriptor [⟨op, r⟩] err) :
    Attempt.Meets A (fun h' a => ∃ r, h' = h ++ [⟨op, r⟩] ∧ f r = .ok a ∧ faults e.heap h' = [])
      (BlamedInside e descriptor) (Attempt.attempt op f) h := by
  refine Attempt.meets_attempt.mpr ⟨hA, fun r => ?_⟩
  have hf : faults e.heap (h ++ [⟨op, r⟩]) = faults e.heap [⟨op, r⟩] := by simp [h0]
  cases hr : f r with
  | ok a =>
    refine ⟨r, rfl, hr, ?_⟩
    rw [hf, faults_cons, hok r a hr]
    rfl
  | error err =>
    have := herr r err hr
    unfold BlamedInside Blamed at this
    rw [← hf] at this
    exact this

theorem blamed_of_own {err : Err} (h0 : faults e.heap h = []) (ho : Own err) :
    BlamedInside e descriptor h err := by
  unfold BlamedInside Blamed
  rw [h0]
  exact ⟨ho.fit e.heap fun _ => ruling_of_builtin, by simp⟩

theorem blamed_of_internal {err : Err} (hm : .planMissing ∉ faults e.heap h) (hi : Internal err) :
    BlamedInside e descriptor h err :=
  ⟨Fit.of_internal (ruling_internal descriptor hm) hi, hm⟩

theorem BlamedInside.withRequest {err : Err} (hb : BlamedInside e descriptor h err)
    (request : Action.Types.Request) (permission : GoString) :
    BlamedInside e descriptor h (withRequest e.heap err request permission) :=
  ⟨Fit.withRequest hb.1 request permission, hb.2⟩

/-- The rule of a check. -/
theorem meets_check {x : Except Err α} (h0 : faults e.heap h = []) (hx : Fails Own x) :
    Attempt.Meets A (fun h' a => h' = h ∧ x = .ok a) (BlamedInside e descriptor) (Step.ofExcept x)
      h := by
  refine meets_ofExcept.mpr ?_
  cases x with
  | ok a => exact ⟨rfl, rfl⟩
  | error err => exact blamed_of_own h0 (hx err rfl)

theorem meets_authorizeWithFallback {ctx : Ctx} {request : Action.Types.Request} {phase : Phase}
    {impact : Impact} {fallback : GoString}
    (hA : A h (.authorize ctx (authzRequest request descriptor phase impact)))
    (h0 : faults e.heap h = []) :
    Attempt.Meets A
      (fun h' decision => ∃ reply,
        h' = h ++ [⟨.authorize ctx (authzRequest request descriptor phase impact), reply⟩] ∧
        judge e request descriptor fallback reply = .ok decision ∧ faults e.heap h' = [])
      (BlamedInside e descriptor)
      (authorizeWithFallback e ctx request descriptor phase impact fallback) h := by
  refine meets_call hA h0 (fun r a hr => ?_) fun r err hr => ?_
  · obtain ⟨given, rfl, hg⟩ := judge_ok e hr
    simp [fault, authorizeFault, hg.allowed]
  · have hf : faults e.heap
        [⟨.authorize ctx (authzRequest request descriptor phase impact), r⟩] =
        (authorizeFault r).toList := by
      rw [faults_cons, faults_nil, List.append_nil]
      rfl
    unfold BlamedInside Blamed
    rw [hf]
    exact ⟨judge_error e hr, planMissing_authorizeFault r⟩

theorem meets_authorizeImpact {ctx : Ctx} {request : Action.Types.Request} {intent : Decision}
    {impact : Impact} {expected : GoString}
    (hA : A h (.authorize ctx (authzRequest request descriptor .impact impact)))
    (h0 : faults e.heap h = []) :
    Attempt.Meets A
      (fun h' decision => ∃ reply,
        h' = h ++ [⟨.authorize ctx (authzRequest request descriptor .impact impact), reply⟩] ∧
        judge e request descriptor intent.fingerprint reply = .ok decision ∧
        enforceConstraints decision impact = .ok () ∧
        (expected ≠ .utf8 "" → decision.fingerprint = expected) ∧ faults e.heap h' = [])
      (BlamedInside e descriptor)
      (authorizeImpact e ctx request descriptor intent impact expected) h := by
  unfold authorizeImpact
  refine (meets_authorizeWithFallback hA h0).bind ?_
  rintro h' decision ⟨reply, rfl, hj, h0'⟩
  split
  · next err he =>
    exact (blamed_of_own h0' (own_enforceConstraints _ _ err he)).withRequest _ _
  next he =>
  split
  · exact (blamed_of_own h0' (own_newError rfl _)).withRequest _ _
  next hf =>
  refine Attempt.meets_pure.mpr ⟨reply, rfl, hj, he, fun hn => ?_, h0'⟩
  by_contra hc
  exact hf ⟨hn, hc⟩

/-- The rule of a call whose failure is an internal error. -/
theorem meets_dependency {β : Type} {op : Op} {f : op.Response → Except Err β}
    (hf : ∀ r err, f r = .error err → Internal err ∧ fault e.heap ⟨op, r⟩ = some .dependency)
    (hok : ∀ r a, f r = .ok a → fault e.heap ⟨op, r⟩ = none) (hA : A h op)
    (h0 : faults e.heap h = []) :
    Attempt.Meets A (fun h' a => ∃ r, h' = h ++ [⟨op, r⟩] ∧ f r = .ok a ∧ faults e.heap h' = [])
      (BlamedInside e descriptor) (Attempt.attempt op f) h := by
  refine meets_call hA h0 hok fun r err hr => ?_
  obtain ⟨hi, hd⟩ := hf r err hr
  exact blamed_of_internal (by rw [faults_cons, hd]; simp) hi

theorem meets_currentTime (hA : A h (.clock .decision)) (h0 : faults e.heap h = []) :
    Attempt.Meets A
      (fun h' now => ∃ nanos : ℤ, now = { nanos } ∧ h' = h ++ [⟨.clock .decision, some nanos⟩] ∧
        faults e.heap h' = [])
      (BlamedInside e descriptor) currentTime h := by
  refine (meets_dependency ?_ ?_ hA h0).mono ?_ fun _ _ => id
  · intro r err hr
    cases r with
    | some nanos => cases hr
    | none =>
      obtain rfl := Except.error.inj hr
      exact ⟨⟨_, _, rfl⟩, rfl⟩
  · intro r a hr
    cases r with
    | some nanos => rfl
    | none => cases hr
  · rintro h' now ⟨r, rfl, hr, hf⟩
    cases r with
    | some nanos =>
      obtain rfl := Except.ok.inj hr
      exact ⟨nanos, rfl, rfl, hf⟩
    | none => cases hr

theorem internal_of_dependency {β : Type} {reply : Reply β} {label : String} {err : Err}
    (hr : reply.dependency label = .error err) :
    Internal err ∧ (if failed reply then some Fault.dependency else none) = some .dependency := by
  obtain ⟨hi, hf⟩ := dependency_eq_error hr
  exact ⟨hi, by simp [hf]⟩

theorem faultless_of_dependency {β : Type} {reply : Reply β} {label : String} {value : β}
    (hr : reply.dependency label = .ok value) :
    (if failed reply then some Fault.dependency else none) = none := by
  obtain rfl := dependency_eq_ok.mp hr
  rfl

theorem meets_lookup {ctx : Ctx} {record : IdempotencyRecord} (hA : A h (.lookup ctx record))
    (h0 : faults e.heap h = []) :
    Attempt.Meets A
      (fun h' found => h' = h ++ [⟨.lookup ctx record, .returned found .nil⟩] ∧
        faults e.heap h' = [])
      (BlamedInside e descriptor) (lookup ctx record) h := by
  refine (meets_dependency (fun _ _ => internal_of_dependency)
    (fun _ _ => faultless_of_dependency) hA h0).mono ?_ fun _ _ => id
  rintro h' found ⟨r, rfl, hr, hf⟩
  obtain rfl := dependency_eq_ok.mp hr
  exact ⟨rfl, hf⟩

theorem meets_reserve {record : IdempotencyRecord} (hA : A h (.reserve .tx record))
    (h0 : faults e.heap h = []) :
    Attempt.Meets A
      (fun h' found => h' = h ++ [⟨.reserve .tx record, .returned found .nil⟩] ∧
        faults e.heap h' = [])
      (BlamedInside e descriptor) (reserve record) h := by
  refine (meets_dependency (fun _ _ => internal_of_dependency)
    (fun _ _ => faultless_of_dependency) hA h0).mono ?_ fun _ _ => id
  rintro h' found ⟨r, rfl, hr, hf⟩
  obtain rfl := dependency_eq_ok.mp hr
  exact ⟨rfl, hf⟩

theorem meets_complete {record : IdempotencyRecord} (hA : A h (.complete .tx record))
    (h0 : faults e.heap h = []) :
    Attempt.Meets A
      (fun h' _ => h' = h ++ [⟨.complete .tx record, .returned () .nil⟩] ∧ faults e.heap h' = [])
      (BlamedInside e descriptor) (complete record) h := by
  refine (meets_dependency (fun _ _ => internal_of_dependency)
    (fun _ _ => faultless_of_dependency) hA h0).mono ?_ fun _ _ => id
  rintro h' found ⟨r, rfl, hr, hf⟩
  obtain rfl := dependency_eq_ok.mp hr
  exact ⟨rfl, hf⟩

/-- The first action error behind a failed audit record is the internal one of the call. -/
theorem findActionError_requiredAudit (heap : Heap) {err : Err} (hi : Internal err) :
    ∃ message cause, findActionError heap (.requiredAuditError err) =
      some ({ code := codeInternal, message := .utf8 message }, cause) := by
  obtain ⟨message, cause, rfl⟩ := hi
  exact ⟨message, cause, rfl⟩

theorem meets_recordRequired {auditEvent : AuditEvent} (hA : A h (.auditRequired .tx auditEvent))
    (h0 : faults e.heap h = []) :
    Attempt.Meets A
      (fun h' _ => h' = h ++ [⟨.auditRequired .tx auditEvent, .returned () .nil⟩] ∧
        faults e.heap h' = [])
      (BlamedInside e descriptor) (recordRequired auditEvent) h := by
  refine (meets_call hA h0 (fun r a hr => ?_) fun r err hr => ?_).mono ?_ fun _ _ => id
  · split at hr
    · next hd => exact faultless_of_dependency hd
    · cases hr
  · split at hr
    · cases hr
    · next cause hd =>
      obtain rfl := Except.error.inj hr
      obtain ⟨hi, hf⟩ := internal_of_dependency hd
      have hm : Fault.planMissing ∉ faults e.heap [⟨.auditRequired .tx auditEvent, r⟩] := by
        rw [faults_cons, show fault e.heap ⟨.auditRequired .tx auditEvent, r⟩ = _ from hf]
        simp
      have hr := ruling_internal descriptor hm
      obtain ⟨message, cause', hfind⟩ := findActionError_requiredAudit e.heap hi
      refine ⟨⟨by simp, ?_⟩, hm⟩
      rw [hfind]
      exact ⟨by simpa [claimOf] using hr, Or.inl rfl, Or.inl hr⟩
  · rintro h' found ⟨r, rfl, hr, hf⟩
    split at hr
    · next hd =>
      obtain rfl := dependency_eq_ok.mp hd
      exact ⟨rfl, hf⟩
    · cases hr

/-- The fault of a handler's reply. -/
theorem handler_outcome {β : Type} {reply : Reply β} {label : String} :
    (∀ value, reply.outcome label = .ok value →
      (if failed reply then some Fault.handler else none) = none) ∧
    ∀ err, reply.outcome label = .error err →
      err ≠ .nil ∧ (if failed reply then some Fault.handler else none) = some .handler := by
  constructor
  · intro value hr
    obtain rfl := outcome_eq_ok.mp hr
    rfl
  · intro err hr
    obtain ⟨hn, hf⟩ := outcome_eq_error hr
    exact ⟨hn, by simp [hf]⟩

theorem blamed_of_handler {c : Environment.Call} {err : Err}
    (hf : fault e.heap c = some .handler) (hn : err ≠ .nil) :
    BlamedInside e descriptor [c] (normalizeHandlerFailure e.heap err descriptor) := by
  unfold BlamedInside Blamed
  rw [faults_cons, hf]
  exact ⟨fit_normalizeHandlerFailure e hn, by simp⟩

theorem meets_handlerExecute {registered : Registration} {plan : Plan}
    (hA : A h (.handlerExecute .tx plan)) (h0 : faults e.heap h = []) :
    Attempt.Meets A
      (fun h' result => h' = h ++ [⟨.handlerExecute .tx plan, .returned result .nil⟩] ∧
        checkOutput registered result = .ok () ∧ faults e.heap h' = [])
      (BlamedInside e registered.descriptor) (handlerExecute e registered plan) h := by
  unfold handlerExecute
  refine Attempt.Meets.bind (meets_call hA h0 (fun r a hr => ?_) fun r err hr => ?_) ?_
  · split at hr
    · next ho => exact handler_outcome.1 _ ho
    · cases hr
  · split at hr
    · cases hr
    · next cause ho =>
      obtain rfl := Except.error.inj hr
      obtain ⟨hn, hf⟩ := handler_outcome.2 _ ho
      exact blamed_of_handler hf hn
  · rintro h' result ⟨r, rfl, hr, h0'⟩
    split at hr
    · next ho =>
      obtain rfl := Except.ok.inj hr
      obtain rfl := outcome_eq_ok.mp ho
      refine (meets_check h0' (own_checkOutput registered _)).bind ?_
      rintro h' _ ⟨rfl, hc⟩
      exact Attempt.meets_pure.mpr ⟨rfl, hc, h0'⟩
    · cases hr

theorem meets_handlerPlan {request : Action.Types.Request} {registered : Registration}
    (hA : A h (.handlerPlan .request request)) (h0 : faults e.heap h = []) :
    Attempt.Meets A
      (fun h' data => h' = h ++ [⟨.handlerPlan .request request, .returned data .nil⟩] ∧
        faults e.heap h' = [])
      (BlamedInside e registered.descriptor) (handlerPlan e request registered) h := by
  refine (meets_call hA h0 (fun r a hr => ?_) fun r err hr => ?_).mono ?_ fun _ _ => id
  · split at hr
    · next ho => exact handler_outcome.1 _ ho
    · cases hr
  · split at hr
    · cases hr
    · next cause ho =>
      obtain rfl := Except.error.inj hr
      obtain ⟨hn, hf⟩ := handler_outcome.2 _ ho
      exact blamed_of_handler hf hn
  · rintro h' data ⟨r, rfl, hr, h0'⟩
    split at hr
    · next ho =>
      obtain rfl := Except.ok.inj hr
      obtain rfl := outcome_eq_ok.mp ho
      exact ⟨rfl, h0'⟩
    · cases hr

theorem meets_event {request : Action.Types.Request} {registered : Registration} {startedAt : Time}
    {decision : AuditDecision} {errorCode summary : GoString} {impact : Impact}
    {references : List Reference} (hA : A h (.clock .event)) :
    Prog.Meets A
      (fun h' auditEvent => ∃ reading, h' = h ++ [⟨.clock .event, reading⟩] ∧
        auditEvent = eventAt e request registered startedAt decision errorCode summary impact
          references reading)
      (event e request registered startedAt decision errorCode summary impact references) h := by
  unfold event ask
  rw [Prog.meets_bind, Prog.meets_request]
  exact ⟨hA, fun reading => ⟨reading, rfl, rfl⟩⟩

/-- The rule of the deferred release: whatever it does, what is surfaced may be reported. -/
theorem meets_releasing {Q : History → α → Prop} {reservation : IdempotencyRecord}
    {operation : Step α}
    (hop : Attempt.Meets A Q
      (fun h' err => BlamedInside e descriptor h' err ∧ A h' (.abort .tx reservation)) operation h) :
    Attempt.Meets A Q (Surfaceable e descriptor) (releasing reservation operation) h := by
  unfold Attempt.Meets releasing
  rw [ExceptT.run_mk, Prog.meets_bind]
  refine Prog.Meets.mono (fun h' result hr => ?_) hop
  cases result with
  | ok a => exact hr
  | error err =>
    obtain ⟨hb, hA⟩ := hr
    unfold abort Attempt.attempt
    rw [Prog.meets_bind, ExceptT.run_mk, Prog.meets_bind, Prog.meets_request]
    refine ⟨hA, fun reply => ?_⟩
    rw [Prog.meets_pure]
    dsimp only
    rcases hd : Reply.dependency "release idempotency reservation" reply with abortErr | u
    · -- the join is no action error itself, so its code is the internal one
      obtain ⟨⟨message, cause, rfl⟩, hf⟩ := internal_of_dependency hd
      have hm : .planMissing ∉ faults e.heap (h' ++ [⟨.abort .tx reservation, reply⟩]) := by
        rw [faults_append, faults_cons,
          show fault e.heap ⟨.abort .tx reservation, reply⟩ = _ from hf]
        simp [hb.2]
      have hr := ruling_internal descriptor hm
      have hj : errorsJoin err (actionError codeInternal message cause) =
          .join err (actionError codeInternal message cause) := by
        simp [errorsJoin, actionError]
      show Surfaceable e descriptor _ (errorsJoin err (actionError codeInternal message cause))
      rw [hj]
      have hv : (errorKindOf e.heap (.join err (actionError codeInternal message cause))).valid =
          true := by
        unfold errorKindOf
        split
        · exact governedKind_valid _
        · rfl
      exact ⟨by simp, hm, fun manager => fit_action.mpr
        ⟨by simpa [claimOf, surfacedCode, asActionError] using hr, Or.inr hv, Or.inl hr⟩⟩
    · -- the operation's own error stays
      have hf : faults e.heap (h' ++ [⟨.abort .tx reservation, reply⟩]) = faults e.heap h' := by
        rw [faults_append, faults_cons,
          show fault e.heap ⟨.abort .tx reservation, reply⟩ = _ from faultless_of_dependency hd]
        simp
      have hb' : BlamedInside e descriptor (h' ++ [⟨.abort .tx reservation, reply⟩]) err := by
        unfold BlamedInside Blamed at hb ⊢
        rw [hf]
        exact hb
      exact hb'.surfaceable

/-- A transaction whose operation keeps its obligations: what it ends with, and what may be reported
when it does not end well. -/
theorem meets_transaction {T : ℕ → History → α → Prop} {operation : Step α} (hb : A h .begin)
    (h0 : faults e.heap h = [])
    (hT : ∀ serial h' a, T serial h' a → A h' (.finish serial .nil) ∧ faults e.heap h' = [])
    (herr : ∀ serial h' err, err ≠ .nil → A h' (.finish serial err))
    (hop : ∀ serial, faults e.heap (h ++ [⟨.begin, .run serial⟩]) = [] →
      Attempt.Meets A (T serial) (Surfaceable e descriptor) operation
        (h ++ [⟨.begin, .run serial⟩])) :
    Attempt.Meets A
      (fun h' a => ∃ (serial : ℕ) (h'' : History) (finished : Finished), T serial h'' a ∧
        h' = h'' ++ [⟨.finish serial .nil, finished⟩] ∧ finished.reply = .returned .nil ∧
        finished.inTime = true ∧ faults e.heap h' = [])
      (Blamed e descriptor) (withinTransaction e operation) h := by
  -- a manager that breaks its contract is reported as an internal error
  have hinternal : ∀ (h' : History) (serial : ℕ) (err err' : Err) (finished : Finished),
      .planMissing ∉ faults e.heap h' → Internal err' →
        Blamed e descriptor (h' ++ [⟨.finish serial err, finished⟩]) err' := by
    intro h' serial err err' finished hm hi
    refine (blamed_of_internal ?_ hi).1
    rw [faults_append, faults_cons]
    have : Fault.planMissing ∉ (fault e.heap ⟨.finish serial err, finished⟩).toList := by
      simp only [fault]
      split_ifs <;> simp
    simp [hm, this]
  refine meets_withinTransaction e hb (fun started err hs hi => ?_) fun serial => ?_
  · refine (blamed_of_internal ?_ hi).1
    rw [faults_append, h0, faults_cons]
    cases started with
    | run serial => exact absurd rfl (hs serial)
    | unused reply => simp [fault]
    | nilContext serial reply => simp [fault]
    | violated reply => simp [fault]
  · have hbegin : faults e.heap (h ++ [⟨.begin, .run serial⟩]) = [] := by
      rw [faults_append, h0]
      rfl
    refine (hop serial hbegin).mono ?_ ?_
    · intro h' a ht
      obtain ⟨h1, h2⟩ := hT serial h' a ht
      refine ⟨h1, fun finished => ⟨fun hr ht' => ?_, fun err hi => ?_⟩⟩
      · refine ⟨serial, h', finished, ht, rfl, hr, ht', ?_⟩
        rw [faults_append, h2, faults_cons]
        simp [fault, Finished.sound, hr, ht']
      · exact hinternal h' serial .nil err finished (by simp [h2]) hi
    · intro h' err hs
      refine ⟨hs.1, herr serial h' err hs.1, fun finished => ⟨fun ht hp => ?_, fun _ err' hi => ?_⟩⟩
      · have hf : faults e.heap (h' ++ [⟨.finish serial err, finished⟩]) = faults e.heap h' := by
          rw [faults_append, faults_cons]
          simp [fault, Finished.sound, ht, hs.1, proven_iff.mpr hp]
        unfold Blamed
        rw [hf]
        exact hs.2.2 finished.reply.err
      · exact hinternal h' serial err err' finished hs.2.1 hi

end Calls

/-! ### The trace of an execution -/

/-- A call that needs no transaction. -/
def quiet : Op → Bool
  | .acquire _ => true
  | .acquireLease => true
  | .randomRequestID => true
  | .clock _ => true
  | .authorize ctx _ => ctx == .request
  | .planGet ctx _ => ctx == .request
  | .planSave _ _ => false
  | .planDeleteExpired ctx _ => ctx == .request
  | .lookup ctx _ => ctx == .request
  | .reserve _ _ => false
  | .complete _ _ => false
  | .abort _ _ => false
  | .handlerPlan ctx _ => ctx == .request
  | .handlerExecute _ _ => false
  | .auditRequired _ _ => false
  | .auditDetached _ => true
  | .begin => false
  | .finish _ _ => false

/-- The call opens or closes a transaction. -/
def isBoundary : Op → Bool
  | .begin => true
  | .finish _ _ => true
  | .acquire _ | .acquireLease | .randomRequestID | .clock _ | .authorize _ _ | .planGet _ _
  | .planSave _ _ | .planDeleteExpired _ _ | .lookup _ _ | .reserve _ _ | .complete _ _ | .abort _ _
  | .handlerPlan _ _ | .handlerExecute _ _ | .auditRequired _ _ | .auditDetached _ => false

/-- The call is one of `Handler.Execute`. -/
def isExecute : Op → Bool
  | .handlerExecute _ _ => true
  | .acquire _ | .acquireLease | .randomRequestID | .clock _ | .authorize _ _ | .planGet _ _
  | .planSave _ _ | .planDeleteExpired _ _ | .lookup _ _ | .reserve _ _ | .complete _ _ | .abort _ _
  | .handlerPlan _ _ | .auditRequired _ _ | .auditDetached _ | .begin | .finish _ _ => false

/-- A run with such a call calls a handler. -/
theorem calls_execute {α : Type} {p : Program α} {h : History} {a : α} (hruns : p.Runs h a)
    (hany : h.any (fun c => isExecute c.op) = true) :
    ∃ before ctx plan, p.Calls before (.handlerExecute ctx plan) := by
  obtain ⟨c, hm, hc⟩ := List.any_eq_true.mp hany
  obtain ⟨before, after, rfl⟩ := List.append_of_mem hm
  have hcalls := hruns.calls
  cases hop : c.op with
  | handlerExecute ctx plan =>
    rw [hop] at hcalls
    exact ⟨before, ctx, plan, hcalls⟩
  | _ =>
    rw [hop] at hc
    cases hc

/-- The plan was returned by the store, passed the checks of `loadExecutionPlan`, and was not expired
at the time that was read then. -/
def Loaded (e : Engine) (request : Action.Types.Request) (registered : Registration) (h : History)
    (plan : Plan) : Prop :=
  ∃ (before after : History) (now : ℤ),
    h = before ++ ⟨.planGet .request request.planHash, .returned plan .nil⟩ ::
      ⟨.clock .decision, some now⟩ :: after ∧
    now < plan.expiresAt.nanos ∧ checkLoaded e request registered plan = .ok ()

/-- What was called later changes nothing of how a plan was loaded. -/
theorem Loaded.append {e : Engine} {request : Action.Types.Request} {registered : Registration}
    {h : History} {plan : Plan} (hl : Loaded e request registered h plan) (seg : History) :
    Loaded e request registered (h ++ seg) plan := by
  obtain ⟨before, after, now, rfl, hn, hc⟩ := hl
  exact ⟨before, after ++ seg, now, by simp, hn, hc⟩

/-- What an execution works on. -/
structure Job where
  startedAt : Time
  request : Action.Types.Request
  registered : Registration
  record : IdempotencyRecord
  plan : Plan

namespace Job

variable (job : Job)

/-- The request with the hash of the plan that is executed. -/
def planned : Action.Types.Request := { job.request with planHash := job.plan.hash }

/-- The record that is reserved. -/
def reservation : IdempotencyRecord :=
  { job.record with
    impact := job.plan.impact, planHash := job.plan.hash
    decisionFingerprint := job.plan.decisionFingerprint }

/-- The record that is completed. -/
def completion (result : Result) : IdempotencyRecord :=
  completionOf job.reservation result

/-- What is only called with an idempotency key. -/
def ifKeyed (calls : History) : History :=
  if job.request.idempotencyKey = .utf8 "" then [] else calls

end Job

/-- The intent decision inside a transaction. -/
def intentCall (request : Action.Types.Request) (registered : Registration)
    (reply : Reply Decision) : Environment.Call :=
  ⟨.authorize .tx (authzRequest request registered.descriptor .intent {}), reply⟩

/-- The impact decision inside a transaction. -/
def impactCall (request : Action.Types.Request) (registered : Registration) (impact : Impact)
    (reply : Reply Decision) : Environment.Call :=
  ⟨.authorize .tx (authzRequest request registered.descriptor .impact impact), reply⟩

namespace Job

variable (e : Engine) (job : Job) (i j : Reply Decision)

/-- The transaction up to the reservation. -/
def cleared : History :=
  [intentCall job.planned job.registered i, impactCall job.planned job.registered job.plan.impact j]

/-- The reservation, with the record that was found in its place. -/
def reserveCall (found : Option IdempotencyRecord) : Environment.Call :=
  ⟨.reserve .tx job.reservation, .returned found .nil⟩

/-- The transaction up to the handler. -/
def reserved : History := job.cleared i j ++ job.ifKeyed [job.reserveCall none]

/-- The transaction up to the completion. -/
def executed (result : Result) : History :=
  job.reserved i j ++ [⟨.handlerExecute .tx job.plan, .returned result .nil⟩]

/-- The transaction up to the event. -/
def completed (result : Result) : History :=
  job.executed i j result ++ job.ifKeyed [⟨.complete .tx (job.completion result), .returned () .nil⟩]

/-- The event of the execution. -/
def auditEvent (result : Result) (reading : Option ℤ) : AuditEvent :=
  eventAt e job.planned job.registered job.startedAt .allowed (.utf8 "") result.summary
    job.plan.impact result.references reading

/-- The whole transaction. -/
def audited (result : Result) (reading : Option ℤ) : History :=
  job.completed i j result ++
    [⟨.clock .event, reading⟩,
      ⟨.auditRequired .tx (job.auditEvent e result reading), .returned () .nil⟩]

end Job

/-- The calls are made inside one transaction. -/
def Interior (h : History) : Prop := ∀ c ∈ h, isBoundary c.op = false

theorem Interior.append {h h' : History} (h1 : Interior h) (h2 : Interior h') :
    Interior (h ++ h') := fun c hm => (List.mem_append.mp hm).elim (h1 c) (h2 c)

theorem interior_cons {c : Environment.Call} {h : History} (hc : isBoundary c.op = false)
    (h1 : Interior h) : Interior (c :: h) := fun c' hm => by
  rcases List.mem_cons.mp hm with rfl | hm
  · exact hc
  · exact h1 c' hm

theorem interior_nil : Interior [] := fun _ hm => absurd hm List.not_mem_nil

theorem interior_ifKeyed (job : Job) {calls : History} (h : Interior calls) :
    Interior (job.ifKeyed calls) := by
  unfold Job.ifKeyed
  split
  · exact interior_nil
  · exact h

theorem interior_cleared (job : Job) (i j : Reply Decision) : Interior (job.cleared i j) :=
  interior_cons rfl (interior_cons rfl interior_nil)

theorem interior_reserved (job : Job) (i j : Reply Decision) : Interior (job.reserved i j) :=
  (interior_cleared job i j).append (interior_ifKeyed job (interior_cons rfl interior_nil))

theorem interior_audited (e : Engine) (job : Job) (i j : Reply Decision) (result : Result)
    (reading : Option ℤ) : Interior (job.audited e i j result reading) := by
  have hx := (interior_reserved job i j).append
    (interior_cons (c := ⟨.handlerExecute .tx job.plan, .returned result .nil⟩) rfl interior_nil)
  have hc := hx.append (interior_ifKeyed job
    (interior_cons (c := ⟨.complete .tx (job.completion result), .returned () .nil⟩) rfl
      interior_nil))
  exact hc.append (interior_cons rfl (interior_cons rfl interior_nil))

section Execution

variable (e : Engine)

/-- Two decisions that clear an impact: both allow, the row limit of the second one is kept and its
fingerprint is the expected one. -/
def Cleared (request : Action.Types.Request) (registered : Registration) (impact : Impact)
    (fingerprint : GoString) (i j : Reply Decision) : Prop :=
  ∃ intent decision, judge e request registered.descriptor (.utf8 "") i = .ok intent ∧
    judge e request registered.descriptor intent.fingerprint j = .ok decision ∧
    enforceConstraints decision impact = .ok () ∧ decision.fingerprint = fingerprint

/-- What is known of an accepted request when its transaction begins. -/
structure Accepted (given : Action.Types.Request) (h : History) (request : Action.Types.Request)
    (registered : Registration) (record : IdempotencyRecord) : Prop where
  quiet : ∀ c ∈ h, quiet c.op = true
  faultless : faults e.heap h = []
  acquired : ⟨.acquire given.actionID, .found registered⟩ ∈ h
  normalized : ∃ id canonical hash, request = { given with requestID := id, input := canonical } ∧
    canonicalInput e given.input = .ok (canonical, hash)
  passed : ∃ id, validated e { given with requestID := id } (some registered) = .ok request
  recorded : ∃ canonical hash, canonicalInput e request.input = .ok (canonical, hash) ∧
    record = requestRecord request registered hash

theorem Accepted.keyed {e : Engine} {given request : Action.Types.Request} {h : History}
    {registered : Registration} {record : IdempotencyRecord}
    (ha : Accepted e given h request registered record) (hkey : given.idempotencyKey ≠ .utf8 "") :
    request.idempotencyKey ≠ .utf8 "" := by
  obtain ⟨id, canonical, hash, rfl, -⟩ := ha.normalized
  exact hkey

/-- What is known of a plan that is going to be executed. -/
structure Ready (given : Action.Types.Request) (h : History) (job : Job) : Prop where
  accepted : Accepted e given h job.request job.registered job.record
  valid : validatePlanRecord e.checks job.plan = .ok ()
  hashed : hashPlan e job.plan = .ok job.plan.hash
  inputHash : job.record.inputHash = job.plan.inputHash
  loaded : job.request.planHash ≠ .utf8 "" → Loaded e job.request job.registered h job.plan

/-- A stored record that may be replayed: it passed the checks, and its impact was cleared. -/
structure Replayed (request : Action.Types.Request) (registered : Registration)
    (expected existing : IdempotencyRecord) (result : Result) (i j : Reply Decision) : Prop where
  stored : checkStored e expected existing = .ok ()
  cleared : Cleared e request registered existing.impact existing.decisionFingerprint i j
  result : result = existing.result

/-- **The traces of the transactions that end well.** -/
inductive Settled (given : Action.Types.Request) (h : History) : History → Engine.Outcome → Prop
  | executed {job : Job} {i j : Reply Decision} {result : Result} {reading : Option ℤ}
      (ready : Ready e given h job)
      (cleared : Cleared e job.planned job.registered job.plan.impact job.plan.decisionFingerprint
        i j)
      (output : checkOutput job.registered result = .ok ()) :
      Settled given h (job.audited e i j result reading) (.executed result)
  | raced {job : Job} {i j k : Reply Decision} {existing : IdempotencyRecord} {result : Result}
      (ready : Ready e given h job)
      (cleared : Cleared e job.planned job.registered job.plan.impact job.plan.decisionFingerprint
        i j)
      (keyed : job.request.idempotencyKey ≠ .utf8 "")
      (replayed : Replayed e job.planned job.registered job.record existing result i k) :
      Settled given h
        (job.cleared i j ++ [job.reserveCall (some existing),
          impactCall job.planned job.registered existing.impact k])
        (.replayed existing result)
  | replayed {request : Action.Types.Request} {registered : Registration}
      {record existing : IdempotencyRecord} {i j : Reply Decision} {result : Result}
      (accepted : Accepted e given h request registered record)
      (keyed : request.idempotencyKey ≠ .utf8 "")
      (replayed : Replayed e request registered record existing result i j) :
      Settled given h
        [⟨.lookup .tx record, .returned (some existing) .nil⟩, intentCall request registered i,
          impactCall request registered existing.impact j]
        (.replayed existing result)

theorem interior_of_settled {e : Engine} {given : Action.Types.Request} {h tx : History}
    {outcome : Engine.Outcome} (hs : Settled e given h tx outcome) : Interior tx := by
  cases hs with
  | executed ready cleared output => exact interior_audited e _ _ _ _ _
  | raced ready cleared keyed replayed =>
    exact (interior_cleared _ _ _).append (interior_cons rfl (interior_cons rfl interior_nil))
  | replayed accepted keyed replayed =>
    exact interior_cons rfl (interior_cons rfl (interior_cons rfl interior_nil))

/-- The obligation under which each call of `Execute` is made. -/
def Ordered (given : Action.Types.Request) (h : History) : Op → Prop
  | .begin => ∀ c ∈ h, quiet c.op = true
  | .authorize _ _ => True
  | .lookup ctx _ =>
    ctx = .request ∨ ∃ h₀ serial, (∀ c ∈ h₀, quiet c.op = true) ∧ h = h₀ ++ [⟨.begin, .run serial⟩]
  | .reserve ctx record => ctx = .tx ∧ ∃ h₀ serial job i j, Ready e given h₀ job ∧
      Cleared e job.planned job.registered job.plan.impact job.plan.decisionFingerprint i j ∧
      h = h₀ ++ ⟨.begin, .run serial⟩ :: job.cleared i j ∧ record = job.reservation ∧
      job.request.idempotencyKey ≠ .utf8 ""
  | .handlerExecute ctx plan => ctx = .tx ∧ ∃ h₀ serial job i j, Ready e given h₀ job ∧
      Cleared e job.planned job.registered job.plan.impact job.plan.decisionFingerprint i j ∧
      h = h₀ ++ ⟨.begin, .run serial⟩ :: job.reserved i j ∧ plan = job.plan
  | .complete ctx record => ctx = .tx ∧ ∃ h₀ serial job i j result, Ready e given h₀ job ∧
      h = h₀ ++ ⟨.begin, .run serial⟩ :: job.executed i j result ∧ record = job.completion result ∧
      job.request.idempotencyKey ≠ .utf8 "" ∧ checkOutput job.registered result = .ok ()
  | .auditRequired ctx event => ctx = .tx ∧ ∃ h₀ serial job i j result reading, Ready e given h₀ job ∧
      h = h₀ ++ ⟨.begin, .run serial⟩ :: (job.completed i j result ++ [⟨.clock .event, reading⟩]) ∧
      event = job.auditEvent e result reading
  | .abort ctx record => ctx = .tx ∧ ∃ h₀ serial job i j rest, Ready e given h₀ job ∧
      h = h₀ ++ ⟨.begin, .run serial⟩ :: (job.reserved i j ++ rest) ∧ record = job.reservation ∧
      job.request.idempotencyKey ≠ .utf8 ""
  | .finish serial err => err = .nil →
      ∃ h₀ trace outcome, Settled e given h₀ trace outcome ∧ h = h₀ ++ ⟨.begin, .run serial⟩ :: trace
  | op => quiet op = true

variable {e} {given : Action.Types.Request} {h h₀ : History} {serial : ℕ}

theorem ordered_of_quiet {op : Op} (hq : quiet op = true) : Ordered e given h op := by
  cases op with
  | authorize ctx request => trivial
  | lookup ctx record => exact Or.inl (by simpa [quiet] using hq)
  | reserve ctx record => cases hq
  | complete ctx record => cases hq
  | abort ctx record => cases hq
  | handlerExecute ctx plan => cases hq
  | auditRequired ctx event => cases hq
  | begin => cases hq
  | finish serial err => cases hq
  | acquire id => rfl
  | acquireLease => rfl
  | randomRequestID => rfl
  | clock use => rfl
  | planGet ctx hash => exact hq
  | planSave ctx plan => exact hq
  | planDeleteExpired ctx now => exact hq
  | handlerPlan ctx request => exact hq
  | auditDetached event => rfl

/-! ### Replays -/

theorem checkReplay_ok {registered : Registration} {decision : Decision}
    {existing : IdempotencyRecord} {result : Result}
    (hr : checkReplay registered decision existing = .ok result) :
    enforceConstraints decision existing.impact = .ok () ∧
      decision.fingerprint = existing.decisionFingerprint ∧ result = existing.result := by
  simp only [checkReplay, bind_eq_ok] at hr
  obtain ⟨_, h1, _, h2, _, -, _, -, hr⟩ := hr
  exact ⟨h1, by simpa using refuseIf_eq_ok.mp h2, (Except.ok.inj hr).symm⟩

/-- What `completedResult` returns has been cleared with the intent decision of its transaction. -/
theorem meets_completedResult {request : Action.Types.Request} {registered : Registration}
    {intent : Decision} {expected existing : IdempotencyRecord} {i : Reply Decision}
    (hi : judge e request registered.descriptor (.utf8 "") i = .ok intent)
    (h0 : faults e.heap h = []) :
    Attempt.Meets (Ordered e given)
      (fun h' result => ∃ j, h' = h ++ [impactCall request registered existing.impact j] ∧
        Replayed e request registered expected existing result i j ∧ faults e.heap h' = [])
      (BlamedInside e registered.descriptor)
      (completedResult e request registered intent expected existing) h := by
  unfold completedResult
  refine (meets_check h0 (own_checkStored e expected existing)).bind ?_
  rintro h' _ ⟨rfl, hs⟩
  refine Attempt.Meets.bind (meets_authorizeWithFallback trivial h0) ?_
  rintro h'' decision ⟨j, rfl, hj, h0'⟩
  refine (meets_check h0' (own_checkReplay registered decision existing)).mono ?_ fun _ _ => id
  rintro h'' result ⟨rfl, hr⟩
  obtain ⟨h1, h2, h3⟩ := checkReplay_ok hr
  exact ⟨j, rfl, ⟨hs, ⟨intent, decision, hi, hj, h1, h2⟩, h3⟩, h0'⟩

/-! ### The transactions -/

/-- The transaction ends well with one of the traces. -/
def Ends (e : Engine) (given : Action.Types.Request) (h₀ : History) (serial : ℕ) (h : History)
    (outcome : Engine.Outcome) : Prop :=
  ∃ trace, Settled e given h₀ trace outcome ∧ h = h₀ ++ ⟨.begin, .run serial⟩ :: trace ∧
    faults e.heap h = []

theorem ownStored_ok {record existing : IdempotencyRecord}
    (hr : ownStoredIdempotencyRecord record = .ok existing) : existing = record := by
  unfold ownStoredIdempotencyRecord at hr
  dsimp only at hr
  split at hr
  · cases hr
  split at hr
  · cases hr
  split at hr
  · cases hr
  exact (Except.ok.inj hr).symm

theorem meets_replayBody {request : Action.Types.Request} {registered : Registration}
    {record : IdempotencyRecord} (ha : Accepted e given h₀ request registered record)
    (hk : request.idempotencyKey ≠ .utf8 "")
    (h0 : faults e.heap (h₀ ++ [⟨.begin, .run serial⟩]) = []) :
    Attempt.Meets (Ordered e given) (Ends e given h₀ serial)
      (BlamedInside e registered.descriptor) (replayBody e request registered record)
      (h₀ ++ [⟨.begin, .run serial⟩]) := by
  unfold replayBody
  refine Attempt.Meets.bind (meets_lookup (Or.inr ⟨h₀, serial, ha.quiet, rfl⟩) h0) ?_
  rintro h' found ⟨rfl, h0⟩
  cases found with
  | none => exact blamed_of_own h0 (own_newError rfl _)
  | some current =>
    refine (meets_check h0 (own_ownStoredIdempotencyRecord current)).bind ?_
    rintro h' existing ⟨rfl, hs⟩
    obtain rfl := ownStored_ok hs
    refine Attempt.Meets.bind (meets_authorizeWithFallback trivial h0) ?_
    rintro h' intent ⟨i, rfl, hi, h0⟩
    refine (meets_completedResult hi h0).bind ?_
    rintro h' result ⟨j, rfl, hr, h0⟩
    exact Attempt.meets_pure.mpr ⟨_, .replayed ha hk hr, by simp [intentCall, impactCall], h0⟩

theorem meets_completeReservation {job : Job} {i j : Reply Decision} {result : Result}
    {reservation : Option IdempotencyRecord} (hready : Ready e given h₀ job)
    (hr : reservation = if job.request.idempotencyKey = .utf8 "" then none else some job.reservation)
    (ho : checkOutput job.registered result = .ok ())
    (h0 : faults e.heap (h₀ ++ ⟨.begin, .run serial⟩ :: job.executed i j result) = []) :
    Attempt.Meets (Ordered e given)
      (fun h' _ => h' = h₀ ++ ⟨.begin, .run serial⟩ :: job.completed i j result ∧
        faults e.heap h' = [])
      (BlamedInside e job.registered.descriptor) (completeReservation reservation result)
      (h₀ ++ ⟨.begin, .run serial⟩ :: job.executed i j result) := by
  by_cases hk : job.request.idempotencyKey = .utf8 ""
  · rw [if_pos hk] at hr
    subst hr
    exact Attempt.meets_pure.mpr ⟨by simp [Job.completed, Job.ifKeyed, hk], h0⟩
  · rw [if_neg hk] at hr
    subst hr
    refine (meets_complete ⟨rfl, h₀, serial, job, i, j, result, hready, rfl, rfl, hk, ho⟩ h0).mono ?_
      fun _ _ => id
    rintro h' _ ⟨rfl, h0⟩
    exact ⟨by simp [Job.completed, Job.ifKeyed, hk, Job.completion], h0⟩

theorem meets_auditAllowed {job : Job} {i j : Reply Decision} {result : Result}
    (hready : Ready e given h₀ job)
    (h0 : faults e.heap (h₀ ++ ⟨.begin, .run serial⟩ :: job.completed i j result) = []) :
    Attempt.Meets (Ordered e given)
      (fun h' _ => ∃ reading, h' = h₀ ++ ⟨.begin, .run serial⟩ :: job.audited e i j result reading ∧
        faults e.heap h' = [])
      (BlamedInside e job.registered.descriptor)
      (auditAllowed e job.startedAt job.planned job.registered job.plan result)
      (h₀ ++ ⟨.begin, .run serial⟩ :: job.completed i j result) := by
  unfold auditAllowed
  refine Attempt.Meets.bind (meets_lift.mpr (meets_event rfl)) ?_
  rintro h' auditEvent ⟨reading, rfl, rfl⟩
  have h0' : faults e.heap (h₀ ++ ⟨.begin, .run serial⟩ :: job.completed i j result ++
      [⟨.clock .event, reading⟩]) = [] := by
    rw [faults_append, h0]
    rfl
  refine (meets_recordRequired
    ⟨rfl, h₀, serial, job, i, j, result, reading, hready, by simp, rfl⟩ h0').mono ?_ fun _ _ => id
  rintro h' _ ⟨rfl, h0⟩
  exact ⟨reading, by simp [Job.audited, Job.auditEvent], h0⟩

/-- The handler, the completion and the event, from the reservation on. -/
theorem meets_executePlan {job : Job} {i j : Reply Decision}
    {reservation : Option IdempotencyRecord} (hready : Ready e given h₀ job)
    (hc : Cleared e job.planned job.registered job.plan.impact job.plan.decisionFingerprint i j)
    (hr : reservation = if job.request.idempotencyKey = .utf8 "" then none else some job.reservation)
    (h0 : faults e.heap (h₀ ++ ⟨.begin, .run serial⟩ :: job.reserved i j) = []) :
    Attempt.Meets (Ordered e given) (Ends e given h₀ serial)
      (BlamedInside e job.registered.descriptor)
      (executePlan e job.startedAt job.planned job.registered job.plan reservation)
      (h₀ ++ ⟨.begin, .run serial⟩ :: job.reserved i j) := by
  unfold executePlan
  refine (meets_handlerExecute ⟨rfl, h₀, serial, job, i, j, hready, hc, rfl, rfl⟩ h0).bind ?_
  rintro h' result ⟨rfl, ho, h0⟩
  have hx : h₀ ++ ⟨.begin, .run serial⟩ :: job.reserved i j ++
      [⟨.handlerExecute .tx job.plan, .returned result .nil⟩] =
      h₀ ++ ⟨.begin, .run serial⟩ :: job.executed i j result := by
    simp [Job.executed]
  rw [hx] at h0 ⊢
  refine (meets_completeReservation hready hr ho h0).bind ?_
  rintro h' _ ⟨rfl, h0⟩
  refine (meets_auditAllowed hready h0).bind ?_
  rintro h' _ ⟨reading, rfl, h0⟩
  exact Attempt.meets_pure.mpr ⟨_, .executed hready hc ho, rfl, h0⟩

/-- A fingerprint that passed the check is not empty. -/
theorem fingerprint_ne_of_valid {checks : Checks} {plan : Plan}
    (hv : validatePlanRecord checks plan = .ok ()) : plan.decisionFingerprint ≠ .utf8 "" := by
  obtain ⟨_, hf, -⟩ := bind_eq_ok.mp (validPlan_of_ok hv).fingerprint
  obtain ⟨s, hs, hr, -⟩ := validateText_ok hf
  rw [hs]
  simpa using hr rfl

theorem meets_executeBody {job : Job} (hready : Ready e given h₀ job)
    (h0 : faults e.heap (h₀ ++ [⟨.begin, .run serial⟩]) = []) :
    Attempt.Meets (Ordered e given) (Ends e given h₀ serial)
      (Surfaceable e job.registered.descriptor)
      (executeBody e job.startedAt job.planned job.registered job.record job.plan)
      (h₀ ++ [⟨.begin, .run serial⟩]) := by
  have weaken : ∀ h err, BlamedInside e job.registered.descriptor h err →
      Surfaceable e job.registered.descriptor h err := fun _ _ hb => hb.surfaceable
  unfold executeBody
  refine Attempt.Meets.bind
    ((meets_authorizeWithFallback trivial h0).mono (fun _ _ => id) weaken) ?_
  rintro h' intent ⟨i, rfl, hi, h0⟩
  refine Attempt.Meets.bind ((meets_authorizeImpact trivial h0).mono (fun _ _ => id) weaken) ?_
  rintro h' decision ⟨j, rfl, hj, henf, hfp, h0⟩
  have hfp := hfp (fingerprint_ne_of_valid hready.valid)
  have hc : Cleared e job.planned job.registered job.plan.impact job.plan.decisionFingerprint i j :=
    ⟨intent, decision, hi, hj, henf, hfp⟩
  have hx : h₀ ++ [⟨.begin, .run serial⟩] ++ [intentCall job.planned job.registered i] ++
      [impactCall job.planned job.registered job.plan.impact j] =
      h₀ ++ ⟨.begin, .run serial⟩ :: job.cleared i j := by
    simp [Job.cleared]
  change faults e.heap (_ ++ [intentCall job.planned job.registered i] ++
    [impactCall job.planned job.registered job.plan.impact j]) = [] at h0
  change Attempt.Meets _ _ _ _ (_ ++ [intentCall job.planned job.registered i] ++
    [impactCall job.planned job.registered job.plan.impact j])
  rw [hx] at h0 ⊢
  split
  · next hk =>
    -- without a key there is no reservation
    have hr : job.cleared i j = job.reserved i j := by
      simp [Job.reserved, Job.ifKeyed, show job.request.idempotencyKey = .utf8 "" from hk]
    rw [hr] at h0 ⊢
    exact (meets_executePlan hready hc (by rw [if_pos (by exact hk)]) h0).mono (fun _ _ => id) weaken
  next hk =>
  have hk : job.request.idempotencyKey ≠ .utf8 "" := hk
  have hreserved : reservationOf job.record job.plan decision = job.reservation := by
    rw [reservationOf, hfp]
    rfl
  rw [hreserved]
  refine Attempt.Meets.bind ((meets_reserve
    ⟨rfl, h₀, serial, job, i, j, hready, hc, rfl, rfl, hk⟩ h0).mono (fun _ _ => id) weaken) ?_
  rintro h' found ⟨rfl, h0⟩
  cases found with
  | some existing =>
    refine Attempt.Meets.bind
      ((meets_check h0 (own_ownStoredIdempotencyRecord existing)).mono (fun _ _ => id) weaken) ?_
    rintro h' existing' ⟨rfl, hs⟩
    obtain rfl := ownStored_ok hs
    refine Attempt.Meets.bind ((meets_completedResult hi h0).mono (fun _ _ => id) weaken) ?_
    rintro h' result ⟨k, rfl, hr, h0⟩
    exact Attempt.meets_pure.mpr ⟨_, .raced hready hc hk hr, by simp [Job.reserveCall, Job.reservation], h0⟩
  | none =>
    have hr : h₀ ++ ⟨.begin, .run serial⟩ :: job.cleared i j ++ [job.reserveCall none] =
        h₀ ++ ⟨.begin, .run serial⟩ :: job.reserved i j := by
      simp [Job.reserved, Job.ifKeyed, hk]
    change faults e.heap (_ ++ [job.reserveCall none]) = [] at h0
    change Attempt.Meets _ _ _ _ (_ ++ [job.reserveCall none])
    rw [hr] at h0 ⊢
    refine meets_releasing ?_
    -- whatever fails, the reservation has been made before
    refine ((meets_executePlan hready hc (by rw [if_neg hk]) h0).keeps
      (I := fun h' => ∃ rest, h' = h₀ ++ ⟨.begin, .run serial⟩ :: (job.reserved i j ++ rest))
      ?_ ⟨[], by simp⟩).mono (fun _ _ hq => hq.1) ?_
    · rintro h op ⟨rest, rfl⟩ - r
      exact ⟨rest ++ [⟨op, r⟩], by simp⟩
    · rintro h' err ⟨hb, rest, rfl⟩
      exact ⟨hb, rfl, h₀, serial, job, i, j, rest, hready, rfl, rfl, hk⟩

end Execution

end Modary.Runtime.Traces
