import Modary.Runtime.Consulting
import Modary.Runtime.Runs

/-! # Atomicity

What a call of `Execute` or `Preview` leaves committed over a manager that commits the writes of a
transaction together or not at all, and only if its operation succeeded. -/

namespace Modary.Runtime.Atomicity

open Modary.Lib.GoText Modary.Lib.Prog
open Modary.Action.Names Modary.Action.Authz Modary.Action.Errors Modary.Action.Types
open Modary.Runtime.Environment Modary.Runtime.Engine Modary.Runtime.Faults Modary.Runtime.Traces
open Modary.Runtime.Consulting Modary.Runtime.Runs

/-! ### Committed transactions -/

/-- What a transaction manager promises: it commits nothing of an operation that failed, and it
reports the success only of what it committed. -/
structure Atomic (h : History) : Prop where
  succeeded : ∀ serial err finished, ⟨.finish serial err, finished⟩ ∈ h →
    finished.committed = true → err = .nil
  reported : ∀ serial finished, ⟨.finish serial .nil, finished⟩ ∈ h →
    finished.reply = .returned .nil → finished.committed = true

/-- These are the calls of a transaction that was committed. -/
def CommittedIn (h tx : History) : Prop :=
  ∃ before serial serial' err finished after,
    h = before ++ ⟨.begin, .run serial⟩ :: (tx ++ ⟨.finish serial' err, finished⟩ :: after) ∧
    Interior tx ∧ finished.committed = true

/-- The manager reported in time, and without an error, that the operation succeeded. -/
def reportsSuccess : Environment.Call → Bool
  | ⟨.finish _ err, reply⟩ =>
    match (reply : Finished) with
    | ⟨reply, inTime, _⟩ => err == .nil && reply == .returned .nil && inTime
  | _ => false

/-- The call runs the handler. -/
def executes : Op → Bool
  | .handlerExecute _ _ => true
  | _ => false

/-- The call neither ends a transaction nor reserves a key. -/
def passes : Op → Bool
  | .finish _ _ => false
  | .reserve _ _ => false
  | _ => true

/-- No transaction has been reported to succeed so far. -/
def Unreported (h : History) : Prop := ∀ c ∈ h, reportsSuccess c = false

/-- A key that was free when it was reserved had its handler run. -/
def Handled (h : History) : Prop :=
  (∃ record, ⟨.reserve .tx record, .returned none .nil⟩ ∈ h) → ∃ c ∈ h, executes c.op = true

/-- Both. -/
def Pending (h : History) : Prop := Unreported h ∧ Handled h

theorem Unreported.snoc {h : History} {c : Environment.Call} (hu : Unreported h)
    (hc : reportsSuccess c = false) : Unreported (h ++ [c]) := by
  intro d hd
  rcases List.mem_append.mp hd with hd | hd
  · exact hu d hd
  · rw [List.mem_singleton.mp hd]
    exact hc

theorem reportsSuccess_of_passes {op : Op} (hop : passes op = true) (r : op.Response) :
    reportsSuccess ⟨op, r⟩ = false := by
  cases op <;> first | rfl | cases hop

theorem Handled.snoc {h : History} {op : Op} (hh : Handled h) (hop : passes op = true ∨
    ∃ serial err, op = .finish serial err) (r : op.Response) : Handled (h ++ [⟨op, r⟩]) := by
  rintro ⟨record, hm⟩
  have hbefore : ⟨.reserve .tx record, .returned none .nil⟩ ∈ h := by
    rcases List.mem_append.mp hm with hm | hm
    · exact hm
    · cases List.mem_singleton.mp hm
      rcases hop with hop | ⟨_, _, hop⟩
      · cases hop
      · cases hop
  obtain ⟨c, hc, hexec⟩ := hh ⟨record, hbefore⟩
  exact ⟨c, List.mem_append_left _ hc, hexec⟩

theorem Pending.snoc {h : History} {op : Op} (hp : Pending h) (hop : passes op = true)
    (r : op.Response) : Pending (h ++ [⟨op, r⟩]) :=
  ⟨hp.1.snoc (reportsSuccess_of_passes hop r), hp.2.snoc (Or.inl hop) r⟩

theorem Handled.append_quiet {h tail : History} (hh : Handled h)
    (hq : ∀ c ∈ tail, quiet c.op = true) : Handled (h ++ tail) := by
  rintro ⟨record, hm⟩
  rcases List.mem_append.mp hm with hm | hm
  · obtain ⟨c, hc, hexec⟩ := hh ⟨record, hm⟩
    exact ⟨c, List.mem_append_left _ hc, hexec⟩
  · cases hq _ hm

/-- A reservation that found a record, or failed. -/
theorem Handled.reserve {h : History} {record : IdempotencyRecord}
    {reply : Reply (Option IdempotencyRecord)} (hh : Handled h) (hr : reply ≠ .returned none .nil) :
    Handled (h ++ [⟨.reserve .tx record, reply⟩]) := by
  rintro ⟨other, hm⟩
  rcases List.mem_append.mp hm with hm | hm
  · obtain ⟨c, hc, hexec⟩ := hh ⟨other, hm⟩
    exact ⟨c, List.mem_append_left _ hc, hexec⟩
  · cases List.mem_singleton.mp hm
    exact absurd rfl hr

theorem passes_of_quiet {op : Op} (hq : quiet op = true) : passes op = true := by
  cases op <;> first | rfl | cases hq

theorem Pending.append_quiet {h tail : History} (hp : Pending h)
    (hq : ∀ c ∈ tail, quiet c.op = true) : Pending (h ++ tail) := by
  induction tail generalizing h with
  | nil =>
    rw [List.append_nil]
    exact hp
  | cons c tail ih =>
    obtain ⟨hc, htail⟩ := List.forall_mem_cons.mp hq
    have hnext := ih (hp.snoc (passes_of_quiet hc) c.reply) htail
    rw [List.append_assoc] at hnext
    exact hnext

theorem pending_nil : Pending [] := by
  constructor
  · intro c hc
    cases hc
  · rintro ⟨record, hm⟩
    cases hm

theorem pending_of_quiet {h : History} (hq : ∀ c ∈ h, quiet c.op = true) : Pending h :=
  pending_nil.append_quiet hq

/-! ### Programs that leave the outcome open -/

section Steps

variable {ε α β : Type} {h : History}

/-- The program neither ends a transaction nor reserves a key. -/
def Passing (p : Attempt Op Op.Response ε α) : Prop :=
  Attempt.Confined (fun op => passes op = true) p

/-- The program leaves the outcome open, whether it fails or not. -/
def Keeps (p : Attempt Op Op.Response ε α) (h : History) : Prop :=
  Attempt.Meets (fun _ _ => True) (fun h' _ => Pending h') (fun h' _ => Pending h') p h

theorem passes_of_consults (op : Op) (h : consults op = true) : passes op = true := by
  cases op <;> first | rfl | cases h

theorem Passing.keeps {p : Attempt Op Op.Response ε α} (hp : Passing p) (h0 : Pending h) :
    Keeps p h :=
  Attempt.Confined.keeps hp (fun _ _ hpend hop r => hpend.snoc hop r) h0

theorem Passing.bind {p : Attempt Op Op.Response ε α} {f : α → Attempt Op Op.Response ε β}
    (hp : Passing p) (hf : ∀ a, Passing (f a)) : Passing (p >>= f) := Attempt.Confined.bind hp hf

theorem Keeps.bind {p : Attempt Op Op.Response ε α} {f : α → Attempt Op Op.Response ε β}
    (hp : Keeps p h) (hf : ∀ h' a, Pending h' → Keeps (f a) h') : Keeps (p >>= f) h :=
  Attempt.Meets.bind hp fun h' a hpend => hf h' a hpend

theorem keeps_pure {a : α} (h0 : Pending h) : Keeps (pure a : Attempt Op Op.Response ε α) h :=
  Attempt.meets_pure.mpr h0

end Steps

section Parts

variable {e : Engine} {h : History} {request : Action.Types.Request} {registered : Registration}
  {startedAt : Time} {plan : Plan}

/-- The handler, the completion of the reservation and the event. The handler comes first. -/
theorem keeps_executePlan {reservation : Option IdempotencyRecord} (h0 : Unreported h) :
    Keeps (executePlan e startedAt request registered plan reservation) h := by
  have hcalled : ∀ r, Pending (h ++ [⟨.handlerExecute .tx plan, r⟩]) := by
    intro r
    refine ⟨h0.snoc rfl, fun _ => ⟨⟨.handlerExecute .tx plan, r⟩, ?_, rfl⟩⟩
    exact List.mem_append_right _ List.mem_cons_self
  have hhandler : Keeps (handlerExecute e registered plan) h := by
    unfold handlerExecute
    refine Keeps.bind (Attempt.meets_attempt.mpr ⟨trivial, fun r => ?_⟩) fun h' result hp => ?_
    · split
      · exact hcalled r
      · exact hcalled r
    · exact (Passing.bind confined_ofExcept fun _ => Attempt.confined_pure).keeps hp
  unfold executePlan
  refine hhandler.bind fun h' result hp => ?_
  refine Keeps.bind ?_ fun h' _ hp => Keeps.bind ?_ fun h' _ hp => keeps_pure hp
  · unfold completeReservation
    cases reservation with
    | none => exact keeps_pure hp
    | some reservation => exact Passing.keeps (Attempt.confined_attempt rfl) hp
  · unfold auditAllowed
    refine Passing.keeps (Passing.bind (confined_lift fun h => ?_) fun event => ?_) hp
    · exact (meets_event (A := fun _ op => passes op = true) rfl).mono fun _ _ _ => trivial
    · exact Attempt.confined_attempt rfl

/-- The release of a reservation. -/
theorem keeps_releasing {α : Type} {reservation : IdempotencyRecord} {operation : Step α}
    (hop : Keeps operation h) : Keeps (releasing reservation operation) h := by
  unfold releasing
  refine meets_run hop (fun h' a hp => hp) fun h' err hp => ?_
  have habort : Keeps (abort reservation) h' := Passing.keeps (Attempt.confined_attempt rfl) hp
  exact meets_run habort (fun _ _ hp => hp) fun _ _ hp => hp

theorem keeps_executeBody {record : IdempotencyRecord} (h0 : Pending h) :
    Keeps (executeBody e startedAt request registered record plan) h := by
  unfold executeBody
  refine (Passing.keeps (confined_authorizeWithFallback e passes_of_consults) h0).bind
    fun h' intent h0 => ?_
  refine (Passing.keeps (confined_authorizeImpact e passes_of_consults) h0).bind
    fun h' decision h0 => ?_
  split
  · exact keeps_executePlan h0.1
  -- a reservation that finds the key free is followed by the handler
  refine Attempt.Meets.bind (Q := fun h'' found => Unreported h'' ∧ (found.isSome = true → Handled h''))
    (Attempt.meets_attempt.mpr ⟨trivial, fun reply => ?_⟩) fun h'' found hfound => ?_
  · have hunreported := h0.1.snoc (c := ⟨.reserve .tx _, reply⟩) rfl
    cases reply with
    | panicked => exact ⟨hunreported, h0.2.reserve (by simp)⟩
    | returned found err =>
      by_cases herr : err = .nil
      · subst herr
        refine ⟨hunreported, fun hsome => h0.2.reserve ?_⟩
        rintro heq
        cases heq
        cases hsome
      · have hfails : Reply.dependency "reserve idempotency record" (.returned found err) =
            .error (dependencyFailure "reserve idempotency record" err) := by
          simp only [Reply.dependency, Reply.outcome, if_neg herr]
        rw [hfails]
        refine ⟨hunreported, h0.2.reserve ?_⟩
        rintro heq
        cases heq
        exact herr rfl
  · cases found with
    | none => exact keeps_releasing (keeps_executePlan hfound.1)
    | some existing =>
      have h0 : Pending h'' := ⟨hfound.1, hfound.2 rfl⟩
      refine Passing.keeps (Passing.bind confined_ofExcept fun existing => ?_) h0
      exact Passing.bind (confined_completedResult e passes_of_consults) fun result =>
        Attempt.confined_pure

theorem keeps_replayBody {record : IdempotencyRecord} (h0 : Pending h) :
    Keeps (replayBody e request registered record) h := by
  unfold replayBody
  refine Passing.keeps (Passing.bind (confined_lookup passes_of_consults) fun found => ?_) h0
  cases found with
  | none => exact Attempt.confined_throw
  | some current =>
    refine Passing.bind confined_ofExcept fun existing => ?_
    refine Passing.bind (confined_authorizeWithFallback e passes_of_consults) fun intent => ?_
    exact Passing.bind (confined_completedResult e passes_of_consults) fun result =>
      Attempt.confined_pure

end Parts

/-! ### Transactions -/

section Transactions

variable {e : Engine} {given request : Action.Types.Request} {registered : Registration}
  {h : History} {startedAt : Time}

/-- A transaction of which no success is reported leaves the outcome open. -/
theorem meets_withinTransaction_pending {α : Type} {operation : Step α}
    (h0 : Pending h) (hop : ∀ serial, Keeps operation (h ++ [⟨.begin, .run serial⟩]))
    (hne : ∀ serial, Attempt.Meets (fun _ _ => True) (fun _ _ => True) (fun _ err => err ≠ .nil) operation
      (h ++ [⟨.begin, .run serial⟩])) :
    Attempt.Meets (fun _ _ => True) (fun h' _ => Handled h') (fun h' _ => Pending h')
      (withinTransaction e operation) h := by
  unfold withinTransaction
  show Prog.Meets _ _ _ h
  refine Prog.meets_bind.mpr ⟨trivial, fun started => ?_⟩
  have hbegun := h0.snoc (show passes Op.begin = true from rfl) started
  cases started with
  | unused reply => exact hbegun
  | nilContext serial reply => exact hbegun
  | violated reply => exact hbegun
  | run serial =>
    refine meets_run ((hop serial).and (hne serial)) (fun h' a hp => ?_) fun h' err hp => ?_
    · obtain ⟨hp, -⟩ := hp
      refine Prog.meets_bind.mpr ⟨trivial, fun finished => Prog.meets_ret.mpr ?_⟩
      have hhandled := Handled.snoc hp.2 (Or.inr ⟨serial, .nil, rfl⟩) finished
      have hcall : Transaction.Call.failure serial (.run (.returned .nil)) = none := rfl
      rcases settle_of_success e.heap serial finished with ⟨hreply, htime, hsettle⟩ | hinternal
      · dsimp only at hsettle ⊢
        rw [htime] at hsettle ⊢
        simp only [if_true] at hsettle ⊢
        rw [hsettle]
        exact hhandled
      · have hopen : reportsSuccess ⟨.finish serial .nil, finished⟩ = false := by
          obtain ⟨reply, inTime, committed⟩ := finished
          by_contra hreport
          rw [Bool.not_eq_false] at hreport
          simp only [reportsSuccess, Bool.and_eq_true, beq_iff_eq] at hreport
          obtain ⟨⟨-, rfl⟩, rfl⟩ := hreport
          exact hinternal.ne_nil rfl
        obtain ⟨message, cause, hinternal⟩ := hinternal
        dsimp only at hinternal ⊢
        rw [hcall, hinternal]
        exact ⟨hp.1.snoc hopen, hhandled⟩
    · obtain ⟨hp, hnil⟩ := hp
      refine Prog.meets_bind.mpr ⟨trivial, fun finished => Prog.meets_ret.mpr ?_⟩
      have hpending : Pending (h' ++ [⟨.finish serial err, finished⟩]) := by
        refine ⟨hp.1.snoc ?_, hp.2.snoc (Or.inr ⟨_, _, rfl⟩) finished⟩
        obtain ⟨reply, inTime, committed⟩ := finished
        have hfalse : (err == .nil) = false := by simpa using hnil
        simp only [reportsSuccess, hfalse, Bool.false_and]
      exact hpending

/-- The transaction of `Execute` and what follows it. -/
theorem meets_outcome_pending (given : Action.Types.Request) {body : Step Engine.Outcome}
    (h0 : Pending h) (hbody : ∀ serial, Keeps body (h ++ [⟨.begin, .run serial⟩]))
    (hne : ∀ serial, Attempt.Meets (fun _ _ => True) (fun _ _ => True) (fun _ err => err ≠ .nil) body
      (h ++ [⟨.begin, .run serial⟩])) :
    Attempt.Meets (fun _ _ => True) (fun h' _ => Handled h') (fun h' _ => Pending h')
      (do
        let outcome ← decorated e request registered (withinTransaction e body)
        ExceptT.lift (outcome.settle e startedAt request registered)) h := by
  refine Attempt.Meets.bind (Attempt.meets_adapt.mpr
    (meets_withinTransaction_pending h0 hbody hne)) fun h' outcome hh => ?_
  have hsettle := @meets_settle e given request registered h' startedAt outcome
  refine meets_lift.mpr ((hsettle.weaken fun _ _ _ => trivial).mono ?_)
  rintro h'' result ⟨⟨tail, rfl, hq⟩, -⟩
  exact hh.append_quiet hq

theorem meets_executeFresh_pending {intent : Decision} {record : IdempotencyRecord}
    (ha : Admitted e given h request registered)
    (hr : ∃ canonical hash, canonicalInput e request.input = .ok (canonical, hash) ∧
      record = requestRecord request registered hash) :
    Attempt.Meets (fun _ _ => True) (fun h' _ => Handled h') (fun h' _ => Pending h')
      (executeFresh e startedAt request registered intent record) h := by
  have h0 := pending_of_quiet ha.calm.1
  unfold executeFresh
  have hprepared := @meets_preparePlan e (fun _ _ => True) h request registered intent record
    (fun _ _ _ => trivial) ha.calm
  have hkeeps : Keeps (preparePlan e request registered intent record) h :=
    Passing.keeps (confined_preparePlan e passes_of_consults) h0
  refine Attempt.Meets.bind ((hkeeps.and hprepared).mono (fun _ _ hq => hq) fun _ _ hq => hq.1) ?_
  rintro h' ⟨planned, plan⟩ ⟨hp', ⟨seg, rfl⟩, hp⟩
  have hready := hp.ready startedAt (ha.append hp.calm) hr
  obtain rfl : planned = { request with planHash := plan.hash } := hp.planned
  refine meets_outcome_pending given hp' (fun serial => keeps_executeBody (hp'.snoc rfl _))
    fun serial => ?_
  have hfault : faults e.heap (h ++ seg ++ [⟨.begin, .run serial⟩]) = [] := by
    rw [faults_append, hp.calm.2]
    rfl
  exact ((meets_executeBody hready hfault).mono (fun _ _ _ => trivial) fun _ _ hs => hs.1).weaken
    fun _ _ _ => trivial

theorem meets_executeReplay_pending {record : IdempotencyRecord}
    (ha : Admitted e given h request registered) (hk : request.idempotencyKey ≠ .utf8 "")
    (hr : ∃ canonical hash, canonicalInput e request.input = .ok (canonical, hash) ∧
      record = requestRecord request registered hash) :
    Attempt.Meets (fun _ _ => True) (fun h' _ => Handled h') (fun h' _ => Pending h')
      (executeReplay e startedAt request registered record) h := by
  have h0 := pending_of_quiet ha.calm.1
  have hacc : Accepted e given h request registered record :=
    ⟨ha.calm.1, ha.calm.2, ha.acquired, ha.normalized, ha.passed, hr⟩
  unfold executeReplay
  refine meets_outcome_pending given h0 (fun serial => keeps_replayBody (h0.snoc rfl _))
    fun serial => ?_
  have hfault : faults e.heap (h ++ [⟨.begin, .run serial⟩]) = [] := by
    rw [faults_append, ha.calm.2]
    rfl
  exact ((meets_replayBody hacc hk hfault).mono (fun _ _ _ => trivial)
    fun _ _ hb => hb.surfaceable.1).weaken fun _ _ _ => trivial

theorem meets_executeAdmitted_pending (ha : Admitted e given h request registered) :
    Attempt.Meets (fun _ _ => True) (fun h' _ => Handled h') (fun h' _ => Pending h')
      (executeAdmitted e startedAt request registered) h := by
  have h0 := pending_of_quiet ha.calm.1
  unfold executeAdmitted
  have hauth := @meets_authorizeWithFallback e registered.descriptor (fun _ _ => True) h .request
    request .intent {} (.utf8 "") trivial ha.calm.2
  have hkeeps : Keeps (authorizeWithFallback e .request request registered.descriptor .intent {}
      (.utf8 "")) h := Passing.keeps (confined_authorizeWithFallback e passes_of_consults) h0
  refine Attempt.Meets.bind (Q := fun h' _ => Admitted e given h' request registered)
    (Attempt.meets_adapt.mpr ((hauth.and hkeeps).mono ?_ fun _ _ hq => hq.2)) ?_
  · rintro h' intent ⟨⟨reply, rfl, -, hf⟩, -⟩
    exact ha.append (ha.calm.snoc rfl hf)
  intro h' intent ha
  have h0 := pending_of_quiet ha.calm.1
  have hcheck := @meets_check _ e registered.descriptor (fun _ _ => True) h' _ ha.calm.2
    (own_checkExecute e request registered)
  have hkeeps : Keeps (Step.ofExcept (checkExecute e request registered)) h' :=
    Passing.keeps confined_ofExcept h0
  refine Attempt.Meets.bind (Attempt.meets_adapt.mpr
    ((hcheck.and hkeeps).mono (fun _ _ hq => hq.1) fun _ _ hq => hq.2)) ?_
  rintro h'' inputHash ⟨rfl, hc⟩
  have hr := record_of_checkExecute hc
  split
  · exact meets_executeFresh_pending ha hr
  next hk =>
  have hlookup := @meets_lookup e registered.descriptor (fun _ _ => True) h'' .request
    (requestRecord request registered inputHash) trivial ha.calm.2
  have hkeeps : Keeps (lookup .request (requestRecord request registered inputHash)) h'' :=
    Passing.keeps (confined_lookup passes_of_consults) h0
  refine Attempt.Meets.bind (Q := fun h' _ => Admitted e given h' request registered)
    (Attempt.meets_adapt.mpr ((hlookup.and hkeeps).mono ?_ fun _ _ hq => hq.2)) ?_
  · rintro h' found ⟨⟨rfl, hf⟩, -⟩
    exact ha.append (ha.calm.snoc rfl hf)
  intro h' found ha
  cases found with
  | some existing => exact meets_executeReplay_pending ha hk hr
  | none => exact meets_executeFresh_pending ha hr

/-- **A failed call** is one of which no transaction is reported to have succeeded; and a key that
was found free had its handler run. -/
theorem meets_execute_pending (hasContext : Bool) :
    Prog.Meets (fun _ _ => True)
      (fun h' result => Handled h' ∧ ((∃ a, result = .ok a) ∨ Unreported h'))
      (execute e hasContext given) [] := by
  refine meets_governed_of (E := fun _ h _ => Pending h) (fun _ _ _ => trivial) ?_ ?_ ?_ ?_
  · intro h err hq _
    exact ⟨(pending_of_quiet hq).2, Or.inr (pending_of_quiet hq).1⟩
  · intro h nanos id acquired exit hc _ _ _ _
    exact pending_of_quiet hc.1
  · intro h nanos _ request registered _ _ ha _
    refine (meets_executeAdmitted_pending ha).mono (fun h' a hh => ?_) fun _ _ => id
    exact ⟨hh, Or.inl ⟨a, rfl⟩⟩
  · intro h startedAt exit hp
    refine (meets_fail fun _ _ _ => trivial).mono ?_
    rintro h' err ⟨tail, rfl, hq, -, -⟩
    have hpending := hp.append_quiet hq
    exact ⟨hpending.2, Or.inr hpending.1⟩

end Transactions

/-! ### What a committed transaction holds -/

/-- The call may change what is stored: the reservation that found a record does not. -/
def writes : Environment.Call → Bool
  | ⟨.planSave _ _, _⟩ => true
  | ⟨.planDeleteExpired _ _, _⟩ => true
  | ⟨.reserve _ _, reply⟩ =>
    match (reply : Reply (Option IdempotencyRecord)) with
    | .returned (some _) err => err != .nil
    | _ => true
  | ⟨.complete _ _, _⟩ => true
  | ⟨.abort _ _, _⟩ => true
  | ⟨.handlerExecute _ _, _⟩ => true
  | ⟨.auditRequired _ _, _⟩ => true
  | _ => false

/-- Nothing is written in the transaction. -/
def Untouched (tx : History) : Prop := ∀ c ∈ tx, writes c = false

/-- What an idempotency record is found by. -/
structure Binding where
  scope : Execution
  actorID : GoString
  actorType : GoString
  actionID : GoString
  key : GoString
  deriving DecidableEq

def bindingOf (record : IdempotencyRecord) : Binding :=
  ⟨record.scope, record.actorID, record.actorType, record.actionID, record.key⟩

/-- What the record of a request is found by. -/
def requestBinding (given : Action.Types.Request) : Binding :=
  ⟨given.scope, given.actor.id, given.actor.type, given.actionID, given.idempotencyKey⟩

/-- The transaction holds all of an execution: the handler that returned the result, the completed
record of the key, if there is one, and the event. -/
structure Whole (given : Action.Types.Request) (tx : History) (result : Result) : Prop where
  handler : ∃ plan, ⟨.handlerExecute .tx plan, .returned result .nil⟩ ∈ tx
  completion : given.idempotencyKey ≠ .utf8 "" → ∃ record : IdempotencyRecord,
    bindingOf record = requestBinding given ∧ record.status = .completed ∧ record.result = result ∧
      ⟨.complete .tx record, .returned () .nil⟩ ∈ tx
  event : ∃ event : AuditEvent, event.decision = .allowed ∧
    ⟨.auditRequired .tx event, .returned () .nil⟩ ∈ tx

/-- The result is the one of a record that was found in the transaction. -/
def Replays (tx : History) (result : Result) : Prop :=
  ∃ existing : IdempotencyRecord, result = existing.result ∧
    ((∃ record, ⟨.lookup .tx record, .returned (some existing) .nil⟩ ∈ tx) ∨
      ∃ record, ⟨.reserve .tx record, .returned (some existing) .nil⟩ ∈ tx)

/-- The transaction holds all of a preview: the plan and the event. -/
def Saved (tx : History) (plan : Plan) : Prop :=
  ⟨.planSave .tx plan, .returned () .nil⟩ ∈ tx ∧ ∃ event : AuditEvent, event.decision = .previewed ∧
    ⟨.auditRequired .tx event, .returned () .nil⟩ ∈ tx

section Traces

variable {e : Engine} {given : Action.Types.Request} {h tx : History}

theorem interior_of_previewed {plan : Plan} (hp : Previewed e given h tx plan) : Interior tx := by
  cases hp with
  | intro admitted valid hashed =>
    exact interior_cons rfl (interior_cons rfl (interior_cons rfl (interior_cons rfl
      (interior_cons rfl (interior_cons rfl (interior_cons rfl interior_nil))))))

/-- The calls behind the last opening of a transaction. -/
theorem interior_unique {before before' tx' : History} {c c' : Environment.Call}
    (hc : isBoundary c.op = true) (hc' : isBoundary c'.op = true) (htx : Interior tx)
    (htx' : Interior tx') (heq : before ++ c :: tx = before' ++ c' :: tx') :
    before = before' ∧ tx = tx' := by
  have hlast : ∀ {pre pre' mid : History} {d d' : Environment.Call} {tail tail' : History},
      isBoundary d'.op = true → Interior tail → pre' = pre ++ mid →
        d :: tail = mid ++ d' :: tail' → mid = [] ∧ tail = tail' := by
    intro pre pre' mid d d' tail tail' hd htail _ heq
    cases mid with
    | nil =>
      rw [List.nil_append, List.cons.injEq] at heq
      exact ⟨rfl, heq.2⟩
    | cons m mid =>
      rw [List.cons_append, List.cons.injEq] at heq
      have hmem : d' ∈ tail := by
        rw [heq.2]
        exact List.mem_append_right _ List.mem_cons_self
      rw [htail d' hmem] at hd
      cases hd
  rcases List.append_eq_append_iff.mp heq with ⟨mid, hbefore, hrest⟩ | ⟨mid, hbefore, hrest⟩
  · obtain ⟨rfl, htail⟩ := hlast hc' htx hbefore hrest
    rw [List.append_nil] at hbefore
    exact ⟨hbefore.symm, htail⟩
  · obtain ⟨rfl, htail⟩ := hlast hc htx' hbefore hrest
    rw [List.append_nil] at hbefore
    exact ⟨hbefore, htail.symm⟩

theorem bindingOf_completion {job : Job} {result : Result}
    (ha : Accepted e given h job.request job.registered job.record) :
    bindingOf (job.completion result) = requestBinding given := by
  obtain ⟨id, canonical, hash, hrequest, -⟩ := ha.normalized
  obtain ⟨canonical', hash', -, hrecord⟩ := ha.recorded
  unfold Job.completion Job.reservation bindingOf requestBinding
  rw [hrecord, hrequest]
  rfl

/-- A transaction that ends well holds all of an execution, or it writes nothing. -/
theorem whole_or_untouched {outcome : Engine.Outcome} (hs : Settled e given h tx outcome) :
    Whole given tx (resultOf outcome) ∨ (Untouched tx ∧ Replays tx (resultOf outcome)) := by
  cases hs with
  | executed ready cleared output =>
    next job i j result reading =>
    left
    refine ⟨⟨job.plan, ?_⟩, fun hkey => ⟨job.completion result, ?_, rfl, rfl, ?_⟩,
      ⟨job.auditEvent e result reading, rfl, ?_⟩⟩
    · simp [Job.audited, Job.completed, Job.executed, resultOf]
    · exact bindingOf_completion ready.accepted
    · have hkeyed := ready.accepted.keyed hkey
      simp [Job.audited, Job.completed, Job.ifKeyed, hkeyed]
    · simp [Job.audited]
  | raced ready cleared keyed replayed =>
    next job i j k existing result =>
    right
    refine ⟨?_, existing, replayed.result, Or.inr ⟨job.reservation, by simp [Job.reserveCall]⟩⟩
    intro c hc
    simp only [Job.cleared, List.mem_append, List.mem_cons, List.not_mem_nil, or_false] at hc
    rcases hc with (rfl | rfl) | rfl | rfl
    · rfl
    · rfl
    · rfl
    · rfl
  | replayed accepted keyed replayed =>
    next request registered record existing i j result =>
    right
    refine ⟨?_, existing, replayed.result, Or.inl ⟨record, by simp⟩⟩
    intro c hc
    simp only [List.mem_cons, List.not_mem_nil, or_false] at hc
    rcases hc with rfl | rfl | rfl
    · rfl
    · rfl
    · rfl

theorem saved_of_previewed {plan : Plan} (hp : Previewed e given h tx plan) : Saved tx plan := by
  cases hp with
  | intro admitted valid hashed =>
    next startedAt request registered impact i j now deleted reading =>
    refine ⟨by simp, previewEvent e startedAt request registered impact plan reading, rfl, ?_⟩
    simp

end Traces

/-! ### What a store holds -/

/-- The rows of the idempotency store. -/
abbrev Rows := Binding → Option IdempotencyRecord

/-- What a call makes of the rows that its transaction sees. -/
def writeRow (rows : Rows) : Environment.Call → Rows
  | ⟨.reserve _ record, reply⟩ =>
    if (reply : Reply (Option IdempotencyRecord)) = .returned none .nil then
      Function.update rows (bindingOf record) (some record)
    else rows
  | ⟨.complete _ record, reply⟩ =>
    if (reply : Reply Unit) = .returned () .nil then
      Function.update rows (bindingOf record) (some record)
    else rows
  | ⟨.abort _ record, reply⟩ =>
    if (reply : Reply Unit) = .returned () .nil then Function.update rows (bindingOf record) none
    else rows
  | _ => rows

/-- The rows that are committed, and those that the open transaction sees. -/
structure Stored where
  committed : Rows
  seen : Rows

/-- A transaction starts from what is committed; at its end its rows are committed, or they are
lost. -/
def Stored.step (stored : Stored) : Environment.Call → Stored
  | ⟨.begin, _⟩ => { stored with seen := stored.committed }
  | ⟨.finish _ _, reply⟩ =>
    if (reply : Finished).committed then { stored with committed := stored.seen }
    else { stored with seen := stored.committed }
  | call => { stored with seen := writeRow stored.seen call }

/-- The rows that are committed after these calls. -/
def rowsAfter (rows : Rows) (h : History) : Rows :=
  (h.foldl Stored.step { committed := rows, seen := rows }).committed

/-- The manager committed a transaction, and did not report it in time and without an error. -/
def CommittedUnreported (h : History) : Prop :=
  ∃ serial finished, ⟨.finish serial .nil, finished⟩ ∈ h ∧ finished.committed = true ∧
    ¬ (finished.reply = .returned .nil ∧ finished.inTime = true)

section Rows

variable {h : History}

theorem step_committed {stored : Stored} {c : Environment.Call}
    (hc : ∀ serial err finished, c = ⟨.finish serial err, finished⟩ → finished.committed = false) :
    (stored.step c).committed = stored.committed := by
  obtain ⟨op, r⟩ := c
  cases op with
  | finish serial err =>
    have hfalse := hc serial err r rfl
    show (if (r : Finished).committed then _ else _ : Stored).committed = _
    rw [hfalse]
    rfl
  | _ => rfl

/-- Where nothing is committed the rows stay as they are. -/
theorem foldl_committed (hh : ∀ serial err finished, ⟨.finish serial err, finished⟩ ∈ h →
    finished.committed = false) (stored : Stored) :
    (h.foldl Stored.step stored).committed = stored.committed := by
  induction h generalizing stored with
  | nil => rfl
  | cons c h ih =>
    rw [List.foldl_cons, ih fun serial err finished hm => hh serial err finished
      (List.mem_cons_of_mem _ hm)]
    refine step_committed fun serial err finished hc => hh serial err finished ?_
    rw [← hc]
    exact List.mem_cons_self

theorem rows_of_unreported (hu : Unreported h) (ha : Atomic h) (rows : Rows) :
    rowsAfter rows h = rows ∨ CommittedUnreported h := by
  by_cases hnone : ∀ serial err finished, ⟨.finish serial err, finished⟩ ∈ h →
      finished.committed = false
  · exact Or.inl (foldl_committed hnone _)
  · right
    push Not at hnone
    obtain ⟨serial, err, finished, hm, hcommitted⟩ := hnone
    rw [Bool.ne_false_iff] at hcommitted
    obtain rfl := ha.succeeded serial err finished hm hcommitted
    refine ⟨serial, finished, hm, hcommitted, ?_⟩
    rintro ⟨hreply, htime⟩
    have hfalse := hu _ hm
    obtain ⟨reply, inTime, committed⟩ := finished
    obtain rfl : reply = .returned .nil := hreply
    obtain rfl : inTime = true := htime
    cases hfalse

/-- Quiet calls change no row. -/
theorem foldl_quiet (hq : ∀ c ∈ h, quiet c.op = true) (stored : Stored) :
    (h.foldl Stored.step stored).committed = stored.committed :=
  foldl_committed (fun _ _ _ hm => by cases hq _ hm) stored

/-- Inside a transaction the committed rows stay, and the calls write to its own. -/
theorem foldl_interior (hi : Interior h) (stored : Stored) :
    h.foldl Stored.step stored =
      { stored with seen := h.foldl writeRow stored.seen } := by
  induction h generalizing stored with
  | nil => rfl
  | cons c h ih =>
    obtain ⟨hc, hrest⟩ := List.forall_mem_cons.mp hi
    have hstep : stored.step c = { stored with seen := writeRow stored.seen c } := by
      obtain ⟨op, r⟩ := c
      cases op with
      | begin => cases hc
      | finish serial err => cases hc
      | _ => rfl
    rw [List.foldl_cons, hstep, ih hrest]
    rfl

/-- The rows of a call with one transaction, which is committed. -/
theorem rowsAfter_committed {before tx after : History} {serial serial' : ℕ} {err : Err}
    {finished : Finished} (hbefore : ∀ c ∈ before, quiet c.op = true) (htx : Interior tx)
    (hafter : ∀ c ∈ after, quiet c.op = true) (hcommitted : finished.committed = true)
    (rows : Rows) :
    rowsAfter rows (before ++ ⟨.begin, .run serial⟩ ::
      (tx ++ ⟨.finish serial' err, finished⟩ :: after)) = tx.foldl writeRow rows := by
  have hbegin : ∀ stored : Stored, stored.step ⟨.begin, .run serial⟩ =
      ⟨stored.committed, stored.committed⟩ := fun _ => rfl
  have hfinish : ∀ stored : Stored, stored.step ⟨.finish serial' err, finished⟩ =
      { stored with committed := stored.seen } := by
    intro stored
    show (if (finished : Finished).committed then _ else _ : Stored) = _
    rw [hcommitted]
    rfl
  unfold rowsAfter
  rw [List.foldl_append, List.foldl_cons, List.foldl_append, List.foldl_cons, foldl_quiet hafter,
    hbegin, foldl_interior htx, hfinish, foldl_quiet hbefore]

/-- An execution with a key leaves its completed record. -/
theorem foldl_audited {e : Engine} {job : Job} {i j : Reply Decision} {result : Result}
    {reading : Option ℤ} (hkeyed : job.request.idempotencyKey ≠ .utf8 "") (rows : Rows) :
    (job.audited e i j result reading).foldl writeRow rows (bindingOf (job.completion result)) =
      some (job.completion result) := by
  have hcomplete : ∀ rows : Rows,
      writeRow rows ⟨.complete .tx (job.completion result), .returned () .nil⟩ =
        Function.update rows (bindingOf (job.completion result)) (some (job.completion result)) :=
    fun _ => by
      unfold writeRow
      exact if_pos rfl
  have haudit : ∀ rows : Rows, writeRow (writeRow rows ⟨.clock .event, reading⟩)
      ⟨.auditRequired .tx (job.auditEvent e result reading), .returned () .nil⟩ = rows :=
    fun _ => rfl
  unfold Job.audited Job.completed Job.ifKeyed
  rw [if_neg hkeyed]
  simp only [List.foldl_append, List.foldl_cons, List.foldl_nil]
  rw [haudit, hcomplete, Function.update_self]

end Rows

/-! ### The contract -/

section Contract

variable {e : Engine} {given : Action.Types.Request} {events tx : History}

/-- What is committed is the trace of a transaction, when every transaction that ends without an
error has one. -/
theorem trace_of_committed {ends : History → History → Prop} (ha : Atomic events)
    (hc : CommittedIn events tx) (hends : ∀ {h₀ trace}, ends h₀ trace → Interior trace)
    (hfinish : ∀ {before serial finished after},
      events = before ++ ⟨.finish serial .nil, finished⟩ :: after →
        ∃ h₀ trace, ends h₀ trace ∧ before = h₀ ++ ⟨.begin, .run serial⟩ :: trace) :
    ∃ h₀, ends h₀ tx := by
  obtain ⟨before, serial, serial', err, finished, after, rfl, hinterior, hcommitted⟩ := hc
  obtain rfl := ha.succeeded serial' err finished (by simp) hcommitted
  obtain ⟨h₀, trace, htrace, heq⟩ := @hfinish (before ++ ⟨.begin, .run serial⟩ :: tx) serial' finished
    after (by simp)
  obtain ⟨-, rfl⟩ := interior_unique rfl
    (show isBoundary (⟨.begin, .run serial'⟩ : Environment.Call).op = true from rfl) hinterior
    (hends htrace) heq
  exact ⟨h₀, htrace⟩

/-- What is committed of `Execute` is a transaction that ended well. -/
theorem settled_of_committed {hasContext : Bool} {result : Except Err Result}
    (hr : (execute e hasContext given).Runs events result) (ha : Atomic events)
    (hc : CommittedIn events tx) : ∃ h₀ outcome, Settled e given h₀ tx outcome := by
  refine @trace_of_committed events tx (fun h₀ tx => ∃ outcome, Settled e given h₀ tx outcome) ha hc
    (Exists.elim · fun _ => interior_of_settled) ?_
  rintro before serial finished after rfl
  obtain ⟨h₀, trace, outcome, hs, heq⟩ := (meets_execute hasContext).calls hr.calls rfl
  exact ⟨h₀, trace, ⟨outcome, hs⟩, heq⟩

/-- What is committed of `Preview` is a transaction that ended well. -/
theorem previewed_of_committed {hasContext : Bool} {result : Except Err Preview}
    (hr : (preview e hasContext given).Runs events result) (ha : Atomic events)
    (hc : CommittedIn events tx) : ∃ h₀ plan, Previewed e given h₀ tx plan := by
  refine @trace_of_committed events tx (fun h₀ tx => ∃ plan, Previewed e given h₀ tx plan) ha hc
    (Exists.elim · fun _ => interior_of_previewed) ?_
  rintro before serial finished after rfl
  obtain ⟨h₀, trace, plan, hp, heq⟩ := (meets_preview hasContext).calls hr.calls rfl
  exact ⟨h₀, trace, ⟨plan, hp⟩, heq⟩

/-- A success of `Execute` was committed. -/
theorem committed_of_ok {hasContext : Bool} {result : Result}
    (hr : (execute e hasContext given).Runs events (.ok result)) (ha : Atomic events) :
    ∃ tx, CommittedIn events tx ∧
      (Whole given tx result ∨ (Untouched tx ∧ Replays tx result)) ∧
      ∀ rows, given.idempotencyKey ≠ .utf8 "" → Whole given tx result →
        ∃ record : IdempotencyRecord, record.status = .completed ∧ record.result = result ∧
          rowsAfter rows events (requestBinding given) = some record := by
  obtain ⟨h₀, trace, tail, serial, outcome, finished, hsettled, heq, hreply, htime, hquiet, rfl⟩ :=
    (meets_execute hasContext).result hr
  rw [List.nil_append] at heq
  subst heq
  have hcommitted := ha.reported serial finished (by simp) hreply
  have hinterior := interior_of_settled hsettled
  refine ⟨trace, ⟨h₀, serial, serial, .nil, finished, tail, rfl, hinterior, hcommitted⟩,
    whole_or_untouched hsettled, ?_⟩
  intro rows hkey hwhole
  cases hsettled with
  | executed ready cleared output =>
    next job i j result reading =>
    have hkeyed := ready.accepted.keyed hkey
    refine ⟨job.completion result, rfl, rfl, ?_⟩
    rw [rowsAfter_committed ready.accepted.quiet hinterior hquiet hcommitted,
      ← bindingOf_completion ready.accepted]
    exact foldl_audited hkeyed rows
  | raced ready cleared keyed replayed =>
    obtain ⟨plan, hm⟩ := hwhole.handler
    simp [Job.cleared, Job.reserveCall, intentCall, impactCall] at hm
  | replayed accepted keyed replayed =>
    obtain ⟨plan, hm⟩ := hwhole.handler
    simp [intentCall, impactCall] at hm

/-- **Executions and previews are atomic.** Over a manager that commits together or not at all, and
wherever a dependency fails or panics: what is committed of an execution is all of it, the handler,
the completed record of its key and its event, or nothing is written; likewise the plan and the event
of a preview; a success was committed. A call that failed leaves the rows of the store as they were,
unless the manager committed its transaction without reporting so; and a key that is reserved while
it is free has its handler run. -/
theorem executions_atomic (e : Engine) (given : Action.Types.Request) (hasContext : Bool) :
    (∀ events result, (execute e hasContext given).Runs events result → Atomic events →
      (∀ tx, CommittedIn events tx → (∃ r, Whole given tx r) ∨ Untouched tx) ∧
      (∀ r, result = .ok r → ∃ tx, CommittedIn events tx ∧
        (Whole given tx r ∨ (Untouched tx ∧ Replays tx r)) ∧
        ∀ rows, given.idempotencyKey ≠ .utf8 "" → Whole given tx r →
          ∃ record : IdempotencyRecord, record.status = .completed ∧ record.result = r ∧
            rowsAfter rows events (requestBinding given) = some record) ∧
      (∀ err rows, result = .error err →
        rowsAfter rows events = rows ∨ CommittedUnreported events) ∧
      ((∃ record, ⟨.reserve .tx record, .returned none .nil⟩ ∈ events) →
        ∃ c ∈ events, executes c.op = true)) ∧
    ∀ events result, (preview e hasContext given).Runs events result → Atomic events →
      (∀ tx, CommittedIn events tx → ∃ plan, Saved tx plan) ∧
      ∀ p, result = .ok p → ∃ tx plan, CommittedIn events tx ∧ Saved tx plan ∧
        p.planHash = plan.hash := by
  constructor
  · intro events result hr ha
    have hpending := (@meets_execute_pending e given hasContext).result hr
    rw [List.nil_append] at hpending
    refine ⟨?_, ?_, ?_, hpending.1⟩
    · intro tx hc
      obtain ⟨h₀, outcome, hsettled⟩ := settled_of_committed hr ha hc
      rcases whole_or_untouched hsettled with hwhole | ⟨huntouched, -⟩
      · exact Or.inl ⟨_, hwhole⟩
      · exact Or.inr huntouched
    · rintro r rfl
      exact committed_of_ok hr ha
    · rintro err rows rfl
      rcases hpending.2 with ⟨a, hok⟩ | hunreported
      · cases hok
      · exact rows_of_unreported hunreported ha rows
  · intro events result hr ha
    constructor
    · intro tx hc
      obtain ⟨h₀, plan, hpreviewed⟩ := previewed_of_committed hr ha hc
      exact ⟨plan, saved_of_previewed hpreviewed⟩
    · rintro p rfl
      obtain ⟨h₀, trace, serial, plan, finished, hpreviewed, heq, hreply, -, hhash, -, -⟩ :=
        (meets_preview hasContext).result hr
      rw [List.nil_append] at heq
      subst heq
      have hcommitted := ha.reported serial finished (by simp) hreply
      exact ⟨trace, plan, ⟨h₀, serial, serial, .nil, finished, [], rfl,
        interior_of_previewed hpreviewed, hcommitted⟩, saved_of_previewed hpreviewed, hhash⟩

end Contract

/-! ### Samples -/

/-- What the manager of an environment promises, in its runs. -/
theorem Scenario.atomic (scenario : Scenario)
    (hsucceeded : ∀ serial err, (scenario.finish serial err).committed = true → err = .nil)
    (hreported : ∀ serial, (scenario.finish serial .nil).reply = .returned .nil →
      (scenario.finish serial .nil).committed = true) : Atomic scenario.run.1 where
  succeeded serial err finished hm hcommitted := by
    have hreply : finished = scenario.finish serial err := Prog.reply_of_mem_play _ hm
    rw [hreply] at hcommitted
    exact hsucceeded serial err hcommitted
  reported serial finished hm hreply := by
    have heq : finished = scenario.finish serial .nil := Prog.reply_of_mem_play _ hm
    rw [heq] at hreply ⊢
    exact hreported serial hreply

/-- The sample manager promises it. -/
theorem atomic_sample (handler : Reply Result) :
    Atomic ({ handler := handler } : Scenario).run.1 := by
  refine Scenario.atomic _ (fun serial err hcommitted => ?_) fun serial _ => rfl
  by_contra hne
  have hrollback : (({ handler := handler } : Scenario).finish serial err) =
      sampleRollback serial err := if_neg hne
  rw [hrollback] at hcommitted
  cases hcommitted

/-- The sample run leaves the completed record of its key; where the handler panics nothing is
left. -/
theorem executions_atomic_sample :
    (∃ tx record, CommittedIn ({} : Scenario).run.1 tx ∧ Whole sampleRequest tx sampleResult ∧
      rowsAfter (fun _ => none) ({} : Scenario).run.1 (requestBinding sampleRequest) =
        some record) ∧
    rowsAfter (fun _ => none) ({ handler := .panicked } : Scenario).run.1 = fun _ => none := by
  have hcontract := (executions_atomic sampleEngine sampleRequest true).1
  constructor
  · have hok : ({} : Scenario).run.2 = .ok sampleResult := by decide +kernel
    obtain ⟨-, hsuccess, -, -⟩ := hcontract _ _ ({} : Scenario).runs (atomic_sample _)
    obtain ⟨tx, hc, hcases, hrows⟩ := hsuccess sampleResult hok
    have hsub : ∀ c ∈ tx, c ∈ ({} : Scenario).run.1 := by
      obtain ⟨before, serial, serial', err, finished, after, heq, -, -⟩ := hc
      intro c hm
      rw [heq]
      simp [hm]
    have hwhole : Whole sampleRequest tx sampleResult := by
      rcases hcases with hwhole | ⟨-, existing, -, ⟨record, hm⟩ | ⟨record, hm⟩⟩
      · exact hwhole
      · cases Prog.reply_of_mem_play _ (hsub _ hm)
      · cases Prog.reply_of_mem_play _ (hsub _ hm)
    obtain ⟨record, -, -, hrow⟩ := hrows (fun _ => none) (by decide) hwhole
    exact ⟨tx, record, hc, hwhole, hrow⟩
  · have hcode : codeOf sampleEngine.heap ({ handler := .panicked } : Scenario).run.2 =
        some codeInternal := by decide +kernel
    obtain ⟨err, herr, -⟩ := codeOf_eq_some hcode
    obtain ⟨-, -, hfailure, -⟩ :=
      hcontract _ _ ({ handler := .panicked } : Scenario).runs (atomic_sample _)
    rcases hfailure err (fun _ => none) herr with hrows | ⟨serial, finished, hm, -, hnot⟩
    · exact hrows
    · have hreply : finished = sampleCommit := Prog.reply_of_mem_play _ hm
      rw [hreply] at hnot
      exact absurd ⟨rfl, rfl⟩ hnot

/-- A manager that commits, and then loses the connection. -/
def lostCommit (err : Err) : Finished where
  reply := .returned (.message "connection lost")
  inTime := true
  committed := err == .nil

/-- The sample environment with this manager. -/
def lostScenario : Scenario := { finish := fun _ err => lostCommit err }

/-- The call fails, but its key is not free. -/
theorem lost_commit_keeps_key : ¬ ∀ (e : Engine) (given : Action.Types.Request) (hasContext : Bool)
    (events : History) (err : Err) (rows : Rows),
    (execute e hasContext given).Runs events (.error err) → Atomic events →
    given.idempotencyKey ≠ .utf8 "" → rows (requestBinding given) = none →
    rowsAfter rows events (requestBinding given) = none := by
  intro hall
  have hcode : codeOf sampleEngine.heap lostScenario.run.2 = some codeInternal := by decide +kernel
  obtain ⟨err, herr, -⟩ := codeOf_eq_some hcode
  have hruns := lostScenario.runs
  rw [herr] at hruns
  have hatomic : Atomic lostScenario.run.1 := by
    refine Scenario.atomic _ (fun serial err hcommitted => ?_) fun serial hreply => ?_
    · exact beq_iff_eq.mp hcommitted
    · cases hreply
  have hnone := hall sampleEngine sampleRequest true _ err (fun _ => none) hruns hatomic (by decide) rfl
  have hsome : (rowsAfter (fun _ => none) lostScenario.run.1
      (requestBinding sampleRequest)).isSome = true := by decide +kernel
  rw [hnone] at hsome
  cases hsome

end Modary.Runtime.Atomicity
