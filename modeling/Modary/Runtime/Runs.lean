import Modary.Runtime.Traces

/-! # Runs of the entry points

From the call of `Execute` or `Preview` to its return: the plan is resolved, the transaction runs, and
an error is audited and let out through the last gate. -/

namespace Modary.Runtime.Runs

open Modary.Lib.GoText Modary.Lib.Prog
open Modary.Action.Authz Modary.Action.Errors Modary.Action.Types
open Modary.Action.Persistence Modary.Runtime.Failures Modary.Runtime.Callback
open Modary.Runtime.Transaction Modary.Runtime.Environment Modary.Runtime.Engine
open Modary.Runtime.Faults Modary.Runtime.Traces

/-- Nothing was called in a transaction yet, and nothing has failed. -/
def Calm (e : Engine) (h : History) : Prop :=
  (∀ c ∈ h, quiet c.op = true) ∧ faults e.heap h = []

theorem Calm.snoc {e : Engine} {h : History} {op : Op} {r : op.Response} (hc : Calm e h)
    (hq : quiet op = true) (hf : faults e.heap (h ++ [⟨op, r⟩]) = []) :
    Calm e (h ++ [⟨op, r⟩]) := by
  refine ⟨fun c hm => ?_, hf⟩
  rcases List.mem_append.mp hm with hm | hm
  · exact hc.1 c hm
  · obtain rfl := List.mem_singleton.mp hm
    exact hq

/-! ### Plans -/

theorem checkLoaded_ok {e : Engine} {request : Action.Types.Request} {registered : Registration}
    {plan : Plan} (h : checkLoaded e request registered plan = .ok ()) :
    validatePlanRecord e.checks plan = .ok () ∧ plan.hash = request.planHash ∧
      hashPlan e plan = .ok plan.hash ∧
      ∃ canonical inputHash, canonicalInput e request.input = .ok (canonical, inputHash) ∧
        boundTo plan request registered inputHash = true := by
  unfold checkLoaded at h
  obtain ⟨_, -, h⟩ := bind_eq_ok.mp h
  obtain ⟨_, -, h⟩ := bind_eq_ok.mp h
  obtain ⟨_, hv, h⟩ := bind_eq_ok.mp h
  obtain ⟨_, hh, h⟩ := bind_eq_ok.mp h
  obtain ⟨⟨canonical, inputHash⟩, hi, h⟩ := bind_eq_ok.mp h
  have hv := refuseIf_eq_ok.mp hv
  have hh := refuseIf_eq_ok.mp hh
  push Not at hh
  refine ⟨?_, hh.1, hh.2, canonical, inputHash, hi, by simpa using refuseIf_eq_ok.mp h⟩
  rcases hr : validatePlanRecord e.checks plan with err | u
  · rw [hr] at hv
    exact absurd rfl hv
  · rfl

/-- A sealed plan passes the checks and carries its own hash. -/
theorem sealExecutionPlan_ok {e : Engine} {plan sealed : Plan} {fingerprint : GoString}
    (h : sealExecutionPlan e plan fingerprint = .ok sealed) :
    validatePlanRecord e.checks sealed = .ok () ∧ hashPlan e sealed = .ok sealed.hash := by
  unfold sealExecutionPlan at h
  split at h
  · cases h
  split at h
  · cases h
  dsimp only at h
  split at h
  · cases h
  next hash hh =>
  split at h
  · cases h
  next hv =>
  obtain rfl := Except.ok.inj h
  refine ⟨?_, hh⟩
  rcases hr : validatePlanRecord e.checks
    { plan with decisionFingerprint := fingerprint, hash := hash } with err | u
  · rw [hr] at hv
    cases hv
  · rfl

section Plans

variable {e : Engine} {A : History → Op → Prop} {h : History} {request : Action.Types.Request}
  {registered : Registration}

theorem meets_loadExecutionPlan (hA : ∀ h op, quiet op = true → A h op) (hc : Calm e h) :
    Attempt.Meets A
      (fun h' plan => Calm e h' ∧ (∃ seg, h' = h ++ seg) ∧ Loaded e request registered h' plan)
      (Blamed e registered.descriptor) (loadExecutionPlan e request registered) h := by
  unfold loadExecutionPlan
  have hget : Attempt.Meets A
      (fun h' plan => h' = h ++ [⟨.planGet .request request.planHash, .returned plan .nil⟩] ∧
        faults e.heap h' = [])
      (Blamed e registered.descriptor)
      (Attempt.attempt (.planGet .request request.planHash) (loaded e request registered)) h := by
    refine Attempt.meets_attempt.mpr ⟨hA _ _ rfl, fun reply => ?_⟩
    unfold loaded
    cases hd : Reply.dependency "load preview plan" reply with
    | ok plan =>
      obtain rfl := dependency_eq_ok.mp hd
      refine ⟨rfl, ?_⟩
      rw [faults_append, hc.2]
      rfl
    | error err =>
      dsimp only
      have hi := (dependency_eq_error hd).1
      have hf : faults e.heap (h ++ [⟨.planGet .request request.planHash, reply⟩]) =
          [if is e.heap err (.sentinel .planNotFound) then .planMissing else .dependency] := by
        rw [faults_append, hc.2, faults_cons]
        simp only [fault, hd]
        split <;> rfl
      split
      · next hn =>
        rw [if_pos hn] at hf
        refine Fit.withRequest (fit_action.mpr ?_) _ _
        rw [hf]
        refine ⟨⟨Or.inl (by decide), ?_, ?_, ?_, fun _ => rfl⟩, Or.inl rfl,
          Or.inr ⟨by decide, by decide⟩⟩
        · exact fun h => absurd h (by decide)
        · exact fun h => absurd h (by decide)
        · exact fun h => absurd h (by decide)
      · next hn =>
        rw [if_neg hn] at hf
        refine Fit.withRequest (blamed_of_internal ?_ ⟨_, _, rfl⟩).1 _ _
        rw [hf]
        decide
  refine hget.bind ?_
  rintro h₁ plan ⟨rfl, h0⟩
  refine Attempt.meets_adapt.mpr ?_
  -- from here on every error may be reported as an internal one too
  refine Attempt.Meets.mono (E := BlamedInside e registered.descriptor) ?_ (fun _ _ => id)
    fun _ _ hb => (hb.withRequest _ _).1
  refine Attempt.Meets.bind (meets_check h0 (own_checkLoaded e request registered plan)) ?_
  rintro h' _ ⟨rfl, hl⟩
  refine Attempt.Meets.bind (meets_currentTime (hA _ _ rfl) h0) ?_
  rintro h' now ⟨nanos, rfl, rfl, h0'⟩
  refine Attempt.Meets.bind (meets_check h0' (own_checkCurrent _ plan)) ?_
  rintro h' _ ⟨rfl, hn⟩
  obtain ⟨_, hn, -⟩ := bind_eq_ok.mp hn
  have hn := refuseIf_eq_ok.mp hn
  exact Attempt.meets_pure.mpr ⟨(hc.snoc rfl h0).snoc rfl h0', ⟨_, List.append_assoc _ _ _⟩,
    h, [], nanos, by simp, by simpa using hn, hl⟩

/-- A plan that the handler made for this request is not sealed yet. -/
theorem meets_planInline (hA : ∀ h op, quiet op = true → A h op) (hc : Calm e h) :
    Attempt.Meets A
      (fun h' plan => Calm e h' ∧ (∃ seg, h' = h ++ seg) ∧ plan.decisionFingerprint = .utf8 "")
      (BlamedInside e registered.descriptor) (planInline e request registered) h := by
  unfold planInline
  refine Attempt.Meets.bind (meets_handlerPlan (hA _ _ rfl) hc.2) ?_
  rintro h₁ data ⟨rfl, h0⟩
  refine Attempt.Meets.bind (meets_check h0 (own_checkPlanned e request registered data)) ?_
  rintro h' inputHash ⟨rfl, -⟩
  refine Attempt.Meets.bind (meets_currentTime (hA _ _ rfl) h0) ?_
  rintro h' now ⟨nanos, -, rfl, h0'⟩
  refine Attempt.Meets.bind (meets_check h0' (own_canonicalHandlerJSON e _ _)) ?_
  rintro h' payload ⟨rfl, -⟩
  exact Attempt.meets_pure.mpr
    ⟨(hc.snoc rfl h0).snoc rfl h0', ⟨_, List.append_assoc _ _ _⟩, rfl⟩

theorem meets_resolveExecutionPlan (hA : ∀ h op, quiet op = true → A h op) (hc : Calm e h) :
    Attempt.Meets A
      (fun h' plan => Calm e h' ∧ (∃ seg, h' = h ++ seg) ∧
        if request.planHash = .utf8 "" then plan.decisionFingerprint = .utf8 ""
        else Loaded e request registered h' plan)
      (Blamed e registered.descriptor) (resolveExecutionPlan e request registered) h := by
  unfold resolveExecutionPlan
  cases hp : validateExecutionPlanPolicy registered.descriptor request.planHash with
  | error err =>
    exact ((blamed_of_own hc.2 (own_validateExecutionPlanPolicy _ _ err hp)).withRequest _ _).1
  | ok _ =>
    dsimp only
    by_cases hn : request.planHash = .utf8 ""
    · rw [if_neg (not_not.mpr hn)]
      simp only [hn, if_true]
      refine Attempt.meets_adapt.mpr ((meets_planInline hA hc).mono (fun _ _ => id) ?_)
      exact fun _ _ hb => (hb.withRequest _ _).1
    · rw [if_pos hn]
      simp only [hn, if_false]
      exact meets_loadExecutionPlan hA hc

/-! ### Exits -/

/-- The error of an exit may be reported. -/
def BlamedExit (e : Engine) (descriptor : Descriptor) (h : History) (exit : Exit) : Prop :=
  Blamed e descriptor h exit.err

theorem meets_exiting {α : Type} {Q : History → α → Prop} {step : Step α} {descriptor : Descriptor}
    (hs : Attempt.Meets A Q (Blamed e descriptor) step h) :
    Attempt.Meets A Q (BlamedExit e descriptor) (exiting request registered step) h :=
  Attempt.meets_adapt.mpr hs

theorem meets_decorated {α : Type} {Q : History → α → Prop} {step : Step α}
    {descriptor : Descriptor} (hs : Attempt.Meets A Q (Blamed e descriptor) step h) :
    Attempt.Meets A Q (BlamedExit e descriptor) (decorated e request registered step) h :=
  Attempt.meets_adapt.mpr (hs.mono (fun _ _ => id) fun _ _ hb => Fit.withRequest hb _ _)

theorem blamed_of_inside {α : Type} {Q : History → α → Prop} {step : Step α}
    {descriptor : Descriptor} (hs : Attempt.Meets A Q (BlamedInside e descriptor) step h) :
    Attempt.Meets A Q (Blamed e descriptor) step h :=
  hs.mono (fun _ _ => id) fun _ _ hb => hb.1

/-- What is known of a plan once it is prepared. -/
structure Prepared (e : Engine) (request : Action.Types.Request) (registered : Registration)
    (record : IdempotencyRecord) (h : History) (planned : Action.Types.Request) (plan : Plan) :
    Prop where
  calm : Calm e h
  planned : planned = { request with planHash := plan.hash }
  valid : validatePlanRecord e.checks plan = .ok ()
  hashed : hashPlan e plan = .ok plan.hash
  inputHash : record.inputHash = plan.inputHash
  loaded : request.planHash ≠ .utf8 "" → Loaded e request registered h plan

/-- A stored plan is sealed already, a plan of the handler is sealed now. -/
theorem meets_seal {plan : Plan} {fingerprint : GoString} (h0 : faults e.heap h = [])
    (hplan : if request.planHash = .utf8 "" then plan.decisionFingerprint = .utf8 ""
      else Loaded e request registered h plan) :
    Attempt.Meets A
      (fun h' sealed => h' = h ∧ validatePlanRecord e.checks sealed = .ok () ∧
        hashPlan e sealed = .ok sealed.hash ∧
        (request.planHash ≠ .utf8 "" → Loaded e request registered h sealed))
      (Blamed e registered.descriptor)
      (if plan.decisionFingerprint = .utf8 "" then
        Step.ofExcept (sealExecutionPlan e plan fingerprint) else pure plan) h := by
  by_cases hn : request.planHash = .utf8 ""
  · rw [if_pos hn] at hplan
    rw [if_pos hplan]
    refine (blamed_of_inside (meets_check h0 (own_sealExecutionPlan e plan _))).mono ?_
      fun _ _ => id
    rintro h' sealed ⟨rfl, hs⟩
    obtain ⟨h1, h2⟩ := sealExecutionPlan_ok hs
    exact ⟨rfl, h1, h2, fun hne => absurd hn hne⟩
  · rw [if_neg hn] at hplan
    obtain ⟨-, -, -, -, -, hl⟩ := id hplan
    obtain ⟨h1, -, h3, -⟩ := checkLoaded_ok hl
    rw [if_neg (fingerprint_ne_of_valid h1)]
    exact Attempt.meets_pure.mpr ⟨rfl, h1, h3, fun _ => hplan⟩

theorem meets_preparePlan {intent : Decision} {record : IdempotencyRecord}
    (hA : ∀ h op, quiet op = true → A h op) (hc : Calm e h) :
    Attempt.Meets A
      (fun h' p => (∃ seg, h' = h ++ seg) ∧ Prepared e request registered record h' p.1 p.2)
      (BlamedExit e registered.descriptor) (preparePlan e request registered intent record) h := by
  unfold preparePlan
  refine Attempt.Meets.bind (meets_exiting (meets_resolveExecutionPlan hA hc)) ?_
  rintro h₁ plan ⟨hc₁, ⟨seg, rfl⟩, hplan⟩
  dsimp only
  refine Attempt.Meets.bind
    (meets_exiting (blamed_of_inside (meets_authorizeImpact (hA _ _ rfl) hc₁.2))) ?_
  rintro h₂ decision ⟨reply, rfl, -, -, -, h0⟩
  have hc₂ := hc₁.snoc rfl h0
  have hplan' : ∀ seg', if request.planHash = .utf8 "" then plan.decisionFingerprint = .utf8 ""
      else Loaded e request registered (h ++ seg ++ seg') plan := by
    intro seg'
    by_cases hn : request.planHash = .utf8 ""
    · simpa [hn] using hplan
    · simp only [hn, if_false] at hplan ⊢
      exact hplan.append seg'
  refine Attempt.Meets.bind (meets_decorated (meets_seal h0 (hplan' _))) ?_
  rintro h' sealed ⟨rfl, h1, h2, h3⟩
  refine Attempt.Meets.bind (meets_decorated (blamed_of_inside
    (meets_check h0 (fails_refuseIf (own_newError rfl _))))) ?_
  rintro h' _ ⟨rfl, hi⟩
  refine Attempt.meets_pure.mpr ⟨⟨_, List.append_assoc _ _ _⟩, hc₂, ?_, h1, h2, ?_, h3⟩
  · split_ifs <;> rfl
  · simpa using refuseIf_eq_ok.mp hi

end Plans

/-! ### `Execute` on an admitted request -/

/-- The result that an outcome carries. -/
def resultOf : Engine.Outcome → Result
  | .executed result => result
  | .replayed _ result => result

/-- A call of `Execute` that succeeds: its one transaction has one of the traces, the manager
reported it committed, and after that only an event was recorded. -/
def Finishes (e : Engine) (given : Action.Types.Request) (h : History) (result : Result) : Prop :=
  ∃ (h₀ trace tail : History) (serial : ℕ) (outcome : Engine.Outcome) (finished : Finished),
    Settled e given h₀ trace outcome ∧
    h = h₀ ++ ⟨.begin, .run serial⟩ :: (trace ++ ⟨.finish serial .nil, finished⟩ :: tail) ∧
    finished.reply = .returned .nil ∧ finished.inTime = true ∧
    (∀ c ∈ tail, quiet c.op = true) ∧ result = resultOf outcome

/-- What is known of a request that passed the checks of the entry points. -/
structure Admitted (e : Engine) (given : Action.Types.Request) (h : History)
    (request : Action.Types.Request) (registered : Registration) : Prop where
  calm : Calm e h
  acquired : ⟨.acquire given.actionID, .found registered⟩ ∈ h
  normalized : ∃ id canonical hash, request = { given with requestID := id, input := canonical } ∧
    canonicalInput e given.input = .ok (canonical, hash)
  passed : ∃ id, validated e { given with requestID := id } (some registered) = .ok request

theorem Admitted.append {e : Engine} {given request : Action.Types.Request} {h : History}
    {registered : Registration} (ha : Admitted e given h request registered) {seg : History}
    (hc : Calm e (h ++ seg)) : Admitted e given (h ++ seg) request registered :=
  ⟨hc, List.mem_append_left _ ha.acquired, ha.normalized, ha.passed⟩

section Execute

variable {e : Engine} {given request : Action.Types.Request} {registered : Registration}
  {h : History} {startedAt : Time}

theorem Prepared.ready {record : IdempotencyRecord} {planned : Action.Types.Request} {plan : Plan}
    (hp : Prepared e request registered record h planned plan) (startedAt : Time)
    (ha : Admitted e given h request registered)
    (hr : ∃ canonical hash, canonicalInput e request.input = .ok (canonical, hash) ∧
      record = requestRecord request registered hash) :
    Ready e given h ⟨startedAt, request, registered, record, plan⟩ where
  accepted := ⟨hp.calm.1, hp.calm.2, ha.acquired, ha.normalized, ha.passed, hr⟩
  valid := hp.valid
  hashed := hp.hashed
  inputHash := hp.inputHash
  loaded := hp.loaded

/-- The input hash of `Execute`. -/
theorem checkExecute_ok {inputHash : GoString}
    (hc : checkExecute e request registered = .ok inputHash) :
    ∃ canonical, canonicalInput e request.input = .ok (canonical, inputHash) := by
  unfold checkExecute at hc
  iterate 2 obtain ⟨_, -, hc⟩ := bind_eq_ok.mp hc
  obtain ⟨⟨canonical, hash⟩, hinput, hc⟩ := bind_eq_ok.mp hc
  obtain rfl : hash = inputHash := Except.ok.inj hc
  exact ⟨canonical, hinput⟩

/-- The record of an execution is that of its canonical input. -/
theorem record_of_checkExecute {inputHash : GoString}
    (hc : checkExecute e request registered = .ok inputHash) :
    ∃ canonical hash, canonicalInput e request.input = .ok (canonical, hash) ∧
      requestRecord request registered inputHash = requestRecord request registered hash := by
  obtain ⟨canonical, hinput⟩ := checkExecute_ok hc
  exact ⟨canonical, inputHash, hinput, rfl⟩

theorem meets_settle {outcome : Engine.Outcome} :
    Prog.Meets (Ordered e given)
      (fun h' result => (∃ tail, h' = h ++ tail ∧ ∀ c ∈ tail, quiet c.op = true) ∧
        result = resultOf outcome)
      (outcome.settle e startedAt request registered) h := by
  cases outcome with
  | executed result => exact ⟨⟨[], by simp⟩, rfl⟩
  | replayed existing result =>
    unfold Outcome.settle
    refine Prog.meets_bind.mpr ((meets_event rfl).mono ?_)
    rintro h' auditEvent ⟨reading, rfl, -⟩
    refine ⟨rfl, fun reply => ⟨⟨_, List.append_assoc _ _ _, ?_⟩, rfl⟩⟩
    intro c hc
    rcases List.mem_append.mp hc with hc | hc
    · obtain rfl := List.mem_singleton.mp hc
      rfl
    · obtain rfl := List.mem_singleton.mp hc
      rfl

/-- The transaction of `Execute` and what follows it. -/
theorem meets_outcome {descriptor : Descriptor} {body : Step Engine.Outcome} (hc : Calm e h)
    (hbody : ∀ serial, faults e.heap (h ++ [⟨.begin, .run serial⟩]) = [] →
      Attempt.Meets (Ordered e given) (Ends e given h serial) (Surfaceable e descriptor) body
        (h ++ [⟨.begin, .run serial⟩])) :
    Attempt.Meets (Ordered e given) (Finishes e given) (BlamedExit e descriptor)
      (do
        let outcome ← decorated e request registered (withinTransaction e body)
        ExceptT.lift (outcome.settle e startedAt request registered)) h := by
  refine Attempt.Meets.bind (meets_decorated (meets_transaction (fun c hm => hc.1 c hm) hc.2 ?_ ?_
    hbody)) ?_
  · rintro serial h' outcome ⟨trace, hs, rfl, h0⟩
    exact ⟨fun _ => ⟨h, trace, outcome, hs, rfl⟩, h0⟩
  · exact fun serial h' err hn hnil => absurd hnil hn
  · rintro h' outcome ⟨serial, h'', finished, ⟨trace, hs, rfl, -⟩, rfl, hr, ht, -⟩
    refine meets_lift.mpr (meets_settle.mono ?_)
    rintro h' result ⟨⟨tail, rfl, hq⟩, rfl⟩
    exact ⟨h, trace, tail, serial, outcome, finished, hs, by simp, hr, ht, hq, rfl⟩

theorem meets_executeFresh {intent : Decision} {record : IdempotencyRecord}
    (ha : Admitted e given h request registered)
    (hr : ∃ canonical hash, canonicalInput e request.input = .ok (canonical, hash) ∧
      record = requestRecord request registered hash) :
    Attempt.Meets (Ordered e given) (Finishes e given) (BlamedExit e registered.descriptor)
      (executeFresh e startedAt request registered intent record) h := by
  unfold executeFresh
  refine (meets_preparePlan (fun _ _ => ordered_of_quiet) ha.calm).bind ?_
  rintro h' ⟨planned, plan⟩ ⟨⟨seg, rfl⟩, hp⟩
  have hready := hp.ready startedAt (ha.append hp.calm) hr
  obtain rfl : planned = { request with planHash := plan.hash } := hp.planned
  exact meets_outcome hp.calm fun serial h0 => meets_executeBody hready h0

theorem meets_executeReplay {record : IdempotencyRecord}
    (ha : Admitted e given h request registered) (hk : request.idempotencyKey ≠ .utf8 "")
    (hr : ∃ canonical hash, canonicalInput e request.input = .ok (canonical, hash) ∧
      record = requestRecord request registered hash) :
    Attempt.Meets (Ordered e given) (Finishes e given) (BlamedExit e registered.descriptor)
      (executeReplay e startedAt request registered record) h := by
  have hacc : Accepted e given h request registered record :=
    ⟨ha.calm.1, ha.calm.2, ha.acquired, ha.normalized, ha.passed, hr⟩
  exact meets_outcome ha.calm fun serial h0 =>
    (meets_replayBody hacc hk h0).mono (fun _ _ => id) fun _ _ hb => hb.surfaceable

theorem meets_executeAdmitted (ha : Admitted e given h request registered) :
    Attempt.Meets (Ordered e given) (Finishes e given) (BlamedExit e registered.descriptor)
      (executeAdmitted e startedAt request registered) h := by
  unfold executeAdmitted
  refine Attempt.Meets.bind (meets_exiting (blamed_of_inside
    (meets_authorizeWithFallback (ordered_of_quiet rfl) ha.calm.2))) ?_
  rintro h' intent ⟨reply, rfl, -, h0⟩
  have ha := ha.append (ha.calm.snoc rfl h0)
  refine Attempt.Meets.bind (meets_decorated (blamed_of_inside
    (meets_check h0 (own_checkExecute e request registered)))) ?_
  rintro h' inputHash ⟨rfl, hc⟩
  have hr := record_of_checkExecute hc
  split
  · exact meets_executeFresh ha hr
  next hk =>
  refine Attempt.Meets.bind (meets_decorated (blamed_of_inside
    (meets_lookup (ordered_of_quiet rfl) h0))) ?_
  rintro h' found ⟨rfl, h0⟩
  have ha := ha.append (ha.calm.snoc rfl h0)
  cases found with
  | some existing => exact meets_executeReplay ha hk hr
  | none => exact meets_executeFresh ha hr

end Execute

/-! ### The way in and the way out -/

/-- **What a call may report**, given the faults of its run: a built-in code with its own kind or a
code that the acquired action declares; after a failure of the handler neither a denial nor a code of
the framework's own; a denial only after a denied decision or a failed check of the caller; and after
any other failure of a dependency an internal error, or that the plan was not found. -/
structure Verdict (e : Engine) (given : Action.Types.Request) (h : History) (report : Report) :
    Prop where
  declared : builtinErrorKind report.1 = some report.2 ∨
    (builtinErrorKind report.1 = none ∧ report.2.valid = true ∧ report.2 ≠ .internal ∧
      ∃ registered, ⟨.acquire given.actionID, .found registered⟩ ∈ h ∧
        { code := report.1, kind := report.2 } ∈ registered.descriptor.errors)
  handler : .handler ∈ faults e.heap h → report.2 ≠ .denied ∧
    ((builtinErrorKind report.1).isSome → report.1 ∈ codeInternal :: handlerCodes)
  denied : report.2 = .denied → .denial ∈ faults e.heap h ∨
    ∃ registered, ⟨.acquire given.actionID, .found registered⟩ ∈ h ∧
      (checkCaller given registered).isOk = false
  dependency : .dependency ∈ faults e.heap h → report.1 = codeInternal
  missing : .planMissing ∈ faults e.heap h → report.1 = codePlanNotFound

section Governed

variable {e : Engine} {given : Action.Types.Request} {h : History}

theorem Verdict.known {report : Report} (hv : Verdict e given h report) : Known report :=
  hv.declared.imp_right fun hd => ⟨hd.1, hd.2.1, hd.2.2.1⟩

theorem mem_errors_of_descriptorErrorKind {descriptor : Descriptor} {code : GoString}
    {kind : ErrorKind} (hb : builtinErrorKind code = none)
    (hd : descriptorErrorKind descriptor code = some kind) :
    { code := code, kind := kind } ∈ descriptor.errors := by
  simp only [descriptorErrorKind, hb] at hd
  split at hd
  · next spec hs =>
    split at hd
    · obtain rfl := Option.some.inj hd
      have hc := List.find?_some hs
      obtain rfl : spec.code = code := by simpa using hc
      exact List.mem_of_find?_eq_some hs
    · cases hd
  · cases hd

/-- What an action with an acquired descriptor may report, the call may report. -/
theorem verdict_of_ruling {registered : Registration} {report : Report}
    (hr : Ruling registered.descriptor (faults e.heap h) report)
    (ha : ⟨.acquire given.actionID, .found registered⟩ ∈ h) : Verdict e given h report where
  declared := hr.declared.imp_right fun hd =>
    ⟨hd.1, descriptorErrorKind_valid hd.2.1, hd.2.2, registered, ha,
      mem_errors_of_descriptorErrorKind hd.1 hd.2.1⟩
  handler := hr.handler
  denied hd := Or.inl (hr.denied hd)
  dependency := hr.dependency
  missing := hr.missing

/-- An action that is not there declares no code. -/
theorem verdict_of_ruling_zero {report : Report}
    (hr : Ruling Registration.zero.descriptor (faults e.heap h) report) : Verdict e given h report where
  declared := hr.declared.imp_right fun hd =>
    absurd (mem_errors_of_descriptorErrorKind hd.1 hd.2.1) (List.not_mem_nil)
  handler := hr.handler
  denied hd := Or.inl (hr.denied hd)
  dependency := hr.dependency
  missing := hr.missing

theorem verdict_of_builtin {report : Report} (h0 : faults e.heap h = [])
    (hb : builtinErrorKind report.1 = some report.2) (hd : report.2 ≠ .denied) :
    Verdict e given h report where
  declared := Or.inl hb
  handler hf := absurd hf (by simp [h0])
  denied h := absurd h hd
  dependency hf := absurd hf (by simp [h0])
  missing hf := absurd hf (by simp [h0])

/-- Only the faults and what was acquired count. -/
theorem Verdict.append {report : Report} (hv : Verdict e given h report) {tail : History}
    (ht : faults e.heap tail = []) : Verdict e given (h ++ tail) report := by
  have hf : faults e.heap (h ++ tail) = faults e.heap h := by simp [ht]
  exact
    { declared := hv.declared.imp_right fun ⟨h1, h2, h3, registered, ha, hm⟩ =>
        ⟨h1, h2, h3, registered, List.mem_append_left _ ha, hm⟩
      handler := by rw [hf]; exact hv.handler
      denied := by
        rw [hf]
        exact fun hd => (hv.denied hd).imp_right fun ⟨registered, ha, hc⟩ =>
          ⟨registered, List.mem_append_left _ ha, hc⟩
      dependency := by rw [hf]; exact hv.dependency
      missing := by rw [hf]; exact hv.missing }

theorem fit_of_own {err : Err} (h0 : faults e.heap h = []) (ho : Own err) :
    Fit e.heap (Verdict e given h) err :=
  ho.fit e.heap fun _ => verdict_of_builtin h0

theorem checkCaller_error {request : Action.Types.Request} {registered : Registration} {err : Err}
    (hc : checkCaller request registered = .error err) :
    ∃ text, err = newError codeAuthzDenied (.utf8 text) := by
  have hall : Fails (fun err => ∃ text, err = newError codeAuthzDenied (.utf8 text))
      (checkCaller request registered) := by
    unfold checkCaller
    refine .bind (fails_refuseIf ⟨_, rfl⟩) fun _ => ?_
    exact .bind (fails_refuseIf ⟨_, rfl⟩) fun _ => fails_refuseIf ⟨_, rfl⟩
  exact hall err hc

/-- The check of the caller denies. -/
theorem fit_of_checkCaller {registered : Registration} {err : Err} (h0 : faults e.heap h = [])
    (ha : ⟨.acquire given.actionID, .found registered⟩ ∈ h)
    (hc : checkCaller given registered = .error err) : Fit e.heap (Verdict e given h) err := by
  obtain ⟨text, rfl⟩ := checkCaller_error hc
  refine fit_action.mpr ⟨?_, Or.inr rfl, Or.inl (verdict_of_builtin h0 (by decide) (by decide))⟩
  exact
    { declared := Or.inl rfl
      handler := fun hf => absurd hf (by simp [h0])
      denied := fun _ => Or.inr ⟨registered, ha, by rw [hc]; rfl⟩
      dependency := fun hf => absurd hf (by simp [h0])
      missing := fun hf => absurd hf (by simp [h0]) }

theorem own_verify {check : SchemaCheck} : Fails Own check.verify := by
  unfold SchemaCheck.verify
  split
  · exact fails_ok _
  · next hn => exact fails_error (own_schemaCheck check hn)

variable {id : GoString} {acquired : Option Registration}

theorem validated_error {exit : Exit} (h0 : faults e.heap h = [])
    (ha : ∀ registered, acquired = some registered →
      ⟨.acquire given.actionID, .found registered⟩ ∈ h)
    (hv : validated e { given with requestID := id } acquired = .error exit) :
    Fit e.heap (Verdict e given h) exit.err := by
  unfold validated at hv
  split at hv
  · obtain rfl := Except.error.inj hv
    exact (fit_of_own h0 (own_newError rfl _)).withRequest _ _
  unfold validateAcquired at hv
  dsimp only at hv
  split at hv
  · obtain rfl := Except.error.inj hv
    exact (fit_of_own h0 (own_newError rfl _)).withRequest _ _
  split at hv
  · obtain rfl := Except.error.inj hv
    exact (fit_of_own h0 (own_newError rfl _)).withRequest _ _
  next registered =>
  split at hv
  · next err hc =>
    obtain rfl := Except.error.inj hv
    exact (fit_of_checkCaller h0 (ha registered rfl) hc).withRequest _ _
  split at hv
  · next err hi =>
    obtain rfl := Except.error.inj hv
    exact (fit_of_own h0 (own_canonicalInput e _ err hi)).withRequest _ _
  split at hv
  · next err hi =>
    obtain rfl := Except.error.inj hv
    exact (fit_of_own h0 (own_verify err hi)).withRequest _ _
  · cases hv

theorem validated_ok {request : Action.Types.Request}
    (hv : validated e { given with requestID := id } acquired = .ok request) :
    ∃ registered canonical hash, acquired = some registered ∧
      request = { given with requestID := id, input := canonical } ∧
      canonicalInput e given.input = .ok (canonical, hash) := by
  unfold validated at hv
  split at hv
  · cases hv
  unfold validateAcquired at hv
  dsimp only at hv
  split at hv
  · cases hv
  split at hv
  · cases hv
  next registered =>
  split at hv
  · cases hv
  split at hv
  · cases hv
  next canonical hash hi =>
  split at hv
  · cases hv
  · obtain rfl := Except.ok.inj hv
    exact ⟨registered, canonical, hash, rfl, rfl, hi⟩

variable {A : History → Op → Prop}

theorem meets_fail {startedAt : Time} {exit : Exit} (hA : ∀ h op, quiet op = true → A h op) :
    Prog.Meets A
      (fun h' err => ∃ tail, h' = h ++ tail ∧ (∀ c ∈ tail, quiet c.op = true) ∧
        faults e.heap tail = [] ∧ err = finalizeRuntimeFailure e.heap
          (withRequest e.heap exit.err exit.request exit.registered.descriptor.permission))
      (fail e startedAt exit) h := by
  unfold fail
  refine Prog.meets_bind.mpr ((meets_event (hA _ _ rfl)).mono ?_)
  rintro h' auditEvent ⟨reading, rfl, -⟩
  refine ⟨hA _ _ rfl, fun reply => ⟨_, List.append_assoc _ _ _, ?_, rfl, rfl⟩⟩
  intro c hc
  rcases List.mem_append.mp hc with hc | hc
  · obtain rfl := List.mem_singleton.mp hc
    rfl
  · obtain rfl := List.mem_singleton.mp hc
    rfl

/-- The postcondition of an entry point. -/
def Returns {α : Type} (e : Engine) (given : Action.Types.Request) (Q : History → α → Prop)
    (h : History) : Except Err α → Prop
  | .ok a => Q h a
  | .error err => Final e.heap (Verdict e given h) err

theorem Fit.final {err : Err} (hf : Fit e.heap (Verdict e given h) err) :
    Final e.heap (Verdict e given h) (finalizeRuntimeFailure e.heap err) :=
  hf.finalize fun _ => Verdict.known

/-- The calls on the way in. -/
def opening : Op → Bool
  | .acquire _ => true
  | .randomRequestID => true
  | .clock _ => true
  | _ => false

theorem quiet_of_opening {op : Op} (ho : opening op = true) : quiet op = true := by
  unfold opening at ho
  split at ho <;> first | rfl | cases ho

theorem meets_normalizeRequest (hA : ∀ h op, opening op = true → A h op) (hc : Calm e h) :
    Prog.Meets A
      (fun h' request => Calm e h' ∧ (∃ seg, h' = h ++ seg) ∧
        ∃ id, (given.requestID ≠ .utf8 "" → id = given.requestID) ∧
          request = { given with requestID := id })
      (normalizeRequest given) h := by
  unfold normalizeRequest
  split
  · next he =>
    refine Prog.meets_bind.mpr ⟨hA _ _ rfl, fun id =>
      ⟨hc.snoc rfl ?_, ⟨_, rfl⟩, id, fun hne => absurd he hne, rfl⟩⟩
    rw [faults_append, hc.2]
    rfl
  · exact ⟨hc, ⟨[], by simp⟩, given.requestID, fun _ => rfl, rfl⟩

/-- A program that may fail, with an end for each of the two cases. -/
theorem meets_run {α β ε : Type} {Q : History → α → Prop} {E : History → ε → Prop}
    {Q' : History → β → Prop} {p : Attempt Op Op.Response ε α} {f : Except ε α → Program β}
    (hp : Attempt.Meets A Q E p h) (hok : ∀ h' a, Q h' a → (f (.ok a)).Meets A Q' h')
    (herr : ∀ h' err, E h' err → (f (.error err)).Meets A Q' h') :
    Prog.Meets A Q' (p.run >>= f) h := by
  refine Prog.meets_bind.mpr (Prog.Meets.mono (fun h' result hr => ?_) hp)
  cases result with
  | ok a => exact hok h' a hr
  | error err => exact herr h' err hr

section Rule

variable {α : Type} {R : History → Except Err α → Prop} {E : Time → History → Exit → Prop}
  {core : Time → Action.Types.Request → Registration → Governed α}
  (hA : ∀ h op, opening op = true → A h op)
  (hearly : ∀ h err, (∀ c ∈ h, quiet c.op = true) → Fit e.heap (Verdict e given h) err →
    R h (.error (finalizeRuntimeFailure e.heap err)))
  (hrefused : ∀ h nanos id acquired exit, Calm e h → ⟨.clock .decision, some nanos⟩ ∈ h →
    (given.requestID ≠ .utf8 "" → id = given.requestID) → (∀ registered, acquired = some registered →
      ⟨.acquire given.actionID, .found registered⟩ ∈ h) →
    validated e { given with requestID := id } acquired = .error exit → E { nanos } h exit)
  (hcore : ∀ h nanos id request registered, ⟨.clock .decision, some nanos⟩ ∈ h →
    (given.requestID ≠ .utf8 "" → id = given.requestID) → Admitted e given h request registered →
    validated e { given with requestID := id } (some registered) = .ok request →
    Attempt.Meets A (fun h a => R h (.ok a)) (E { nanos }) (core { nanos } request registered) h)
  (hfail : ∀ h startedAt exit, E startedAt h exit →
    Prog.Meets A (fun h' err => R h' (.error (finalizeRuntimeFailure e.heap err)))
      (fail e startedAt exit) h)

include hrefused hcore in
/-- The checks of the request and the core. -/
theorem meets_admitted {nanos : ℤ} (hc : Calm e h) (hn : ⟨.clock .decision, some nanos⟩ ∈ h)
    (hid : given.requestID ≠ .utf8 "" → id = given.requestID)
    (ha : ∀ registered, acquired = some registered →
      ⟨.acquire given.actionID, .found registered⟩ ∈ h) :
    Attempt.Meets A (fun h a => R h (.ok a)) (E { nanos })
      (admitted e { given with requestID := id } acquired (core { nanos })) h := by
  unfold admitted
  cases hv : validated e { given with requestID := id } acquired with
  | error exit => exact hrefused h nanos id acquired exit hc hn hid ha hv
  | ok request =>
    obtain ⟨registered, canonical, hash, rfl, rfl, hi⟩ := validated_ok hv
    exact hcore h nanos id _ registered hn hid
      ⟨hc, ha registered rfl, ⟨id, canonical, hash, rfl, hi⟩, id, hv⟩ hv

include hA hearly hrefused hcore hfail

theorem meets_afterLease (hc : Calm e h)
    (ha : ∀ registered, acquired = some registered →
      ⟨.acquire given.actionID, .found registered⟩ ∈ h) :
    Prog.Meets A R (governed.afterLease e given core acquired) h := by
  unfold governed.afterLease
  refine Prog.meets_bind.mpr ((meets_normalizeRequest hA hc).mono ?_)
  rintro h₁ request ⟨hc₁, ⟨seg, rfl⟩, id, hid, rfl⟩
  have ha₁ : ∀ registered, acquired = some registered →
      ⟨.acquire given.actionID, .found registered⟩ ∈ h ++ seg :=
    fun registered hr => List.mem_append_left _ (ha registered hr)
  -- a reading of the clock adds one more quiet call
  have hclock := @meets_currentTime e Registration.zero.descriptor A _ (hA _ _ rfl) hc₁.2
  refine meets_run (Attempt.meets_attempt.mpr ⟨hA _ _ rfl, fun reading => ?_⟩)
    (Q := fun h' now => ∃ nanos : ℤ, now = { nanos } ∧
      h' = h ++ seg ++ [⟨.clock .decision, some nanos⟩])
    (E := fun h' err => (∀ c ∈ h', quiet c.op = true) ∧
      BlamedInside e Registration.zero.descriptor h' err) ?_ ?_
  · cases reading with
    | some nanos => exact ⟨nanos, rfl, rfl⟩
    | none =>
      refine ⟨?_, (Attempt.meets_attempt.mp hclock).2 none⟩
      intro c hm
      rcases List.mem_append.mp hm with hm | hm
      · exact hc₁.1 c hm
      · obtain rfl := List.mem_singleton.mp hm
        rfl
  · rintro h₂ now ⟨nanos, rfl, rfl⟩
    have h0 : faults e.heap (h ++ seg ++ [⟨.clock .decision, some nanos⟩]) = [] := by
      rw [faults_append, hc₁.2]
      rfl
    refine meets_run (meets_admitted hrefused hcore (hc₁.snoc rfl h0) (by simp) hid fun registered hr =>
      List.mem_append_left _ (ha₁ registered hr)) (fun h' a hq => hq) fun h' exit hf => ?_
    exact Prog.meets_bind.mpr (hfail h' _ exit hf)
  · rintro h₂ err ⟨hq, hb⟩
    exact hearly h₂ _ hq (Fit.withRequest (hb.1.mono fun _ => verdict_of_ruling_zero) _ _)

/-- **The rule of the entry points**: what the core and the last steps of an error exit ensure. -/
theorem meets_governed_of {hasContext : Bool} :
    Prog.Meets A R (governed e hasContext given core) [] := by
  unfold governed
  dsimp only
  split
  · exact hearly [] _ (by simp) (fit_of_own rfl (own_newError rfl _))
  refine Prog.meets_bind.mpr ⟨hA _ _ rfl, fun acquired => ?_⟩
  cases acquired with
  | revoked => exact hearly _ _ (by simp [quiet]) (fit_of_own rfl (own_newError rfl _))
  | missing =>
    refine meets_afterLease hA hearly hrefused hcore hfail ⟨?_, rfl⟩ (by simp)
    simp [quiet]
  | found registered =>
    refine meets_afterLease hA hearly hrefused hcore hfail ⟨?_, rfl⟩ ?_
    · simp [quiet]
    · rintro _ ⟨⟩
      simp

end Rule

/-- The rule for what the entry points report. -/
theorem meets_governed {α : Type} {Q : History → α → Prop} {hasContext : Bool}
    {core : Time → Action.Types.Request → Registration → Governed α}
    (hA : ∀ h op, quiet op = true → A h op)
    (hcore : ∀ h startedAt request registered, Admitted e given h request registered →
      Attempt.Meets A Q (BlamedExit e registered.descriptor) (core startedAt request registered) h) :
    Prog.Meets A (Returns e given Q) (governed e hasContext given core) [] := by
  refine meets_governed_of (E := fun _ h exit => Fit e.heap (Verdict e given h) exit.err)
    (fun h op ho => hA h op (quiet_of_opening ho)) (fun h err _ hf => Fit.final hf) ?_ ?_ ?_
  · intro h nanos id acquired exit hc _ _ ha hv
    exact validated_error hc.2 ha hv
  · intro h nanos id request registered _ _ ha _
    refine Attempt.Meets.mono ((hcore h { nanos } request registered ha).keeps
      (I := fun h' => ⟨.acquire given.actionID, .found registered⟩ ∈ h') ?_ ha.acquired)
      (fun _ _ hq => hq.1) ?_
    · exact fun h' op hm _ r => List.mem_append_left _ hm
    · exact fun h' exit hb => hb.1.mono fun report hr => verdict_of_ruling hr hb.2
  · intro h startedAt exit hf
    refine (meets_fail hA).mono ?_
    rintro h'' err ⟨tail, rfl, -, ht, rfl⟩
    show Final e.heap (Verdict e given (h ++ tail)) _
    rw [finalize_idem]
    exact Fit.final ((hf.mono fun _ hv => hv.append ht).withRequest _ _)

/-- **`Engine.Execute`**: every call is made under its obligation, a success is that of a committed
transaction with one of the traces, and an error is one that may be reported. -/
theorem meets_execute (hasContext : Bool) :
    Prog.Meets (Ordered e given) (Returns e given (Finishes e given))
      (execute e hasContext given) [] :=
  meets_governed (fun _ _ => ordered_of_quiet) fun _ _ _ _ ha => meets_executeAdmitted ha

end Governed

/-! ### `Preview` and `CleanupExpiredPlans` -/

/-- The event of a preview. -/
def previewEvent (e : Engine) (startedAt : Time) (request : Action.Types.Request)
    (registered : Registration) (impact : Impact) (plan : Plan) (reading : Option ℤ) : AuditEvent :=
  eventAt e { request with planHash := plan.hash } registered startedAt .previewed (.utf8 "")
    (.utf8 ("previewed " ++ toString impact.rows ++ " rows")) impact [] reading

/-- **The trace of a preview that ends well.** -/
inductive Previewed (e : Engine) (given : Action.Types.Request) (h : History) :
    History → Plan → Prop
  | intro {startedAt : Time} {request : Action.Types.Request} {registered : Registration}
      {impact : Impact} {i j : Reply Decision} {now : ℤ} {deleted : ℤ} {plan : Plan}
      {reading : Option ℤ} (admitted : Admitted e given h request registered)
      (valid : validatePlanRecord e.checks plan = .ok ())
      (hashed : hashPlan e plan = .ok plan.hash) :
      Previewed e given h
        [intentCall request registered i, impactCall request registered impact j,
          ⟨.clock .decision, some now⟩, ⟨.planDeleteExpired .tx ⟨now, true⟩, .returned deleted .nil⟩,
          ⟨.planSave .tx plan, .returned () .nil⟩, ⟨.clock .event, reading⟩,
          ⟨.auditRequired .tx (previewEvent e startedAt request registered impact plan reading),
            .returned () .nil⟩] plan

/-- The obligation under which each call of `Preview` is made. -/
def OrderedPreview (e : Engine) (given : Action.Types.Request) (h : History) : Op → Prop
  | .begin => ∀ c ∈ h, quiet c.op = true
  | .authorize _ _ => True
  | .planDeleteExpired _ _ => True
  | .planSave ctx _ => ctx = .tx
  | .auditRequired ctx _ => ctx = .tx
  | .finish serial err => err = .nil →
      ∃ h₀ trace plan, Previewed e given h₀ trace plan ∧ h = h₀ ++ ⟨.begin, .run serial⟩ :: trace
  | op => quiet op = true

/-- A call of `Preview` that succeeds. -/
def FinishesPreview (e : Engine) (given : Action.Types.Request) (h : History) (preview : Preview) :
    Prop :=
  ∃ (h₀ trace : History) (serial : ℕ) (plan : Plan) (finished : Finished),
    Previewed e given h₀ trace plan ∧
    h = h₀ ++ ⟨.begin, .run serial⟩ :: (trace ++ [⟨.finish serial .nil, finished⟩]) ∧
    finished.reply = .returned .nil ∧ finished.inTime = true ∧
    preview.planHash = plan.hash ∧ preview.impact = plan.impact ∧
    preview.expiresAt = plan.expiresAt

section Preview

variable {e : Engine} {given request : Action.Types.Request} {registered : Registration}
  {h h₀ : History} {startedAt : Time}

theorem orderedPreview_of_quiet {op : Op} (hq : quiet op = true) : OrderedPreview e given h op := by
  cases op with
  | authorize ctx request => trivial
  | planDeleteExpired ctx now => trivial
  | planSave ctx plan => cases hq
  | auditRequired ctx event => cases hq
  | begin => cases hq
  | finish serial err => cases hq
  | reserve ctx record => cases hq
  | complete ctx record => cases hq
  | abort ctx record => cases hq
  | handlerExecute ctx plan => cases hq
  | lookup ctx record => exact hq
  | acquire id => rfl
  | acquireLease => rfl
  | randomRequestID => rfl
  | clock use => rfl
  | planGet ctx hash => exact hq
  | handlerPlan ctx request => exact hq
  | auditDetached event => rfl

theorem sealPreviewPlan_ok {draft plan : Plan} (hs : sealPreviewPlan e draft = .ok plan) :
    validatePlanRecord e.checks plan = .ok () ∧ hashPlan e plan = .ok plan.hash := by
  unfold sealPreviewPlan at hs
  obtain ⟨hash, hh, hs⟩ := bind_eq_ok.mp hs
  obtain ⟨_, hv, hs⟩ := bind_eq_ok.mp hs
  obtain rfl := Except.ok.inj hs
  refine ⟨?_, hh⟩
  rcases hr : validatePlanRecord e.checks { draft with hash := hash } with err | u
  · rw [hr] at hv
    cases hv
  · rfl

theorem meets_previewBody {data : PlanData} {inputHash : GoString} {payload : RawMessage}
    {serial : ℕ} (ha : Admitted e given h₀ request registered)
    (h0 : faults e.heap (h₀ ++ [⟨.begin, .run serial⟩]) = []) :
    Attempt.Meets (OrderedPreview e given)
      (fun h' plan => ∃ trace, Previewed e given h₀ trace plan ∧
        h' = h₀ ++ ⟨.begin, .run serial⟩ :: trace ∧ faults e.heap h' = [])
      (BlamedInside e registered.descriptor)
      (previewBody e startedAt request registered data inputHash payload)
      (h₀ ++ [⟨.begin, .run serial⟩]) := by
  unfold previewBody
  refine Attempt.Meets.bind (meets_authorizeWithFallback trivial h0) ?_
  rintro h' intent ⟨i, rfl, -, h0⟩
  refine Attempt.Meets.bind (meets_authorizeImpact trivial h0) ?_
  rintro h' decision ⟨j, rfl, -, -, -, h0⟩
  refine Attempt.Meets.bind (meets_currentTime rfl h0) ?_
  rintro h' createdAt ⟨now, rfl, rfl, h0⟩
  refine Attempt.Meets.bind (meets_dependency (fun _ _ => internal_of_dependency)
    (fun _ _ => faultless_of_dependency) trivial h0) ?_
  rintro h' deleted ⟨r, rfl, hr, h0⟩
  obtain rfl := dependency_eq_ok.mp hr
  refine Attempt.Meets.bind (meets_check h0 (own_validateDeletedPlanCount deleted)) ?_
  rintro h' _ ⟨rfl, -⟩
  refine Attempt.Meets.bind (meets_check h0 (own_sealPreviewPlan e _)) ?_
  rintro h' plan ⟨rfl, hs⟩
  obtain ⟨hv, hh⟩ := sealPreviewPlan_ok hs
  refine Attempt.Meets.bind (meets_dependency (fun _ _ => internal_of_dependency)
    (fun _ _ => faultless_of_dependency) rfl h0) ?_
  rintro h' _ ⟨r, rfl, hr, h0⟩
  obtain rfl := dependency_eq_ok.mp hr
  refine Attempt.Meets.bind (meets_lift.mpr (meets_event rfl)) ?_
  rintro h' auditEvent ⟨reading, rfl, rfl⟩
  refine Attempt.Meets.bind (meets_recordRequired rfl (by rw [faults_append, h0]; rfl)) ?_
  rintro h' _ ⟨rfl, h0⟩
  refine Attempt.meets_pure.mpr ⟨_, @Previewed.intro e given h₀ startedAt request registered
    data.impact i j now deleted plan reading ha hv hh, ?_, h0⟩
  simp [intentCall, impactCall, previewEvent]

theorem meets_previewAdmitted (ha : Admitted e given h request registered) :
    Attempt.Meets (OrderedPreview e given) (FinishesPreview e given)
      (BlamedExit e registered.descriptor) (previewAdmitted e startedAt request registered) h := by
  unfold previewAdmitted
  refine Attempt.Meets.bind (meets_decorated (blamed_of_inside
    (meets_check ha.calm.2 (fails_refuseIf (own_newError rfl _))))) ?_
  rintro h' _ ⟨rfl, -⟩
  refine Attempt.Meets.bind (meets_exiting (blamed_of_inside
    (meets_authorizeWithFallback trivial ha.calm.2))) ?_
  rintro h' intent ⟨reply, rfl, -, h0⟩
  have ha := ha.append (ha.calm.snoc rfl h0)
  refine Attempt.Meets.bind (meets_decorated (blamed_of_inside (meets_handlerPlan rfl h0))) ?_
  rintro h' data ⟨rfl, h0⟩
  have ha := ha.append (ha.calm.snoc rfl h0)
  refine Attempt.Meets.bind (meets_decorated (blamed_of_inside
    (meets_check h0 (own_checkPreviewed e registered data)))) ?_
  rintro h' ⟨payload, summary⟩ ⟨rfl, -⟩
  refine Attempt.Meets.bind (meets_exiting (blamed_of_inside
    (meets_authorizeImpact trivial h0))) ?_
  rintro h' _ ⟨reply, rfl, -, -, -, h0⟩
  have ha := ha.append (ha.calm.snoc rfl h0)
  refine Attempt.Meets.bind (meets_decorated (blamed_of_inside
    (meets_check h0 (own_canonicalInput e _)))) ?_
  rintro h' ⟨canonical, inputHash⟩ ⟨rfl, -⟩
  refine Attempt.Meets.bind (meets_decorated (meets_transaction (fun c hm => ha.calm.1 c hm) h0 ?_ ?_
    fun serial h0 => (meets_previewBody ha h0).mono (fun _ _ => id) fun _ _ hb => hb.surfaceable)) ?_
  · rintro serial h' plan ⟨trace, hp, rfl, h0⟩
    exact ⟨fun _ => ⟨_, trace, plan, hp, rfl⟩, h0⟩
  · exact fun serial h' err hn hnil => absurd hnil hn
  · rintro h' plan ⟨serial, h'', finished, ⟨trace, hp, rfl, -⟩, rfl, hr, ht, -⟩
    exact Attempt.meets_pure.mpr
      ⟨_, trace, serial, plan, finished, hp, by simp, hr, ht, rfl, rfl, rfl⟩

/-- **`Engine.Preview`**: its calls, its success and its errors. -/
theorem meets_preview (hasContext : Bool) :
    Prog.Meets (OrderedPreview e given) (Returns e given (FinishesPreview e given))
      (preview e hasContext given) [] :=
  meets_governed (fun _ _ => orderedPreview_of_quiet) fun _ _ _ _ ha => meets_previewAdmitted ha

/-- **`Engine.CleanupExpiredPlans`**: its errors. No action is involved. -/
theorem meets_cleanupExpiredPlans (hasContext : Bool) :
    Prog.Meets (fun _ op => quiet op = true)
      (fun h' result => match result with
        | .ok _ => True
        | .error err => Final e.heap (Verdict e given h') err)
      (cleanupExpiredPlans e hasContext) [] := by
  unfold cleanupExpiredPlans
  dsimp only
  split
  · exact Fit.final (fit_of_own rfl (own_newError rfl _))
  refine Prog.meets_bind.mpr ⟨rfl, fun granted => ?_⟩
  cases granted with
  | false => exact Fit.final (fit_of_own rfl (own_newError rfl _))
  | true =>
    have hleased : Attempt.Meets (fun _ op => quiet op = true) (fun _ _ => True)
        (BlamedInside e Registration.zero.descriptor) cleanupLeased
        ([⟨.acquireLease, true⟩] : History) := by
      unfold cleanupLeased
      refine Attempt.Meets.bind (Attempt.meets_adapt.mpr
        ((@meets_currentTime e Registration.zero.descriptor _ _ rfl rfl).mono (fun _ _ => id)
          fun _ _ hb => blamed_of_internal hb.2 ⟨_, _, rfl⟩)) ?_
      rintro h' now ⟨nanos, -, rfl, h0⟩
      refine Attempt.Meets.bind (meets_dependency (fun r err hr => ?_) (fun r a hr => ?_) rfl h0) ?_
      · split at hr
        · cases hr
        · next cause hd =>
          obtain rfl := Except.error.inj hr
          exact ⟨⟨_, _, rfl⟩, (internal_of_dependency hd).2⟩
      · split at hr
        · next hd => exact faultless_of_dependency hd
        · cases hr
      rintro h' deleted ⟨r, rfl, -, h0⟩
      refine Attempt.Meets.bind (meets_check h0 (own_validateDeletedPlanCount deleted)) ?_
      rintro h' _ ⟨rfl, -⟩
      exact Attempt.meets_pure.mpr trivial
    refine meets_run hleased (fun _ _ _ => trivial) fun h' err hb => ?_
    exact Fit.final (hb.1.mono fun _ => verdict_of_ruling_zero)

end Preview

/-! ### A sample environment -/

/-- A digest. -/
def sampleDigest : String := "0000000000000000000000000000000000000000000000000000000000000000"

/-- An engine whose JSON documents are all canonical and whose digests are all alike. -/
def sampleEngine : Engine where
  heap _ := .untrusted
  checks := { validateJSONDocument := fun _ => .ok, semverIsValid := fun _ => true }
  canonical input := .ok input
  compact input := some input.runes
  sha256 _ := sampleDigest
  planTTL := 300000000000

/-- An action that may be previewed. -/
def sampleRegistration : Registration where
  descriptor :=
    { id := .utf8 "sales.post", version := .utf8 "1.0.0", permission := .utf8 "sales.post"
      preview := .optional, auditLevel := .metadata, channels := [.utf8 "http"], errors := []
      requiresIdempotency := false }
  contractHash := .utf8 ("sha256:" ++ sampleDigest)
  validateInput _ := .valid
  validatePreview _ := .valid
  validateOutput _ := .valid

/-- A request with an idempotency key. -/
def sampleRequest : Action.Types.Request where
  requestID := .utf8 "r"
  actor := { id := .utf8 "a", type := .utf8 "user", displayName := .utf8 "" }
  channel := .utf8 "http"
  actionID := .utf8 "sales.post"
  scope := { kind := .utf8 "org", id := .utf8 "1" }
  input := .utf8 "1"
  idempotencyKey := .utf8 "k"

/-- What the sample handler returns. -/
def sampleResult : Result := { data := .utf8 "1" }

/-- The manager commits. -/
def sampleCommit : Finished := { reply := .returned .nil, inTime := true, committed := true }

/-- The manager rolls back and proves it. -/
def sampleRollback (serial : ℕ) (err : Err) : Finished :=
  { reply := .returned (rolledBack (.operation .actionruntime serial err false false))
    inTime := true, committed := false }

/-- An environment whose store is empty and in which nothing fails, unless it is said. -/
structure Scenario where
  request : Action.Types.Request := sampleRequest
  handler : Reply Result := .returned sampleResult .nil
  detached : Reply Unit := .returned () .nil
  plan : Reply Plan := .panicked
  found : Option IdempotencyRecord := none
  finish : ℕ → Err → Finished := fun serial err =>
    if err = .nil then sampleCommit else sampleRollback serial err

/-- The replies of the environment. -/
def Scenario.oracle (scenario : Scenario) : (op : Op) → op.Response
  | .acquire _ => .found sampleRegistration
  | .acquireLease => true
  | .randomRequestID => .utf8 "r"
  | .clock _ => some 0
  | .authorize _ _ => .returned { allowed := true, fingerprint := .utf8 "f" } .nil
  | .planGet _ _ => scenario.plan
  | .planSave _ _ => .returned () .nil
  | .planDeleteExpired _ _ => .returned 0 .nil
  | .lookup _ _ => .returned scenario.found .nil
  | .reserve _ _ => .returned none .nil
  | .complete _ _ => .returned () .nil
  | .abort _ _ => .returned () .nil
  | .handlerPlan _ _ =>
    .returned
      { payload := .utf8 "1", summary := .utf8 "1", impact := {}, snapshotHash := .utf8 "" } .nil
  | .handlerExecute _ _ => scenario.handler
  | .auditRequired _ _ => .returned () .nil
  | .auditDetached _ => scenario.detached
  | .begin => .run 0
  | .finish serial err => scenario.finish serial err

/-- The run of `Execute` in this environment. -/
def Scenario.run (scenario : Scenario) : History × Except Err Result :=
  (execute sampleEngine true scenario.request).play scenario.oracle

theorem Scenario.runs (scenario : Scenario) :
    (execute sampleEngine true scenario.request).Runs scenario.run.1 scenario.run.2 :=
  Prog.runs_play _ _

/-- The code of a result that is an error. -/
def codeOf {α : Type} (heap : Heap) : Except Err α → Option GoString
  | .ok _ => none
  | .error err => some (errorCode heap err)

theorem codeOf_eq_some {α : Type} {heap : Heap} {result : Except Err α} {code : GoString}
    (h : codeOf heap result = some code) : ∃ err, result = .error err ∧ errorCode heap err = code := by
  cases result with
  | ok a => cases h
  | error err => exact ⟨err, rfl, Option.some.inj h⟩

end Modary.Runtime.Runs
