import Modary.Runtime.Runs

/-! # Authorization

No handler runs and no recorded result is replayed without an intent decision and an impact decision
of the same transaction, whatever the authorizer said before. -/

namespace Modary.Runtime.Authorization

open Modary.Lib.GoText
open Modary.Action.Authz Modary.Action.Types
open Modary.Runtime.Environment Modary.Runtime.Engine
open Modary.Runtime.Faults Modary.Runtime.Traces Modary.Runtime.Runs

/-- What was called in the transaction that is open after this history. -/
def OpenTransaction (h tx : History) : Prop :=
  ∃ h₀ serial, h = h₀ ++ ⟨.begin, .run serial⟩ :: tx ∧ ∀ c ∈ tx, isBoundary c.op = false

/-- Among these calls the authorizer allowed the intent, and after that this impact: within the row
limit of the second decision, and with this fingerprint, for which that of the first decision stands
in. -/
def Authorized (given : Action.Types.Request) (registered : Registration) (tx : History)
    (impact : Impact) (fingerprint : GoString) : Prop :=
  ∃ (before between after : History) (i j : Decision),
    tx = before ++
      ⟨.authorize .tx (authzRequest given registered.descriptor .intent {}), .returned i .nil⟩ ::
      (between ++
        ⟨.authorize .tx (authzRequest given registered.descriptor .impact impact),
          .returned j .nil⟩ :: after) ∧
    i.allowed = true ∧ j.allowed = true ∧ (0 < j.maxRows → impact.rows ≤ j.maxRows) ∧
    (if j.fingerprint = .utf8 "" then i.fingerprint else j.fingerprint) = fingerprint

theorem rows_le_of_enforceConstraints {decision : Decision} {impact : Impact}
    (h : enforceConstraints decision impact = .ok ()) :
    0 < decision.maxRows → impact.rows ≤ decision.maxRows := by
  intro hp
  unfold enforceConstraints at h
  split at h
  · cases h
  split at h
  · cases h
  next hn =>
  by_contra hc
  exact hn ⟨hp, by omega⟩

/-- The authorizer only gets to see the actor, the action and the scope of a request. -/
theorem authzRequest_of_accepted {e : Engine} {given request : Action.Types.Request} {h : History}
    {registered : Registration} {record : IdempotencyRecord}
    (ha : Accepted e given h request registered record) (phase : Phase) (impact : Impact) :
    authzRequest request registered.descriptor phase impact =
      authzRequest given registered.descriptor phase impact := by
  obtain ⟨id, canonical, hash, rfl, -⟩ := ha.normalized
  rfl

/-- Two decisions that clear an impact, seen from the authorizer. -/
theorem authorized_of_cleared {e : Engine} {given request : Action.Types.Request}
    {registered : Registration} {impact : Impact} {fingerprint : GoString} {i j : Reply Decision}
    (hq : ∀ phase impact, authzRequest request registered.descriptor phase impact =
      authzRequest given registered.descriptor phase impact)
    (hc : Cleared e request registered impact fingerprint i j) (before between after : History) :
    Authorized given registered
      (before ++ intentCall request registered i ::
        (between ++ impactCall request registered impact j :: after)) impact fingerprint := by
  obtain ⟨intent, decision, hi, hj, henf, rfl⟩ := hc
  obtain ⟨gi, rfl, ai⟩ := judge_ok e hi
  obtain ⟨gj, rfl, aj⟩ := judge_ok e hj
  have hfi : intent.fingerprint = gi.fingerprint := by
    rw [ai.fingerprint]
    split_ifs with hf
    · exact hf.symm
    · rfl
  have hcall : ∀ phase impact reply, (⟨.authorize .tx (authzRequest request registered.descriptor
      phase impact), reply⟩ : Environment.Call) =
      ⟨.authorize .tx (authzRequest given registered.descriptor phase impact), reply⟩ :=
    fun phase impact reply => congrArg
      (fun query => (⟨.authorize .tx query, reply⟩ : Environment.Call)) (hq phase impact)
  refine ⟨before, between, after, gi, gj, ?_, ai.allowed, aj.allowed, ?_, ?_⟩
  · rw [intentCall, impactCall, hcall, hcall]
  · rw [← aj.maxRows]
    exact rows_le_of_enforceConstraints henf
  · rw [aj.fingerprint, hfi]

section Execute

variable (e : Engine) (given : Action.Types.Request)

/-- Before a handler is executed. -/
theorem authorized_of_ordered {h : History} {ctx : Ctx} {plan : Plan}
    (ho : Ordered e given h (.handlerExecute ctx plan)) :
    ctx = .tx ∧ ∃ registered tx, ⟨.acquire given.actionID, .found registered⟩ ∈ h ∧
      OpenTransaction h tx ∧ Authorized given registered tx plan.impact plan.decisionFingerprint := by
  obtain ⟨rfl, h₀, serial, job, i, j, hready, hc, rfl, rfl⟩ := ho
  refine ⟨rfl, job.registered, job.reserved i j,
    List.mem_append_left _ hready.accepted.acquired, ⟨h₀, serial, rfl, ?_⟩, ?_⟩
  · exact interior_reserved job i j
  · exact authorized_of_cleared (authzRequest_of_accepted hready.accepted) hc [] [] _

/-- The transaction of a success: its handler ran, or a stored record was found in it and replayed
under decisions for its own impact. -/
def Justified (given : Action.Types.Request) (registered : Registration) (tx : History)
    (result : Result) : Prop :=
  (∃ plan, ⟨.handlerExecute .tx plan, .returned result .nil⟩ ∈ tx) ∨
  ∃ existing : IdempotencyRecord, result = existing.result ∧
    ((∃ record, ⟨.lookup .tx record, .returned (some existing) .nil⟩ ∈ tx) ∨
      ∃ record, ⟨.reserve .tx record, .returned (some existing) .nil⟩ ∈ tx) ∧
    Authorized given registered tx existing.impact existing.decisionFingerprint

theorem justified_of_settled {h₀ trace : History} {outcome : Engine.Outcome}
    (hs : Settled e given h₀ trace outcome) :
    ∃ registered, ⟨.acquire given.actionID, .found registered⟩ ∈ h₀ ∧
      Justified given registered trace (resultOf outcome) := by
  cases hs with
  | executed ready cleared output =>
    next job i j result reading =>
    refine ⟨job.registered, ready.accepted.acquired, Or.inl ⟨job.plan, ?_⟩⟩
    simp [Job.audited, Job.completed, Job.executed, resultOf]
  | raced ready cleared keyed replayed =>
    next job i j k existing result =>
    refine ⟨job.registered, ready.accepted.acquired, Or.inr ⟨existing, replayed.result,
      Or.inr ⟨job.reservation, by simp [Job.reserveCall]⟩, ?_⟩⟩
    exact authorized_of_cleared (authzRequest_of_accepted ready.accepted) replayed.cleared []
      [impactCall job.planned job.registered job.plan.impact j, job.reserveCall (some existing)] []
  | replayed accepted keyed replayed =>
    next request registered record existing i j result =>
    refine ⟨registered, accepted.acquired, Or.inr ⟨existing, replayed.result,
      Or.inl ⟨record, by simp⟩, ?_⟩⟩
    exact authorized_of_cleared (authzRequest_of_accepted accepted) replayed.cleared
      [⟨.lookup .tx record, .returned (some existing) .nil⟩] [] []

/-- **Authorization inside the transaction.** Whatever the dependencies do: every call of
`Handler.Execute` comes after an allowed intent decision and an allowed impact decision of the same
transaction, the second one for the impact of the plan that is executed, within its row limit and
with the plan's fingerprint; and every result that is not the handler's own comes from a record found
in a transaction of which the same holds for the stored impact and fingerprint. No call begins or
finishes a transaction inside of these. -/
theorem execute_authorized (hasContext : Bool) :
    (∀ events ctx plan, (execute e hasContext given).Calls events (.handlerExecute ctx plan) →
      ctx = .tx ∧ ∃ registered tx, ⟨.acquire given.actionID, .found registered⟩ ∈ events ∧
        OpenTransaction events tx ∧
        Authorized given registered tx plan.impact plan.decisionFingerprint) ∧
    ∀ events result, (execute e hasContext given).Runs events (.ok result) →
      ∃ (registered : Registration) (before tx after : History) (serial : ℕ) (finished : Finished),
        ⟨.acquire given.actionID, .found registered⟩ ∈ before ∧
        events = before ++ ⟨.begin, .run serial⟩ :: (tx ++ ⟨.finish serial .nil, finished⟩ :: after) ∧
        Interior tx ∧ Justified given registered tx result := by
  constructor
  · intro events ctx plan hc
    exact authorized_of_ordered e given ((meets_execute hasContext).calls hc)
  · intro events result hr
    obtain ⟨h₀, trace, tail, serial, outcome, finished, hs, he, -, -, -, rfl⟩ :=
      (meets_execute hasContext).result hr
    obtain ⟨registered, ha, hj⟩ := justified_of_settled e given hs
    exact ⟨registered, h₀, trace, tail, serial, finished, ha, he, interior_of_settled hs, hj⟩

end Execute

/-- What the sample run commits for its key. -/
def storedRecord : IdempotencyRecord :=
  let hash := .utf8 ("sha256:" ++ sampleDigest)
  { requestRecord sampleRequest sampleRegistration hash with
    planHash := hash, decisionFingerprint := .utf8 "f", status := .completed
    result := sampleResult }

/-- The sample run calls its handler and succeeds; over a store that has its record it returns the
result of that without calling the handler. -/
theorem execute_authorized_sample :
    (∃ events ctx plan, (execute sampleEngine true sampleRequest).Calls events
        (.handlerExecute ctx plan) ∧
      ∃ registered tx, OpenTransaction events tx ∧
        Authorized sampleRequest registered tx plan.impact plan.decisionFingerprint) ∧
    ∀ scenario ∈ [({} : Scenario), { found := some storedRecord }],
      scenario.run.2 = .ok sampleResult ∧
      scenario.run.1.any (fun c => isExecute c.op) = scenario.found.isNone ∧
      ∃ (registered : Registration) (tx : History), Interior tx ∧
        Justified sampleRequest registered tx sampleResult := by
  have hany : ({} : Scenario).run.1.any (fun c => isExecute c.op) = true := by decide +kernel
  constructor
  · obtain ⟨before, ctx, plan, hcalls⟩ := calls_execute ({} : Scenario).runs hany
    obtain ⟨-, registered, tx, -, hopen, hauth⟩ :=
      (execute_authorized sampleEngine sampleRequest true).1 before ctx plan hcalls
    exact ⟨before, ctx, plan, hcalls, registered, tx, hopen, hauth⟩
  · have hjustified : ∀ scenario : Scenario, scenario.request = sampleRequest →
        scenario.run.2 = .ok sampleResult → ∃ (registered : Registration) (tx : History),
          Interior tx ∧ Justified sampleRequest registered tx sampleResult := by
      intro scenario hrequest hr
      have hruns := scenario.runs
      rw [hr, hrequest] at hruns
      obtain ⟨registered, -, tx, -, -, -, -, -, hinterior, hj⟩ :=
        (execute_authorized sampleEngine sampleRequest true).2 _ _ hruns
      exact ⟨registered, tx, hinterior, hj⟩
    intro scenario hm
    simp only [List.mem_cons, List.not_mem_nil, or_false] at hm
    rcases hm with rfl | rfl
    · have hr : ({} : Scenario).run.2 = .ok sampleResult := by decide +kernel
      exact ⟨hr, hany, hjustified _ rfl hr⟩
    · have hr : ({ found := some storedRecord } : Scenario).run.2 = .ok sampleResult := by
        decide +kernel
      exact ⟨hr, by decide +kernel, hjustified _ rfl hr⟩

end Modary.Runtime.Authorization
