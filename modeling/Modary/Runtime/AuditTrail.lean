import Modary.Audit.Events
import Modary.Runtime.Consulting
import Modary.Runtime.Runs

/-! # The audit trail

Every event that `Preview` or `Execute` hands to its hook, on whatever path, is checked against what
the SQL hook accepts. The clock is taken to run forwards within the range that can be stored, and the
actions to be prepared by `action.PrepareDescriptor`. -/

namespace Modary.Runtime.AuditTrail

open Modary.Lib.GoText Modary.Lib.Prog
open Modary.Action.Names Modary.Action.Authz Modary.Action.Errors Modary.Action.Types
open Modary.Action.Persistence Modary.Audit.Hook Modary.Audit.Events
open Modary.Runtime.Failures Modary.Runtime.Transaction Modary.Runtime.Environment
open Modary.Runtime.Engine Modary.Runtime.Faults Modary.Runtime.Traces
open Modary.Runtime.Consulting Modary.Runtime.Runs

/-! ### Steady runs -/

/-- The event that a call hands to the hook. -/
def eventOf : Op → Option AuditEvent
  | .auditRequired _ event => some event
  | .auditDetached event => some event
  | _ => none

/-- What a call reads off the clock. -/
def readingOf : Environment.Call → Option ℤ
  | ⟨.clock _, reading⟩ => reading
  | _ => none

/-- The readings of the clock. -/
def readings (h : History) : List ℤ := h.filterMap readingOf

/-- `validActionVersion`. -/
def validActionVersion (checks : Checks) (version : GoString) : Bool :=
  let core := version.runes.takeWhile fun c => c != '-' && c != '+'
  core.count '.' == 2 && checks.semverIsValid version

/-- What `action.PrepareDescriptor` ensures of an action that is registered. -/
structure Contracted (e : Engine) (registered : Registration) : Prop where
  version : validateDescriptorText "version" registered.descriptor.version true maxVersionRunes =
    .ok ()
  semver : validActionVersion e.checks registered.descriptor.version = true
  contractHash : ∃ material, registered.contractHash = .utf8 ("sha256:" ++ e.sha256 material)

/-- A run with a clock that does not run backwards and stays within the range that can be stored,
over actions that were prepared. -/
structure Steady (e : Engine) (h : History) : Prop where
  forwards : (readings h).Pairwise (· ≤ ·)
  inRange : ∀ nanos ∈ readings h, persistable nanos = true
  contracted : ∀ id registered, ⟨.acquire id, .found registered⟩ ∈ h → Contracted e registered

/-- The obligation under which the hook is called: it accepts the event. -/
def Audited (e : Engine) (h : History) (op : Op) : Prop :=
  ∀ event, eventOf op = some event → Steady e h → record e.checks event = .ok ()

/-- The same for one action from the time its call started on. -/
def Vouched (e : Engine) (startedAt : Time) (registered : Registration) (h : History) (op : Op) :
    Prop :=
  ∀ event, eventOf op = some event → Steady e h →
    ⟨.clock .decision, some startedAt.nanos⟩ ∈ h → Contracted e registered →
    record e.checks event = .ok ()

/-- What the packages outside this development are relied on for: SHA-256 has a digest of 64 lower-case
hexadecimal digits, and a semantic version is ASCII. -/
structure Standard (e : Engine) : Prop where
  digest : ∀ material, matchDigest ("sha256:" ++ e.sha256 material).toList = true
  ascii : ∀ version, e.checks.semverIsValid version = true → ∀ c ∈ version.runes, c.utf8Size = 1

section Facts

variable {e : Engine} {h : History} {startedAt : Time} {registered : Registration}

theorem mem_readings {use : ClockUse} {nanos : ℤ} (hm : ⟨.clock use, some nanos⟩ ∈ h) :
    nanos ∈ readings h :=
  List.mem_filterMap.mpr ⟨_, hm, rfl⟩

/-- The times that an event is stamped with. -/
theorem Steady.times {reading : Option ℤ} (hs : Steady e (h ++ [⟨.clock .event, reading⟩]))
    (hm : ⟨.clock .decision, some startedAt.nanos⟩ ∈ h ++ [⟨.clock .event, reading⟩]) :
    persistable startedAt.nanos = true ∧ persistable (finishedAt startedAt reading).nanos = true ∧
      startedAt.nanos ≤ (finishedAt startedAt reading).nanos := by
  have hstart := hs.inRange _ (mem_readings hm)
  cases reading with
  | none => exact ⟨hstart, hstart, le_rfl⟩
  | some nanos =>
    have hm : ⟨.clock .decision, some startedAt.nanos⟩ ∈ h := by
      rcases List.mem_append.mp hm with hm | hm
      · exact hm
      · cases List.mem_singleton.mp hm
    have hlast : nanos ∈ readings (h ++ [⟨.clock .event, some nanos⟩]) :=
      mem_readings (List.mem_append_right _ (List.mem_singleton_self _))
    refine ⟨hstart, hs.inRange _ hlast, ?_⟩
    have hp := hs.forwards
    rw [readings, List.filterMap_append] at hp
    exact (List.pairwise_append.mp hp).2.2 _ (mem_readings hm) nanos (List.mem_singleton_self _)

theorem versioned_of_contracted (hstd : Standard e) (hc : Contracted e registered) :
    Versioned e.checks registered.descriptor.version := by
  have hclean : Clean maxVersionRunes registered.descriptor.version :=
    (clean_of_validateText hc.version (fun _ hc => hc) le_rfl).1
  refine ⟨hclean, ?_⟩
  have hsem := hc.semver
  simp only [validActionVersion, Bool.and_eq_true] at hsem
  have hlen : byteLen registered.descriptor.version ≤ maxVersionRunes := by
    obtain ⟨s, hs⟩ := hclean.utf8
    have hb := hclean.bounded
    have hone := hstd.ascii _ hsem.2
    rw [hs] at hb hone ⊢
    simp only [GoString.runes] at hb hone
    have hsize : byteLength s.toList = s.toList.length := by
      unfold byteLength
      rw [List.map_congr_left hone]
      simp
    show byteLength s.toList ≤ _
    omega
  simp [validVersion, hlen, hsem]

theorem digest_of_contracted (hstd : Standard e) (hc : Contracted e registered) :
    matchDigest registered.contractHash.runes = true := by
  obtain ⟨material, hm⟩ := hc.contractHash
  rw [hm]
  exact hstd.digest material

/-- The input hash of an event is a digest, or left out. -/
theorem digest_eventInputHash (hstd : Standard e) (input : RawMessage) :
    DigestOrEmpty (eventInputHash e input) := by
  unfold eventInputHash canonicalInput
  cases e.canonical input with
  | ok canonical => exact Or.inr (hstd.digest canonical.runes)
  | _ => exact Or.inl rfl

/-! ### Events of successes and failures -/

theorem eventAt_eq (request : Action.Types.Request) (decision : AuditDecision)
    (errorCode summary : GoString) (impact : Impact) (references : List Reference)
    (reading : Option ℤ) :
    eventAt e request registered startedAt decision errorCode summary impact references reading =
      normalizeEvent (draftEvent e request registered startedAt decision errorCode summary impact
        references reading) := rfl

/-- What the checks on the way in leave to an event. -/
structure Entered (request : Action.Types.Request) : Prop where
  envelope : validateRequestEnvelope request = .ok ()
  scope : request.scope.validate = .ok ()

variable {request : Action.Types.Request} {decision : AuditDecision} {summary : GoString}
  {impact : Impact} {references : List Reference} {reading : Option ℤ}

/-- What `validateRequestEnvelope` checks. -/
theorem validateRequestEnvelope_ok (hv : validateRequestEnvelope request = .ok ()) :
    (Clean maxRequestIDRunes request.requestID ∧ request.requestID ≠ .utf8 "") ∧
      validIdentifier request.actionID = true ∧
      (Clean maxChannelRunes request.channel ∧ request.channel ≠ .utf8 "") ∧
      (Clean maxActorIDRunes request.actor.id ∧ request.actor.id ≠ .utf8 "") ∧
      Clean maxActorTypeRunes request.actor.type ∧ request.actor.type ≠ .utf8 "" := by
  simp only [validateRequestEnvelope, bind_eq_ok] at hv
  obtain ⟨_, hid, _, haction, _, hchannel, _, hactor, -⟩ := hv
  unfold validateActor at hactor
  obtain ⟨_, hactorID, hactor⟩ := bind_eq_ok.mp hactor
  obtain ⟨_, hactorType, -⟩ := bind_eq_ok.mp hactor
  have clean : ∀ {field : String} {value : GoString} {limit : ℕ},
      validateText field value true limit isControl = .ok () →
        Clean limit value ∧ value ≠ .utf8 "" := by
    intro field value limit hok
    obtain ⟨h1, h2⟩ := clean_of_validateText hok (fun _ hc => hc) le_rfl
    exact ⟨h1, h2 rfl⟩
  exact ⟨clean hid, by simpa using refuseIf_eq_ok.mp haction, clean hchannel, clean hactorID,
    clean hactorType⟩

/-- **The event of a success is accepted.** -/
theorem record_success (hstd : Standard e) (hen : Entered request)
    (hplan : matchDigest request.planHash.runes = true)
    (hinput : ∃ canonical hash, canonicalInput e request.input = .ok (canonical, hash))
    (hd : successfulDecision decision = true) (himpact : OrderlyImpact impact)
    (hrefs : OrderlyReferences references)
    (hs : Steady e (h ++ [⟨.clock .event, reading⟩]))
    (hm : ⟨.clock .decision, some startedAt.nanos⟩ ∈ h ++ [⟨.clock .event, reading⟩])
    (hc : Contracted e registered) :
    record e.checks (eventAt e request registered startedAt decision (.utf8 "") summary impact
      references reading) = .ok () := by
  obtain ⟨hstart, hfinish, hle⟩ := hs.times hm
  obtain ⟨hid, haction, hchannel, hactorID, hactorType⟩ := validateRequestEnvelope_ok hen.envelope
  have hhash : matchDigest (eventInputHash e request.input).runes = true := by
    obtain ⟨canonical, hash, hi⟩ := hinput
    rcases digest_eventInputHash hstd request.input with he | he
    · unfold eventInputHash at he
      rw [hi] at he
      dsimp only at he
      unfold canonicalInput at hi
      split at hi <;> cases hi
      have := hstd.digest canonical.runes
      rw [GoString.utf8.inj he] at this
      cases this
    · exact he
  rw [eventAt_eq]
  refine record_of_succeeded ?_ ?_
  · exact
      { requestID := by
          rw [show (draftEvent e request registered startedAt decision (.utf8 "") summary impact
            references reading).requestID = request.requestID from rfl,
            sanitizeIdentifier_of_clean hid.1]
          exact hid.2
        actionID := by
          rw [show (draftEvent e request registered startedAt decision (.utf8 "") summary impact
            references reading).actionID = request.actionID from rfl,
            sanitizeIdentifier_of_clean (clean_of_validIdentifier haction).1]
          exact (clean_of_validIdentifier haction).2
        scope := Or.inr hen.scope
        started := hstart
        finished := hfinish
        forwards := hle
        impact := by
          rintro _ ⟨⟩
          exact himpact
        references := hrefs }
  · exact
      { decision := hd
        actorID := hactorID
        actorType := hactorType
        channel := hchannel
        actionID := haction
        version := versioned_of_contracted hstd hc
        contractHash := digest_of_contracted hstd hc
        inputHash := hhash
        planHash := hplan
        scope := hen.scope
        code := rfl
        kind := rfl
        impact := by simp [draftEvent] }

/-- What has passed the last gate has a code with its own kind. -/
theorem finalKind_of_finalized {heap : Heap} {err : Err} (hn : err ≠ .nil) :
    ∃ envelope cause, findActionError heap (finalizeRuntimeFailure heap err) =
      some (envelope, cause) ∧ Envelope.finalKind envelope = some envelope.kind := by
  have hinv : ∃ envelope cause, findActionError heap (invalidRuntimeFailure err) =
      some (envelope, cause) ∧ Envelope.finalKind envelope = some envelope.kind :=
    ⟨_, _, findActionError_action _ _ _ _, by decide⟩
  rw [show finalizeRuntimeFailure heap err = _ from if_neg hn]
  cases hf : findActionError heap err with
  | none => exact hinv
  | some p =>
    obtain ⟨envelope, cause⟩ := p
    dsimp only
    cases hk : Envelope.finalKind envelope with
    | none => exact hinv
    | some kind =>
      dsimp only
      by_cases he : envelope.kind = kind
      · rw [if_pos he, hf]
        exact ⟨envelope, cause, rfl, by rw [hk, he]⟩
      · rw [if_neg he]
        exact ⟨_, _, findActionError_action _ _ _ _, finalKind_idem hk⟩

/-- The code and the kind of such an envelope are those that the hook expects together. -/
theorem validateErrorPair_of_finalKind {envelope : Envelope}
    (hk : Envelope.finalKind envelope = some envelope.kind) :
    envelope.code ≠ .utf8 "" ∧ envelope.governedKind = envelope.kind ∧
      validateErrorPair envelope.code envelope.kind = .ok () := by
  unfold Envelope.finalKind at hk
  split at hk
  · cases hk
  unfold Envelope.governedKind validateErrorPair
  cases hb : builtinErrorKind envelope.code with
  | some kind =>
    have hne := (clean_of_builtin hb).2
    rw [hb] at hk
    dsimp only at hk ⊢
    split at hk
    · cases hk
    obtain rfl := Option.some.inj hk
    refine ⟨hne, by simp, ?_⟩
    refine bind_eq_ok.mpr ⟨(), refuseIf_eq_ok.mpr ?_, refuseIf_eq_ok.mpr (by simp)⟩
    simp [hne, builtin_valid hb]
  | none =>
    rw [hb] at hk
    dsimp only at hk ⊢
    split at hk
    · cases hk
    next hcond =>
    push Not at hcond
    obtain ⟨hcustom, hvalid, hint⟩ := hcond
    have hcustom : validCustomErrorCode envelope.code = true := by simpa using hcustom
    have hvalid : envelope.kind.valid = true := by simpa using hvalid
    have hne := (clean_of_validCustomErrorCode hcustom).2
    refine ⟨hne, by simp [hvalid], ?_⟩
    refine bind_eq_ok.mpr ⟨(), refuseIf_eq_ok.mpr (by simp [hne, hvalid]), ?_⟩
    exact bind_eq_ok.mpr ⟨(), refuseIf_eq_ok.mpr (by simp [hcustom]), refuseIf_eq_ok.mpr hint⟩

theorem validateDecisionKind_failure (kind : ErrorKind) :
    validateDecisionKind (failureDecision kind) kind = .ok () ∧
      successfulDecision (failureDecision kind) = false := by
  cases kind <;> exact ⟨rfl, rfl⟩

end Facts

/-! ### Error exits -/

/-- A request that can be recorded at all: it names a request and an action once it is normalized, and
its scope is empty or valid. -/
structure Attributable (given : Action.Types.Request) : Prop where
  requestID : sanitizeIdentifier given.requestID maxRequestIDRunes ≠ .utf8 ""
  actionID : sanitizeIdentifier given.actionID maxActionIDRunes ≠ .utf8 ""
  scope : given.scope = noScope ∨ given.scope.validate = .ok ()

/-- The plan hash that an event shows is a digest, or there is none. -/
def Hashed (given : Action.Types.Request) : Prop :=
  DigestOrEmpty (sanitizeIdentifier given.planHash maxHashRunes)

instance (given : Action.Types.Request) : Decidable (Hashed given) :=
  inferInstanceAs (Decidable (_ = _ ∨ _ = _))

/-- A request that goes on under another input or the hash of a plan is still the one given. -/
structure Stems (given request : Action.Types.Request) : Prop where
  same : ∃ input planHash, request = { given with input := input, planHash := planHash }
  planHash : request.planHash = given.planHash ∨ matchDigest request.planHash.runes = true

/-- What is known of an error exit. -/
structure Sane (e : Engine) (given : Action.Types.Request) (startedAt : Time) (h : History)
    (exit : Exit) : Prop where
  err : exit.err ≠ .nil
  started : ⟨.clock .decision, some startedAt.nanos⟩ ∈ h
  request : Stems given exit.request
  registered : exit.registered = Registration.zero ∨
    ⟨.acquire given.actionID, .found exit.registered⟩ ∈ h

section Exits

variable {e : Engine} {given : Action.Types.Request} {h : History} {startedAt : Time} {exit : Exit}

theorem Stems.hashed {request : Action.Types.Request} (hs : Stems given request)
    (hg : Hashed given) : Hashed request := by
  unfold Hashed at hg ⊢
  rcases hs.planHash with hp | hp
  · rwa [hp]
  · exact DigestOrEmpty.sanitize (Or.inr hp)

/-- The `reason` of `fail`. -/
def failureReason (heap : Heap) (wrapped : Err) : GoString :=
  match findActionError heap wrapped with
  | some (envelope, _) => envelope.message
  | none => .utf8 "action execution failed"

/-- The event that `fail` hands to the hook before it is normalized. -/
def failedEvent (e : Engine) (startedAt : Time) (exit : Exit) (wrapped : Err) (reason : GoString)
    (reading : Option ℤ) : AuditEvent :=
  { draftEvent e exit.request exit.registered startedAt
      (failureDecision (errorKindOf e.heap wrapped)) (errorCode e.heap wrapped) (.utf8 "") {} []
      reading with
    errorKind := errorKindOf e.heap wrapped
    reason := reason }

theorem failed_failedEvent (hstd : Standard e) {wrapped : Err} {reason : GoString}
    {reading : Option ℤ} {err : Err} (hn : err ≠ .nil)
    (hw : wrapped = finalizeRuntimeFailure e.heap err)
    (hr : exit.registered = Registration.zero ∨ Contracted e exit.registered) :
    Failed e.checks (failedEvent e startedAt exit wrapped reason reading) := by
  obtain ⟨envelope, cause, hf, hk⟩ := @finalKind_of_finalized e.heap _ hn
  obtain ⟨hne, hgov, hpair⟩ := validateErrorPair_of_finalKind hk
  rw [← hw] at hf
  have hcode : errorCode e.heap wrapped = envelope.code := by simp [errorCode, hf, hne]
  have hkind : errorKindOf e.heap wrapped = envelope.kind := by simp [errorKindOf, hf, hgov]
  obtain ⟨hdk, hds⟩ := validateDecisionKind_failure (errorKindOf e.heap wrapped)
  exact
    { decision := hds
      code := by
        show validateErrorPair (errorCode e.heap wrapped) (errorKindOf e.heap wrapped) = .ok ()
        rw [hcode, hkind]
        exact hpair
      kind := hdk
      version := by
        rcases hr with hr | hr
        · exact Or.inl (by simp [failedEvent, draftEvent, hr, Registration.zero])
        · exact Or.inr (versioned_of_contracted hstd hr)
      contractHash := by
        rcases hr with hr | hr
        · exact Or.inl (by simp [failedEvent, draftEvent, hr, Registration.zero])
        · exact Or.inr (digest_of_contracted hstd hr)
      inputHash := digest_eventInputHash hstd exit.request.input }

/-- **The event of a failure is accepted**, when the plan hash of the request can be shown. -/
theorem meets_fail_audited (hstd : Standard e) (hg : Attributable given) (hh : Hashed given)
    (hs : Sane e given startedAt h exit) :
    Prog.Meets (Audited e) (fun _ _ => True) (fail e startedAt exit) h := by
  unfold fail
  refine Prog.meets_bind.mpr ((meets_event ?_).mono ?_)
  · intro event he
    cases he
  rintro h' auditEvent ⟨reading, rfl, rfl⟩
  refine ⟨?_, fun _ => trivial⟩
  rintro event ⟨⟩ hsteady
  have hstarted : ⟨.clock .decision, some startedAt.nanos⟩ ∈ h ++ [⟨.clock .event, reading⟩] :=
    List.mem_append_left _ hs.started
  obtain ⟨hstart, hfinish, hle⟩ := hsteady.times hstarted
  have hr : exit.registered = Registration.zero ∨ Contracted e exit.registered :=
    hs.registered.imp_right fun hm => hsteady.contracted _ _ (List.mem_append_left _ hm)
  have hw : withRequest e.heap exit.err exit.request exit.registered.descriptor.permission ≠ .nil := by
    unfold withRequest
    rw [if_neg hs.err]
    split <;> simp
  rw [eventAt_eq, normalizeEvent_rewritten]
  obtain ⟨input, planHash, hreq⟩ := hs.request.same
  have hid : exit.request.requestID = given.requestID := by rw [hreq]
  have haction : exit.request.actionID = given.actionID := by rw [hreq]
  have hscope : exit.request.scope = given.scope := by rw [hreq]
  refine record_of_failed ?_ (failed_failedEvent hstd hw rfl hr) (hs.request.hashed hh)
  exact
    { requestID := by
        show sanitizeIdentifier exit.request.requestID _ ≠ _
        rw [hid]
        exact hg.requestID
      actionID := by
        show sanitizeIdentifier exit.request.actionID _ ≠ _
        rw [haction]
        exact hg.actionID
      scope := by
        show exit.request.scope = noScope ∨ exit.request.scope.validate = .ok ()
        rw [hscope]
        exact hg.scope
      started := hstart
      finished := hfinish
      forwards := hle
      impact := by
        rintro _ ⟨⟩
        exact orderlyImpact_empty
      references := orderlyReferences_nil }

end Exits

/-! ### What the checks leave to an event -/

theorem orderlyImpact_of_validateImpact {impact : Impact} (h : validateImpact impact = .ok ()) :
    OrderlyImpact impact := by
  unfold validateImpact at h
  split at h
  · cases h
  next hrows =>
  split at h
  · cases h
  next hcount =>
  have hcount : impact.resources.length ≤ maxResources := by
    unfold validateImpactCollectionSize at hcount
    split at hcount
    · cases hcount
    · omega
  obtain ⟨hall, hnodup, -⟩ := validateResources_ok (mapError_eq_ok.mp h)
  refine ⟨by omega, hcount, fun r hr => ?_, hnodup⟩
  have hc := hall r hr
  unfold validateResource at hc
  split at hc
  · cases hc
  next hcond =>
  push Not at hcond
  obtain ⟨h1, h2, h3, h4, h5⟩ := hcond
  exact ⟨⟨by simpa using h1, h3, h4, by simpa using h5⟩, h2⟩

theorem orderlyReferences_of_validateResult {result : Result} (h : validateResult result = .ok ()) :
    OrderlyReferences result.references := by
  unfold validateResult at h
  obtain ⟨_, -, h⟩ := bind_eq_ok.mp h
  obtain ⟨_, hcount, h⟩ := bind_eq_ok.mp h
  have hcount : result.references.length ≤ maxReferences := by
    unfold validateResultCollectionSize at hcount
    split at hcount
    · cases hcount
    · omega
  obtain ⟨hall, hnodup, -⟩ := validateReferences_ok (mapError_eq_ok.mp h)
  have token : ∀ {field : String} {value : GoString} {limit : ℕ},
      validatePolicyToken field value true limit = .ok () → Clean limit value ∧ value ≠ .utf8 "" := by
    intro field value limit hv
    obtain ⟨_, hv, -⟩ := bind_eq_ok.mp hv
    exact clean_required hv fun c hc => by simp [isControlOrSeparator, hc]
  exact ⟨hcount, fun r hr => ⟨token (hall r hr).1, token (hall r hr).2⟩, hnodup⟩

/-- What a plan that was validated leaves to an event. -/
theorem validatePlanRecord_ok {checks : Checks} {plan : Plan}
    (h : validatePlanRecord checks plan = .ok ()) :
    matchDigest plan.hash.runes = true ∧ OrderlyImpact plan.impact :=
  ⟨digest_of_validatePlanHash (validPlan_of_ok h).hash,
    orderlyImpact_of_persistent (validPlan_of_ok h).impact⟩

/-- What a completed record that was validated leaves to an event. -/
theorem planHash_of_stored {checks : Checks} {record : IdempotencyRecord}
    (h : validateStoredIdempotencyRecord checks record = .ok ()) :
    matchDigest record.planHash.runes = true := by
  have hexec : ∃ missing, validateIdempotencyExecution checks missing record = .ok () := by
    unfold validateStoredIdempotencyRecord at h
    split at h
    · obtain ⟨_, h, -⟩ := bind_eq_ok.mp h
      exact ⟨_, h⟩
    · obtain ⟨_, h, -⟩ := bind_eq_ok.mp h
      exact ⟨_, h⟩
    · cases h
  obtain ⟨missing, h⟩ := hexec
  obtain ⟨_, hlookup, h⟩ := bind_eq_ok.mp h
  obtain ⟨_, hne, -⟩ := bind_eq_ok.mp h
  have hne := refuseIf_eq_ok.mp hne
  unfold validateIdempotencyLookupRecord at hlookup
  iterate 9 obtain ⟨_, -, hlookup⟩ := bind_eq_ok.mp hlookup
  rw [if_pos hne] at hlookup
  exact digest_of_validatePlanHash hlookup

/-! ### The core of the entry points -/

/-- An error exit with this action, for the request that was given. -/
def Kept (given : Action.Types.Request) (registered : Registration) (exit : Exit) : Prop :=
  Stems given exit.request ∧ exit.registered = registered

/-- To ask is not to record. -/
theorem silent_of_consults (op : Op) (h : consults op = true) : eventOf op = none := by
  cases op <;> first | rfl | cases h

section Core

variable {e : Engine} {given request : Action.Types.Request} {h : History} {startedAt : Time}
  {registered : Registration} {α : Type}

theorem vouched_of_silent {op : Op} (hop : eventOf op = none) :
    Vouched e startedAt registered h op := by
  intro event he
  rw [hop] at he
  cases he

/-- A part that does not record. -/
theorem meets_silent {ε : Type} {p : Attempt Op Op.Response ε α}
    (hp : Attempt.Confined (fun op => eventOf op = none) p) :
    Attempt.Meets (Vouched e startedAt registered) (fun _ _ => True) (fun _ _ => True) p h :=
  (hp h).weaken fun _ _ => vouched_of_silent

theorem meets_ofExcept {x : Except Err α} :
    Attempt.Meets (Vouched e startedAt registered) (fun _ a => x = .ok a) (fun _ _ => True)
      (Step.ofExcept x) h := by
  cases x with
  | ok a => exact Attempt.meets_pure.mpr rfl
  | error err => exact Attempt.meets_throw.mpr trivial

theorem meets_exiting_kept {Q : History → α → Prop} {step : Step α} (hr : Stems given request)
    (hs : Attempt.Meets (Vouched e startedAt registered) Q (fun _ _ => True) step h) :
    Attempt.Meets (Vouched e startedAt registered) Q (fun _ => Kept given registered)
      (exiting request registered step) h :=
  Attempt.meets_adapt.mpr (hs.mono (fun _ _ => id) fun _ _ _ => ⟨hr, rfl⟩)

theorem meets_decorated_kept {Q : History → α → Prop} {step : Step α} (hr : Stems given request)
    (hs : Attempt.Meets (Vouched e startedAt registered) Q (fun _ _ => True) step h) :
    Attempt.Meets (Vouched e startedAt registered) Q (fun _ => Kept given registered)
      (decorated e request registered step) h :=
  Attempt.meets_adapt.mpr (hs.mono (fun _ _ => id) fun _ _ _ => ⟨hr, rfl⟩)

/-- A transaction adds two calls that do not record. -/
theorem meets_withinTransaction_vouched {P : α → Prop} {operation : Step α}
    (hop : ∀ h, Attempt.Meets (Vouched e startedAt registered) (fun _ a => P a) (fun _ _ => True)
      operation h) :
    Attempt.Meets (Vouched e startedAt registered) (fun _ a => P a) (fun _ _ => True)
      (withinTransaction e operation) h := by
  unfold withinTransaction
  show Prog.Meets _ _ _ h
  refine Prog.meets_bind.mpr ⟨vouched_of_silent rfl, fun started => ?_⟩
  cases started with
  | unused reply => trivial
  | nilContext serial reply => trivial
  | violated reply => trivial
  | run serial =>
    refine meets_run (hop _) (fun h' a ha => ?_) fun h' err _ => ?_
    · refine Prog.meets_bind.mpr ⟨vouched_of_silent rfl, fun finished => Prog.meets_ret.mpr ?_⟩
      dsimp only
      split
      · next he _ =>
        obtain rfl := Except.ok.inj he
        exact ha
      · trivial
    · exact Prog.meets_bind.mpr ⟨vouched_of_silent rfl, fun finished => trivial⟩

/-! ### Plans -/

/-- A plan that is sealed already was validated. -/
theorem meets_resolveExecutionPlan_sealed :
    Attempt.Meets (Vouched e startedAt registered)
      (fun _ plan => plan.decisionFingerprint ≠ .utf8 "" →
        validatePlanRecord e.checks plan = .ok ())
      (fun _ _ => True) (resolveExecutionPlan e request registered) h := by
  unfold resolveExecutionPlan
  dsimp only
  split
  · exact Attempt.meets_throw.mpr trivial
  split
  · unfold loadExecutionPlan
    refine Attempt.Meets.bind (meets_silent (Attempt.confined_attempt rfl)) fun h₁ plan _ => ?_
    refine Attempt.meets_adapt.mpr (Attempt.Meets.bind meets_ofExcept fun h₂ _ hl => ?_)
    refine Attempt.Meets.bind (meets_silent (confined_currentTime silent_of_consults))
      fun h₃ now _ => ?_
    refine Attempt.Meets.bind meets_ofExcept fun h₄ _ _ => Attempt.meets_pure.mpr fun _ => ?_
    exact (checkLoaded_ok hl).1
  · refine Attempt.meets_adapt.mpr ?_
    unfold planInline
    refine Attempt.Meets.bind (meets_silent (confined_handlerPlan e silent_of_consults))
      fun h₁ data _ => ?_
    refine Attempt.Meets.bind meets_ofExcept fun h₂ inputHash _ => ?_
    refine Attempt.Meets.bind (meets_silent (confined_currentTime silent_of_consults))
      fun h₃ now _ => ?_
    refine Attempt.Meets.bind meets_ofExcept fun h₄ payload _ => Attempt.meets_pure.mpr ?_
    exact fun hne => absurd rfl hne

/-- A request that goes on under the hash of a plan. -/
theorem Stems.planned {planHash : GoString} (hr : Stems given request)
    (hp : matchDigest planHash.runes = true) : Stems given { request with planHash := planHash } := by
  obtain ⟨input, _, rfl⟩ := hr.same
  exact ⟨⟨input, planHash, rfl⟩, Or.inr hp⟩

theorem meets_preparePlan_kept {intent : Decision} {record : IdempotencyRecord}
    (hr : Stems given request) :
    Attempt.Meets (Vouched e startedAt registered)
      (fun _ p => p.1 = { request with planHash := p.2.hash } ∧
        validatePlanRecord e.checks p.2 = .ok ())
      (fun _ => Kept given registered) (preparePlan e request registered intent record) h := by
  unfold preparePlan
  refine Attempt.Meets.bind (meets_exiting_kept hr meets_resolveExecutionPlan_sealed)
    fun h₁ plan hplan => ?_
  dsimp only
  by_cases hn : plan.decisionFingerprint = .utf8 ""
  · simp only [if_pos hn]
    refine Attempt.Meets.bind (meets_exiting_kept hr
      (meets_silent (confined_authorizeImpact e silent_of_consults))) fun h₂ decision _ => ?_
    refine Attempt.Meets.bind (meets_decorated_kept hr meets_ofExcept) fun h₃ sealed hs => ?_
    have hv := (sealExecutionPlan_ok hs).1
    refine Attempt.Meets.bind (meets_decorated_kept (hr.planned (validatePlanRecord_ok hv).1)
      meets_ofExcept) fun h₄ _ _ => ?_
    exact Attempt.meets_pure.mpr ⟨rfl, hv⟩
  · have hv := hplan hn
    have hr' := hr.planned (validatePlanRecord_ok hv).1
    simp only [if_neg hn]
    refine Attempt.Meets.bind (meets_exiting_kept hr'
      (meets_silent (confined_authorizeImpact e silent_of_consults))) fun h₂ decision _ => ?_
    refine Attempt.Meets.bind (Q := fun _ sealed => sealed = plan)
      (meets_decorated_kept hr' (Attempt.meets_pure.mpr rfl)) fun h₃ sealed hs => ?_
    subst hs
    refine Attempt.Meets.bind (meets_decorated_kept hr' meets_ofExcept) fun h₄ _ _ => ?_
    exact Attempt.meets_pure.mpr ⟨rfl, hv⟩

/-! ### Executions -/

/-- What is known of a request whose action is executed or previewed. -/
structure Underway (e : Engine) (given request : Action.Types.Request) : Prop where
  stems : Stems given request
  entered : Entered request
  input : ∃ canonical hash, canonicalInput e request.input = .ok (canonical, hash)

/-- The request of an event under the hash of a plan. -/
theorem Underway.planned {planHash : GoString} (hu : Underway e given request)
    (hp : matchDigest planHash.runes = true) :
    Underway e given { request with planHash := planHash } ∧
      matchDigest ({ request with planHash := planHash } : Action.Types.Request).planHash.runes =
        true := by
  refine ⟨⟨hu.stems.planned hp, ⟨?_, hu.entered.scope⟩, hu.input⟩, hp⟩
  have henv := hu.entered.envelope
  simp only [validateRequestEnvelope, bind_eq_ok] at henv ⊢
  obtain ⟨_, h1, _, h2, _, h3, _, h4, _, h5, -⟩ := henv
  refine ⟨(), h1, (), h2, (), h3, (), h4, (), h5, refuseIf_eq_ok.mpr ?_⟩
  simp [validatePlanHash, hp, Except.isOk, Except.toBool]

/-- The event of a success is handed to the hook as `event` made it. -/
theorem meets_event_success (hstd : Standard e) {decision : AuditDecision} {summary : GoString}
    {impact : Impact} {references : List Reference} (hu : Underway e given request)
    (hp : matchDigest request.planHash.runes = true) (hd : successfulDecision decision = true)
    (himpact : OrderlyImpact impact) (hrefs : OrderlyReferences references) :
    Prog.Meets (Vouched e startedAt registered)
      (fun h' auditEvent => ∀ op, eventOf op = some auditEvent →
        Vouched e startedAt registered h' op)
      (event e request registered startedAt decision (.utf8 "") summary impact references) h := by
  refine (meets_event (vouched_of_silent rfl)).mono ?_
  rintro h' auditEvent ⟨reading, rfl, rfl⟩ op hop event he hs hm hc
  obtain rfl : _ = event := Option.some.inj (hop.symm.trans he)
  exact record_success hstd hu.entered hp hu.input hd himpact hrefs hs hm hc

/-- What an outcome leaves to the event of a replay. -/
def Replayable : Engine.Outcome → Prop
  | .executed _ => True
  | .replayed existing result => matchDigest existing.planHash.runes = true ∧
    OrderlyImpact existing.impact ∧ OrderlyReferences result.references

theorem meets_completedResult_orderly {intent : Decision} {expected existing : IdempotencyRecord} :
    Attempt.Meets (Vouched e startedAt registered)
      (fun _ result => Replayable (.replayed existing result)) (fun _ _ => True)
      (completedResult e request registered intent expected existing) h := by
  unfold completedResult
  refine Attempt.Meets.bind meets_ofExcept fun h₁ _ hstored => ?_
  refine Attempt.Meets.bind (meets_silent (confined_authorizeWithFallback e silent_of_consults))
    fun h₂ decision _ => ?_
  refine meets_ofExcept.mono (fun h₃ result hreplay => ?_) fun _ _ => id
  unfold checkStored at hstored
  obtain ⟨_, hv, hstored⟩ := bind_eq_ok.mp hstored
  iterate 6 obtain ⟨_, -, hstored⟩ := bind_eq_ok.mp hstored
  unfold checkReplay at hreplay
  iterate 3 obtain ⟨_, -, hreplay⟩ := bind_eq_ok.mp hreplay
  obtain ⟨_, hresult, hreplay⟩ := bind_eq_ok.mp hreplay
  obtain rfl := Except.ok.inj hreplay
  exact ⟨planHash_of_stored (mapError_eq_ok.mp (mapError_eq_ok.mp hv)),
    orderlyImpact_of_validateImpact (mapError_eq_ok.mp hstored),
    orderlyReferences_of_validateResult (mapError_eq_ok.mp hresult)⟩

/-- The handler, the completion and the event. -/
theorem meets_executePlan_vouched (hstd : Standard e) {plan : Plan}
    {reservation : Option IdempotencyRecord} (hu : Underway e given request)
    (hp : matchDigest request.planHash.runes = true) (himpact : OrderlyImpact plan.impact) :
    Attempt.Meets (Vouched e startedAt registered) (fun _ => Replayable) (fun _ _ => True)
      (executePlan e startedAt request registered plan reservation) h := by
  unfold executePlan handlerExecute
  refine Attempt.Meets.bind (Q := fun _ result => checkOutput registered result = .ok ()) ?_
    fun h₁ result hresult => ?_
  · refine Attempt.Meets.bind (meets_silent (Attempt.confined_attempt rfl)) fun h₁ result _ => ?_
    exact Attempt.Meets.bind meets_ofExcept fun h₂ _ hok => Attempt.meets_pure.mpr hok
  refine Attempt.Meets.bind (meets_silent ?_) fun h₂ _ _ => ?_
  · cases reservation with
    | none => exact Attempt.confined_pure
    | some reservation => exact Attempt.confined_attempt rfl
  have hrefs : OrderlyReferences result.references := by
    unfold checkOutput at hresult
    iterate 3 obtain ⟨_, -, hresult⟩ := bind_eq_ok.mp hresult
    exact orderlyReferences_of_validateResult (mapError_eq_ok.mp hresult)
  unfold auditAllowed recordRequired
  refine Attempt.Meets.bind (Q := fun _ _ => True) ?_ fun h₃ _ _ => Attempt.meets_pure.mpr trivial
  refine Attempt.Meets.bind (meets_lift.mpr (meets_event_success hstd hu hp rfl himpact hrefs))
    fun h₃ auditEvent hv => ?_
  refine Attempt.meets_attempt.mpr ⟨hv _ rfl, fun reply => ?_⟩
  cases Reply.dependency "record required action audit" reply with
  | ok _ => trivial
  | error err => trivial

/-- The deferred release does not record. -/
theorem meets_releasing_vouched {P : α → Prop} {reservation : IdempotencyRecord} {operation : Step α}
    (hop : ∀ h, Attempt.Meets (Vouched e startedAt registered) (fun _ a => P a) (fun _ _ => True)
      operation h) :
    Attempt.Meets (Vouched e startedAt registered) (fun _ a => P a) (fun _ _ => True)
      (releasing reservation operation) h := by
  unfold releasing
  refine meets_run (hop _) (fun h' a ha => ha) fun h' err _ => ?_
  have habort : Attempt.Meets (Vouched e startedAt registered) (fun _ _ => True) (fun _ _ => True)
      (abort reservation) h' := meets_silent (Attempt.confined_attempt rfl)
  exact meets_run habort (fun _ _ _ => trivial) fun _ _ _ => trivial

theorem meets_executeBody_vouched (hstd : Standard e) {plan : Plan} {record : IdempotencyRecord}
    (hu : Underway e given request) (hp : matchDigest request.planHash.runes = true)
    (himpact : OrderlyImpact plan.impact) :
    Attempt.Meets (Vouched e startedAt registered) (fun _ => Replayable) (fun _ _ => True)
      (executeBody e startedAt request registered record plan) h := by
  unfold executeBody
  refine Attempt.Meets.bind (meets_silent (confined_authorizeWithFallback e silent_of_consults))
    fun h₁ intent _ => ?_
  refine Attempt.Meets.bind (meets_silent (confined_authorizeImpact e silent_of_consults))
    fun h₂ decision _ => ?_
  split
  · exact meets_executePlan_vouched hstd hu hp himpact
  refine Attempt.Meets.bind (meets_silent (Attempt.confined_attempt rfl)) fun h₃ found _ => ?_
  cases found with
  | none => exact meets_releasing_vouched fun h => meets_executePlan_vouched hstd hu hp himpact
  | some existing =>
    refine Attempt.Meets.bind meets_ofExcept fun h₄ existing _ => ?_
    exact Attempt.Meets.bind meets_completedResult_orderly fun h₅ result hr =>
      Attempt.meets_pure.mpr hr

theorem meets_replayBody_vouched {record : IdempotencyRecord} :
    Attempt.Meets (Vouched e startedAt registered) (fun _ => Replayable) (fun _ _ => True)
      (replayBody e request registered record) h := by
  unfold replayBody
  refine Attempt.Meets.bind (meets_silent (confined_lookup silent_of_consults)) fun h₁ found _ => ?_
  cases found with
  | none => exact Attempt.meets_throw.mpr trivial
  | some current =>
    refine Attempt.Meets.bind meets_ofExcept fun h₂ existing _ => ?_
    refine Attempt.Meets.bind (meets_silent (confined_authorizeWithFallback e silent_of_consults))
      fun h₃ intent _ => ?_
    exact Attempt.Meets.bind meets_completedResult_orderly fun h₄ result hr =>
      Attempt.meets_pure.mpr hr

/-- A replay is recorded after its transaction. -/
theorem meets_settle_vouched (hstd : Standard e) {outcome : Engine.Outcome}
    (hu : Underway e given request) (ho : Replayable outcome) :
    Prog.Meets (Vouched e startedAt registered) (fun _ _ => True)
      (outcome.settle e startedAt request registered) h := by
  cases outcome with
  | executed result => trivial
  | replayed existing result =>
    obtain ⟨hplan, himpact, hrefs⟩ := ho
    obtain ⟨hu', hp⟩ := hu.planned hplan
    unfold Outcome.settle
    refine Prog.meets_bind.mpr ((meets_event_success hstd hu' hp rfl himpact hrefs).mono ?_)
    exact fun h' auditEvent hv => ⟨hv _ rfl, fun _ => trivial⟩

/-- A transaction of `Execute` and what follows it. -/
theorem meets_outcome_kept (hstd : Standard e) {body : Step Engine.Outcome}
    (hu : Underway e given request)
    (hbody : ∀ h, Attempt.Meets (Vouched e startedAt registered) (fun _ => Replayable)
      (fun _ _ => True) body h) :
    Attempt.Meets (Vouched e startedAt registered) (fun _ _ => True) (fun _ => Kept given registered)
      (do
        let outcome ← decorated e request registered (withinTransaction e body)
        ExceptT.lift (outcome.settle e startedAt request registered)) h := by
  refine Attempt.Meets.bind (meets_decorated_kept hu.stems (meets_withinTransaction_vouched hbody))
    fun h₁ outcome ho => ?_
  exact meets_lift.mpr (meets_settle_vouched hstd hu ho)

/-- **The core of `Execute`** records only what the hook accepts. -/
theorem meets_executeAdmitted_kept (hstd : Standard e) (hr : Stems given request)
    (hen : Entered request) :
    Attempt.Meets (Vouched e startedAt registered) (fun _ _ => True) (fun _ => Kept given registered)
      (executeAdmitted e startedAt request registered) h := by
  unfold executeAdmitted
  refine Attempt.Meets.bind (meets_exiting_kept hr
    (meets_silent (confined_authorizeWithFallback e silent_of_consults))) fun h₁ intent _ => ?_
  refine Attempt.Meets.bind (meets_decorated_kept hr meets_ofExcept) fun h₂ inputHash hc => ?_
  have hu : Underway e given request := by
    obtain ⟨canonical, hinput⟩ := checkExecute_ok hc
    exact ⟨hr, hen, canonical, inputHash, hinput⟩
  have hfresh : ∀ h record, Attempt.Meets (Vouched e startedAt registered) (fun _ _ => True)
      (fun _ => Kept given registered) (executeFresh e startedAt request registered intent record) h := by
    intro h record
    unfold executeFresh
    refine Attempt.Meets.bind (meets_preparePlan_kept hr) fun h₃ p hp => ?_
    obtain ⟨planned, plan⟩ := p
    obtain ⟨hplanned, hv⟩ := hp
    obtain rfl : planned = { request with planHash := plan.hash } := hplanned
    obtain ⟨hdigest, himpact⟩ := validatePlanRecord_ok hv
    obtain ⟨hu', hp⟩ := hu.planned hdigest
    exact meets_outcome_kept hstd hu' fun h => meets_executeBody_vouched hstd hu' hp himpact
  split
  · exact hfresh _ _
  refine Attempt.Meets.bind (meets_decorated_kept hr
    (meets_silent (confined_lookup silent_of_consults))) fun h₃ found _ => ?_
  cases found with
  | none => exact hfresh _ _
  | some existing => exact meets_outcome_kept hstd hu fun h => meets_replayBody_vouched

/-! ### Previews -/

theorem meets_previewBody_vouched (hstd : Standard e) {data : PlanData} {inputHash : GoString}
    {payload : RawMessage} (hu : Underway e given request) (himpact : OrderlyImpact data.impact) :
    Attempt.Meets (Vouched e startedAt registered) (fun _ _ => True) (fun _ _ => True)
      (previewBody e startedAt request registered data inputHash payload) h := by
  unfold previewBody
  refine Attempt.Meets.bind (meets_silent (confined_authorizeWithFallback e silent_of_consults))
    fun h₁ intent _ => ?_
  refine Attempt.Meets.bind (meets_silent (confined_authorizeImpact e silent_of_consults))
    fun h₂ decision _ => ?_
  refine Attempt.Meets.bind (meets_silent (confined_currentTime silent_of_consults))
    fun h₃ createdAt _ => ?_
  refine Attempt.Meets.bind (meets_silent (Attempt.confined_attempt rfl)) fun h₄ deleted _ => ?_
  refine Attempt.Meets.bind meets_ofExcept fun h₅ _ _ => ?_
  refine Attempt.Meets.bind meets_ofExcept fun h₆ plan hs => ?_
  refine Attempt.Meets.bind (meets_silent (Attempt.confined_attempt rfl)) fun h₇ _ _ => ?_
  obtain ⟨hu', hp⟩ := hu.planned (validatePlanRecord_ok (sealPreviewPlan_ok hs).1).1
  refine Attempt.Meets.bind (meets_lift.mpr
    (meets_event_success hstd hu' hp rfl himpact orderlyReferences_nil)) fun h₈ auditEvent hv => ?_
  refine Attempt.Meets.bind (Q := fun _ _ => True) ?_ fun _ _ _ => Attempt.meets_pure.mpr trivial
  unfold recordRequired
  refine Attempt.meets_attempt.mpr ⟨hv _ rfl, fun reply => ?_⟩
  cases Reply.dependency "record required action audit" reply with
  | ok _ => trivial
  | error err => trivial

/-- **The core of `Preview`** records only what the hook accepts. -/
theorem meets_previewAdmitted_kept (hstd : Standard e) (hr : Stems given request)
    (hen : Entered request) :
    Attempt.Meets (Vouched e startedAt registered) (fun _ _ => True) (fun _ => Kept given registered)
      (previewAdmitted e startedAt request registered) h := by
  unfold previewAdmitted
  refine Attempt.Meets.bind (meets_decorated_kept hr meets_ofExcept) fun h₁ _ _ => ?_
  refine Attempt.Meets.bind (meets_exiting_kept hr
    (meets_silent (confined_authorizeWithFallback e silent_of_consults))) fun h₂ intent _ => ?_
  refine Attempt.Meets.bind (meets_decorated_kept hr
    (meets_silent (confined_handlerPlan e silent_of_consults))) fun h₃ data _ => ?_
  refine Attempt.Meets.bind (meets_decorated_kept hr meets_ofExcept) fun h₄ checked hchecked => ?_
  obtain ⟨payload, summary⟩ := checked
  refine Attempt.Meets.bind (meets_exiting_kept hr
    (meets_silent (confined_authorizeImpact e silent_of_consults))) fun h₅ _ _ => ?_
  refine Attempt.Meets.bind (meets_decorated_kept hr meets_ofExcept) fun h₆ canonical hi => ?_
  obtain ⟨canonical, inputHash⟩ := canonical
  have himpact : OrderlyImpact data.impact := by
    unfold checkPreviewed at hchecked
    iterate 4 obtain ⟨_, -, hchecked⟩ := bind_eq_ok.mp hchecked
    obtain ⟨_, hfacts, -⟩ := bind_eq_ok.mp hchecked
    obtain ⟨_, himpact, -⟩ := bind_eq_ok.mp hfacts
    exact orderlyImpact_of_validateImpact (mapError_eq_ok.mp himpact)
  have hu : Underway e given request := ⟨hr, hen, canonical, inputHash, hi⟩
  refine Attempt.Meets.bind (meets_decorated_kept hr
    (meets_withinTransaction_vouched fun h => meets_previewBody_vouched hstd hu himpact))
    fun h₇ plan _ => ?_
  exact Attempt.meets_pure.mpr trivial

end Core

/-! ### The entry points -/

section Entry

variable {e : Engine} {given : Action.Types.Request} {acquired : Option Registration}

theorem requestID_ne_of_attributable (hg : Attributable given) : given.requestID ≠ .utf8 "" := by
  intro hempty
  have := hg.requestID
  rw [hempty, sanitizeIdentifier_of_clean (clean_empty _)] at this
  exact this rfl

theorem Stems.withInput (given : Action.Types.Request) (input : RawMessage) :
    Stems given { given with input := input } :=
  ⟨⟨input, given.planHash, rfl⟩, Or.inl rfl⟩

/-- A request that is refused on the way in is recorded as it came, or with another input. -/
theorem validated_error_stems {exit : Exit} (hv : validated e given acquired = .error exit) :
    (∃ input, exit.request = { given with input := input }) ∧
      (exit.registered = Registration.zero ∨ acquired = some exit.registered) := by
  unfold validated at hv
  split at hv
  · obtain rfl := Except.error.inj hv
    refine ⟨⟨_, rfl⟩, ?_⟩
    cases acquired with
    | none => exact Or.inl rfl
    | some registered => exact Or.inr rfl
  unfold validateAcquired at hv
  dsimp only at hv
  iterate 4
    split at hv
    · obtain rfl := Except.error.inj hv
      exact ⟨⟨given.input, rfl⟩, Or.inl rfl⟩
  split at hv
  · obtain rfl := Except.error.inj hv
    exact ⟨⟨_, rfl⟩, Or.inl rfl⟩
  · cases hv

/-- A request that gets in has passed the checks. -/
theorem validated_ok_entered {request : Action.Types.Request}
    (hv : validated e given acquired = .ok request) :
    Stems given request ∧ Entered request := by
  unfold validated at hv
  split at hv
  · cases hv
  unfold validateAcquired at hv
  dsimp only at hv
  split at hv
  · cases hv
  next henv =>
  split at hv
  · cases hv
  split at hv
  · cases hv
  next hcaller =>
  split at hv
  · cases hv
  split at hv
  · cases hv
  obtain rfl := Except.ok.inj hv
  refine ⟨Stems.withInput given _, henv, ?_⟩
  unfold checkCaller at hcaller
  iterate 2 obtain ⟨_, -, hcaller⟩ := bind_eq_ok.mp hcaller
  have hscope := refuseIf_eq_ok.mp hcaller
  cases hs : given.scope.validate with
  | ok _ => rfl
  | error text =>
    rw [hs] at hscope
    exact absurd rfl hscope

variable {α : Type} {hasContext : Bool} {A : History → Op → Prop} {Q : History → α → Prop}
  {core : Time → Action.Types.Request → Registration → Governed α}

/-- **Every event of an entry point is accepted**, when the plan hash of the request can be shown. -/
theorem meets_governed_audited (hstd : Standard e) (hg : Attributable given) (hh : Hashed given)
    (hcore : ∀ h startedAt request registered, Stems given request → Entered request →
      Attempt.Meets (Vouched e startedAt registered) (fun _ _ => True)
        (fun _ => Kept given registered) (core startedAt request registered) h)
    (hfails : ∀ h startedAt request registered, Admitted e given h request registered →
      Attempt.Meets A Q (BlamedExit e registered.descriptor) (core startedAt request registered) h) :
    Prog.Meets (Audited e) (fun _ _ => True) (governed e hasContext given core) [] := by
  have hne := requestID_ne_of_attributable hg
  refine meets_governed_of (e := e) (R := fun _ _ => True) (E := Sane e given) ?_
    (fun _ _ _ _ => trivial) ?_ ?_ ?_
  · intro h op ho event he
    have hop : eventOf op = none := by cases op <;> first | rfl | cases ho
    rw [hop] at he
    cases he
  · intro h nanos id acquired exit hc hclock hid ha hv
    have hfit := validated_error hc.2 ha hv
    obtain rfl := hid hne
    obtain ⟨⟨input, hreq⟩, hregistered⟩ := validated_error_stems hv
    exact ⟨hfit.1, hclock, hreq ▸ Stems.withInput given input,
      hregistered.imp_right fun hr => ha _ hr⟩
  · intro h nanos id request registered hclock hid ha hv
    obtain rfl := hid hne
    obtain ⟨hstems, hentered⟩ := validated_ok_entered hv
    have hboth := (hcore h { nanos } request registered hstems hentered).and
      (hfails h { nanos } request registered ha)
    refine (hboth.under (B := Audited e)
      (I := fun h' => ⟨.clock .decision, some nanos⟩ ∈ h' ∧
        ⟨.acquire given.actionID, .found registered⟩ ∈ h') ?_ ?_ ⟨hclock, ha.acquired⟩).mono
      (fun _ _ _ => trivial) ?_
    · exact fun h' op hm r => ⟨List.mem_append_left _ hm.1, List.mem_append_left _ hm.2⟩
    · exact fun h' op hm hv event he hs => hv event he hs hm.1 (hs.contracted _ _ hm.2)
    · rintro h' exit ⟨⟨hkept, hblamed⟩, hm⟩
      exact ⟨hblamed.1, hm.1, hkept.1, Or.inr (hkept.2 ▸ hm.2)⟩
  · intro h startedAt exit hs
    exact meets_fail_audited hstd hg hh hs

theorem meets_execute_audited (hstd : Standard e) (hg : Attributable given) (hh : Hashed given)
    (hasContext : Bool) :
    Prog.Meets (Audited e) (fun _ _ => True) (execute e hasContext given) [] :=
  meets_governed_audited hstd hg hh (fun _ _ _ _ => meets_executeAdmitted_kept hstd)
    fun _ _ _ _ => meets_executeAdmitted

theorem meets_preview_audited (hstd : Standard e) (hg : Attributable given) (hh : Hashed given)
    (hasContext : Bool) :
    Prog.Meets (Audited e) (fun _ _ => True) (preview e hasContext given) [] :=
  meets_governed_audited hstd hg hh (fun _ _ _ _ => meets_previewAdmitted_kept hstd)
    fun _ _ _ _ => meets_previewAdmitted

/-! ### What is lost -/

/-- The calls that come before the event of a request for an action that is not registered. -/
def unregistered (given : Action.Types.Request) : History :=
  [⟨.acquire given.actionID, .missing⟩, ⟨.clock .decision, some 0⟩, ⟨.clock .event, some 0⟩]

theorem steady_unregistered (e : Engine) (given : Action.Types.Request) :
    Steady e (unregistered given) where
  forwards := by
    have hr : readings (unregistered given) = [0, 0] := rfl
    rw [hr]
    decide
  inRange := by
    have hr : readings (unregistered given) = [0, 0] := rfl
    rw [hr]
    decide
  contracted id registered hm := by
    simp only [unregistered, List.mem_cons, List.not_mem_nil, or_false, Lib.Prog.Event.mk.injEq,
      reduceCtorEq, false_and] at hm
    obtain ⟨hop, hr⟩ := hm
    cases hop
    cases eq_of_heq hr

/-- A request for an action that is not registered is recorded under the plan hash it came with. -/
theorem execute_calls_unregistered (hne : given.requestID ≠ .utf8 "") :
    ∃ event, event.planHash = given.planHash ∧ successfulDecision event.decision = false ∧
      (execute e true given).Calls (unregistered given) (.auditDetached (normalizeEvent event)) := by
  obtain ⟨exit, hv⟩ : ∃ exit, validated e given none = .error exit := by
    cases hv : validated e given none with
    | error exit => exact ⟨exit, rfl⟩
    | ok request =>
      obtain ⟨registered, -, -, hr, -⟩ := @validated_ok e given given.requestID none request hv
      cases hr
  obtain ⟨⟨input, hreq⟩, -⟩ := validated_error_stems hv
  have hnormal : (normalizeRequest given).Runs [] given := by
    unfold normalizeRequest
    rw [if_neg hne]
    exact ⟨rfl, rfl⟩
  have hadmitted : ∀ core : Action.Types.Request → Registration → Governed Result,
      (admitted e given none core).run.Runs [] (.error exit) := by
    intro core
    unfold admitted
    rw [hv]
    exact ⟨rfl, rfl⟩
  let wrapped := finalizeRuntimeFailure e.heap
    (withRequest e.heap exit.err exit.request exit.registered.descriptor.permission)
  let reason := failureReason e.heap wrapped
  refine ⟨failedEvent e { nanos := 0 } exit wrapped reason (some 0), ?_,
    (validateDecisionKind_failure _).2, ?_⟩
  · show exit.request.planHash = _
    rw [hreq]
  have hfail : (fail e { nanos := 0 } exit).Calls [⟨.clock .event, some 0⟩]
      (.auditDetached (normalizeEvent (failedEvent e { nanos := 0 } exit wrapped reason (some 0)))) := by
    unfold failedEvent
    rw [← normalizeEvent_rewritten, ← eventAt_eq]
    exact ⟨some 0, rfl, rfl⟩
  unfold execute governed
  refine ⟨.missing, rfl, ?_⟩
  show (governed.afterLease e given (executeAdmitted e) none).Calls _ _
  unfold governed.afterLease
  refine hnormal.bind_calls ?_
  refine ⟨some 0, rfl, ?_⟩
  refine (hadmitted _).bind_calls ?_
  exact hfail.bind

end Entry

/-- **The audit trail is complete exactly for the requests whose plan hash can be shown.** Whatever the
environment does, every event that `Execute` or `Preview` hands to the hook is accepted; a request with
any other plan hash has runs whose only event is refused. -/
theorem audit_trail_complete {e : Engine} (hstd : Standard e) {given : Action.Types.Request}
    (hg : Attributable given) :
    (∀ hasContext events op event,
      ((execute e hasContext given).Calls events op ∨ (preview e hasContext given).Calls events op) →
      eventOf op = some event → Steady e events → record e.checks event = .ok ()) ↔
    Hashed given := by
  constructor
  · intro hall
    obtain ⟨event, hplan, hd, hcalls⟩ :=
      @execute_calls_unregistered e given (requestID_ne_of_attributable hg)
    have hok := hall true _ _ _ (Or.inl hcalls) rfl (steady_unregistered e given)
    have := planHash_of_record hd hok
    rwa [hplan] at this
  · intro hh hasContext events op event hcalls he hs
    rcases hcalls with hc | hc
    · exact (meets_execute_audited hstd hg hh hasContext).calls hc event he hs
    · exact (meets_preview_audited hstd hg hh hasContext).calls hc event he hs

/-- An engine whose only semantic version is 1.0.0. -/
def auditedEngine : Engine :=
  { sampleEngine with
    checks :=
      { validateJSONDocument := fun _ => .ok
        semverIsValid := fun version => version == .utf8 "1.0.0" } }

theorem standard_auditedEngine : Standard auditedEngine where
  digest _ := by
    show matchDigest ("sha256:" ++ sampleDigest).toList = true
    decide +kernel
  ascii version hv := by
    obtain rfl : version = .utf8 "1.0.0" := by simpa [auditedEngine] using hv
    have hall : (GoString.utf8 "1.0.0").runes.all (fun c => c.utf8Size == 1) = true := by decide
    simpa using hall

theorem attributable_sampleRequest (planHash : GoString) :
    Attributable { sampleRequest with planHash := planHash } where
  requestID := by
    show sanitizeIdentifier sampleRequest.requestID maxRequestIDRunes ≠ _
    decide
  actionID := by
    show sanitizeIdentifier sampleRequest.actionID maxActionIDRunes ≠ _
    decide
  scope := by
    refine Or.inr ?_
    show sampleRequest.scope.validate = _
    decide

/-- Every event of a request without a plan is accepted. -/
theorem audit_trail_complete_unplanned : Attributable sampleRequest ∧ Hashed sampleRequest ∧
    ∀ hasContext events op event,
      ((execute auditedEngine hasContext sampleRequest).Calls events op ∨
        (preview auditedEngine hasContext sampleRequest).Calls events op) →
      eventOf op = some event → Steady auditedEngine events →
      record auditedEngine.checks event = .ok () :=
  ⟨attributable_sampleRequest _, by decide,
    (audit_trail_complete standard_auditedEngine (attributable_sampleRequest _)).mpr (by decide)⟩

/-- A request with a malformed plan hash. -/
def malformedRequest : Action.Types.Request :=
  { sampleRequest with planHash := .utf8 "not-a-digest" }

/-- **The event of a request with a malformed plan hash is refused**, and the attempt is not recorded. -/
theorem malformed_plan_hash_unrecorded : Standard auditedEngine ∧ Attributable malformedRequest ∧
    ∃ events event, (execute auditedEngine true malformedRequest).Calls events (.auditDetached event) ∧
      Steady auditedEngine events ∧ record auditedEngine.checks event ≠ .ok () := by
  refine ⟨standard_auditedEngine, attributable_sampleRequest _, ?_⟩
  obtain ⟨event, hplan, hd, hcalls⟩ :=
    @execute_calls_unregistered auditedEngine malformedRequest (by decide)
  refine ⟨_, _, hcalls, steady_unregistered _ _, fun hok => ?_⟩
  have hbad := planHash_of_record hd hok
  rw [hplan] at hbad
  exact absurd hbad (show ¬ Hashed malformedRequest by decide)

end Modary.Runtime.AuditTrail
