import Modary.Action.Descriptors
import Modary.Action.Documents
import Modary.Runtime.AuditTrail

/-! # The engine's own records

The engine and the stores check the same fields with two families of validators. What the engine
builds from a request, plan data, a result and a decision that pass its own checks passes those of
package `actionpersistence`. -/

namespace Modary.Runtime.OwnRecords

open Modary.Lib.GoText Modary.Lib.Timestamp
open Modary.Action.Names Modary.Action.Authz Modary.Action.Errors Modary.Action.Types
open Modary.Action.Persistence Modary.Runtime.Environment Modary.Runtime.Engine
open Modary.Action.Documents (validateJSONDocument byteLen_of_document)
open Modary.Runtime.Traces Modary.Runtime.Runs Modary.Runtime.AuditTrail

/-! ### What the engine is assembled from -/

/-- What decoding, `canonicalizeJSONValue` and `json.Marshal` make of a document. -/
inductive Rendered
  | uncanonical (cause : Err)
  | marshalError (text : String)
  | text (canonical : RawMessage)

/-- The steps of `canonicalInput` before the hash. -/
def canonicalOf (checks : Checks) (render : RawMessage → Rendered) (input : RawMessage) :
    Canonical :=
  match checks.validateJSONDocument input with
  | .limit => .limit
  | .invalid _ => .malformed
  | .ok =>
    match render input with
    | .uncanonical cause => .uncanonical cause
    | .marshalError text => .marshalError text
    | .text canonical =>
      match checks.validateJSONDocument canonical with
      | .limit => .limitAfter
      | .invalid cause => .invalidAfter cause
      | .ok => .ok canonical

/-- What `Compiled.ValidateFlag` finds on the decoded document. -/
inductive Flag
  | valid
  | mismatch
  | limit
  | failed (text : String)

/-- `Validator.Validate`. -/
def validateWith (checks : Checks) (validateFlag : RawMessage → Flag) (input : RawMessage) :
    SchemaCheck :=
  match checks.validateJSONDocument input with
  | .limit => .limit
  | .invalid _ => .malformed
  | .ok =>
    match validateFlag input with
    | .valid => .valid
    | .mismatch => .mismatch
    | .limit => .evaluationLimit
    | .failed text => .evaluationError text

/-- An engine of `NewEngine`. Of SHA-256 it is taken that its digest has 64 lower-case hexadecimal
digits, of `json.Marshal` that it takes a JSON document as a `json.RawMessage`, of `jsonvalue.Validate` its
limit on bytes. -/
structure Assembled (e : Engine) (render : RawMessage → Rendered) : Prop where
  canonical : e.canonical = canonicalOf e.checks render
  digest : ∀ material, matchDigest ("sha256:" ++ e.sha256 material).toList = true
  bounded : ∀ document, e.checks.validateJSONDocument document = .ok →
    byteLen document ≤ maxJSONDocumentBytes
  compact : ∀ document, e.checks.validateJSONDocument document = .ok →
    (e.compact document).isSome = true
  planTTL : 0 < e.planTTL

/-- A registration of `BindPrepared`. -/
structure Bound (e : Engine) (registered : Registration) : Prop where
  compiled : Action.Descriptors.compileDescriptor e.checks registered.descriptor = .ok ()
  contract : ∃ material, registered.contractHash = .utf8 ("sha256:" ++ e.sha256 material)
  output : ∃ validateFlag, registered.validateOutput = validateWith e.checks validateFlag

/-! ### Values that pass both families -/

section Values

variable {e : Engine} {render : RawMessage → Rendered} {registered : Registration}

theorem isOk_of_ok {ε α : Type} {x : Except ε α} {a : α} (h : x = .ok a) : x.isOk = true := by
  rw [h]
  rfl

theorem ok_of_isOk {ε : Type} {x : Except ε Unit} (h : x.isOk = true) : x = .ok () := by
  cases x with
  | ok _ => rfl
  | error _ => cases h

theorem ok_of_toOption {ε α : Type} {x : Except ε α} {a : α} (h : x.toOption = some a) :
    x = .ok a := by
  cases x with
  | ok _ => exact congrArg Except.ok (Option.some.inj h)
  | error _ => cases h

theorem canonicalInput_ok (he : Assembled e render) {input canonical : RawMessage}
    {hash : GoString} (h : canonicalInput e input = .ok (canonical, hash)) :
    e.checks.validateJSONDocument canonical = .ok ∧ matchDigest hash.runes = true := by
  unfold canonicalInput at h
  rw [he.canonical] at h
  cases hc : canonicalOf e.checks render input with
  | ok canonical' =>
    rw [hc] at h
    simp only [Except.ok.injEq, Prod.mk.injEq] at h
    obtain ⟨rfl, rfl⟩ := h
    refine ⟨?_, he.digest _⟩
    unfold canonicalOf at hc
    split at hc
    · cases hc
    · cases hc
    · split at hc
      · cases hc
      · cases hc
      · split at hc
        · cases hc
        · cases hc
        · next hok =>
          obtain rfl := Canonical.ok.inj hc
          exact hok
  | _ =>
    rw [hc] at h
    cases h

theorem canonicalHandlerJSON_ok (he : Assembled e render) {value canonical : RawMessage}
    {field : String} (h : canonicalHandlerJSON e value field = .ok canonical) :
    e.checks.validateJSONDocument canonical = .ok := by
  unfold canonicalHandlerJSON at h
  dsimp only at h
  split at h
  · next hash hi =>
    obtain rfl := Except.ok.inj h
    exact (canonicalInput_ok he hi).1
  · cases h

/-- The validator of an output decodes what it accepts. -/
theorem validateOutput_ok (hr : Bound e registered) {data : RawMessage}
    (h : (registered.validateOutput data).verify = .ok ()) :
    e.checks.validateJSONDocument data = .ok := by
  obtain ⟨validateFlag, hf⟩ := hr.output
  rw [hf] at h
  unfold validateWith at h
  cases hd : e.checks.validateJSONDocument data with
  | ok => rfl
  | limit =>
    rw [hd] at h
    simp [SchemaCheck.verify, SchemaCheck.err, newError] at h
  | invalid cause =>
    rw [hd] at h
    simp [SchemaCheck.verify, SchemaCheck.err, newError] at h

/-- The version of a registered descriptor is one that stores accept. -/
theorem version_ok (hr : Bound e registered) :
    (validatePersistentActionVersion e.checks registered.descriptor.version).isOk = true := by
  have hc := hr.compiled
  unfold Action.Descriptors.compileDescriptor at hc
  obtain ⟨_, -, hc⟩ := bind_eq_ok.mp hc
  obtain ⟨_, htext, hc⟩ := bind_eq_ok.mp hc
  obtain ⟨_, hversion, -⟩ := bind_eq_ok.mp hc
  have hversion := refuseIf_eq_ok.mp hversion
  simp only [Bool.not_eq_false, Action.Descriptors.validActionVersion, Bool.and_eq_true,
    beq_iff_eq] at hversion
  have htext : validatePersistenceText "action version" registered.descriptor.version true
      maxVersionRunes = .ok () :=
    validateText_weaken (mapError_eq_ok.mp htext) fun _ hc => hc
  refine isOk_of_ok (a := ()) (bind_eq_ok.mpr ⟨(), htext, ?_⟩)
  exact refuseIf_eq_ok.mpr (by simp [hversion.1, hversion.2])

theorem contractHash_ok (he : Assembled e render) (hr : Bound e registered) :
    matchDigest registered.contractHash.runes = true := by
  obtain ⟨material, hm⟩ := hr.contract
  rw [hm]
  exact he.digest material

/-- The texts of policies are checked more strictly than persisted ones. -/
theorem persistenceToken_of_policy {field field' : String} {value : GoString} {required : Bool}
    {limit : ℕ} (h : validatePolicyToken field value required limit = .ok ()) :
    validatePersistenceToken field' value required limit = .ok () := by
  obtain ⟨_, htext, hspace⟩ := bind_eq_ok.mp h
  refine bind_eq_ok.mpr ⟨(), validateText_weaken htext ?_, ?_⟩
  · intro c hc
    simp [isControlOrSeparator, hc]
  · exact refuseIf_eq_ok.mpr (refuseIf_eq_ok.mp hspace)

/-- The fingerprint of a normalized decision is one that stores accept. -/
theorem fingerprint_ok {decision normalized : Decision} {descriptor : Descriptor}
    {fallback : GoString} (h : normalizeDecision decision descriptor fallback = .ok normalized) :
    validateDecisionFingerprint normalized.fingerprint = .ok () := by
  unfold normalizeDecision at h
  dsimp only at h
  obtain ⟨_, -, h⟩ := bind_eq_ok.mp h
  obtain ⟨_, -, h⟩ := bind_eq_ok.mp h
  obtain ⟨_, htoken, h⟩ := bind_eq_ok.mp h
  iterate 2 obtain ⟨_, -, h⟩ := bind_eq_ok.mp h
  have hsame : normalized.fingerprint =
      if decision.fingerprint = .utf8 "" then fallback else decision.fingerprint := by
    split at h
    · obtain ⟨_, -, h⟩ := bind_eq_ok.mp h
      rw [← Except.ok.inj h]
    · obtain ⟨_, -, h⟩ := bind_eq_ok.mp h
      obtain ⟨_, -, h⟩ := bind_eq_ok.mp h
      rw [← Except.ok.inj h]
  rw [hsame]
  exact persistenceToken_of_policy htoken

theorem validateResources_weaken {check check' : GoString → Except String Unit}
    (hc : ∀ r, check r = .ok () → check' r = .ok ()) {resources : List GoString} :
    ∀ {seen : List GoString}, validateResources check seen resources = .ok () →
      validateResources check' seen resources = .ok () := by
  induction resources with
  | nil => exact fun _ => rfl
  | cons r resources ih =>
    intro seen h
    unfold validateResources at h ⊢
    obtain ⟨_, hr, h⟩ := bind_eq_ok.mp h
    refine bind_eq_ok.mpr ⟨(), hc r hr, ?_⟩
    dsimp only at h ⊢
    split at h
    · cases h
    next hseen =>
    rw [if_neg hseen]
    exact ih h

theorem validateReferences_weaken {check check' : String → GoString → ℕ → Except String Unit}
    (hc : ∀ field value limit, check field value limit = .ok () → check' field value limit = .ok ())
    {references : List Reference} : ∀ {seen : List Reference},
    validateReferences check seen references = .ok () →
      validateReferences check' seen references = .ok () := by
  induction references with
  | nil => exact fun _ => rfl
  | cons r references ih =>
    intro seen h
    unfold validateReferences at h ⊢
    obtain ⟨_, hkind, h⟩ := bind_eq_ok.mp h
    obtain ⟨_, hid, h⟩ := bind_eq_ok.mp h
    refine bind_eq_ok.mpr ⟨(), hc _ _ _ hkind, bind_eq_ok.mpr ⟨(), hc _ _ _ hid, ?_⟩⟩
    dsimp only at h ⊢
    split at h
    · cases h
    next hseen =>
    rw [if_neg hseen]
    exact ih h

/-- An impact that the engine accepts. -/
theorem persistentImpact_of_validateImpact {impact : Impact} (h : validateImpact impact = .ok ()) :
    validatePersistentImpact impact = .ok () := by
  unfold validateImpact at h
  split at h
  · cases h
  next hrows =>
  split at h
  · cases h
  next hcount =>
  have hcount : ¬ maxResources < impact.resources.length := by
    unfold validateImpactCollectionSize at hcount
    split at hcount
    · cases hcount
    · next hle => exact hle
  refine bind_eq_ok.mpr ⟨(), refuseIf_eq_ok.mpr hrows, bind_eq_ok.mpr ⟨(),
    refuseIf_eq_ok.mpr hcount, validateResources_weaken ?_ (mapError_eq_ok.mp h)⟩⟩
  intro r hr
  unfold validateResource at hr
  split at hr
  · cases hr
  next hcond =>
  push Not at hcond
  obtain ⟨h1, h2, h3, h4, h5⟩ := hcond
  have h1 : r.validString = true := by simpa using h1
  have h4 : ¬ maxResourceRunes < r.runes.length := by omega
  have h5 : r.runes.any isControl = false := by simpa using h5
  simp [validatePersistenceText, validateText, h1, h2, h3, h4, h5]

/-- A result whose metadata the engine accepts. -/
theorem persistentResult_of_validateResult {result : Result} (h : validateResult result = .ok ()) :
    validatePersistentResult result = .ok () := by
  unfold validateResult at h
  obtain ⟨_, hsummary, h⟩ := bind_eq_ok.mp h
  obtain ⟨_, hcount, h⟩ := bind_eq_ok.mp h
  have hcount : ¬ maxReferences < result.references.length := by
    unfold validateResultCollectionSize at hcount
    split at hcount
    · cases hcount
    · next hle => exact hle
  refine bind_eq_ok.mpr ⟨(), validateText_weaken (mapError_eq_ok.mp hsummary) ?_,
    bind_eq_ok.mpr ⟨(), refuseIf_eq_ok.mpr hcount,
      validateReferences_weaken ?_ (mapError_eq_ok.mp h)⟩⟩
  · intro c hc
    simp [isControlOrSeparator, hc]
  · intro field value limit hv
    exact persistenceToken_of_policy hv

end Values

/-! ### Plans -/

section Plans

variable {e : Engine} {render : RawMessage → Rendered} {registered : Registration}
  {given request : Action.Types.Request} {data : PlanData} {inputHash fingerprint : GoString}
  {payload : RawMessage} {now : ℤ}

/-- What is known of a plan when it is sealed. -/
structure Draft (e : Engine) (now : ℤ) (inputHash : GoString) (payload : RawMessage)
    (data : PlanData) (fingerprint : GoString) : Prop where
  inputHash : matchDigest inputHash.runes = true
  payload : e.checks.validateJSONDocument payload = .ok
  impact : validateImpact data.impact = .ok ()
  snapshot : validateSnapshotHash data.snapshotHash = .ok ()
  fingerprint : validateDecisionFingerprint fingerprint = .ok ()
  createdAt : Persistable now
  expiresAt : Persistable (now + e.planTTL)

theorem checkPlanFacts_ok (h : checkPlanFacts data = .ok ()) :
    validateImpact data.impact = .ok () ∧ validateSnapshotHash data.snapshotHash = .ok () := by
  obtain ⟨_, himpact, h⟩ := bind_eq_ok.mp h
  exact ⟨mapError_eq_ok.mp himpact, mapError_eq_ok.mp (mapError_eq_ok.mp h)⟩

/-- The draft of an execution without a preview. -/
theorem draft_of_planned (he : Assembled e render)
    (hdata : checkPlanned e request registered data = .ok inputHash)
    (hpayload : canonicalHandlerJSON e data.payload "plan payload" = .ok payload)
    (hf : validateDecisionFingerprint fingerprint = .ok ())
    (hcreated : Persistable now) (hexpires : Persistable (now + e.planTTL)) :
    Draft e now inputHash payload data fingerprint := by
  unfold checkPlanned at hdata
  iterate 2 obtain ⟨_, -, hdata⟩ := bind_eq_ok.mp hdata
  obtain ⟨_, hfacts, hdata⟩ := bind_eq_ok.mp hdata
  obtain ⟨⟨canonical, hash⟩, hinput, hdata⟩ := bind_eq_ok.mp hdata
  obtain rfl : hash = inputHash := Except.ok.inj hdata
  obtain ⟨himpact, hsnapshot⟩ := checkPlanFacts_ok hfacts
  exact ⟨(canonicalInput_ok he hinput).2, canonicalHandlerJSON_ok he hpayload, himpact, hsnapshot,
    hf, hcreated, hexpires⟩

/-- The draft of a preview. -/
theorem draft_of_previewed (he : Assembled e render) {summary canonical : RawMessage}
    (hdata : checkPreviewed e registered data = .ok (payload, summary))
    (hinput : canonicalInput e request.input = .ok (canonical, inputHash))
    (hf : validateDecisionFingerprint fingerprint = .ok ())
    (hcreated : Persistable now) (hexpires : Persistable (now + e.planTTL)) :
    Draft e now inputHash payload data fingerprint := by
  unfold checkPreviewed at hdata
  iterate 2 obtain ⟨_, -, hdata⟩ := bind_eq_ok.mp hdata
  obtain ⟨_, hpayload, hdata⟩ := bind_eq_ok.mp hdata
  obtain ⟨_, -, hdata⟩ := bind_eq_ok.mp hdata
  obtain ⟨_, hfacts, hdata⟩ := bind_eq_ok.mp hdata
  obtain ⟨rfl, -⟩ := Prod.mk.inj (Except.ok.inj hdata)
  obtain ⟨himpact, hsnapshot⟩ := checkPlanFacts_ok hfacts
  exact ⟨(canonicalInput_ok he hinput).2, canonicalHandlerJSON_ok he hpayload, himpact, hsnapshot,
    hf, hcreated, hexpires⟩

/-- The parts of the envelope that a record keeps. -/
theorem envelope_ok (hv : validateRequestEnvelope request = .ok ()) :
    validIdentifier request.actionID = true ∧ validateActorID request.actor.id = .ok () ∧
      validateActorType request.actor.type = .ok () ∧
      (∀ field, validatePersistenceText field request.channel true maxChannelRunes = .ok ()) ∧
      (request.idempotencyKey ≠ .utf8 "" →
        validateIdempotencyKey request.idempotencyKey = .ok ()) := by
  simp only [validateRequestEnvelope, bind_eq_ok] at hv
  obtain ⟨_, -, _, haction, _, hchannel, _, hactor, _, hkey, -⟩ := hv
  unfold validateActor at hactor
  obtain ⟨_, hid, hactor⟩ := bind_eq_ok.mp hactor
  obtain ⟨_, htype, -⟩ := bind_eq_ok.mp hactor
  refine ⟨by simpa using refuseIf_eq_ok.mp haction, hid, htype, ?_, ?_⟩
  · intro field
    exact validateText_weaken hchannel fun _ hc => hc
  · intro hne
    rw [if_neg hne] at hkey
    exact hkey

/-- **A draft of the engine is a valid plan record** under every digest. -/
theorem validatePlanRecord_draft (he : Assembled e render) (hr : Bound e registered)
    (hen : Entered request) (hd : Draft e now inputHash payload data fingerprint)
    {hash : GoString} (hhash : matchDigest hash.runes = true) :
    validatePlanRecord e.checks
      { buildPlan e request registered data inputHash payload { nanos := now } with
        decisionFingerprint := fingerprint, hash := hash } = .ok () := by
  obtain ⟨hid, hactorID, hactorType, hchannel, -⟩ := envelope_ok hen.envelope
  have htime : ∀ name nanos, Persistable nanos →
      validatePersistentPlanTime name { nanos } = .ok () := by
    intro name nanos hn
    unfold validatePersistentPlanTime
    rw [if_neg (by rintro (h | h) <;> simp only at h <;> have := hn.1 <;> have := hn.2 <;> omega)]
    rfl
  have httl := he.planTTL
  unfold validatePlanRecord buildPlan
  refine bind_eq_ok.mpr ⟨(), if_pos hhash, bind_eq_ok.mpr ⟨(), refuseIf_eq_ok.mpr ?_,
    bind_eq_ok.mpr ⟨(), refuseIf_eq_ok.mpr ?_, bind_eq_ok.mpr ⟨(), refuseIf_eq_ok.mpr ?_,
    bind_eq_ok.mpr ⟨(), hactorID, bind_eq_ok.mpr ⟨(), hactorType, bind_eq_ok.mpr ⟨(), hchannel _,
    bind_eq_ok.mpr ⟨(), hen.scope, bind_eq_ok.mpr ⟨(), refuseIf_eq_ok.mpr ?_,
    bind_eq_ok.mpr ⟨(), refuseIf_eq_ok.mpr ?_, bind_eq_ok.mpr ⟨(),
      persistentImpact_of_validateImpact hd.impact, bind_eq_ok.mpr ⟨(), hd.snapshot,
    bind_eq_ok.mpr ⟨(), hd.fingerprint, bind_eq_ok.mpr ⟨(), htime _ _ hd.createdAt,
    bind_eq_ok.mpr ⟨(), htime _ _ hd.expiresAt,
      refuseIf_eq_ok.mpr ?_⟩⟩⟩⟩⟩⟩⟩⟩⟩⟩⟩⟩⟩⟩⟩
  · simp [hid]
  · simp [version_ok hr]
  · simp [contractHash_ok he hr]
  · simp [hd.inputHash]
  · simp [hd.payload]
  · simp only [not_le]
    omega

/-- The hash of a plan with a JSON payload and persistable times. -/
theorem hashPlan_ok (he : Assembled e render) {plan : Plan}
    (hpayload : e.checks.validateJSONDocument plan.payload = .ok)
    (hcreated : Persistable plan.createdAt.nanos) (hexpires : Persistable plan.expiresAt.nanos) :
    ∃ hash, hashPlan e plan = .ok hash ∧ matchDigest hash.runes = true := by
  obtain ⟨compacted, hcompact⟩ := Option.isSome_iff_exists.mp (he.compact _ hpayload)
  have hmarshal : ∀ nanos, Persistable nanos → marshalable nanos = true := by
    rintro nanos ⟨h1, h2⟩
    unfold minimumPersistentPlanTime at h1
    unfold maximumPersistentPlanTime at h2
    simp only [marshalable, Bool.and_eq_true, decide_eq_true_eq]
    omega
  refine ⟨.utf8 ("sha256:" ++ e.sha256 (planMaterial plan compacted)), ?_, he.digest _⟩
  unfold hashPlan
  rw [hcompact]
  simp [hmarshal _ hcreated, hmarshal _ hexpires]

/-- **Sealing never refuses a plan of the engine.** -/
theorem sealExecutionPlan_draft (he : Assembled e render) (hr : Bound e registered)
    (hen : Entered request) (hd : Draft e now inputHash payload data fingerprint) :
    ∃ plan, sealExecutionPlan e
        (buildPlan e request registered data inputHash payload { nanos := now }) fingerprint =
          .ok plan ∧
      validatePlanRecord e.checks plan = .ok () := by
  obtain ⟨hash, hhash, hdigest⟩ := @hashPlan_ok e render he
    { buildPlan e request registered data inputHash payload { nanos := now } with
      decisionFingerprint := fingerprint } hd.payload hd.createdAt hd.expiresAt
  have hrecord := validatePlanRecord_draft he hr hen hd hdigest
  refine ⟨_, ?_, hrecord⟩
  unfold sealExecutionPlan
  rw [if_neg (by simp [buildPlan])]
  simp only [hd.fingerprint, checked, Except.mapError, hhash, hrecord]

/-- **Nor does a preview refuse its plan**, and the plan can be executed. -/
theorem sealPreviewPlan_draft (he : Assembled e render) (hr : Bound e registered)
    (hen : Entered request) {canonical : RawMessage}
    (hinput : canonicalInput e request.input = .ok (canonical, inputHash))
    (hd : Draft e now inputHash payload data fingerprint) :
    ∃ plan, sealPreviewPlan e
        { buildPlan e request registered data inputHash payload { nanos := now } with
          decisionFingerprint := fingerprint } = .ok plan ∧
      validatePlanRecord e.checks plan = .ok () ∧
      checkLoaded e { request with planHash := plan.hash } registered plan = .ok () ∧
      ∀ later : Time, later.nanos < now + e.planTTL → checkCurrent later plan = .ok () := by
  obtain ⟨hash, hhash, hdigest⟩ := @hashPlan_ok e render he
    { buildPlan e request registered data inputHash payload { nanos := now } with
      decisionFingerprint := fingerprint } hd.payload hd.createdAt hd.expiresAt
  have hrecord := validatePlanRecord_draft he hr hen hd hdigest
  refine ⟨_, bind_eq_ok.mpr ⟨hash, hhash, bind_eq_ok.mpr ⟨(), ?_, rfl⟩⟩, hrecord, ?_, ?_⟩
  · rw [hrecord]
    rfl
  · -- the stored plan is the one that was sealed, so every check sees what it was built from
    have hsize : validateActionJSONSize payload "stored plan payload" = .ok () :=
      if_neg (by have := he.bounded payload hd.payload; omega)
    have hcount : validateImpactCollectionSize data.impact = .ok () := by
      have himpact := hd.impact
      unfold validateImpact at himpact
      split at himpact
      · cases himpact
      split at himpact
      · cases himpact
      · assumption
    unfold checkLoaded
    refine bind_eq_ok.mpr ⟨(), refuseIf_eq_ok.mpr ?_, bind_eq_ok.mpr ⟨(), refuseIf_eq_ok.mpr ?_,
      bind_eq_ok.mpr ⟨(), refuseIf_eq_ok.mpr ?_, bind_eq_ok.mpr ⟨(), refuseIf_eq_ok.mpr ?_,
      bind_eq_ok.mpr ⟨(canonical, inputHash), hinput, refuseIf_eq_ok.mpr ?_⟩⟩⟩⟩⟩
    · simp [buildPlan, isOk_of_ok hsize]
    · simp [buildPlan, isOk_of_ok hcount]
    · simp [isOk_of_ok hrecord]
    · push Not
      exact ⟨rfl, hhash⟩
    · simp [boundTo, buildPlan]
  · intro later hlt
    unfold checkCurrent
    refine bind_eq_ok.mpr ⟨(), refuseIf_eq_ok.mpr ?_, refuseIf_eq_ok.mpr ?_⟩
    · simpa [buildPlan] using hlt
    · simp [buildPlan, isOk_of_ok hd.impact]

end Plans

/-! ### Idempotency records -/

/-- A plan that `Execute` goes on with: sealed by itself, or stored by a preview. -/
inductive Planned (e : Engine) (request : Action.Types.Request) (registered : Registration) :
    Plan → Prop
  | inline {data : PlanData} {inputHash fallback : GoString} {payload : RawMessage} {now : ℤ}
      {decision normalized : Decision} {plan : Plan} (unplanned : request.planHash = .utf8 "")
      (checked : checkPlanned e request registered data = .ok inputHash)
      (canonical : canonicalHandlerJSON e data.payload "plan payload" = .ok payload)
      (normal : normalizeDecision decision registered.descriptor fallback = .ok normalized)
      (sealed : sealExecutionPlan e
        (buildPlan e request registered data inputHash payload { nanos := now })
        normalized.fingerprint = .ok plan) :
      Planned e request registered plan
  | loaded {plan : Plan} {now : Time} (checked : checkLoaded e request registered plan = .ok ())
      (current : checkCurrent now plan = .ok ()) : Planned e request registered plan

/-- What the replay of a committed record goes through: the copy, the checks on what is stored,
and, for a decision that still allows it, those on the result. -/
structure Replayable (e : Engine) (registered : Registration) (expected existing : IdempotencyRecord) :
    Prop where
  owned : ownStoredIdempotencyRecord existing = .ok existing
  stored : checkStored e expected existing = .ok ()
  replayed : ∀ decision : Decision, decision.fingerprint = existing.decisionFingerprint →
    enforceConstraints decision existing.impact = .ok () →
      checkReplay registered decision existing = .ok existing.result

section Records

variable {e : Engine} {render : RawMessage → Rendered} {registered : Registration}
  {given request : Action.Types.Request} {inputHash fallback : GoString} {plan : Plan}
  {decision normalized : Decision} {result : Result}

/-- Sealing keeps the impact. -/
theorem impact_of_sealed {draft : Plan} {fingerprint : GoString}
    (h : sealExecutionPlan e draft fingerprint = .ok plan) : plan.impact = draft.impact := by
  unfold sealExecutionPlan at h
  split at h
  · cases h
  split at h
  · cases h
  dsimp only at h
  split at h
  · cases h
  split at h
  · cases h
  · rw [← Except.ok.inj h]

/-- What a plan that is executed is known to meet. -/
theorem Planned.facts (h : Planned e request registered plan) :
    matchDigest plan.hash.runes = true ∧ validateImpact plan.impact = .ok () ∧
      (request.planHash ≠ .utf8 "" → plan.hash = request.planHash) := by
  cases h with
  | inline unplanned checked canonical normal sealed =>
    have hdigest := (validatePlanRecord_ok (sealExecutionPlan_ok sealed).1).1
    refine ⟨hdigest, ?_, fun hne => absurd unplanned hne⟩
    unfold checkPlanned at checked
    iterate 2 obtain ⟨_, -, checked⟩ := bind_eq_ok.mp checked
    obtain ⟨_, hfacts, -⟩ := bind_eq_ok.mp checked
    rw [impact_of_sealed sealed]
    exact (checkPlanFacts_ok hfacts).1
  | loaded checked current =>
    obtain ⟨hrecord, hhash, -⟩ := checkLoaded_ok checked
    refine ⟨(validatePlanRecord_ok hrecord).1, ?_, fun _ => hhash⟩
    unfold checkCurrent at current
    obtain ⟨_, -, himpact⟩ := bind_eq_ok.mp current
    exact ok_of_isOk (by simpa using refuseIf_eq_ok.mp himpact)

/-- What reservations and completions share, whatever the status and the result. -/
theorem validateIdempotencyExecution_own (he : Assembled e render) (hr : Bound e registered)
    (hen : Entered request) (hkey : request.idempotencyKey ≠ .utf8 "")
    {canonical : RawMessage} (hinput : canonicalInput e request.input = .ok (canonical, inputHash))
    (hhash : validatePlanHash plan.hash = .ok ())
    (himpact : validatePersistentImpact plan.impact = .ok ())
    (hf : validateDecisionFingerprint normalized.fingerprint = .ok ())
    (missing : String) (status : IdempotencyStatus) :
    validateIdempotencyExecution e.checks missing
      { reservationOf (requestRecord request registered inputHash) plan normalized with
        status := status, result := result } = .ok () := by
  obtain ⟨hid, hactorID, hactorType, hchannel, hk⟩ := envelope_ok hen.envelope
  have hne : plan.hash ≠ .utf8 "" := by
    intro h0
    rw [h0] at hhash
    exact absurd hhash (by decide)
  unfold validateIdempotencyExecution validateIdempotencyLookupRecord reservationOf requestRecord
  refine bind_eq_ok.mpr ⟨(), bind_eq_ok.mpr ⟨(), hen.scope, bind_eq_ok.mpr ⟨(), hactorID,
    bind_eq_ok.mpr ⟨(), hactorType, bind_eq_ok.mpr ⟨(), refuseIf_eq_ok.mpr ?_,
    bind_eq_ok.mpr ⟨(), refuseIf_eq_ok.mpr ?_, bind_eq_ok.mpr ⟨(), refuseIf_eq_ok.mpr ?_,
    bind_eq_ok.mpr ⟨(), hchannel _, bind_eq_ok.mpr ⟨(), hk hkey,
    bind_eq_ok.mpr ⟨(), refuseIf_eq_ok.mpr ?_, ?_⟩⟩⟩⟩⟩⟩⟩⟩⟩, bind_eq_ok.mpr ⟨(),
      refuseIf_eq_ok.mpr hne, bind_eq_ok.mpr ⟨(), himpact, hf⟩⟩⟩
  · simp [hid]
  · simp [version_ok hr]
  · simp [contractHash_ok he hr]
  · simp [(canonicalInput_ok he hinput).2]
  · rw [if_pos hne]
    exact hhash

/-- What an output that passed is known to meet. -/
theorem checkOutput_ok (hr : Bound e registered) (h : checkOutput registered result = .ok ()) :
    validateActionJSONSize result.data "result data" = .ok () ∧
      (registered.validateOutput result.data).verify = .ok () ∧ validateResult result = .ok () ∧
      e.checks.validateJSONDocument result.data = .ok := by
  unfold checkOutput at h
  obtain ⟨_, hsize, h⟩ := bind_eq_ok.mp h
  obtain ⟨_, -, h⟩ := bind_eq_ok.mp h
  obtain ⟨_, houtput, h⟩ := bind_eq_ok.mp h
  have houtput := mapError_eq_ok.mp houtput
  exact ⟨mapError_eq_ok.mp hsize, houtput, mapError_eq_ok.mp h, validateOutput_ok hr houtput⟩

/-- The records of an execution pass the checks of the stores. -/
theorem records_valid (he : Assembled e render) (hr : Bound e registered) (hen : Entered request)
    (hkey : request.idempotencyKey ≠ .utf8 "")
    {canonical : RawMessage} (hinput : canonicalInput e request.input = .ok (canonical, inputHash))
    (hhash : validatePlanHash plan.hash = .ok ())
    (himpact : validatePersistentImpact plan.impact = .ok ())
    (hf : validateDecisionFingerprint normalized.fingerprint = .ok ()) :
    validateIdempotencyReservationRecord e.checks
        (reservationOf (requestRecord request registered inputHash) plan normalized) = .ok () ∧
      ∀ result, checkOutput registered result = .ok () →
        validateIdempotencyCompletionRecord e.checks
          (completionOf (reservationOf (requestRecord request registered inputHash) plan normalized)
            result) = .ok () := by
  have hshared := fun result => @validateIdempotencyExecution_own e render registered request inputHash
    plan normalized result he hr hen hkey canonical hinput hhash himpact hf
  constructor
  · exact bind_eq_ok.mpr ⟨(), hshared {} "idempotency reservation requires a plan hash" .running,
      bind_eq_ok.mpr ⟨(), refuseIf_eq_ok.mpr (by simp [reservationOf, requestRecord]),
        refuseIf_eq_ok.mpr (by simp [reservationOf, requestRecord])⟩⟩
  · intro result hresult
    obtain ⟨-, -, hmeta, hjson⟩ := checkOutput_ok hr hresult
    exact bind_eq_ok.mpr ⟨(), hshared result "completed idempotency record requires a plan hash"
      .completed, bind_eq_ok.mpr ⟨(), refuseIf_eq_ok.mpr (by simp [completionOf]),
        bind_eq_ok.mpr ⟨(), refuseIf_eq_ok.mpr (by simp [completionOf, hjson]),
          persistentResult_of_validateResult hmeta⟩⟩⟩

/-- **A committed record can be replayed** by the request that made it. -/
theorem replayable_own (he : Assembled e render) (hr : Bound e registered) (hen : Entered request)
    (hkey : request.idempotencyKey ≠ .utf8 "")
    (hexecute : checkExecute e request registered = .ok inputHash)
    (hplan : Planned e request registered plan)
    (hd : normalizeDecision decision registered.descriptor fallback = .ok normalized)
    (hresult : checkOutput registered result = .ok ()) :
    Replayable e registered (requestRecord request registered inputHash)
      (completionOf (reservationOf (requestRecord request registered inputHash) plan normalized) result) := by
  obtain ⟨hdigest, himpact, hhash⟩ := hplan.facts
  obtain ⟨hsize, houtput, hmeta, hjson⟩ := checkOutput_ok hr hresult
  obtain ⟨canonical, hinput⟩ := checkExecute_ok hexecute
  have hvalid := (records_valid he hr hen hkey hinput (if_pos hdigest)
    (persistentImpact_of_validateImpact himpact) (fingerprint_ok hd)).2 result hresult
  constructor
  · -- the sizes were checked when the result was returned
    have hrows : validateImpactCollectionSize plan.impact = .ok () := by
      unfold validateImpact at himpact
      split at himpact
      · cases himpact
      split at himpact
      · cases himpact
      · assumption
    have hrefs : validateResultCollectionSize result = .ok () := by
      unfold validateResult at hmeta
      obtain ⟨_, -, hmeta⟩ := bind_eq_ok.mp hmeta
      obtain ⟨_, hcount, -⟩ := bind_eq_ok.mp hmeta
      exact hcount
    have hbytes : validateActionJSONSize result.data "stored idempotency result" = .ok () :=
      if_neg (by have := he.bounded _ hjson; omega)
    unfold ownStoredIdempotencyRecord
    simp only [completionOf, reservationOf, hbytes, hrows, hrefs]
  · have hstored : validateStoredIdempotencyRecord e.checks
        (completionOf (reservationOf (requestRecord request registered inputHash) plan normalized) result) = .ok () :=
      hvalid
    unfold checkStored
    refine bind_eq_ok.mpr ⟨(), ?_, bind_eq_ok.mpr ⟨(), refuseIf_eq_ok.mpr ?_,
      bind_eq_ok.mpr ⟨(), refuseIf_eq_ok.mpr ?_, bind_eq_ok.mpr ⟨(), refuseIf_eq_ok.mpr ?_,
      bind_eq_ok.mpr ⟨(), refuseIf_eq_ok.mpr ?_, bind_eq_ok.mpr ⟨(), refuseIf_eq_ok.mpr ?_,
      bind_eq_ok.mpr ⟨(), refuseIf_eq_ok.mpr ?_, ?_⟩⟩⟩⟩⟩⟩⟩
    · rw [hstored]
      rfl
    · simp [completionOf, reservationOf]
    · simp [completionOf, reservationOf]
    · simp [completionOf, reservationOf]
    · rintro ⟨hne, hdiff⟩
      exact hdiff (hhash hne)
    · simp [completionOf, reservationOf]
    · simp [completionOf]
    · simp only [completionOf, reservationOf, himpact]
      rfl
  · intro current hf hc
    unfold checkReplay
    refine bind_eq_ok.mpr ⟨(), hc, bind_eq_ok.mpr ⟨(), refuseIf_eq_ok.mpr (by simpa using hf),
      bind_eq_ok.mpr ⟨(), ?_, bind_eq_ok.mpr ⟨(), ?_, rfl⟩⟩⟩⟩
    · simp only [completionOf, houtput]
      rfl
    · simp only [completionOf, hmeta]
      rfl

/-- **The engine's own records pass the checks of the stores**: the plans of executions and of
previews are sealed and valid, those of previews can be executed while they last; the reservation
and the completion of an execution are valid, and a completed record can be replayed. -/
theorem own_records_persist (he : Assembled e render) (hr : Bound e registered)
    (hv : validated e given (some registered) = .ok request)
    (hd : normalizeDecision decision registered.descriptor fallback = .ok normalized) :
    (∀ data inputHash payload now, checkPlanned e request registered data = .ok inputHash →
      canonicalHandlerJSON e data.payload "plan payload" = .ok payload →
      Persistable now → Persistable (now + e.planTTL) →
        ∃ plan, sealExecutionPlan e
            (buildPlan e request registered data inputHash payload { nanos := now })
            normalized.fingerprint = .ok plan ∧
          validatePlanRecord e.checks plan = .ok ()) ∧
      (∀ data payload summary canonical inputHash now,
        checkPreviewed e registered data = .ok (payload, summary) →
        canonicalInput e request.input = .ok (canonical, inputHash) →
        Persistable now → Persistable (now + e.planTTL) →
          ∃ plan, sealPreviewPlan e
              { buildPlan e request registered data inputHash payload { nanos := now } with
                decisionFingerprint := normalized.fingerprint } = .ok plan ∧
            validatePlanRecord e.checks plan = .ok () ∧
            checkLoaded e { request with planHash := plan.hash } registered plan = .ok () ∧
            ∀ later : Time, later.nanos < now + e.planTTL → checkCurrent later plan = .ok ()) ∧
      ∀ inputHash plan, request.idempotencyKey ≠ .utf8 "" →
        checkExecute e request registered = .ok inputHash → Planned e request registered plan →
          validateIdempotencyReservationRecord e.checks
              (reservationOf (requestRecord request registered inputHash) plan normalized) = .ok () ∧
            ∀ result, checkOutput registered result = .ok () →
              validateIdempotencyCompletionRecord e.checks
                  (completionOf (reservationOf (requestRecord request registered inputHash) plan normalized)
                    result) = .ok () ∧
                Replayable e registered (requestRecord request registered inputHash)
                  (completionOf (reservationOf (requestRecord request registered inputHash) plan normalized)
                    result) := by
  have hen := (validated_ok_entered hv).2
  have hf := fingerprint_ok hd
  refine ⟨?_, ?_, ?_⟩
  · intro data inputHash payload now hdata hpayload hcreated hexpires
    exact sealExecutionPlan_draft he hr hen
      (draft_of_planned he hdata hpayload hf hcreated hexpires)
  · intro data payload summary canonical inputHash now hdata hinput hcreated hexpires
    exact sealPreviewPlan_draft he hr hen hinput
      (draft_of_previewed he hdata hinput hf hcreated hexpires)
  · intro inputHash plan hkey hexecute hplan
    obtain ⟨canonical, hinput⟩ := checkExecute_ok hexecute
    obtain ⟨hdigest, himpact, -⟩ := hplan.facts
    obtain ⟨hreserved, hcompleted⟩ := records_valid he hr hen hkey hinput (if_pos hdigest)
      (persistentImpact_of_validateImpact himpact) hf
    refine ⟨hreserved, fun result hresult => ⟨hcompleted result hresult, ?_⟩⟩
    exact replayable_own he hr hen hkey hexecute hplan hd hresult

/-! ### The records of a run -/

/-- What the idempotency store is called with passes its checks. -/
def Persists (checks : Checks) : Op → Prop
  | .reserve _ record => validateIdempotencyReservationRecord checks record = .ok ()
  | .abort _ record => validateIdempotencyReservationRecord checks record = .ok ()
  | .complete _ record => validateIdempotencyCompletionRecord checks record = .ok ()
  | _ => True

/-- The records of a job that is ready pass the checks of the stores. -/
theorem records_of_ready (he : Assembled e render) {h : History} {job : Job}
    (hready : Ready e given h job) (hr : Bound e job.registered)
    (hkey : job.request.idempotencyKey ≠ .utf8 "") :
    validateIdempotencyReservationRecord e.checks job.reservation = .ok () ∧
      ∀ result, checkOutput job.registered result = .ok () →
        validateIdempotencyCompletionRecord e.checks (job.completion result) = .ok () := by
  obtain ⟨id, hv⟩ := hready.accepted.passed
  obtain ⟨canonical, hash, hinput, hrecord⟩ := hready.accepted.recorded
  have hvalid := validPlan_of_ok hready.valid
  have h := @records_valid e render job.registered job.request hash job.plan
    { fingerprint := job.plan.decisionFingerprint } he hr (validated_ok_entered hv).2 hkey canonical
    hinput hvalid.hash hvalid.impact hvalid.fingerprint
  rw [← hrecord] at h
  exact h

/-- **In every run of `Execute` the idempotency store is only called with records that it takes.** -/
theorem persists_of_run (he : Assembled e render) {h : History} {out : Except Err Result}
    {hasContext : Bool} (hruns : (execute e hasContext given).Runs h out)
    (hr : ∀ registered, ⟨.acquire given.actionID, .found registered⟩ ∈ h → Bound e registered) :
    ∀ c ∈ h, Persists e.checks c.op := by
  intro c hc
  obtain ⟨before, after, rfl⟩ := List.append_of_mem hc
  have hordered := (@meets_execute e given hasContext).calls hruns.calls
  rw [List.nil_append] at hordered
  have hbound : ∀ {h₀ rest : History} {job : Job}, Ready e given h₀ job → before = h₀ ++ rest →
      Bound e job.registered := by
    rintro h₀ rest job hready rfl
    exact hr _ (List.mem_append_left _ (List.mem_append_left _ hready.accepted.acquired))
  obtain ⟨op, reply⟩ := c
  cases op with
  | reserve ctx record =>
    obtain ⟨-, h₀, serial, job, i, j, hready, -, hbefore, rfl, hkey⟩ := hordered
    exact (records_of_ready he hready (hbound hready hbefore) hkey).1
  | abort ctx record =>
    obtain ⟨-, h₀, serial, job, i, j, rest, hready, hbefore, rfl, hkey⟩ := hordered
    exact (records_of_ready he hready (hbound hready hbefore) hkey).1
  | complete ctx record =>
    obtain ⟨-, h₀, serial, job, i, j, result, hready, hbefore, rfl, hkey, hout⟩ := hordered
    exact (records_of_ready he hready (hbound hready hbefore) hkey).2 result hout
  | _ => trivial

end Records

/-- The sample engine with the reader of documents. -/
def boundedEngine : Engine :=
  let checks : Checks :=
    { validateJSONDocument := validateJSONDocument fun _ => .message "invalid JSON"
      semverIsValid := fun _ => true }
  { sampleEngine with checks := checks, canonical := canonicalOf checks .text }

/-- The sample action, with an output that every document fits. -/
def boundedRegistration : Registration :=
  { sampleRegistration with
    validateOutput := validateWith boundedEngine.checks fun _ => .valid }

theorem assembled_bounded : Assembled boundedEngine .text where
  canonical := rfl
  digest _ := by
    have hsample : matchDigest ("sha256:" ++ sampleDigest).toList = true := by decide
    exact hsample
  bounded _ h := byteLen_of_document h
  compact _ _ := rfl
  planTTL := by decide

theorem bound_sample : Bound boundedEngine boundedRegistration where
  compiled := by decide
  contract := ⟨[], rfl⟩
  output := ⟨fun _ => .valid, rfl⟩

/-- What the sample handler plans. -/
def samplePlanData : PlanData :=
  { payload := .utf8 "1", summary := .utf8 "1", impact := { rows := 1 }, snapshotHash := .utf8 "" }

/-- The sample decision, normalized. -/
def sampleDecision : Decision :=
  { allowed := true, requiredPermission := .utf8 "sales.post", fingerprint := .utf8 "f" }

/-- The sample request is planned, executed and can be replayed. -/
theorem own_records_persist_sample :
    ∃ plan, sealExecutionPlan boundedEngine
        (buildPlan boundedEngine sampleRequest boundedRegistration samplePlanData
          (.utf8 ("sha256:" ++ sampleDigest)) (.utf8 "1") { nanos := 0 })
        sampleDecision.fingerprint = .ok plan ∧
      validatePlanRecord boundedEngine.checks plan = .ok () ∧
      Replayable boundedEngine boundedRegistration
        (requestRecord sampleRequest boundedRegistration (.utf8 ("sha256:" ++ sampleDigest)))
        (completionOf (reservationOf (requestRecord sampleRequest boundedRegistration
          (.utf8 ("sha256:" ++ sampleDigest))) plan sampleDecision) sampleResult) := by
  have hv : validated boundedEngine sampleRequest (some boundedRegistration) =
      .ok sampleRequest := ok_of_toOption (by decide +kernel)
  have hd : normalizeDecision { allowed := true, fingerprint := .utf8 "f" }
      boundedRegistration.descriptor (.utf8 "") = .ok sampleDecision := by decide
  have hdata : checkPlanned boundedEngine sampleRequest boundedRegistration samplePlanData =
      .ok (.utf8 ("sha256:" ++ sampleDigest)) := by decide +kernel
  have hpayload : canonicalHandlerJSON boundedEngine samplePlanData.payload "plan payload" =
      .ok (.utf8 "1") := by decide +kernel
  obtain ⟨hplans, -, hrecords⟩ := own_records_persist assembled_bounded bound_sample hv hd
  obtain ⟨plan, hsealed, hvalid⟩ := hplans samplePlanData _ _ 0 hdata hpayload
    ⟨by decide, by decide⟩ ⟨by decide, by decide⟩
  have hplanned : Planned boundedEngine sampleRequest boundedRegistration plan :=
    .inline rfl hdata hpayload hd hsealed
  have hexecute : checkExecute boundedEngine sampleRequest boundedRegistration =
      .ok (.utf8 ("sha256:" ++ sampleDigest)) := ok_of_toOption (by decide +kernel)
  obtain ⟨-, hcompleted⟩ := hrecords _ plan (by decide) hexecute hplanned
  exact ⟨plan, hsealed, hvalid, (hcompleted sampleResult (by decide +kernel)).2⟩

end Modary.Runtime.OwnRecords
