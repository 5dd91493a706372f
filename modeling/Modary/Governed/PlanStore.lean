import Modary.Governed.JsonbTexts
import Modary.Runtime.OwnRecords

/-! # The plan store

`Save`, `Get` and `DeleteExpired` of the plan store of `governedpostgres`, over the rows of
`modary_action_plan`. A plan crosses the table as texts, bytes, a `jsonb` array and two spellings of
its expiry; what is read back is the plan that was saved. -/

namespace Modary.Governed.PlanStore

open Modary.Lib.GoText Modary.Action.Authz
open Modary.Action.Types Modary.Action.Persistence Modary.Audit.Events Modary.Governed.Columns
open Modary.Governed.JsonbTexts (sampleChecks documents_sample)

/-! ### The table -/

/-- A row of `modary_action_plan`. -/
structure Row where
  planHash : String
  actionID : String
  actionVersion : String
  contractHash : String
  actorID : String
  actorType : String
  channel : String
  scopeKind : String
  scopeID : String
  inputHash : String
  payload : RawMessage
  impactRows : ℤ
  impactResources : List String
  snapshotHash : String
  fingerprint : String
  createdAt : String
  expiresAt : String
  expiresAtUnixNano : ℤ
  deriving DecidableEq, Repr

/-- The checks of the table. -/
def Row.checks (row : Row) : Bool :=
  between row.planHash 71 71 && between row.actionID 1 127 && between row.actionVersion 1 128 &&
    between row.contractHash 71 71 && between row.actorID 1 256 && between row.actorType 1 64 &&
    between row.channel 1 64 && between row.scopeKind 1 64 && between row.scopeID 1 256 &&
    between row.inputHash 71 71 && byteLen row.payload ≤ 1048576 && 0 ≤ row.impactRows &&
    shortArray (row.impactResources.map jsonbString) &&
    (row.snapshotHash.length == 0 || row.snapshotHash.length == 71) &&
    between row.fingerprint 1 256 && between row.createdAt 20 30 && between row.expiresAt 20 30

/-- `INSERT … ON CONFLICT(plan_hash) DO NOTHING`: the rows, and how many were written. -/
def insert (row : Row) (table : List Row) : Except String (List Row × ℕ) :=
  if row.checks = false then .error "new row violates check constraint"
  else if row.planHash ∈ table.map fun other => other.planHash then .ok (table, 0)
  else .ok (row :: table, 1)

/-! ### Reading a row -/

/-- `populateProjectedPlan`, with the payload. -/
def populate (row : Row) : Except String Plan := do
  let planHash ← requireProjectedText (projectText 71 row.planHash) "Action plan hash"
  let actionID ← requireProjectedText (projectText 127 row.actionID) "Action plan action id"
  let actionVersion ←
    requireProjectedText (projectText 128 row.actionVersion) "Action plan action version"
  let contractHash ←
    requireProjectedText (projectText 71 row.contractHash) "Action plan contract hash"
  let actorID ← requireProjectedText (projectText (256 * 4) row.actorID) "Action plan actor id"
  let actorType ←
    requireProjectedText (projectText (64 * 4) row.actorType) "Action plan actor type"
  let channel ← requireProjectedText (projectText (64 * 4) row.channel) "Action plan channel"
  let scopeKind ←
    requireProjectedText (projectText (64 * 4) row.scopeKind) "Action plan scope kind"
  let scopeID ← requireProjectedText (projectText (256 * 4) row.scopeID) "Action plan scope id"
  let inputHash ← requireProjectedText (projectText 71 row.inputHash) "Action plan input hash"
  let snapshotHash ←
    requireProjectedText (projectText 71 row.snapshotHash) "Action plan snapshot hash"
  let fingerprint ←
    requireProjectedText (projectText (256 * 4) row.fingerprint) "Action plan decision fingerprint"
  let _ ← requireProjectedText (projectText 30 row.createdAt) "Action plan creation time"
  let _ ← requireProjectedText (projectText 30 row.expiresAt) "Action plan expiry time"
  return {
    hash := .utf8 planHash, actionID := .utf8 actionID, actionVersion := .utf8 actionVersion
    contractHash := .utf8 contractHash, actorID := .utf8 actorID, actorType := .utf8 actorType
    channel := .utf8 channel, scope := ⟨.utf8 scopeKind, .utf8 scopeID⟩
    inputHash := .utf8 inputHash, payload := row.payload
    impact := { rows := row.impactRows }
    snapshotHash := .utf8 snapshotHash, decisionFingerprint := .utf8 fingerprint
    createdAt := { nanos := 0 }, expiresAt := { nanos := 0 } }

/-- `normalizePlan`. -/
def normalizePlan (checks : Checks) (plan : Plan) : Except String Plan := do
  refuseIf (maxJSONDocumentBytes < byteLen plan.payload) "plan payload exceeds 1048576 bytes"
  validatePlanRecord checks plan
  return plan

/-- The part of `Get` that looks at the row. -/
def loadRow (checks : Checks) (row : Row) : Except String Plan := do
  let resources := jsonbArray (row.impactResources.map jsonbString)
  refuseIf (maxJSONDocumentBytes < byteLen row.payload)
    "stored Action plan payload exceeds the JSON resource limit"
  refuseIf (maxJSONDocumentBytes < byteLength resources)
    "stored Action plan impact resources exceed the JSON resource limit"
  let plan ← populate row
  (decodeStrictJSON checks resources).mapError ("decode stored plan impact resources: " ++ ·)
  let createdAt ← parseStoredTime "plan creation time" row.createdAt
  let expiresAt ← parseStoredTime "plan expiry time" row.expiresAt
  refuseIf (expiresAt ≠ row.expiresAtUnixNano) "stored plan expiry representations disagree"
  let plan :=
    { plan with
      impact := { plan.impact with resources := row.impactResources.map .utf8 }
      createdAt := { nanos := createdAt }, expiresAt := { nanos := expiresAt } }
  (normalizePlan checks plan).mapError ("stored Action plan is invalid: " ++ ·)

/-- What `Get` fails with: `ErrPlanNotFound`, or any other text. -/
inductive GetError
  | notFound
  | failed (text : String)
  deriving DecidableEq, Repr

/-- `Get`. -/
def get (checks : Checks) (hash : GoString) (table : List Row) : Except GetError Plan := do
  (validatePlanHash hash).mapError .failed
  match table.find? fun row => hash == .utf8 row.planHash with
  | none => .error .notFound
  | some row =>
    let plan ← (loadRow checks row).mapError .failed
    refuseIf (plan.hash ≠ hash) (.failed "stored Action plan key does not match requested hash")
    return plan

/-! ### Writing -/

/-- The parameters of a plan. -/
def Row.of (plan : Plan) : Option Row := do
  return {
    planHash := ← textParam plan.hash
    actionID := ← textParam plan.actionID
    actionVersion := ← textParam plan.actionVersion
    contractHash := ← textParam plan.contractHash
    actorID := ← textParam plan.actorID
    actorType := ← textParam plan.actorType
    channel := ← textParam plan.channel
    scopeKind := ← textParam plan.scope.kind
    scopeID := ← textParam plan.scope.id
    inputHash := ← textParam plan.inputHash
    payload := plan.payload
    impactRows := plan.impact.rows
    impactResources := ← plan.impact.resources.mapM textParam
    snapshotHash := ← textParam plan.snapshotHash
    fingerprint := ← textParam plan.decisionFingerprint
    createdAt := storedTime plan.createdAt.nanos
    expiresAt := storedTime plan.expiresAt.nanos
    expiresAtUnixNano := plan.expiresAt.nanos }

/-- `Save`. -/
def save (checks : Checks) (supplied : Plan) (table : List Row) : Except String (List Row) := do
  let plan ← normalizePlan checks supplied
  match Row.of plan with
  | none => .error "save Action plan: invalid byte sequence for encoding \"UTF8\""
  | some row =>
    let (table, rows) ← (insert row table).mapError ("save Action plan: " ++ ·)
    if rows = 1 then return table
    else
      match get checks plan.hash table with
      | .error .notFound => .error "plan was not found"
      | .error (.failed text) => .error text
      | .ok existing =>
        refuseIf (existing ≠ plan) "plan hash is already bound to different provenance"
        return table

/-- `DeleteExpired`: the rows that stay, and how many were deleted. -/
def deleteExpired (before : Time) (table : List Row) : Except String (List Row × ℕ) :=
  if before.nanos < minimumPersistentPlanTime ∨ maximumPersistentPlanTime ≤ before.nanos then
    .error "plan cleanup boundary is outside the durable PostgreSQL timestamp range"
  else
    let stays := table.filter fun row => before.nanos < row.expiresAtUnixNano
    .ok (stays, table.length - stays.length)

/-! ### Runs -/

/-- A call of the store. -/
inductive Call
  | save (plan : Plan)
  | get (hash : GoString)
  | deleteExpired (before : Time)
  deriving DecidableEq, Repr

/-- The table after a call; one that fails leaves it as it is. -/
def step (checks : Checks) (table : List Row) : Call → List Row
  | .save plan =>
    match save checks plan table with
    | .ok table => table
    | .error _ => table
  | .get _ => table
  | .deleteExpired before =>
    match deleteExpired before table with
    | .ok (table, _) => table
    | .error _ => table

/-- The table after a sequence of calls on an empty one. -/
def after (checks : Checks) (calls : List Call) : List Row := calls.foldl (step checks) []

/-! ### A plan and its row -/

/-- The row of a plan that was validated. -/
structure Kept (plan : Plan) (row : Row) : Prop where
  planHash : Fits plan.hash 71 71 71 row.planHash
  actionID : Fits plan.actionID 1 127 127 row.actionID
  actionVersion : Fits plan.actionVersion 1 128 128 row.actionVersion
  contractHash : Fits plan.contractHash 71 71 71 row.contractHash
  actorID : Fits plan.actorID 1 256 (4 * 256) row.actorID
  actorType : Fits plan.actorType 1 64 (4 * 64) row.actorType
  channel : Fits plan.channel 1 64 (4 * 64) row.channel
  scopeKind : Fits plan.scope.kind 1 64 (64 * 4) row.scopeKind
  scopeID : Fits plan.scope.id 1 256 (256 * 4) row.scopeID
  inputHash : Fits plan.inputHash 71 71 71 row.inputHash
  payload : row.payload = plan.payload ∧ byteLen plan.payload ≤ maxJSONDocumentBytes
  impact : plan.impact = ⟨row.impactRows, row.impactResources.map .utf8⟩
  rows : 0 ≤ row.impactRows
  resources : shortArray (row.impactResources.map jsonbString) = true
  snapshotHash : Fits plan.snapshotHash 0 71 71 row.snapshotHash
  snapshotLength : row.snapshotHash.length = 0 ∨ row.snapshotHash.length = 71
  fingerprint : Fits plan.decisionFingerprint 1 256 (4 * 256) row.fingerprint
  createdAt : plan.createdAt.utc = true ∧ Persistable plan.createdAt.nanos ∧
    row.createdAt = storedTime plan.createdAt.nanos
  expiresAt : plan.expiresAt.utc = true ∧ Persistable plan.expiresAt.nanos ∧
    row.expiresAt = storedTime plan.expiresAt.nanos
  expiry : row.expiresAtUnixNano = plan.expiresAt.nanos

section Rows

variable {checks : Checks} {plan : Plan} {row : Row}

theorem fits_of_snapshotHash {given : GoString} (h : validateSnapshotHash given = .ok ()) :
    ∃ s, Fits given 0 71 71 s ∧ (s.length = 0 ∨ s.length = 71) := by
  unfold validateSnapshotHash at h
  split at h
  · cases h
  next hcond =>
  push Not at hcond
  by_cases hempty : given = .utf8 ""
  · subst hempty
    exact ⟨"", ⟨rfl, rfl, le_rfl, by decide, by decide⟩, Or.inl rfl⟩
  · obtain ⟨s, hs⟩ := fits_of_digest (by simpa using hcond hempty)
    have hlen : s.length = 71 := le_antisymm hs.below hs.above
    exact ⟨s, { hs with above := Nat.zero_le _ }, Or.inr hlen⟩

/-- A plan that was validated keeps its columns. -/
theorem kept_of_plan (hd : Documents checks) (h : validatePlanRecord checks plan = .ok ()) :
    ∃ row, Row.of plan = some row ∧ Kept plan row := by
  have hv := validPlan_of_ok h
  obtain ⟨_, htoken, -⟩ := bind_eq_ok.mp hv.fingerprint
  have himpact := orderlyImpact_of_persistent hv.impact
  have hcreated := validatePersistentPlanTime_ok hv.createdAt
  have hexpires := validatePersistentPlanTime_ok hv.expiresAt
  obtain ⟨hash, h1⟩ := fits_of_digest (digest_of_validatePlanHash hv.hash)
  obtain ⟨actionID, h2⟩ := fits_of_validIdentifier hv.actionID
  obtain ⟨actionVersion, h3⟩ := fits_of_version hd.versions (by rw [hv.actionVersion]; rfl)
  obtain ⟨contractHash, h4⟩ := fits_of_digest hv.contractHash
  obtain ⟨actorID, h5⟩ := fits_of_required (clean_required hv.actorID fun _ hc => hc)
  obtain ⟨actorType, h6⟩ := fits_of_required (clean_required hv.actorType fun _ hc => hc)
  obtain ⟨channel, h7⟩ := fits_of_required (clean_required hv.channel fun _ hc => hc)
  obtain ⟨⟨scopeKind, h8⟩, scopeID, h9⟩ := fits_of_scope hv.scope
  obtain ⟨inputHash, h10⟩ := fits_of_digest hv.inputHash
  have hbytes := hd.bounded _ hv.payload
  obtain ⟨snapshotHash, h11, h12⟩ := fits_of_snapshotHash hv.snapshotHash
  obtain ⟨fingerprint, h13⟩ := fits_of_required (clean_required htoken fun _ hc => hc)
  obtain ⟨resources, hm, hr, hshort⟩ := columns_of_impact himpact
  refine ⟨⟨hash, actionID, actionVersion, contractHash, actorID, actorType, channel, scopeKind,
    scopeID, inputHash, plan.payload, plan.impact.rows, resources, snapshotHash, fingerprint,
    storedTime plan.createdAt.nanos, storedTime plan.expiresAt.nanos, plan.expiresAt.nanos⟩, ?_,
    ⟨h1, h2, h3, h4, h5, h6, h7, h8, h9, h10, ⟨rfl, hbytes⟩, ?_, himpact.rows,
      hshort, h11, h12, h13, ⟨hcreated.1, hcreated.2, rfl⟩,
      ⟨hexpires.1, hexpires.2, rfl⟩, rfl⟩⟩
  · unfold Row.of
    rw [h1.given, h2.given, h3.given, h4.given, h5.given, h6.given, h7.given, h8.given, h9.given, h10.given, hm, h11.given, h13.given]
    rfl
  · rw [← hr]

/-- The row of a plan meets the checks of the table. -/
theorem Kept.meets (h : Kept plan row) : row.checks = true := by
  have hpayload : byteLen row.payload ≤ 1048576 := by
    rw [h.payload.1]
    exact h.payload.2
  have hsnapshot : (row.snapshotHash.length == 0 || row.snapshotHash.length == 71) = true := by
    rcases h.snapshotLength with h0 | h0 <;> simp [h0]
  have hcreated : between row.createdAt 20 30 = true := by
    rw [h.createdAt.2.2]
    exact between_storedTime _
  have hexpires : between row.expiresAt 20 30 = true := by
    rw [h.expiresAt.2.2]
    exact between_storedTime _
  unfold Row.checks
  simp only [Bool.and_eq_true, decide_eq_true_eq]
  exact ⟨⟨⟨⟨⟨⟨⟨⟨⟨⟨⟨⟨⟨⟨⟨⟨between_of_fits h.planHash, between_of_fits h.actionID⟩,
    between_of_fits h.actionVersion⟩, between_of_fits h.contractHash⟩, between_of_fits h.actorID⟩,
    between_of_fits h.actorType⟩, between_of_fits h.channel⟩, between_of_fits h.scopeKind⟩,
    between_of_fits h.scopeID⟩, between_of_fits h.inputHash⟩, hpayload⟩, h.rows⟩, h.resources⟩,
    hsnapshot⟩, between_of_fits h.fingerprint⟩, hcreated⟩, hexpires⟩

/-- The plan of a row, at its instants. -/
def planOf (row : Row) (createdAt expiresAt : ℤ) : Plan where
  hash := .utf8 row.planHash
  actionID := .utf8 row.actionID
  actionVersion := .utf8 row.actionVersion
  contractHash := .utf8 row.contractHash
  actorID := .utf8 row.actorID
  actorType := .utf8 row.actorType
  channel := .utf8 row.channel
  scope := ⟨.utf8 row.scopeKind, .utf8 row.scopeID⟩
  inputHash := .utf8 row.inputHash
  payload := row.payload
  impact := ⟨row.impactRows, row.impactResources.map .utf8⟩
  snapshotHash := .utf8 row.snapshotHash
  decisionFingerprint := .utf8 row.fingerprint
  createdAt := { nanos := createdAt }
  expiresAt := { nanos := expiresAt }

/-- A plan can be told from its row. -/
theorem Kept.eq_planOf (h : Kept plan row) :
    plan = planOf row plan.createdAt.nanos plan.expiresAt.nanos := by
  obtain ⟨hash, actionID, actionVersion, contractHash, actorID, actorType, channel, ⟨kind, id⟩,
    inputHash, payload, impact, snapshotHash, fingerprint, ⟨created, cutc⟩, ⟨expires, eutc⟩⟩ := plan
  have h1 : hash = _ := h.planHash.text
  have h2 : actionID = _ := h.actionID.text
  have h3 : actionVersion = _ := h.actionVersion.text
  have h4 : contractHash = _ := h.contractHash.text
  have h5 : actorID = _ := h.actorID.text
  have h6 : actorType = _ := h.actorType.text
  have h7 : channel = _ := h.channel.text
  have h8 : kind = _ := h.scopeKind.text
  have h9 : id = _ := h.scopeID.text
  have h10 : inputHash = _ := h.inputHash.text
  have h11 : row.payload = payload := h.payload.1
  have h12 : impact = _ := h.impact
  have h13 : snapshotHash = _ := h.snapshotHash.text
  have h14 : fingerprint = _ := h.fingerprint.text
  have h15 : cutc = true := h.createdAt.1
  have h16 : eutc = true := h.expiresAt.1
  subst h1 h2 h3 h4 h5 h6 h7 h8 h9 h10 h11 h12 h13 h14 h15 h16
  rfl

/-- The projection of the row of a plan. -/
theorem populate_kept (h : Kept plan row) :
    populate row = .ok { planOf row 0 0 with impact := { rows := row.impactRows } } := by
  have htime : ∀ {text : String} {nanos : ℤ} (field : String), text = storedTime nanos →
      requireProjectedText (projectText 30 text) field = .ok text := by
    rintro text nanos field rfl
    rw [projectText, if_pos (octetLength_storedTime nanos)]
    rfl
  unfold populate
  exact bind_eq_ok.mpr ⟨_, h.planHash.projected _, bind_eq_ok.mpr ⟨_, h.actionID.projected _,
    bind_eq_ok.mpr ⟨_, h.actionVersion.projected _, bind_eq_ok.mpr ⟨_, h.contractHash.projected _,
    bind_eq_ok.mpr ⟨_, h.actorID.projected _, bind_eq_ok.mpr ⟨_, h.actorType.projected _,
    bind_eq_ok.mpr ⟨_, h.channel.projected _, bind_eq_ok.mpr ⟨_, h.scopeKind.projected _,
    bind_eq_ok.mpr ⟨_, h.scopeID.projected _, bind_eq_ok.mpr ⟨_, h.inputHash.projected _,
    bind_eq_ok.mpr ⟨_, h.snapshotHash.projected _, bind_eq_ok.mpr ⟨_, h.fingerprint.projected _,
    bind_eq_ok.mpr ⟨_, htime _ h.createdAt.2.2, bind_eq_ok.mpr ⟨_, htime _ h.expiresAt.2.2,
      rfl⟩⟩⟩⟩⟩⟩⟩⟩⟩⟩⟩⟩⟩⟩

/-- **A row is read back as the plan that was saved.** -/
theorem loadRow_kept (hd : Documents checks) (hv : validatePlanRecord checks plan = .ok ())
    (h : Kept plan row) : loadRow checks row = .ok plan := by
  have hpayload : ¬ maxJSONDocumentBytes < byteLen row.payload := by
    rw [h.payload.1]
    exact not_lt.mpr h.payload.2
  have hresources : ¬ maxJSONDocumentBytes <
      byteLength (jsonbArray (row.impactResources.map jsonbString)) := by
    have hshort := h.resources
    simp only [shortArray, Bool.and_eq_true, decide_eq_true_eq] at hshort
    exact not_lt.mpr hshort.2
  have hplan := h.eq_planOf
  unfold loadRow
  refine bind_eq_ok.mpr ⟨(), refuseIf_eq_ok.mpr hpayload, bind_eq_ok.mpr ⟨(),
    refuseIf_eq_ok.mpr hresources, bind_eq_ok.mpr ⟨_, populate_kept h, bind_eq_ok.mpr ⟨(), ?_,
    bind_eq_ok.mpr ⟨plan.createdAt.nanos, ?_, bind_eq_ok.mpr ⟨plan.expiresAt.nanos, ?_,
    bind_eq_ok.mpr ⟨(), ?_, ?_⟩⟩⟩⟩⟩⟩⟩
  · exact mapError_eq_ok.mpr (refuseIf_eq_ok.mpr (not_not.mpr (hd.strings _ h.resources)))
  · rw [h.createdAt.2.2]
    exact parseStoredTime_storedTime h.createdAt.2.1 _
  · rw [h.expiresAt.2.2]
    exact parseStoredTime_storedTime h.expiresAt.2.1 _
  · exact refuseIf_eq_ok.mpr (not_not.mpr h.expiry.symm)
  · have hnormal : normalizePlan checks (planOf row plan.createdAt.nanos plan.expiresAt.nanos) =
        .ok plan := by
      rw [← hplan]
      refine bind_eq_ok.mpr ⟨(), refuseIf_eq_ok.mpr (not_lt.mpr h.payload.2),
        bind_eq_ok.mpr ⟨(), hv, rfl⟩⟩
    exact mapError_eq_ok.mpr hnormal

end Rows

/-! ### What a run keeps -/

/-- Every row is that of a plan that was validated, and no hash is stored twice. -/
structure Held (checks : Checks) (table : List Row) : Prop where
  plans : ∀ row ∈ table, ∃ plan, validatePlanRecord checks plan = .ok () ∧
    Row.of plan = some row ∧ Kept plan row
  distinct : (table.map fun row => row.planHash).Nodup

/-- A plan is stored when its row is. -/
def Stored (plan : Plan) (table : List Row) : Prop := ∃ row ∈ table, Row.of plan = some row

section Runs

variable {checks : Checks} {plan : Plan} {table : List Row}

theorem find_of_mem {row : Row} (hh : Held checks table) (hm : row ∈ table) :
    table.find? (fun other => GoString.utf8 row.planHash == .utf8 other.planHash) = some row := by
  obtain ⟨-, hdistinct⟩ := hh
  induction table with
  | nil => cases hm
  | cons first table ih =>
    obtain ⟨hnew, hrest⟩ := List.nodup_cons.mp hdistinct
    rcases List.mem_cons.mp hm with rfl | hm
    · rw [List.find?_cons_of_pos (by simp)]
    · have hne : row.planHash ≠ first.planHash := by
        intro heq
        exact hnew (List.mem_map.mpr ⟨row, hm, heq⟩)
      rw [List.find?_cons_of_neg (by simpa using hne)]
      exact ih hm hrest

/-- **A stored plan is what `Get` returns.** -/
theorem get_stored (hd : Documents checks) (hh : Held checks table)
    (hv : validatePlanRecord checks plan = .ok ()) (hs : Stored plan table) :
    get checks plan.hash table = .ok plan := by
  obtain ⟨row, hm, hrow⟩ := hs
  obtain ⟨row', hrow', hkept⟩ := kept_of_plan hd hv
  obtain rfl : row' = row := Option.some.inj (hrow'.symm.trans hrow)
  have hhash := (validPlan_of_ok hv).hash
  have hfind := find_of_mem hh hm
  rw [← hkept.planHash.text] at hfind
  unfold get
  refine bind_eq_ok.mpr ⟨(), mapError_eq_ok.mpr hhash, ?_⟩
  rw [hfind]
  exact bind_eq_ok.mpr ⟨plan, mapError_eq_ok.mpr (loadRow_kept hd hv hkept),
    bind_eq_ok.mpr ⟨(), refuseIf_eq_ok.mpr (not_not.mpr rfl), rfl⟩⟩

/-- The plan of a stored row. -/
theorem Held.loads (hd : Documents checks) (hh : Held checks table) {row : Row} (hm : row ∈ table)
    {loaded : Plan} (hl : loadRow checks row = .ok loaded) : Row.of loaded = some row := by
  obtain ⟨plan, hv, hrow, hkept⟩ := hh.plans row hm
  obtain rfl : plan = loaded := Except.ok.inj ((loadRow_kept hd hv hkept).symm.trans hl)
  exact hrow

/-- What `Get` returns is the plan of the row it found. -/
theorem stored_of_get (hd : Documents checks) (hh : Held checks table) {hash : GoString}
    (h : get checks hash table = .ok plan) : Stored plan table := by
  unfold get at h
  obtain ⟨_, -, h⟩ := bind_eq_ok.mp h
  split at h
  · cases h
  next found hfound =>
  obtain ⟨loaded, hloaded, h⟩ := bind_eq_ok.mp h
  obtain ⟨_, -, h⟩ := bind_eq_ok.mp h
  obtain rfl : loaded = plan := Except.ok.inj h
  have hm := List.mem_of_find?_eq_some hfound
  exact ⟨found, hm, hh.loads hd hm (mapError_eq_ok.mp hloaded)⟩

/-- What a call of `Save` that succeeds has done. -/
theorem save_cases (hd : Documents checks) (hh : Held checks table) {table' : List Row}
    (h : save checks plan table = .ok table') :
    validatePlanRecord checks plan = .ok () ∧
      ((∃ row, Row.of plan = some row ∧ Kept plan row ∧
          row.planHash ∉ table.map (fun other => other.planHash) ∧ table' = row :: table) ∨
        (table' = table ∧ Stored plan table)) := by
  obtain ⟨normal, hnormal, h⟩ := bind_eq_ok.mp h
  obtain ⟨_, -, hnormal⟩ := bind_eq_ok.mp hnormal
  obtain ⟨_, hv, hnormal⟩ := bind_eq_ok.mp hnormal
  obtain rfl : plan = normal := Except.ok.inj hnormal
  obtain ⟨row, hrow, hkept⟩ := kept_of_plan hd hv
  refine ⟨hv, ?_⟩
  rw [hrow] at h
  obtain ⟨⟨written, rows⟩, hinsert, h⟩ := bind_eq_ok.mp h
  have hinsert := mapError_eq_ok.mp hinsert
  unfold insert at hinsert
  rw [if_neg (by simp [hkept.meets])] at hinsert
  by_cases hconflict : row.planHash ∈ table.map fun other => other.planHash
  · rw [if_pos hconflict] at hinsert
    obtain ⟨rfl, rfl⟩ := Prod.mk.inj (Except.ok.inj hinsert)
    right
    dsimp only at h
    rw [if_neg (by decide)] at h
    cases hget : get checks plan.hash table with
    | error err =>
      rw [hget] at h
      cases err with
      | notFound => cases h
      | failed text => cases h
    | ok existing =>
      rw [hget] at h
      obtain ⟨_, hsame, hreturn⟩ := bind_eq_ok.mp h
      obtain rfl : existing = plan := not_not.mp (refuseIf_eq_ok.mp hsame)
      refine ⟨(Except.ok.inj hreturn).symm, ?_⟩
      exact stored_of_get hd hh hget
  · rw [if_neg hconflict] at hinsert
    obtain ⟨rfl, rfl⟩ := Prod.mk.inj (Except.ok.inj hinsert)
    left
    exact ⟨row, hrow, hkept, hconflict, (Except.ok.inj h).symm⟩

/-- A plan whose hash is free is saved. -/
theorem save_free (hd : Documents checks) (hv : validatePlanRecord checks plan = .ok ())
    (hfree : ∀ row ∈ table, plan.hash ≠ .utf8 row.planHash) :
    ∃ row, Row.of plan = some row ∧ save checks plan table = .ok (row :: table) := by
  obtain ⟨row, hrow, hkept⟩ := kept_of_plan hd hv
  refine ⟨row, hrow, ?_⟩
  have hnew : row.planHash ∉ table.map fun other => other.planHash := by
    intro hm
    obtain ⟨other, hother, heq⟩ := List.mem_map.mp hm
    have heq : other.planHash = row.planHash := heq
    exact hfree other hother (by rw [heq]; exact hkept.planHash.text)
  have hinsert : insert row table = .ok (row :: table, 1) := by
    unfold insert
    rw [if_neg (by simp [hkept.meets]), if_neg hnew]
  unfold save
  refine bind_eq_ok.mpr ⟨plan, bind_eq_ok.mpr ⟨(), refuseIf_eq_ok.mpr (not_lt.mpr hkept.payload.2),
    bind_eq_ok.mpr ⟨(), hv, rfl⟩⟩, ?_⟩
  rw [hrow]
  exact bind_eq_ok.mpr ⟨(row :: table, 1), mapError_eq_ok.mpr hinsert, rfl⟩

/-- **A plan that is stored can be saved again**, which changes nothing. -/
theorem save_stored (hd : Documents checks) (hh : Held checks table)
    (hv : validatePlanRecord checks plan = .ok ()) (hs : Stored plan table) :
    save checks plan table = .ok table := by
  have hget := get_stored hd hh hv hs
  obtain ⟨row, hm, hrow⟩ := hs
  obtain ⟨row', hrow', hkept⟩ := kept_of_plan hd hv
  obtain rfl : row' = row := Option.some.inj (hrow'.symm.trans hrow)
  have hinsert : insert row' table = .ok (table, 0) := by
    unfold insert
    rw [if_neg (by simp [hkept.meets]), if_pos (List.mem_map.mpr ⟨row', hm, rfl⟩)]
  unfold save
  refine bind_eq_ok.mpr ⟨plan, bind_eq_ok.mpr ⟨(), refuseIf_eq_ok.mpr (not_lt.mpr hkept.payload.2),
    bind_eq_ok.mpr ⟨(), hv, rfl⟩⟩, ?_⟩
  rw [hrow]
  refine bind_eq_ok.mpr ⟨(table, 0), mapError_eq_ok.mpr hinsert, ?_⟩
  dsimp only
  rw [if_neg (by decide), hget]
  exact bind_eq_ok.mpr ⟨(), refuseIf_eq_ok.mpr (not_not.mpr rfl), rfl⟩

/-- What a call of `DeleteExpired` that succeeds has done. -/
theorem deleteExpired_cases {before : Time} {table' : List Row} {deleted : ℕ}
    (h : deleteExpired before table = .ok (table', deleted)) :
    table' = table.filter fun row => before.nanos < row.expiresAtUnixNano := by
  unfold deleteExpired at h
  split at h
  · cases h
  · exact (Prod.mk.inj (Except.ok.inj h)).1.symm

/-- A plan whose row was removed is not found. -/
theorem get_removed (hd : Documents checks) (hh : Held checks table)
    (hv : validatePlanRecord checks plan = .ok ()) (hs : Stored plan table) {keeps : Row → Bool}
    (hgone : ∀ row, Row.of plan = some row → keeps row = false) :
    get checks plan.hash (table.filter keeps) = .error .notFound := by
  obtain ⟨row, hm, hrow⟩ := hs
  obtain ⟨row', hrow', hkept⟩ := kept_of_plan hd hv
  obtain rfl : row' = row := Option.some.inj (hrow'.symm.trans hrow)
  have hhash := (validPlan_of_ok hv).hash
  have hfind : (table.filter keeps).find? (fun row => plan.hash == .utf8 row.planHash) = none := by
    refine List.find?_eq_none.mpr fun other hother heq => ?_
    obtain ⟨hin, hstays⟩ := List.mem_filter.mp hother
    have hsame : row'.planHash = other.planHash := by
      rw [hkept.planHash.text] at heq
      simpa using heq
    have : row' = other := List.inj_on_of_nodup_map hh.distinct hm hin hsame
    rw [← this, hgone row' hrow] at hstays
    cases hstays
  unfold get
  rw [hhash, hfind]
  rfl

/-- Every call keeps the invariant. -/
theorem held_step (hd : Documents checks) (hh : Held checks table) (call : Call) :
    Held checks (step checks table call) := by
  unfold step
  cases call with
  | save plan =>
    dsimp only
    split
    · next table' hsave =>
      obtain ⟨hv, ⟨row, hrow, hkept, hnew, rfl⟩ | ⟨rfl, -⟩⟩ := save_cases hd hh hsave
      · exact ⟨List.forall_mem_cons.mpr ⟨⟨plan, hv, hrow, hkept⟩, hh.plans⟩,
          List.nodup_cons.mpr ⟨hnew, hh.distinct⟩⟩
      · exact hh
    · exact hh
  | get hash => exact hh
  | deleteExpired before =>
    dsimp only
    split
    · next table' deleted hdelete =>
      rw [deleteExpired_cases hdelete]
      refine ⟨fun row hm => hh.plans row (List.mem_filter.mp hm).1, ?_⟩
      exact hh.distinct.sublist (List.filter_sublist.map _)
    · exact hh

/-- The invariant holds after every run. -/
theorem held_after (hd : Documents checks) (calls : List Call) : Held checks (after checks calls) := by
  suffices h : ∀ table, Held checks table → Held checks (calls.foldl (step checks) table) from
    h [] ⟨fun row hm => absurd hm List.not_mem_nil, List.nodup_nil⟩
  induction calls with
  | nil => exact fun table hh => hh
  | cons call calls ih => exact fun table hh => ih _ (held_step hd hh call)

/-- A call other than a deletion of what has expired leaves a plan stored. -/
theorem stored_step (hd : Documents checks) (hh : Held checks table)
    (hv : validatePlanRecord checks plan = .ok ()) (hs : Stored plan table) {call : Call}
    (hc : ∀ before, call = .deleteExpired before → before.nanos < plan.expiresAt.nanos) :
    Stored plan (step checks table call) := by
  unfold step
  cases call with
  | save other =>
    dsimp only
    split
    · next table' hsave =>
      obtain ⟨-, ⟨row, -, -, -, rfl⟩ | ⟨rfl, -⟩⟩ := save_cases hd hh hsave
      · obtain ⟨own, hm, hrow⟩ := hs
        exact ⟨own, List.mem_cons_of_mem _ hm, hrow⟩
      · exact hs
    · exact hs
  | get hash => exact hs
  | deleteExpired before =>
    dsimp only
    split
    · next table' deleted hdelete =>
      rw [deleteExpired_cases hdelete]
      obtain ⟨row, hm, hrow⟩ := hs
      obtain ⟨row', hrow', hkept⟩ := kept_of_plan hd hv
      obtain rfl : row' = row := Option.some.inj (hrow'.symm.trans hrow)
      refine ⟨row', List.mem_filter.mpr ⟨hm, ?_⟩, hrow⟩
      rw [hkept.expiry]
      exact decide_eq_true (hc before rfl)
    · exact hs

theorem stored_calls (hd : Documents checks) (hv : validatePlanRecord checks plan = .ok ())
    (calls : List Call)
    (hc : ∀ before, Call.deleteExpired before ∈ calls → before.nanos < plan.expiresAt.nanos) :
    ∀ table, Held checks table → Stored plan table →
      Stored plan (calls.foldl (step checks) table) := by
  induction calls with
  | nil => exact fun table _ hs => hs
  | cons call calls ih =>
    intro table hh hs
    refine ih (fun before hm => hc before (List.mem_cons_of_mem _ hm)) _ (held_step hd hh call) ?_
    exact stored_step hd hh hv hs fun before heq => hc before (heq ▸ List.mem_cons_self)

end Runs

/-! ### Loading a stored plan -/

section Loading

open Modary.Runtime.Environment Modary.Runtime.Engine Modary.Runtime.Runs Modary.Action.Errors
open Modary.Runtime.OwnRecords (isOk_of_ok)

variable {e : Engine} {plan : Plan}

/-- The two checks on impacts accept the same ones. -/
theorem validateImpact_of_persistent {impact : Impact}
    (h : validatePersistentImpact impact = .ok ()) : validateImpact impact = .ok () := by
  obtain ⟨_, hrows, h⟩ := bind_eq_ok.mp h
  obtain ⟨_, hcount, h⟩ := bind_eq_ok.mp h
  have hsize : validateImpactCollectionSize impact = .ok () := if_neg (refuseIf_eq_ok.mp hcount)
  unfold validateImpact
  rw [if_neg (refuseIf_eq_ok.mp hrows), hsize]
  refine mapError_eq_ok.mpr (Runtime.OwnRecords.validateResources_weaken ?_ h)
  intro r hr
  obtain ⟨hclean, hne⟩ := clean_required hr fun _ hc => hc
  refine if_neg ?_
  rintro (h1 | h1 | h1 | h1 | h1)
  · rw [hclean.valid] at h1
    cases h1
  · exact hne h1
  · exact h1 hclean.trimmed
  · exact absurd hclean.bounded (not_le.mpr h1)
  · obtain ⟨c, hc, hcontrol⟩ := List.any_eq_true.mp h1
    rw [hclean.visible c hc] at hcontrol
    cases hcontrol

/-- A valid plan that carries its own hash is accepted for the request it is bound to. -/
theorem checkLoaded_of_valid (hd : Documents e.checks)
    (hv : validatePlanRecord e.checks plan = .ok ()) (hhash : hashPlan e plan = .ok plan.hash)
    {request : Action.Types.Request} {registered : Registration} {canonical : RawMessage}
    {inputHash : GoString} (hplan : request.planHash = plan.hash)
    (hinput : canonicalInput e request.input = .ok (canonical, inputHash))
    (hbound : boundTo plan request registered inputHash = true) :
    checkLoaded e request registered plan = .ok () := by
  obtain ⟨row, -, hkept⟩ := kept_of_plan hd hv
  have hsize : validateActionJSONSize plan.payload "stored plan payload" = .ok () :=
    if_neg (not_lt.mpr hkept.payload.2)
  obtain ⟨_, -, himpact⟩ := bind_eq_ok.mp (validPlan_of_ok hv).impact
  obtain ⟨_, hcount, -⟩ := bind_eq_ok.mp himpact
  have hcount : validateImpactCollectionSize plan.impact = .ok () :=
    if_neg (refuseIf_eq_ok.mp hcount)
  unfold checkLoaded
  refine bind_eq_ok.mpr ⟨(), refuseIf_eq_ok.mpr (by simp [isOk_of_ok hsize]), bind_eq_ok.mpr ⟨(),
    refuseIf_eq_ok.mpr (by simp [isOk_of_ok hcount]), bind_eq_ok.mpr ⟨(),
    refuseIf_eq_ok.mpr (by simp [isOk_of_ok hv]), bind_eq_ok.mpr ⟨(), refuseIf_eq_ok.mpr ?_,
    bind_eq_ok.mpr ⟨(canonical, inputHash), hinput, refuseIf_eq_ok.mpr (by simp [hbound])⟩⟩⟩⟩⟩
  push Not
  exact ⟨hplan.symm, hhash⟩

/-- `loadExecutionPlan` refuses a valid plan at a time exactly when it has expired. -/
theorem checkCurrent_of_valid (hv : validatePlanRecord e.checks plan = .ok ()) (now : Time) :
    checkCurrent now plan =
      if plan.expiresAt.nanos ≤ now.nanos then
        .error (newError codePlanStale (.utf8 "preview plan expired"))
      else .ok () := by
  have himpact := isOk_of_ok (validateImpact_of_persistent (validPlan_of_ok hv).impact)
  unfold checkCurrent
  by_cases hexpired : plan.expiresAt.nanos ≤ now.nanos
  · rw [if_pos hexpired, refuseIf, if_pos hexpired]
    rfl
  · rw [if_neg hexpired]
    exact bind_eq_ok.mpr ⟨(), refuseIf_eq_ok.mpr hexpired, refuseIf_eq_ok.mpr (by simp [himpact])⟩

end Loading

section Store

open Modary.Runtime.Environment Modary.Runtime.Engine Modary.Action.Errors

variable {e : Engine} {plan : Plan}

/-- `loadExecutionPlan` accepts a plan for the requests it is bound to, until it expires. -/
def Loads (e : Engine) (plan : Plan) : Prop :=
  (∀ (request : Action.Types.Request) (registered : Registration) (canonical : RawMessage)
    (inputHash : GoString), request.planHash = plan.hash →
      canonicalInput e request.input = .ok (canonical, inputHash) →
      boundTo plan request registered inputHash = true →
        checkLoaded e request registered plan = .ok ()) ∧
    ∀ now : Time, now.nanos < plan.expiresAt.nanos → checkCurrent now plan = .ok ()

/-- The error of `loadExecutionPlan` on a plan that has expired. -/
def expired : Err := newError codePlanStale (.utf8 "preview plan expired")

/-- **The plan store over any sequence of calls**: a plan is saved when its hash is free; once it is
saved, and until a call deletes what has expired by its expiry, it is what `Get` returns and what
can be loaded, and it can be saved again; and a deletion within the range of stored times removes
the plans that loading refuses as expired at that time, and no others. -/
theorem plan_store_runs (hd : Documents e.checks) (calls : List Call)
    (hv : validatePlanRecord e.checks plan = .ok ()) (hhash : hashPlan e plan = .ok plan.hash) :
    ((∀ row ∈ after e.checks calls, plan.hash ≠ .utf8 row.planHash) →
      ∃ table, save e.checks plan (after e.checks calls) = .ok table) ∧
    (∀ table, save e.checks plan (after e.checks calls) = .ok table → ∀ later : List Call,
      (∀ before, Call.deleteExpired before ∈ later → before.nanos < plan.expiresAt.nanos) →
        get e.checks plan.hash (after e.checks (calls ++ .save plan :: later)) = .ok plan ∧
        save e.checks plan (after e.checks (calls ++ .save plan :: later)) =
          .ok (after e.checks (calls ++ .save plan :: later)) ∧
        Loads e plan) ∧
    ∀ before : Time, Persistable before.nanos →
      ∃ table deleted, deleteExpired before (after e.checks calls) = .ok (table, deleted) ∧
        table.Sublist (after e.checks calls) ∧
        ∀ stored, validatePlanRecord e.checks stored = .ok () →
          get e.checks stored.hash (after e.checks calls) = .ok stored →
            (checkCurrent before stored = .error expired ∧
                get e.checks stored.hash table = .error .notFound) ∨
              (checkCurrent before stored = .ok () ∧
                get e.checks stored.hash table = .ok stored) := by
  have hh := held_after hd calls
  refine ⟨fun hfree => ?_, fun table hsave later hlater => ?_, fun before hbefore => ?_⟩
  · obtain ⟨row, -, hsave⟩ := save_free hd hv hfree
    exact ⟨_, hsave⟩
  · have hstored : Stored plan (after e.checks (calls ++ .save plan :: later)) := by
      have hrun : after e.checks (calls ++ .save plan :: later) =
          later.foldl (step e.checks) table := by
        simp only [after, List.foldl_append, List.foldl_cons]
        congr 1
        simp only [step]
        rw [show calls.foldl (step e.checks) [] = after e.checks calls from rfl, hsave]
      have hheld : Held e.checks table := by
        have := held_step hd hh (.save plan)
        simpa only [step, hsave] using this
      rw [hrun]
      refine stored_calls hd hv later hlater table hheld ?_
      obtain ⟨-, ⟨row, hrow, -, -, rfl⟩ | ⟨rfl, hs⟩⟩ := save_cases hd hh hsave
      · exact ⟨row, List.mem_cons_self, hrow⟩
      · exact hs
    have hheld := held_after hd (calls ++ .save plan :: later)
    refine ⟨get_stored hd hheld hv hstored, save_stored hd hheld hv hstored, ?_, ?_⟩
    · intro request registered canonical inputHash hplan hinput hbound
      exact checkLoaded_of_valid hd hv hhash hplan hinput hbound
    · intro now hlt
      rw [checkCurrent_of_valid hv, if_neg (not_le.mpr hlt)]
  · have hdelete : deleteExpired before (after e.checks calls) = .ok _ :=
      if_neg (by rintro (h | h) <;> have := hbefore.1 <;> have := hbefore.2 <;> omega)
    refine ⟨_, _, hdelete, List.filter_sublist, fun stored hsv hget => ?_⟩
    have hs := stored_of_get hd hh hget
    rw [checkCurrent_of_valid hsv]
    by_cases hexpired : stored.expiresAt.nanos ≤ before.nanos
    · left
      refine ⟨if_pos hexpired, get_removed hd hh hsv hs fun row hrow => ?_⟩
      obtain ⟨row', hrow', hkept⟩ := kept_of_plan hd hsv
      obtain rfl : row' = row := Option.some.inj (hrow'.symm.trans hrow)
      rw [hkept.expiry]
      simpa using hexpired
    · right
      refine ⟨if_neg hexpired, ?_⟩
      have hlate : ∀ other, Call.deleteExpired before = .deleteExpired other →
          other.nanos < stored.expiresAt.nanos := by
        rintro other ⟨⟩
        exact not_le.mp hexpired
      have hkeep := stored_step hd hh hsv hs hlate
      have hheld := held_step hd hh (.deleteExpired before)
      simp only [step, hdelete] at hkeep hheld
      exact get_stored hd hheld hsv hkeep

end Store

/-! ### Samples -/

section Samples

open Modary.Runtime.Environment Modary.Runtime.Engine Modary.Runtime.Runs

/-- The sample engine over the sample checks. -/
def storeEngine : Engine := { sampleEngine with checks := sampleChecks }

/-- A plan of five minutes in the year 2023. -/
def storedPlan : Plan where
  hash := .utf8 ("sha256:" ++ sampleDigest)
  actionID := .utf8 "sales.post"
  actionVersion := .utf8 "1.0.0"
  contractHash := .utf8 ("sha256:" ++ sampleDigest)
  actorID := .utf8 "a"
  actorType := .utf8 "user"
  channel := .utf8 "http"
  scope := ⟨.utf8 "org", .utf8 "1"⟩
  inputHash := .utf8 ("sha256:" ++ sampleDigest)
  payload := .utf8 "1"
  impact := { rows := 1, resources := [.utf8 "orders"] }
  snapshotHash := .utf8 ""
  decisionFingerprint := .utf8 "f"
  createdAt := { nanos := 1700000000120000000 }
  expiresAt := { nanos := 1700000300120000000 }

theorem validate_storedPlan : validatePlanRecord storeEngine.checks storedPlan = .ok () := by
  decide +kernel

/-- The sample plan is saved, read back and saved again. -/
theorem plan_store_runs_sample :
    ∃ table, save storeEngine.checks storedPlan [] = .ok table ∧
      get storeEngine.checks storedPlan.hash
        (after storeEngine.checks [.save storedPlan, .get storedPlan.hash]) = .ok storedPlan ∧
      Loads storeEngine storedPlan := by
  obtain ⟨hsaves, hkeeps, -⟩ :=
    @plan_store_runs storeEngine _ documents_sample [] validate_storedPlan (by rfl)
  obtain ⟨table, hsave⟩ := hsaves (fun row hm => absurd hm List.not_mem_nil)
  obtain ⟨hget, -, hloads⟩ := hkeeps table hsave [.get storedPlan.hash] (by simp)
  exact ⟨table, hsave, hget, hloads⟩

/-- The first instant of the year 2300, after the range of stored times. -/
def lateBoundary : Time := { nanos := 10413792000000000000 }

/-- At that time the sample plan is refused as expired, but `DeleteExpired` refuses too and leaves
it stored. -/
theorem late_boundary_deletes_nothing :
    checkCurrent lateBoundary storedPlan = .error expired ∧
      (deleteExpired lateBoundary (after storeEngine.checks [.save storedPlan])).isOk = false ∧
      get storeEngine.checks storedPlan.hash
        (after storeEngine.checks [.save storedPlan, .deleteExpired lateBoundary]) =
          .ok storedPlan := by
  have hrefused : ∀ table, deleteExpired lateBoundary table =
      .error "plan cleanup boundary is outside the durable PostgreSQL timestamp range" :=
    fun table => if_pos (by decide)
  refine ⟨by decide, by rw [hrefused]; rfl, ?_⟩
  obtain ⟨row, hrow, hsave⟩ := @save_free _ _ [] documents_sample validate_storedPlan
    (fun row hm => absurd hm List.not_mem_nil)
  have hrun : after storeEngine.checks [.save storedPlan, .deleteExpired lateBoundary] = [row] := by
    have hsave : save storeEngine.checks storedPlan [] = .ok [row] := hsave
    simp only [after, List.foldl_cons, List.foldl_nil, step, hsave, hrefused]
  have hheld := held_after documents_sample [.save storedPlan, .deleteExpired lateBoundary]
  refine get_stored documents_sample hheld validate_storedPlan ⟨row, ?_, hrow⟩
  rw [hrun]
  exact List.mem_cons_self

end Samples

end Modary.Governed.PlanStore
