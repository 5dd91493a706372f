import Modary.Governed.JsonbTexts

/-! # The idempotency store

`Reserve`, `Complete` and `Lookup` of the store of `governedpostgres`, over the rows of
`modary_action_idempotency`: the checks of the table, the limit on an entry of the index of its
primary key, and the bounded projection that reads a row back. Statements are taken to reach the
database; a Go `int` always fits a `BIGINT`. -/

namespace Modary.Governed.IdempotencyStore

open Modary.Lib.GoText Modary.Action.Names
open Modary.Action.Types Modary.Action.Persistence Modary.Audit.Events Modary.Governed.Columns
open Modary.Governed.JsonbTexts (sampleChecks documents_sample)

/-! ### The table -/

/-- The columns that a reservation writes and a completion compares. -/
structure Binding where
  scopeKind : String
  scopeID : String
  actorID : String
  actorType : String
  actionID : String
  actionVersion : String
  contractHash : String
  channel : String
  key : String
  inputHash : String
  planHash : String
  impactRows : ℤ
  impactResources : List String
  fingerprint : String
  deriving DecidableEq, Repr

/-- A row of `modary_action_idempotency`. -/
structure Row extends Binding where
  status : String
  resultData : Option RawMessage
  resultSummary : String
  resultReferences : List (String × String)
  createdAt : String
  updatedAt : String
  deriving DecidableEq, Repr

/-- The columns of the primary key. -/
def Binding.primaryKey (b : Binding) : List String :=
  [b.scopeKind, b.scopeID, b.actorID, b.actorType, b.actionID, b.key]

/-- The checks on the columns of a binding. -/
def Binding.checks (b : Binding) : Bool :=
  between b.scopeKind 1 64 && between b.scopeID 1 256 && between b.actorID 1 256 &&
    between b.actorType 1 64 && between b.actionID 1 127 && between b.actionVersion 1 128 &&
    between b.contractHash 71 71 && between b.channel 1 64 && between b.key 1 256 &&
    between b.inputHash 71 71 && between b.planHash 71 71 && 0 ≤ b.impactRows &&
    shortArray (b.impactResources.map jsonbString) && between b.fingerprint 1 256

/-- The checks of the table. -/
def Row.checks (row : Row) : Bool :=
  row.toBinding.checks && (row.status == "running" || row.status == "completed") &&
    (match row.resultData with
      | none => true
      | some data => byteLen data ≤ 1048576) &&
    row.resultSummary.length ≤ 512 &&
    shortArray (row.resultReferences.map jsonbReference) &&
    between row.createdAt 20 30 && between row.updatedAt 20 30 &&
    (row.status == "running" && row.resultData.isNone ||
      row.status == "completed" && row.resultData.isSome)

/-! ### The index of the primary key -/

/-- The next multiple of an alignment. -/
def alignUp (alignment n : ℕ) : ℕ := (n + alignment - 1) / alignment * alignment

/-- Where a text of so many octets ends that starts at an offset: a short one has a header of one
octet, a longer one is aligned and has a header of four. -/
def datumEnd (offset octets : ℕ) : ℕ :=
  if octets ≤ 126 then offset + 1 + octets else alignUp 4 offset + 4 + octets

/-- The size of an entry of a B-tree with texts of so many octets, none of them compressed. -/
def entrySize (octets : List ℕ) : ℕ := alignUp 8 (8 + octets.foldl datumEnd 0)

/-- The largest entry of a B-tree. -/
def maxEntrySize : ℕ := 2704

/-! ### Statements -/

/-- `INSERT … ON CONFLICT DO NOTHING`: the rows, and how many were written. -/
def insert (row : Row) (table : List Row) : Except String (List Row × ℕ) :=
  if row.checks = false then .error "new row violates check constraint"
  else if row.primaryKey ∈ table.map fun other => other.primaryKey then .ok (table, 0)
  else if maxEntrySize < entrySize (row.primaryKey.map octetLength) then
    .error "index row size exceeds btree version 4 maximum 2704"
  else .ok (row :: table, 1)

/-- The result columns that a completion sets. -/
structure Completion where
  data : RawMessage
  summary : String
  references : List (String × String)
  updatedAt : String

/-- A row after its completion. -/
def Row.completed (row : Row) (c : Completion) : Row :=
  { row with
    status := "completed", resultData := some c.data, resultSummary := c.summary
    resultReferences := c.references, updatedAt := c.updatedAt }

/-- What the completion of a binding changes. -/
def Row.running (row : Row) (binding : Binding) : Bool :=
  row.toBinding == binding && row.status == "running"

/-- `UPDATE … WHERE … status = 'running'`: the rows, and how many were written. -/
def update (binding : Binding) (c : Completion) (table : List Row) :
    Except String (List Row × ℕ) :=
  let changed := table.filter fun row => row.running binding
  if changed.all (fun row => (row.completed c).checks) then
    .ok (table.map fun row => if row.running binding then row.completed c else row, changed.length)
  else .error "new row violates check constraint"

/-- `DELETE … WHERE … status = 'running'`: the rows that stay. -/
def delete (binding : Binding) (table : List Row) : List Row :=
  table.filter fun row => !row.running binding

/-! ### Reading a row -/

/-- `IdempotencyStatus(status)`. -/
def statusOf (status : String) : IdempotencyStatus :=
  if status = "running" then .running
  else if status = "completed" then .completed
  else .other (.utf8 status)

/-- `populateProjectedIdempotencyRecord`. -/
def populate (row : Row) : Except String IdempotencyRecord := do
  let scopeKind ← requireProjectedText (projectText (64 * 4) row.scopeKind) "idempotency scope kind"
  let scopeID ← requireProjectedText (projectText (256 * 4) row.scopeID) "idempotency scope id"
  let actorID ← requireProjectedText (projectText (256 * 4) row.actorID) "idempotency actor id"
  let actorType ← requireProjectedText (projectText (64 * 4) row.actorType) "idempotency actor type"
  let actionID ← requireProjectedText (projectText 127 row.actionID) "idempotency action id"
  let actionVersion ←
    requireProjectedText (projectText 128 row.actionVersion) "idempotency action version"
  let contractHash ←
    requireProjectedText (projectText 71 row.contractHash) "idempotency contract hash"
  let channel ← requireProjectedText (projectText (64 * 4) row.channel) "idempotency channel"
  let key ← requireProjectedText (projectText 256 row.key) "idempotency key"
  let inputHash ← requireProjectedText (projectText 71 row.inputHash) "idempotency input hash"
  let planHash ← requireProjectedText (projectText 71 row.planHash) "idempotency plan hash"
  let fingerprint ←
    requireProjectedText (projectText (256 * 4) row.fingerprint) "idempotency decision fingerprint"
  let status ← requireProjectedText (projectText 9 row.status) "idempotency status"
  let summary ←
    requireProjectedText (projectText (512 * 4) row.resultSummary) "idempotency result summary"
  let _ ← requireProjectedText (projectText 30 row.createdAt) "idempotency creation time"
  let _ ← requireProjectedText (projectText 30 row.updatedAt) "idempotency update time"
  return {
    scope := { kind := .utf8 scopeKind, id := .utf8 scopeID }
    actorID := .utf8 actorID, actorType := .utf8 actorType, actionID := .utf8 actionID
    actionVersion := .utf8 actionVersion, contractHash := .utf8 contractHash
    channel := .utf8 channel, key := .utf8 key, inputHash := .utf8 inputHash
    planHash := .utf8 planHash, impact := { rows := row.impactRows }
    decisionFingerprint := .utf8 fingerprint, status := statusOf status
    result := { summary := .utf8 summary } }

/-- The length of the result data in a row. -/
def Row.resultLength (row : Row) : ℤ :=
  match row.resultData with
  | none => -1
  | some data => byteLen data

/-- The part of `load` that looks at the row. -/
def loadRow (checks : Checks) (row : Row) : Except String IdempotencyRecord := do
  let resources := jsonbArray (row.impactResources.map jsonbString)
  let references := jsonbArray (row.resultReferences.map jsonbReference)
  refuseIf (maxJSONDocumentBytes < row.resultLength)
    "stored idempotency result exceeds the JSON resource limit"
  refuseIf (maxJSONDocumentBytes < byteLength resources)
    "stored idempotency impact resources exceed the JSON resource limit"
  refuseIf (maxJSONDocumentBytes < byteLength references)
    "stored idempotency references exceed the JSON resource limit"
  let record ← populate row
  let _ ← parseStoredTime "idempotency creation time" row.createdAt
  let _ ← parseStoredTime "idempotency update time" row.updatedAt
  (decodeStrictJSON checks resources).mapError
    ("decode stored idempotency impact resources: " ++ ·)
  (decodeStrictJSON checks references).mapError ("decode stored idempotency references: " ++ ·)
  let record :=
    { record with
      impact := { record.impact with resources := row.impactResources.map .utf8 }
      result :=
        { record.result with
          data := row.resultData.getD (.utf8 "")
          references := row.resultReferences.map fun r => ⟨.utf8 r.1, .utf8 r.2⟩ } }
  (validateStoredIdempotencyRecord checks record).mapError
    ("stored idempotency record is invalid: " ++ ·)
  return record

/-- Whether a row is the one of the key of a record. -/
def Row.holds (row : Row) (record : IdempotencyRecord) : Bool :=
  record.scope.kind == .utf8 row.scopeKind && record.scope.id == .utf8 row.scopeID &&
    record.actorID == .utf8 row.actorID && record.actorType == .utf8 row.actorType &&
    record.actionID == .utf8 row.actionID && record.key == .utf8 row.key

/-- `load`: no record when there is no row. -/
def load (checks : Checks) (record : IdempotencyRecord) (table : List Row) :
    Except String (Option IdempotencyRecord) :=
  match table.find? fun row => row.holds record with
  | none => .ok none
  | some row => (loadRow checks row).map some

/-! ### The store -/

/-- The parameters of the columns of a binding. What PostgreSQL does not take as a text is refused
before it gets here. -/
def Binding.of (record : IdempotencyRecord) : Option Binding := do
  return {
    scopeKind := ← textParam record.scope.kind
    scopeID := ← textParam record.scope.id
    actorID := ← textParam record.actorID
    actorType := ← textParam record.actorType
    actionID := ← textParam record.actionID
    actionVersion := ← textParam record.actionVersion
    contractHash := ← textParam record.contractHash
    channel := ← textParam record.channel
    key := ← textParam record.key
    inputHash := ← textParam record.inputHash
    planHash := ← textParam record.planHash
    impactRows := record.impact.rows
    impactResources := ← record.impact.resources.mapM textParam
    fingerprint := ← textParam record.decisionFingerprint }

/-- The parameters of a completion. -/
def Completion.of (result : Result) (now : ℤ) : Option Completion := do
  return {
    data := result.data
    summary := ← textParam result.summary
    references := ← result.references.mapM fun r =>
      do return (← textParam r.kind, ← textParam r.id)
    updatedAt := storedTime now }

/-- The row of a reservation. -/
def Binding.reserved (b : Binding) (now : ℤ) : Row :=
  { b with
    status := "running", resultData := none, resultSummary := "", resultReferences := []
    createdAt := storedTime now, updatedAt := storedTime now }

/-- `Lookup`. -/
def lookup (checks : Checks) (record : IdempotencyRecord) (table : List Row) :
    Except String (Option IdempotencyRecord) := do
  validateIdempotencyLookupRecord checks record
  load checks record table

/-- `Reserve`: no record when the key was free. -/
def reserve (checks : Checks) (now : ℤ) (record : IdempotencyRecord) (table : List Row) :
    Except String (List Row × Option IdempotencyRecord) := do
  validateIdempotencyReservationRecord checks record
  match Binding.of record with
  | none => .error "reserve idempotency key: invalid byte sequence for encoding \"UTF8\""
  | some binding =>
    let (table, rows) ←
      (insert (binding.reserved now) table).mapError ("reserve idempotency key: " ++ ·)
    if rows = 1 then return (table, none)
    else
      match ← (load checks record table).mapError
        ("load concurrent idempotency reservation: " ++ ·) with
      | none => .error "load concurrent idempotency reservation: sql: no rows in result set"
      | some existing => return (table, some existing)

/-- `Complete`. -/
def complete (checks : Checks) (now : ℤ) (record : IdempotencyRecord) (table : List Row) :
    Except String (List Row) := do
  refuseIf (maxJSONDocumentBytes < byteLen record.result.data)
    "idempotency result exceeds 1048576 bytes"
  validateIdempotencyCompletionRecord checks record
  match Binding.of record, Completion.of record.result now with
  | some binding, some completion =>
    let (table, rows) ←
      (update binding completion table).mapError ("complete idempotency record: " ++ ·)
    refuseIf (rows ≠ 1) "idempotency record has no matching running reservation"
    return table
  | _, _ => .error "complete idempotency record: invalid byte sequence for encoding \"UTF8\""

/-- The `INSERT` of `Reserve`: the rows, and how many were written. -/
def place (checks : Checks) (now : ℤ) (record : IdempotencyRecord) (table : List Row) :
    Except String (List Row × ℕ) := do
  validateIdempotencyReservationRecord checks record
  match Binding.of record with
  | none => .error "reserve idempotency key: invalid byte sequence for encoding \"UTF8\""
  | some binding =>
    (insert (binding.reserved now) table).mapError ("reserve idempotency key: " ++ ·)

/-- `Abort`. -/
def abort (checks : Checks) (record : IdempotencyRecord) (table : List Row) :
    Except String (List Row) := do
  validateIdempotencyReservationRecord checks record
  match Binding.of record with
  | none => .error "abort idempotency reservation: invalid byte sequence for encoding \"UTF8\""
  | some binding => return delete binding table

/-! ### Columns of a record -/

/-- The columns of a record that was validated. -/
structure Kept (record : IdempotencyRecord) (b : Binding) : Prop where
  scopeKind : Fits record.scope.kind 1 64 (64 * 4) b.scopeKind
  scopeID : Fits record.scope.id 1 256 (256 * 4) b.scopeID
  actorID : Fits record.actorID 1 256 (4 * 256) b.actorID
  actorType : Fits record.actorType 1 64 (4 * 64) b.actorType
  actionID : Fits record.actionID 1 127 127 b.actionID
  actionVersion : Fits record.actionVersion 1 128 128 b.actionVersion
  contractHash : Fits record.contractHash 71 71 71 b.contractHash
  channel : Fits record.channel 1 64 (4 * 64) b.channel
  key : Fits record.key 1 256 256 b.key
  inputHash : Fits record.inputHash 71 71 71 b.inputHash
  planHash : Fits record.planHash 71 71 71 b.planHash
  fingerprint : Fits record.decisionFingerprint 1 256 (4 * 256) b.fingerprint
  impact : record.impact = ⟨b.impactRows, b.impactResources.map .utf8⟩
  rows : 0 ≤ b.impactRows
  resources : shortArray (b.impactResources.map jsonbString) = true

section Columns

variable {checks : Checks} {record : IdempotencyRecord} {b : Binding}

theorem shortArray_references {pairs : List (String × String)} (hcount : pairs.length ≤ 32)
    (h : ∀ pair ∈ pairs, pair.1.length ≤ 80 ∧ pair.2.length ≤ 256) :
    shortArray (pairs.map jsonbReference) = true := by
  have hitems : ∀ item ∈ pairs.map jsonbReference,
      byteLength item ≤ 24 * 80 + 24 * 256 + 22 := by
    intro item hi
    obtain ⟨pair, hp, rfl⟩ := List.mem_map.mp hi
    have := byteLength_jsonbReference pair
    have := h pair hp
    omega
  have hbytes := byteLength_jsonbArray hitems
  rw [List.length_map] at hbytes
  simp only [shortArray, List.length_map, Bool.and_eq_true, decide_eq_true_eq]
  omega

/-- What reservations and completions share keeps its columns. -/
theorem kept_of_execution (hd : Documents checks) {missing : String}
    (h : validateIdempotencyExecution checks missing record = .ok ()) :
    ∃ b, Binding.of record = some b ∧ Kept record b := by
  obtain ⟨_, hlookup, h⟩ := bind_eq_ok.mp h
  obtain ⟨_, hplan, h⟩ := bind_eq_ok.mp h
  obtain ⟨_, himpact, hfingerprint⟩ := bind_eq_ok.mp h
  simp only [validateIdempotencyLookupRecord, bind_eq_ok] at hlookup
  obtain ⟨_, hscope, _, hactorID, _, hactorType, _, hactionID, _, hversion, _, hcontract, _,
    hchannel, _, hkey, _, hinput, hlookup⟩ := hlookup
  rw [if_pos (refuseIf_eq_ok.mp hplan)] at hlookup
  obtain ⟨_, htoken, -⟩ := bind_eq_ok.mp hfingerprint
  have himpact := orderlyImpact_of_persistent himpact
  obtain ⟨⟨scopeKind, h1⟩, scopeID, h2⟩ := fits_of_scope hscope
  obtain ⟨actorID, h3⟩ := fits_of_required (clean_required hactorID fun _ hc => hc)
  obtain ⟨actorType, h4⟩ := fits_of_required (clean_required hactorType fun _ hc => hc)
  obtain ⟨actionID, h5⟩ := fits_of_validIdentifier (by simpa using refuseIf_eq_ok.mp hactionID)
  obtain ⟨actionVersion, h6⟩ :=
    fits_of_version hd.versions (by simpa using refuseIf_eq_ok.mp hversion)
  obtain ⟨contractHash, h7⟩ := fits_of_digest (by simpa using refuseIf_eq_ok.mp hcontract)
  obtain ⟨channel, h8⟩ := fits_of_required (clean_required hchannel fun _ hc => hc)
  obtain ⟨key, h9⟩ := fits_of_idempotencyKey hkey
  obtain ⟨inputHash, h10⟩ := fits_of_digest (by simpa using refuseIf_eq_ok.mp hinput)
  obtain ⟨planHash, h11⟩ := fits_of_digest (digest_of_validatePlanHash hlookup)
  obtain ⟨fingerprint, h12⟩ := fits_of_required (clean_required htoken fun _ hc => hc)
  obtain ⟨resources, hm, hr, hshort⟩ := columns_of_impact himpact
  refine ⟨⟨scopeKind, scopeID, actorID, actorType, actionID, actionVersion, contractHash, channel,
    key, inputHash, planHash, record.impact.rows, resources, fingerprint⟩, ?_,
    ⟨h1, h2, h3, h4, h5, h6, h7, h8, h9, h10, h11, h12, ?_, himpact.rows,
      hshort⟩⟩
  · unfold Binding.of
    rw [h1.given, h2.given, h3.given, h4.given, h5.given, h6.given, h7.given, h8.given, h9.given, h10.given, h11.given, hm, h12.given]
    rfl
  · rw [← hr]

/-- The record of a binding. -/
def recordOf (b : Binding) (status : IdempotencyStatus) (result : Result) : IdempotencyRecord where
  scope := ⟨.utf8 b.scopeKind, .utf8 b.scopeID⟩
  actorID := .utf8 b.actorID
  actorType := .utf8 b.actorType
  actionID := .utf8 b.actionID
  actionVersion := .utf8 b.actionVersion
  contractHash := .utf8 b.contractHash
  channel := .utf8 b.channel
  key := .utf8 b.key
  inputHash := .utf8 b.inputHash
  planHash := .utf8 b.planHash
  impact := ⟨b.impactRows, b.impactResources.map .utf8⟩
  decisionFingerprint := .utf8 b.fingerprint
  status := status
  result := result

/-- A record can be told from its columns. -/
theorem Kept.eq_recordOf (h : Kept record b) (status : IdempotencyStatus) (result : Result) :
    { record with status := status, result := result } = recordOf b status result := by
  obtain ⟨⟨kind, id⟩, actorID, actorType, actionID, actionVersion, contractHash, channel, key,
    inputHash, planHash, impact, fingerprint, _, _⟩ := record
  have h1 : kind = _ := h.scopeKind.text
  have h2 : id = _ := h.scopeID.text
  have h3 : actorID = _ := h.actorID.text
  have h4 : actorType = _ := h.actorType.text
  have h5 : actionID = _ := h.actionID.text
  have h6 : actionVersion = _ := h.actionVersion.text
  have h7 : contractHash = _ := h.contractHash.text
  have h8 : channel = _ := h.channel.text
  have h9 : key = _ := h.key.text
  have h10 : inputHash = _ := h.inputHash.text
  have h11 : planHash = _ := h.planHash.text
  have h12 : fingerprint = _ := h.fingerprint.text
  have h13 : impact = _ := h.impact
  subst h1 h2 h3 h4 h5 h6 h7 h8 h9 h10 h11 h12 h13
  rfl

/-- The key of a record is that of its columns. -/
theorem Kept.holds_iff (h : Kept record b) (row : Row) :
    row.holds record = true ↔ row.primaryKey = b.primaryKey := by
  unfold Row.holds Binding.primaryKey
  rw [h.scopeKind.text, h.scopeID.text, h.actorID.text, h.actorType.text, h.actionID.text,
    h.key.text]
  simp only [Bool.and_eq_true, beq_iff_eq, GoString.utf8.injEq, List.cons.injEq, and_true]
  constructor
  · rintro ⟨⟨⟨⟨⟨h1, h2⟩, h3⟩, h4⟩, h5⟩, h6⟩
    exact ⟨h1.symm, h2.symm, h3.symm, h4.symm, h5.symm, h6.symm⟩
  · rintro ⟨h1, h2, h3, h4, h5, h6⟩
    exact ⟨⟨⟨⟨⟨h1.symm, h2.symm⟩, h3.symm⟩, h4.symm⟩, h5.symm⟩, h6.symm⟩

/-- The columns of a record meet the checks of the table. -/
theorem Kept.meets (h : Kept record b) : b.checks = true := by
  unfold Binding.checks
  simp only [Bool.and_eq_true, decide_eq_true_eq]
  exact ⟨⟨⟨⟨⟨⟨⟨⟨⟨⟨⟨⟨⟨between_of_fits h.scopeKind, between_of_fits h.scopeID⟩,
    between_of_fits h.actorID⟩, between_of_fits h.actorType⟩, between_of_fits h.actionID⟩,
    between_of_fits h.actionVersion⟩, between_of_fits h.contractHash⟩, between_of_fits h.channel⟩,
    between_of_fits h.key⟩, between_of_fits h.inputHash⟩, between_of_fits h.planHash⟩, h.rows⟩,
    h.resources⟩, between_of_fits h.fingerprint⟩

theorem Kept.meets_reserved (h : Kept record b) (now : ℤ) : (b.reserved now).checks = true := by
  have hb := h.meets
  have htime := between_storedTime now
  have hrefs : shortArray (([] : List (String × String)).map jsonbReference) = true := by decide
  unfold Row.checks Binding.reserved
  dsimp only
  rw [hb, htime, hrefs]
  rfl

/-- The columns of a result that was validated. -/
structure KeptResult (result : Result) (now : ℤ) (c : Completion) : Prop where
  data : c.data = result.data ∧ byteLen result.data ≤ maxJSONDocumentBytes
  summary : Fits result.summary 0 512 (4 * 512) c.summary
  references : result.references = c.references.map fun r => ⟨.utf8 r.1, .utf8 r.2⟩
  short : shortArray (c.references.map jsonbReference) = true
  updatedAt : c.updatedAt = storedTime now

theorem mapM_references {references : List Reference}
    (h : ∀ r ∈ references, Clean 80 r.kind ∧ Clean 256 r.id) :
    ∃ pairs : List (String × String),
      (references.mapM fun r => do return (← textParam r.kind, ← textParam r.id)) = some pairs ∧
        references = pairs.map (fun r => ⟨.utf8 r.1, .utf8 r.2⟩) ∧
        ∀ pair ∈ pairs, pair.1.length ≤ 80 ∧ pair.2.length ≤ 256 := by
  induction references with
  | nil => exact ⟨[], rfl, rfl, by simp⟩
  | cons r references ih =>
    obtain ⟨⟨hkind, hid⟩, hrest⟩ := List.forall_mem_cons.mp h
    obtain ⟨kind, hk⟩ := fits_of_clean hkind
    obtain ⟨id, hi⟩ := fits_of_clean hid
    obtain ⟨pairs, hm, rfl, hle⟩ := ih hrest
    obtain ⟨rkind, rid⟩ := r
    obtain rfl : rkind = _ := hk.text
    obtain rfl : rid = _ := hi.text
    refine ⟨(kind, id) :: pairs, ?_, rfl, List.forall_mem_cons.mpr ⟨⟨hk.below, hi.below⟩, hle⟩⟩
    rw [List.mapM_cons, hm, hk.param, hi.param]
    rfl

/-- A result that was validated keeps its columns. -/
theorem kept_of_result (hd : Documents checks) {result : Result}
    (hdata : checks.validateJSONDocument result.data = .ok)
    (h : validatePersistentResult result = .ok ()) (now : ℤ) :
    ∃ c, Completion.of result now = some c ∧ KeptResult result now c := by
  obtain ⟨_, hsummary, h⟩ := bind_eq_ok.mp h
  obtain ⟨_, hcount, h⟩ := bind_eq_ok.mp h
  have hcount := refuseIf_eq_ok.mp hcount
  obtain ⟨hall, -, -⟩ := validateReferences_ok h
  obtain ⟨summary, hs⟩ :=
    fits_of_clean (clean_of_validateText hsummary (fun _ hc => hc) le_rfl).1
  have hclean : ∀ r ∈ result.references, Clean 80 r.kind ∧ Clean 256 r.id := by
    intro r hr
    obtain ⟨_, hkind, -⟩ := bind_eq_ok.mp (hall r hr).1
    obtain ⟨_, hid, -⟩ := bind_eq_ok.mp (hall r hr).2
    exact ⟨(clean_required hkind fun _ hc => hc).1, (clean_required hid fun _ hc => hc).1⟩
  obtain ⟨pairs, hm, hp, hle⟩ := mapM_references hclean
  have hlen : pairs.length ≤ 32 := by
    rw [hp, List.length_map] at hcount
    unfold maxReferences at hcount
    omega
  have hparam : textParam result.summary = some summary := by rw [hs.text, hs.param]
  refine ⟨⟨result.data, summary, pairs, storedTime now⟩, ?_, ⟨rfl, hd.bounded _ hdata⟩, hs, hp,
    shortArray_references hlen hle, rfl⟩
  unfold Completion.of
  rw [hparam, hm]
  rfl

theorem Kept.meets_completed (h : Kept record b) {result : Result} {now later : ℤ} {c : Completion}
    (hc : KeptResult result later c) : ((b.reserved now).completed c).checks = true := by
  have hb := h.meets
  have hcreated := between_storedTime now
  have hupdated := between_storedTime later
  have hdata : byteLen c.data ≤ 1048576 := by
    rw [hc.data.1]
    exact hc.data.2
  have hsummary : c.summary.length ≤ 512 := hc.summary.below
  have hrefs := hc.short
  unfold Row.checks Row.completed Binding.reserved
  dsimp only
  rw [hb, hrefs, hcreated, hc.updatedAt, hupdated]
  simp [hdata, hsummary]

/-! ### Reading a completed row back -/

/-- The projection of a completed row. -/
theorem populate_completed (h : Kept record b) {result : Result} {now later : ℤ} {c : Completion}
    (hc : KeptResult result later c) :
    populate ((b.reserved now).completed c) =
      .ok { recordOf b .completed { summary := .utf8 c.summary } with
        impact := { rows := b.impactRows } } := by
  have htime : ∀ nanos field, requireProjectedText (projectText 30 (storedTime nanos)) field =
      .ok (storedTime nanos) := by
    intro nanos field
    rw [projectText, if_pos (octetLength_storedTime nanos)]
    rfl
  have hstatus : requireProjectedText (projectText 9 "completed") "idempotency status" =
      .ok "completed" := by decide
  unfold populate Row.completed Binding.reserved
  dsimp only
  rw [hc.updatedAt]
  exact bind_eq_ok.mpr ⟨_, h.scopeKind.projected _, bind_eq_ok.mpr ⟨_, h.scopeID.projected _,
    bind_eq_ok.mpr ⟨_, h.actorID.projected _, bind_eq_ok.mpr ⟨_, h.actorType.projected _,
    bind_eq_ok.mpr ⟨_, h.actionID.projected _, bind_eq_ok.mpr ⟨_, h.actionVersion.projected _,
    bind_eq_ok.mpr ⟨_, h.contractHash.projected _, bind_eq_ok.mpr ⟨_, h.channel.projected _,
    bind_eq_ok.mpr ⟨_, h.key.projected _, bind_eq_ok.mpr ⟨_, h.inputHash.projected _,
    bind_eq_ok.mpr ⟨_, h.planHash.projected _, bind_eq_ok.mpr ⟨_, h.fingerprint.projected _,
    bind_eq_ok.mpr ⟨_, hstatus, bind_eq_ok.mpr ⟨_, hc.summary.projected _,
    bind_eq_ok.mpr ⟨_, htime now _, bind_eq_ok.mpr ⟨_, htime later _,
      rfl⟩⟩⟩⟩⟩⟩⟩⟩⟩⟩⟩⟩⟩⟩⟩⟩

/-- **A completed row is read back as the record that was completed.** -/
theorem loadRow_completed (hd : Documents checks) (h : Kept record b) {result : Result}
    {now later : ℤ} (hnow : Persistable now) (hlater : Persistable later) {c : Completion}
    (hc : KeptResult result later c)
    (hv : validateIdempotencyCompletionRecord checks
      { record with status := .completed, result := result } = .ok ()) :
    loadRow checks ((b.reserved now).completed c) =
      .ok { record with status := .completed, result := result } := by
  rw [h.eq_recordOf] at hv ⊢
  have hlength : ¬ (maxJSONDocumentBytes : ℤ) < (byteLen c.data : ℤ) := by
    rw [hc.data.1]
    have := hc.data.2
    omega
  have hshort : ∀ {items : List (List Char)}, shortArray items = true →
      ¬ maxJSONDocumentBytes < byteLength (jsonbArray items) := by
    intro items hi
    simp only [shortArray, Bool.and_eq_true, decide_eq_true_eq] at hi
    unfold maxJSONDocumentBytes
    omega
  have hresult : result = ⟨c.data, .utf8 c.summary,
      c.references.map fun r => ⟨.utf8 r.1, .utf8 r.2⟩⟩ := by
    obtain ⟨data, summary, references⟩ := result
    have h1 : c.data = data := hc.data.1
    have h2 : summary = _ := hc.summary.text
    have h3 : references = _ := hc.references
    subst h1 h2 h3
    rfl
  rw [hresult] at hv ⊢
  unfold loadRow
  refine bind_eq_ok.mpr ⟨(), refuseIf_eq_ok.mpr hlength, bind_eq_ok.mpr ⟨(),
    refuseIf_eq_ok.mpr (hshort h.resources), bind_eq_ok.mpr ⟨(),
    refuseIf_eq_ok.mpr (hshort hc.short), bind_eq_ok.mpr ⟨_, populate_completed h hc,
    bind_eq_ok.mpr ⟨_, parseStoredTime_storedTime hnow _, bind_eq_ok.mpr ⟨later, ?_,
    bind_eq_ok.mpr ⟨(), ?_, bind_eq_ok.mpr ⟨(), ?_, bind_eq_ok.mpr ⟨(), ?_, rfl⟩⟩⟩⟩⟩⟩⟩⟩⟩
  · simp only [Row.completed, hc.updatedAt]
    exact parseStoredTime_storedTime hlater _
  · exact mapError_eq_ok.mpr (refuseIf_eq_ok.mpr (not_not.mpr (hd.strings _ h.resources)))
  · exact mapError_eq_ok.mpr (refuseIf_eq_ok.mpr (not_not.mpr (hd.references _ hc.short)))
  · exact mapError_eq_ok.mpr hv

end Columns

/-! ### Reserve, complete, look up -/

/-- The size of the entry of a record in the index of the primary key. -/
def keyEntrySize (record : IdempotencyRecord) : ℕ :=
  entrySize [byteLen record.scope.kind, byteLen record.scope.id, byteLen record.actorID,
    byteLen record.actorType, byteLen record.actionID, byteLen record.key]

/-- The completion of a record. -/
def completionOf (record : IdempotencyRecord) (result : Result) : IdempotencyRecord :=
  { record with status := .completed, result := result }

/-- A record is reserved as a row of its own; every completion that is accepted changes that row
and no other, and is then what a lookup returns. -/
def Replays (checks : Checks) (now later : ℤ) (record : IdempotencyRecord) (table : List Row) :
    Prop :=
  ∃ row, reserve checks now record table = .ok (row :: table, none) ∧
    ∀ result, validateIdempotencyCompletionRecord checks (completionOf record result) = .ok () →
      ∃ row', row'.primaryKey = row.primaryKey ∧
        complete checks later (completionOf record result) (row :: table) = .ok (row' :: table) ∧
        lookup checks record (row' :: table) = .ok (some (completionOf record result))

section Store

variable {checks : Checks} {record : IdempotencyRecord} {b : Binding} {table : List Row}
  {now later : ℤ}

theorem Kept.entrySize_eq (h : Kept record b) :
    entrySize (b.primaryKey.map octetLength) = keyEntrySize record := by
  unfold keyEntrySize
  rw [h.scopeKind.text, h.scopeID.text, h.actorID.text, h.actorType.text, h.actionID.text,
    h.key.text]
  rfl

/-- What a reservation that was validated is. -/
theorem reservation_ok (hv : validateIdempotencyReservationRecord checks record = .ok ()) :
    ∃ missing, validateIdempotencyExecution checks missing record = .ok () := by
  obtain ⟨_, hexec, -⟩ := bind_eq_ok.mp hv
  exact ⟨_, hexec⟩

/-- A free key is reserved when its entry is small enough, and only then. -/
theorem reserve_free
    (hv : validateIdempotencyReservationRecord checks record = .ok ())
    (hb : Binding.of record = some b) (h : Kept record b)
    (hfree : ∀ row ∈ table, row.holds record = false) :
    reserve checks now record table =
      if keyEntrySize record ≤ maxEntrySize then .ok (b.reserved now :: table, none)
      else .error "reserve idempotency key: index row size exceeds btree version 4 maximum 2704" := by
  have hkey : (b.reserved now).primaryKey ∉ table.map fun other => other.primaryKey := by
    intro hm
    obtain ⟨row, hrow, heq⟩ := List.mem_map.mp hm
    have hholds := (h.holds_iff row).mpr heq
    rw [hfree row hrow] at hholds
    cases hholds
  have hinsert : insert (b.reserved now) table =
      if keyEntrySize record ≤ maxEntrySize then .ok (b.reserved now :: table, 1)
      else .error "index row size exceeds btree version 4 maximum 2704" := by
    unfold insert
    rw [if_neg (by simp [h.meets_reserved now]), if_neg hkey]
    have hsize : entrySize ((b.reserved now).primaryKey.map octetLength) = keyEntrySize record :=
      h.entrySize_eq
    rw [hsize]
    by_cases hle : keyEntrySize record ≤ maxEntrySize
    · rw [if_pos hle, if_neg (not_lt.mpr hle)]
    · rw [if_neg hle, if_pos (not_le.mp hle)]
  unfold reserve
  rw [hv, hb]
  simp only [hinsert]
  by_cases hle : keyEntrySize record ≤ maxEntrySize
  · rw [if_pos hle, if_pos hle]
    rfl
  · rw [if_neg hle, if_neg hle]
    rfl

/-- A completion changes the reservation of its key. -/
theorem complete_reserved {result : Result}
    (hv : validateIdempotencyCompletionRecord checks (completionOf record result) = .ok ())
    (hb : Binding.of record = some b) (h : Kept record b) {c : Completion}
    (hof : Completion.of result later = some c) (hc : KeptResult result later c)
    (hfree : ∀ row ∈ table, row.holds record = false) :
    complete checks later (completionOf record result) (b.reserved now :: table) =
      .ok ((b.reserved now).completed c :: table) := by
  have hothers : ∀ row ∈ table, row.running b = false := by
    intro row hrow
    by_contra hrun
    simp only [Row.running, Bool.not_eq_false, Bool.and_eq_true, beq_iff_eq] at hrun
    have hholds := (h.holds_iff row).mpr (by rw [hrun.1])
    rw [hfree row hrow] at hholds
    cases hholds
  have hself : (b.reserved now).running b = true := by
    simp [Row.running, Binding.reserved]
  have hfilter : (b.reserved now :: table).filter (fun row => row.running b) =
      [b.reserved now] := by
    have hnone : table.filter (fun row => row.running b) = [] :=
      List.filter_eq_nil_iff.mpr fun row hrow => by simp [hothers row hrow]
    rw [List.filter_cons_of_pos (p := fun row : Row => row.running b) hself, hnone]
  have hmap : (b.reserved now :: table).map
      (fun row => if row.running b then row.completed c else row) =
        (b.reserved now).completed c :: table := by
    rw [List.map_cons, if_pos hself]
    congr 1
    calc table.map (fun row => if row.running b then row.completed c else row)
        = table.map id := List.map_congr_left fun row hrow => by simp [hothers row hrow]
      _ = table := List.map_id table
  have hupdate : update b c (b.reserved now :: table) =
      .ok ((b.reserved now).completed c :: table, 1) := by
    unfold update
    rw [hfilter, hmap]
    simp [h.meets_completed hc]
  have hsize : ¬ maxJSONDocumentBytes < byteLen result.data := by
    have := hc.data.2
    omega
  have hb' : Binding.of (completionOf record result) = some b := hb
  have hof' : Completion.of (completionOf record result).result later = some c := hof
  unfold complete
  refine bind_eq_ok.mpr ⟨(), refuseIf_eq_ok.mpr hsize, bind_eq_ok.mpr ⟨(), hv, ?_⟩⟩
  rw [hb', hof']
  simp only [hupdate]
  rfl

/-- **A record that is accepted is stored, completed and replayed exactly when the entry of its key
is small enough for the index.** -/
theorem replays_iff (hd : Documents checks) (hnow : Persistable now) (hlater : Persistable later)
    (hv : validateIdempotencyReservationRecord checks record = .ok ())
    (hfree : ∀ row ∈ table, row.holds record = false) :
    Replays checks now later record table ↔ keyEntrySize record ≤ maxEntrySize := by
  obtain ⟨missing, hexec⟩ := reservation_ok hv
  obtain ⟨b, hb, h⟩ := kept_of_execution hd hexec
  have hreserve := @reserve_free _ _ _ _ now hv hb h hfree
  constructor
  · rintro ⟨row, hrow, -⟩
    by_contra hlarge
    rw [hreserve, if_neg hlarge] at hrow
    cases hrow
  · intro hle
    rw [if_pos hle] at hreserve
    refine ⟨b.reserved now, hreserve, fun result hresult => ?_⟩
    have hparts := hresult
    obtain ⟨_, -, hparts⟩ := bind_eq_ok.mp hparts
    obtain ⟨_, -, hparts⟩ := bind_eq_ok.mp hparts
    obtain ⟨_, hdata, hparts⟩ := bind_eq_ok.mp hparts
    obtain ⟨c, hof, hc⟩ :=
      kept_of_result hd (not_not.mp (refuseIf_eq_ok.mp hdata)) hparts later
    refine ⟨(b.reserved now).completed c, rfl, complete_reserved hresult hb h hof hc hfree, ?_⟩
    obtain ⟨_, hlookup, -⟩ := bind_eq_ok.mp hexec
    have hholds : ((b.reserved now).completed c).holds record = true := (h.holds_iff _).mpr rfl
    unfold lookup load
    rw [hlookup, List.find?_cons_of_pos (p := fun row : Row => row.holds record) hholds]
    exact congrArg (Except.map some) (loadRow_completed hd h hnow hlater hc hresult)

end Store

/-! ### What the statements say of a row -/

section Statements

variable {checks : Checks} {record existing : IdempotencyRecord} {b : Binding} {row row' : Row}
  {table table' : List Row} {now : ℤ}

theorem eq_of_textParam {given : GoString} {s : String} (h : textParam given = some s) :
    given = .utf8 s := by
  cases given with
  | utf8 t =>
    simp only [textParam] at h
    split_ifs at h
    rw [Option.some.inj h]
  | raw bytes => cases h

theorem eq_of_mapM_textParam {given : List GoString} {texts : List String}
    (h : given.mapM textParam = some texts) : given = texts.map .utf8 := by
  induction given generalizing texts with
  | nil =>
    rw [List.mapM_nil] at h
    rw [← Option.some.inj h]
    rfl
  | cons g given ih =>
    simp only [List.mapM_cons, Option.bind_eq_bind, Option.bind_eq_some_iff] at h
    obtain ⟨s, hs, rest, hrest, h⟩ := h
    rw [← Option.some.inj h, eq_of_textParam hs, ih hrest]
    rfl

/-- The columns of a record say all of it but its status and its result. -/
theorem eq_recordOf_of (h : Binding.of record = some b) :
    record = recordOf b record.status record.result := by
  obtain ⟨⟨kind, id⟩, actorID, actorType, actionID, actionVersion, contractHash, channel, key,
    inputHash, planHash, ⟨rows, resources⟩, fingerprint, status, result⟩ := record
  unfold Binding.of at h
  obtain ⟨_, h1, h⟩ := Option.bind_eq_some_iff.mp h
  obtain ⟨_, h2, h⟩ := Option.bind_eq_some_iff.mp h
  obtain ⟨_, h3, h⟩ := Option.bind_eq_some_iff.mp h
  obtain ⟨_, h4, h⟩ := Option.bind_eq_some_iff.mp h
  obtain ⟨_, h5, h⟩ := Option.bind_eq_some_iff.mp h
  obtain ⟨_, h6, h⟩ := Option.bind_eq_some_iff.mp h
  obtain ⟨_, h7, h⟩ := Option.bind_eq_some_iff.mp h
  obtain ⟨_, h8, h⟩ := Option.bind_eq_some_iff.mp h
  obtain ⟨_, h9, h⟩ := Option.bind_eq_some_iff.mp h
  obtain ⟨_, h10, h⟩ := Option.bind_eq_some_iff.mp h
  obtain ⟨_, h11, h⟩ := Option.bind_eq_some_iff.mp h
  obtain ⟨_, h12, h⟩ := Option.bind_eq_some_iff.mp h
  obtain ⟨_, h13, h⟩ := Option.bind_eq_some_iff.mp h
  cases h
  cases eq_of_textParam h1
  cases eq_of_textParam h2
  cases eq_of_textParam h3
  cases eq_of_textParam h4
  cases eq_of_textParam h5
  cases eq_of_textParam h6
  cases eq_of_textParam h7
  cases eq_of_textParam h8
  cases eq_of_textParam h9
  cases eq_of_textParam h10
  cases eq_of_textParam h11
  cases eq_of_mapM_textParam h12
  cases eq_of_textParam h13
  rfl

/-- The result that a row holds. -/
def Row.result (row : Row) : Result :=
  ⟨row.resultData.getD (.utf8 ""), .utf8 row.resultSummary,
    row.resultReferences.map fun r => ⟨.utf8 r.1, .utf8 r.2⟩⟩

theorem eq_of_mapM_references {references : List Reference} {pairs : List (String × String)}
    (h : (references.mapM fun r => do return (← textParam r.kind, ← textParam r.id)) = some pairs) :
    references = pairs.map fun r => ⟨.utf8 r.1, .utf8 r.2⟩ := by
  induction references generalizing pairs with
  | nil =>
    rw [List.mapM_nil] at h
    rw [← Option.some.inj h]
    rfl
  | cons g references ih =>
    rw [List.mapM_cons] at h
    obtain ⟨pair, hpair, h⟩ := Option.bind_eq_some_iff.mp h
    obtain ⟨rest, hrest, h⟩ := Option.bind_eq_some_iff.mp h
    obtain ⟨kind, hkind, hpair⟩ := Option.bind_eq_some_iff.mp hpair
    obtain ⟨id, hid, hpair⟩ := Option.bind_eq_some_iff.mp hpair
    rw [← Option.some.inj h, ih hrest, ← Option.some.inj hpair]
    obtain ⟨k, i⟩ := g
    cases eq_of_textParam hkind
    cases eq_of_textParam hid
    rfl

/-- What a completion writes is the result. -/
theorem result_completed {result : Result} {c : Completion} (h : Completion.of result now = some c) :
    (row.completed c).result = result := by
  obtain ⟨data, summary, references⟩ := result
  unfold Completion.of at h
  obtain ⟨_, hsummary, h⟩ := Option.bind_eq_some_iff.mp h
  obtain ⟨pairs, hpairs, h⟩ := Option.bind_eq_some_iff.mp h
  cases h
  cases eq_of_textParam hsummary
  obtain rfl : references = _ := eq_of_mapM_references hpairs
  rfl

theorem eq_of_requireProjectedText {limit : ℕ} {s t field : String}
    (h : requireProjectedText (projectText limit s) field = .ok t) : t = s := by
  unfold projectText at h
  split at h
  · exact (Except.ok.inj h).symm
  · cases h

/-- What is read of a row is what it holds. -/
theorem loadRow_ok (h : loadRow checks row = .ok record) :
    record = recordOf row.toBinding (statusOf row.status) row.result := by
  simp only [loadRow, bind_eq_ok] at h
  obtain ⟨_, -, _, -, _, -, read, hread, _, -, _, -, _, -, _, -, _, -, h⟩ := h
  simp only [populate, bind_eq_ok] at hread
  obtain ⟨_, h1, _, h2, _, h3, _, h4, _, h5, _, h6, _, h7, _, h8, _, h9, _, h10, _, h11, _, h12,
    _, h13, _, h14, _, -, _, -, hread⟩ := hread
  cases hread
  cases h
  rw [eq_of_requireProjectedText h1, eq_of_requireProjectedText h2, eq_of_requireProjectedText h3,
    eq_of_requireProjectedText h4, eq_of_requireProjectedText h5, eq_of_requireProjectedText h6,
    eq_of_requireProjectedText h7, eq_of_requireProjectedText h8, eq_of_requireProjectedText h9,
    eq_of_requireProjectedText h10, eq_of_requireProjectedText h11,
    eq_of_requireProjectedText h12, eq_of_requireProjectedText h13,
    eq_of_requireProjectedText h14]
  rfl

/-- What is loaded from a row that is the only one of its key. -/
theorem load_single (h : load checks record [row] = .ok (some existing)) :
    loadRow checks row = .ok existing := by
  unfold load at h
  by_cases hholds : row.holds record = true
  · rw [List.find?_cons_of_pos (p := fun row : Row => row.holds record) hholds] at h
    cases hload : loadRow checks row with
    | error text =>
      simp only [hload] at h
      cases h
    | ok found =>
      simp only [hload] at h
      cases h
      rfl
  · rw [List.find?_cons_of_neg (p := fun row : Row => row.holds record) hholds] at h
    cases h

/-- `Reserve` is its `INSERT` and, where the key was taken, the `SELECT` after it. -/
theorem reserve_eq : reserve checks now record table = (do
    let (table, written) ← place checks now record table
    if written = 1 then return (table, none)
    else
      match ← (load checks record table).mapError
        ("load concurrent idempotency reservation: " ++ ·) with
      | none => .error "load concurrent idempotency reservation: sql: no rows in result set"
      | some existing => return (table, some existing)) := by
  unfold reserve place
  cases validateIdempotencyReservationRecord checks record with
  | error text => rfl
  | ok =>
    cases Binding.of record with
    | none => rfl
    | some b => rfl

/-- The `INSERT` of a reservation. -/
theorem place_ok {written : ℕ} (h : place checks now record table = .ok (table', written)) :
    ∃ b, Binding.of record = some b ∧ insert (b.reserved now) table = .ok (table', written) := by
  unfold place at h
  obtain ⟨_, -, h⟩ := bind_eq_ok.mp h
  split at h
  · cases h
  next b hb => exact ⟨b, hb, mapError_eq_ok.mp h⟩

/-- A row is inserted where there is none, and its key is found taken where it is. -/
theorem insert_ok {written : ℕ} (h : insert row table = .ok (table', written)) :
    (table' = row :: table ∧ written = 1 ∧ row.primaryKey ∉ table.map fun other => other.primaryKey) ∨
      (table' = table ∧ written = 0 ∧ row.primaryKey ∈ table.map fun other => other.primaryKey) := by
  unfold insert at h
  split at h
  · cases h
  · split at h
    next hm =>
      cases h
      exact Or.inr ⟨rfl, rfl, hm⟩
    next hm =>
      split at h
      · cases h
      · cases h
        exact Or.inl ⟨rfl, rfl, hm⟩

/-- A completion changes one running row of its binding. -/
theorem complete_single (h : complete checks now record table = .ok table')
    (hlength : table.length ≤ 1) :
    ∃ row c, table = [row] ∧ table' = [row.completed c] ∧ Binding.of record = some row.toBinding ∧
      row.status = "running" ∧ Completion.of record.result now = some c := by
  unfold complete at h
  obtain ⟨_, -, h⟩ := bind_eq_ok.mp h
  obtain ⟨_, -, h⟩ := bind_eq_ok.mp h
  split at h
  next binding completion hb hc =>
    obtain ⟨⟨rows, written⟩, hupdate, h⟩ := bind_eq_ok.mp h
    obtain ⟨_, hone, h⟩ := bind_eq_ok.mp h
    obtain rfl := Except.ok.inj h
    have hone := not_not.mp (refuseIf_eq_ok.mp hone)
    have hupdate := mapError_eq_ok.mp hupdate
    unfold update at hupdate
    dsimp only at hupdate
    split at hupdate
    · obtain ⟨rfl, rfl⟩ := Prod.mk.inj (Except.ok.inj hupdate)
      rcases table with _ | ⟨row, _ | ⟨other, rest⟩⟩
      · cases hone
      · by_cases hrun : row.running binding = true
        · refine ⟨row, completion, rfl, by simp [hrun], ?_⟩
          simp only [Row.running, Bool.and_eq_true, beq_iff_eq] at hrun
          exact ⟨by rw [hb, hrun.1], hrun.2, hc⟩
        · simp [hrun] at hone
      · simp at hlength
    · cases hupdate
  · cases h

/-- An abort leaves some of the rows. -/
theorem abort_ok (h : abort checks record table = .ok table') :
    ∃ b, Binding.of record = some b ∧ table' = delete b table := by
  unfold abort at h
  obtain ⟨_, -, h⟩ := bind_eq_ok.mp h
  split at h
  · cases h
  next b hb => exact ⟨b, hb, (Except.ok.inj h).symm⟩

end Statements

/-! ### Samples -/

/-- A digest. -/
def sampleHash : GoString :=
  .utf8 "sha256:0000000000000000000000000000000000000000000000000000000000000000"

/-- A reservation. -/
def sampleRecord : IdempotencyRecord where
  scope := ⟨.utf8 "org", .utf8 "1"⟩
  actorID := .utf8 "a"
  actorType := .utf8 "user"
  actionID := .utf8 "sales.post"
  actionVersion := .utf8 "1.0.0"
  contractHash := sampleHash
  channel := .utf8 "http"
  key := .utf8 "k"
  inputHash := sampleHash
  planHash := sampleHash
  impact := { rows := 1, resources := [.utf8 "orders"] }
  decisionFingerprint := .utf8 "f"
  status := .running

/-- A table with the reservation of another key. -/
def sampleTable : List Row :=
  (Binding.of { sampleRecord with key := .utf8 "j" }).toList.map fun b => b.reserved 0

/-- The sample record is stored, completed and replayed beside the other one. -/
theorem replays_sample :
    sampleTable.length = 1 ∧ Replays sampleChecks 0 1 sampleRecord sampleTable :=
  ⟨by decide, (replays_iff documents_sample ⟨by decide, by decide⟩ ⟨by decide, by decide⟩
    (by decide) (by decide)).mpr (by decide)⟩

/-- Characters of four octets, no three of which come twice: a server cannot compress them. -/
def scattered (n : ℕ) : List Char :=
  (List.range n).map fun i => Char.ofNat (0x10000 + (i + 1) * 104729 % 0x100000)

/-- A reservation whose key has the most octets that the checks on each of its parts allow. -/
def largeRecord : IdempotencyRecord :=
  { sampleRecord with
    scope := ⟨.utf8 (String.ofList (List.replicate 64 'a')), .utf8 (String.ofList (scattered 256))⟩
    actorID := .utf8 (String.ofList (scattered 256))
    actorType := .utf8 (String.ofList (scattered 64))
    actionID :=
      .utf8 (String.ofList (List.replicate 63 'a' ++ '.' :: List.replicate 63 'a'))
    key := .utf8 (String.ofList (List.replicate 256 'k')) }

/-- A text without white space and control characters. -/
theorem validateText_of_all {l : List Char}
    (hl : (l.all fun c => !isSpace c && !isControl c) = true) {limit : ℕ}
    (hpos : 0 < l.length) (hlen : l.length ≤ limit) (field : String) :
    validateText field (.utf8 (String.ofList l)) true limit isControl = .ok () := by
  have hplain : ∀ c ∈ l, isSpace c = false ∧ isControl c = false := by simpa using hl
  have hempty : ¬ String.ofList l = "" := by
    intro h
    have := congrArg String.toList h
    rw [String.toList_ofList] at this
    rw [this] at hpos
    cases hpos
  have htrim : trimSpace l = l :=
    trimSpace_eq_self (fun c hc => (hplain c (List.mem_of_mem_head? hc)).1)
      fun c hc => (hplain c (List.mem_of_mem_getLast? hc)).1
  have hcontrol : l.any isControl = false :=
    List.any_eq_false.mpr fun c hc => by simp [(hplain c hc).2]
  unfold validateText
  simp only [GoString.validString, GoString.runes, String.toList_ofList, htrim, hcontrol]
  simp [hempty]
  omega

theorem length_scattered (n : ℕ) : (scattered n).length = n := by
  rw [scattered, List.length_map, List.length_range]

theorem scattered_plain : ((scattered 256).all fun c => !isSpace c && !isControl c) = true ∧
    ((scattered 64).all fun c => !isSpace c && !isControl c) = true := by
  decide +kernel

theorem scope_large : largeRecord.scope.validate = .ok () := by
  have hpattern : kindPattern (List.replicate 64 'a') = true := by decide +kernel
  have hid : validateText "id" (.utf8 (String.ofList (scattered 256))) true 256 isControl = .ok () :=
    validateText_of_all scattered_plain.1 (by simp [length_scattered]) (by simp [length_scattered]) _
  obtain ⟨s, hs, hne, htrim, hlen, hcontrol⟩ := validateText_ok hid
  have hs : String.ofList (scattered 256) = s := GoString.utf8.inj hs
  have hne : (GoString.utf8 s == .utf8 "") = false := by simpa using hne rfl
  unfold Execution.validate largeRecord
  simp only [hs, GoString.validString, GoString.runes, String.toList_ofList, hpattern, htrim, hne]
  rw [if_neg (by decide), if_neg (by decide +kernel), if_neg (by decide), if_neg, if_neg]
  · rw [Bool.not_eq_true]
    exact List.any_eq_false.mpr fun c hc => by simp [hcontrol c hc]
  · simp only [bne_self_eq_false, Bool.or_self, Bool.false_or, decide_eq_true_eq, not_lt]
    exact hlen

theorem validIdentifier_large : validIdentifier largeRecord.actionID = true := by
  unfold largeRecord validIdentifier
  simp only [GoString.runes, String.toList_ofList]
  decide +kernel

theorem validateIdempotencyKey_large : validateIdempotencyKey largeRecord.key = .ok () := by
  unfold largeRecord validateIdempotencyKey
  simp only [GoString.runes, String.toList_ofList]
  rw [if_pos (by decide +kernel)]

/-- Every part of the large key is accepted. -/
theorem validate_large :
    validateIdempotencyReservationRecord sampleChecks largeRecord = .ok () := by
  have hactorID : validateActorID largeRecord.actorID = .ok () := by
    unfold validateActorID validateActorText largeRecord
    exact validateText_of_all scattered_plain.1 (by simp [length_scattered])
      (by simp [length_scattered, maxActorIDRunes]) _
  have hactorType : validateActorType largeRecord.actorType = .ok () := by
    unfold validateActorType validateActorText largeRecord
    exact validateText_of_all scattered_plain.2 (by simp [length_scattered])
      (by simp [length_scattered, maxActorTypeRunes]) _
  have hshared : validateIdempotencyLookupRecord sampleChecks largeRecord = .ok () := by
    unfold validateIdempotencyLookupRecord
    refine bind_eq_ok.mpr ⟨(), scope_large, bind_eq_ok.mpr ⟨(), hactorID,
      bind_eq_ok.mpr ⟨(), hactorType, bind_eq_ok.mpr ⟨(), refuseIf_eq_ok.mpr (by simp [validIdentifier_large]), ?_⟩⟩⟩⟩
    refine bind_eq_ok.mpr ⟨(), refuseIf_eq_ok.mpr (by decide), bind_eq_ok.mpr ⟨(),
      refuseIf_eq_ok.mpr (by decide), bind_eq_ok.mpr ⟨(), by decide, bind_eq_ok.mpr ⟨(),
      validateIdempotencyKey_large, bind_eq_ok.mpr ⟨(), refuseIf_eq_ok.mpr (by decide), by decide⟩⟩⟩⟩⟩
  have hexec : validateIdempotencyExecution sampleChecks
      "idempotency reservation requires a plan hash" largeRecord = .ok () :=
    bind_eq_ok.mpr ⟨(), hshared, by decide⟩
  exact bind_eq_ok.mpr ⟨(), hexec, by decide⟩

theorem keyEntrySize_large : maxEntrySize < keyEntrySize largeRecord := by
  have hlist : ∀ l : List Char, byteLen (.utf8 (String.ofList l)) = byteLength l := by
    intro l
    rw [byteLen, String.toList_ofList]
  unfold keyEntrySize largeRecord
  simp only [hlist]
  decide +kernel

/-- The parts of a key are all accepted, but the entry of the key does not fit the index. -/
theorem large_key_not_reserved :
    validateIdempotencyReservationRecord sampleChecks largeRecord = .ok () ∧
      ¬ Replays sampleChecks 0 1 largeRecord [] := by
  refine ⟨validate_large, ?_⟩
  obtain ⟨missing, hexec⟩ := reservation_ok validate_large
  obtain ⟨b, hb, h⟩ := kept_of_execution documents_sample hexec
  rintro ⟨row, hrow, -⟩
  rw [@reserve_free _ _ _ _ 0 validate_large hb h (by simp),
    if_neg (not_le.mpr keyEntrySize_large)] at hrow
  cases hrow

end Modary.Governed.IdempotencyStore
