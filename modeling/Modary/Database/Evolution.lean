import Modary.Database.History
import Modary.Sql.Gates

/-! # Evolving sources

The contract of `ApplyMigrations` over every sequence of runs. A run succeeds only on a history that
is a prefix of its source, and extends it to the source; another run leaves the database as it was.
A source that extends the history is accepted exactly when the database lists the recorded ids in
the order of Go (`migrations_contract`). -/

namespace Modary.Database.Evolution

open Modary.Lib.GoText Modary.Lib.TextOrder Modary.Database.Migrations
open Modary.Database.History

/-! ### Failures -/

/-- The failures of the history check. -/
def isHistory : MigrationError → Bool
  | .tooManyApplied | .oversized | .removed _ | .notPrefix .. | .checksumChanged _ => true
  | _ => false

theorem statement_error {s : Session} {fate : Fate} {failure err : MigrationError}
    (h : s.statement fate failure = .error err) : err = failure := by
  rcases bind_eq_error.mp h with h | ⟨_, -, h⟩
  · exact (refuseIf_eq_error.mp h).2.symm
  · cases h

theorem isHistory_of_checkHistory : ∀ {index : ℕ} {applied : List (String × String)}
    {current : List Migration} {err : MigrationError},
    checkHistory index applied current = .error err → isHistory err = true
  | _, [], _, _, h => by cases h
  | _, _ :: _, [], _, h => by
    cases h
    rfl
  | _, _ :: _, _ :: _, _, h => by
    rcases bind_eq_error.mp h with h | ⟨_, -, h⟩
    · obtain ⟨-, rfl⟩ := refuseIf_eq_error.mp h
      rfl
    rcases bind_eq_error.mp h with h | ⟨_, -, h⟩
    · obtain ⟨-, rfl⟩ := refuseIf_eq_error.mp h
      rfl
    · exact isHistory_of_checkHistory h

theorem isHistory_of_applyPending {fate : Fate} {moduleID : String} : ∀ {items : List Migration}
    {s : Session} {err : MigrationError}, applyPending fate moduleID items s = .error err →
    isHistory err = false
  | [], _, _, h => by cases h
  | item :: rest, _, _, h => by
    rcases bind_eq_error.mp h with h | ⟨s₁, -, h⟩
    · rw [statement_error h]
      rfl
    rcases bind_eq_error.mp h with h | ⟨s₂, -, h⟩
    · rw [statement_error h]
      rfl
    cases hi : s₂.db.insert moduleID item with
    | none =>
      rw [hi] at h
      cases h
      rfl
    | some db =>
      rw [hi] at h
      exact isHistory_of_applyPending h

/-- The database the operation compares with the source. -/
theorem session_db {backend : Backend} {fate : Fate} {s s₁ s₂ s₃ : Session}
    (h₁ : (if backend.locks then s.statement fate .lock else .ok s) = .ok s₁)
    (h₂ : s₁.statement fate .createRegistry = .ok s₂)
    (h₃ : ({ s₂ with db := s₂.db.createRegistry } : Session).statement fate .listApplied = .ok s₃) :
    s₃.db = s.db.createRegistry := by
  rw [statement_ok h₃]
  show s₂.db.createRegistry = _
  rw [statement_ok h₂, lock_ok h₁]

/-- A listing that is a prefix of the source is never refused. -/
theorem isHistory_of_operation {c : Collation} {backend : Backend} {fate : Fate} {moduleID : String}
    {current : List Migration} {s : Session} {err : MigrationError} (hr : Recorded s.db)
    (hp : listed s.db c moduleID <+: keys current)
    (h : operation c backend fate moduleID current s = .error err) : isHistory err = false := by
  rcases bind_eq_error.mp h with h | ⟨s₁, h₁, h⟩
  · split_ifs at h
    rw [statement_error h]
    rfl
  rcases bind_eq_error.mp h with h | ⟨s₂, h₂, h⟩
  · rw [statement_error h]
    rfl
  rcases bind_eq_error.mp h with h | ⟨s₃, h₃, h⟩
  · rw [statement_error h]
    rfl
  rw [session_db h₁ h₂ h₃, readApplied_selectApplied (recorded_createRegistry hr),
    listed_createRegistry] at h
  rcases bind_eq_error.mp h with h | ⟨applied, ha, h⟩
  · cases h
  obtain rfl := Except.ok.inj ha
  have hlen : (listed s.db c moduleID).length ≤ current.length := by
    simpa [keys] using hp.length_le
  rcases bind_eq_error.mp h with h | ⟨_, -, h⟩
  · have := (refuseIf_eq_error.mp h).1
    omega
  rcases bind_eq_error.mp h with h | ⟨_, -, h⟩
  · rw [checkHistory_eq_ok.mpr hp] at h
    cases h
  · exact isHistory_of_applyPending h

/-! ### Runs without a fault -/

/-- No statement fails. -/
def Faultless (fate : Fate) : Prop := ∀ n, fate.fails n = false

theorem statement_faultless {fate : Fate} (hf : Faultless fate) (s : Session)
    (failure : MigrationError) :
    s.statement fate failure = .ok { s with next := s.next + 1 } := by
  simp [Session.statement, refuseIf, hf s.next, bind, Except.bind]

/-- Without a fault the operation comes to the comparison. -/
theorem operation_faultless {c : Collation} {backend : Backend} {fate : Fate} {moduleID : String}
    {current : List Migration} {s : Session} (hr : Recorded s.db) (hf : Faultless fate) :
    ∃ s₁, s₁.db = s.db.createRegistry ∧
      operation c backend fate moduleID current s = (do
        refuseIf (current.length < (listed s.db c moduleID).length)
          (.removed ((listed s.db c moduleID).length - current.length))
        checkHistory 0 (listed s.db c moduleID) current
        applyPending fate moduleID (current.drop (listed s.db c moduleID).length) s₁) := by
  have hread := readApplied_selectApplied (recorded_createRegistry hr) c moduleID
  rw [listed_createRegistry] at hread
  cases hl : backend.locks with
  | false =>
    refine ⟨⟨s.db.createRegistry, s.next + 1 + 1⟩, rfl, ?_⟩
    simp [operation, hl, statement_faultless hf, hread, bind, Except.bind]
  | true =>
    refine ⟨⟨s.db.createRegistry, s.next + 1 + 1 + 1⟩, rfl, ?_⟩
    simp [operation, hl, statement_faultless hf, hread, bind, Except.bind]

/-- A listing that is no prefix of the source is refused. -/
theorem operation_refused {c : Collation} {backend : Backend} {fate : Fate} {moduleID : String}
    {current : List Migration} {s : Session} (hr : Recorded s.db) (hf : Faultless fate)
    (hp : ¬ listed s.db c moduleID <+: keys current) :
    ∃ err, operation c backend fate moduleID current s = .error err ∧ isHistory err = true := by
  obtain ⟨s₁, -, heq⟩ := @operation_faultless c backend fate moduleID current s hr hf
  by_cases hlen : current.length < (listed s.db c moduleID).length
  · exact ⟨_, heq.trans (bind_eq_error.mpr (Or.inl (refuseIf_eq_error.mpr ⟨hlen, rfl⟩))), rfl⟩
  · obtain ⟨err, herr⟩ := @checkHistory_ne 0 _ _ hp
    refine ⟨err, ?_, isHistory_of_checkHistory herr⟩
    rw [heq]
    refine bind_eq_error.mpr (Or.inr ⟨(), refuseIf_eq_ok.mpr hlen, ?_⟩)
    exact bind_eq_error.mpr (Or.inl herr)

/-- A migration within the bounds of the registry and with a new id is recorded. -/
theorem insert_of_fresh {db : Db} {moduleID : String} {item : Migration}
    (hr : db.registry.isSome = true)
    (hb : byteLength item.id.toList ≤ maxAppliedMigrationIDBytes ∧
      byteLength moduleID.toList ≤ 63 ∧
      byteLength item.checksum.toList ≤ maxMigrationChecksumBytes)
    (hf : item.id ∉ db.rows.map Row.migrationID) :
    ∃ db', db.insert moduleID item = some db' ∧ db'.registry.isSome = true := by
  obtain ⟨registry, hreg⟩ := Option.isSome_iff_exists.mp hr
  have hf : item.id ∉ registry.rows.map Row.migrationID := by
    simpa [Db.rows, hreg] using hf
  have hc := And.intro hb hf
  exact ⟨_, by simp only [Db.insert, hreg, dif_pos hc]; rfl, rfl⟩

/-- The loop over pending migrations with new ids. -/
theorem applyPending_of_fresh {fate : Fate} {moduleID : String}
    (hf : Faultless fate) (hm : byteLength moduleID.toList ≤ 63) : ∀ {items : List Migration}
    {s : Session}, s.db.registry.isSome = true →
    (∀ item ∈ items, byteLength item.id.toList ≤ maxAppliedMigrationIDBytes ∧
      byteLength item.checksum.toList ≤ maxMigrationChecksumBytes) →
    (s.db.rows.map Row.migrationID ++ items.map Migration.id).Nodup →
    ∃ s', applyPending fate moduleID items s = .ok s'
  | [], s, _, _, _ => ⟨s, rfl⟩
  | item :: rest, s, hr, hb, hn => by
    have hitem := hb item List.mem_cons_self
    have hfresh : item.id ∉ s.db.rows.map Row.migrationID := by
      intro hmem
      exact (List.nodup_append.mp hn).2.2 _ hmem _ (by simp) rfl
    obtain ⟨db', hins, hreg⟩ : ∃ db', ({ s.db with schema := s.db.schema ++
        [(⟨moduleID, item⟩ : Executed)] } : Db).insert moduleID item = some db' ∧
        db'.registry.isSome = true :=
      insert_of_fresh hr ⟨hitem.1, hm, hitem.2⟩ hfresh
    obtain ⟨-, row, hrows, hid, -, -⟩ := insert_rows hins
    have hrows : db'.rows = s.db.rows ++ [row] := hrows
    have hrest : (db'.rows.map Row.migrationID ++ rest.map Migration.id).Nodup := by
      simpa [hrows, hid] using hn
    obtain ⟨s', hs'⟩ : ∃ s', applyPending fate moduleID rest ⟨db', s.next + 1 + 1⟩ = .ok s' :=
      applyPending_of_fresh hf hm hreg
        (fun other ho => hb other (List.mem_cons_of_mem _ ho)) hrest
    refine ⟨s', ?_⟩
    simp [applyPending, statement_faultless hf, bind, Except.bind, hins, hs']

theorem eq_of_slash {a b x y : List Char} (ha : '/' ∉ a) (hb : '/' ∉ b)
    (h : a ++ '/' :: x = b ++ '/' :: y) : a = b := by
  have key : ∀ l t : List Char, '/' ∉ l → (l ++ '/' :: t).takeWhile (· != '/') = l := by
    intro l t hl
    rw [List.takeWhile_append_of_pos]
    · simp
    · intro c hc
      simp only [bne_iff_ne, ne_eq]
      rintro rfl
      exact hl hc
  rw [← key a x ha, h, key b y hb]

/-- The rows of other modules have other ids. -/
theorem moduleID_of_id {moduleID other a b : String} (hm : '/' ∉ moduleID.toList)
    (ho : '/' ∉ other.toList) (h : other ++ "/" ++ a = moduleID ++ "/" ++ b) :
    other = moduleID := by
  refine String.toList_injective (eq_of_slash (x := a.toList) (y := b.toList) ho hm ?_)
  have := congrArg String.toList h
  simpa [String.toList_append] using this

/-- The ids of the pending migrations are new. -/
theorem nodup_pending {backend : Backend} {db : Db} {moduleID : String} {current : List Migration}
    (hr : Recorded db) (hd : Declared backend moduleID current)
    (hp : history db moduleID <+: keys current) :
    (db.rows.map Row.migrationID ++
      (current.drop (history db moduleID).length).map Migration.id).Nodup := by
  have hids : (keys current).map Prod.fst = current.map Migration.id := by
    simp [keys, Function.comp_def]
  have hnd : (current.map Migration.id).Nodup := by
    rw [← hids]
    exact hd.ascending.imp ne_of_lt
  have hsplit : (history db moduleID).map Prod.fst ++
      (current.drop (history db moduleID).length).map Migration.id = current.map Migration.id := by
    have := congrArg (List.map Prod.fst) (List.prefix_iff_eq_append.mp hp)
    rw [List.map_append, hids] at this
    simpa [keys, ← List.map_drop, Function.comp_def] using this
  rw [← hsplit] at hnd
  obtain ⟨-, hpending, hdisj⟩ := List.nodup_append.mp hnd
  refine List.nodup_append.mpr ⟨?_, hpending, ?_⟩
  · cases hreg : db.registry with
    | none => simp [Db.rows, hreg]
    | some registry => simpa [Db.rows, hreg] using registry.primaryKey
  · rintro id hrow _ hitem rfl
    obtain ⟨row, hmem, hid⟩ := List.mem_map.mp hrow
    obtain ⟨item, hi, he⟩ := List.mem_map.mp hitem
    obtain ⟨hslash, name, hname⟩ := hr.named row hmem
    obtain ⟨file, hfile⟩ := (hd.items item (List.mem_of_mem_drop hi)).1
    have hmod : row.moduleID = moduleID := by
      refine moduleID_of_id hd.slashless hslash (a := name) (b := file) ?_
      rw [← hname, ← hfile, hid, he]
    refine hdisj id ?_ id hitem rfl
    have : row ∈ rowsOf db moduleID := List.mem_filter.mpr ⟨hmem, by simp [hmod]⟩
    simp only [history, List.map_map]
    exact List.mem_map.mpr ⟨row, this, hid⟩

/-- A listing that is a prefix of the source lets the run through. -/
theorem operation_proceeds {c : Collation} {backend : Backend} {fate : Fate} {moduleID : String}
    {current : List Migration} {s : Session} (hr : Recorded s.db) (hf : Faultless fate)
    (hd : Declared backend moduleID current) (hp : listed s.db c moduleID <+: keys current) :
    ∃ s', operation c backend fate moduleID current s = .ok s' := by
  have heq := listed_eq_history hr hd.ascending hp
  obtain ⟨s₁, hdb, hop⟩ := @operation_faultless c backend fate moduleID current s hr hf
  have hlen : ¬ current.length < (listed s.db c moduleID).length := by
    have := hp.length_le
    simp only [keys, List.length_map] at this
    omega
  have hreg : s₁.db.registry.isSome = true := by
    rw [hdb]
    rfl
  have hfresh : (s₁.db.rows.map Row.migrationID ++
      (current.drop (listed s.db c moduleID).length).map Migration.id).Nodup := by
    rw [hdb, rows_createRegistry, heq]
    exact nodup_pending hr hd (heq ▸ hp)
  obtain ⟨s', hs'⟩ := applyPending_of_fresh hf hd.module_le hreg
    (fun item hi => (hd.items item (List.mem_of_mem_drop hi)).2) hfresh
  refine ⟨s', ?_⟩
  rw [hop]
  refine bind_eq_ok.mpr ⟨(), refuseIf_eq_ok.mpr hlen, ?_⟩
  exact bind_eq_ok.mpr ⟨(), checkHistory_eq_ok.mpr hp, hs'⟩

/-! ### The contract -/

/-- The backend accepts the SQL of every file. -/
def Validated (backend : Backend) (current : List Migration) : Prop :=
  ∀ item ∈ current, backend.validateMigration item.sql = true

/-- **What a run owes** to the database it finds. -/
structure Meets (c : Collation) (backend : Backend) (db : Db) (run : Run) : Prop where
  once : ∀ m, Ascending (keys (schemaOf (applyMigrations c backend db run).1 m))
  success : (applyMigrations c backend db run).2 = .ok () → ∃ current,
    readMigrations backend.sha256 run.moduleID run.source = .ok current ∧
    history db (String.ofList run.moduleID.runes) <+: keys current ∧
    history (applyMigrations c backend db run).1 (String.ofList run.moduleID.runes) = keys current ∧
    Extended db (applyMigrations c backend db run).1 (String.ofList run.moduleID.runes)
      (current.drop (history db (String.ofList run.moduleID.runes)).length)
  failure : ∀ err, (applyMigrations c backend db run).2 = .error err →
    (applyMigrations c backend db run).1 = db
  accepts : ∀ current, readMigrations backend.sha256 run.moduleID run.source = .ok current →
    history db (String.ofList run.moduleID.runes) <+: keys current →
    (∀ err, (applyMigrations c backend db run).2 = .error err → isHistory err = false) ∧
    (Validated backend current → Faultless run.fate → run.fate.commit = .acknowledged →
      (applyMigrations c backend db run).2 = .ok ())

/-- A source that extends the history finds the recorded ids listed in the order of Go. -/
def ListsInOrder (c : Collation) (backend : Backend) (db : Db) (moduleID : GoString)
    (source : Source) : Prop :=
  ∀ current, readMigrations backend.sha256 moduleID source = .ok current →
    Validated backend current → history db (String.ofList moduleID.runes) <+: keys current →
    InOrder c db (String.ofList moduleID.runes)

theorem find_of_validated {backend : Backend} {current : List Migration}
    (h : Validated backend current) :
    (current.find? fun item => !backend.validateMigration item.sql) = none := by
  rw [List.find?_eq_none]
  intro item hi
  simp [h item hi]

/-- A run on a source that was read and validated, whose transaction begins and fails. -/
theorem applyMigrations_error {c : Collation} {backend : Backend} {db : Db} {run : Run}
    {current : List Migration} {err : MigrationError}
    (hread : readMigrations backend.sha256 run.moduleID run.source = .ok current)
    (hv : Validated backend current) (hf : run.fate.fails 0 = false)
    (hop : operation c backend run.fate (String.ofList run.moduleID.runes) current ⟨db, 1⟩ =
      .error err) : applyMigrations c backend db run = (db, .error err) := by
  simp only [applyMigrations, hread, find_of_validated hv, hf, Bool.false_eq_true, if_false, hop]

theorem applyMigrations_ok {c : Collation} {backend : Backend} {db : Db} {run : Run}
    {current : List Migration} {s : Session}
    (hread : readMigrations backend.sha256 run.moduleID run.source = .ok current)
    (hv : Validated backend current) (hf : run.fate.fails 0 = false)
    (hop : operation c backend run.fate (String.ofList run.moduleID.runes) current ⟨db, 1⟩ = .ok s)
    (hack : run.fate.commit = .acknowledged) :
    applyMigrations c backend db run = (s.db, .ok ()) := by
  simp only [applyMigrations, hread, find_of_validated hv, hf, Bool.false_eq_true, if_false, hop,
    hack]

theorem success_of_run {c : Collation} {backend : Backend} {db : Db} {run : Run} (hr : Recorded db)
    (h : (applyMigrations c backend db run).2 = .ok ()) : ∃ current,
    readMigrations backend.sha256 run.moduleID run.source = .ok current ∧
    history db (String.ofList run.moduleID.runes) <+: keys current ∧
    history (applyMigrations c backend db run).1 (String.ofList run.moduleID.runes) = keys current ∧
    Extended db (applyMigrations c backend db run).1 (String.ofList run.moduleID.runes)
      (current.drop (history db (String.ofList run.moduleID.runes)).length) := by
  rcases applyMigrations_cases c backend db run with ⟨err, he⟩ | ⟨current, s, hread, hop, he⟩
  · rw [he] at h
    cases h
  · obtain ⟨hp, hext⟩ := operation_ok hr (declared_of_readMigrations hread) hop
    rcases he with he | ⟨-, he⟩
    · rw [he]
      exact ⟨current, hread, hp, history_of_extended hp hext, hext⟩
    · rw [he] at h
      cases h

theorem failure_of_run {c : Collation} {backend : Backend} {db : Db} {run : Run}
    {err : MigrationError} (hc : run.fate.commit ≠ .unacknowledged)
    (h : (applyMigrations c backend db run).2 = .error err) :
    (applyMigrations c backend db run).1 = db := by
  rcases applyMigrations_cases c backend db run with ⟨err, he⟩ | ⟨current, s, -, -, he | ⟨hl, -⟩⟩
  · rw [he]
  · rw [he] at h
    cases h
  · exact absurd hl hc

/-- A run on a source that extends a history listed in order. -/
theorem isHistory_of_run {c : Collation} {backend : Backend} {db : Db} {run : Run}
    {current : List Migration} {err : MigrationError} (hr : Recorded db)
    (hread : readMigrations backend.sha256 run.moduleID run.source = .ok current)
    (hp : Validated backend current →
      listed db c (String.ofList run.moduleID.runes) <+: keys current)
    (h : (applyMigrations c backend db run).2 = .error err) : isHistory err = false := by
  unfold applyMigrations at h
  rw [hread] at h
  simp only at h
  split at h
  · cases h
    rfl
  next hfind =>
    have hv : Validated backend current := by
      intro item hi
      have := List.find?_eq_none.mp hfind item hi
      simpa using this
    split_ifs at h
    · cases h
      rfl
    · split at h
      next hop =>
        cases h
        exact isHistory_of_operation hr (hp hv) hop
      · split at h
        · cases h
        · cases h
          rfl
        · cases h
          rfl

theorem meets_of_listsInOrder {c : Collation} {backend : Backend} {db : Db} {run : Run}
    (hr : Recorded db) (hc : run.fate.commit ≠ .unacknowledged)
    (h : ListsInOrder c backend db run.moduleID run.source) : Meets c backend db run := by
  refine ⟨?_, success_of_run hr, fun err => failure_of_run hc, ?_⟩
  · intro m
    have hnew : Recorded (applyMigrations c backend db run).1 := recorded_applyMigrations hr run
    rw [hnew.schema m]
    exact hnew.ascending m
  · intro current hread hp
    have hd := declared_of_readMigrations hread
    have hlist : Validated backend current →
        listed db c (String.ofList run.moduleID.runes) <+: keys current :=
      fun hv => (listed_prefix_iff hr hd.ascending hp).mpr (h current hread hv hp)
    refine ⟨fun err => isHistory_of_run hr hread hlist, ?_⟩
    intro hv hf hack
    obtain ⟨s', hop⟩ : ∃ s', operation c backend run.fate (String.ofList run.moduleID.runes) current
        ⟨db, 1⟩ = .ok s' := operation_proceeds hr hf hd (hlist hv)
    rw [applyMigrations_ok hread hv (hf 0) hop hack]

/-- The statements of a run do not know how it will commit. -/
theorem applyPending_congr {fate fate' : Fate} (h : fate.fails = fate'.fails) (moduleID : String) :
    ∀ (items : List Migration) (s : Session),
      applyPending fate moduleID items s = applyPending fate' moduleID items s
  | [], _ => rfl
  | item :: rest, s => by
    simp only [applyPending, Session.statement, h, applyPending_congr h moduleID rest]

theorem operation_congr {c : Collation} {backend : Backend} {fate fate' : Fate}
    (h : fate.fails = fate'.fails) (moduleID : String) (current : List Migration) (s : Session) :
    operation c backend fate moduleID current s = operation c backend fate' moduleID current s := by
  simp only [operation, Session.statement, h, applyPending_congr h]

theorem applyMigrations_unacknowledged {c : Collation} {backend : Backend} (db : Db)
    (moduleID : GoString) (source : Source) (fails : ℕ → Bool) :
    (applyMigrations c backend db ⟨moduleID, source, fails, .unacknowledged⟩).1 =
      (applyMigrations c backend db ⟨moduleID, source, fails, .acknowledged⟩).1 := by
  have hop : ∀ current, operation c backend ⟨fails, .unacknowledged⟩
      (String.ofList moduleID.runes) current ⟨db, 1⟩ =
      operation c backend ⟨fails, .acknowledged⟩ (String.ofList moduleID.runes) current
        ⟨db, 1⟩ := by
    intro current
    apply operation_congr
    rfl
  unfold applyMigrations
  simp only [hop]
  split
  · rfl
  · split
    · rfl
    · split_ifs
      · rfl
      · split <;> rfl

/-- **The contract of `ApplyMigrations`.** After every sequence of runs, of any modules and with any
faults, the next run meets what it owes, whatever fails in it, exactly when the database lists the ids it
compares in the order of Go. A commit whose acknowledgement gets lost reports a failure and leaves
the database of the success. -/
theorem migrations_contract (c : Collation) (backend : Backend) (runs : List Run)
    (moduleID : GoString) (source : Source) :
    ((∀ fate : Fate, fate.commit ≠ .unacknowledged →
        Meets c backend (after c backend runs) ⟨moduleID, source, fate⟩) ↔
      ListsInOrder c backend (after c backend runs) moduleID source) ∧
    ∀ fails, (applyMigrations c backend (after c backend runs)
        ⟨moduleID, source, fails, .unacknowledged⟩).1 =
      (applyMigrations c backend (after c backend runs)
        ⟨moduleID, source, fails, .acknowledged⟩).1 := by
  have hr := recorded_after c backend runs
  refine ⟨⟨?_, fun h fate hc => meets_of_listsInOrder hr hc h⟩, ?_⟩
  · intro h current hread hv hp
    have hd := declared_of_readMigrations hread
    have hf : Faultless ⟨fun _ => false, .acknowledged⟩ := fun _ => rfl
    by_contra hn
    have hl := (listed_prefix_iff hr hd.ascending hp).not.mpr hn
    obtain ⟨err, hop, herr⟩ := @operation_refused c backend ⟨fun _ => false, .acknowledged⟩
      (String.ofList moduleID.runes) current ⟨after c backend runs, 1⟩ hr hf hl
    have hmeets := h ⟨fun _ => false, .acknowledged⟩ (by simp)
    have hfail := (hmeets.accepts current hread hp).1 err (by
      rw [applyMigrations_error hread hv (hf 0) hop])
    rw [herr] at hfail
    cases hfail
  · intro fails
    exact applyMigrations_unacknowledged _ moduleID source fails

/-! ### A collation that looks at punctuation last -/

/-- SHA-256, on the files below. -/
def sampleDigest (data : GoString) : String :=
  if data = .utf8 "CREATE TABLE a ()" then
    "ba7711987df3a9e6735016fe894f4400b3af5159cb4525de4f608072d6b47e72"
  else if data = .utf8 "CREATE TABLE b ()" then
    "4ffc616b49a1f42377f4d0385882ebbcfe31f7f1529c8febe278cff60ec4aee7"
  else "e3b0c44298fc1c149afbf4c8996fb92427ae41e4649b934ca495991b7852b855"

/-- A backend with the gate and the limit of the PostgreSQL one. -/
def sampleBackend : Backend where
  validateMigration sql := (Sql.Gates.validateMigrationScript sql 1048576).toOption.isSome
  locks := true
  sha256 := sampleDigest
  sha256_length data := by
    unfold sampleDigest
    split_ifs <;> decide

/-- Two files whose names differ in an underscore, and nothing fails. -/
def sampleRun : Run where
  moduleID := .utf8 "orders"
  source := some [some ⟨.utf8 "a_b.sql", false, some (.utf8 "CREATE TABLE a ()")⟩,
    some ⟨.utf8 "aa.sql", false, some (.utf8 "CREATE TABLE b ()")⟩]
  fate := ⟨fun _ => false, .acknowledged⟩

/-- The migrations of these files. -/
def sampleMigrations : List Migration :=
  [⟨"orders/a_b.sql", "sha256:" ++ sampleDigest (.utf8 "CREATE TABLE a ()"),
      .utf8 "CREATE TABLE a ()"⟩,
    ⟨"orders/aa.sql", "sha256:" ++ sampleDigest (.utf8 "CREATE TABLE b ()"),
      .utf8 "CREATE TABLE b ()"⟩]

/-- **The second start fails on an unchanged source.** -/
theorem unchanged_source_refused :
    (applyMigrations punctuationLast sampleBackend .empty sampleRun).2 = .ok () ∧
    (applyMigrations punctuationLast sampleBackend
      (after punctuationLast sampleBackend [sampleRun]) sampleRun).2 =
        .error (.notPrefix "orders/aa.sql" 1 "orders/a_b.sql") ∧
    ¬ Meets punctuationLast sampleBackend (after punctuationLast sampleBackend [sampleRun])
      sampleRun := by
  have hsecond : (applyMigrations punctuationLast sampleBackend
      (after punctuationLast sampleBackend [sampleRun]) sampleRun).2 =
        .error (.notPrefix "orders/aa.sql" 1 "orders/a_b.sql") := by decide +kernel
  refine ⟨by decide +kernel, hsecond, ?_⟩
  intro h
  have hread : readMigrations sampleBackend.sha256 sampleRun.moduleID sampleRun.source =
      .ok sampleMigrations := by decide +kernel
  have hp : history (after punctuationLast sampleBackend [sampleRun])
      (String.ofList sampleRun.moduleID.runes) <+: keys sampleMigrations := by decide +kernel
  have := (h.accepts _ hread hp).1 _ hsecond
  cases this

end Modary.Database.Evolution
