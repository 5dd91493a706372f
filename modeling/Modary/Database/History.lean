import Mathlib.Data.List.Lex
import Modary.Database.Migrations

/-! # The history of a module

What `readMigrations` accepts, what the transaction of a run does to the registry, and the invariant
that every sequence of runs keeps: one row for each migration whose SQL was committed, in the order
of the file names. -/

namespace Modary.Database.History

open Modary.Lib.GoText Modary.Lib.Sorting Modary.Lib.TextOrder Modary.Database.Migrations

/-! ### What is recorded -/

/-- The ids and checksums of migrations. -/
def keys (migrations : List Migration) : List (String × String) :=
  migrations.map fun item => (item.id, item.checksum)

/-- The rows of a module, in the order they were inserted. -/
def rowsOf (db : Db) (moduleID : String) : List Row :=
  db.rows.filter fun row => row.moduleID = moduleID

/-- The recorded history of a module. -/
def history (db : Db) (moduleID : String) : List (String × String) :=
  (rowsOf db moduleID).map fun row => (row.migrationID, row.checksum)

/-- The migrations whose SQL was committed for a module. -/
def schemaOf (db : Db) (moduleID : String) : List Migration :=
  (db.schema.filter fun executed => executed.moduleID = moduleID).map Executed.migration

/-- Migrations in strictly ascending order of their ids: file names under one module. -/
def Ascending (entries : List (String × String)) : Prop :=
  (entries.map Prod.fst).Pairwise (· < ·)

/-- What every sequence of runs keeps. -/
structure Recorded (db : Db) : Prop where
  schema : ∀ m, keys (schemaOf db m) = history db m
  ascending : ∀ m, Ascending (history db m)
  bounded : ∀ m, (history db m).length ≤ maxMigrationFiles
  named : ∀ row ∈ db.rows, '/' ∉ row.moduleID.toList ∧
    ∃ name, row.migrationID = row.moduleID ++ "/" ++ name

/-! ### Sources -/

/-- What `readMigrations` accepts. -/
structure Declared (backend : Backend) (moduleID : String) (current : List Migration) : Prop where
  slashless : '/' ∉ moduleID.toList
  module_le : byteLength moduleID.toList ≤ 63
  ascending : Ascending (keys current)
  bounded : current.length ≤ maxMigrationFiles
  items : ∀ item ∈ current, (∃ name, item.id = moduleID ++ "/" ++ name) ∧
    byteLength item.id.toList ≤ maxAppliedMigrationIDBytes ∧
    byteLength item.checksum.toList ≤ maxMigrationChecksumBytes

theorem byteLength_append (a b : List Char) : byteLength (a ++ b) = byteLength a + byteLength b := by
  simp [byteLength]

theorem byteLength_eq_length {s : List Char} (h : ∀ c ∈ s, c.utf8Size = 1) :
    byteLength s = s.length := by
  induction s with
  | nil => rfl
  | cons c s ih =>
    have hc := h c List.mem_cons_self
    have hs := ih fun d hd => h d (List.mem_cons_of_mem _ hd)
    simp only [byteLength, List.map_cons, List.sum_cons, List.length_cons] at hs ⊢
    omega

/-- The files `readEntries` returns have valid names, each of which it met once. -/
theorem readEntries_ok : ∀ {seen : List GoString} {entries : List (Option Entry)}
    {files : List (String × Option GoString)}, readEntries seen entries = .ok files →
    files.length ≤ entries.length ∧ (files.map Prod.fst).Nodup ∧
      ∀ file ∈ files, GoString.utf8 file.1 ∉ seen ∧
        byteLength file.1.toList ≤ maxMigrationNameBytes
  | _, [], files, h => by
    cases h
    simp
  | _, none :: _, _, h => by cases h
  | seen, some entry :: rest, files, h => by
    obtain ⟨_, hvalid, h⟩ := bind_eq_ok.mp h
    obtain ⟨_, hseen, h⟩ := bind_eq_ok.mp h
    obtain ⟨_, -, h⟩ := bind_eq_ok.mp h
    obtain ⟨more, hmore, h⟩ := bind_eq_ok.mp h
    obtain ⟨hlen, hnd, hfiles⟩ := readEntries_ok hmore
    have hvalid := refuseIf_eq_ok.mp hvalid
    have hseen := refuseIf_eq_ok.mp hseen
    obtain ⟨text, htext⟩ : ∃ text, entry.name = .utf8 text := by
      cases hn : entry.name with
      | utf8 text => exact ⟨text, rfl⟩
      | raw units => simp [validName, hn, GoString.validString] at hvalid
    have hname : String.ofList entry.name.runes = text := by
      rw [htext]
      exact String.ofList_toList
    have hbytes : byteLength text.toList ≤ maxMigrationNameBytes := by
      simp only [validName, htext, Bool.not_eq_false, Bool.and_eq_true, decide_eq_true_eq] at hvalid
      exact hvalid.1.1.1.2
    have hlater : ∀ file ∈ more, GoString.utf8 file.1 ∉ seen ∧
        byteLength file.1.toList ≤ maxMigrationNameBytes := by
      intro file hf
      obtain ⟨hs, hb⟩ := hfiles file hf
      exact ⟨fun hm => hs (List.mem_cons_of_mem _ hm), hb⟩
    rw [hname] at h
    split_ifs at h
    · obtain rfl := Except.ok.inj h
      refine ⟨by simpa using hlen, ?_, ?_⟩
      · rw [List.map_cons, List.nodup_cons]
        refine ⟨?_, hnd⟩
        intro hm
        obtain ⟨file, hf, he⟩ := List.mem_map.mp hm
        have he : file.1 = text := he
        refine (hfiles file hf).1 ?_
        rw [he, htext]
        exact List.mem_cons_self
      · intro file hf
        rcases List.mem_cons.mp hf with rfl | hf
        · exact ⟨htext ▸ hseen, hbytes⟩
        · exact hlater file hf
    · obtain rfl := Except.ok.inj h
      exact ⟨by simp only [List.length_cons]; omega, hnd, hlater⟩

/-- The migrations `readFiles` returns, one for each file. -/
theorem readFiles_ok {sha256 : GoString → String} {moduleID : String} : ∀ {total : ℕ}
    {files : List (String × Option GoString)} {current : List Migration},
    readFiles sha256 moduleID total files = .ok current →
    current.map Migration.id = files.map (fun file => moduleID ++ "/" ++ file.1) ∧
      ∀ item ∈ current, ∃ data, item.checksum = "sha256:" ++ sha256 data
  | _, [], _, h => by
    cases h
    simp
  | total, (name, none) :: rest, current, h => by cases h
  | total, (name, some data) :: rest, current, h => by
    obtain ⟨_, -, h⟩ := bind_eq_ok.mp h
    obtain ⟨_, -, h⟩ := bind_eq_ok.mp h
    obtain ⟨_, -, h⟩ := bind_eq_ok.mp h
    obtain ⟨more, hmore, h⟩ := bind_eq_ok.mp h
    obtain rfl := Except.ok.inj h
    obtain ⟨hids, hsums⟩ := readFiles_ok hmore
    refine ⟨by simp [hids], ?_⟩
    intro item hm
    rcases List.mem_cons.mp hm with rfl | hm
    · exact ⟨data, rfl⟩
    · exact hsums item hm

theorem matchToken_forall {head tail : Char → Bool} {n : ℕ} {s : List Char}
    (h : matchToken head tail n s = true) :
    (∀ c ∈ s, head c = true ∨ tail c = true) ∧ s.length ≤ n + 1 := by
  cases s with
  | nil => simp
  | cons c cs =>
    simp only [matchToken, Bool.and_eq_true, List.all_eq_true, decide_eq_true_eq] at h
    refine ⟨?_, by simp only [List.length_cons]; omega⟩
    intro d hd
    rcases List.mem_cons.mp hd with rfl | hd
    · exact Or.inl h.1.1
    · exact Or.inr (h.1.2 d hd)

/-- A character of a module id. -/
theorem ascii_of_token {c : Char} (h : (isLower c || isDigit c || c == '-') = true) :
    c.utf8Size = 1 ∧ c ≠ '/' := by
  constructor
  · rw [Char.utf8Size_eq_one_iff, UInt32.le_iff_toNat_le]
    simp only [isLower, isDigit, Bool.or_eq_true, Bool.and_eq_true, decide_eq_true_eq, beq_iff_eq,
      Char.le_def, UInt32.le_iff_toNat_le] at h
    rcases h with (⟨-, h⟩ | ⟨-, h⟩) | rfl
    · exact h.trans (by decide)
    · exact h.trans (by decide)
    · decide
  · rintro rfl
    exact absurd h (by decide)

theorem id_lt_id {moduleID a b : String} (h : a < b) :
    moduleID ++ "/" ++ a < moduleID ++ "/" ++ b := by
  rw [String.lt_iff_toList_lt] at h ⊢
  simp only [String.toList_append]
  exact List.append_left_lt h

/-- **The source of a module**: distinct names in byte order, within the bounds of the registry. -/
theorem declared_of_readMigrations {backend : Backend} {moduleID : GoString} {source : Source}
    {current : List Migration}
    (h : readMigrations backend.sha256 moduleID source = .ok current) :
    Declared backend (String.ofList moduleID.runes) current := by
  obtain ⟨_, hpattern, h⟩ := bind_eq_ok.mp h
  have hpattern : migrationModuleIDPattern moduleID = true := by
    simpa using refuseIf_eq_ok.mp hpattern
  obtain ⟨hchars, hlength⟩ := matchToken_forall hpattern
  have hascii : ∀ c ∈ moduleID.runes, c.utf8Size = 1 ∧ c ≠ '/' := by
    intro c hc
    refine ascii_of_token ?_
    rcases hchars c hc with hl | ht
    · simp [hl]
    · exact ht
  cases source with
  | none => cases h
  | some entries =>
    obtain ⟨_, hmany, h⟩ := bind_eq_ok.mp h
    obtain ⟨files, hfiles, h⟩ := bind_eq_ok.mp h
    obtain ⟨_, -, h⟩ := bind_eq_ok.mp h
    obtain ⟨hlen, hnd, hnames⟩ := readEntries_ok hfiles
    obtain ⟨hids, hsums⟩ := readFiles_ok h
    have hmany := refuseIf_eq_ok.mp hmany
    have hperm := sortOn_perm (fun file : String × Option GoString => file.1.toList) files
    have hbytes : byteLength moduleID.runes ≤ 63 := by
      rw [byteLength_eq_length fun c hc => (hascii c hc).1]
      exact hlength
    have hcount : current.length = files.length := by
      have := congrArg List.length hids
      rw [List.length_map, List.length_map, hperm.length_eq] at this
      exact this
    refine ⟨?_, ?_, ?_, by omega, ?_⟩
    · rw [String.toList_ofList]
      exact fun hm => (hascii '/' hm).2 rfl
    · rw [String.toList_ofList]
      exact hbytes
    · have hstrict : (sortOn (fun file : String × Option GoString => file.1.toList) files).Pairwise
          fun a b => a.1 < b.1 := by
        have hle := sortOn_ascending (fun file : String × Option GoString => file.1.toList) files
        have hne : (sortOn (fun file : String × Option GoString => file.1.toList) files).Pairwise
            fun a b => a.1 ≠ b.1 :=
          List.pairwise_map.mp ((hperm.map Prod.fst).nodup_iff.mpr hnd)
        refine (hle.and hne).imp ?_
        rintro a b ⟨hab, hn⟩
        rw [String.lt_iff_toList_lt]
        exact lt_of_le_of_ne hab fun he => hn (String.toList_injective he)
      have hkeys : (keys current).map Prod.fst = current.map Migration.id := by
        simp [keys, Function.comp_def]
      rw [Ascending, hkeys, hids, List.pairwise_map]
      exact hstrict.imp id_lt_id
    · intro item hm
      have hid : item.id ∈ current.map Migration.id := List.mem_map_of_mem hm
      rw [hids] at hid
      obtain ⟨file, hf, he⟩ := List.mem_map.mp hid
      have hname := (hnames file (hperm.mem_iff.mp hf)).2
      obtain ⟨data, hsum⟩ := hsums item hm
      refine ⟨⟨file.1, he.symm⟩, ?_, ?_⟩
      · rw [← he, String.toList_append, String.toList_append, byteLength_append, byteLength_append,
          String.toList_ofList]
        have hslash : byteLength "/".toList = 1 := by decide
        have : maxAppliedMigrationIDBytes = 63 + 1 + maxMigrationNameBytes := rfl
        omega
      · rw [hsum, String.toList_append, byteLength_append, backend.sha256_length]
        decide

/-! ### The transaction -/

/-- The database after these migrations of a module. -/
structure Extended (db db' : Db) (moduleID : String) (items : List Migration) : Prop where
  history : history db' moduleID = history db moduleID ++ keys items
  schema : schemaOf db' moduleID = schemaOf db moduleID ++ items
  others : ∀ m, m ≠ moduleID → History.history db' m = History.history db m ∧
    schemaOf db' m = schemaOf db m
  rows : ∀ row ∈ db'.rows, row ∈ db.rows ∨
    row.moduleID = moduleID ∧ ∃ item ∈ items, item.id = row.migrationID

theorem Extended.refl {db : Db} {moduleID : String} : Extended db db moduleID [] :=
  ⟨by simp [keys], by simp, fun _ _ => ⟨rfl, rfl⟩, fun _ h => Or.inl h⟩

theorem insert_rows {db db' : Db} {moduleID : String} {item : Migration}
    (h : db.insert moduleID item = some db') :
    db'.schema = db.schema ∧ ∃ row : Row, db'.rows = db.rows ++ [row] ∧
      row.migrationID = item.id ∧ row.moduleID = moduleID ∧ row.checksum = item.checksum := by
  unfold Db.insert at h
  split at h
  · cases h
  next registry hr =>
    split_ifs at h with hc
    obtain rfl := Option.some.inj h
    refine ⟨rfl, ⟨item.id, moduleID, item.checksum, hc.1.1, hc.1.2.1, hc.1.2.2⟩, ?_, rfl, rfl, rfl⟩
    simp [Db.rows, hr, Registry.append]

/-- One migration: its SQL and its row. -/
theorem extended_insert {db db' : Db} {moduleID : String} {item : Migration}
    (h : ({ db with schema := db.schema ++ [(⟨moduleID, item⟩ : Executed)] } : Db).insert moduleID
      item = some db') :
    Extended db db' moduleID [item] := by
  obtain ⟨hschema, row, hrows, hid, hmod, hsum⟩ := insert_rows h
  have hrows : db'.rows = db.rows ++ [row] := hrows
  refine ⟨?_, ?_, ?_, ?_⟩
  · simp [history, rowsOf, hrows, List.filter_append, hmod, keys, hid, hsum]
  · simp [schemaOf, hschema, List.filter_append]
  · intro m hm
    constructor
    · simp [history, rowsOf, hrows, List.filter_append, hmod, Ne.symm hm]
    · simp [schemaOf, hschema, List.filter_append, Ne.symm hm]
  · intro r hr
    rw [hrows] at hr
    rcases List.mem_append.mp hr with hr | hr
    · exact Or.inl hr
    · obtain rfl := List.mem_singleton.mp hr
      exact Or.inr ⟨hmod, item, List.mem_singleton_self _, hid.symm⟩

theorem Extended.trans {a b d : Db} {moduleID : String} {items more : List Migration}
    (h₁ : Extended a b moduleID items) (h₂ : Extended b d moduleID more) :
    Extended a d moduleID (items ++ more) := by
  refine ⟨?_, ?_, ?_, ?_⟩
  · rw [h₂.history, h₁.history]
    simp [keys]
  · rw [h₂.schema, h₁.schema, List.append_assoc]
  · intro m hm
    exact ⟨(h₂.others m hm).1.trans (h₁.others m hm).1, (h₂.others m hm).2.trans (h₁.others m hm).2⟩
  · intro row hr
    rcases h₂.rows row hr with hr | ⟨hm, item, hi, he⟩
    · rcases h₁.rows row hr with hr | ⟨hm, item, hi, he⟩
      · exact Or.inl hr
      · exact Or.inr ⟨hm, item, List.mem_append_left _ hi, he⟩
    · exact Or.inr ⟨hm, item, List.mem_append_right _ hi, he⟩

theorem statement_ok {s s' : Session} {fate : Fate} {failure : MigrationError}
    (h : s.statement fate failure = .ok s') : s'.db = s.db := by
  obtain ⟨_, -, h⟩ := bind_eq_ok.mp h
  obtain rfl := Except.ok.inj h
  rfl

/-- The loop over the pending migrations applies all of them. -/
theorem applyPending_ok {fate : Fate} {moduleID : String} : ∀ {items : List Migration}
    {s s' : Session}, applyPending fate moduleID items s = .ok s' →
    Extended s.db s'.db moduleID items
  | [], s, s', h => by
    obtain rfl := Except.ok.inj h
    exact .refl
  | item :: rest, s, s', h => by
    obtain ⟨s₁, h₁, h⟩ := bind_eq_ok.mp h
    obtain ⟨s₂, h₂, h⟩ := bind_eq_ok.mp h
    have hd₁ := statement_ok h₁
    have hd₂ := statement_ok h₂
    cases hi : s₂.db.insert moduleID item with
    | none =>
      rw [hi] at h
      cases h
    | some db =>
      rw [hi] at h
      rw [hd₂, hd₁] at hi
      exact (extended_insert hi).trans (applyPending_ok h)

@[simp] theorem history_createRegistry (db : Db) (m : String) :
    history db.createRegistry m = history db m := by
  cases hr : db.registry <;> simp [history, rowsOf, Db.rows, Db.createRegistry, hr]

@[simp] theorem schemaOf_createRegistry (db : Db) (m : String) :
    schemaOf db.createRegistry m = schemaOf db m := rfl

@[simp] theorem rows_createRegistry (db : Db) : db.createRegistry.rows = db.rows := by
  cases hr : db.registry <;> simp [Db.rows, Db.createRegistry, hr]

/-! ### The history check -/

/-- The recorded rows as the database lists them. -/
def listed (db : Db) (c : Collation) (moduleID : String) : List (String × String) :=
  ((rowsOf db moduleID).insertionSort (rowLe c)).map fun row => (row.migrationID, row.checksum)

theorem listed_perm (db : Db) (c : Collation) (m : String) :
    (listed db c m).Perm (history db m) :=
  (List.perm_insertionSort _ _).map _

theorem readApplied_selectApplied {db : Db} (h : Recorded db) (c : Collation) (m : String) :
    readApplied (db.selectApplied c m) = .ok (listed db c m) := by
  have hlen : ((rowsOf db m).insertionSort (rowLe c)).length ≤ maxMigrationFiles := by
    have := h.bounded m
    rw [List.length_insertionSort]
    simpa [history] using this
  have htake : db.selectApplied c m = (rowsOf db m).insertionSort (rowLe c) := by
    show ((rowsOf db m).insertionSort (rowLe c)).take (maxMigrationFiles + 1) = _
    exact List.take_of_length_le (by omega)
  have hmany : ¬ maxMigrationFiles < ((rowsOf db m).insertionSort (rowLe c)).length := by omega
  have hsize : ¬ ∃ row ∈ (rowsOf db m).insertionSort (rowLe c),
      maxAppliedMigrationIDBytes < byteLength row.migrationID.toList ∨
        maxMigrationChecksumBytes < byteLength row.checksum.toList := by
    rintro ⟨row, -, hid | hsum⟩
    · exact absurd row.id_le (by omega)
    · exact absurd row.checksum_le (by omega)
  rw [htake, readApplied]
  simp only [refuseIf_eq_ok.mpr hmany, refuseIf_eq_ok.mpr hsize]
  rfl

/-- The comparison passes exactly on a prefix. -/
theorem checkHistory_eq_ok : ∀ {index : ℕ} {applied : List (String × String)}
    {current : List Migration}, checkHistory index applied current = .ok () ↔
      applied <+: keys current
  | _, [], _ => by simp [checkHistory]
  | _, _ :: _, [] => by simp [checkHistory, keys]
  | index, (id, sum) :: applied, declared :: current => by
    rw [checkHistory, bind_eq_ok]
    simp only [keys, List.map_cons, List.cons_prefix_cons, Prod.mk.injEq]
    constructor
    · rintro ⟨_, hid, h⟩
      obtain ⟨_, hsum, h⟩ := bind_eq_ok.mp h
      have hid := refuseIf_eq_ok.mp hid
      have hsum := refuseIf_eq_ok.mp hsum
      exact ⟨⟨by simpa using hid, by simpa using hsum⟩, checkHistory_eq_ok.mp h⟩
    · rintro ⟨⟨hid, hsum⟩, h⟩
      refine ⟨(), refuseIf_eq_ok.mpr (by simp [hid]), bind_eq_ok.mpr ⟨(), ?_, ?_⟩⟩
      · exact refuseIf_eq_ok.mpr (by simp [hsum])
      · exact checkHistory_eq_ok.mpr h

theorem checkHistory_ne {index : ℕ} {applied : List (String × String)} {current : List Migration}
    (h : ¬ applied <+: keys current) :
    ∃ err, checkHistory index applied current = .error err := by
  cases hc : checkHistory index applied current with
  | error err => exact ⟨err, rfl⟩
  | ok u => exact absurd (checkHistory_eq_ok.mp hc) h

/-- Two lists in ascending order with the same entries. -/
theorem Ascending.eq_of_perm {a b : List (String × String)} (ha : Ascending a) (hb : Ascending b)
    (h : a.Perm b) : a = b := by
  refine h.eq_of_pairwise ?_ (List.pairwise_map.mp ha) (List.pairwise_map.mp hb)
  intro x y _ _ hxy hyx
  exact absurd hxy (lt_asymm hyx)

theorem Ascending.of_prefix {a b : List (String × String)} (hb : Ascending b) (h : a <+: b) :
    Ascending a :=
  hb.sublist (h.sublist.map _)

/-- A listing that passes the comparison is the history, in the order it was recorded. -/
theorem listed_eq_history {db : Db} {c : Collation} {m : String} {current : List Migration}
    (hr : Recorded db) (ha : Ascending (keys current)) (h : listed db c m <+: keys current) :
    listed db c m = history db m :=
  (ha.of_prefix h).eq_of_perm (hr.ascending m) (listed_perm db c m)

/-- The database lists the recorded ids in the order of Go. -/
def InOrder (c : Collation) (db : Db) (moduleID : String) : Prop :=
  ((history db moduleID).map Prod.fst).Pairwise c.le

theorem inOrder_iff_listed {db : Db} {c : Collation} {m : String} :
    InOrder c db m ↔ listed db c m = history db m := by
  have hids : InOrder c db m ↔ (rowsOf db m).Pairwise (rowLe c) := by
    simp only [InOrder, history, List.map_map, List.pairwise_map]
    rfl
  constructor
  · intro h
    rw [listed, (hids.mp h).insertionSort_eq, history]
  · intro h
    have : Std.Total (rowLe c) := ⟨fun a b => c.total a.migrationID b.migrationID⟩
    have : IsTrans Row (rowLe c) :=
      ⟨fun a b d => c.trans a.migrationID b.migrationID d.migrationID⟩
    have hsorted := List.pairwise_insertionSort (rowLe c) (rowsOf db m)
    rw [InOrder, ← h, listed, List.map_map, List.pairwise_map]
    exact hsorted

/-- A history that is a prefix of the source passes when the database lists it in order. -/
theorem listed_prefix_iff {db : Db} {c : Collation} {m : String} {current : List Migration}
    (hr : Recorded db) (ha : Ascending (keys current)) (h : history db m <+: keys current) :
    listed db c m <+: keys current ↔ InOrder c db m := by
  rw [inOrder_iff_listed]
  constructor
  · exact listed_eq_history hr ha
  · intro he
    rwa [he]

/-! ### The operation -/

theorem lock_ok {backend : Backend} {fate : Fate} {s s' : Session}
    (h : (if backend.locks then s.statement fate .lock else .ok s) = .ok s') : s'.db = s.db := by
  split_ifs at h
  · exact statement_ok h
  · obtain rfl := Except.ok.inj h
    rfl

@[simp] theorem listed_createRegistry (db : Db) (c : Collation) (m : String) :
    listed db.createRegistry c m = listed db c m := by
  simp [listed, rowsOf]

theorem recorded_createRegistry {db : Db} (h : Recorded db) : Recorded db.createRegistry := by
  refine ⟨?_, ?_, ?_, ?_⟩
  · simpa using h.schema
  · simpa using h.ascending
  · simpa using h.bounded
  · simpa using h.named

theorem Extended.of_createRegistry {db db' : Db} {moduleID : String} {items : List Migration}
    (h : Extended db.createRegistry db' moduleID items) : Extended db db' moduleID items := by
  refine ⟨by simpa using h.history, by simpa using h.schema, ?_, by simpa using h.rows⟩
  simpa using h.others

/-- **An operation that succeeds** found the history to be a prefix of the source, and applied the
rest. -/
theorem operation_ok {c : Collation} {backend : Backend} {fate : Fate} {moduleID : String}
    {current : List Migration} {s s' : Session} (hr : Recorded s.db)
    (hd : Declared backend moduleID current)
    (h : operation c backend fate moduleID current s = .ok s') :
    history s.db moduleID <+: keys current ∧
      Extended s.db s'.db moduleID (current.drop (history s.db moduleID).length) := by
  simp only [operation, bind_eq_ok] at h
  obtain ⟨s₁, h₁, s₂, h₂, s₃, h₃, applied, ha, _, -, _, hcheck, h⟩ := h
  have hdb : s₃.db = s.db.createRegistry := by
    rw [statement_ok h₃]
    show s₂.db.createRegistry = _
    rw [statement_ok h₂, lock_ok h₁]
  rw [hdb, readApplied_selectApplied (recorded_createRegistry hr), listed_createRegistry] at ha
  obtain rfl := Except.ok.inj ha
  have heq := listed_eq_history hr hd.ascending (checkHistory_eq_ok.mp hcheck)
  rw [heq] at hcheck h
  have hext := applyPending_ok h
  rw [hdb] at hext
  exact ⟨checkHistory_eq_ok.mp hcheck, hext.of_createRegistry⟩

/-- The history of an extended database is the source. -/
theorem history_of_extended {db db' : Db} {moduleID : String} {current : List Migration}
    (hp : history db moduleID <+: keys current)
    (h : Extended db db' moduleID (current.drop (history db moduleID).length)) :
    history db' moduleID = keys current := by
  rw [h.history]
  have := List.prefix_iff_eq_append.mp hp
  rwa [keys, ← List.map_drop] at this

/-- One run keeps the invariant. -/
theorem recorded_of_extended {backend : Backend} {db db' : Db} {moduleID : String}
    {current : List Migration} (hr : Recorded db) (hd : Declared backend moduleID current)
    (hp : history db moduleID <+: keys current)
    (h : Extended db db' moduleID (current.drop (history db moduleID).length)) : Recorded db' := by
  have hh := history_of_extended hp h
  refine ⟨?_, ?_, ?_, ?_⟩
  · intro m
    by_cases hm : m = moduleID
    · subst hm
      rw [h.schema, h.history, ← hr.schema m]
      simp [keys]
    · rw [(h.others m hm).1, (h.others m hm).2]
      exact hr.schema m
  · intro m
    by_cases hm : m = moduleID
    · subst hm
      rw [hh]
      exact hd.ascending
    · rw [(h.others m hm).1]
      exact hr.ascending m
  · intro m
    by_cases hm : m = moduleID
    · subst hm
      rw [hh]
      simpa [keys] using hd.bounded
    · rw [(h.others m hm).1]
      exact hr.bounded m
  · intro row hrow
    rcases h.rows row hrow with hold | ⟨hm, item, hi, he⟩
    · exact hr.named row hold
    · obtain ⟨name, hname⟩ := (hd.items item (List.mem_of_mem_drop hi)).1
      rw [hm]
      exact ⟨hd.slashless, name, by rw [← he, hname]⟩

/-! ### Runs -/

/-- What a run can do: nothing, or all the transaction does. -/
theorem applyMigrations_cases (c : Collation) (backend : Backend) (db : Db) (run : Run) :
    (∃ err, applyMigrations c backend db run = (db, .error err)) ∨
    ∃ current s, readMigrations backend.sha256 run.moduleID run.source = .ok current ∧
      operation c backend run.fate (String.ofList run.moduleID.runes) current ⟨db, 1⟩ = .ok s ∧
      (applyMigrations c backend db run = (s.db, .ok ()) ∨
        run.fate.commit = .unacknowledged ∧
          applyMigrations c backend db run = (s.db, .error .commit)) := by
  unfold applyMigrations
  cases hread : readMigrations backend.sha256 run.moduleID run.source with
  | error err => exact Or.inl ⟨err, rfl⟩
  | ok current =>
    simp only
    split
    · exact Or.inl ⟨_, rfl⟩
    · split_ifs
      · exact Or.inl ⟨_, rfl⟩
      · cases hop : operation c backend run.fate (String.ofList run.moduleID.runes) current
            ⟨db, 1⟩ with
        | error err => exact Or.inl ⟨err, rfl⟩
        | ok s =>
          cases hc : run.fate.commit with
          | acknowledged => exact Or.inr ⟨current, s, rfl, hop, Or.inl rfl⟩
          | refused => exact Or.inl ⟨_, rfl⟩
          | unacknowledged => exact Or.inr ⟨current, s, rfl, hop, Or.inr ⟨rfl, rfl⟩⟩

theorem recorded_applyMigrations {c : Collation} {backend : Backend} {db : Db} (hr : Recorded db)
    (run : Run) : Recorded (applyMigrations c backend db run).1 := by
  rcases applyMigrations_cases c backend db run with ⟨err, h⟩ | ⟨current, s, hread, hop, h⟩
  · rw [h]
    exact hr
  · have hd := declared_of_readMigrations hread
    obtain ⟨hp, hext⟩ := operation_ok hr hd hop
    have hnew := recorded_of_extended hr hd hp hext
    rcases h with h | ⟨-, h⟩
    · rwa [h]
    · rwa [h]

theorem recorded_empty : Recorded .empty := by
  refine ⟨?_, ?_, ?_, ?_⟩
  · intro m
    rfl
  · intro m
    exact List.Pairwise.nil
  · intro m
    exact Nat.zero_le _
  · intro row hrow
    cases hrow

/-- **The invariant holds after every sequence of runs.** -/
theorem recorded_after (c : Collation) (backend : Backend) (runs : List Run) :
    Recorded (after c backend runs) := by
  have key : ∀ db, Recorded db →
      Recorded (runs.foldl (fun db run => (applyMigrations c backend db run).1) db) := by
    induction runs with
    | nil =>
      intro db hr
      exact hr
    | cons run runs ih =>
      intro db hr
      exact ih _ (recorded_applyMigrations hr run)
  exact key _ recorded_empty

end Modary.Database.History
