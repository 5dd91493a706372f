import Modary.Lib.GoText
import Modary.Lib.Sorting
import Modary.Lib.TextOrder

/-! # Module migrations

`ApplyMigrations` reads the files of a module, compares the recorded history with them, and applies
the rest in one transaction. The files are sorted by Go, the history by the database, whose order of
text is a parameter. -/

namespace Modary.Database.Migrations

open Modary.Lib.GoText Modary.Lib.Sorting Modary.Lib.TextOrder

/-! ### Files -/

/-- `len` of a Go string. -/
def octets : GoString → ℕ
  | .utf8 s => byteLength s.toList
  | .raw units => (units.map fun unit => unit.elim Char.utf8Size fun _ => 1).sum

/-- `strings.TrimSpace`. -/
def trimmed : GoString → GoString
  | .utf8 s => .utf8 (String.ofList (trimSpace s.toList))
  | .raw units =>
    let space : Char ⊕ UInt8 → Bool := fun unit => unit.elim isSpace fun _ => false
    .raw ((units.dropWhile space).rdropWhile space)

/-- An entry of the source directory; `data` is missing when the file cannot be read. -/
structure Entry where
  name : GoString
  isDir : Bool
  data : Option GoString
  deriving DecidableEq, Repr

/-- The entries of a source, some of which may be nil; or it cannot be listed. -/
abbrev Source := Option (List (Option Entry))

/-- A declared migration. -/
structure Migration where
  id : String
  checksum : String
  sql : GoString
  deriving DecidableEq, Repr

/-- What `ApplyMigrations` fails with, with the values of its message. -/
inductive MigrationError
  | invalidModule (moduleID : GoString)
  | listing
  | tooManyEntries
  | invalidEntry
  | invalidName
  | duplicate (name : String)
  | notRegular (name : String)
  | noFiles
  | unreadable (name : String)
  | fileTooLarge (name : String)
  | sourceTooLarge
  | empty (name : String)
  | invalidSQL (id : String)
  | begin
  | lock
  | createRegistry
  | listApplied
  | tooManyApplied
  | oversized
  | removed (count : ℕ)
  | notPrefix (id : String) (position : ℕ) (found : String)
  | checksumChanged (id : String)
  | apply (id : String)
  | record (id : String)
  | commit
  deriving DecidableEq, Repr

def maxMigrationFiles : ℕ := 256
def maxMigrationFileBytes : ℕ := 2 ^ 20
def maxMigrationSetBytes : ℕ := 2 ^ 24
def maxMigrationNameBytes : ℕ := 255
def maxAppliedMigrationIDBytes : ℕ := 63 + 1 + maxMigrationNameBytes
def maxMigrationChecksumBytes : ℕ := 71

/-- `migrationModuleIDPattern`. -/
def migrationModuleIDPattern (moduleID : GoString) : Bool :=
  matchToken isLower (fun c => isLower c || isDigit c || c == '-') 62 moduleID.runes

/-- The name of a file: one valid path element of UTF-8 text. -/
def validName (name : GoString) : Bool :=
  name.validString && octets name ≤ maxMigrationNameBytes && name.runes != [] &&
    !name.runes.contains '/' && name != .utf8 ".."

/-- `path.Match("*.sql", name)`, for a name without a slash. -/
def isSQL (name : String) : Bool := ".sql".toList.isSuffixOf name.toList

/-- The loop over the directory entries, with the names met so far: the `.sql` files. -/
def readEntries : List GoString → List (Option Entry) →
    Except MigrationError (List (String × Option GoString))
  | _, [] => .ok []
  | _, none :: _ => .error .invalidEntry
  | seen, some entry :: rest => do
    refuseIf (validName entry.name = false) .invalidName
    let name := String.ofList entry.name.runes
    refuseIf (entry.name ∈ seen) (.duplicate name)
    refuseIf (isSQL name ∧ entry.isDir) (.notRegular name)
    let files ← readEntries (entry.name :: seen) rest
    .ok (if isSQL name then (name, entry.data) :: files else files)

/-- The loop over the sorted files, with the bytes read so far. A file is read one byte beyond the
smaller of its own limit and what the set has left. -/
def readFiles (sha256 : GoString → String) (moduleID : String) :
    ℕ → List (String × Option GoString) → Except MigrationError (List Migration)
  | _, [] => .ok []
  | total, (name, data) :: rest =>
    match data with
    | none => .error (.unreadable name)
    | some data => do
      let readLimit := min maxMigrationFileBytes (maxMigrationSetBytes - total)
      refuseIf (readLimit < octets data ∧ maxMigrationFileBytes < readLimit + 1)
        (.fileTooLarge name)
      refuseIf (readLimit < octets data) .sourceTooLarge
      refuseIf (trimmed data = .utf8 "") (.empty name)
      let migrations ← readFiles sha256 moduleID (total + octets data) rest
      .ok (⟨moduleID ++ "/" ++ name, "sha256:" ++ sha256 data, trimmed data⟩ :: migrations)

/-- `readMigrations`. -/
def readMigrations (sha256 : GoString → String) (moduleID : GoString) (source : Source) :
    Except MigrationError (List Migration) := do
  refuseIf (migrationModuleIDPattern moduleID = false) (.invalidModule moduleID)
  match source with
  | none => .error .listing
  | some entries => do
    refuseIf (maxMigrationFiles < entries.length) .tooManyEntries
    let files ← readEntries [] entries
    refuseIf (files = []) .noFiles
    readFiles sha256 (String.ofList moduleID.runes) 0 (sortOn (fun file => file.1.toList) files)

/-! ### The database -/

/-- A row of `modary_module_migration`, with the checks of the table. -/
structure Row where
  migrationID : String
  moduleID : String
  checksum : String
  id_le : byteLength migrationID.toList ≤ maxAppliedMigrationIDBytes
  module_le : byteLength moduleID.toList ≤ 63
  checksum_le : byteLength checksum.toList ≤ maxMigrationChecksumBytes
  deriving DecidableEq

/-- The registry: its rows in the order they were inserted, under a primary key. -/
structure Registry where
  rows : List Row
  primaryKey : (rows.map Row.migrationID).Nodup

/-- The registry with one more row. -/
def Registry.append (registry : Registry) (row : Row)
    (h : row.migrationID ∉ registry.rows.map Row.migrationID) : Registry where
  rows := registry.rows ++ [row]
  primaryKey := by
    rw [List.map_append]
    exact registry.primaryKey.append (List.nodup_singleton _) (by simpa using h)

/-- The SQL of one migration, carried out for a module. It leaves `modary_module_migration` alone. -/
structure Executed where
  moduleID : String
  migration : Migration
  deriving DecidableEq, Repr

/-- The database: the registry, once it was created, and the migrations that made the schema. -/
structure Db where
  registry : Option Registry
  schema : List Executed

/-- The rows of the registry. -/
def Db.rows (db : Db) : List Row := db.registry.elim [] Registry.rows

/-- `CREATE TABLE IF NOT EXISTS`. -/
def Db.createRegistry (db : Db) : Db :=
  { db with registry := some (db.registry.getD ⟨[], List.nodup_nil⟩) }

/-- `INSERT INTO modary_module_migration`: refused by a check or by the primary key. -/
def Db.insert (db : Db) (moduleID : String) (item : Migration) : Option Db :=
  match db.registry with
  | none => none
  | some registry =>
    if h : (byteLength item.id.toList ≤ maxAppliedMigrationIDBytes ∧
        byteLength moduleID.toList ≤ 63 ∧
        byteLength item.checksum.toList ≤ maxMigrationChecksumBytes) ∧
        item.id ∉ registry.rows.map Row.migrationID then
      some { db with registry := some (registry.append
        ⟨item.id, moduleID, item.checksum, h.1.1, h.1.2.1, h.1.2.2⟩ h.2) }
    else none

/-- The order of the rows by their id. -/
def rowLe (c : Collation) (a b : Row) : Prop := c.le a.migrationID b.migrationID

instance (c : Collation) : DecidableRel (rowLe c) := fun a b => c.dec a.migrationID b.migrationID

/-- The query of `readAppliedMigrations`. -/
def Db.selectApplied (db : Db) (c : Collation) (moduleID : String) : List Row :=
  ((db.rows.filter fun row => row.moduleID = moduleID).insertionSort (rowLe c)).take
    (maxMigrationFiles + 1)

/-- `readAppliedMigrations`: an id and a checksum for each row. -/
def readApplied (rows : List Row) : Except MigrationError (List (String × String)) := do
  refuseIf (maxMigrationFiles < rows.length) .tooManyApplied
  refuseIf (∃ row ∈ rows, maxAppliedMigrationIDBytes < byteLength row.migrationID.toList ∨
    maxMigrationChecksumBytes < byteLength row.checksum.toList) .oversized
  .ok (rows.map fun row => (row.migrationID, row.checksum))

/-- The comparison of the applied migrations with the first declared ones. -/
def checkHistory : ℕ → List (String × String) → List Migration → Except MigrationError Unit
  | _, [], _ => .ok ()
  | _, applied@(_ :: _), [] => .error (.removed applied.length)
  | index, existing :: applied, declared :: current => do
    refuseIf (existing.1 ≠ declared.id) (.notPrefix existing.1 (index + 1) declared.id)
    refuseIf (existing.2 ≠ declared.checksum) (.checksumChanged existing.1)
    checkHistory (index + 1) applied current

/-! ### One run -/

/-- What becomes of `COMMIT`; its acknowledgement can get lost after it was carried out. -/
inductive CommitReply
  | acknowledged
  | refused
  | unacknowledged
  deriving DecidableEq, Repr

/-- Which statements the database fails, by their number, and how it commits. -/
structure Fate where
  fails : ℕ → Bool
  commit : CommitReply

/-- What the control is made of: the validation and the lock of its backend, and the hexadecimal
digits of SHA-256. -/
structure Backend where
  validateMigration : GoString → Bool
  locks : Bool
  sha256 : GoString → String
  sha256_length : ∀ data, byteLength (sha256 data).toList = 64

/-- The transaction: the database as it sees it, and the number of the next statement. -/
structure Session where
  db : Db
  next : ℕ

/-- A statement succeeds or ends the operation. -/
def Session.statement (s : Session) (fate : Fate) (failure : MigrationError) :
    Except MigrationError Session := do
  refuseIf (fate.fails s.next) failure
  .ok { s with next := s.next + 1 }

/-- The loop over the pending migrations: its SQL, then its row. -/
def applyPending (fate : Fate) (moduleID : String) :
    List Migration → Session → Except MigrationError Session
  | [], s => .ok s
  | item :: rest, s => do
    let s ← s.statement fate (.apply item.id)
    let db := { s.db with schema := s.db.schema ++ [⟨moduleID, item⟩] }
    let s ← { s with db }.statement fate (.record item.id)
    match s.db.insert moduleID item with
    | none => .error (.record item.id)
    | some db => applyPending fate moduleID rest { s with db }

/-- The operation of the transaction. -/
def operation (c : Collation) (backend : Backend) (fate : Fate) (moduleID : String)
    (current : List Migration) (s : Session) : Except MigrationError Session := do
  let s ← (if backend.locks then s.statement fate .lock else .ok s)
  let s ← s.statement fate .createRegistry
  let s := { s with db := s.db.createRegistry }
  let s ← s.statement fate .listApplied
  let applied ← readApplied (s.db.selectApplied c moduleID)
  refuseIf (current.length < applied.length) (.removed (applied.length - current.length))
  checkHistory 0 applied current
  applyPending fate moduleID (current.drop applied.length) s

/-- A run: the module, its source, and what the database does. -/
structure Run where
  moduleID : GoString
  source : Source
  fate : Fate

/-- **`ApplyMigrations`.** The database after it, and its error. -/
def applyMigrations (c : Collation) (backend : Backend) (db : Db) (run : Run) :
    Db × Except MigrationError Unit :=
  match readMigrations backend.sha256 run.moduleID run.source with
  | .error err => (db, .error err)
  | .ok current =>
    match current.find? fun item => !backend.validateMigration item.sql with
    | some item => (db, .error (.invalidSQL item.id))
    | none =>
      if run.fate.fails 0 then (db, .error .begin)
      else
        match operation c backend run.fate (String.ofList run.moduleID.runes) current ⟨db, 1⟩ with
        | .error err => (db, .error err)
        | .ok s =>
          match run.fate.commit with
          | .acknowledged => (s.db, .ok ())
          | .refused => (db, .error .commit)
          | .unacknowledged => (s.db, .error .commit)

/-- A database no migration was applied to. -/
def Db.empty : Db := ⟨none, []⟩

/-- The database after a sequence of runs, of one module or of several. -/
def after (c : Collation) (backend : Backend) (runs : List Run) : Db :=
  runs.foldl (fun db run => (applyMigrations c backend db run).1) .empty

end Modary.Database.Migrations
