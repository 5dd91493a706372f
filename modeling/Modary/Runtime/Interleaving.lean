import Modary.Governed.IdempotencyStore
import Modary.Lib.Machine
import Modary.Runtime.Atomicity

/-! # Concurrent executions of one key

Any number of calls of `Execute` with one idempotency key over the table of `governedpostgres` at
`READ COMMITTED`. A transaction that has written the row of the key holds it until it ends: an
`INSERT` waits for it, and a row that is rolled back leaves nothing. A write statement and the reply
to it are two steps, so that a conflict and the `SELECT` after it may see different rows. -/

namespace Modary.Runtime.Interleaving

open Modary.Lib.Prog
open Modary.Action.Errors Modary.Action.Types
open Modary.Action.Persistence Modary.Runtime.Transaction
open Modary.Runtime.Environment
open Modary.Runtime.Engine Modary.Runtime.Traces Modary.Runtime.Atomicity
open Modary.Governed.IdempotencyStore (Row)

/-! ### The state -/

/-- A call of `Execute`. -/
structure Caller where
  engine : Engine
  hasContext : Bool
  request : Action.Types.Request

def Caller.program (caller : Caller) : Program (Except Err Result) :=
  execute caller.engine caller.hasContext caller.request

/-- What the write statement of a store operation did, while the operation has not come back. -/
inductive Pending
  | idle
  | inserted
  | conflicted
  | updated
  | deleted
  deriving DecidableEq, Repr

/-- An open transaction: the calls made in it, and whether the server has not rolled it back. -/
structure Session where
  calls : History
  pending : Pending
  alive : Bool

/-- The callers, the row of the key, and the transactions that were committed. -/
structure System (ι : Type) where
  program : ι → Program (Except Err Result)
  history : ι → History
  session : ι → Option Session
  /-- the committed row of the key -/
  committed : Option Row
  /-- the transaction that holds the row, and the row as it left it -/
  held : Option (ι × Option Row)
  /-- the transactions that were committed, with the calls made in them -/
  executions : List (ι × History)

/-- What happens next: a caller's write statement is carried out, the server rolls a transaction
back, or a call comes back. -/
inductive Event (ι : Type)
  | statement (i : ι) (now : ℤ)
  | rollback (i : ι)
  | reply (i : ι) (answer : (op : Op) → op.Response)

section Steps

variable {ι : Type} [DecidableEq ι]

/-- Nothing is called or stored yet. -/
def initial (callers : ι → Caller) : System ι where
  program i := (callers i).program
  history _ := []
  session _ := none
  committed := none
  held := none
  executions := []

/-- The row of the key as a transaction sees it. -/
def System.visible (s : System ι) (i : ι) : Option Row :=
  match s.held with
  | some (j, row) => if j = i then row else s.committed
  | none => s.committed

/-- No other transaction holds the row. -/
def System.free (s : System ι) (i : ι) : Bool :=
  match s.held with
  | some (j, _) => j = i
  | none => true

/-- The row after a transaction has ended. -/
def System.released (s : System ι) (i : ι) : Option (ι × Option Row) :=
  match s.held with
  | some (j, row) => if j = i then none else some (j, row)
  | none => none

/-! ### Write statements -/

/-- The write statement of an operation of the store: the rows it leaves and what it found. -/
def write (checks : Checks) (now : ℤ) (rows : List Row) : Op → Option (List Row × Pending)
  | .reserve .tx record =>
    match Governed.IdempotencyStore.place checks now record rows with
    | .ok (rows, written) => some (rows, if written = 1 then .inserted else .conflicted)
    | .error _ => none
  | .complete .tx record =>
    match Governed.IdempotencyStore.complete checks now record rows with
    | .ok rows => some (rows, .updated)
    | .error _ => none
  | .abort .tx record =>
    match Governed.IdempotencyStore.abort checks record rows with
    | .ok rows => some (rows, .deleted)
    | .error _ => none
  | _ => none

/-- An `INSERT` waits for the transaction that holds the row; another statement does where it would
change the row. -/
def waits (rows rows' : List Row) (pending : Pending) : Bool :=
  pending == .inserted || pending == .conflicted || rows' != rows

/-- The write statement of the operation that a caller is in. -/
def statement (checks : ι → Checks) (s : System ι) (i : ι) (now : ℤ) : Option (System ι) :=
  match s.program i, s.session i with
  | .call op _, some session =>
    if session.alive ∧ session.pending = .idle then
      let rows := (s.visible i).toList
      match write (checks i) now rows op with
      | some (rows', pending) =>
        if s.free i ∨ waits rows rows' pending = false then
          some { s with
            session := Function.update s.session i (some { session with pending := pending })
            held := if rows' = rows then s.held else some (i, rows'.head?) }
        else none
      | none => none
    else none
  | _, _ => none

/-! ### Replies -/

/-- The reply is an error, or a panic. -/
def Failed {α : Type} : Reply α → Bool
  | .returned _ err => err != .nil
  | .panicked => true

/-- The operation may come back so. An operation of the store may always fail, and otherwise reports
what its statements found; a transaction is committed if its operation succeeded and the server has
not rolled it back, and no success is reported of another. -/
def permits (checks : Checks) (s : System ι) (i : ι) : (op : Op) → op.Response → Bool
  | .lookup ctx record, reply =>
    Failed reply || (ctx == .request || ((s.session i).any fun session => session.alive)) &&
      match reply with
      | .returned found _ =>
        let row := if ctx = .request then s.committed else s.visible i
        Governed.IdempotencyStore.lookup checks record row.toList == .ok found
      | .panicked => true
  | .reserve _ record, reply =>
    Failed reply || match reply with
      | .returned none _ => (s.session i).any fun session => session.pending == .inserted
      | .returned (some existing) _ =>
        ((s.session i).any fun session => session.alive && session.pending == .conflicted) &&
          Governed.IdempotencyStore.load checks record (s.visible i).toList == .ok (some existing)
      | .panicked => true
  | .complete _ _, reply =>
    Failed reply || (s.session i).any fun session => session.pending == .updated
  | .abort _ _, reply =>
    Failed reply || (s.session i).any fun session => session.pending == .deleted
  | .finish _ err, finished =>
    (!finished.committed ||
      err == .nil && (s.session i).any fun session => session.alive) &&
    (finished.committed || !(err == .nil && finished.reply == .returned .nil))
  | _, _ => true

/-- What the call changes besides its caller. -/
def System.record (s : System ι) (i : ι) : (op : Op) → op.Response → System ι
  | .begin, .run _ =>
    { s with session := Function.update s.session i (some ⟨[], .idle, true⟩) }
  | .finish _ _, finished =>
    match s.session i with
    | some session =>
      let closed := { s with
        session := Function.update s.session i none
        held := s.released i }
      if (finished : Finished).committed then
        { closed with
          committed := s.visible i
          executions := s.executions ++ [(i, session.calls)] }
      else closed
    | none => s
  | op, reply =>
    match s.session i with
    | some session =>
      let next := { session with calls := session.calls ++ [⟨op, reply⟩], pending := .idle }
      { s with session := Function.update s.session i (some next) }
    | none => s

/-- A call comes back to its caller. -/
def reply (checks : ι → Checks) (s : System ι) (i : ι) (answer : (op : Op) → op.Response) :
    Option (System ι) :=
  match s.program i with
  | .ret _ => none
  | .call op next =>
    if permits (checks i) s i op (answer op) then
      let after := s.record i op (answer op)
      let program := Function.update s.program i (next (answer op))
      let history := Function.update s.history i (s.history i ++ [⟨op, answer op⟩])
      some { after with program := program, history := history }
    else none

/-- The server rolls an open transaction back. -/
def rollback (s : System ι) (i : ι) : Option (System ι) :=
  match s.session i with
  | some session =>
    some { s with
      session := Function.update s.session i (some { session with alive := false })
      held := s.released i }
  | none => none

/-- One step of the callers and the database. -/
def step (callers : ι → Caller) (s : System ι) : Event ι → Option (System ι)
  | .statement i now => statement (fun i => (callers i).engine.checks) s i now
  | .rollback i => rollback s i
  | .reply i answer => reply (fun i => (callers i).engine.checks) s i answer

end Steps

end Modary.Runtime.Interleaving
