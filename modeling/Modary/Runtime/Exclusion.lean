import Modary.Runtime.Interleaving

/-! # One execution for each key

Whatever the interleaving, at most one effect of a handler is committed for a key, and every call
that succeeds returns what that execution recorded. The row of the key is held by the one transaction
that inserted it, and it is committed only as the completed record of that transaction. -/

namespace Modary.Runtime.Exclusion

open Modary.Lib.GoText Modary.Lib.Prog Modary.Lib.Machine
open Modary.Action.Names Modary.Action.Authz Modary.Action.Errors Modary.Action.Types
open Modary.Action.Persistence
open Modary.Runtime.Environment
open Modary.Runtime.Engine Modary.Runtime.Traces Modary.Runtime.Runs Modary.Runtime.Atomicity
open Modary.Runtime.Consulting Modary.Runtime.Interleaving
open Modary.Governed.IdempotencyStore (Row recordOf statusOf)

/-! ### Rows of a key -/

/-- The row is one of the key. -/
def RowOf (key : Atomicity.Binding) (row : Row) : Prop :=
  ∃ record b, bindingOf record = key ∧ Governed.IdempotencyStore.Binding.of record = some b ∧
    row.primaryKey = b.primaryKey

theorem RowOf.primaryKey_eq {key : Atomicity.Binding} {row row' : Row} (h : RowOf key row)
    (h' : RowOf key row') : row.primaryKey = row'.primaryKey := by
  obtain ⟨record, b, rfl, hb, hkey⟩ := h
  obtain ⟨record', b', heq, hb', hkey'⟩ := h'
  rw [Governed.IdempotencyStore.eq_recordOf_of hb, Governed.IdempotencyStore.eq_recordOf_of hb'] at heq
  simp only [bindingOf, recordOf, Atomicity.Binding.mk.injEq, Execution.mk.injEq,
    GoString.utf8.injEq] at heq
  obtain ⟨⟨h1, h2⟩, h3, h4, h5, h6⟩ := heq
  rw [hkey, hkey']
  unfold Governed.IdempotencyStore.Binding.primaryKey
  rw [h1, h2, h3, h4, h5, h6]

/-- The row is the completed record. -/
structure Records (record : IdempotencyRecord) (row : Row) : Prop where
  binding : Governed.IdempotencyStore.Binding.of record = some row.toBinding
  status : row.status = "completed"
  result : row.result = record.result

/-- What is read of a row. -/
def readOf (row : Row) : IdempotencyRecord :=
  recordOf row.toBinding (statusOf row.status) row.result

theorem Records.readOf_eq {record : IdempotencyRecord} {row : Row} (h : Records record row)
    (hstatus : record.status = .completed) : readOf row = record := by
  have heq := Governed.IdempotencyStore.eq_recordOf_of h.binding
  rw [hstatus] at heq
  rw [heq, readOf, h.status, h.result]
  rfl

/-! ### What a write statement did -/

/-- The statement wrote the row. -/
def wrote : Pending → Bool
  | .idle => false
  | .inserted => true
  | .conflicted => false
  | .updated => true
  | .deleted => true

/-- The operation whose statement may be pending. -/
def answers : Pending → Op → Bool
  | .idle, _ => true
  | .inserted, .reserve .tx _ => true
  | .conflicted, .reserve .tx _ => true
  | .updated, .complete .tx _ => true
  | .deleted, .abort .tx _ => true
  | _, _ => false

/-- What a write statement did to the row that it saw. -/
inductive Written (now : ℤ) (row : Option Row) : Op → Option Row → Pending → Prop
  | inserted {record b} (none : row = none)
      (binding : Governed.IdempotencyStore.Binding.of record = some b) :
      Written now row (.reserve .tx record) (some (b.reserved now)) .inserted
  | conflicted {record} : Written now row (.reserve .tx record) row .conflicted
  | updated {record before after} (running : row = some before) (status : before.status = "running")
      (key : after.primaryKey = before.primaryKey) (records : Records record after) :
      Written now row (.complete .tx record) (some after) .updated
  | deleted {record before} (running : row = some before) (status : before.status = "running") :
      Written now row (.abort .tx record) none .deleted
  | kept {record} : Written now row (.abort .tx record) row .deleted

/-- A row of the key that is inserted finds no other. -/
theorem written_of_write {checks : Checks} {now : ℤ} {key : Atomicity.Binding} {row : Option Row}
    {op : Op} {rows : List Row} {pending : Pending} (hrow : ∀ r, row = some r → RowOf key r)
    (hkey : ∀ record, op = .reserve .tx record → bindingOf record = key)
    (h : write checks now row.toList op = some (rows, pending)) :
    rows = rows.head?.toList ∧ Written now row op rows.head? pending := by
  have hlength : row.toList.length ≤ 1 := by cases row <;> simp
  have hhead : row.toList.head? = row := by cases row <;> rfl
  unfold write at h
  split at h
  next record =>
    split at h
    next rows' written hplace =>
      obtain ⟨rfl, rfl⟩ := Prod.mk.inj (Option.some.inj h)
      obtain ⟨b, hb, hinsert⟩ := Governed.IdempotencyStore.place_ok hplace
      rcases Governed.IdempotencyStore.insert_ok hinsert with ⟨rfl, rfl, hfresh⟩ | ⟨rfl, rfl, -⟩
      · have hnone : row = none := by
          cases row with
          | none => rfl
          | some r =>
            have hnew : RowOf key (b.reserved now) := ⟨record, b, hkey record rfl, hb, rfl⟩
            have heq := hnew.primaryKey_eq (hrow r rfl)
            simp [heq] at hfresh
        subst hnone
        exact ⟨rfl, Written.inserted rfl hb⟩
      · rw [hhead]
        exact ⟨rfl, Written.conflicted⟩
    · cases h
  next record =>
    split at h
    next rows' hcomplete =>
      obtain ⟨rfl, rfl⟩ := Prod.mk.inj (Option.some.inj h)
      obtain ⟨before, c, hbefore, rfl, hb, hstatus, hc⟩ :=
        Governed.IdempotencyStore.complete_single hcomplete hlength
      obtain rfl : row = some before := by
        rw [← hhead, hbefore]
        rfl
      exact ⟨rfl, Written.updated rfl hstatus rfl
        ⟨hb, rfl, Governed.IdempotencyStore.result_completed hc⟩⟩
    · cases h
  next record =>
    split at h
    next rows' habort =>
      obtain ⟨rfl, rfl⟩ := Prod.mk.inj (Option.some.inj h)
      obtain ⟨b, -, rfl⟩ := Governed.IdempotencyStore.abort_ok habort
      cases row with
      | none => exact ⟨rfl, Written.kept⟩
      | some before =>
        by_cases hrun : before.running b = true
        · have hempty : Governed.IdempotencyStore.delete b (some before).toList = [] := by
            simp [Governed.IdempotencyStore.delete, hrun]
          rw [hempty]
          simp only [Row.running, Bool.and_eq_true, beq_iff_eq] at hrun
          exact ⟨rfl, Written.deleted rfl hrun.2⟩
        · have hsame : Governed.IdempotencyStore.delete b (some before).toList = [before] := by
            simp [Governed.IdempotencyStore.delete, hrun]
          rw [hsame]
          exact ⟨rfl, Written.kept⟩
    · cases h
  · cases h

theorem Written.answers {now : ℤ} {row row' : Option Row} {op : Op} {pending : Pending}
    (h : Written now row op row' pending) : answers pending op = true ∧ pending ≠ .idle := by
  cases h with
  | inserted hnone hb => exact ⟨rfl, by decide⟩
  | conflicted => exact ⟨rfl, by decide⟩
  | updated hrow hstatus hkey hrecords => exact ⟨rfl, by decide⟩
  | deleted hrow hstatus => exact ⟨rfl, by decide⟩
  | kept => exact ⟨rfl, by decide⟩

/-- Only a running row is changed, or none. -/
theorem Written.changed {now : ℤ} {row row' : Option Row} {op : Op} {pending : Pending}
    (h : Written now row op row' pending) (hne : row' ≠ row) :
    wrote pending = true ∧ ∀ r, row = some r → r.status = "running" := by
  cases h with
  | inserted hnone hb => exact ⟨rfl, fun r hr => by rw [hnone] at hr; cases hr⟩
  | conflicted => exact absurd rfl hne
  | updated hrow hstatus hkey hrecords =>
    refine ⟨rfl, fun r hr => ?_⟩
    rw [hrow] at hr
    cases hr
    exact hstatus
  | deleted hrow hstatus =>
    refine ⟨rfl, fun r hr => ?_⟩
    rw [hrow] at hr
    cases hr
    exact hstatus
  | kept => exact absurd rfl hne

/-- What is written is a row of the key. -/
theorem Written.rowOf {now : ℤ} {key : Atomicity.Binding} {row row' : Option Row} {op : Op}
    {pending : Pending} (h : Written now row op row' pending)
    (hrow : ∀ r, row = some r → RowOf key r)
    (hkey : ∀ record, op = .reserve .tx record → bindingOf record = key) :
    ∀ r, row' = some r → RowOf key r := by
  intro r hr
  cases h with
  | inserted hnone hb =>
    cases hr
    exact ⟨_, _, hkey _ rfl, hb, rfl⟩
  | conflicted => exact hrow r hr
  | updated hbefore hstatus hsame hrecords =>
    cases hr
    obtain ⟨record, b, hk, hb, heq⟩ := hrow _ hbefore
    exact ⟨record, b, hk, hb, hsame.trans heq⟩
  | deleted hbefore hstatus => cases hr
  | kept => exact hrow r hr

/-! ### The callers -/

section Callers

variable {ι : Type} {callers : ι → Caller} {s : System ι}

/-- The position of each caller, its open transaction, and what its manager has promised. -/
structure Control (callers : ι → Caller) (s : System ι) : Prop where
  position : ∀ i, (callers i).program.After (s.history i) (s.program i)
  opened : ∀ i session, s.session i = some session → Interior session.calls ∧
    ∃ before serial, s.history i = before ++ ⟨.begin, .run serial⟩ :: session.calls
  pending : ∀ i session op next, s.session i = some session → s.program i = .call op next →
    answers session.pending op = true
  atomic : ∀ i, Atomic (s.history i)

/-- A reservation is one of the key of its caller. -/
theorem Control.reserves (h : Control callers s) {i : ι} {ctx : Ctx} {record : IdempotencyRecord}
    {next} (hp : s.program i = .call (.reserve ctx record) next) :
    bindingOf record = requestBinding (callers i).request := by
  have hcalls := (h.position i)
  rw [hp] at hcalls
  obtain ⟨-, h₀, serial, job, j, k, hready, -, -, rfl, -⟩ :=
    (meets_execute (callers i).hasContext).calls hcalls.calls
  have hbinding : bindingOf (job.completion {}) = requestBinding (callers i).request :=
    bindingOf_completion hready.accepted
  exact hbinding

/-- A transaction is only opened when none is open. -/
theorem Control.closed_of_begin (h : Control callers s) {i : ι} {next}
    (hp : s.program i = .call .begin next) : s.session i = none := by
  have hcalls := h.position i
  rw [hp] at hcalls
  have hquiet : ∀ c ∈ s.history i, quiet c.op = true :=
    (meets_execute (callers i).hasContext).calls hcalls.calls
  cases hs : s.session i with
  | none => rfl
  | some session =>
    obtain ⟨-, before, serial, heq⟩ := h.opened i session hs
    have := hquiet ⟨.begin, .run serial⟩ (by rw [heq]; simp)
    cases this

/-- What is committed ends well. -/
theorem Control.settled (h : Control callers s) {i : ι} {session : Session} {serial : ℕ} {next}
    (hp : s.program i = .call (.finish serial .nil) next) (hs : s.session i = some session) :
    ∃ h₀ rest outcome,
      Settled (callers i).engine (callers i).request h₀ session.calls outcome ∧
        s.history i = h₀ ++ rest := by
  have hcalls := h.position i
  rw [hp] at hcalls
  obtain ⟨h₀, trace, outcome, hsettled, heq⟩ :=
    (meets_execute (callers i).hasContext).calls hcalls.calls rfl
  rw [List.nil_append] at heq
  obtain ⟨hinterior, before, serial', hopened⟩ := h.opened i session hs
  rw [hopened] at heq
  obtain ⟨rfl, rfl⟩ := interior_unique rfl rfl hinterior (interior_of_settled hsettled) heq
  exact ⟨before, _, outcome, hsettled, hopened⟩

end Callers

/-! ### What a step does -/

section Steps

variable {ι : Type} [DecidableEq ι] {callers : ι → Caller} {key : Atomicity.Binding}
  {s t : System ι}

/-- The state after a reply. -/
def System.replied (s : System ι) (i : ι) (op : Op) (r : op.Response)
    (next : op.Response → Program (Except Err Result)) : System ι :=
  let after := s.record i op r
  let program := Function.update s.program i (next r)
  let history := Function.update s.history i (s.history i ++ [⟨op, r⟩])
  { after with program := program, history := history }

/-- The state after a write statement. -/
def System.wrote (s : System ι) (i : ι) (session : Session) (row : Option Row)
    (pending : Pending) : System ι :=
  { s with
    session := Function.update s.session i (some { session with pending := pending })
    held := if row = s.visible i then s.held else some (i, row) }

/-- The state after the server has rolled a transaction back. -/
def System.rolledBack (s : System ι) (i : ι) (session : Session) : System ι :=
  { s with
    session := Function.update s.session i (some { session with alive := false })
    held := s.released i }

/-- What a step does. -/
inductive Stepped (callers : ι → Caller) (key : Atomicity.Binding) (s : System ι) : System ι → Prop
  | wrote {i now op next session row pending} (program : s.program i = .call op next)
      (isOpen : s.session i = some session) (alive : session.alive = true)
      (idle : session.pending = .idle) (written : Written now (s.visible i) op row pending)
      (free : s.free i = true ∨ row = s.visible i)
      (rowOf : ∀ r, row = some r → RowOf key r) :
      Stepped callers key s (System.wrote s i session row pending)
  | rolledBack {i session} (isOpen : s.session i = some session) :
      Stepped callers key s (System.rolledBack s i session)
  | replied {i op next r} (program : s.program i = .call op next)
      (permitted : permits (callers i).engine.checks s i op r = true) :
      Stepped callers key s (System.replied s i op r next)

/-- The row that a transaction sees is the committed one or its own. -/
theorem visible_cases (i : ι) : (∃ row, s.held = some (i, row) ∧ s.visible i = row) ∨
    ((∀ row, s.held ≠ some (i, row)) ∧ s.visible i = s.committed) := by
  unfold System.visible
  split
  next j row hheld =>
    by_cases hj : j = i
    · subst hj
      rw [if_pos rfl]
      exact Or.inl ⟨row, hheld, rfl⟩
    · rw [if_neg hj, hheld]
      refine Or.inr ⟨fun row' heq => ?_, rfl⟩
      cases heq
      exact hj rfl
  next hheld =>
    rw [hheld]
    exact Or.inr ⟨fun row heq => by (cases heq), rfl⟩

theorem visible_of_not_held {i : ι} (h : ∀ row, s.held ≠ some (i, row)) :
    s.visible i = s.committed := by
  rcases visible_cases (s := s) i with ⟨row, hheld, -⟩ | ⟨-, hvisible⟩
  · exact absurd hheld (h row)
  · exact hvisible

/-- What is held after a transaction has ended was held by another. -/
theorem released_eq {i j : ι} {row : Option Row} :
    s.released i = some (j, row) ↔ s.held = some (j, row) ∧ j ≠ i := by
  unfold System.released
  split
  next k row' hheld =>
    by_cases hk : k = i
    · subst hk
      rw [if_pos rfl, hheld]
      constructor
      · rintro ⟨⟩
      · rintro ⟨heq, hne⟩
        cases heq
        exact absurd rfl hne
    · rw [if_neg hk, hheld]
      constructor
      · rintro ⟨⟩
        exact ⟨rfl, hk⟩
      · rintro ⟨heq, -⟩
        exact heq
  next hheld =>
    rw [hheld]
    constructor
    · rintro ⟨⟩
    · rintro ⟨heq, -⟩
      cases heq

/-- A transaction that another holds the row of is not free. -/
theorem not_free {i j : ι} {row : Option Row} (h : s.held = some (j, row)) (hne : j ≠ i) :
    s.free i = false := by
  unfold System.free
  rw [h]
  simpa using hne

/-- **What a step can do.** -/
theorem stepped_of_step {event : Interleaving.Event ι} (hc : Control callers s)
    (hkey : ∀ i, requestBinding (callers i).request = key)
    (hrow : ∀ i r, s.visible i = some r → RowOf key r) (h : Interleaving.step callers s event = some t) :
    Stepped callers key s t := by
  cases event with
  | rollback i =>
    unfold Interleaving.step rollback at h
    cases hs : s.session i with
    | none =>
      simp only [hs] at h
      cases h
    | some session =>
      simp only [hs] at h
      obtain rfl := Option.some.inj h
      exact Stepped.rolledBack hs
  | reply i answer =>
    unfold Interleaving.step reply at h
    cases hp : s.program i with
    | ret a =>
      simp only [hp] at h
      cases h
    | call op next =>
      simp only [hp] at h
      split at h
      next hpermits =>
        obtain rfl := Option.some.inj h
        exact Stepped.replied hp hpermits
      next => cases h
  | statement i now =>
    unfold Interleaving.step statement at h
    cases hp : s.program i with
    | ret a =>
      simp only [hp] at h
      cases h
    | call op next =>
    cases hs : s.session i with
    | none =>
      simp only [hp, hs] at h
      cases h
    | some session =>
    simp only [hp, hs] at h
    split at h
    next hready =>
      cases hw : write (callers i).engine.checks now (s.visible i).toList op with
      | none =>
        simp only [hw] at h
        cases h
      | some pair =>
      obtain ⟨rows, pending⟩ := pair
      simp only [hw] at h
      have hreserves : ∀ record, op = .reserve .tx record → bindingOf record = key := by
        rintro record rfl
        rw [hc.reserves hp, hkey i]
      obtain ⟨hrows, hwritten⟩ := written_of_write (hrow i) hreserves hw
      have hsame : rows = (s.visible i).toList ↔ rows.head? = s.visible i := by
        constructor
        · rintro heq
          rw [heq]
          cases s.visible i <;> rfl
        · intro heq
          rw [hrows, heq]
      split at h
      next hfree =>
        obtain rfl := Option.some.inj h
        have hheld : (if rows = (s.visible i).toList then s.held else some (i, rows.head?)) =
            if rows.head? = s.visible i then s.held else some (i, rows.head?) := by
          by_cases heq : rows = (s.visible i).toList
          · rw [if_pos heq, if_pos (hsame.mp heq)]
          · rw [if_neg heq, if_neg fun h => heq (hsame.mpr h)]
        simp only [hheld]
        refine Stepped.wrote hp hs hready.1 hready.2 hwritten ?_ (hwritten.rowOf (hrow i) hreserves)
        rcases hfree with hfree | hwaits
        · exact Or.inl hfree
        · refine Or.inr (hsame.mp ?_)
          simp only [waits, Bool.or_eq_false_iff, bne_eq_false_iff_eq] at hwaits
          exact hwaits.2
      next => cases h
    next => cases h

end Steps

/-! ### The table -/

/-- The operation writes the row. -/
def touches : Op → Bool
  | .reserve _ _ => true
  | .complete _ _ => true
  | .abort _ _ => true
  | _ => false

/-- The last operation on the row is the completion of the record. -/
def LastCompleted (calls : History) (record : IdempotencyRecord) : Prop :=
  ∃ before after, calls = before ++ ⟨.complete .tx record, .returned () .nil⟩ :: after ∧
    ∀ c ∈ after, touches c.op = false

theorem not_lastCompleted_nil {record : IdempotencyRecord} : ¬ LastCompleted [] record := by
  rintro ⟨before, after, heq, -⟩
  cases before <;> cases heq

/-- One more call. -/
theorem lastCompleted_snoc {calls : History} {c : Environment.Call} {record : IdempotencyRecord}
    (h : LastCompleted (calls ++ [c]) record) :
    c = ⟨.complete .tx record, .returned () .nil⟩ ∨
      (touches c.op = false ∧ LastCompleted calls record) := by
  obtain ⟨before, after, heq, hafter⟩ := h
  rcases List.eq_nil_or_concat after with rfl | ⟨after, d, rfl⟩
  · obtain ⟨-, hc⟩ := List.append_inj' heq rfl
    exact Or.inl (List.cons.inj hc).1
  · rw [List.concat_eq_append] at heq hafter
    rw [← List.cons_append, ← List.append_assoc] at heq
    obtain ⟨hcalls, hc⟩ := List.append_inj' heq rfl
    obtain rfl := (List.cons.inj hc).1
    refine Or.inr ⟨hafter c (by simp), before, after, hcalls, fun d hd => hafter d ?_⟩
    exact List.mem_append_left _ hd

theorem untouched_snoc {calls : History} {c : Environment.Call} :
    Untouched (calls ++ [c]) ↔ Untouched calls ∧ writes c = false := by
  unfold Untouched
  simp only [List.mem_append, List.mem_singleton]
  constructor
  · intro h
    exact ⟨fun d hd => h d (Or.inl hd), h c (Or.inr rfl)⟩
  · rintro ⟨hcalls, hc⟩ d (hd | rfl)
    · exact hcalls d hd
    · exact hc

/-- What is known of one caller: the row it holds, and its transaction. -/
structure Kept {ι : Type} (key : Atomicity.Binding) (s : System ι) (i : ι) : Prop where
  heldRow : ∀ row, s.held = some (i, some row) → RowOf key row
  owned : ∀ row, s.held = some (i, row) → s.committed = none ∧
    ∃ session, s.session i = some session ∧
      (Untouched session.calls → Exclusion.wrote session.pending = true)
  updated : ∀ session record next, s.session i = some session → session.alive = true →
    session.pending = .updated → s.program i = .call (.complete .tx record) next →
      ∃ row, s.held = some (i, some row) ∧ Records record row
  completed : ∀ session record, s.session i = some session → session.alive = true →
    session.pending = .idle → LastCompleted session.calls record →
      ∃ row, s.held = some (i, some row) ∧ Records record row

/-- The rows of the key, and who holds them. -/
structure Table {ι : Type} (key : Atomicity.Binding) (s : System ι) : Prop where
  committedRow : ∀ row, s.committed = some row → RowOf key row ∧ row.status = "completed"
  kept : ∀ i, Kept key s i

section Table

variable {ι : Type} [DecidableEq ι] {callers : ι → Caller} {key : Atomicity.Binding}
  {s t : System ι} {i : ι} {session : Session}

theorem Table.visibleRow (h : Table key s) (i : ι) :
    ∀ r, s.visible i = some r → RowOf key r := by
  intro r hr
  rcases visible_cases (s := s) i with ⟨row, hheld, hvisible⟩ | ⟨-, hvisible⟩
  · rw [hr] at hvisible
    rw [← hvisible] at hheld
    exact (h.kept i).heldRow r hheld
  · rw [hr] at hvisible
    exact (h.committedRow r hvisible.symm).1

omit [DecidableEq ι] in
/-- A transaction that has written nothing does not hold the row. -/
theorem Table.not_held (h : Table key s) (hs : s.session i = some session)
    (hu : Untouched session.calls) (hw : Exclusion.wrote session.pending = false) :
    ∀ row, s.held ≠ some (i, row) := by
  intro row hheld
  obtain ⟨-, session', hs', hwrote⟩ := (h.kept i).owned row hheld
  rw [hs] at hs'
  cases hs'
  rw [hwrote hu] at hw
  cases hw

/-- A row that can be changed is not committed. -/
theorem Table.uncommitted (h : Table key s) (i : ι)
    (hrunning : ∀ r, s.visible i = some r → r.status = "running") : s.committed = none := by
  rcases visible_cases (s := s) i with ⟨row, hheld, -⟩ | ⟨-, hvisible⟩
  · exact ((h.kept i).owned row hheld).1
  · cases hc : s.committed with
    | none => rfl
    | some r =>
      have hstatus := hrunning r (hvisible.trans hc)
      rw [(h.committedRow r hc).2] at hstatus
      exact absurd hstatus (by decide)

omit [DecidableEq ι] in
/-- A caller that a step leaves alone. -/
theorem Kept.congr (h : Kept key s i) (hsession : t.session i = s.session i)
    (hprogram : t.program i = s.program i)
    (hheld : ∀ row, t.held = some (i, row) ↔ s.held = some (i, row))
    (hfree : ∀ row, s.held = some (i, row) → t.committed = none) : Kept key t i := by
  refine ⟨?_, ?_, ?_, ?_⟩
  · intro row hrow
    exact h.heldRow row ((hheld _).mp hrow)
  · intro row hrow
    have hrow := (hheld row).mp hrow
    rw [hsession]
    exact ⟨hfree row hrow, (h.owned row hrow).2⟩
  · intro session record next hs halive hupdated hp
    rw [hsession] at hs
    rw [hprogram] at hp
    obtain ⟨row, hrow, hrecords⟩ := h.updated session record next hs halive hupdated hp
    exact ⟨row, (hheld _).mpr hrow, hrecords⟩
  · intro session record hs halive hidle hlast
    rw [hsession] at hs
    obtain ⟨row, hrow, hrecords⟩ := h.completed session record hs halive hidle hlast
    exact ⟨row, (hheld _).mpr hrow, hrecords⟩

/-- A caller whose transaction ended gave back the row. -/
theorem kept_of_dead (hheld : t.held = s.released i)
    (hdead : ∀ session, t.session i = some session → session.alive = false) : Kept key t i := by
  have hnot : ∀ row, t.held ≠ some (i, row) := by
    intro row hrow
    exact (released_eq.mp (hheld.symm.trans hrow)).2 rfl
  refine ⟨fun row hrow => absurd hrow (hnot _), fun row hrow => absurd hrow (hnot _), ?_, ?_⟩
  · intro session record next hs halive
    rw [hdead session hs] at halive
    cases halive
  · intro session record hs halive
    rw [hdead session hs] at halive
    cases halive

theorem Table.wrote (h : Table key s) {now : ℤ} {op : Op} {next} {row : Option Row}
    {pending : Pending} (hp : s.program i = .call op next) (hs : s.session i = some session)
    (hidle : session.pending = .idle) (hw : Written now (s.visible i) op row pending)
    (hfree : s.free i = true ∨ row = s.visible i) (hrow : ∀ r, row = some r → RowOf key r) :
    Table key (System.wrote s i session row pending) := by
  have hpending := hw.answers.2
  have hself : (System.wrote s i session row pending).session i =
      some { session with pending := pending } := Function.update_self _ _ _
  have hheld : (System.wrote s i session row pending).held =
      if row = s.visible i then s.held else some (i, row) := rfl
  refine ⟨h.committedRow, fun j => ?_⟩
  by_cases hj : j = i
  · subst hj
    refine ⟨?_, ?_, ?_, ?_⟩
    · intro r hr
      rw [hheld] at hr
      split at hr
      · exact (h.kept j).heldRow r hr
      · cases hr
        exact hrow r rfl
    · intro r hr
      rw [hheld] at hr
      split at hr
      · obtain ⟨hnone, session', hs', hwrote⟩ := (h.kept j).owned r hr
        rw [hs] at hs'
        cases hs'
        refine ⟨hnone, _, hself, fun hu => ?_⟩
        have hfalse := hwrote hu
        rw [hidle] at hfalse
        cases hfalse
      next hne =>
        cases hr
        obtain ⟨hwrote, hrunning⟩ := hw.changed hne
        exact ⟨h.uncommitted j hrunning, _, hself, fun _ => hwrote⟩
    · intro session' record next' hs' halive hupdated hp'
      rw [hself] at hs'
      cases hs'
      obtain rfl : pending = .updated := hupdated
      have hop : op = .complete .tx record := by
        have := hp.symm.trans hp'
        cases this
        rfl
      subst hop
      cases hw with
      | updated hbefore hstatus hkey hrecords =>
        refine ⟨_, ?_, hrecords⟩
        rw [hheld, if_neg]
        rw [hbefore]
        intro heq
        cases heq
        rw [hrecords.status] at hstatus
        exact absurd hstatus (by decide)
    · intro session' record hs' halive hidle' hlast
      rw [hself] at hs'
      cases hs'
      exact absurd hidle' hpending
  · -- what another transaction holds stays as it is
    refine (h.kept j).congr (Function.update_of_ne hj _ _) rfl (fun r => ?_)
      fun r hr => ((h.kept j).owned r hr).1
    rw [hheld]
    split
    · rfl
    next hne =>
      refine ⟨fun hr => ?_, fun hr => ?_⟩
      · cases hr
        exact absurd rfl hj
      · have hfree := hfree.resolve_right hne
        rw [not_free hr hj] at hfree
        cases hfree

theorem Table.rolledBack (h : Table key s) : Table key (System.rolledBack s i session) := by
  refine ⟨h.committedRow, fun j => ?_⟩
  by_cases hj : j = i
  · subst hj
    refine kept_of_dead rfl fun session' hs => ?_
    cases (Function.update_self _ _ _).symm.trans hs
    rfl
  · exact (h.kept j).congr (Function.update_of_ne hj _ _) rfl
      (fun r => released_eq.trans (and_iff_left hj)) fun r hr => ((h.kept j).owned r hr).1

end Table

/-! ### Replies -/

/-- The transaction with one more call. -/
def Session.called (session : Session) (c : Environment.Call) : Session :=
  { session with calls := session.calls ++ [c], pending := .idle }

/-- A call is noted in the open transaction of its caller, if there is one. -/
def System.noted {ι : Type} [DecidableEq ι] (s : System ι) (i : ι) (c : Environment.Call) :
    System ι :=
  match s.session i with
  | some session =>
    { s with session := Function.update s.session i (some (Session.called session c)) }
  | none => s

/-- What a reply makes of the table. -/
inductive Replied {ι : Type} [DecidableEq ι] (s : System ι) (i : ι) (op : Op) (r : op.Response) :
    System ι → Prop
  | outside (closed : s.session i = none) : Replied s i op r s
  | called {session} (inside : isBoundary op = false) (isOpen : s.session i = some session) :
      Replied s i op r
        { s with session := Function.update s.session i (some (Session.called session ⟨op, r⟩)) }
  | opened (serial : ℕ) (begins : (⟨op, r⟩ : Environment.Call) = ⟨.begin, .run serial⟩) :
      Replied s i op r { s with session := Function.update s.session i (some ⟨[], .idle, true⟩) }
  | lost {session} (serial : ℕ) (err : Err) (finished : Finished)
      (ends : (⟨op, r⟩ : Environment.Call) = ⟨.finish serial err, finished⟩)
      (uncommitted : finished.committed = false) (isOpen : s.session i = some session) :
      Replied s i op r
        { s with session := Function.update s.session i none, held := s.released i }
  | committed {session} (serial : ℕ) (err : Err) (finished : Finished)
      (ends : (⟨op, r⟩ : Environment.Call) = ⟨.finish serial err, finished⟩)
      (committed : finished.committed = true) (isOpen : s.session i = some session) :
      Replied s i op r
        { s with
          session := Function.update s.session i none
          held := s.released i
          committed := s.visible i
          executions := s.executions ++ [(i, session.calls)] }

section Replies

variable {ι : Type} [DecidableEq ι] {callers : ι → Caller} {key : Atomicity.Binding}
  {s t u : System ι} {i : ι} {session : Session} {op : Op} {r : op.Response}

theorem replied_of_record (hbegin : op = .begin → s.session i = none) :
    Replied s i op r (s.record i op r) := by
  have hinside : ∀ {op : Op} {r : op.Response}, isBoundary op = false →
      Replied s i op r (System.noted s i ⟨op, r⟩) := by
    intro op r hop
    unfold System.noted
    cases hs : s.session i with
    | none => exact Replied.outside hs
    | some session => exact Replied.called hop hs
  cases op with
  | begin =>
    have hclosed := hbegin rfl
    cases r with
    | run serial => exact Replied.opened serial rfl
    | unused reply =>
      unfold System.record
      simp only [hclosed]
      exact Replied.outside hclosed
    | nilContext serial reply =>
      unfold System.record
      simp only [hclosed]
      exact Replied.outside hclosed
    | violated reply =>
      unfold System.record
      simp only [hclosed]
      exact Replied.outside hclosed
  | finish serial err =>
    unfold System.record
    cases hs : s.session i with
    | none => exact Replied.outside hs
    | some session =>
      dsimp only
      split
      next hcommitted => exact Replied.committed serial err r rfl hcommitted hs
      next hcommitted =>
        rw [Bool.not_eq_true] at hcommitted
        exact Replied.lost serial err r rfl hcommitted hs
  | acquire id => exact hinside rfl
  | acquireLease => exact hinside rfl
  | randomRequestID => exact hinside rfl
  | clock use => exact hinside rfl
  | authorize ctx request => exact hinside rfl
  | planGet ctx hash => exact hinside rfl
  | planSave ctx plan => exact hinside rfl
  | planDeleteExpired ctx now => exact hinside rfl
  | lookup ctx record => exact hinside rfl
  | reserve ctx record => exact hinside rfl
  | complete ctx record => exact hinside rfl
  | abort ctx record => exact hinside rfl
  | handlerPlan ctx request => exact hinside rfl
  | handlerExecute ctx plan => exact hinside rfl
  | auditRequired ctx event => exact hinside rfl
  | auditDetached event => exact hinside rfl

/-! ### What the database answers -/

/-- The record is read of the row that the transaction sees. -/
theorem readOf_of_load {checks : Checks} {record existing : IdempotencyRecord} {row : Option Row}
    (h : Governed.IdempotencyStore.load checks record row.toList = .ok (some existing)) :
    ∃ found, row = some found ∧ readOf found = existing := by
  cases row with
  | none => cases h
  | some found =>
    have hload := Governed.IdempotencyStore.load_single h
    exact ⟨found, rfl, (Governed.IdempotencyStore.loadRow_ok hload).symm⟩

/-- A lookup in a transaction finds what the transaction sees. -/
theorem lookup_permitted {checks : Checks} {record existing : IdempotencyRecord}
    (h : permits checks s i (.lookup .tx record) (.returned (some existing) .nil) = true) :
    ∃ found, s.visible i = some found ∧ readOf found = existing := by
  simp only [permits, Failed, bne_self_eq_false, Bool.false_or, Bool.and_eq_true, beq_iff_eq] at h
  obtain ⟨-, hlookup⟩ := h
  rw [if_neg (by decide)] at hlookup
  unfold Governed.IdempotencyStore.lookup at hlookup
  obtain ⟨_, -, hload⟩ := bind_eq_ok.mp hlookup
  exact readOf_of_load hload

/-- A reservation that finds a record finds what the transaction sees, and has inserted nothing. -/
theorem reserve_permitted {checks : Checks} {ctx : Ctx} {record existing : IdempotencyRecord}
    (hs : s.session i = some session)
    (h : permits checks s i (.reserve ctx record) (.returned (some existing) .nil) = true) :
    session.pending = .conflicted ∧ ∃ found, s.visible i = some found ∧ readOf found = existing := by
  simp only [permits, Failed, bne_self_eq_false, Bool.false_or, hs, Option.any_some,
    Bool.and_eq_true, beq_iff_eq] at h
  exact ⟨h.1.2, readOf_of_load h.2⟩

/-- A completion that succeeds has written. -/
theorem complete_permitted {checks : Checks} {ctx : Ctx} {record : IdempotencyRecord}
    (hs : s.session i = some session)
    (h : permits checks s i (.complete ctx record) (.returned () .nil) = true) :
    session.pending = .updated := by
  simpa only [permits, Failed, bne_self_eq_false, Bool.false_or, hs, Option.any_some,
    beq_iff_eq] using h

/-- A transaction that is committed succeeded, and the server had not rolled it back. -/
theorem finish_permitted {checks : Checks} {serial : ℕ} {err : Err} {finished : Finished}
    (h : permits checks s i (.finish serial err) finished = true)
    (hcommitted : finished.committed = true) :
    err = .nil ∧ ∃ session, s.session i = some session ∧ session.alive = true := by
  simp only [permits, hcommitted, Bool.not_true, Bool.false_or, Bool.true_or, Bool.and_true,
    Bool.and_eq_true, beq_iff_eq, Option.any_eq_true] at h
  exact h

/-- No success is reported of a transaction that is not committed. -/
theorem finish_reported {checks : Checks} {serial : ℕ} {finished : Finished}
    (h : permits checks s i (.finish serial .nil) finished = true)
    (hreply : finished.reply = .returned .nil) : finished.committed = true := by
  simp only [permits, hreply, beq_self_eq_true, Bool.and_self, Bool.not_true, Bool.or_false,
    Bool.and_eq_true] at h
  exact h.2

/-- A call that writes nothing comes after a statement that wrote nothing. -/
theorem not_wrote_of_untouched {checks : Checks} (hs : s.session i = some session)
    (ha : answers session.pending op = true) (h : permits checks s i op r = true)
    (hw : writes ⟨op, r⟩ = false) : Exclusion.wrote session.pending = false := by
  cases hpending : session.pending with
  | idle => rfl
  | conflicted => rfl
  | updated =>
    rw [hpending] at ha
    cases op with
    | complete ctx record => cases hw
    | _ => cases ha
  | deleted =>
    rw [hpending] at ha
    cases op with
    | abort ctx record => cases hw
    | _ => cases ha
  | inserted =>
    rw [hpending] at ha
    cases op with
    | reserve ctx record =>
      cases r with
      | panicked => cases hw
      | returned found err =>
        cases found with
        | none => cases hw
        | some existing =>
          obtain rfl : err = .nil := by simpa [writes] using hw
          have := (reserve_permitted hs h).1
          rw [hpending] at this
          cases this
    | _ => cases ha

end Replies

/-! ### The table over a reply -/

section Reply

variable {ι : Type} [DecidableEq ι] {callers : ι → Caller} {key : Atomicity.Binding}
  {s : System ι} {i : ι} {session : Session} {op : Op} {r : op.Response}
  {next : op.Response → Program (Except Err Result)}

theorem idle_of_answers {pending : Pending} (ha : answers pending op = true)
    (ht : touches op = false) : pending = .idle := by
  cases pending with
  | idle => rfl
  | inserted => cases op <;> first | cases ha | cases ht
  | conflicted => cases op <;> first | cases ha | cases ht
  | updated => cases op <;> first | cases ha | cases ht
  | deleted => cases op <;> first | cases ha | cases ht

/-- The trace of an execution with a key ends with its completion. -/
theorem lastCompleted_of_settled {e : Engine} {given : Action.Types.Request} {h tx : History}
    {outcome : Engine.Outcome} (hs : Settled e given h tx outcome)
    (hkeyed : given.idempotencyKey ≠ .utf8 "") :
    Untouched tx ∨ ∃ record, LastCompleted tx record := by
  rcases whole_or_untouched hs with hw | ⟨hu, -⟩
  · obtain ⟨plan, hm⟩ := hw.handler
    cases hs with
    | executed ready cleared output =>
      next job j k result reading =>
      have hkeyed := ready.accepted.keyed hkeyed
      refine Or.inr ⟨job.completion result, job.executed j k result,
        [⟨.clock .event, reading⟩,
          ⟨.auditRequired .tx (job.auditEvent e result reading), .returned () .nil⟩], ?_, ?_⟩
      · unfold Job.audited Job.completed Job.ifKeyed
        rw [if_neg hkeyed, List.append_assoc]
        rfl
      · intro c hc
        simp only [List.mem_cons, List.not_mem_nil, or_false] at hc
        rcases hc with rfl | rfl
        · rfl
        · rfl
    | raced ready cleared keyed replayed =>
      simp [Job.cleared, Job.reserveCall, intentCall, impactCall] at hm
    | replayed accepted keyed replayed => simp [intentCall, impactCall] at hm
  · exact Or.inl hu

/-- What a committed transaction leaves: the committed row, or the record that it completed. -/
theorem Table.commits (h : Table key s) (hc : Control callers s) {serial : ℕ}
    {next : Finished → Program (Except Err Result)}
    (hkeyed : (callers i).request.idempotencyKey ≠ .utf8 "")
    (hp : s.program i = .call (.finish serial .nil) next) (hs : s.session i = some session)
    (halive : session.alive = true) :
    (Untouched session.calls ∧ (∀ row, s.held ≠ some (i, row)) ∧ s.visible i = s.committed) ∨
      ∃ record row, LastCompleted session.calls record ∧ s.committed = none ∧
        s.held = some (i, some row) ∧ s.visible i = some row ∧ Records record row := by
  have ha : answers session.pending (.finish serial .nil) = true :=
    hc.pending i session _ next hs hp
  have hidle := idle_of_answers ha rfl
  obtain ⟨h₀, rest, outcome, hsettled, -⟩ := hc.settled hp hs
  rcases lastCompleted_of_settled hsettled hkeyed with hu | ⟨record, hlast⟩
  · have hnot := h.not_held hs hu (by rw [hidle]; rfl)
    exact Or.inl ⟨hu, hnot, visible_of_not_held hnot⟩
  · obtain ⟨row, hheld, hrecords⟩ := (h.kept i).completed session record hs halive hidle hlast
    have hvisible : s.visible i = some row := by
      unfold System.visible
      rw [hheld]
      exact if_pos rfl
    exact Or.inr ⟨record, row, hlast, ((h.kept i).owned _ hheld).1, hheld, hvisible, hrecords⟩

theorem Table.replied (h : Table key s) (hc : Control callers s)
    (hkeyed : (callers i).request.idempotencyKey ≠ .utf8 "")
    (hp : s.program i = .call op next)
    (hpermits : permits (callers i).engine.checks s i op r = true) :
    Table key (System.replied s i op r next) := by
  have hbegin : op = .begin → s.session i = none := by
    rintro rfl
    exact hc.closed_of_begin hp
  have hself : ∀ {x : Option Session}, Function.update s.session i x i = x :=
    Function.update_self _ _ _
  have howned : ∀ j row, s.held = some (j, row) → s.committed = none :=
    fun j row hrow => ((h.kept j).owned row hrow).1
  -- a caller without a transaction holds nothing
  have hunheld : s.session i = none → ∀ row, s.held ≠ some (i, row) := by
    intro hclosed row hrow
    obtain ⟨-, session, hs, -⟩ := (h.kept i).owned row hrow
    rw [hclosed] at hs
    cases hs
  have hrecord := replied_of_record (r := r) hbegin
  unfold System.replied
  generalize s.record i op r = u at hrecord
  cases hrecord with
  | outside hclosed =>
    refine ⟨h.committedRow, fun j => ?_⟩
    by_cases hj : j = i
    · subst hj
      refine ⟨(h.kept j).heldRow, (h.kept j).owned, ?_, (h.kept j).completed⟩
      intro session' record next' hs'
      cases hclosed.symm.trans hs'
    · exact (h.kept j).congr rfl (Function.update_of_ne hj _ _) (fun _ => Iff.rfl) (howned j)
  | called hinside hs =>
    next session =>
    have ha := hc.pending i session op next hs hp
    refine ⟨h.committedRow, fun j => ?_⟩
    by_cases hj : j = i
    · subst hj
      refine ⟨(h.kept j).heldRow, ?_, ?_, ?_⟩
      · intro row hheld
        obtain ⟨hnone, session', hs', hwrote⟩ := (h.kept j).owned row hheld
        rw [hs] at hs'
        cases hs'
        refine ⟨hnone, _, hself, fun hu => ?_⟩
        obtain ⟨hu, hw⟩ := untouched_snoc.mp hu
        have hfalse := not_wrote_of_untouched hs ha hpermits hw
        rw [hwrote hu] at hfalse
        cases hfalse
      · intro session' record next' hs' halive hupdated hp'
        cases hself.symm.trans hs'
        cases hupdated
      · intro session' record hs' halive hidle hlast
        cases hself.symm.trans hs'
        rcases lastCompleted_snoc hlast with hcall | ⟨htouch, hlast⟩
        · cases hcall
          exact (h.kept j).updated session record next hs halive (complete_permitted hs hpermits) hp
        · exact (h.kept j).completed session record hs halive (idle_of_answers ha htouch) hlast
    · exact (h.kept j).congr (Function.update_of_ne hj _ _) (Function.update_of_ne hj _ _)
        (fun _ => Iff.rfl) (howned j)
  | opened serial hbegins =>
    have hclosed : s.session i = none := by
      refine hbegin ?_
      cases hbegins
      rfl
    refine ⟨h.committedRow, fun j => ?_⟩
    by_cases hj : j = i
    · subst hj
      refine ⟨(h.kept j).heldRow, fun row hrow => absurd hrow (hunheld hclosed row), ?_, ?_⟩
      · intro session' record next' hs' halive hupdated hp'
        cases hself.symm.trans hs'
        cases hupdated
      · intro session' record hs' halive hidle hlast
        cases hself.symm.trans hs'
        exact absurd hlast not_lastCompleted_nil
    · exact (h.kept j).congr (Function.update_of_ne hj _ _) (Function.update_of_ne hj _ _)
        (fun _ => Iff.rfl) (howned j)
  | lost serial err finished hends huncommitted hs =>
    refine ⟨h.committedRow, fun j => ?_⟩
    by_cases hj : j = i
    · subst hj
      refine kept_of_dead rfl fun session' hs' => ?_
      cases hself.symm.trans hs'
    · exact (h.kept j).congr (Function.update_of_ne hj _ _) (Function.update_of_ne hj _ _)
        (fun _ => released_eq.trans (and_iff_left hj)) (howned j)
  | committed serial err finished hends hcommitted hs =>
    next session =>
    cases hends
    obtain ⟨rfl, session', hs', halive⟩ := finish_permitted hpermits hcommitted
    rw [hs] at hs'
    cases hs'
    have hcommits := h.commits hc hkeyed hp hs halive
    refine ⟨?_, fun j => ?_⟩
    · intro row hrow
      refine ⟨h.visibleRow i row hrow, ?_⟩
      rcases hcommits with ⟨-, -, hvisible⟩ | ⟨record, row', -, -, -, hvisible, hrecords⟩
      · exact (h.committedRow row (hvisible.symm.trans hrow)).2
      · obtain rfl := Option.some.inj (hvisible.symm.trans hrow)
        exact hrecords.status
    by_cases hj : j = i
    · subst hj
      refine kept_of_dead rfl fun session' hs' => ?_
      cases hself.symm.trans hs'
    · refine (h.kept j).congr (Function.update_of_ne hj _ _) (Function.update_of_ne hj _ _)
        (fun _ => released_eq.trans (and_iff_left hj)) fun row hheld => ?_
      rcases hcommits with ⟨-, -, hvisible⟩ | ⟨record, row', -, -, hheld', -, -⟩
      · exact hvisible.trans (howned j row hheld)
      · rw [hheld] at hheld'
        cases hheld'
        exact absurd rfl hj

end Reply

/-! ### The callers over a step -/

section ControlSteps

variable {ι : Type} [DecidableEq ι] {callers : ι → Caller} {key : Atomicity.Binding}
  {s t : System ι} {i : ι} {session : Session} {op : Op} {r : op.Response}
  {next : op.Response → Program (Except Err Result)}

omit [DecidableEq ι] in
theorem control_initial : Control callers (initial callers) where
  position i := Prog.after_nil _
  opened i session hs := by cases hs
  pending i session op next hs := by cases hs
  atomic i := by
    constructor
    · intro serial err finished hm
      cases hm
    · intro serial finished hm
      cases hm

/-- One more call keeps what the manager promises. -/
theorem atomic_snoc {checks : Checks} {h : History} (ha : Atomic h)
    (hpermits : permits checks s i op r = true) : Atomic (h ++ [⟨op, r⟩]) := by
  constructor
  · intro serial err finished hm hcommitted
    rcases List.mem_append.mp hm with hm | hm
    · exact ha.succeeded serial err finished hm hcommitted
    · cases List.mem_singleton.mp hm
      exact (finish_permitted hpermits hcommitted).1
  · intro serial finished hm hreply
    rcases List.mem_append.mp hm with hm | hm
    · exact ha.reported serial finished hm hreply
    · cases List.mem_singleton.mp hm
      exact finish_reported hpermits hreply

/-- An open transaction changes, but not its calls. -/
theorem Control.changed (h : Control callers s) (hs : s.session i = some session) {session' : Session}
    {held : Option (ι × Option Row)} (hcalls : session'.calls = session.calls)
    (hanswers : ∀ op next, s.program i = .call op next → answers session'.pending op = true) :
    Control callers
      { s with session := Function.update s.session i (some session'), held := held } := by
  refine ⟨h.position, fun j other hs' => ?_, fun j other op' next' hs' hp' => ?_, h.atomic⟩
  · by_cases hj : j = i
    · subst hj
      cases (Function.update_self ..).symm.trans hs'
      rw [hcalls]
      exact h.opened j session hs
    · exact h.opened j other ((Function.update_of_ne hj _ _).symm.trans hs')
  · by_cases hj : j = i
    · subst hj
      cases (Function.update_self ..).symm.trans hs'
      exact hanswers op' next' hp'
    · exact h.pending j other op' next' ((Function.update_of_ne hj _ _).symm.trans hs') hp'

theorem Control.wrote (h : Control callers s) {now : ℤ} {row : Option Row} {pending : Pending}
    (hp : s.program i = .call op next) (hs : s.session i = some session)
    (hw : Written now (s.visible i) op row pending) :
    Control callers (System.wrote s i session row pending) := by
  refine h.changed hs rfl fun op' next' hp' => ?_
  cases hp.symm.trans hp'
  exact hw.answers.1

theorem Control.rolledBack (h : Control callers s) (hs : s.session i = some session) :
    Control callers (System.rolledBack s i session) :=
  h.changed hs rfl fun op' next' hp' => h.pending i session op' next' hs hp'

/-- The open transaction of a caller after a reply to it. -/
theorem session_of_replied {u : System ι} (h : Replied s i op r u) :
    (∀ j, j ≠ i → u.session j = s.session j) ∧
      ∀ session, u.session i = some session → session.pending = .idle ∧
        ((isBoundary op = false ∧ ∃ old, s.session i = some old ∧
            session.calls = old.calls ++ [⟨op, r⟩]) ∨
          (session.calls = [] ∧ ∃ serial,
            (⟨op, r⟩ : Environment.Call) = ⟨.begin, .run serial⟩)) := by
  cases h with
  | outside hclosed =>
    refine ⟨fun j hj => rfl, fun session hs => ?_⟩
    rw [hclosed] at hs
    cases hs
  | called hinside hs =>
    refine ⟨fun j hj => Function.update_of_ne hj _ _, fun session hs' => ?_⟩
    cases (Function.update_self _ _ _).symm.trans hs'
    exact ⟨rfl, Or.inl ⟨hinside, _, hs, rfl⟩⟩
  | opened serial hbegins =>
    refine ⟨fun j hj => Function.update_of_ne hj _ _, fun session hs' => ?_⟩
    cases (Function.update_self _ _ _).symm.trans hs'
    exact ⟨rfl, Or.inr ⟨rfl, serial, hbegins⟩⟩
  | lost serial err finished hends huncommitted hs =>
    refine ⟨fun j hj => Function.update_of_ne hj _ _, fun session hs' => ?_⟩
    cases (Function.update_self _ _ _).symm.trans hs'
  | committed serial err finished hends hcommitted hs =>
    refine ⟨fun j hj => Function.update_of_ne hj _ _, fun session hs' => ?_⟩
    cases (Function.update_self _ _ _).symm.trans hs'

theorem Control.replied (h : Control callers s) (hp : s.program i = .call op next)
    (hpermits : permits (callers i).engine.checks s i op r = true) :
    Control callers (System.replied s i op r next) := by
  have hbegin : op = .begin → s.session i = none := by
    rintro rfl
    exact h.closed_of_begin hp
  obtain ⟨hother, hself⟩ := session_of_replied (replied_of_record (r := r) hbegin)
  have hprogram : ∀ j, j ≠ i → (System.replied s i op r next).program j = s.program j := by
    intro j hj
    show Function.update s.program i (next r) j = _
    exact Function.update_of_ne hj _ _
  have hhistory : ∀ j, j ≠ i → (System.replied s i op r next).history j = s.history j := by
    intro j hj
    show Function.update s.history i _ j = _
    exact Function.update_of_ne hj _ _
  have hcalled : (System.replied s i op r next).history i = s.history i ++ [⟨op, r⟩] := by
    show Function.update s.history i _ i = _
    exact Function.update_self _ _ _
  have hnext : (System.replied s i op r next).program i = next r := by
    show Function.update s.program i _ i = _
    exact Function.update_self _ _ _
  refine ⟨?_, ?_, ?_, ?_⟩
  · intro j
    by_cases hj : j = i
    · subst hj
      rw [hcalled, hnext]
      have hposition := h.position j
      rw [hp] at hposition
      exact hposition.snoc r
    · rw [hhistory j hj, hprogram j hj]
      exact h.position j
  · intro j session hs
    by_cases hj : j = i
    · subst hj
      rw [hcalled]
      obtain ⟨-, ⟨hop, old, hold, hcalls⟩ | ⟨hcalls, serial, hbegins⟩⟩ := hself session hs
      · obtain ⟨hinterior, before, serial, heq⟩ := h.opened j old hold
        rw [hcalls]
        refine ⟨hinterior.append (interior_cons hop interior_nil), before, serial, ?_⟩
        rw [heq]
        simp
      · rw [hcalls, hbegins]
        exact ⟨interior_nil, s.history j, serial, rfl⟩
    · rw [hhistory j hj]
      exact h.opened j session ((hother j hj).symm.trans hs)
  · intro j session op' next' hs hp'
    by_cases hj : j = i
    · subst hj
      rw [(hself session hs).1]
      rfl
    · exact h.pending j session op' next' ((hother j hj).symm.trans hs)
        ((hprogram j hj).symm.trans hp')
  · intro j
    by_cases hj : j = i
    · subst hj
      rw [hcalled]
      exact atomic_snoc (h.atomic j) hpermits
    · rw [hhistory j hj]
      exact h.atomic j

end ControlSteps

/-! ### The committed transactions -/

/-- A record was found in the transaction. -/
def Finds (calls : History) (existing : IdempotencyRecord) : Prop :=
  (∃ record, ⟨.lookup .tx record, .returned (some existing) .nil⟩ ∈ calls) ∨
    ∃ record, ⟨.reserve .tx record, .returned (some existing) .nil⟩ ∈ calls

/-- The record is the committed row. -/
def Holds {ι : Type} (s : System ι) (existing : IdempotencyRecord) : Prop :=
  ∃ row, s.committed = some row ∧ readOf row = existing

/-- One of the committed transactions completed a record, and the others wrote nothing. -/
def Single {ι : Type} (s : System ι) : Prop :=
  ∃ before w after record row, s.executions = before ++ w :: after ∧
    (∀ p ∈ before ++ after, Untouched p.2) ∧ LastCompleted w.2 record ∧
    s.committed = some row ∧ Records record row

/-- What the committed transactions did. -/
structure Ledger {ι : Type} (callers : ι → Caller) (s : System ι) : Prop where
  settled : ∀ p ∈ s.executions, ∃ h₀ rest outcome,
    Settled (callers p.1).engine (callers p.1).request h₀ p.2 outcome ∧ s.history p.1 = h₀ ++ rest
  listed : ∀ i tx, CommittedIn (s.history i) tx → (i, tx) ∈ s.executions
  finding : ∀ i session existing, s.session i = some session → Untouched session.calls →
    Finds session.calls existing → Holds s existing
  found : ∀ p ∈ s.executions, ∀ existing, Untouched p.2 → Finds p.2 existing → Holds s existing
  single : (s.committed = none ∧ ∀ p ∈ s.executions, Untouched p.2) ∨ Single s

theorem finds_snoc {calls : History} {c : Environment.Call} {existing : IdempotencyRecord}
    (h : Finds (calls ++ [c]) existing) : Finds calls existing ∨
      (∃ record, c = ⟨.lookup .tx record, .returned (some existing) .nil⟩) ∨
        ∃ record, c = ⟨.reserve .tx record, .returned (some existing) .nil⟩ := by
  rcases h with ⟨record, hm⟩ | ⟨record, hm⟩
  · rcases List.mem_append.mp hm with hm | hm
    · exact Or.inl (Or.inl ⟨record, hm⟩)
    · exact Or.inr (Or.inl ⟨record, (List.mem_singleton.mp hm).symm⟩)
  · rcases List.mem_append.mp hm with hm | hm
    · exact Or.inl (Or.inr ⟨record, hm⟩)
    · exact Or.inr (Or.inr ⟨record, (List.mem_singleton.mp hm).symm⟩)

/-- A transaction that is committed at the end of a history, or before it. -/
theorem committedIn_snoc {h tx : History} {c : Environment.Call} (hc : CommittedIn (h ++ [c]) tx) :
    CommittedIn h tx ∨ ∃ before serial serial' err finished,
      h = before ++ ⟨.begin, .run serial⟩ :: tx ∧ Interior tx ∧
        c = ⟨.finish serial' err, finished⟩ ∧ (finished : Finished).committed = true := by
  obtain ⟨before, serial, serial', err, finished, after, heq, hinterior, hcommitted⟩ := hc
  rcases List.eq_nil_or_concat after with rfl | ⟨after, d, rfl⟩
  · have hsplit : h ++ [c] = (before ++ ⟨.begin, .run serial⟩ :: tx) ++
        [⟨.finish serial' err, finished⟩] := by rw [heq]; simp
    obtain ⟨hh, hc⟩ := List.append_inj' hsplit rfl
    exact Or.inr ⟨before, serial, serial', err, finished, hh, hinterior, (List.cons.inj hc).1,
      hcommitted⟩
  · have hsplit : h ++ [c] = (before ++ ⟨.begin, .run serial⟩ :: (tx ++
        ⟨.finish serial' err, finished⟩ :: after)) ++ [d] := by rw [heq]; simp
    obtain ⟨hh, -⟩ := List.append_inj' hsplit rfl
    exact Or.inl ⟨before, serial, serial', err, finished, after, hh, hinterior, hcommitted⟩

section Ledger

variable {ι : Type} [DecidableEq ι] {callers : ι → Caller} {key : Atomicity.Binding}
  {s t : System ι} {i : ι} {session : Session} {op : Op} {r : op.Response}
  {next : op.Response → Program (Except Err Result)}

omit [DecidableEq ι] in
theorem ledger_initial : Ledger callers (initial callers) := by
  refine ⟨fun p hp => ?_, fun i tx hc => ?_, fun i session existing hs => ?_, fun p hp => ?_,
    Or.inl ⟨rfl, fun p hp => ?_⟩⟩
  · cases hp
  · obtain ⟨before, serial, serial', err, finished, after, heq, -, -⟩ := hc
    cases before <;> cases heq
  · cases hs
  · cases hp
  · cases hp

omit [DecidableEq ι] in
/-- A step that changes no history, no committed row and no calls of a transaction. -/
theorem Ledger.quiet (h : Ledger callers s) (hhistory : t.history = s.history)
    (hcommitted : t.committed = s.committed) (hexecutions : t.executions = s.executions)
    (hsession : ∀ j session, t.session j = some session →
      ∃ old, s.session j = some old ∧ old.calls = session.calls) : Ledger callers t := by
  have hholds : ∀ existing, Holds s existing → Holds t existing := by
    rintro existing ⟨row, hrow, hread⟩
    exact ⟨row, hcommitted.trans hrow, hread⟩
  refine ⟨?_, ?_, ?_, ?_, ?_⟩
  · intro p hp
    rw [hexecutions] at hp
    rw [hhistory]
    exact h.settled p hp
  · intro j tx hc
    rw [hhistory] at hc
    rw [hexecutions]
    exact h.listed j tx hc
  · intro j session existing hs hu hf
    obtain ⟨old, hold, hcalls⟩ := hsession j session hs
    rw [← hcalls] at hu hf
    exact hholds existing (h.finding j old existing hold hu hf)
  · intro p hp existing hu hf
    rw [hexecutions] at hp
    exact hholds existing (h.found p hp existing hu hf)
  · unfold Single
    rw [hcommitted, hexecutions]
    exact h.single

/-- One transaction goes on with the same calls. -/
theorem old_of_update (new : Session) (hs : s.session i = some session)
    (hcalls : session.calls = new.calls) {j : ι} {session' : Session}
    (hs' : Function.update s.session i (some new) j = some session') :
    ∃ old, s.session j = some old ∧ old.calls = session'.calls := by
  by_cases hj : j = i
  · subst hj
    cases (Function.update_self _ _ _).symm.trans hs'
    exact ⟨session, hs, hcalls⟩
  · rw [Function.update_of_ne hj] at hs'
    exact ⟨session', hs', rfl⟩

theorem Ledger.wrote (h : Ledger callers s) {row : Option Row} {pending : Pending}
    (hs : s.session i = some session) : Ledger callers (System.wrote s i session row pending) := by
  exact h.quiet rfl rfl rfl fun j session' hs' =>
    old_of_update { session with pending := pending } hs rfl hs'

theorem Ledger.rolledBack (h : Ledger callers s) (hs : s.session i = some session) :
    Ledger callers (System.rolledBack s i session) := by
  exact h.quiet rfl rfl rfl fun j session' hs' =>
    old_of_update { session with alive := false } hs rfl hs'

/-- What a transaction finds that has written nothing is committed. -/
theorem holds_of_found (ht : Table key s) (hc : Control callers s)
    (hp : s.program i = .call op next) (hs : s.session i = some session)
    (hpermits : permits (callers i).engine.checks s i op r = true) {existing : IdempotencyRecord}
    (hu : Untouched session.calls)
    (hf : (∃ record, (⟨op, r⟩ : Environment.Call) =
        ⟨.lookup .tx record, .returned (some existing) .nil⟩) ∨
      ∃ record, (⟨op, r⟩ : Environment.Call) =
        ⟨.reserve .tx record, .returned (some existing) .nil⟩) : Holds s existing := by
  have ha := hc.pending i session op next hs hp
  have hwrote : Exclusion.wrote session.pending = false := by
    refine not_wrote_of_untouched hs ha hpermits ?_
    rcases hf with ⟨record, heq⟩ | ⟨record, heq⟩
    · rw [heq]
      rfl
    · rw [heq]
      rfl
  have hvisible := visible_of_not_held (ht.not_held hs hu hwrote)
  have hfound : ∃ found, s.visible i = some found ∧ readOf found = existing := by
    rcases hf with ⟨record, heq⟩ | ⟨record, heq⟩
    · cases heq
      exact lookup_permitted hpermits
    · cases heq
      exact (reserve_permitted hs hpermits).2
  obtain ⟨found, hfound, hread⟩ := hfound
  exact ⟨found, hvisible.symm.trans hfound, hread⟩

/-- The histories after a reply: the committed transactions go on being settled. -/
theorem settled_replied (h : Ledger callers s) (c : Environment.Call) :
    ∀ p ∈ s.executions, ∃ h₀ rest outcome,
      Settled (callers p.1).engine (callers p.1).request h₀ p.2 outcome ∧
        Function.update s.history i (s.history i ++ [c]) p.1 = h₀ ++ rest := by
  intro p hp
  obtain ⟨h₀, rest, outcome, hsettled, heq⟩ := h.settled p hp
  by_cases hj : p.1 = i
  · refine ⟨h₀, rest ++ [c], outcome, hsettled, ?_⟩
    rw [hj, Function.update_self, ← hj, heq, List.append_assoc]
  · rw [Function.update_of_ne hj]
    exact ⟨h₀, rest, outcome, hsettled, heq⟩

/-- A transaction is committed by a reply only if the reply says so. -/
theorem listed_replied (h : Ledger callers s) {c : Environment.Call}
    (hopen : ∀ serial err finished, c = ⟨.finish serial err, finished⟩ →
      finished.committed = false) :
    ∀ j tx, CommittedIn (Function.update s.history i (s.history i ++ [c]) j) tx →
      (j, tx) ∈ s.executions := by
  intro j tx hc
  by_cases hj : j = i
  · subst hj
    rw [Function.update_self] at hc
    rcases committedIn_snoc hc with hc | ⟨before, serial, serial', err, finished, -, -, heq, hcommitted⟩
    · exact h.listed j tx hc
    · rw [hopen serial' err finished heq] at hcommitted
      cases hcommitted
  · rw [Function.update_of_ne hj] at hc
    exact h.listed j tx hc

/-- A reply that commits nothing. -/
theorem Ledger.uncommitted (h : Ledger callers s) {u : System ι} (i : ι) (c : Environment.Call)
    (hcommitted : u.committed = s.committed)
    (hexecutions : u.executions = s.executions)
    (hhistory : u.history = Function.update s.history i (s.history i ++ [c]))
    (hopen : ∀ serial err finished, c = ⟨.finish serial err, finished⟩ →
      finished.committed = false)
    (hfinding : ∀ j session existing, u.session j = some session → Untouched session.calls →
      Finds session.calls existing → Holds s existing) : Ledger callers u := by
  have hholds : ∀ existing, Holds s existing → Holds u existing := by
    rintro existing ⟨row, hrow, hread⟩
    exact ⟨row, hcommitted.trans hrow, hread⟩
  refine ⟨?_, ?_, ?_, ?_, ?_⟩
  · rw [hexecutions, hhistory]
    exact settled_replied h c
  · rw [hexecutions, hhistory]
    exact listed_replied h hopen
  · intro j session existing hs hu hf
    exact hholds existing (hfinding j session existing hs hu hf)
  · intro p hp existing hu hf
    rw [hexecutions] at hp
    exact hholds existing (h.found p hp existing hu hf)
  · unfold Single
    rw [hcommitted, hexecutions]
    exact h.single

/-- Callers whose transactions stay as they are. -/
theorem finding_of_other (h : Ledger callers s) {x : Option Session} {j : ι} {session' : Session}
    {existing : IdempotencyRecord} (hj : j ≠ i)
    (hs : Function.update s.session i x j = some session') (hu : Untouched session'.calls)
    (hf : Finds session'.calls existing) : Holds s existing :=
  h.finding j session' existing ((Function.update_of_ne hj _ _).symm.trans hs) hu hf

theorem Ledger.replied (h : Ledger callers s) (ht : Table key s) (hc : Control callers s)
    (hkeyed : (callers i).request.idempotencyKey ≠ .utf8 "")
    (hp : s.program i = .call op next)
    (hpermits : permits (callers i).engine.checks s i op r = true) :
    Ledger callers (System.replied s i op r next) := by
  have hbegin : op = .begin → s.session i = none := by
    rintro rfl
    exact hc.closed_of_begin hp
  have hself : ∀ {x : Option Session}, Function.update s.session i x i = x :=
    Function.update_self _ _ _
  have hrecord := replied_of_record (r := r) hbegin
  have hcommittedOpen : ∀ {serial : ℕ} {err : Err} {finished : Finished}, s.session i = none →
      (⟨op, r⟩ : Environment.Call) = ⟨.finish serial err, finished⟩ →
        finished.committed = false := by
    intro serial err finished hclosed heq
    cases heq
    by_contra hcommitted
    rw [Bool.not_eq_false] at hcommitted
    obtain ⟨-, session, hs, -⟩ := finish_permitted hpermits hcommitted
    rw [hclosed] at hs
    cases hs
  unfold System.replied
  generalize s.record i op r = u at hrecord
  cases hrecord with
  | outside hclosed =>
    exact h.uncommitted i ⟨op, r⟩ rfl rfl rfl
      (fun serial err finished heq => hcommittedOpen hclosed heq) h.finding
  | called hinside hs =>
    next session =>
    refine h.uncommitted i ⟨op, r⟩ rfl rfl rfl ?_ ?_
    · intro serial err finished heq
      cases heq
      cases hinside
    · intro j session' existing hs' hu hf
      by_cases hj : j = i
      · subst hj
        cases hself.symm.trans hs'
        obtain ⟨hu, -⟩ := untouched_snoc.mp hu
        rcases finds_snoc hf with hf | hf
        · exact h.finding j session existing hs hu hf
        · exact holds_of_found ht hc hp hs hpermits hu hf
      · exact finding_of_other h hj hs' hu hf
  | opened serial hbegins =>
    refine h.uncommitted i ⟨op, r⟩ rfl rfl rfl ?_ ?_
    · intro serial' err finished heq
      cases hbegins.symm.trans heq
    · intro j session' existing hs' hu hf
      by_cases hj : j = i
      · subst hj
        cases hself.symm.trans hs'
        rcases hf with ⟨record, hm⟩ | ⟨record, hm⟩
        · cases hm
        · cases hm
      · exact finding_of_other h hj hs' hu hf
  | lost serial err finished hends huncommitted hs =>
    refine h.uncommitted i ⟨op, r⟩ rfl rfl rfl ?_ ?_
    · intro serial' err' finished' heq
      cases hends.symm.trans heq
      exact huncommitted
    · intro j session' existing hs' hu hf
      by_cases hj : j = i
      · subst hj
        cases hself.symm.trans hs'
      · exact finding_of_other h hj hs' hu hf
  | committed serial err finished hends hcommitted hs =>
    next session =>
    cases hends
    obtain ⟨rfl, session', hs', halive⟩ := finish_permitted hpermits hcommitted
    rw [hs] at hs'
    cases hs'
    have hcommits := ht.commits hc hkeyed hp hs halive
    -- what was found stays committed
    have hholds : ∀ existing, Holds s existing → ∃ row, s.visible i = some row ∧
        readOf row = existing := by
      rintro existing ⟨row, hrow, hread⟩
      rcases hcommits with ⟨-, -, hvisible⟩ | ⟨record, row', -, hnone, -⟩
      · exact ⟨row, hvisible.trans hrow, hread⟩
      · rw [hnone] at hrow
        cases hrow
    refine ⟨?_, ?_, ?_, ?_, ?_⟩
    · intro p hm
      rcases List.mem_append.mp hm with hm | hm
      · exact settled_replied h ⟨_, _⟩ p hm
      · obtain rfl := List.mem_singleton.mp hm
        obtain ⟨h₀, rest, outcome, hsettled, heq⟩ := hc.settled hp hs
        refine ⟨h₀, rest ++ [⟨.finish serial .nil, finished⟩], outcome, hsettled, ?_⟩
        show Function.update s.history i _ i = _
        rw [Function.update_self, heq, List.append_assoc]
    · intro j tx hcommit
      change CommittedIn (Function.update s.history i _ j) tx at hcommit
      by_cases hj : j = i
      · subst hj
        rw [Function.update_self] at hcommit
        rcases committedIn_snoc hcommit with hcommit | ⟨before, serial', -, -, -, heq, hinterior, -, -⟩
        · exact List.mem_append_left _ (h.listed j tx hcommit)
        · obtain ⟨hopened, before', serial'', heq'⟩ := hc.opened j session hs
          obtain ⟨-, rfl⟩ := interior_unique rfl rfl hopened hinterior (heq'.symm.trans heq)
          exact List.mem_append_right _ (List.mem_singleton.mpr rfl)
      · rw [Function.update_of_ne hj] at hcommit
        exact List.mem_append_left _ (h.listed j tx hcommit)
    · intro j session' existing hs' hu hf
      by_cases hj : j = i
      · subst hj
        cases hself.symm.trans hs'
      · exact hholds existing (finding_of_other h hj hs' hu hf)
    · intro p hm existing hu hf
      rcases List.mem_append.mp hm with hm | hm
      · exact hholds existing (h.found p hm existing hu hf)
      · obtain rfl := List.mem_singleton.mp hm
        exact hholds existing (h.finding i session existing hs hu hf)
    · rcases hcommits with ⟨hu, -, hvisible⟩ | ⟨record, row, hlast, hnone, -, hvisible, hrecords⟩
      · rcases h.single with ⟨hnone, hall⟩ | ⟨before, w, after, record, row, heq, hall, hlast, hrow,
          hrecords⟩
        · refine Or.inl ⟨hvisible.trans hnone, fun p hm => ?_⟩
          rcases List.mem_append.mp hm with hm | hm
          · exact hall p hm
          · obtain rfl := List.mem_singleton.mp hm
            exact hu
        · refine Or.inr ⟨before, w, after ++ [(i, session.calls)], record, row, ?_, ?_, hlast,
            hvisible.trans hrow, hrecords⟩
          · show s.executions ++ _ = _
            rw [heq, List.append_assoc, List.cons_append]
          · intro p hm
            rw [← List.append_assoc] at hm
            rcases List.mem_append.mp hm with hm | hm
            · exact hall p hm
            · obtain rfl := List.mem_singleton.mp hm
              exact hu
      · rcases h.single with ⟨-, hall⟩ | ⟨before, w, after, record', row', -, -, -, hrow, -⟩
        · refine Or.inr ⟨s.executions, (i, session.calls), [], record, row, rfl, ?_, hlast,
            hvisible, hrecords⟩
          intro p hm
          rw [List.append_nil] at hm
          exact hall p hm
        · rw [hnone] at hrow
          cases hrow

end Ledger

/-! ### Runs -/

section Runs

variable {ι : Type} [DecidableEq ι] {callers : ι → Caller} {key : Atomicity.Binding}
  {s : System ι}

omit [DecidableEq ι] in
theorem table_initial : Table key (initial callers) where
  committedRow row hrow := by cases hrow
  kept i := ⟨fun row hheld => (by cases hheld), fun row hheld => (by cases hheld),
    fun session record next hs => (by cases hs), fun session record hs => (by cases hs)⟩

/-- What every step keeps. -/
structure Invariant (callers : ι → Caller) (key : Atomicity.Binding) (s : System ι) : Prop where
  control : Control callers s
  table : Table key s
  ledger : Ledger callers s

theorem Invariant.stepped {t : System ι} (h : Invariant callers key s)
    (hkeyed : ∀ i, (callers i).request.idempotencyKey ≠ .utf8 "")
    (hstep : Stepped callers key s t) : Invariant callers key t := by
  cases hstep with
  | wrote hp hs halive hidle hw hfree hrow =>
    exact ⟨h.control.wrote hp hs hw, h.table.wrote hp hs hidle hw hfree hrow, h.ledger.wrote hs⟩
  | rolledBack hs =>
    exact ⟨h.control.rolledBack hs, h.table.rolledBack, h.ledger.rolledBack hs⟩
  | replied hp hpermits =>
    exact ⟨h.control.replied hp hpermits, h.table.replied h.control (hkeyed _) hp hpermits,
      h.ledger.replied h.table h.control (hkeyed _) hp hpermits⟩

/-- **The invariant of every run.** -/
theorem invariant_run (hkey : ∀ i, requestBinding (callers i).request = key)
    (hkeyed : key.key ≠ .utf8 "") {events : List (Interleaving.Event ι)}
    (hrun : run (Interleaving.step callers) events (initial callers) = some s) :
    Invariant callers key s := by
  refine run_induction (P := fun _ s => Invariant callers key s)
    ⟨control_initial, table_initial, ledger_initial⟩ ?_ hrun
  intro events event s t h hstep
  refine h.stepped (fun i => ?_) (stepped_of_step h.control hkey h.table.visibleRow hstep)
  have hi : (requestBinding (callers i).request).key = key.key := by rw [hkey i]
  rw [show (callers i).request.idempotencyKey = key.key from hi]
  exact hkeyed

end Runs

/-! ### What is committed for the key -/

/-- The calls of handlers whose transactions were committed. -/
def effects {ι : Type} (s : System ι) : History :=
  (s.executions.flatMap fun p => p.2).filter fun c => executes c.op

/-- The record was completed in a committed transaction by the handler that returned its result. -/
def Recorded {ι : Type} (s : System ι) (record : IdempotencyRecord) : Prop :=
  ∃ p ∈ s.executions, (∃ plan, ⟨.handlerExecute .tx plan, .returned record.result .nil⟩ ∈ p.2) ∧
    ⟨.complete .tx record, .returned () .nil⟩ ∈ p.2

/-- The record is of the input, the contract and the channel of the call, and of its plan if it was
given one. -/
structure Agrees (caller : Caller) (h : History) (record : IdempotencyRecord) : Prop where
  input : ∃ canonical hash canonical', canonicalInput caller.engine caller.request.input =
    .ok (canonical, hash) ∧ canonicalInput caller.engine canonical =
      .ok (canonical', record.inputHash)
  contract : ∀ id registered, ⟨.acquire id, .found registered⟩ ∈ h →
    record.actionVersion = registered.descriptor.version ∧
      record.contractHash = registered.contractHash
  channel : record.channel = caller.request.channel
  plan : caller.request.planHash ≠ .utf8 "" → record.planHash = caller.request.planHash

/-! ### One acquisition -/

section Acquisition

/-- The call acquires the action. -/
def acquires : Op → Bool
  | .acquire _ => true
  | _ => false

/-- The program acquires nothing. -/
def Holding {ε α : Type} (p : Attempt Op Op.Response ε α) : Prop :=
  Attempt.Confined (fun op => acquires op = false) p

variable {e : Engine} {given request : Action.Types.Request} {registered : Registration}
  {startedAt : Time} {record : IdempotencyRecord}

theorem not_acquires_of_consults (op : Op) (h : consults op = true) : acquires op = false := by
  cases op <;> first | rfl | cases h

theorem holding_event {decision : AuditDecision} {errorCode summary : GoString} {impact : Impact}
    {references : List Reference} {h : History} :
    Prog.Meets (fun _ op => acquires op = false) (fun _ _ => True)
      (event e request registered startedAt decision errorCode summary impact references) h := by
  unfold event
  exact Prog.meets_bind.mpr ⟨rfl, fun reading => trivial⟩

theorem holding_executePlan {plan : Plan} {reservation : Option IdempotencyRecord} :
    Holding (executePlan e startedAt request registered plan reservation) := by
  unfold executePlan handlerExecute
  refine Attempt.Confined.bind (Attempt.Confined.bind (Attempt.confined_attempt rfl) fun result =>
    confined_ofExcept.bind fun _ => Attempt.confined_pure) fun result => ?_
  refine Attempt.Confined.bind ?_ fun _ => Attempt.Confined.bind ?_ fun _ => Attempt.confined_pure
  · unfold completeReservation
    cases reservation with
    | none => exact Attempt.confined_pure
    | some reservation => exact Attempt.confined_attempt rfl
  · unfold auditAllowed
    refine Attempt.Confined.bind (confined_lift fun h => holding_event) fun auditEvent => ?_
    exact Attempt.confined_attempt rfl

theorem holding_releasing {α : Type} {reservation : IdempotencyRecord} {operation : Step α}
    (hop : Holding operation) : Holding (releasing reservation operation) := by
  intro h
  unfold releasing
  refine meets_run (hop h) (fun _ _ _ => trivial) fun h' err _ => ?_
  have habort : Holding (abort reservation) := Attempt.confined_attempt rfl
  exact meets_run (habort h') (fun _ _ _ => trivial) fun _ _ _ => trivial

theorem holding_executeBody {plan : Plan} :
    Holding (executeBody e startedAt request registered record plan) := by
  unfold executeBody
  refine Attempt.Confined.bind (confined_authorizeWithFallback e not_acquires_of_consults)
    fun intent => ?_
  refine Attempt.Confined.bind (confined_authorizeImpact e not_acquires_of_consults)
    fun decision => ?_
  split
  · exact holding_executePlan
  · refine Attempt.Confined.bind (Attempt.confined_attempt rfl) fun found => ?_
    cases found with
    | none => exact holding_releasing holding_executePlan
    | some existing =>
      refine confined_ofExcept.bind fun existing => ?_
      exact (confined_completedResult e not_acquires_of_consults).bind fun result =>
        Attempt.confined_pure

theorem holding_replayBody : Holding (replayBody e request registered record) := by
  unfold replayBody
  refine Attempt.Confined.bind (confined_lookup not_acquires_of_consults) fun found => ?_
  cases found with
  | none => exact Attempt.confined_throw
  | some current =>
    refine confined_ofExcept.bind fun existing => ?_
    refine (confined_authorizeWithFallback e not_acquires_of_consults).bind fun intent => ?_
    exact (confined_completedResult e not_acquires_of_consults).bind fun result =>
      Attempt.confined_pure

theorem holding_withinTransaction {α : Type} {operation : Step α} (hop : Holding operation) :
    Holding (withinTransaction e operation) := by
  intro h
  unfold withinTransaction
  show Prog.Meets _ _ _ h
  refine Prog.meets_bind.mpr ⟨rfl, fun started => ?_⟩
  cases started with
  | unused reply => trivial
  | nilContext serial reply => trivial
  | violated reply => trivial
  | run serial =>
    refine meets_run (hop _) (fun h' a _ => ?_) fun h' err _ => ?_
    -- whatever the operation ended with, the transaction is finished
    all_goals
      refine Prog.meets_bind.mpr ⟨rfl, fun finished => Prog.meets_ret.mpr ?_⟩
      dsimp only
      split
      · trivial
      · trivial

theorem holding_settle {outcome : Engine.Outcome} {ε : Type} :
    Holding (ExceptT.lift (outcome.settle e startedAt request registered) :
      Attempt Op Op.Response ε Result) := by
  refine confined_lift fun h => ?_
  cases outcome with
  | executed result => trivial
  | replayed existing result =>
    unfold Engine.Outcome.settle
    refine Prog.meets_bind.mpr (holding_event.mono fun h' auditEvent _ => ?_)
    exact Prog.meets_bind.mpr ⟨rfl, fun _ => trivial⟩

theorem holding_executeAdmitted : Holding (executeAdmitted e startedAt request registered) := by
  have hfresh : ∀ intent record, Holding (executeFresh e startedAt request registered intent record) := by
    intro intent record
    unfold executeFresh
    refine Attempt.Confined.bind (confined_preparePlan e not_acquires_of_consults) fun planned => ?_
    exact Attempt.Confined.bind (holding_withinTransaction holding_executeBody).adapt fun outcome =>
      holding_settle
  unfold executeAdmitted
  refine Attempt.Confined.bind
    (confined_authorizeWithFallback e not_acquires_of_consults).adapt fun intent => ?_
  refine Attempt.Confined.bind confined_ofExcept.adapt fun inputHash => ?_
  dsimp only
  split
  · exact hfresh _ _
  · refine Attempt.Confined.bind (confined_lookup not_acquires_of_consults).adapt fun found => ?_
    cases found with
    | none => exact hfresh _ _
    | some existing =>
      unfold executeReplay
      exact Attempt.Confined.bind (holding_withinTransaction holding_replayBody).adapt
        fun outcome => holding_settle

theorem holding_afterLease {acquired : Option Registration} {h : History} :
    Prog.Meets (fun _ op => acquires op = false) (fun _ _ => True)
      (governed.afterLease e given (executeAdmitted e) acquired) h := by
  unfold governed.afterLease
  have hnormalized : ∀ h', Prog.Meets (fun _ op => acquires op = false) (fun _ _ => True)
      (normalizeRequest given) h' := by
    intro h'
    unfold normalizeRequest
    split
    · exact Prog.meets_bind.mpr ⟨rfl, fun id => trivial⟩
    · trivial
  refine Prog.meets_bind.mpr ((hnormalized h).mono fun h' request _ => ?_)
  refine meets_run (@confined_currentTime _ not_acquires_of_consults h') (fun h' startedAt _ => ?_)
    fun _ _ _ => trivial
  have hadmitted : Holding (admitted e request acquired (executeAdmitted e startedAt)) := by
    unfold admitted
    split
    · exact Attempt.confined_throw
    · exact holding_executeAdmitted
  refine meets_run (hadmitted h') (fun _ _ _ => trivial) fun h' exit _ => ?_
  unfold fail
  refine Prog.meets_bind.mpr (Prog.meets_bind.mpr (holding_event.mono fun h' auditEvent _ => ?_))
  exact Prog.meets_bind.mpr ⟨rfl, fun _ => trivial⟩

/-- The action is acquired once, before anything else. -/
theorem acquires_first (hasContext : Bool) :
    Prog.Meets (fun h op => acquires op = true → h = []) (fun _ _ => True)
      (execute e hasContext given) [] := by
  have hrest : ∀ acquired h, Prog.Meets (fun h op => acquires op = true → h = []) (fun _ _ => True)
      (governed.afterLease e given (executeAdmitted e) acquired) h := by
    intro acquired h
    refine holding_afterLease.weaken fun h' op hop => ?_
    rw [hop]
    rintro ⟨⟩
  unfold execute governed
  dsimp only
  split
  · trivial
  refine Prog.meets_bind.mpr ⟨fun _ => rfl, fun acquired => ?_⟩
  cases acquired with
  | revoked => trivial
  | missing => exact hrest none _
  | found registered => exact hrest (some registered) _

/-- What was acquired is one registration. -/
theorem acquired_unique {hasContext : Bool} {h : History} {result : Except Err Result}
    (hr : (execute e hasContext given).Runs h result) {id id' : GoString}
    {registered registered' : Registration} (hm : ⟨.acquire id, .found registered⟩ ∈ h)
    (hm' : ⟨.acquire id', .found registered'⟩ ∈ h) : registered = registered' := by
  have hfirst : ∀ {id : GoString} {r : Acquired}, (⟨.acquire id, r⟩ : Environment.Call) ∈ h →
      h.head? = some ⟨.acquire id, r⟩ := by
    intro id r hm
    obtain ⟨before, after, rfl⟩ := List.append_of_mem hm
    have hnil := (acquires_first hasContext).calls hr.calls rfl
    rw [List.nil_append] at hnil
    rw [hnil]
    rfl
  have heq := (hfirst hm).symm.trans (hfirst hm')
  cases heq
  rfl

end Acquisition

/-! ### The one execution -/

section Execution

variable {e : Engine} {given : Action.Types.Request} {h tx : History} {outcome : Engine.Outcome}
  {record : IdempotencyRecord}

theorem LastCompleted.mem (hl : LastCompleted tx record) :
    ⟨.complete .tx record, .returned () .nil⟩ ∈ tx := by
  obtain ⟨before, after, rfl, -⟩ := hl
  simp

/-- Nothing is executed or completed where nothing is written. -/
theorem not_mem_of_untouched (hu : Untouched tx) {c : Environment.Call} (hw : writes c = true) :
    c ∉ tx := by
  intro hm
  rw [hu c hm] at hw
  cases hw

/-- A transaction that ends well and completes a record is an execution. -/
theorem execution_of_settled (hs : Settled e given h tx outcome)
    (hm : ⟨.complete .tx record, .returned () .nil⟩ ∈ tx) :
    ∃ job j k result reading, Ready e given h job ∧ tx = job.audited e j k result reading ∧
      record = job.completion result ∧ outcome = .executed result := by
  cases hs with
  | executed ready cleared output =>
    next job j k result reading =>
    refine ⟨job, j, k, result, reading, ready, rfl, ?_, rfl⟩
    unfold Job.audited Job.completed Job.executed Job.reserved Job.cleared Job.ifKeyed at hm
    split at hm
    · simp [intentCall, impactCall] at hm
    · simpa [intentCall, impactCall, Job.reserveCall] using hm
  | raced ready cleared keyed replayed =>
    simp [Job.cleared, Job.reserveCall, intentCall, impactCall] at hm
  | replayed accepted keyed replayed =>
    simp [intentCall, impactCall] at hm

/-- An execution runs its handler once. -/
theorem executes_audited (job : Job) (j k : Reply Decision) (result : Result)
    (reading : Option ℤ) : (job.audited e j k result reading).filter (fun c => executes c.op) =
      [⟨.handlerExecute .tx job.plan, .returned result .nil⟩] := by
  unfold Job.audited Job.completed Job.executed Job.reserved Job.cleared Job.ifKeyed
  split
  · rfl
  · rfl

theorem effects_of_untouched (hu : Untouched tx) :
    tx.filter (fun c => executes c.op) = [] := by
  refine List.filter_eq_nil_iff.mpr fun c hc hexec => ?_
  have hw := hu c hc
  obtain ⟨op, r⟩ := c
  cases op with
  | handlerExecute ctx plan => cases hw
  | _ => cases hexec

/-- What the record of a call says of the call. -/
theorem agrees_of_accepted {caller : Caller} {h₀ rest : History} {request : Action.Types.Request}
    {registered : Registration} {expected : IdempotencyRecord} {result : Except Err Result}
    (hr : caller.program.Runs (h₀ ++ rest) result)
    (ha : Accepted caller.engine caller.request h₀ request registered expected)
    (hinput : record.inputHash = expected.inputHash)
    (hcontract : record.actionVersion = expected.actionVersion ∧
      record.contractHash = expected.contractHash)
    (hchannel : record.channel = expected.channel)
    (hplan : request.planHash ≠ .utf8 "" → record.planHash = request.planHash) :
    Agrees caller (h₀ ++ rest) record := by
  obtain ⟨id, canonical, hash, rfl, hcanonical⟩ := ha.normalized
  obtain ⟨canonical', hash', hcanonical', rfl⟩ := ha.recorded
  refine ⟨⟨canonical, hash, canonical', hcanonical, ?_⟩, ?_, hchannel, hplan⟩
  · rw [hinput]
    exact hcanonical'
  · intro id' registered' hm
    obtain rfl := acquired_unique hr hm (List.mem_append_left _ ha.acquired)
    exact hcontract

/-- What `completedResult` compares. -/
theorem checkStored_agrees {expected existing : IdempotencyRecord}
    (hs : checkStored e expected existing = .ok ()) :
    existing.inputHash = expected.inputHash ∧
      (existing.actionVersion = expected.actionVersion ∧
        existing.contractHash = expected.contractHash) ∧
      existing.channel = expected.channel ∧
      (expected.planHash ≠ .utf8 "" → existing.planHash = expected.planHash) := by
  simp only [checkStored, bind_eq_ok] at hs
  obtain ⟨_, -, _, -, _, hchannel, _, hcontract, _, hplan, _, hinput, hs⟩ := hs
  have hchannel := refuseIf_eq_ok.mp hchannel
  have hcontract := refuseIf_eq_ok.mp hcontract
  have hplan := refuseIf_eq_ok.mp hplan
  have hinput := refuseIf_eq_ok.mp hinput
  refine ⟨not_not.mp hinput, ⟨?_, ?_⟩, ?_, fun hne => ?_⟩
  · exact not_not.mp fun hne => hcontract (Or.inl hne)
  · exact not_not.mp fun hne => hcontract (Or.inr hne)
  · exact not_not.mp fun hne => hchannel (Or.inr hne)
  · exact not_not.mp fun hdiff => hplan ⟨hne, hdiff⟩

/-- A loaded plan has the hash that was asked for. -/
theorem hash_eq_of_loaded {request : Action.Types.Request} {registered : Registration} {plan : Plan}
    (hl : Loaded e request registered h plan) : plan.hash = request.planHash := by
  obtain ⟨before, after, now, -, -, hc⟩ := hl
  exact (Runs.checkLoaded_ok hc).2.1

end Execution

section Claim

variable {ι : Type} [DecidableEq ι] {callers : ι → Caller} {key : Atomicity.Binding}
  {s : System ι}

omit [DecidableEq ι] in
/-- Where a record was completed, it is the committed row, and its handler ran alone. -/
theorem Invariant.recorded (h : Invariant callers key s) (hs : Single s) :
    (effects s).length = 1 ∧ ∃ record, Recorded s record ∧ Holds s record ∧
      ∀ p ∈ s.executions, ∀ record', ⟨.complete .tx record', .returned () .nil⟩ ∈ p.2 →
        record' = record := by
  obtain ⟨before, w, after, record, row, heq, hall, hlast, hrow, hrecords⟩ := hs
  have hmem : w ∈ s.executions := by
    rw [heq]
    simp
  obtain ⟨h₀, rest, outcome, hsettled, -⟩ := h.ledger.settled w hmem
  obtain ⟨job, j, k, result, reading, hready, htx, hrecord, -⟩ :=
    execution_of_settled hsettled hlast.mem
  have hbefore : ∀ l : List (ι × History), (∀ p ∈ l, Untouched p.2) →
      (l.flatMap fun p => p.2).filter (fun c => executes c.op) = [] := by
    intro l hl
    rw [List.filter_flatMap]
    exact List.flatMap_eq_nil_iff.mpr fun p hp => effects_of_untouched (hl p hp)
  have hleft := hbefore before fun p hp => hall p (List.mem_append_left _ hp)
  have hright := hbefore after fun p hp => hall p (List.mem_append_right _ hp)
  refine ⟨?_, record, ⟨w, hmem, ⟨job.plan, ?_⟩, hlast.mem⟩, ⟨row, hrow, ?_⟩, ?_⟩
  · unfold effects
    rw [heq, List.flatMap_append, List.flatMap_cons, List.filter_append, List.filter_append, hleft,
      hright, htx, executes_audited]
    rfl
  · rw [htx, hrecord]
    simp [Job.audited, Job.completed, Job.executed, Job.completion, completionOf]
  · refine hrecords.readOf_eq ?_
    rw [hrecord]
    rfl
  · intro p hp record' hm
    rw [heq] at hp
    have hw : p = w := by
      by_contra hne
      refine not_mem_of_untouched (hall p ?_) rfl hm
      rcases List.mem_append.mp hp with hp | hp
      · exact List.mem_append_left _ hp
      · rcases List.mem_cons.mp hp with hp | hp
        · exact absurd hp hne
        · exact List.mem_append_right _ hp
    subst hw
    obtain ⟨job', j', k', result', reading', -, htx', hrecord', -⟩ :=
      execution_of_settled hsettled hm
    have hcalls : (⟨.complete .tx record, .returned () .nil⟩ : Environment.Call) ∈
        job'.audited (callers p.1).engine j' k' result' reading' := by
      rw [← htx']
      exact hlast.mem
    rw [hrecord']
    unfold Job.audited Job.completed Job.executed Job.reserved Job.cleared Job.ifKeyed at hcalls
    split at hcalls
    · simp [intentCall, impactCall] at hcalls
    · simpa [intentCall, impactCall, Job.reserveCall, eq_comm] using hcalls

omit [DecidableEq ι] in
/-- A call that succeeded has its transaction among the committed ones. -/
theorem Invariant.succeeded (h : Invariant callers key s) {i : ι} {r : Result}
    (hkeyed : (callers i).request.idempotencyKey ≠ .utf8 "")
    (hp : s.program i = .ret (.ok r)) :
    ∃ record, Single s ∧ Holds s record ∧ r = record.result ∧
      Agrees (callers i) (s.history i) record := by
  have hposition := h.control.position i
  rw [hp] at hposition
  have hruns := hposition.runs
  obtain ⟨h₀, trace, tail, serial, outcome, finished, hsettled, heq, hreply, htime, -, rfl⟩ :=
    (meets_execute (callers i).hasContext).result hruns
  rw [List.nil_append] at heq
  have hcommitted := (h.control.atomic i).reported serial finished (by rw [heq]; simp) hreply
  have hlisted := h.ledger.listed i trace
    ⟨h₀, serial, serial, .nil, finished, tail, heq, interior_of_settled hsettled, hcommitted⟩
  rw [heq] at hruns ⊢
  -- a record that was found is the committed row
  have hreplays : ∀ existing, Untouched trace → Finds trace existing → Single s ∧ Holds s existing := by
    intro existing hu hf
    have hholds := h.ledger.found _ hlisted existing hu hf
    refine ⟨?_, hholds⟩
    rcases h.ledger.single with ⟨hnone, -⟩ | hsingle
    · obtain ⟨row, hrow, -⟩ := hholds
      rw [hnone] at hrow
      cases hrow
    · exact hsingle
  have huntouched := whole_or_untouched hsettled
  cases hsettled with
  | executed ready cleared output =>
    next job j k result reading =>
    have hjob := ready.accepted.keyed hkeyed
    have hm : (⟨.complete .tx (job.completion result), .returned () .nil⟩ : Environment.Call) ∈
        job.audited (callers i).engine j k result reading := by
      simp [Job.audited, Job.completed, Job.ifKeyed, hjob]
    have hsingle : Single s := by
      rcases h.ledger.single with ⟨-, hall⟩ | hsingle
      · exact absurd hm (not_mem_of_untouched (hall _ hlisted) rfl)
      · exact hsingle
    obtain ⟨-, record, -, hholds, hunique⟩ := h.recorded hsingle
    obtain rfl := hunique _ hlisted _ hm
    refine ⟨job.completion result, hsingle, hholds, rfl,
      agrees_of_accepted hruns ready.accepted rfl ⟨rfl, rfl⟩ rfl fun hne => ?_⟩
    exact hash_eq_of_loaded (ready.loaded hne)
  | raced ready cleared keyed replayed =>
    next job j k l existing result =>
    have hu := huntouched.resolve_left fun hw => by
      obtain ⟨plan, hm⟩ := hw.handler
      simp [Job.cleared, Job.reserveCall, intentCall, impactCall] at hm
    obtain ⟨hsingle, hholds⟩ := hreplays existing hu.1
      (Or.inr ⟨job.reservation, by simp [Job.reserveCall]⟩)
    obtain ⟨hinput, hcontract, hchannel, hplan⟩ := checkStored_agrees replayed.stored
    refine ⟨existing, hsingle, hholds, replayed.result,
      agrees_of_accepted hruns ready.accepted hinput hcontract hchannel fun hne => ?_⟩
    obtain ⟨_, _, -, hrecord⟩ := ready.accepted.recorded
    rw [hrecord] at hplan
    exact hplan hne
  | replayed accepted keyed replayed =>
    next request registered record existing j k result =>
    have hu := huntouched.resolve_left fun hw => by
      obtain ⟨plan, hm⟩ := hw.handler
      simp [intentCall, impactCall] at hm
    obtain ⟨hsingle, hholds⟩ := hreplays existing hu.1 (Or.inl ⟨record, by simp⟩)
    obtain ⟨hinput, hcontract, hchannel, hplan⟩ := checkStored_agrees replayed.stored
    refine ⟨existing, hsingle, hholds, replayed.result,
      agrees_of_accepted hruns accepted hinput hcontract hchannel fun hne => ?_⟩
    obtain ⟨_, _, -, hrecord⟩ := accepted.recorded
    rw [hrecord] at hplan
    exact hplan hne

/-- **One execution for each key.** However any number of calls with one key are interleaved with the
statements, the failures, the rollbacks and the commits of their transactions: at most one effect of
a handler is committed; where a call has succeeded, a record was completed by that execution; and what
a call returns is the result of the recorded execution, which was of the input, the contract, the
channel and, if one was given, the plan of that call. -/
theorem one_execution_per_key (callers : ι → Caller) (key : Atomicity.Binding)
    (hkey : ∀ i, requestBinding (callers i).request = key) (hkeyed : key.key ≠ .utf8 "")
    {events : List (Interleaving.Event ι)} {s : System ι}
    (hrun : run (Interleaving.step callers) events (initial callers) = some s) :
    (effects s).length ≤ 1 ∧
    (∀ i r, s.program i = .ret (.ok r) → ∃ record, Recorded s record) ∧
    ∀ record, Recorded s record → Holds s record ∧
      ∀ i r, s.program i = .ret (.ok r) →
        r = record.result ∧ Agrees (callers i) (s.history i) record := by
  have h := invariant_run hkey hkeyed hrun
  have hi : ∀ i, (callers i).request.idempotencyKey ≠ .utf8 "" := by
    intro i
    have hi : (requestBinding (callers i).request).key = key.key := by rw [hkey i]
    rw [show (callers i).request.idempotencyKey = key.key from hi]
    exact hkeyed
  refine ⟨?_, ?_, ?_⟩
  · rcases h.ledger.single with ⟨-, hall⟩ | hsingle
    · have hnone : effects s = [] := by
        unfold effects
        rw [List.filter_flatMap]
        exact List.flatMap_eq_nil_iff.mpr fun p hp => effects_of_untouched (hall p hp)
      rw [hnone]
      exact Nat.zero_le 1
    · exact (h.recorded hsingle).1.le
  · intro i r hp
    obtain ⟨_, hsingle, -⟩ := h.succeeded (hi i) hp
    obtain ⟨-, record, hrecorded, -⟩ := h.recorded hsingle
    exact ⟨record, hrecorded⟩
  · rintro record ⟨p, hm, -, hcomplete⟩
    have hsingle : Single s := by
      rcases h.ledger.single with ⟨-, hall⟩ | hsingle
      · exact absurd hcomplete (not_mem_of_untouched (hall p hm) rfl)
      · exact hsingle
    obtain ⟨-, record', -, hholds, hunique⟩ := h.recorded hsingle
    obtain rfl := hunique p hm record hcomplete
    refine ⟨hholds, fun i r hp => ?_⟩
    obtain ⟨found, -, ⟨row, hrow, hread⟩, hresult, hagrees⟩ := h.succeeded (hi i) hp
    obtain ⟨row', hrow', hread'⟩ := hholds
    obtain rfl := Option.some.inj (hrow.symm.trans hrow')
    obtain rfl := hread.symm.trans hread'
    exact ⟨hresult, hagrees⟩

end Claim

/-! ### Samples -/

/-- Two calls of the same request. -/
def sampleCallers (_ : Bool) : Caller := ⟨sampleEngine, true, sampleRequest⟩

/-- What a reservation finds that comes second. -/
def secondReplies : (op : Op) → op.Response
  | .reserve _ record =>
    .returned (some { record with status := .completed, result := sampleResult }) .nil
  | op => ({} : Scenario).oracle op

/-- The second call looks the key up before the first one reserves it, and reserves it after the
first one was committed. -/
def sampleEvents : List (Interleaving.Event Bool) :=
  let first := Interleaving.Event.reply true ({} : Scenario).oracle
  let second := Interleaving.Event.reply false secondReplies
  List.replicate 10 second ++ List.replicate 10 first ++
    [.statement true 0, first, first, .statement true 0] ++ List.replicate 4 first ++
    .statement false 0 :: List.replicate 5 second

/-- The call has returned the result of the sample handler. -/
def returned (program : Program (Except Err Result)) : Bool :=
  match program with
  | .ret (.ok result) => result == sampleResult
  | _ => false

theorem returned_iff {program : Program (Except Err Result)} :
    returned program = true ↔ program = .ret (.ok sampleResult) := by
  unfold returned
  split
  · simp
  next hne =>
    constructor
    · intro h
      cases h
    · intro h
      exact absurd h (hne _)

/-- Both calls of the sample return the result of the one execution. -/
theorem one_execution_sample :
    ∃ s, run (Interleaving.step sampleCallers) sampleEvents (initial sampleCallers) = some s ∧
      s.program true = .ret (.ok sampleResult) ∧ s.program false = .ret (.ok sampleResult) ∧
      (effects s).length ≤ 1 ∧ ∃ record, Recorded s record ∧ record.result = sampleResult ∧
        Agrees (sampleCallers false) (s.history false) record := by
  have hany : Option.any (fun s : System Bool => returned (s.program true) &&
      returned (s.program false))
      (run (Interleaving.step sampleCallers) sampleEvents (initial sampleCallers)) = true := by
    decide +kernel
  obtain ⟨s, hrun, hreturned⟩ := Option.any_eq_true _ _ |>.mp hany
  rw [Bool.and_eq_true, returned_iff, returned_iff] at hreturned
  obtain ⟨hfirst, hsecond⟩ := hreturned
  obtain ⟨hone, hrecorded, hall⟩ := one_execution_per_key sampleCallers
    (requestBinding sampleRequest) (fun _ => rfl) (by decide) hrun
  obtain ⟨record, hrecord⟩ := hrecorded true sampleResult hfirst
  obtain ⟨hresult, hagrees⟩ := (hall record hrecord).2 false sampleResult hsecond
  exact ⟨s, hrun, hfirst, hsecond, hone, record, hrecord, hresult.symm, hagrees⟩

end Modary.Runtime.Exclusion
