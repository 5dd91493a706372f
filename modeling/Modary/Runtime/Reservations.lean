import Modary.Runtime.Exclusion

/-! # What is found of a key

A reservation never outlives its transaction: whatever is found of a key, by any call and at any
time, is the completed record that is committed for it, and stays so. -/

namespace Modary.Runtime.Reservations

open Modary.Lib.GoText Modary.Lib.Machine
open Modary.Action.Authz Modary.Action.Errors Modary.Action.Types
open Modary.Action.Persistence
open Modary.Runtime.Environment
open Modary.Runtime.Engine Modary.Runtime.Traces Modary.Runtime.Runs Modary.Runtime.Atomicity
open Modary.Runtime.Interleaving Modary.Runtime.Exclusion
open Modary.Governed.IdempotencyStore (Row recordOf statusOf)

/-- The call found the record. -/
def Tells (c : Environment.Call) (existing : IdempotencyRecord) : Prop :=
  (∃ ctx record, c = ⟨.lookup ctx record, .returned (some existing) .nil⟩) ∨
    ∃ ctx record, c = ⟨.reserve ctx record, .returned (some existing) .nil⟩

/-- What was found of the key is committed. -/
def Lasting {ι : Type} (s : System ι) : Prop :=
  ∀ i, ∀ c ∈ s.history i, ∀ existing, Tells c existing → Holds s existing

section Steps

variable {ι : Type} [DecidableEq ι] {callers : ι → Caller} {key : Atomicity.Binding}
  {s t : System ι} {i : ι} {op : Op} {r : op.Response}
  {next : op.Response → Program (Except Err Result)} {existing : IdempotencyRecord}

/-- A lookup outside a transaction finds what is committed. -/
theorem lookup_committed {checks : Checks} {record : IdempotencyRecord}
    (h : permits checks s i (.lookup .request record) (.returned (some existing) .nil) = true) :
    Holds s existing := by
  simp only [permits, Failed, bne_self_eq_false, Bool.false_or, Bool.and_eq_true, beq_iff_eq,
    if_true] at h
  obtain ⟨-, hlookup⟩ := h
  unfold Governed.IdempotencyStore.lookup at hlookup
  obtain ⟨_, -, hload⟩ := bind_eq_ok.mp hlookup
  exact readOf_of_load hload

theorem untouched_cleared {job : Job} {j k : Reply Decision} : Untouched (job.cleared j k) := by
  intro c hc
  unfold Job.cleared at hc
  rcases List.mem_cons.mp hc with rfl | hc
  · rfl
  · obtain rfl := List.mem_singleton.mp hc
    rfl

omit [DecidableEq ι] in
/-- The calls of an open transaction are those behind its opening. -/
theorem calls_eq (h : Control callers s) {session : Session} (hs : s.session i = some session)
    {before tx : History} {serial : ℕ} (htx : Interior tx)
    (heq : s.history i = before ++ ⟨.begin, .run serial⟩ :: tx) : session.calls = tx := by
  obtain ⟨hopened, before', serial', heq'⟩ := h.opened i session hs
  exact (interior_unique rfl rfl hopened htx (heq'.symm.trans heq)).2

omit [DecidableEq ι] in
/-- A lookup in a transaction is its first call. -/
theorem untouched_lookup (h : Control callers s) {record : IdempotencyRecord} {next}
    (hp : s.program i = .call (.lookup .tx record) next) {session : Session}
    (hs : s.session i = some session) : Untouched session.calls := by
  have hposition := h.position i
  rw [hp] at hposition
  have hordered : Ordered (callers i).engine (callers i).request (s.history i)
      (.lookup .tx record) := (meets_execute (callers i).hasContext).calls hposition.calls
  rcases hordered with hctx | ⟨h₀, serial, -, heq⟩
  · cases hctx
  · rw [calls_eq h hs interior_nil heq]
    intro c hc
    cases hc

omit [DecidableEq ι] in
/-- A reservation comes before every other write of its transaction. -/
theorem untouched_reserve (h : Control callers s) {ctx : Ctx} {record : IdempotencyRecord} {next}
    (hp : s.program i = .call (.reserve ctx record) next) {session : Session}
    (hs : s.session i = some session) : ctx = .tx ∧ Untouched session.calls := by
  have hposition := h.position i
  rw [hp] at hposition
  have hordered : Ordered (callers i).engine (callers i).request (s.history i)
      (.reserve ctx record) := (meets_execute (callers i).hasContext).calls hposition.calls
  obtain ⟨hctx, h₀, serial, job, j, k, -, -, heq, -⟩ := hordered
  refine ⟨hctx, ?_⟩
  rw [calls_eq h hs (interior_cleared job j k) heq]
  exact untouched_cleared

/-- What a call finds is committed. -/
theorem holds_of_tells (h : Invariant callers key s) (hp : s.program i = .call op next)
    (hpermits : permits (callers i).engine.checks s i op r = true)
    (htells : Tells ⟨op, r⟩ existing) : Holds s existing := by
  rcases htells with ⟨ctx, record, heq⟩ | ⟨ctx, record, heq⟩
  · cases heq
    cases ctx with
    | request => exact lookup_committed hpermits
    | tx =>
      have hopen : ∃ session, s.session i = some session := by
        simp only [permits, Failed, bne_self_eq_false, Bool.false_or, Bool.and_eq_true] at hpermits
        obtain ⟨halive, -⟩ := hpermits
        rw [show (Ctx.tx == Ctx.request) = false from rfl, Bool.false_or,
          Option.any_eq_true] at halive
        obtain ⟨session, hs, -⟩ := halive
        exact ⟨session, hs⟩
      obtain ⟨session, hs⟩ := hopen
      have hu := untouched_lookup h.control hp hs
      exact holds_of_found h.table h.control hp hs hpermits hu (Or.inl ⟨record, rfl⟩)
  · cases heq
    have hopen : ∃ session, s.session i = some session := by
      simp only [permits, Failed, bne_self_eq_false, Bool.false_or, Bool.and_eq_true,
        Option.any_eq_true] at hpermits
      obtain ⟨session, hs, -⟩ := hpermits.1
      exact ⟨session, hs⟩
    obtain ⟨session, hs⟩ := hopen
    obtain ⟨rfl, hu⟩ := untouched_reserve h.control hp hs
    exact holds_of_found h.table h.control hp hs hpermits hu (Or.inr ⟨record, rfl⟩)

/-- What is committed for the key stays. -/
theorem holds_stepped (h : Invariant callers key s)
    (hkeyed : ∀ i, (callers i).request.idempotencyKey ≠ .utf8 "")
    (hstep : Stepped callers key s t) (hholds : Holds s existing) : Holds t existing := by
  cases hstep with
  | wrote => exact hholds
  | rolledBack => exact hholds
  | replied hp hpermits =>
    next i op next r =>
    have hbegin : op = .begin → s.session i = none := by
      rintro rfl
      exact h.control.closed_of_begin hp
    have hrecord := replied_of_record (r := r) hbegin
    unfold System.replied
    generalize s.record i op r = u at hrecord
    cases hrecord with
    | outside hclosed => exact hholds
    | called hinside hs => exact hholds
    | opened serial hbegins => exact hholds
    | lost serial err finished hends huncommitted hs => exact hholds
    | committed serial err finished hends hcommitted hs =>
      cases hends
      obtain ⟨rfl, session', hs', halive⟩ := finish_permitted hpermits hcommitted
      obtain ⟨row, hrow, hread⟩ := hholds
      rcases h.table.commits h.control (hkeyed i) hp hs' halive with
        ⟨-, -, hvisible⟩ | ⟨record, row', -, hnone, -⟩
      · exact ⟨row, hvisible.trans hrow, hread⟩
      · rw [hnone] at hrow
        cases hrow

/-- The calls that have come back after a step. -/
theorem history_stepped (hstep : Stepped callers key s t) {j : ι} {c : Environment.Call}
    (hc : c ∈ t.history j) : c ∈ s.history j ∨ ∃ op next r, c = ⟨op, r⟩ ∧
      s.program j = .call op next ∧ permits (callers j).engine.checks s j op r = true := by
  cases hstep with
  | wrote => exact Or.inl hc
  | rolledBack => exact Or.inl hc
  | replied hp hpermits =>
    next i op next r =>
    change c ∈ Function.update s.history i _ j at hc
    by_cases hj : j = i
    · subst hj
      rw [Function.update_self] at hc
      rcases List.mem_append.mp hc with hc | hc
      · exact Or.inl hc
      · exact Or.inr ⟨op, next, r, List.mem_singleton.mp hc, hp, hpermits⟩
    · rw [Function.update_of_ne hj] at hc
      exact Or.inl hc

/-- What was found stays committed over a step. -/
theorem lasting_stepped (h : Invariant callers key s)
    (hkeyed : ∀ i, (callers i).request.idempotencyKey ≠ .utf8 "")
    (hstep : Stepped callers key s t) (hlasting : Lasting s) : Lasting t := by
  intro j c hc existing htells
  refine holds_stepped h hkeyed hstep ?_
  rcases history_stepped hstep hc with hc | ⟨op, next, r, rfl, hp, hpermits⟩
  · exact hlasting j c hc existing htells
  · exact holds_of_tells h hp hpermits htells

end Steps

section Runs

variable {ι : Type} [DecidableEq ι] {callers : ι → Caller} {key : Atomicity.Binding}
  {s : System ι}

theorem lasting_run (hkey : ∀ i, requestBinding (callers i).request = key)
    (hkeyed : key.key ≠ .utf8 "") {events : List (Interleaving.Event ι)}
    (hrun : run (Interleaving.step callers) events (initial callers) = some s) :
    Invariant callers key s ∧ Lasting s := by
  have hi : ∀ i, (callers i).request.idempotencyKey ≠ .utf8 "" := by
    intro i
    have hi : (requestBinding (callers i).request).key = key.key := by rw [hkey i]
    rw [show (callers i).request.idempotencyKey = key.key from hi]
    exact hkeyed
  refine run_induction (P := fun _ s => Invariant callers key s ∧ Lasting s) ?_ ?_ hrun
  · refine ⟨⟨control_initial, table_initial, ledger_initial⟩, fun i c hc => ?_⟩
    cases hc
  · rintro events event s t ⟨h, hlasting⟩ hstep
    have hstepped := stepped_of_step h.control hkey h.table.visibleRow hstep
    exact ⟨h.stepped hi hstepped, lasting_stepped h hi hstepped hlasting⟩

omit [DecidableEq ι] in
/-- The committed record is a completed one of the key. -/
theorem completed_of_holds (ht : Table key s) {existing : IdempotencyRecord}
    (h : Holds s existing) : existing.status = .completed ∧ bindingOf existing = key := by
  obtain ⟨row, hrow, rfl⟩ := h
  obtain ⟨⟨record, b, rfl, hb, hprimary⟩, hstatus⟩ := ht.committedRow row hrow
  refine ⟨?_, ?_⟩
  · show statusOf row.status = .completed
    rw [hstatus]
    rfl
  · unfold Governed.IdempotencyStore.Binding.primaryKey at hprimary
    simp only [List.cons.injEq, and_true] at hprimary
    obtain ⟨h1, h2, h3, h4, h5, h6⟩ := hprimary
    rw [Governed.IdempotencyStore.eq_recordOf_of hb]
    simp only [bindingOf, readOf, recordOf, h1, h2, h3, h4, h5, h6]

/-- **No reservation is seen.** However any number of calls with one key are interleaved, whatever
one of them finds of the key, when it looks it up or when its reservation is refused, is the record
that is committed for the key and stays so: it is completed, it is one of the key, and it is what every
other call finds. -/
theorem found_committed (callers : ι → Caller) (key : Atomicity.Binding)
    (hkey : ∀ i, requestBinding (callers i).request = key) (hkeyed : key.key ≠ .utf8 "")
    {events : List (Interleaving.Event ι)} {s : System ι}
    (hrun : run (Interleaving.step callers) events (initial callers) = some s) :
    (∀ row, s.committed = some row → (readOf row).status = .completed) ∧
    ∀ i, ∀ c ∈ s.history i, ∀ existing, Tells c existing →
      Holds s existing ∧ existing.status = .completed ∧ bindingOf existing = key := by
  obtain ⟨h, hlasting⟩ := lasting_run hkey hkeyed hrun
  refine ⟨fun row hrow => ?_, fun i c hc existing htells => ?_⟩
  · exact (completed_of_holds h.table ⟨row, hrow, rfl⟩).1
  · have hholds := hlasting i c hc existing htells
    exact ⟨hholds, completed_of_holds h.table hholds⟩

end Runs

/-- The call found the record of the sample. -/
def foundSample (c : Environment.Call) : Bool :=
  match c with
  | ⟨.reserve _ _, .returned (some existing) .nil⟩ => existing.result == sampleResult
  | _ => false

/-- The reservation of the second call finds the record of the first one. -/
theorem found_committed_sample :
    ∃ s c existing, run (Interleaving.step sampleCallers) sampleEvents (initial sampleCallers) = some s ∧
      c ∈ s.history false ∧ Tells c existing ∧ Holds s existing ∧ existing.status = .completed := by
  have hany : Option.any (fun s : System Bool => (s.history false).any foundSample)
      (run (Interleaving.step sampleCallers) sampleEvents (initial sampleCallers)) = true := by
    decide +kernel
  obtain ⟨s, hrun, hfound⟩ := Option.any_eq_true _ _ |>.mp hany
  obtain ⟨c, hc, hsample⟩ := List.any_eq_true.mp hfound
  have htells : ∃ existing, Tells c existing := by
    unfold foundSample at hsample
    split at hsample
    next ctx record existing => exact ⟨existing, Or.inr ⟨ctx, record, rfl⟩⟩
    · cases hsample
  obtain ⟨existing, htells⟩ := htells
  obtain ⟨hholds, hcompleted, -⟩ := (found_committed sampleCallers (requestBinding sampleRequest)
    (fun _ => rfl) (by decide) hrun).2 false c hc existing htells
  exact ⟨s, c, existing, hrun, hc, htells, hholds, hcompleted⟩

end Modary.Runtime.Reservations
