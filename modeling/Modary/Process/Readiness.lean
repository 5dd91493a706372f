import Mathlib.Order.Nat
import Modary.Process.Admission

/-! # Readiness probes

The readiness probes of a `processkit.Manager`. A probe starts its checks one by one, each behind a
gate that lets one goroutine in, and then takes as many results as there are checks. A goroutine
first publishes its result and gives its gate back afterwards, and the probe that has all its
results does not wait for that. -/

namespace Modary.Process.Readiness

open Modary.Lib.Machine Modary.Lib.Slots
open Modary.Process.Admission (Phase)

/-- How a check function ends. -/
inductive CheckEnd
  | succeeded
  | failed
  | panicked
  deriving DecidableEq, Repr

/-- `invokeCheck`: whether the error of a check is nil. -/
def invokeCheck : CheckEnd → Bool
  | .succeeded => true
  | .failed => false
  | .panicked => false

/-- How a check ended for a probe: whether its error is nil, and whether that was before the timeout
of the probe. -/
structure Outcome where
  isNil : Bool
  inTime : Bool
  deriving DecidableEq, Repr

/-- Where the goroutine of a check stands: in the check function, before its result is published,
before its gate is given back, or at its end. -/
inductive WorkerStage
  | running
  | returned (outcome : Outcome)
  | published (outcome : Outcome)
  | released (outcome : Outcome)
  deriving DecidableEq, Repr

/-- The goroutine that a probe has started for a check. -/
structure Worker where
  probe : ℕ
  check : ℕ
  stage : WorkerStage
  deriving DecidableEq, Repr

/-- Where a probe stands: before it reads the phase, before it starts its next check, before it takes
a result, or answered. -/
inductive ProbeStage
  | arrived
  | starting (next : ℕ)
  | collecting (left : ℕ)
  | answered (ready : Bool)
  deriving DecidableEq, Repr

/-- A result in the channel of a probe; one of a check that was not started is an error. -/
structure Result where
  check : ℕ
  outcome : Outcome
  deriving DecidableEq, Repr

/-- A probe: its stage, whether its context is done, its channel, the checks whose results it has
taken, the phase it has read, and whether all earlier probes were over when it began. -/
structure Probe where
  stage : ProbeStage := .arrived
  expired : Bool := false
  results : List Result := []
  taken : List ℕ := []
  phase : Option Phase := none
  quiet : Bool
  deriving DecidableEq, Repr

/-- The manager with its gates, and all probes and goroutines so far. -/
structure State where
  phase : Phase := .starting
  gates : List Bool
  probes : List Probe := []
  workers : List Worker := []
  deriving DecidableEq, Repr

/-- The check function of a goroutine has returned. -/
def Worker.outcome (worker : Worker) : Option Outcome :=
  match worker.stage with
  | .running => none
  | .returned outcome => some outcome
  | .published outcome => some outcome
  | .released outcome => some outcome

/-- A goroutine whose result is not in the channel yet. -/
def Worker.unpublished (worker : Worker) : Bool :=
  match worker.stage with
  | .running => true
  | .returned _ => true
  | _ => false

/-- A goroutine that holds the gate of its check. -/
def Worker.holds (worker : Worker) : Bool :=
  match worker.stage with
  | .released _ => false
  | _ => true

/-- A probe that has answered. -/
def Probe.isAnswered (probe : Probe) : Bool :=
  match probe.stage with
  | .answered _ => true
  | _ => false

/-- All probes so far have answered and all their check functions have returned. -/
def State.over (s : State) : Bool :=
  s.probes.all Probe.isAnswered && s.workers.all fun worker => worker.outcome.isSome

/-- What happens next: the manager changes its phase, a probe or a goroutine takes a step, or the
context of a probe is done. -/
inductive Event
  | phase (next : Phase)
  | probe
  | readPhase (probe : ℕ)
  | start (probe : ℕ)
  | take (probe : ℕ)
  | giveUp (probe : ℕ)
  | expire (probe : ℕ)
  | finish (worker : ℕ) (ending : CheckEnd)
  | publish (worker : ℕ)
  | release (worker : ℕ)
  deriving DecidableEq, Repr

/-- The stage of a probe that has `left` results to take. -/
def collect (left : ℕ) : ProbeStage := if left = 0 then .answered true else .collecting left

def State.setProbe (s : State) (p : ℕ) (probe : Probe) : State :=
  { s with probes := s.probes.set p probe }

def State.setWorker (s : State) (w : ℕ) (worker : Worker) : State :=
  { s with workers := s.workers.set w worker }

/-- The stage after check `k` has been started. -/
def afterStart (s : State) (k : ℕ) : ProbeStage :=
  if k + 1 < s.gates.length then .starting (k + 1) else collect s.gates.length

/-- One step of `ReadinessHandler`, of a goroutine or of the world around them. -/
def step (s : State) : Event → Option State
  | .phase next => some { s with phase := next }
  | .probe => some { s with probes := s.probes ++ [{ quiet := s.over }] }
  | .readPhase p =>
    match s.probes[p]? with
    | some probe =>
      if probe.stage = .arrived then
        let stage : ProbeStage :=
          if s.phase ≠ .ready then .answered false
          else if s.gates.length = 0 then .answered true
          else .starting 0
        some (s.setProbe p { probe with stage, phase := some s.phase })
      else none
    | none => none
  | .start p =>
    match s.probes[p]? with
    | some probe =>
      match probe.stage with
      | .starting k =>
        match s.gates[k]? with
        | some false =>
          some { s with
            gates := s.gates.set k true
            probes := s.probes.set p { probe with stage := afterStart s k }
            workers := s.workers ++ [⟨p, k, .running⟩] }
        | some true =>
          -- "readiness check is already running"
          some (s.setProbe p { probe with
            stage := afterStart s k, results := probe.results ++ [⟨k, ⟨false, true⟩⟩] })
        | none => none
      | _ => none
    | none => none
  | .take p =>
    match s.probes[p]? with
    | some probe =>
      match probe.stage, probe.results with
      | .collecting left, result :: results =>
        if result.outcome.isNil then
          some (s.setProbe p { probe with
            stage := collect (left - 1), results, taken := probe.taken ++ [result.check] })
        else some (s.setProbe p { probe with stage := .answered false, results })
      | _, _ => none
    | none => none
  | .giveUp p =>
    match s.probes[p]? with
    | some probe =>
      match probe.stage with
      | .collecting _ =>
        if probe.expired then some (s.setProbe p { probe with stage := .answered false }) else none
      | _ => none
    | none => none
  | .expire p =>
    match s.probes[p]? with
    | some probe => some (s.setProbe p { probe with expired := true })
    | none => none
  | .finish w ending =>
    match s.workers[w]? with
    | some worker =>
      if worker.stage = .running then
        let inTime := (s.probes[worker.probe]?).any fun probe => !probe.expired
        some (s.setWorker w { worker with stage := .returned ⟨invokeCheck ending, inTime⟩ })
      else none
    | none => none
  | .publish w =>
    match s.workers[w]? with
    | some worker =>
      match worker.stage, s.probes[worker.probe]? with
      | .returned outcome, some probe =>
        some ((s.setWorker w { worker with stage := .published outcome }).setProbe worker.probe
          { probe with results := probe.results ++ [⟨worker.check, outcome⟩] })
      | _, _ => none
    | none => none
  | .release w =>
    match s.workers[w]? with
    | some worker =>
      match worker.stage with
      | .published outcome =>
        some { (s.setWorker w { worker with stage := .released outcome }) with
          gates := s.gates.set worker.check false }
      | _ => none
    | none => none

/-- A manager with `n` checks, before any probe. -/
def State.initial (n : ℕ) : State := { gates := List.replicate n false }

/-! ### Schedules -/

/-- A step of a schedule in which nothing comes between the end of a check function and what follows
from it: a probe that began after all earlier ones were over finds the gates of its checks given
back, no result of a check that returned after the timeout is taken for a success, and such a probe
does not give up when all the checks it has started have returned nil in time. -/
def punctual (s : State) : Event → Bool
  | .start p => (s.probes[p]?).all fun probe =>
    match probe.stage with
    | .starting k => !(probe.quiet && s.gates[k]? = some true)
    | _ => true
  | .take p => (s.probes[p]?).all fun probe => probe.results.head?.all fun result =>
    !result.outcome.isNil || result.outcome.inTime
  | .giveUp p => (s.probes[p]?).all fun probe => !probe.quiet ||
    s.workers.any fun worker => worker.probe = p && worker.outcome ≠ some ⟨true, true⟩
  | _ => true

/-! ### Accounts of checks -/

section Accounts

/-- The check of a goroutine that a probe still waits for. -/
def Worker.due (p : ℕ) (worker : Worker) : List ℕ :=
  if worker.probe = p ∧ worker.unpublished = true then [worker.check] else []

/-- The checks that a probe has started and whose results are not in its channel. -/
def due (workers : List Worker) (p : ℕ) : List ℕ := workers.flatMap (Worker.due p)

/-- The check whose gate a goroutine holds. -/
def Worker.held (worker : Worker) : List ℕ := if worker.holds = true then [worker.check] else []

/-- The checks whose gates are held. -/
def held (workers : List Worker) : List ℕ := workers.flatMap Worker.held

/-- A check has ended for a probe with an outcome. -/
def Ended (workers : List Worker) (p k : ℕ) (outcome : Outcome) : Prop :=
  ∃ worker ∈ workers, worker.probe = p ∧ worker.check = k ∧ worker.outcome = some outcome

/-- A check of a probe has not returned nil in time, and never will have. -/
def Spoiled (workers : List Worker) (p : ℕ) (expired : Bool) : Prop :=
  ∃ worker ∈ workers, worker.probe = p ∧
    (worker.outcome = none ∧ expired = true ∨
      ∃ outcome, worker.outcome = some outcome ∧ outcome ≠ ⟨true, true⟩)

variable {workers : List Worker} {w p k : ℕ} {old new : Worker} {outcome : Outcome}

theorem due_append (workers : List Worker) (worker : Worker) (p : ℕ) :
    due (workers ++ [worker]) p = due workers p ++ worker.due p := by
  simp [due]

theorem held_append (workers : List Worker) (worker : Worker) :
    held (workers ++ [worker]) = held workers ++ worker.held := by
  simp [held]

theorem due_set_same (hold : workers[w]? = some old) (h : new.due p = old.due p) :
    (due (workers.set w new) p).Perm (due workers p) :=
  flatMap_set_same (Worker.due p) hold h

theorem held_set_same (hold : workers[w]? = some old) (h : new.held = old.held) :
    (held (workers.set w new)).Perm (held workers) :=
  flatMap_set_same Worker.held hold h

theorem Ended.append (h : Ended workers p k outcome) (worker : Worker) :
    Ended (workers ++ [worker]) p k outcome := by
  obtain ⟨other, hmem, hrest⟩ := h
  exact ⟨other, List.mem_append_left _ hmem, hrest⟩

/-- A goroutine that takes a step keeps its outcome once it has one. -/
theorem Ended.set (h : Ended workers p k outcome) (hold : workers[w]? = some old)
    (hprobe : new.probe = old.probe) (hcheck : new.check = old.check)
    (houtcome : ∀ o, old.outcome = some o → new.outcome = some o) :
    Ended (workers.set w new) p k outcome := by
  obtain ⟨worker, hmem, hp, hk, ho⟩ := h
  rcases mem_set_of_mem new hold hmem with rfl | hmem
  · exact ⟨new, mem_set_self hold, hprobe.trans hp, hcheck.trans hk, houtcome _ ho⟩
  · exact ⟨worker, hmem, hp, hk, ho⟩

theorem Spoiled.append {expired : Bool} (h : Spoiled workers p expired) (worker : Worker) :
    Spoiled (workers ++ [worker]) p expired := by
  obtain ⟨other, hmem, hrest⟩ := h
  exact ⟨other, List.mem_append_left _ hmem, hrest⟩

theorem Spoiled.set {expired : Bool} (h : Spoiled workers p expired)
    (hold : workers[w]? = some old) (hprobe : new.probe = old.probe)
    (houtcome : ∀ o, old.outcome = some o → new.outcome = some o)
    (hlate : old.probe = p → expired = true → old.outcome = none →
      ∃ o, new.outcome = some o ∧ o ≠ ⟨true, true⟩) :
    Spoiled (workers.set w new) p expired := by
  obtain ⟨worker, hmem, hp, hcase⟩ := h
  rcases mem_set_of_mem new hold hmem with rfl | hmem
  · refine ⟨new, mem_set_self hold, hprobe.trans hp, .inr ?_⟩
    rcases hcase with ⟨hnone, hexpired⟩ | ⟨o, ho, hne⟩
    · exact hlate hp hexpired hnone
    · exact ⟨o, houtcome o ho, hne⟩
  · exact ⟨worker, hmem, hp, hcase⟩

end Accounts

/-! ### The invariant -/

section Invariant

/-- What the stage of a probe says about its checks. -/
def StageSound (n : ℕ) (workers : List Worker) (p : ℕ) (probe : Probe) : Prop :=
  match probe.stage with
  | .arrived => probe.phase = none ∧ probe.results = [] ∧ probe.taken = [] ∧ due workers p = []
  | .starting k => probe.phase = some .ready ∧ k < n ∧ probe.taken = [] ∧
      (probe.results.map Result.check ++ due workers p).Perm (List.range k)
  | .collecting left => probe.phase = some .ready ∧ 0 < left ∧
      left = probe.results.length + (due workers p).length ∧
      (probe.taken ++ (probe.results.map Result.check ++ due workers p)).Perm (List.range n)
  | .answered true => probe.phase = some .ready ∧ ∀ k < n, k ∈ probe.taken
  | .answered false => True

/-- **The invariant of one probe.** -/
structure ProbeSound (n : ℕ) (workers : List Worker) (p : ℕ) (probe : Probe) : Prop where
  stage : StageSound n workers p probe
  taken : ∀ k ∈ probe.taken, Ended workers p k ⟨true, true⟩
  results : ∀ result ∈ probe.results, Ended workers p result.check result.outcome ∨
    (probe.quiet = false ∧ result.outcome.isNil = false)
  unready : probe.quiet = true → probe.phase = some .ready → probe.stage = .answered false →
    Spoiled workers p probe.expired

/-- **The invariant of the manager.** -/
structure Inv (n : ℕ) (s : State) : Prop where
  gates : s.gates.length = n
  nodup : (held s.workers).Nodup
  gate : ∀ k, s.gates[k]? = some true ↔ k ∈ held s.workers
  workers : ∀ worker ∈ s.workers, worker.probe < s.probes.length ∧ worker.check < n
  probes : ∀ p probe, s.probes[p]? = some probe → ProbeSound n s.workers p probe

variable {n p w : ℕ} {s : State} {workers : List Worker} {probe : Probe} {old new : Worker}

/-- A probe whose goroutines have changed without a change of what is due. -/
theorem ProbeSound.mono (h : ProbeSound n workers p probe) {later : List Worker}
    (hdue : (due later p).Perm (due workers p))
    (hended : ∀ k outcome, Ended workers p k outcome → Ended later p k outcome)
    (hspoiled : Spoiled workers p probe.expired → Spoiled later p probe.expired) :
    ProbeSound n later p probe := by
  refine ⟨?_, fun k hk => hended k _ (h.taken k hk), fun result hresult => ?_,
    fun hquiet hphase hstage => hspoiled (h.unready hquiet hphase hstage)⟩
  · have hstage := h.stage
    unfold StageSound at hstage ⊢
    split at hstage
    · obtain ⟨hphase, hresults, htaken, hnone⟩ := hstage
      rw [hnone] at hdue
      exact ⟨hphase, hresults, htaken, hdue.eq_nil⟩
    · obtain ⟨hphase, hlt, htaken, hperm⟩ := hstage
      exact ⟨hphase, hlt, htaken, (hdue.append_left _).trans hperm⟩
    · obtain ⟨hphase, hpos, hleft, hperm⟩ := hstage
      refine ⟨hphase, hpos, hleft.trans (by rw [hdue.length_eq]), ?_⟩
      exact ((hdue.append_left _).append_left _).trans hperm
    · exact hstage
    · exact hstage
  · rcases h.results result hresult with hend | hrest
    · exact .inl (hended _ _ hend)
    · exact .inr hrest

theorem inv_initial (n : ℕ) : Inv n (.initial n) := by
  refine ⟨List.length_replicate, List.nodup_nil, fun k => ?_, fun _ h => ?_, fun p probe h => ?_⟩
  · refine iff_of_false ?_ (fun h => by cases h)
    intro h
    have hmem := List.mem_of_getElem? h
    cases List.eq_of_mem_replicate hmem
  · cases h
  · cases h

theorem getElem?_set_self {α : Type} {l : List α} {i : ℕ} {a b : α} (h : l[i]? = some a) :
    (l.set i b)[i]? = some b := by
  have hlt : i < l.length := (List.getElem?_eq_some_iff.mp h).1
  rw [List.getElem?_set_self hlt]

/-- The probes when one of them has changed. -/
theorem Inv.setProbe (h : Inv n s) (hold : s.probes[p]? = some probe) {next : Probe}
    (hnext : ProbeSound n s.workers p next) : Inv n (s.setProbe p next) := by
  refine { h with workers := ?_, probes := ?_ }
  · intro worker hworker
    have hbound := h.workers worker hworker
    simpa [State.setProbe] using hbound
  · intro q other hother
    have hother : (s.probes.set p next)[q]? = some other := hother
    by_cases hq : p = q
    · subst hq
      rw [getElem?_set_self hold] at hother
      cases hother
      exact hnext
    · rw [List.getElem?_set_ne hq] at hother
      exact h.probes q other hother

/-- A probe arrives. -/
theorem Inv.arrive (h : Inv n s) (quiet : Bool) :
    Inv n { s with probes := s.probes ++ [{ quiet }] } := by
  refine { h with workers := ?_, probes := ?_ }
  · intro worker hworker
    obtain ⟨hprobe, hcheck⟩ := h.workers worker hworker
    refine ⟨?_, hcheck⟩
    rw [List.length_append]
    omega
  · intro q other hother
    by_cases hq : q < s.probes.length
    · rw [List.getElem?_append_left hq] at hother
      exact h.probes q other hother
    · have hnone : due s.workers q = [] := by
        refine List.flatMap_eq_nil_iff.mpr fun worker hworker => ?_
        have hlt := (h.workers worker hworker).1
        have hne : worker.probe ≠ q := by omega
        simp [Worker.due, hne]
      rw [List.getElem?_append_right (by omega)] at hother
      have hmem := List.mem_of_getElem? hother
      obtain rfl := List.mem_singleton.mp hmem
      refine ⟨⟨rfl, rfl, rfl, hnone⟩, ?_, ?_, ?_⟩
      · intro k hk
        cases hk
      · intro result hresult
        cases hresult
      · intro _ hphase
        cases hphase

/-- A probe reads the phase. -/
theorem Inv.readPhase (h : Inv n s) (hold : s.probes[p]? = some probe)
    (hstage : probe.stage = .arrived) :
    Inv n (s.setProbe p { probe with
      stage := if s.phase ≠ .ready then .answered false
        else if s.gates.length = 0 then .answered true else .starting 0
      phase := some s.phase }) := by
  have hp := h.probes p probe hold
  have hstart := hp.stage
  unfold StageSound at hstart
  rw [hstage] at hstart
  obtain ⟨-, hresults, htaken, hdue⟩ := hstart
  refine h.setProbe hold ⟨?_, hp.taken, hp.results, ?_⟩
  · unfold StageSound
    by_cases hready : s.phase = .ready
    · by_cases hzero : s.gates.length = 0
      · have hn : n = 0 := h.gates.symm.trans hzero
        simp [hready, hzero, hn]
      · have hpos : 0 < n := by
          have hlen := h.gates
          omega
        simp [hready, hzero, hpos, htaken, hresults, hdue]
    · simp [hready]
  · intro _ hphase hanswered
    have hready : s.phase = .ready := Option.some.inj hphase
    by_cases hzero : s.gates.length = 0 <;> simp [hready, hzero] at hanswered

theorem collect_ne (left : ℕ) : collect left ≠ .answered false := by
  unfold collect
  by_cases h : left = 0
  · rw [if_pos h]
    decide
  · rw [if_neg h]
    intro heq
    cases heq

theorem afterStart_ne (s : State) (k : ℕ) : afterStart s k ≠ .answered false := by
  unfold afterStart
  by_cases h : k + 1 < s.gates.length
  · rw [if_pos h]
    intro heq
    cases heq
  · rw [if_neg h]
    exact collect_ne _

/-- What the stage says once one more check has been started. -/
theorem stageSound_afterStart {k : ℕ} {later : List Worker} {next : Probe}
    (hgates : s.gates.length = n) (hstage : next.stage = afterStart s k) (hlt : k < n)
    (hphase : next.phase = some .ready) (htaken : next.taken = [])
    (hperm : (next.results.map Result.check ++ due later p).Perm (List.range (k + 1))) :
    StageSound n later p next := by
  unfold StageSound
  rw [hstage]
  unfold afterStart
  by_cases hnext : k + 1 < s.gates.length
  · rw [if_pos hnext]
    exact ⟨hphase, by omega, htaken, hperm⟩
  · have hn : k + 1 = n := by omega
    have hne : s.gates.length ≠ 0 := by omega
    rw [if_neg hnext, collect, if_neg hne]
    have hlength := hperm.length_eq
    rw [List.length_append, List.length_map, List.length_range] at hlength
    refine ⟨hphase, by omega, by omega, ?_⟩
    rw [htaken, List.nil_append, ← hn]
    exact hperm

/-- A probe starts a check whose gate is free. -/
theorem Inv.start (h : Inv n s) (hold : s.probes[p]? = some probe) {k : ℕ}
    (hstage : probe.stage = .starting k) (hgate : s.gates[k]? = some false) :
    Inv n { s with
      gates := s.gates.set k true
      probes := s.probes.set p { probe with stage := afterStart s k }
      workers := s.workers ++ [⟨p, k, .running⟩] } := by
  have hp := h.probes p probe hold
  have hstart := hp.stage
  unfold StageSound at hstart
  rw [hstage] at hstart
  obtain ⟨hphase, hlt, htaken, hperm⟩ := hstart
  have hplt : p < s.probes.length := (List.getElem?_eq_some_iff.mp hold).1
  have hfree : k ∉ held s.workers := by
    intro hmem
    have htrue := (h.gate k).mpr hmem
    rw [hgate] at htrue
    cases htrue
  have hheld : held (s.workers ++ [⟨p, k, .running⟩]) = held s.workers ++ [k] :=
    held_append _ _
  constructor
  · rw [List.length_set]
    exact h.gates
  · rw [hheld]
    refine List.nodup_append.mpr ⟨h.nodup, List.nodup_singleton _, ?_⟩
    rintro a ha b hb rfl
    obtain rfl := List.mem_singleton.mp hb
    exact hfree ha
  · intro j
    rw [hheld, List.mem_append, List.mem_singleton, ← h.gate j]
    by_cases hj : k = j
    · subst hj
      simp [getElem?_set_self hgate]
    · rw [List.getElem?_set_ne hj]
      simp [Ne.symm hj]
  · intro worker hworker
    rw [List.length_set]
    rcases List.mem_append.mp hworker with hmem | hmem
    · exact h.workers worker hmem
    · obtain rfl := List.mem_singleton.mp hmem
      exact ⟨hplt, hlt⟩
  · intro q other hother
    have hother : (s.probes.set p { probe with stage := afterStart s k })[q]? = some other := hother
    by_cases hq : p = q
    · subst hq
      rw [getElem?_set_self hold] at hother
      cases hother
      have hdue : due (s.workers ++ [⟨p, k, .running⟩]) p = due s.workers p ++ [k] := by
        rw [due_append]
        simp [Worker.due, Worker.unpublished]
      refine ⟨?_, fun j hj => (hp.taken j hj).append _, fun result hresult => ?_, ?_⟩
      · refine stageSound_afterStart h.gates rfl hlt hphase htaken ?_
        rw [hdue, ← List.append_assoc, List.range_succ]
        exact hperm.append_right _
      · rcases hp.results result hresult with hend | hrest
        · exact .inl (hend.append _)
        · exact .inr hrest
      · intro _ _ hanswered
        exact absurd hanswered (afterStart_ne s k)
    · rw [List.getElem?_set_ne hq] at hother
      have hdue : due (s.workers ++ [⟨p, k, .running⟩]) q = due s.workers q := by
        rw [due_append]
        simp [Worker.due, hq]
      exact (h.probes q other hother).mono (by rw [hdue]) (fun _ _ hend => hend.append _)
        fun hspoiled => hspoiled.append _

/-- A probe finds a gate held: only one that did not begin quietly, in a punctual run. -/
theorem Inv.startHeld (h : Inv n s) (hold : s.probes[p]? = some probe) {k : ℕ}
    (hstage : probe.stage = .starting k) (hquiet : probe.quiet = false) :
    Inv n (s.setProbe p { probe with
      stage := afterStart s k, results := probe.results ++ [⟨k, ⟨false, true⟩⟩] }) := by
  have hp := h.probes p probe hold
  have hstart := hp.stage
  unfold StageSound at hstart
  rw [hstage] at hstart
  obtain ⟨hphase, hlt, htaken, hperm⟩ := hstart
  refine h.setProbe hold ⟨?_, hp.taken, ?_, ?_⟩
  · refine stageSound_afterStart h.gates rfl hlt hphase htaken ?_
    rw [List.map_append, List.map_singleton, List.range_succ, List.append_assoc]
    refine (List.perm_append_comm.append_left _).trans ?_
    rw [← List.append_assoc]
    exact hperm.append_right _
  · intro result hresult
    rcases List.mem_append.mp hresult with hmem | hmem
    · exact hp.results result hmem
    · obtain rfl := List.mem_singleton.mp hmem
      exact .inr ⟨hquiet, rfl⟩
  · intro htrue
    have htrue : probe.quiet = true := htrue
    rw [hquiet] at htrue
    cases htrue

/-- A probe takes a result that is nil: in a punctual run it came in time. -/
theorem Inv.takeNil (h : Inv n s) (hold : s.probes[p]? = some probe) {left : ℕ}
    (hstage : probe.stage = .collecting left) {result : Result} {rest : List Result}
    (hresults : probe.results = result :: rest) (hnil : result.outcome = ⟨true, true⟩) :
    Inv n (s.setProbe p { probe with
      stage := collect (left - 1), results := rest, taken := probe.taken ++ [result.check] }) := by
  have hp := h.probes p probe hold
  have hcollect := hp.stage
  unfold StageSound at hcollect
  rw [hstage] at hcollect
  obtain ⟨hphase, hpos, hleft, hperm⟩ := hcollect
  rw [hresults, List.length_cons] at hleft
  rw [hresults, List.map_cons] at hperm
  have hperm' : (probe.taken ++ [result.check] ++
      (rest.map Result.check ++ due s.workers p)).Perm (List.range n) := by
    rw [List.append_assoc]
    exact hperm
  refine h.setProbe hold ⟨?_, ?_, ?_, ?_⟩
  · unfold StageSound collect
    by_cases hlast : left - 1 = 0
    · rw [if_pos hlast]
      refine ⟨hphase, fun k hk => ?_⟩
      have hrest : rest = [] := List.eq_nil_of_length_eq_zero (by omega)
      have hdue : due s.workers p = [] := List.eq_nil_of_length_eq_zero (by omega)
      rw [hrest, hdue, List.map_nil, List.append_nil, List.append_nil] at hperm'
      exact hperm'.symm.subset (List.mem_range.mpr hk)
    · rw [if_neg hlast]
      have hrest : left - 1 = rest.length + (due s.workers p).length := by omega
      exact ⟨hphase, by omega, hrest, hperm'⟩
  · intro k hk
    rcases List.mem_append.mp hk with hmem | hmem
    · exact hp.taken k hmem
    · obtain rfl := List.mem_singleton.mp hmem
      rcases hp.results result (by rw [hresults]; exact List.mem_cons_self) with hend | ⟨-, hfalse⟩
      · exact hnil ▸ hend
      · rw [hnil] at hfalse
        cases hfalse
  · intro other hother
    exact hp.results other (by rw [hresults]; exact List.mem_cons_of_mem _ hother)
  · intro _ _ hanswered
    exact absurd hanswered (collect_ne _)

/-- A probe answers that it is not ready, for a check that did not return nil in time. -/
theorem Inv.refuse (h : Inv n s) (hold : s.probes[p]? = some probe) {results : List Result}
    (hsub : results ⊆ probe.results)
    (hspoiled : probe.quiet = true → Spoiled s.workers p probe.expired) :
    Inv n (s.setProbe p { probe with stage := .answered false, results }) := by
  have hp := h.probes p probe hold
  refine h.setProbe hold ⟨trivial, hp.taken, ?_, ?_⟩
  · intro result hresult
    exact hp.results result (hsub hresult)
  · intro hquiet _ _
    exact hspoiled hquiet

/-- The context of a probe is done. -/
theorem Inv.expire (h : Inv n s) (hold : s.probes[p]? = some probe) :
    Inv n (s.setProbe p { probe with expired := true }) := by
  have hp := h.probes p probe hold
  refine h.setProbe hold ⟨?_, hp.taken, hp.results, ?_⟩
  · have hstage := hp.stage
    unfold StageSound at hstage ⊢
    exact hstage
  · intro hquiet hphase hstage
    obtain ⟨worker, hmem, hprobe, hcase⟩ := hp.unready hquiet hphase hstage
    refine ⟨worker, hmem, hprobe, ?_⟩
    rcases hcase with ⟨hnone, -⟩ | hcase
    · exact .inl ⟨hnone, rfl⟩
    · exact .inr hcase

/-- A goroutine takes a step that leaves its probe and its check as they are. -/
theorem Inv.setWorker (h : Inv n s) (hold : s.workers[w]? = some old) {gates : List Bool}
    (hprobe : new.probe = old.probe) (hcheck : new.check = old.check)
    (hgates : gates.length = n) (hnodup : (held (s.workers.set w new)).Nodup)
    (hgate : ∀ k, gates[k]? = some true ↔ k ∈ held (s.workers.set w new))
    (houtcome : ∀ o, old.outcome = some o → new.outcome = some o)
    (hdue : ∀ q, new.due q = old.due q)
    (hlate : ∀ probe, s.probes[old.probe]? = some probe → probe.expired = true →
      old.outcome = none → ∃ o, new.outcome = some o ∧ o ≠ ⟨true, true⟩) :
    Inv n { s with gates, workers := s.workers.set w new } := by
  refine ⟨hgates, hnodup, hgate, ?_, ?_⟩
  · intro worker hworker
    rcases mem_of_mem_set hworker with rfl | hmem
    · rw [hprobe, hcheck]
      exact h.workers old (List.mem_of_getElem? hold)
    · exact h.workers worker hmem
  · intro q other hother
    refine (h.probes q other hother).mono (due_set_same hold (hdue q))
      (fun k outcome hend => hend.set hold hprobe hcheck houtcome) fun hspoiled => ?_
    refine hspoiled.set hold hprobe houtcome ?_
    rintro rfl hexpired hnone
    exact hlate other hother hexpired hnone

/-- A check function returns. -/
theorem Inv.finish (h : Inv n s) (hold : s.workers[w]? = some old) (hstage : old.stage = .running)
    (isNil : Bool) :
    Inv n (s.setWorker w { old with stage := .returned ⟨isNil,
      (s.probes[old.probe]?).any fun probe => !probe.expired⟩ }) := by
  have hheld : (held (s.workers.set w { old with stage := .returned ⟨isNil,
      (s.probes[old.probe]?).any fun probe => !probe.expired⟩ })).Perm (held s.workers) :=
    held_set_same hold (by simp [Worker.held, Worker.holds, hstage])
  have hnone : old.outcome = none := by
    unfold Worker.outcome
    rw [hstage]
  refine h.setWorker hold rfl rfl h.gates (hheld.nodup_iff.mpr h.nodup) (fun k => ?_) ?_ ?_ ?_
  · rw [h.gate k]
    exact hheld.symm.mem_iff
  · intro o ho
    rw [hnone] at ho
    cases ho
  · intro q
    simp [Worker.due, Worker.unpublished, hstage]
  · intro probe hprobe hexpired _
    refine ⟨_, rfl, ?_⟩
    simp [hprobe, hexpired]

/-- A goroutine gives its gate back. -/
theorem Inv.release (h : Inv n s) (hold : s.workers[w]? = some old) {outcome : Outcome}
    (hstage : old.stage = .published outcome) :
    Inv n { (s.setWorker w { old with stage := .released outcome }) with
      gates := s.gates.set old.check false } := by
  obtain ⟨rest, hheld, hset⟩ := flatMap_set_perm Worker.held hold
  have hlost : (held (s.workers.set w { old with stage := .released outcome })).Perm rest :=
    hset _
  have hheld : (held s.workers).Perm (old.check :: rest) := by
    have hone : old.held = [old.check] := by simp [Worker.held, Worker.holds, hstage]
    rw [hone] at hheld
    exact hheld
  obtain ⟨hfree, hnodup⟩ := List.nodup_cons.mp (hheld.nodup_iff.mp h.nodup)
  have houtcome : old.outcome = some outcome := by
    unfold Worker.outcome
    rw [hstage]
  refine h.setWorker hold rfl rfl ?_ (hlost.nodup_iff.mpr hnodup) (fun k => ?_) ?_ ?_ ?_
  · rw [List.length_set]
    exact h.gates
  · rw [hlost.mem_iff]
    by_cases hk : old.check = k
    · subst hk
      refine iff_of_false (fun htrue => ?_) hfree
      have hmem := List.mem_of_getElem? htrue
      have hlt : old.check < s.gates.length :=
        h.gates ▸ (h.workers old (List.mem_of_getElem? hold)).2
      rw [List.getElem?_set_self hlt] at htrue
      cases htrue
    · rw [List.getElem?_set_ne hk, h.gate k, hheld.mem_iff, List.mem_cons]
      exact ⟨fun hcase => hcase.resolve_left (Ne.symm hk), .inr⟩
  · intro o ho
    rw [houtcome] at ho
    exact ho
  · intro q
    simp [Worker.due, Worker.unpublished, hstage]
  · intro probe _ _ hnone
    rw [houtcome] at hnone
    cases hnone

/-- A goroutine publishes its result. -/
theorem Inv.publish (h : Inv n s) (hold : s.workers[w]? = some old) {outcome : Outcome}
    (hstage : old.stage = .returned outcome) (hprobe : s.probes[old.probe]? = some probe) :
    Inv n ((s.setWorker w { old with stage := .published outcome }).setProbe old.probe
      { probe with results := probe.results ++ [⟨old.check, outcome⟩] }) := by
  have houtcome : old.outcome = some outcome := by
    unfold Worker.outcome
    rw [hstage]
  have hheld : (held (s.workers.set w { old with stage := .published outcome })).Perm
      (held s.workers) :=
    held_set_same hold (by simp [Worker.held, Worker.holds, hstage])
  have hkeep : ∀ k o, Ended s.workers old.probe k o →
      Ended (s.workers.set w { old with stage := .published outcome }) old.probe k o :=
    fun k o hend => hend.set hold rfl rfl fun o ho => houtcome.symm.trans ho
  -- the check moves from the goroutine to the channel
  obtain ⟨rest, hdue, hset⟩ := flatMap_set_perm (Worker.due old.probe) hold
  have hlost : (due (s.workers.set w { old with stage := .published outcome }) old.probe).Perm
      rest := by
    have hnone : Worker.due old.probe { old with stage := .published outcome } = [] := by
      simp [Worker.due, Worker.unpublished]
    have hperm := hset { old with stage := .published outcome }
    rw [hnone] at hperm
    exact hperm
  have hdue : (due s.workers old.probe).Perm (old.check :: rest) := by
    have hone : old.due old.probe = [old.check] := by simp [Worker.due, Worker.unpublished, hstage]
    rw [hone] at hdue
    exact hdue
  have hmoved : ((probe.results ++ [Result.mk old.check outcome]).map Result.check ++
      due (s.workers.set w { old with stage := .published outcome }) old.probe).Perm
        (probe.results.map Result.check ++ due s.workers old.probe) := by
    rw [List.map_append, List.map_singleton, List.append_assoc]
    exact ((hlost.append_left _).trans hdue.symm).append_left _
  have hp := h.probes old.probe probe hprobe
  have hnext : ProbeSound n (s.workers.set w { old with stage := .published outcome }) old.probe
      { probe with results := probe.results ++ [⟨old.check, outcome⟩] } := by
    refine ⟨?_, fun k hk => hkeep k _ (hp.taken k hk), fun result hresult => ?_, ?_⟩
    · have hsound := hp.stage
      unfold StageSound at hsound ⊢
      dsimp only
      split at hsound
      · have hnone : due s.workers old.probe = [] := hsound.2.2.2
        rw [hnone] at hdue
        cases hdue.symm.eq_nil
      · obtain ⟨hphase, hlt, htaken, hperm⟩ := hsound
        exact ⟨hphase, hlt, htaken, hmoved.trans hperm⟩
      · obtain ⟨hphase, hpos, hleft, hperm⟩ := hsound
        have hlength := hmoved.length_eq
        simp only [List.length_append, List.length_map] at hlength
        refine ⟨hphase, hpos, ?_, (hmoved.append_left _).trans hperm⟩
        rw [List.length_append]
        omega
      · exact hsound
      · exact hsound
    · rcases List.mem_append.mp hresult with hmem | hmem
      · rcases hp.results result hmem with hend | hrest
        · exact .inl (hkeep _ _ hend)
        · exact .inr hrest
      · obtain rfl := List.mem_singleton.mp hmem
        have hend : Ended (s.workers.set w { old with stage := .published outcome }) old.probe
            old.check outcome := by
          refine ⟨{ old with stage := .published outcome }, mem_set_self hold, ?_⟩
          exact ⟨rfl, rfl, rfl⟩
        exact .inl hend
    · intro hquiet hphase hanswered
      refine (hp.unready hquiet hphase hanswered).set hold rfl
        (fun o ho => houtcome.symm.trans ho) ?_
      intro _ _ hnone
      rw [houtcome] at hnone
      cases hnone
  refine ⟨h.gates, hheld.nodup_iff.mpr h.nodup, ?_, ?_, ?_⟩
  · intro k
    exact (h.gate k).trans hheld.symm.mem_iff
  · intro worker hworker
    have hlength : (s.probes.set old.probe
        { probe with results := probe.results ++ [⟨old.check, outcome⟩] }).length =
          s.probes.length := List.length_set
    have hbound : worker.probe < s.probes.length ∧ worker.check < n := by
      rcases mem_of_mem_set hworker with rfl | hmem
      · exact h.workers old (List.mem_of_getElem? hold)
      · exact h.workers worker hmem
    exact ⟨hlength ▸ hbound.1, hbound.2⟩
  · intro q other hother
    have hother : (s.probes.set old.probe
        { probe with results := probe.results ++ [⟨old.check, outcome⟩] })[q]? = some other :=
      hother
    by_cases hq : old.probe = q
    · subst hq
      rw [getElem?_set_self hprobe] at hother
      cases hother
      exact hnext
    · rw [List.getElem?_set_ne hq] at hother
      refine (h.probes q other hother).mono (due_set_same hold (by simp [Worker.due, hq]))
        (fun k o hend => hend.set hold rfl rfl fun o ho => houtcome.symm.trans ho) fun hspoiled => ?_
      refine hspoiled.set hold rfl (fun o ho => houtcome.symm.trans ho) ?_
      intro _ _ hnone
      rw [houtcome] at hnone
      cases hnone

/-- A punctual step keeps the invariant. -/
theorem Inv.keep (h : Inv n s) {event : Event} (hpunctual : punctual s event = true) {next : State}
    (hstep : step s event = some next) : Inv n next := by
  cases event with
  | phase phase =>
    cases hstep
    exact { h with }
  | probe =>
    cases hstep
    exact h.arrive _
  | readPhase p =>
    simp only [step] at hstep
    split at hstep
    · next probe hprobe =>
      split at hstep
      · next hstage =>
        cases hstep
        exact h.readPhase hprobe hstage
      · cases hstep
    · cases hstep
  | start p =>
    simp only [step] at hstep
    split at hstep
    · next probe hprobe =>
      split at hstep
      · next k hstage =>
        split at hstep
        · next hgate =>
          cases hstep
          exact h.start hprobe hstage hgate
        · next hgate =>
          cases hstep
          have hquiet : probe.quiet = false := by
            simpa [punctual, hprobe, hstage, hgate] using hpunctual
          exact h.startHeld hprobe hstage hquiet
        · cases hstep
      · cases hstep
    · cases hstep
  | take p =>
    simp only [step] at hstep
    split at hstep
    · next probe hprobe =>
      split at hstep
      · next left result results hstage hresults =>
        split at hstep
        · next hnil =>
          cases hstep
          have hintime : result.outcome.inTime = true := by
            simpa [punctual, hprobe, hresults, hnil] using hpunctual
          have houtcome : result.outcome = ⟨true, true⟩ := by
            cases hcase : result.outcome with
            | mk isNil inTime =>
              rw [hcase] at hnil hintime
              obtain rfl : isNil = true := hnil
              obtain rfl : inTime = true := hintime
              rfl
          exact h.takeNil hprobe hstage hresults houtcome
        · next herror =>
          cases hstep
          refine h.refuse hprobe (by rw [hresults]; exact List.subset_cons_self _ _) fun hquiet => ?_
          have hp := h.probes p probe hprobe
          rcases hp.results result (by rw [hresults]; exact List.mem_cons_self) with hend | ⟨hq, -⟩
          · obtain ⟨worker, hmem, hworker, -, houtcome⟩ := hend
            refine ⟨worker, hmem, hworker, .inr ⟨_, houtcome, ?_⟩⟩
            intro heq
            rw [heq] at herror
            exact herror rfl
          · rw [hquiet] at hq
            cases hq
      · cases hstep
    · cases hstep
  | giveUp p =>
    simp only [step] at hstep
    split at hstep
    · next probe hprobe =>
      split at hstep
      · split at hstep
        · next hexpired =>
          cases hstep
          refine h.refuse hprobe (List.Subset.refl _) fun hquiet => ?_
          obtain ⟨worker, hmem, hworker, hne⟩ : ∃ worker ∈ s.workers, worker.probe = p ∧
              worker.outcome ≠ some ⟨true, true⟩ := by
            simpa [punctual, hprobe, hquiet] using hpunctual
          refine ⟨worker, hmem, hworker, ?_⟩
          cases houtcome : worker.outcome with
          | none => exact .inl ⟨rfl, hexpired⟩
          | some outcome =>
            rw [houtcome] at hne
            exact .inr ⟨outcome, rfl, fun heq => hne (congrArg some heq)⟩
        · cases hstep
      · cases hstep
    · cases hstep
  | expire p =>
    simp only [step] at hstep
    split at hstep
    · next probe hprobe =>
      cases hstep
      exact h.expire hprobe
    · cases hstep
  | finish w ending =>
    simp only [step] at hstep
    split at hstep
    · next worker hworker =>
      split at hstep
      · next hstage =>
        cases hstep
        exact h.finish hworker hstage _
      · cases hstep
    · cases hstep
  | publish w =>
    simp only [step] at hstep
    split at hstep
    · next worker hworker =>
      split at hstep
      · next outcome probe hstage hprobe =>
        cases hstep
        exact h.publish hworker hstage hprobe
      · cases hstep
    · cases hstep
  | release w =>
    simp only [step] at hstep
    split at hstep
    · next worker hworker =>
      split at hstep
      · next outcome hstage =>
        cases hstep
        exact h.release hworker hstage
      · cases hstep
    · cases hstep

/-- **The invariant holds in every punctual run.** -/
theorem inv_of_run {events : List Event} (hrun : run step events (.initial n) = some s)
    (hpunctual : along step punctual events (.initial n) = true) : Inv n s := by
  exact run_induction_of (P := Inv n) (inv_initial n)
    (fun _ _ _ h hpunctual hstep => h.keep hpunctual hstep) hrun hpunctual

end Invariant

/-! ### Answers -/

section Answers

variable {n p : ℕ} {s next : State} {probe : Probe} {event : Event}

/-- A probe that began after all earlier ones were over, read the phase ready, and whose checks so
far have all returned nil in time. -/
structure Healthy (s : State) (p : ℕ) (probe : Probe) : Prop where
  quiet : probe.quiet = true
  phase : probe.phase = some .ready
  checks : ∀ worker ∈ s.workers, worker.probe = p → worker.outcome = some ⟨true, true⟩

/-- The steps of a probe and of the goroutines it waits for. -/
def Own (s : State) (p : ℕ) : Event → Prop
  | .readPhase q => q = p
  | .start q => q = p
  | .take q => q = p
  | .publish w => ∃ worker, s.workers[w]? = some worker ∧ worker.probe = p
  | _ => False

/-- A bound on the steps that a stage is away from its answer. -/
def stageWork (n : ℕ) : ProbeStage → ℕ
  | .arrived => 4 * n + 2
  | .starting k => 3 * (n - k) + n + 1
  | .collecting left => left
  | .answered _ => 0

/-- A bound on the steps that a probe and its goroutines have left. -/
def State.work (n : ℕ) (s : State) (p : ℕ) : ℕ :=
  match s.probes[p]? with
  | some probe => stageWork n probe.stage + (due s.workers p).length
  | none => 0

theorem work_eq (hp : s.probes[p]? = some probe) :
    s.work n p = stageWork n probe.stage + (due s.workers p).length := by
  unfold State.work
  rw [hp]

/-- What holds of the manager and its probes in every state of a punctual run: a check has one
invocation at a time; a probe that answers ready has read the phase ready and has had every check
return nil in time; and a healthy probe does not answer otherwise, and until it answers it or one of
its goroutines has a step to take, of which there are finitely many, as no step adds to them. -/
structure Meets (n : ℕ) (s : State) : Prop where
  exclusive : ∀ (i j : ℕ) (a b : Worker), s.workers[i]? = some a → s.workers[j]? = some b →
    a.stage = .running → b.stage = .running → a.check = b.check → i = j
  ready : ∀ (p : ℕ) (probe : Probe), s.probes[p]? = some probe → probe.stage = .answered true →
    probe.phase = some .ready ∧ ∀ k < n, Ended s.workers p k ⟨true, true⟩
  healthy : ∀ (p : ℕ) (probe : Probe), s.probes[p]? = some probe → Healthy s p probe →
    probe.stage ≠ .answered false ∧
      (probe.stage ≠ .answered true → ∃ event next, Own s p event ∧ step s event = some next ∧
        next.work n p < s.work n p)
  finite : ∀ (p : ℕ) (probe : Probe), s.probes[p]? = some probe → ∀ event next,
    step s event = some next → next.work n p ≤ s.work n p

theorem Inv.exclusive (h : Inv n s) {i j : ℕ} {a b : Worker} (ha : s.workers[i]? = some a)
    (hb : s.workers[j]? = some b) (hrunning : a.stage = .running) (hrunning' : b.stage = .running)
    (hcheck : a.check = b.check) : i = j := by
  have hpair := (List.nodup_flatMap.mp h.nodup).2
  rw [List.pairwise_iff_getElem] at hpair
  obtain ⟨hi, ha⟩ := List.getElem?_eq_some_iff.mp ha
  obtain ⟨hj, hb⟩ := List.getElem?_eq_some_iff.mp hb
  have hheld : ∀ worker : Worker, worker.stage = .running → worker.check ∈ worker.held := by
    intro worker hstage
    simp [Worker.held, Worker.holds, hstage]
  rcases Nat.lt_trichotomy i j with hlt | heq | hlt
  · have hdisjoint := hpair i j hi hj hlt
    rw [Function.onFun_apply, ha, hb] at hdisjoint
    exact (hdisjoint (hheld a hrunning) (hcheck ▸ hheld b hrunning')).elim
  · exact heq
  · have hdisjoint := hpair j i hj hi hlt
    rw [Function.onFun_apply, ha, hb] at hdisjoint
    exact (hdisjoint (hheld b hrunning') (hcheck ▸ hheld a hrunning)).elim

theorem Inv.ready (h : Inv n s) (hp : s.probes[p]? = some probe)
    (hstage : probe.stage = .answered true) :
    probe.phase = some .ready ∧ ∀ k < n, Ended s.workers p k ⟨true, true⟩ := by
  have hsound := h.probes p probe hp
  have hanswer := hsound.stage
  unfold StageSound at hanswer
  rw [hstage] at hanswer
  exact ⟨hanswer.1, fun k hk => hsound.taken k (hanswer.2 k hk)⟩

theorem Inv.not_unready (h : Inv n s) (hp : s.probes[p]? = some probe)
    (hhealthy : Healthy s p probe) : probe.stage ≠ .answered false := by
  intro hstage
  obtain ⟨worker, hmem, hworker, hcase⟩ :=
    (h.probes p probe hp).unready hhealthy.quiet hhealthy.phase hstage
  have hgood := hhealthy.checks worker hmem hworker
  rcases hcase with ⟨hnone, -⟩ | ⟨outcome, hsome, hne⟩
  · rw [hgood] at hnone
    cases hnone
  · rw [hgood] at hsome
    exact hne (Option.some.inj hsome).symm

theorem stageWork_afterStart {k : ℕ} (hgates : s.gates.length = n) (hlt : k < n) :
    stageWork n (afterStart s k) + 1 < stageWork n (.starting k) := by
  unfold afterStart
  by_cases hnext : k + 1 < s.gates.length
  · rw [if_pos hnext]
    simp only [stageWork]
    omega
  · have hne : s.gates.length ≠ 0 := by omega
    rw [if_neg hnext, collect, if_neg hne]
    simp only [stageWork]
    omega

/-- The next check of a probe can be started, whether or not its gate is free. -/
theorem Inv.start_enabled (h : Inv n s) (hp : s.probes[p]? = some probe) {k : ℕ}
    (hstage : probe.stage = .starting k) (hlt : k < n) :
    ∃ next, step s (.start p) = some next ∧ next.work n p < s.work n p := by
  have hless := stageWork_afterStart h.gates hlt
  have hwork := work_eq (n := n) hp
  rw [hstage] at hwork
  have hk : k < s.gates.length := h.gates ▸ hlt
  simp only [step, hp, hstage]
  cases hgate : s.gates[k]? with
  | none => simp at hgate; omega
  | some full =>
    cases full with
    | false =>
      refine ⟨_, rfl, ?_⟩
      have hnext := work_eq (n := n) (s := { s with
        gates := s.gates.set k true
        probes := s.probes.set p { probe with stage := afterStart s k }
        workers := s.workers ++ [⟨p, k, .running⟩] }) (getElem?_set_self hp)
      rw [due_append, List.length_append] at hnext
      have hone : (Worker.due p ⟨p, k, .running⟩).length = 1 := by
        simp [Worker.due, Worker.unpublished]
      dsimp only at hnext
      omega
    | true =>
      refine ⟨_, rfl, ?_⟩
      have hnext := work_eq (n := n) (s := s.setProbe p { probe with
        stage := afterStart s k
        results := probe.results ++ [⟨k, ⟨false, true⟩⟩] }) (getElem?_set_self hp)
      have hworkers : (s.setProbe p { probe with
        stage := afterStart s k
        results := probe.results ++ [⟨k, ⟨false, true⟩⟩] }).workers = s.workers := rfl
      rw [hworkers] at hnext
      dsimp only at hnext
      omega

/-- A result in the channel can be taken. -/
theorem take_enabled (hp : s.probes[p]? = some probe) {left : ℕ}
    (hstage : probe.stage = .collecting left) (hpos : 0 < left) {result : Result}
    {rest : List Result} (hresults : probe.results = result :: rest) :
    ∃ next, step s (.take p) = some next ∧ next.work n p < s.work n p := by
  have hwork := work_eq (n := n) hp
  rw [hstage] at hwork
  simp only [step, hp, hstage, hresults]
  by_cases hnil : result.outcome.isNil = true
  · rw [if_pos hnil]
    refine ⟨_, rfl, ?_⟩
    have hnext := work_eq (n := n) (s := s.setProbe p { probe with
      stage := collect (left - 1), results := rest
      taken := probe.taken ++ [result.check] }) (getElem?_set_self hp)
    have hless : stageWork n (collect (left - 1)) < left := by
      unfold collect
      by_cases hzero : left - 1 = 0
      · rw [if_pos hzero]
        exact hpos
      · rw [if_neg hzero]
        simp only [stageWork]
        omega
    rw [hnext, hwork]
    exact Nat.add_lt_add_right hless _
  · rw [if_neg hnil]
    refine ⟨_, rfl, ?_⟩
    have hnext := work_eq (n := n) (s := s.setProbe p { probe with
      stage := .answered false, results := rest }) (getElem?_set_self hp)
    rw [hnext, hwork]
    exact Nat.add_lt_add_right hpos _

/-- A goroutine whose check has returned can publish its result. -/
theorem publish_enabled (hp : s.probes[p]? = some probe) {w : ℕ} {worker : Worker}
    (hworker : s.workers[w]? = some worker) (hprobe : worker.probe = p) {outcome : Outcome}
    (hstage : worker.stage = .returned outcome) :
    ∃ next, step s (.publish w) = some next ∧ next.work n p < s.work n p := by
  subst hprobe
  simp only [step, hworker, hstage, hp]
  refine ⟨_, rfl, ?_⟩
  obtain ⟨rest, hdue, hset⟩ := flatMap_set_perm (Worker.due worker.probe) hworker
  have hone : worker.due worker.probe = [worker.check] := by
    simp [Worker.due, Worker.unpublished, hstage]
  have hnone : Worker.due worker.probe { worker with stage := .published outcome } = [] := by
    simp [Worker.due, Worker.unpublished]
  have hlost := (hset { worker with stage := .published outcome }).length_eq
  have hhad := hdue.length_eq
  rw [hnone] at hlost
  rw [hone] at hhad
  have hwork := work_eq (n := n) hp
  have hnext := work_eq (n := n) (s := (s.setWorker w
    { worker with stage := .published outcome }).setProbe worker.probe
      { probe with results := probe.results ++ [⟨worker.check, outcome⟩] }) (getElem?_set_self hp)
  rw [hwork, hnext]
  have hless : (due (s.workers.set w { worker with stage := .published outcome })
      worker.probe).length < (due s.workers worker.probe).length := by
    unfold due
    rw [hlost, hhad]
    simp
  exact Nat.add_lt_add_left hless _

/-- **A healthy probe that has not answered has a step to take.** -/
theorem Inv.progress (h : Inv n s) (hp : s.probes[p]? = some probe) (hhealthy : Healthy s p probe)
    (hopen : probe.stage ≠ .answered true) :
    ∃ event next, Own s p event ∧ step s event = some next ∧ next.work n p < s.work n p := by
  have hsound := (h.probes p probe hp).stage
  unfold StageSound at hsound
  split at hsound
  · obtain ⟨hphase, -⟩ := hsound
    rw [hhealthy.phase] at hphase
    cases hphase
  · next k hstage =>
    obtain ⟨next, hstep, hless⟩ := h.start_enabled hp hstage hsound.2.1
    exact ⟨.start p, next, rfl, hstep, hless⟩
  · next left hstage =>
    obtain ⟨-, hpos, hleft, -⟩ := hsound
    cases hresults : probe.results with
    | cons result rest =>
      obtain ⟨next, hstep, hless⟩ := take_enabled (n := n) hp hstage hpos hresults
      exact ⟨.take p, next, rfl, hstep, hless⟩
    | nil =>
      -- nothing in the channel: one of the goroutines has not published yet
      have hdue : due s.workers p ≠ [] := by
        intro hnone
        rw [hresults, hnone] at hleft
        simp at hleft
        omega
      obtain ⟨k, hk⟩ := List.exists_mem_of_ne_nil _ hdue
      obtain ⟨worker, hmem, hk⟩ := List.mem_flatMap.mp hk
      unfold Worker.due at hk
      split at hk
      · next hcase =>
        obtain ⟨w, hw⟩ := List.getElem?_of_mem hmem
        have hgood := hhealthy.checks worker hmem hcase.1
        have hunpublished := hcase.2
        cases hstage' : worker.stage with
        | running => simp [Worker.outcome, hstage'] at hgood
        | returned outcome =>
          obtain ⟨next, hstep, hless⟩ := publish_enabled (n := n) hp hw hcase.1 hstage'
          exact ⟨.publish w, next, ⟨worker, hw, hcase.1⟩, hstep, hless⟩
        | published outcome => simp [Worker.unpublished, hstage'] at hunpublished
        | released outcome => simp [Worker.unpublished, hstage'] at hunpublished
      · cases hk
  · next hstage => exact absurd hstage hopen
  · next hstage => exact absurd hstage (h.not_unready hp hhealthy)

theorem work_setProbe_ne {q : ℕ} (hne : q ≠ p) (other : Probe) :
    (s.setProbe q other).work n p = s.work n p := by
  unfold State.work State.setProbe
  dsimp only
  rw [List.getElem?_set_ne hne]

theorem work_setProbe_le {q : ℕ} {old other : Probe} (hold : s.probes[q]? = some old)
    (hle : stageWork n other.stage ≤ stageWork n old.stage) :
    (s.setProbe q other).work n p ≤ s.work n p := by
  by_cases hq : q = p
  · subst hq
    have hnext := work_eq (n := n) (s := s.setProbe q other) (getElem?_set_self hold)
    have hwork := work_eq (n := n) hold
    rw [hnext, hwork]
    exact Nat.add_le_add_right hle _
  · rw [work_setProbe_ne hq]

/-- A goroutine's step that leaves a probe with no more to wait for. -/
theorem work_setWorker_le {w : ℕ} {worker new : Worker} (hold : s.workers[w]? = some worker)
    {gates : List Bool} (hdue : new.due p = worker.due p ∨ new.due p = []) :
    State.work n { s with gates, workers := s.workers.set w new } p ≤ s.work n p := by
  obtain ⟨rest, hhad, hset⟩ := flatMap_set_perm (Worker.due p) hold
  have hlength : (due (s.workers.set w new) p).length ≤ (due s.workers p).length := by
    unfold due
    rw [hhad.length_eq, (hset new).length_eq, List.length_append, List.length_append]
    rcases hdue with heq | hnil
    · rw [heq]
    · rw [hnil]
      simp
  unfold State.work
  dsimp only
  cases s.probes[p]? with
  | none => exact Nat.le_refl 0
  | some probe => exact Nat.add_le_add_left hlength _

theorem Inv.work_start_le (h : Inv n s) {q : ℕ} (hstep : step s (.start q) = some next) :
    next.work n p ≤ s.work n p := by
  have hstep' := hstep
  simp only [step] at hstep
  split at hstep
  · next probe hprobe =>
    split at hstep
    · next k hstage =>
      by_cases hq : q = p
      · subst hq
        have hsound := (h.probes q probe hprobe).stage
        unfold StageSound at hsound
        rw [hstage] at hsound
        obtain ⟨after, hafter, hless⟩ := h.start_enabled hprobe hstage hsound.2.1
        obtain rfl := Option.some.inj (hstep'.symm.trans hafter)
        exact hless.le
      · split at hstep
        · cases hstep
          unfold State.work
          dsimp only
          rw [List.getElem?_set_ne hq, due_append]
          have hnone : Worker.due p ⟨q, k, .running⟩ = [] := by simp [Worker.due, hq]
          rw [hnone, List.append_nil]
        · cases hstep
          exact (work_setProbe_ne hq _).le
        · cases hstep
    · cases hstep
  · cases hstep

/-- **No step adds to what a probe has left to do.** -/
theorem Inv.work_le (h : Inv n s) (hp : s.probes[p]? = some probe)
    (hstep : step s event = some next) : next.work n p ≤ s.work n p := by
  cases event with
  | phase phase =>
    cases hstep
    exact Nat.le_refl _
  | probe =>
    cases hstep
    have hlt : p < s.probes.length := (List.getElem?_eq_some_iff.mp hp).1
    unfold State.work
    dsimp only
    rw [List.getElem?_append_left hlt]
  | readPhase q =>
    simp only [step] at hstep
    split at hstep
    · next old hold =>
      split at hstep
      · next hstage =>
        cases hstep
        refine work_setProbe_le hold ?_
        rw [hstage]
        dsimp only
        split_ifs
        · exact Nat.zero_le _
        · exact Nat.zero_le _
        · simp only [stageWork]
          omega
      · cases hstep
    · cases hstep
  | start q => exact h.work_start_le hstep
  | take q =>
    simp only [step] at hstep
    split at hstep
    · next old hold =>
      split at hstep
      · next left result results hstage hresults =>
        split at hstep
        · cases hstep
          refine work_setProbe_le hold ?_
          rw [hstage]
          unfold collect
          dsimp only
          split_ifs
          · exact Nat.zero_le _
          · simp only [stageWork]
            omega
        · cases hstep
          exact work_setProbe_le hold (Nat.zero_le _)
      · cases hstep
    · cases hstep
  | giveUp q =>
    simp only [step] at hstep
    split at hstep
    · next old hold =>
      split at hstep
      · split at hstep
        · cases hstep
          exact work_setProbe_le hold (Nat.zero_le _)
        · cases hstep
      · cases hstep
    · cases hstep
  | expire q =>
    simp only [step] at hstep
    split at hstep
    · next old hold =>
      cases hstep
      exact work_setProbe_le hold (Nat.le_refl _)
    · cases hstep
  | finish w ending =>
    simp only [step] at hstep
    split at hstep
    · next worker hworker =>
      split at hstep
      · next hstage =>
        cases hstep
        refine work_setWorker_le hworker (.inl ?_)
        simp [Worker.due, Worker.unpublished, hstage]
      · cases hstep
    · cases hstep
  | publish w =>
    simp only [step] at hstep
    split at hstep
    · next worker hworker =>
      split at hstep
      · next outcome old hstage hold =>
        cases hstep
        have hprobe : (s.setWorker w { worker with stage := .published outcome }).probes[
            worker.probe]? = some old := hold
        have hstage : stageWork n
            { old with results := old.results ++ [⟨worker.check, outcome⟩] : Probe }.stage ≤
              stageWork n old.stage := Nat.le_refl _
        refine (work_setProbe_le hprobe hstage).trans ?_
        refine work_setWorker_le hworker (.inr ?_)
        simp [Worker.due, Worker.unpublished]
      · cases hstep
    · cases hstep
  | release w =>
    simp only [step] at hstep
    split at hstep
    · next worker hworker =>
      split at hstep
      · next outcome hstage =>
        cases hstep
        refine work_setWorker_le hworker (.inr ?_)
        simp [Worker.due, Worker.unpublished]
      · cases hstep
    · cases hstep

/-- **In every punctual run the probes answer as they should.** -/
theorem readiness_sound {events : List Event} (hrun : run step events (.initial n) = some s)
    (hpunctual : along step punctual events (.initial n) = true) : Meets n s := by
  have h := inv_of_run hrun hpunctual
  constructor
  · intro i j a b ha hb hrunning hrunning' hcheck
    exact h.exclusive ha hb hrunning hrunning' hcheck
  · intro p probe hp hstage
    exact h.ready hp hstage
  · intro p probe hp hhealthy
    exact ⟨h.not_unready hp hhealthy, h.progress hp hhealthy⟩
  · intro p probe hp event next hstep
    exact h.work_le hp hstep

/-- A manager with one check becomes ready and is probed twice, the second time after the goroutine
of the first has given its gate back. -/
def promptEvents : List Event :=
  [.phase .ready, .probe, .readPhase 0, .start 0, .finish 0 .succeeded, .publish 0, .take 0,
    .release 0, .probe, .readPhase 1, .start 1, .finish 1 .succeeded, .publish 1, .take 1]

/-- Both probes answer that the process is ready. -/
theorem readiness_sound_prompt :
    ∃ s, run step promptEvents (.initial 1) = some s ∧
      s.probes.map Probe.stage = [.answered true, .answered true] ∧ Meets 1 s := by
  have hstages : (run step promptEvents (.initial 1)).map (fun s => s.probes.map Probe.stage) =
      some [.answered true, .answered true] := by decide +kernel
  obtain ⟨s, hrun, hanswers⟩ := Option.map_eq_some_iff.mp hstages
  exact ⟨s, hrun, hanswers, readiness_sound hrun (by decide +kernel)⟩

/-- The same, except that the second probe comes between the first goroutine's result and the return
of its gate. -/
def staleEvents : List Event :=
  [.phase .ready, .probe, .readPhase 0, .start 0, .finish 0 .succeeded, .publish 0, .take 0,
    .probe, .readPhase 1, .start 1, .take 1]

/-- **A healthy process is found not ready**: the second probe meets the gate of a check that has
returned, and answers although no check has failed. -/
theorem stale_gate_unready : ∃ s, run step staleEvents (.initial 1) = some s ∧ ¬ Meets 1 s := by
  have heval : (run step staleEvents (.initial 1)).map (fun s =>
      (s.probes[1]?, s.workers.map Worker.probe)) =
        some (some { stage := .answered false, phase := some .ready, quiet := true }, [0]) := by
    decide +kernel
  obtain ⟨s, hrun, heval⟩ := Option.map_eq_some_iff.mp heval
  obtain ⟨hprobe, hworkers⟩ := Prod.mk.inj heval
  refine ⟨s, hrun, fun h => ?_⟩
  have hhealthy : Healthy s 1
      { stage := .answered false, phase := some .ready, quiet := true } := by
    refine ⟨rfl, rfl, fun worker hworker hone => ?_⟩
    have hmem : worker.probe ∈ s.workers.map Worker.probe := List.mem_map_of_mem hworker
    rw [hworkers, hone] at hmem
    simp at hmem
  exact (h.healthy 1 _ hprobe hhealthy).1 rfl

end Answers

end Modary.Process.Readiness
