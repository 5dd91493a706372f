import Mathlib.Data.List.Perm.Basic
import Mathlib.Logic.Function.Basic
import Mathlib.Tactic.IntervalCases
import Modary.Lib.Machine

/-! # Runners of the task service

`taskService` and `runner` of governedpostgres under any interleaving of `NewRunner`, `Start`,
`Stop`, the observation of a runner's end and `close`. An event is one critical section of the
service or of a runner, or a call of the River client. Of that client it is taken that `Stop` and
`StopAndCancel` return nil only when its workers have ended. -/

namespace Modary.Governed.Tasks

open Modary.Lib.Machine

/-! ### Runners -/

/-- The River client of a runner. -/
inductive Client
  | idle
  | running
  | ended
  deriving DecidableEq, Repr

/-- `runner`. `attempts` numbers the channels `stopAttempt`, `doneCloses` counts the calls of
`close(run.done)` and `releases` those of `owner.release(run)`. -/
structure Runner where
  created : Bool := false
  started : Bool := false
  stopping : Bool := false
  stopped : Bool := false
  attempts : ℕ := 0
  doneCloses : ℕ := 0
  releases : ℕ := 0
  client : Client := .idle
  deriving DecidableEq, Repr

/-- `markStoppedLocked` of a runner that is not stopped. -/
def Runner.mark (run : Runner) : Runner :=
  { run with stopped := true, doneCloses := run.doneCloses + 1 }

/-- How far a `stop` or an `observeStopped` is. -/
inductive Pc
  | entered
  | looping
  | waiting (attempt : ℕ)
  | calling
  | called (ok : Bool)
  | observing
  /-- the runner is marked, `owner.release` is to come -/
  | releasing
  | returned (ok : Bool)
  deriving DecidableEq, Repr

/-- Who runs it: a caller of `Stop`, a `close`, or the goroutine of `observeStopped`. -/
inductive Thread
  | caller (s : ℕ)
  | closer (q : ℕ)
  | observer (r : ℕ)
  deriving DecidableEq, Repr

structure Proc where
  runner : ℕ
  hard : Bool
  pc : Pc
  deriving DecidableEq, Repr

/-- How far a `close` is: the runners after the one it is stopping, and whether one failed. -/
inductive Closing
  | idle
  | stopping (rest : List ℕ) (failed : Bool)
  | returned (ok : Bool)
  deriving DecidableEq, Repr

/-- The service, its runners and the calls. -/
structure World where
  closed : Bool
  runners : List ℕ
  runner : ℕ → Runner
  proc : Thread → Option Proc
  closing : ℕ → Closing

def World.init : World :=
  { closed := false, runners := [], runner := fun _ => {}, proc := fun _ => none,
    closing := fun _ => .idle }

/-- Thread `t` goes on at runner `r`. -/
def World.move (w : World) (t : Thread) (p : Proc) (run : Runner) (pc : Pc) : World :=
  { w with
    runner := Function.update w.runner p.runner run
    proc := Function.update w.proc t (some { p with pc := pc }) }

/-- `markStoppedLocked`, then the release of the slot when this call marked the runner. -/
def World.markStopped (w : World) (t : Thread) (p : Proc) (run : Runner) : World :=
  if run.stopped then w.move t p run (.returned true) else w.move t p run.mark .releasing

/-- The next runner of a `close`. -/
def World.closeNext (w : World) (q : ℕ) (rest : List ℕ) (failed : Bool) : World :=
  match rest with
  | [] => { w with closing := Function.update w.closing q (.returned (!failed)) }
  | r :: rest =>
    { w with
      closing := Function.update w.closing q (.stopping rest failed)
      proc := Function.update w.proc (.closer q) (some ⟨r, false, .entered⟩) }

inductive Event
  | newRunner (r : ℕ)
  | start (r : ℕ) (ok : Bool)
  /-- the client ends by itself -/
  | ends (r : ℕ)
  | stop (s r : ℕ)
  | check (t : Thread) (valid : Bool)
  | loop (t : Thread)
  | wake (t : Thread)
  | expire (t : Thread)
  | call (t : Thread) (ok : Bool)
  | settle (t : Thread)
  | observe (t : Thread)
  | release (t : Thread)
  /-- `order` is the order in which the map of runners is read -/
  | close (q : ℕ) (order : List ℕ)
  | next (q : ℕ)
  deriving DecidableEq, Repr

/-- The section at the head of the loop of `stop`. -/
def World.loop (w : World) (t : Thread) (p : Proc) : World :=
  let run := w.runner p.runner
  if run.stopped then w.move t p run (.returned true)
  else if run.stopping then w.move t p run (.waiting run.attempts)
  else if !run.started then w.markStopped t p run
  else w.move t p { run with stopping := true, attempts := run.attempts + 1 } .calling

/-- One event; `none` when it cannot happen. -/
def step (w : World) : Event → Option World
  | .newRunner r =>
    if (w.runner r).created then none
    else if w.closed then some w
    else some { w with
      runners := r :: w.runners
      runner := Function.update w.runner r { created := true } }
  | .start r ok =>
    if !(w.runner r).created then none
    else if (w.runner r).started || (w.runner r).stopped || !ok then some w
    else some { w with
      runner := Function.update w.runner r { w.runner r with started := true, client := .running }
      proc := Function.update w.proc (.observer r) (some ⟨r, false, .observing⟩) }
  | .ends r =>
    if (w.runner r).client = .running then
      some { w with runner := Function.update w.runner r { w.runner r with client := .ended } }
    else none
  | .stop s r =>
    if (w.runner r).created && (w.proc (.caller s)).isNone then
      some { w with proc := Function.update w.proc (.caller s) (some ⟨r, false, .entered⟩) }
    else none
  | .check t valid =>
    match w.proc t with
    | some p =>
      if p.pc = .entered then
        some (w.move t p (w.runner p.runner) (if valid then .looping else .returned false))
      else none
    | none => none
  | .loop t =>
    match w.proc t with
    | some p => if p.pc = .looping then some (w.loop t p) else none
    | none => none
  | .wake t =>
    match w.proc t with
    | some p =>
      match p.pc with
      | .waiting attempt =>
        if (w.runner p.runner).stopping && (w.runner p.runner).attempts == attempt then none
        else some (w.move t p (w.runner p.runner) .looping)
      | _ => none
    | none => none
  | .expire t =>
    match w.proc t with
    | some p =>
      match p.pc with
      | .waiting _ => some (w.move t p (w.runner p.runner) (.returned false))
      | _ => none
    | none => none
  | .call t ok =>
    match w.proc t with
    | some p =>
      if p.pc = .calling then
        if ok then some (w.move t p { w.runner p.runner with client := .ended } (.called true))
        else some (w.move t p (w.runner p.runner) (.called false))
      else none
    | none => none
  | .settle t =>
    match w.proc t with
    | some p =>
      match p.pc with
      | .called true => some (w.markStopped t p { w.runner p.runner with stopping := false })
      | .called false => some (w.move t p { w.runner p.runner with stopping := false } (.returned false))
      | _ => none
    | none => none
  | .observe t =>
    match w.proc t with
    | some p =>
      if p.pc = .observing ∧ (w.runner p.runner).client = .ended then
        some (w.markStopped t p (w.runner p.runner))
      else none
    | none => none
  | .release t =>
    match w.proc t with
    | some p =>
      if p.pc = .releasing then
        some { w.move t p { w.runner p.runner with releases := (w.runner p.runner).releases + 1 }
          (.returned true) with runners := w.runners.filter (· ≠ p.runner) }
      else none
    | none => none
  | .close q order =>
    match w.closing q with
    | .idle =>
      if w.closed then some { w with closing := Function.update w.closing q (.returned true) }
      else if order.Perm w.runners then some ({ w with closed := true }.closeNext q order false)
      else none
    | _ => none
  | .next q =>
    match w.closing q, w.proc (.closer q) with
    | .stopping rest failed, some p =>
      match p.pc with
      | .returned ok =>
        if !ok && !p.hard then
          some { w with
            closing := Function.update w.closing q (.stopping rest true)
            proc := Function.update w.proc (.closer q) (some ⟨p.runner, true, .entered⟩) }
        else some (w.closeNext q rest failed)
      | _ => none
    | _, _ => none

/-- A run from a new service. -/
def Run (es : List Event) (w : World) : Prop := run step es World.init = some w

/-! ### What one event does -/

/-- The runner up to an attempt to stop it. -/
def Runner.Same (run old : Runner) : Prop :=
  ∃ stopping attempts, run = { old with stopping := stopping, attempts := attempts }

theorem same_refl (run : Runner) : run.Same run := ⟨run.stopping, run.attempts, rfl⟩

/-- What holds of a runner in every state. -/
structure Runner.Sound (run : Runner) : Prop where
  idle : run.started = false → run.client = .idle
  ended : run.stopped = true → run.client ≠ .running
  done : run.doneCloses = if run.stopped then 1 else 0
  releases : run.releases ≤ 1
  released : run.releases ≠ 0 → run.stopped = true
  new : run.created = false → run = {}

/-- What a call has reached at its runner. -/
structure Proc.Sound (w : World) (p : Proc) : Prop where
  created : (w.runner p.runner).created = true
  calling : p.pc = .calling → (w.runner p.runner).started = true
  called : p.pc = .called true → (w.runner p.runner).client = .ended
  releasing : p.pc = .releasing →
    (w.runner p.runner).stopped = true ∧ (w.runner p.runner).releases = 0
  returned : p.pc = .returned true → (w.runner p.runner).stopped = true

/-- What one event does, where the runners and the calls are as they should. -/
inductive Step (w : World) : Event → World → Prop
  | same {e : Event} : Step w e w
  | created {e : Event} {r : ℕ} (hr : (w.runner r).created = false) (hc : w.closed = false) :
      Step w e { w with
        runners := r :: w.runners
        runner := Function.update w.runner r { created := true } }
  | started {e : Event} {r : ℕ} (hr : (w.runner r).created = true)
      (hs : (w.runner r).started = false) (hd : (w.runner r).stopped = false) :
      Step w e { w with
        runner := Function.update w.runner r { w.runner r with started := true, client := .running }
        proc := Function.update w.proc (.observer r) (some ⟨r, false, .observing⟩) }
  | ended {e : Event} {r : ℕ} (hr : (w.runner r).client = .running) :
      Step w e
        { w with runner := Function.update w.runner r { w.runner r with client := .ended } }
  | stop {e : Event} {s r : ℕ} (hr : (w.runner r).created = true)
      (hs : w.proc (.caller s) = none) :
      Step w e { w with proc := Function.update w.proc (.caller s) (some ⟨r, false, .entered⟩) }
  | moves {e : Event} {t : Thread} {p : Proc} {run : Runner} {pc : Pc} (ht : w.proc t = some p)
      (hp : p.pc ≠ .releasing) (hrun : run.Same (w.runner p.runner))
      (hover : pc = .returned true → (w.runner p.runner).stopped = true) (hr : pc ≠ .releasing)
      (hcalling : pc = .calling → (w.runner p.runner).started = true) (hcalled : pc ≠ .called true) :
      Step w e (w.move t p run pc)
  | called {e : Event} {t : Thread} {p : Proc} (ht : w.proc t = some p) (hp : p.pc = .calling) :
      Step w e (w.move t p { w.runner p.runner with client := .ended } (.called true))
  | marks {e : Event} {t : Thread} {p : Proc} {run : Runner} (ht : w.proc t = some p)
      (hp : p.pc ≠ .releasing) (hrun : run.Same (w.runner p.runner))
      (hs : (w.runner p.runner).stopped = false) (hc : (w.runner p.runner).client ≠ .running) :
      Step w e (w.move t p run.mark .releasing)
  | released {e : Event} {t : Thread} {p : Proc} (ht : w.proc t = some p)
      (hp : p.pc = .releasing) :
      Step w e { w.move t p
        { w.runner p.runner with releases := (w.runner p.runner).releases + 1 } (.returned true) with
        runners := w.runners.filter (· ≠ p.runner) }
  | again {q : ℕ} {order : List ℕ} (hq : w.closing q = .idle) (hc : w.closed = true) :
      Step w (.close q order) { w with closing := Function.update w.closing q (.returned true) }
  | closes {e : Event} {q : ℕ} {order : List ℕ} (hq : w.closing q = .idle)
      (hc : w.closed = false) (ho : order.Perm w.runners) :
      Step w e ({ w with closed := true }.closeNext q order false)
  | force {e : Event} {q : ℕ} {rest : List ℕ} {failed : Bool} {p : Proc}
      (hq : w.closing q = .stopping rest failed) (hp : w.proc (.closer q) = some p)
      (hpc : p.pc = .returned false) :
      Step w e { w with
        closing := Function.update w.closing q (.stopping rest true)
        proc := Function.update w.proc (.closer q) (some ⟨p.runner, true, .entered⟩) }
  | next {e : Event} {q : ℕ} {rest : List ℕ} {failed ok : Bool} {p : Proc}
      (hq : w.closing q = .stopping rest failed) (hp : w.proc (.closer q) = some p)
      (hpc : p.pc = .returned ok) (hok : ok = true ∨ p.hard = true) :
      Step w e (w.closeNext q rest failed)

section Cases

variable {w w' : World}

/-- `markStoppedLocked` by a call that is not at a release. -/
theorem step_markStopped {e : Event} {t : Thread} {p : Proc} {run : Runner}
    (ht : w.proc t = some p) (hp : p.pc ≠ .releasing) (hrun : run.Same (w.runner p.runner))
    (hc : (w.runner p.runner).client ≠ .running) : Step w e (w.markStopped t p run) := by
  have hstop : run.stopped = (w.runner p.runner).stopped := by
    obtain ⟨_, _, rfl⟩ := hrun
    rfl
  unfold World.markStopped
  split
  · next hs => exact .moves ht hp hrun (fun _ => hstop ▸ hs) (by simp) (by simp) (by simp)
  · next hs => exact .marks ht hp hrun (by rw [← hstop]; simpa using hs) hc

theorem step_loop {e : Event} {t : Thread} {p : Proc} (hw : (w.runner p.runner).Sound)
    (ht : w.proc t = some p) (hp : p.pc = .looping) : Step w e (w.loop t p) := by
  have hne : p.pc ≠ .releasing := by simp [hp]
  unfold World.loop
  dsimp only
  split
  · next hs => exact .moves ht hne (same_refl _) (fun _ => hs) (by simp) (by simp) (by simp)
  · split
    · exact .moves ht hne (same_refl _) (by simp) (by simp) (by simp) (by simp)
    · split
      · next hn =>
        have hidle : (w.runner p.runner).client = .idle := hw.idle (by simpa using hn)
        exact step_markStopped ht hne (same_refl _) (by simp [hidle])
      · next hn =>
        exact .moves ht hne ⟨true, _, rfl⟩ (by simp) (by simp) (fun _ => by simpa using hn)
          (by simp)

theorem step_cases {e : Event} (hrun : ∀ r, (w.runner r).Sound)
    (hproc : ∀ t p, w.proc t = some p → p.Sound w) (h : step w e = some w') : Step w e w' := by
  cases e with
  | newRunner r =>
    simp only [step] at h
    split at h
    · cases h
    · next hr =>
      split at h
      · exact Option.some.inj h ▸ .same
      · next hc => exact Option.some.inj h ▸ .created (by simpa using hr) (by simpa using hc)
  | start r ok =>
    simp only [step] at h
    split at h
    · cases h
    · next hr =>
      split at h
      · exact Option.some.inj h ▸ .same
      · next hs =>
        simp only [Bool.or_eq_true, not_or, Bool.not_eq_true] at hs
        exact Option.some.inj h ▸ .started (by simpa using hr) hs.1.1 hs.1.2
  | ends r =>
    simp only [step] at h
    split at h
    · next hr => exact Option.some.inj h ▸ .ended hr
    · cases h
  | stop s r =>
    simp only [step] at h
    split at h
    · next hs =>
      simp only [Bool.and_eq_true, Option.isNone_iff_eq_none] at hs
      exact Option.some.inj h ▸ .stop hs.1 hs.2
    · cases h
  | check t valid =>
    simp only [step] at h
    split at h
    · next p ht =>
      split at h
      · next hp =>
        refine Option.some.inj h ▸ .moves ht (by simp [hp]) (same_refl _) ?_ ?_ ?_ ?_ <;>
          cases valid <;> simp
      · cases h
    · cases h
  | loop t =>
    simp only [step] at h
    split at h
    · next p ht =>
      split at h
      · next hp => exact Option.some.inj h ▸ step_loop (hrun _) ht hp
      · cases h
    · cases h
  | wake t =>
    simp only [step] at h
    split at h
    · next p ht =>
      split at h
      · next attempt hp =>
        split at h
        · cases h
        · exact Option.some.inj h ▸
            .moves ht (by simp [hp]) (same_refl _) (by simp) (by simp) (by simp) (by simp)
      · cases h
    · cases h
  | expire t =>
    simp only [step] at h
    split at h
    · next p ht =>
      split at h
      · next attempt hp =>
        exact Option.some.inj h ▸
          .moves ht (by simp [hp]) (same_refl _) (by simp) (by simp) (by simp) (by simp)
      · cases h
    · cases h
  | call t ok =>
    simp only [step] at h
    split at h
    · next p ht =>
      split at h
      · next hp =>
        split at h
        · exact Option.some.inj h ▸ .called ht hp
        · exact Option.some.inj h ▸
            .moves ht (by simp [hp]) (same_refl _) (by simp) (by simp) (by simp) (by simp)
      · cases h
    · cases h
  | settle t =>
    simp only [step] at h
    split at h
    · next p ht =>
      split at h
      · next hp =>
        have hended := (hproc t p ht).called hp
        exact Option.some.inj h ▸
          step_markStopped ht (by simp [hp]) ⟨false, _, rfl⟩ (by simp [hended])
      · next hp =>
        exact Option.some.inj h ▸
          .moves ht (by simp [hp]) ⟨false, _, rfl⟩ (by simp) (by simp) (by simp) (by simp)
      · cases h
    · cases h
  | observe t =>
    simp only [step] at h
    split at h
    · next p ht =>
      split at h
      · next hp =>
        exact Option.some.inj h ▸
          step_markStopped ht (by simp [hp.1]) (same_refl _) (by simp [hp.2])
      · cases h
    · cases h
  | release t =>
    simp only [step] at h
    split at h
    · next p ht =>
      split at h
      · next hp => exact Option.some.inj h ▸ .released ht hp
      · cases h
    · cases h
  | close q order =>
    simp only [step] at h
    split at h
    · next hq =>
      split at h
      · next hc => exact Option.some.inj h ▸ .again hq hc
      · next hc =>
        split at h
        · next ho => exact Option.some.inj h ▸ .closes hq (by simpa using hc) ho
        · cases h
    · cases h
  | next q =>
    simp only [step] at h
    split at h
    · next rest failed p hq hp =>
      split at h
      · next ok hpc =>
        split at h
        · next hf =>
          simp only [Bool.and_eq_true, Bool.not_eq_true'] at hf
          exact Option.some.inj h ▸ .force hq hp (by rw [hpc, hf.1])
        · next hf =>
          refine Option.some.inj h ▸ .next hq hp hpc ?_
          cases ok <;> simp_all
      · cases h
    · cases h

end Cases

/-! ### Runners over a step -/

section Frame

variable (w : World) (t : Thread) (p : Proc) (run : Runner) (pc : Pc)

@[simp] theorem move_runner (r : ℕ) :
    (w.move t p run pc).runner r = if r = p.runner then run else w.runner r :=
  Function.update_apply ..

@[simp] theorem move_proc (u : Thread) :
    (w.move t p run pc).proc u = if u = t then some { p with pc := pc } else w.proc u :=
  Function.update_apply ..

@[simp] theorem closeNext_runner (q : ℕ) (rest : List ℕ) (failed : Bool) :
    (w.closeNext q rest failed).runner = w.runner := by
  cases rest <;> rfl

@[simp] theorem closeNext_runners (q : ℕ) (rest : List ℕ) (failed : Bool) :
    (w.closeNext q rest failed).runners = w.runners := by
  cases rest <;> rfl

@[simp] theorem closeNext_closed (q : ℕ) (rest : List ℕ) (failed : Bool) :
    (w.closeNext q rest failed).closed = w.closed := by
  cases rest <;> rfl

end Frame

theorem sound_same {run old : Runner} (h : run.Same old) (hold : old.Sound)
    (hc : old.created = true) : run.Sound := by
  obtain ⟨stopping, attempts, rfl⟩ := h
  exact ⟨hold.idle, hold.ended, hold.done, hold.releases, hold.released, by simp [hc]⟩

theorem sound_mark {run old : Runner} (h : run.Same old) (hold : old.Sound)
    (hc : old.created = true) (hs : old.stopped = false) (hr : old.client ≠ .running) :
    run.mark.Sound := by
  obtain ⟨stopping, attempts, rfl⟩ := h
  have hdone := hold.done
  refine ⟨hold.idle, fun _ => hr, ?_, hold.releases, fun _ => rfl, by simp [Runner.mark, hc]⟩
  simp only [hs] at hdone
  simp [Runner.mark, hdone]

/-- A later state of a runner whose slot is not released in between. -/
structure Later (old new : Runner) : Prop where
  created : old.created = true → new.created = true
  started : old.started = true → new.started = true
  ended : old.client = .ended → new.client = .ended
  stopped : old.stopped = true → new.stopped = true
  releases : new.releases = old.releases

theorem later_refl (run : Runner) : Later run run := ⟨id, id, id, id, rfl⟩

theorem later_same {run old : Runner} (h : run.Same old) : Later old run := by
  obtain ⟨stopping, attempts, rfl⟩ := h
  exact ⟨id, id, id, id, rfl⟩

theorem later_mark {run old : Runner} (h : run.Same old) : Later old run.mark := by
  obtain ⟨stopping, attempts, rfl⟩ := h
  exact ⟨id, id, id, fun _ => rfl, rfl⟩

theorem Proc.Sound.later {w w' : World} {p : Proc} (hp : p.Sound w)
    (h : Later (w.runner p.runner) (w'.runner p.runner)) : p.Sound w' where
  created := h.created hp.created
  calling hpc := h.started (hp.calling hpc)
  called hpc := h.ended (hp.called hpc)
  releasing hpc := ⟨h.stopped (hp.releasing hpc).1, h.releases.trans (hp.releasing hpc).2⟩
  returned hpc := h.stopped (hp.returned hpc)

theorem later_update {w : World} {r : ℕ} {run : Runner} (h : Later (w.runner r) run) (k : ℕ) :
    Later (w.runner k) (Function.update w.runner r run k) := by
  by_cases hk : k = r
  · subst hk
    simpa using h
  · simpa [hk] using later_refl _

/-- Every event but a release leads to a later state of every runner. -/
theorem Step.later {w w' : World} {e : Event} (hw : ∀ r, (w.runner r).Sound) (h : Step w e w')
    (k : ℕ) : Later (w.runner k) (w'.runner k) ∨
      ∃ t p, w.proc t = some p ∧ p.pc = .releasing ∧ p.runner = k ∧
        w'.runner k = { w.runner k with releases := (w.runner k).releases + 1 } ∧
        w'.proc t = some { p with pc := .returned true } ∧
        (∀ u, u ≠ t → w'.proc u = w.proc u) := by
  cases h with
  | @created e r hr hc =>
    have hnew := (hw r).new hr
    exact .inl (later_update (by rw [hnew]; exact ⟨by simp, by simp, by simp, by simp, rfl⟩) k)
  | @started e r hr hs hd =>
    have hidle := (hw r).idle hs
    refine .inl (later_update ?_ k)
    exact ⟨id, fun _ => rfl, by simp [hidle], id, rfl⟩
  | @ended e r hr =>
    refine .inl (later_update ?_ k)
    exact ⟨id, id, fun _ => rfl, id, rfl⟩
  | @moves e t p run pc ht hp hrun hover hr hcalling hcalled =>
    exact .inl (later_update (later_same hrun) k)
  | @called e t p ht hp =>
    refine .inl (later_update ?_ k)
    exact ⟨id, id, fun _ => rfl, id, rfl⟩
  | @marks e t p run ht hp hrun hs hc => exact .inl (later_update (later_mark hrun) k)
  | @released e t p ht hp =>
    by_cases hk : k = p.runner
    · subst hk
      refine .inr ⟨t, p, ht, hp, rfl, by simp, by simp, fun u hu => by simp [hu]⟩
    · left
      simpa [hk] using later_refl _
  | closes | next => exact .inl (by simpa using later_refl _)
  | same | stop | again | force => exact .inl (later_refl _)

/-! ### What holds in every state -/

/-- Thread `t` has marked runner `r` and has not released its slot yet. -/
def World.Pending (w : World) (t : Thread) (r : ℕ) : Prop :=
  ∃ p, w.proc t = some p ∧ p.pc = .releasing ∧ p.runner = r

structure Inv (w : World) : Prop where
  runner : ∀ r, (w.runner r).Sound
  proc : ∀ t p, w.proc t = some p → p.Sound w
  unique : ∀ r t u, w.Pending t r → w.Pending u r → t = u
  pending : ∀ r, (w.runner r).stopped = true → (w.runner r).releases = 0 → ∃ t, w.Pending t r
  known : ∀ r ∈ w.runners, (w.runner r).created = true
  slot : ∀ r, (w.runner r).created = true → (w.runner r).releases = 0 → r ∈ w.runners
  rest : ∀ q rest failed, w.closing q = .stopping rest failed →
    ∀ r ∈ rest, (w.runner r).created = true
  observer : ∀ r, (w.runner r).started = false → w.proc (.observer r) = none
  closer : ∀ q, w.closing q = .idle → w.proc (.closer q) = none

theorem inv_init : Inv World.init := by
  refine ⟨fun r => ?_, ?_, ?_, ?_, ?_, ?_, ?_, fun _ _ => rfl, fun _ _ => rfl⟩
  · constructor <;> simp [World.init]
  · simp [World.init]
  · rintro r t u ⟨p, hp, -⟩
    simp [World.init] at hp
  · simp [World.init]
  · simp [World.init]
  · simp [World.init]
  · simp [World.init]

section Steps

variable {w w' : World} {e : Event}

theorem sound_update {r : ℕ} {run : Runner} (hw : ∀ k, (w.runner k).Sound) (h : run.Sound)
    (k : ℕ) : (Function.update w.runner r run k).Sound := by
  by_cases hk : k = r
  · subst hk
    simpa using h
  · simpa [hk] using hw k

theorem runner_step (hw : Inv w) (h : Step w e w') (k : ℕ) : (w'.runner k).Sound := by
  cases h with
  | created hr hc =>
    refine sound_update hw.runner ?_ k
    constructor <;> simp
  | @started e r hr hs hd =>
    refine sound_update hw.runner ?_ k
    have hold := hw.runner r
    exact ⟨by simp, by simp [hd], hold.done, hold.releases, hold.released, by simp [hr]⟩
  | @ended e r hr =>
    refine sound_update hw.runner ?_ k
    have hold := hw.runner r
    refine ⟨fun hs => ?_, by simp, hold.done, hold.releases, hold.released, fun hc => ?_⟩
    · simp [hold.idle hs] at hr
    · simp [hold.new hc] at hr
  | @moves e t p run pc ht hp hrun hover hr hcalling hcalled =>
    exact sound_update hw.runner (sound_same hrun (hw.runner _) (hw.proc t p ht).created) k
  | @called e t p ht hp =>
    refine sound_update hw.runner ?_ k
    have hold := hw.runner p.runner
    have hstarted := (hw.proc t p ht).calling hp
    have hcreated := (hw.proc t p ht).created
    exact ⟨by simp [hstarted], by simp, hold.done, hold.releases, hold.released,
      by simp [hcreated]⟩
  | @marks e t p run ht hp hrun hs hc =>
    exact sound_update hw.runner (sound_mark hrun (hw.runner _) (hw.proc t p ht).created hs hc) k
  | @released e t p ht hp =>
    refine sound_update hw.runner ?_ k
    have hold := hw.runner p.runner
    obtain ⟨hstopped, hzero⟩ := (hw.proc t p ht).releasing hp
    have hcreated := (hw.proc t p ht).created
    exact ⟨hold.idle, hold.ended, hold.done, by simp [hzero], fun _ => hstopped,
      by simp [hcreated]⟩
  | closes | next => simpa using hw.runner k
  | same | stop | again | force => exact hw.runner k

theorem Step.stays_created (hw : Inv w) (h : Step w e w') (k : ℕ) (hk : (w.runner k).created = true) :
    (w'.runner k).created = true := by
  rcases h.later hw.runner k with hl | ⟨t, p, -, -, -, heq, -, -⟩
  · exact hl.created hk
  · simp [heq, hk]

theorem Step.stays_stopped (hw : Inv w) (h : Step w e w') (k : ℕ) (hk : (w.runner k).stopped = true) :
    (w'.runner k).stopped = true := by
  rcases h.later hw.runner k with hl | ⟨t, p, -, -, -, heq, -, -⟩
  · exact hl.stopped hk
  · simp [heq, hk]

/-- A call that did not move keeps what it has reached. -/
theorem proc_keep {t : Thread} {p : Proc} (hw : Inv w) (h : Step w e w') (ht : w.proc t = some p)
    (ht' : w'.proc t = some p) : p.Sound w' := by
  have hp := hw.proc t p ht
  rcases h.later hw.runner p.runner with hl | ⟨u, p', hu, hp', hr, heq, hu', -⟩
  · exact hp.later hl
  · have hut : u ≠ t := by
      rintro rfl
      obtain rfl : p' = p := Option.some.inj (hu.symm.trans ht)
      have hpc : p'.pc = .returned true := by
        rw [ht'] at hu'
        exact congrArg Proc.pc (Option.some.inj hu')
      simp [hpc] at hp'
    refine ⟨?_, ?_, ?_, fun hpc => ?_, ?_⟩
    · simpa [heq] using hp.created
    · simpa [heq] using hp.calling
    · simpa [heq] using hp.called
    · exact absurd (hw.unique p.runner u t ⟨p', hu, hp', hr⟩ ⟨p, ht, hpc, rfl⟩) hut
    · simpa [heq] using hp.returned

theorem sound_entered {r : ℕ} {hard : Bool} (hr : (w.runner r).created = true) :
    Proc.Sound w ⟨r, hard, .entered⟩ := ⟨hr, by simp, by simp, by simp, by simp⟩

/-- The call that moved has reached what its new place says. -/
theorem proc_step (hw : Inv w) (h : Step w e w') (t : Thread) (p : Proc)
    (ht : w'.proc t = some p) : p.Sound w' := by
  by_cases hsame : w.proc t = some p
  · exact proc_keep hw h hsame ht
  have hcreated := h.stays_created hw
  cases h with
  | same | created | ended | again => exact absurd ht hsame
  | @started e r hr hs hd =>
    by_cases hto : t = .observer r
    · subst hto
      simp only [Function.update_self, Option.some.injEq] at ht
      subst ht
      exact ⟨hcreated r hr, by simp, by simp, by simp, by simp⟩
    · exact absurd (by simpa [hto] using ht) hsame
  | @stop e s r hr hs =>
    by_cases hto : t = .caller s
    · subst hto
      simp only [Function.update_self, Option.some.injEq] at ht
      exact ht ▸ sound_entered hr
    · exact absurd (by simpa [hto] using ht) hsame
  | @moves e u p' run pc hu hp hrun hover hr hcalling hcalled =>
    by_cases hto : t = u
    · simp only [move_proc, hto, if_true, Option.some.injEq] at ht
      subst ht
      obtain ⟨stopping, attempts, rfl⟩ := hrun
      refine ⟨hcreated _ (hw.proc u p' hu).created, fun hpc => ?_, fun hpc => absurd hpc hcalled,
        fun hpc => absurd hpc hr, fun hpc => ?_⟩
      · simpa using hcalling hpc
      · simpa using hover hpc
    · exact absurd (by simpa [hto] using ht) hsame
  | @called e u p' hu hp =>
    by_cases hto : t = u
    · simp only [move_proc, hto, if_true, Option.some.injEq] at ht
      subst ht
      exact ⟨hcreated _ (hw.proc u p' hu).created, by simp, by simp, by simp, by simp⟩
    · exact absurd (by simpa [hto] using ht) hsame
  | @marks e u p' run hu hp hrun hs hc =>
    by_cases hto : t = u
    · simp only [move_proc, hto, if_true, Option.some.injEq] at ht
      subst ht
      obtain ⟨stopping, attempts, rfl⟩ := hrun
      have hzero : (w.runner p'.runner).releases = 0 := by
        by_contra hne
        simp [(hw.runner p'.runner).released hne] at hs
      exact ⟨hcreated _ (hw.proc u p' hu).created, by simp, by simp,
        by simp [Runner.mark, hzero], by simp⟩
    · exact absurd (by simpa [hto] using ht) hsame
  | @released e u p' hu hp =>
    by_cases hto : t = u
    · simp only [move_proc, hto, if_true, Option.some.injEq] at ht
      subst ht
      have hstopped := ((hw.proc u p' hu).releasing hp).1
      exact ⟨hcreated _ (hw.proc u p' hu).created, by simp, by simp, by simp, by simp [hstopped]⟩
    · exact absurd (by simpa [hto] using ht) hsame
  | @closes e q order hq hc ho =>
    cases order with
    | nil => exact absurd ht hsame
    | cons r rest =>
      by_cases hto : t = .closer q
      · subst hto
        simp only [World.closeNext, Function.update_self, Option.some.injEq] at ht
        exact ht ▸ sound_entered (hw.known r (ho.subset List.mem_cons_self))
      · exact absurd (by simpa [World.closeNext, hto] using ht) hsame
  | @force e q rest failed p' hq hp hpc =>
    by_cases hto : t = .closer q
    · subst hto
      simp only [Function.update_self, Option.some.injEq] at ht
      exact ht ▸ sound_entered (hw.proc _ p' hp).created
    · exact absurd (by simpa [hto] using ht) hsame
  | @next e q rest failed ok p' hq hp hpc hok =>
    cases rest with
    | nil => exact absurd ht hsame
    | cons r rest =>
      by_cases hto : t = .closer q
      · subst hto
        simp only [World.closeNext, Function.update_self, Option.some.injEq] at ht
        exact ht ▸ sound_entered (hw.rest q _ failed hq r List.mem_cons_self)
      · exact absurd (by simpa [World.closeNext, hto] using ht) hsame

/-- A pending release is made by its own thread. -/
theorem Step.pending_keep {t : Thread} {r : ℕ} (hw : Inv w) (h : Step w e w')
    (ht : w.Pending t r) : w'.Pending t r ∨ (w'.runner r).releases ≠ 0 := by
  obtain ⟨p, hp, hpc, rfl⟩ := ht
  have hmoved : ∀ u p', w.proc u = some p' → p'.pc ≠ .releasing → t ≠ u := by
    rintro u p' hu hne rfl
    obtain rfl : p = p' := Option.some.inj (hp.symm.trans hu)
    exact hne hpc
  cases h with
  | same | created | ended | again => exact .inl ⟨p, hp, hpc, rfl⟩
  | @started e r hr hs hd =>
    have hne : t ≠ .observer r := by
      rintro rfl
      simp [hw.observer r hs] at hp
    exact .inl ⟨p, by simpa [hne] using hp, hpc, rfl⟩
  | @stop e s r hr hs =>
    have hne : t ≠ .caller s := by
      rintro rfl
      simp [hs] at hp
    exact .inl ⟨p, by simpa [hne] using hp, hpc, rfl⟩
  | @moves e u p' run pc hu hpn hrun hover hr hcalling hcalled =>
    exact .inl ⟨p, by simpa [hmoved u p' hu hpn] using hp, hpc, rfl⟩
  | @called e u p' hu hpn =>
    exact .inl ⟨p, by simpa [hmoved u p' hu (by simp [hpn])] using hp, hpc, rfl⟩
  | @marks e u p' run hu hpn hrun hs hc =>
    exact .inl ⟨p, by simpa [hmoved u p' hu hpn] using hp, hpc, rfl⟩
  | @released e u p' hu hpn =>
    by_cases htu : t = u
    · subst htu
      obtain rfl : p = p' := Option.some.inj (hp.symm.trans hu)
      exact .inr (by simp)
    · exact .inl ⟨p, by simpa [htu] using hp, hpc, rfl⟩
  | @closes e q order hq hc ho =>
    have hne : t ≠ .closer q := by
      rintro rfl
      simp [hw.closer q hq] at hp
    cases order with
    | nil => exact .inl ⟨p, hp, hpc, rfl⟩
    | cons r rest => exact .inl ⟨p, by simpa [World.closeNext, hne] using hp, hpc, rfl⟩
  | @force e q rest failed p' hq hp' hpc' =>
    have hne := hmoved _ p' hp' (by simp [hpc'])
    exact .inl ⟨p, by simpa [hne] using hp, hpc, rfl⟩
  | @next e q rest failed ok p' hq hp' hpc' hok =>
    have hne := hmoved _ p' hp' (by simp [hpc'])
    cases rest with
    | nil => exact .inl ⟨p, hp, hpc, rfl⟩
    | cons r rest => exact .inl ⟨p, by simpa [World.closeNext, hne] using hp, hpc, rfl⟩

/-- A new pending release is that of the runner just marked. -/
theorem Step.pending_new (h : Step w e w') :
    (∀ t r, w'.Pending t r → w.Pending t r) ∨
    ∃ t r, (w.runner r).stopped = false ∧ w'.Pending t r ∧
      ∀ u k, w'.Pending u k → w.Pending u k ∨ u = t ∧ k = r := by
  have hupdate : ∀ (u : Thread) (p : Proc) (t : Thread) (r : ℕ), p.pc ≠ .releasing →
      (∃ p', Function.update w.proc u (some p) t = some p' ∧ p'.pc = .releasing ∧ p'.runner = r) →
      w.Pending t r := by
    rintro u p t r hp ⟨p', ht, hpc, hr⟩
    by_cases htu : t = u
    · subst htu
      simp only [Function.update_self, Option.some.injEq] at ht
      exact absurd hpc (ht ▸ hp)
    · exact ⟨p', by simpa [htu] using ht, hpc, hr⟩
  cases h with
  | same | created | ended | again => exact .inl fun t r => id
  | started | stop | force => exact .inl fun t r => hupdate _ _ t r (by simp)
  | moves hu hp hrun hover hr hcalling hcalled => exact .inl fun t r => hupdate _ _ t r hr
  | called | released => exact .inl fun t r => hupdate _ _ t r (by simp)
  | @marks e u p run hu hp hrun hs hc =>
    refine .inr ⟨u, p.runner, hs, ⟨{ p with pc := .releasing }, by simp, rfl, rfl⟩, ?_⟩
    rintro t r ⟨p', ht, hpc, hr⟩
    by_cases htu : t = u
    · simp only [move_proc, htu, if_true, Option.some.injEq] at ht
      exact .inr ⟨htu, by rw [← hr, ← ht]⟩
    · exact .inl ⟨p', by simpa [htu] using ht, hpc, hr⟩
  | @closes e q order hq hc ho =>
    cases order with
    | nil => exact .inl fun t r => id
    | cons r rest => exact .inl fun t r => hupdate _ _ t r (by simp)
  | @next e q rest failed ok p' hq hp hpc hok =>
    cases rest with
    | nil => exact .inl fun t r => id
    | cons r rest => exact .inl fun t r => hupdate _ _ t r (by simp)

/-- A runner is newly stopped only with a pending release. -/
theorem Step.stopped_new (h : Step w e w') (k : ℕ)
    (hk : (w'.runner k).stopped = true) :
    (w.runner k).stopped = true ∨ ∃ t, w'.Pending t k := by
  cases h with
  | @created e r hr hc =>
    by_cases hkr : k = r
    · simp [hkr] at hk
    · exact .inl (by simpa [hkr] using hk)
  | @started e r hr hs hd =>
    by_cases hkr : k = r
    · simp [hkr, hd] at hk
    · exact .inl (by simpa [hkr] using hk)
  | @ended e r hr =>
    by_cases hkr : k = r
    · exact .inl (by simpa [hkr] using hk)
    · exact .inl (by simpa [hkr] using hk)
  | @moves e u p run pc hu hp hrun hover hr hcalling hcalled =>
    obtain ⟨stopping, attempts, rfl⟩ := hrun
    by_cases hkr : k = p.runner
    · exact .inl (by simpa [hkr] using hk)
    · exact .inl (by simpa [hkr] using hk)
  | @called e u p hu hp | @released e u p hu hp =>
    by_cases hkr : k = p.runner
    · exact .inl (by simpa [hkr] using hk)
    · exact .inl (by simpa [hkr] using hk)
  | @marks e u p run hu hp hrun hs hc =>
    by_cases hkr : k = p.runner
    · exact .inr ⟨u, { p with pc := .releasing }, by simp, rfl, hkr.symm⟩
    · exact .inl (by simpa [hkr] using hk)
  | closes | next => exact .inl (by simpa using hk)
  | same | stop | again | force => exact .inl hk

theorem known_step (hw : Inv w) (h : Step w e w') (k : ℕ) (hk : k ∈ w'.runners) :
    (w'.runner k).created = true := by
  have hstays := h.stays_created hw
  cases h with
  | @created e r hr hc =>
    rcases List.mem_cons.mp hk with rfl | hk
    · simp
    · exact hstays k (hw.known k hk)
  | released hu hp => exact hstays k (hw.known k (List.mem_of_mem_filter hk))
  | closes | next =>
    rw [closeNext_runners] at hk
    exact hstays k (hw.known k hk)
  | _ => exact hstays k (hw.known k hk)

theorem slot_step (hw : Inv w) (h : Step w e w') (k : ℕ) (hc : (w'.runner k).created = true)
    (hz : (w'.runner k).releases = 0) : k ∈ w'.runners := by
  have hlater := h.later hw.runner k
  have hzero : (w.runner k).releases = 0 := by
    rcases hlater with hl | ⟨t, p, -, -, -, heq, -, -⟩
    · exact hl.releases.symm.trans hz
    · simp [heq] at hz
  cases h with
  | @created e r hr hcl =>
    by_cases hkr : k = r
    · exact List.mem_cons.mpr (.inl hkr)
    · exact List.mem_cons_of_mem _ (hw.slot k (by simpa [hkr] using hc) hzero)
  | @started e r hr hs hd =>
    by_cases hkr : k = r
    · exact hw.slot k (hkr ▸ hr) hzero
    · exact hw.slot k (by simpa [hkr] using hc) hzero
  | @ended e r hr =>
    refine hw.slot k ?_ hzero
    by_cases hkr : k = r
    · simpa [hkr] using hc
    · simpa [hkr] using hc
  | @moves e t p run pc ht | @called e t p ht | @marks e t p run ht =>
    refine hw.slot k ?_ hzero
    by_cases hkr : k = p.runner
    · exact hkr ▸ (hw.proc t p ht).created
    · simpa [hkr] using hc
  | @released e t p ht hp =>
    by_cases hkr : k = p.runner
    · simp [hkr] at hz
    · have hmem := hw.slot k (by simpa [hkr] using hc) hzero
      exact List.mem_filter.mpr ⟨hmem, by simpa using hkr⟩
  | closes | next =>
    rw [closeNext_runners]
    exact hw.slot k (by simpa using hc) hzero
  | same | stop | again | force => exact hw.slot k hc hzero

theorem rest_step (hw : Inv w) (h : Step w e w') (q : ℕ) (rest : List ℕ) (failed : Bool)
    (hq : w'.closing q = .stopping rest failed) (r : ℕ) (hr : r ∈ rest) :
    (w'.runner r).created = true := by
  refine h.stays_created hw r ?_
  cases h with
  | @again p order hp hc =>
    by_cases hqp : q = p
    · simp [hqp] at hq
    · exact hw.rest q rest failed (by simpa [hqp] using hq) r hr
  | @closes e p order hp hc ho =>
    by_cases hqp : q = p
    · subst hqp
      cases order with
      | nil => simp [World.closeNext] at hq
      | cons x xs =>
        simp only [World.closeNext, Function.update_self, Closing.stopping.injEq] at hq
        exact hw.known r (ho.subset (List.mem_cons_of_mem _ (hq.1 ▸ hr)))
    · refine hw.rest q rest failed ?_ r hr
      cases order <;> simpa [World.closeNext, hqp] using hq
  | @force e p rest' failed' pr hp hpr hpc =>
    by_cases hqp : q = p
    · subst hqp
      simp only [Function.update_self, Closing.stopping.injEq] at hq
      exact hw.rest q rest' failed' hp r (hq.1 ▸ hr)
    · exact hw.rest q rest failed (by simpa [hqp] using hq) r hr
  | @next e p rest' failed' ok pr hp hpr hpc hok =>
    by_cases hqp : q = p
    · subst hqp
      cases rest' with
      | nil => simp [World.closeNext] at hq
      | cons x xs =>
        simp only [World.closeNext, Function.update_self, Closing.stopping.injEq] at hq
        exact hw.rest q _ failed' hp r (List.mem_cons_of_mem _ (hq.1 ▸ hr))
    · refine hw.rest q rest failed ?_ r hr
      cases rest' <;> simpa [World.closeNext, hqp] using hq
  | _ => exact hw.rest q rest failed hq r hr

/-- A thread gets its first call from `Start`, from a caller of `Stop` or from `close`. -/
theorem Step.proc_none {t : Thread} (h : Step w e w') (ht : w.proc t = none) :
    w'.proc t = none ∨ (∃ s, t = .caller s) ∨
      (∃ q, t = .closer q ∧ w'.closing q ≠ .idle) ∨
      ∃ r, t = .observer r ∧ (w'.runner r).started = true := by
  have hother : ∀ u p, w.proc u = some p → t ≠ u := by
    rintro u p hu rfl
    simp [ht] at hu
  cases h with
  | same | created | ended | again => exact .inl ht
  | @started e r hr hs hd =>
    by_cases htr : t = .observer r
    · exact .inr (.inr (.inr ⟨r, htr, by simp⟩))
    · exact .inl (by simpa [htr] using ht)
  | @stop e s r hr hs =>
    by_cases hts : t = .caller s
    · exact .inr (.inl ⟨s, hts⟩)
    · exact .inl (by simpa [hts] using ht)
  | @moves e u p run pc hu | @called e u p hu | @marks e u p run hu | @released e u p hu =>
    exact .inl (by simpa [hother u p hu] using ht)
  | @closes e q order hq hc ho =>
    cases order with
    | nil => exact .inl ht
    | cons x xs =>
      by_cases htq : t = .closer q
      · exact .inr (.inr (.inl ⟨q, htq, by simp [World.closeNext]⟩))
      · exact .inl (by simpa [World.closeNext, htq] using ht)
  | @force e q rest failed p hq hp hpc => exact .inl (by simpa [hother _ p hp] using ht)
  | @next e q rest failed ok p hq hp hpc hok =>
    cases rest with
    | nil => exact .inl ht
    | cons x xs => exact .inl (by simpa [World.closeNext, hother _ p hp] using ht)

theorem Step.closing_idle {q : ℕ} (h : Step w e w') (hq : w'.closing q = .idle) :
    w.closing q = .idle := by
  have hupdate : ∀ (p : ℕ) (next : Closing), next ≠ .idle →
      Function.update w.closing p next q = .idle → w.closing q = .idle := by
    intro p next hn hu
    by_cases hqp : q = p
    · subst hqp
      simp [hn] at hu
    · simpa [hqp] using hu
  cases h with
  | again | force => exact hupdate _ _ (by simp) hq
  | @closes e p order hp hc ho => cases order <;> exact hupdate _ _ (by simp) hq
  | @next e p rest failed ok pr hp hpr hpc hok => cases rest <;> exact hupdate _ _ (by simp) hq
  | _ => exact hq

theorem inv_step (hw : Inv w) (h : Step w e w') : Inv w' := by
  refine ⟨runner_step hw h, proc_step hw h, ?_, ?_, known_step hw h, slot_step hw h,
    rest_step hw h, ?_, ?_⟩
  · intro r t u ht hu
    rcases h.pending_new with hold | ⟨t₀, r₀, hs, -, hnew⟩
    · exact hw.unique r t u (hold t r ht) (hold u r hu)
    · have hstopped : ∀ x, w.Pending x r₀ → False := by
        rintro x ⟨p, hp, hpc, rfl⟩
        simp [((hw.proc x p hp).releasing hpc).1] at hs
      rcases hnew t r ht with ht | ⟨rfl, rfl⟩
      · rcases hnew u r hu with hu | ⟨rfl, rfl⟩
        · exact hw.unique r t u ht hu
        · exact absurd ht (hstopped t)
      · rcases hnew u r hu with hu | ⟨rfl, -⟩
        · exact absurd hu (hstopped u)
        · rfl
  · intro r hs hz
    rcases h.stopped_new r hs with hold | hnew
    · have hzero : (w.runner r).releases = 0 := by
        rcases h.later hw.runner r with hl | ⟨t, p, -, -, -, heq, -, -⟩
        · exact hl.releases.symm.trans hz
        · simp [heq] at hz
      obtain ⟨t, ht⟩ := hw.pending r hold hzero
      rcases h.pending_keep hw ht with ht | hne
      · exact ⟨t, ht⟩
      · exact absurd hz hne
    · exact hnew
  · intro r hs
    have hold : (w.runner r).started = false := by
      by_contra hne
      have hst : (w.runner r).started = true := by simpa using hne
      rcases h.later hw.runner r with hl | ⟨t, p, -, -, -, heq, -, -⟩
      · simp [hl.started hst] at hs
      · simp [heq, hst] at hs
    rcases h.proc_none (hw.observer r hold) with hn | ⟨s, hs'⟩ | ⟨q, hq, -⟩ | ⟨k, hk, hst⟩
    · exact hn
    · cases hs'
    · cases hq
    · obtain rfl := Thread.observer.inj hk
      simp [hs] at hst
  · intro q hq
    rcases h.proc_none (hw.closer q (h.closing_idle hq)) with hn | ⟨s, hs'⟩ | ⟨k, hk, hne⟩ | ⟨r, hr, -⟩
    · exact hn
    · cases hs'
    · obtain rfl := Thread.closer.inj hk
      exact absurd hq hne
    · cases hr

end Steps

/-! ### What `close` has stopped -/

/-- No runner of the service is left that is not stopped. -/
def World.AllStopped (w : World) : Prop :=
  ∀ r, (w.runner r).created = true → (w.runner r).stopped = true

/-- A `close` without a failure has only the current runner and those after it left. -/
structure Closes (w : World) : Prop where
  closed : ∀ q, w.closing q ≠ .idle → w.closed = true
  stopping : ∀ q rest, w.closing q = .stopping rest false → ∃ p, w.proc (.closer q) = some p ∧
    p.hard = false ∧
    ∀ r, (w.runner r).created = true → (w.runner r).stopped = true ∨ r = p.runner ∨ r ∈ rest

theorem closes_init : Closes World.init := by
  constructor <;> simp [World.init]

section Closing

variable {w w' : World} {e : Event}

/-- A closed service gets no runner. -/
theorem Step.created_of_closed (hw : Inv w) (h : Step w e w') (hc : w.closed = true) (k : ℕ)
    (hk : (w'.runner k).created = true) : (w.runner k).created = true := by
  cases h with
  | created hr hn => simp [hc] at hn
  | @started e r hr hs hd =>
    by_cases hkr : k = r
    · exact hkr ▸ hr
    · simpa [hkr] using hk
  | @ended e r hr =>
    by_cases hkr : k = r
    · simpa [hkr] using hk
    · simpa [hkr] using hk
  | @moves e t p run pc ht | @called e t p ht | @marks e t p run ht | @released e t p ht =>
    by_cases hkr : k = p.runner
    · exact hkr ▸ (hw.proc t p ht).created
    · simpa [hkr] using hk
  | closes | next => simpa using hk
  | same | stop | again | force => exact hk

/-- Where the runners not stopped are, over a step. -/
theorem left_step (hw : Inv w) (h : Step w e w') (hc : w.closed = true) {left : ℕ → Prop}
    (hl : ∀ r, (w.runner r).created = true → (w.runner r).stopped = true ∨ left r) (r : ℕ)
    (hr : (w'.runner r).created = true) : (w'.runner r).stopped = true ∨ left r :=
  (hl r (h.created_of_closed hw hc r hr)).imp_left (h.stays_stopped hw r)

theorem allStopped_step (hw : Inv w) (h : Step w e w') (hc : w.closed = true)
    (hall : w.AllStopped) : w'.AllStopped := by
  intro r hr
  exact h.stays_stopped hw r (hall r (h.created_of_closed hw hc r hr))

/-- A `close` that goes on with its list. -/
theorem closes_closeNext {q : ℕ} {rest : List ℕ} {failed : Bool} (hcl : w.closed = true)
    (hc : ∀ k, k ≠ q → ∀ rest, w.closing k = .stopping rest false →
      ∃ p, w.proc (.closer k) = some p ∧ p.hard = false ∧ ∀ r, (w.runner r).created = true →
        (w.runner r).stopped = true ∨ r = p.runner ∨ r ∈ rest)
    (hrest : failed = false → ∀ r, (w.runner r).created = true →
      (w.runner r).stopped = true ∨ r ∈ rest) :
    Closes (w.closeNext q rest failed) := by
  refine ⟨fun k _ => by simp [hcl], fun k rest' hk => ?_⟩
  by_cases hkq : k = q
  · subst hkq
    cases rest with
    | nil => simp [World.closeNext] at hk
    | cons x xs =>
      simp only [World.closeNext, Function.update_self, Closing.stopping.injEq] at hk
      obtain ⟨rfl, rfl⟩ := hk
      refine ⟨⟨x, false, .entered⟩, by simp [World.closeNext], rfl, fun r hr => ?_⟩
      have hx := hrest rfl r (by simpa using hr)
      rw [List.mem_cons] at hx
      simpa using hx
  · have hproc : (w.closeNext q rest failed).proc (.closer k) = w.proc (.closer k) := by
      cases rest <;> simp [World.closeNext, hkq]
    have hclosing : (w.closeNext q rest failed).closing k = w.closing k := by
      cases rest <;> simp [World.closeNext, hkq]
    rw [hclosing] at hk
    simpa [hproc] using hc k hkq rest' hk

/-- The runners of an open service that are not stopped are in its map. -/
theorem mem_runners (hw : Inv w) (r : ℕ) (hr : (w.runner r).created = true) :
    (w.runner r).stopped = true ∨ r ∈ w.runners := by
  by_cases hz : (w.runner r).releases = 0
  · exact .inr (hw.slot r hr hz)
  · exact .inl ((hw.runner r).released hz)

/-- What is left when the current runner of a `close` without a failure is done. -/
theorem left_of_over (hw : Inv w) (hc : Closes w) {q : ℕ} {rest : List ℕ} {p : Proc} {ok : Bool}
    (hq : w.closing q = .stopping rest false) (hp : w.proc (.closer q) = some p)
    (hpc : p.pc = .returned ok) (hok : ok = true ∨ p.hard = true) (r : ℕ)
    (hr : (w.runner r).created = true) : (w.runner r).stopped = true ∨ r ∈ rest := by
  obtain ⟨p', hp', hsoft, hleft⟩ := hc.stopping q rest hq
  obtain rfl : p = p' := Option.some.inj (hp.symm.trans hp')
  have hdone : ok = true := hok.resolve_right (by simp [hsoft])
  rcases hleft r hr with hs | rfl | hmem
  · exact .inl hs
  · exact .inl ((hw.proc _ p hp).returned (by rw [hpc, hdone]))
  · exact .inr hmem

theorem closes_step (hw : Inv w) (hc : Closes w) (h : Step w e w') : Closes w' := by
  -- the runner and the way of stopping it stay while a thread goes on
  have hsame : (∀ q, w'.closing q = w.closing q) → w'.closed = w.closed →
      (∀ t p, w.proc t = some p →
        ∃ p', w'.proc t = some p' ∧ p'.runner = p.runner ∧ p'.hard = p.hard) → Closes w' := by
    intro hclosing hclosed hproc
    refine ⟨fun q hq => ?_, fun q rest hq => ?_⟩
    · rw [hclosed]
      exact hc.closed q (by rwa [← hclosing])
    · rw [hclosing] at hq
      obtain ⟨p, hp, hh, hleft⟩ := hc.stopping q rest hq
      obtain ⟨p', hp', hr, hh'⟩ := hproc _ p hp
      refine ⟨p', hp', hh'.trans hh, ?_⟩
      rw [hr]
      exact left_step hw h (hc.closed q (by simp [hq])) hleft
  have hmove : ∀ u p pc, w.proc u = some p → ∀ t p₀, w.proc t = some p₀ →
      ∃ p', Function.update w.proc u (some { p with pc := pc }) t = some p' ∧
        p'.runner = p₀.runner ∧ p'.hard = p₀.hard := by
    intro u p pc hu t p₀ ht
    by_cases htu : t = u
    · subst htu
      obtain rfl : p = p₀ := Option.some.inj (hu.symm.trans ht)
      exact ⟨{ p with pc := pc }, by simp, rfl, rfl⟩
    · exact ⟨p₀, by simpa [htu] using ht, rfl, rfl⟩
  cases h with
  | same => exact hc
  | created | ended => exact hsame (fun _ => rfl) rfl fun t p ht => ⟨p, ht, rfl, rfl⟩
  | @started e r hr hs hd =>
    refine hsame (fun _ => rfl) rfl fun t p ht => ⟨p, ?_, rfl, rfl⟩
    have hne : t ≠ .observer r := by
      rintro rfl
      simp [hw.observer r hs] at ht
    simpa [hne] using ht
  | @stop e s r hr hs =>
    refine hsame (fun _ => rfl) rfl fun t p ht => ⟨p, ?_, rfl, rfl⟩
    have hne : t ≠ .caller s := by
      rintro rfl
      simp [hs] at ht
    simpa [hne] using ht
  | moves hu | called hu | marks hu | released hu =>
    exact hsame (fun _ => rfl) rfl (hmove _ _ _ hu)
  | @again q order hq hcl =>
    refine ⟨fun _ _ => hcl, fun k rest hk => ?_⟩
    by_cases hkq : k = q
    · simp [hkq] at hk
    · exact hc.stopping k rest (by simpa [hkq] using hk)
  | @closes e q order hq hn ho =>
    refine closes_closeNext rfl (fun k _ rest hk => ?_) fun _ r hr => ?_
    · have hk' : w.closing k = .stopping rest false := hk
      have hcl := hc.closed k (by simp [hk'])
      simp [hn] at hcl
    · exact (mem_runners hw r hr).imp_right fun hmem => ho.symm.subset hmem
  | @force e q rest failed p hq hp hpc =>
    refine ⟨fun k _ => hc.closed q (by simp [hq]), fun k rest' hk => ?_⟩
    by_cases hkq : k = q
    · simp [hkq] at hk
    · have hne : Thread.closer k ≠ .closer q := by simpa using hkq
      simpa [hne] using hc.stopping k rest' (by simpa [hkq] using hk)
  | @next e q rest failed ok p hq hp hpc hok =>
    refine closes_closeNext (hc.closed q (by simp [hq])) (fun k _ => hc.stopping k) ?_
    rintro rfl
    exact left_of_over hw hc hq hp hpc hok

/-- A `close` returns nil with every runner stopped, or because the service was closed before. -/
theorem Step.over_new {q : ℕ} (hw : Inv w) (hc : Closes w) (h : Step w e w')
    (hq : w'.closing q = .returned true) :
    w.closing q = .returned true ∨ w'.AllStopped ∨ ∃ order, e = .close q order ∧ w.closed = true := by
  cases h with
  | @again k order hk hcl =>
    by_cases hqk : q = k
    · exact .inr (.inr ⟨order, by rw [hqk], hcl⟩)
    · exact .inl (by simpa [hqk] using hq)
  | @closes e k order hk hn ho =>
    by_cases hqk : q = k
    · cases order with
      | nil =>
        refine .inr (.inl fun r hr => ?_)
        have hmem := mem_runners hw r hr
        rw [← ho.nil_eq] at hmem
        simpa [World.closeNext] using hmem
      | cons x xs => simp [World.closeNext, hqk] at hq
    · left
      cases order <;> simpa [World.closeNext, hqk] using hq
  | @force e k rest failed p hk hp hpc =>
    by_cases hqk : q = k
    · simp [hqk] at hq
    · exact .inl (by simpa [hqk] using hq)
  | @next e k rest failed ok p hk hp hpc hok =>
    by_cases hqk : q = k
    · cases rest with
      | nil =>
        simp only [World.closeNext, hqk, Function.update_self, Closing.returned.injEq,
          Bool.not_eq_true'] at hq
        subst hq
        refine .inr (.inl fun r hr => ?_)
        have hmem := left_of_over hw hc hk hp hpc hok r hr
        simpa [World.closeNext] using hmem
      | cons x xs => simp [World.closeNext, hqk] at hq
    · left
      cases rest <;> simpa [World.closeNext, hqk] using hq
  | _ => exact .inl hq

end Closing

/-! ### Every interleaving -/

theorem inv_run {es : List Event} {w : World} (h : Run es w) : Inv w ∧ Closes w := by
  refine run_induction (P := fun _ w => Inv w ∧ Closes w) ⟨inv_init, closes_init⟩ ?_ h
  rintro es e w w' ⟨hw, hc⟩ hs
  have hstep := step_cases hw.runner hw.proc hs
  exact ⟨inv_step hw hstep, closes_step hw hc hstep⟩

/-- No `close` finds the service closed before another has returned nil. -/
def Orderly (es : List Event) : Prop :=
  ∀ before q order, before ++ [.close q order] <+: es → ∀ m, Run before m → m.closed = true →
    ∃ k, m.closing k = .returned true

theorem allStopped_of_over {es : List Event} {w : World} (h : Run es w) (ho : Orderly es) {q : ℕ}
    (hq : w.closing q = .returned true) : w.AllStopped := by
  induction es using List.reverseRecOn generalizing w q with
  | nil =>
    cases h
    simp [World.init] at hq
  | append_singleton es e ih =>
    obtain ⟨m, hm, hs⟩ := run_snoc h
    obtain ⟨hw, hc⟩ := inv_run hm
    have hstep := step_cases hw.runner hw.proc hs
    have hes : Orderly es := fun b k order hb => ho b k order (hb.trans (List.prefix_append ..))
    have hkeep : ∀ k, m.closing k = .returned true → w.AllStopped := by
      intro k hk
      exact allStopped_step hw hstep (hc.closed k (by simp [hk])) (ih hm hes hk)
    rcases hstep.over_new hw hc hq with hold | hall | ⟨order, rfl, hclosed⟩
    · exact hkeep q hold
    · exact hall
    · obtain ⟨k, hk⟩ := ho es q order (List.prefix_refl _) m hm hclosed
      exact hkeep k hk

/-- `Start` fails exactly on a runner that was started or is stopped. -/
theorem start_iff {w : World} {r : ℕ} (hc : (w.runner r).created = true) :
    step w (.start r true) = some w ↔
      (w.runner r).started = true ∨ (w.runner r).stopped = true := by
  constructor
  · intro h
    by_contra hn
    rw [not_or, Bool.not_eq_true, Bool.not_eq_true] at hn
    simp only [step, hc, hn.1, hn.2, Bool.not_true, Bool.false_eq_true, if_false, Bool.or_self] at h
    have hs := congrFun (congrArg World.runner (Option.some.inj h)) r
    simp only [Function.update_self] at hs
    have hstarted : true = false := (congrArg Runner.started hs).trans hn.1
    cases hstarted
  · rintro (hs | hs) <;> simp [step, hc, hs]

theorem start_stopped {w : World} {r : ℕ} {ok : Bool} (hc : (w.runner r).created = true)
    (hs : (w.runner r).stopped = true) : step w (.start r ok) = some w := by
  simp [step, hc, hs]

/-- No `Start` comes between the closing of the service and the stop of its runner. -/
def Prompt (es : List Event) : Prop :=
  ∀ before r, before ++ [.start r true] <+: es → ∀ m, Run before m → m.closed = true →
    (m.runner r).started = true ∨ (m.runner r).stopped = true

/-- No `Start` succeeds once the service is closed. -/
def NoLateStart (es : List Event) : Prop :=
  ∀ before r, before ++ [.start r true] <+: es → ∀ m, Run before m → m.closed = true →
    step m (.start r true) = some m

theorem noLateStart_iff {es : List Event} {w : World} (h : Run es w) :
    NoLateStart es ↔ Prompt es := by
  refine forall_congr' fun before => forall_congr' fun r => forall_congr' fun hb =>
    forall_congr' fun m => forall_congr' fun hm => forall_congr' fun _ => start_iff ?_
  -- a `Start` of the run is one of a runner that was made
  obtain ⟨after, rfl⟩ := hb
  rw [List.append_assoc] at h
  obtain ⟨m', n, hm', hs, -⟩ := run_split h
  obtain rfl : m = m' := Option.some.inj (hm.symm.trans hm')
  by_contra hcr
  simp [step, hcr] at hs

/-- **The task service over every interleaving.** The channel `done` of a runner is closed once, as
the runner is stopped; its slot is released at most once, and is released when the runner is stopped
and no thread is about to release it; `Start` fails on a stopped runner. No `Start` succeeds once the
service is closed exactly when none comes between that and the stop of its runner. When no `close`
finds the service closed before another has returned nil, every runner is stopped and none is running
once a `close` has returned nil, no `Start` succeeds from then on and no runner is made. -/
theorem task_interleavings {es : List Event} {w : World} (h : Run es w) :
    (∀ r, (w.runner r).doneCloses = if (w.runner r).stopped then 1 else 0) ∧
    (∀ r, (w.runner r).releases ≤ 1 ∧
      ((w.runner r).stopped = true → (∀ t, ¬ w.Pending t r) → (w.runner r).releases = 1)) ∧
    (∀ r ok, (w.runner r).created = true → (w.runner r).stopped = true →
      step w (.start r ok) = some w) ∧
    (NoLateStart es ↔ Prompt es) ∧
    (Orderly es → ∀ q, w.closing q = .returned true → ∀ r,
      ((w.runner r).created = true → (w.runner r).stopped = true ∧
        (w.runner r).client ≠ .running ∧ ∀ ok, step w (.start r ok) = some w) ∧
      ((w.runner r).created = false → step w (.newRunner r) = some w)) := by
  obtain ⟨hw, hc⟩ := inv_run h
  refine ⟨fun r => (hw.runner r).done, fun r => ⟨(hw.runner r).releases, fun hs hn => ?_⟩,
    fun r ok hcr hs => start_stopped hcr hs, noLateStart_iff h,
    fun ho q hq r => ⟨fun hcr => ?_, fun hcr => ?_⟩⟩
  · by_contra hne
    have hle := (hw.runner r).releases
    obtain ⟨t, ht⟩ := hw.pending r hs (by omega)
    exact hn t ht
  · have hs := allStopped_of_over h ho hq r hcr
    exact ⟨hs, (hw.runner r).ended hs, fun ok => start_stopped hcr hs⟩
  · have hcl := hc.closed q (by simp [hq])
    simp [step, hcr, hcl]

/-- A runner is started, stopped by `close` and started again. -/
def closeRun : List Event :=
  [.newRunner 0, .start 0 true, .close 0 [0], .check (.closer 0) true, .loop (.closer 0),
    .call (.closer 0) true, .observe (.observer 0), .settle (.closer 0), .release (.observer 0),
    .next 0, .start 0 true]

theorem closeRun_before {before : List Event} {e : Event} (h : before ++ [e] <+: closeRun) :
    before.length < 11 ∧ before = closeRun.take before.length ∧
      closeRun[before.length]? = some e := by
  obtain ⟨after, hes⟩ := h
  refine ⟨?_, by simp [← hes], by simp [← hes]⟩
  have := congrArg List.length hes
  simp only [List.length_append, closeRun, List.length_cons, List.length_nil] at this
  omega

theorem orderly_closeRun : Orderly closeRun := by
  intro before q order hb m hm hclosed
  obtain ⟨hlen, hbefore, he⟩ := closeRun_before hb
  generalize before.length = n at hbefore he hlen
  subst hbefore
  interval_cases n <;> cases he
  cases hm
  cases hclosed

theorem prompt_closeRun : Prompt closeRun := by
  intro before r hb m hm hclosed
  obtain ⟨hlen, hbefore, he⟩ := closeRun_before hb
  generalize before.length = n at hbefore he hlen
  subst hbefore
  interval_cases n <;> cases he
  · cases hm
    cases hclosed
  · cases hm
    exact .inl rfl

theorem task_interleavings_close :
    ∃ w, Run closeRun w ∧ w.closing 0 = .returned true ∧ (w.runner 0).releases = 1 ∧
      (w.runner 0).doneCloses = 1 ∧ NoLateStart closeRun ∧ (w.runner 0).client ≠ .running ∧
      (∀ ok, step w (.start 0 ok) = some w) ∧ step w (.newRunner 1) = some w := by
  obtain ⟨w, hw⟩ : ∃ w, Run closeRun w := ⟨_, rfl⟩
  obtain ⟨hdone, -, -, hlate, hover⟩ := task_interleavings hw
  have hclosing : w.closing 0 = .returned true := by cases hw; rfl
  have hcreated : (w.runner 0).created = true ∧ (w.runner 1).created = false := by
    cases hw; exact ⟨rfl, rfl⟩
  obtain ⟨hs, hclient, hstart⟩ := (hover orderly_closeRun 0 hclosing 0).1 hcreated.1
  refine ⟨w, hw, hclosing, by cases hw; rfl, by rw [hdone 0, hs]; rfl,
    hlate.mpr prompt_closeRun, hclient, hstart, ?_⟩
  exact (hover orderly_closeRun 0 hclosing 1).2 hcreated.2

/-- A second `close` returns nil while the first one is still stopping a runner that runs; and a
`Start` succeeds after the service was closed. -/
theorem close_again_leaves_runner :
    (∃ w, Run [.newRunner 0, .start 0 true, .close 0 [0], .close 1 []] w ∧
      w.closing 1 = .returned true ∧ (w.runner 0).client = .running ∧
      (w.runner 0).stopped = false) ∧
    ∃ m w, Run [.newRunner 0, .close 0 [0]] m ∧ m.closed = true ∧
      step m (.start 0 true) = some w ∧ (w.runner 0).client = .running :=
  ⟨⟨_, rfl, rfl, rfl, rfl⟩, _, _, rfl, rfl, rfl, rfl⟩

end Modary.Governed.Tasks
