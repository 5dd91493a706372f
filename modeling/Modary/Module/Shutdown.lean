import Modary.Module.Lifecycle

/-! # The lifecycle of a Host

Whatever calls interleave, a Host moves along its lifecycle, never runs once a shutdown was
accepted, closes its channel once, and by then has invoked every cleanup callback in reverse order
and holds none of the services of its modules (`host_lifecycle`). What it does keep is the Assembly
it made, whose facades are revoked; and a callback that ran out of time may still be running
(`shutdown_keeps_assembly`). -/

namespace Modary.Module.Shutdown

open Modary.Lib.GoText Modary.Lib.Machine Modary.Module.Manifests Modary.Module.Verify
open Modary.Module.Services Modary.Module.Host Modary.Module.Cleanups Modary.Module.Lifecycle

section Moves

variable {w : World}

/-! ### What the threads leave alone -/

/-- What a step leaves of the gate, the Assembly and the request. -/
structure Quiet (w w' : World) : Prop where
  assembly : w'.host.assembly = w.host.assembly
  facades : w'.host.facades = w.host.facades
  requested : w'.requested = w.requested

theorem quiet_starterStep {w' : World} {isValid : GoString → Bool} {outcome : Outcome}
    (hstep : starterStep isValid w outcome = some w') :
    Quiet w w' ∧ (w'.host.state = w.host.state ∨
      w.starter = .last ∧ w'.host.state = .running ∨
      cleaningUp w.starter = true ∧ (w'.host.state = .stopped ∨ w'.host.state = .failed)) := by
  have hsame : ∀ {v : World}, v.host = w.host → v.requested = w.requested →
      Quiet w v ∧ (v.host.state = w.host.state ∨
        w.starter = .last ∧ v.host.state = .running ∨
        cleaningUp w.starter = true ∧ (v.host.state = .stopped ∨ v.host.state = .failed)) :=
    fun hh hr => ⟨⟨by rw [hh], by rw [hh], hr⟩, Or.inl (by rw [hh])⟩
  unfold Host.starterStep at hstep
  split at hstep
  · cases hstep
  · cases hstep
  · cases hstep
    unfold World.validated
    split
    · exact hsame rfl rfl
    · split
      · exact hsame rfl rfl
      · split_ifs
        · exact hsame rfl rfl
        · split <;> exact hsame rfl rfl
  · cases hstep
    split_ifs <;> exact hsame rfl rfl
  · cases hstep
    split <;> exact hsame rfl rfl
  · split_ifs at hstep
    · obtain ⟨registration, -, rfl⟩ := Option.map_eq_some_iff.mp hstep
      exact hsame rfl rfl
    · cases hstep
      exact hsame rfl rfl
  · obtain ⟨registration, -, rfl⟩ := Option.map_eq_some_iff.mp hstep
    split_ifs <;> exact hsame rfl rfl
  · obtain ⟨registration, -, rfl⟩ := Option.map_eq_some_iff.mp hstep
    split_ifs <;> exact hsame rfl rfl
  · obtain ⟨runtime, -, rfl⟩ := Option.map_eq_some_iff.mp hstep
    exact ⟨⟨rfl, rfl, rfl⟩, Or.inl rfl⟩
  next i act acts todo _ =>
    obtain ⟨registration, -, rfl⟩ := Option.map_eq_some_iff.mp hstep
    cases act <;> unfold World.act
    · dsimp only; split_ifs <;> exact hsame rfl rfl
    · dsimp only; split_ifs <;> exact hsame rfl rfl
    · exact hsame rfl rfl
    · exact hsame rfl rfl
  · cases hstep
    split_ifs <;> exact hsame rfl rfl
  · cases hstep
    exact hsame rfl rfl
  · obtain ⟨registration, -, rfl⟩ := Option.map_eq_some_iff.mp hstep
    split_ifs <;> exact hsame rfl rfl
  next hs =>
    cases hstep
    split_ifs
    · exact hsame rfl rfl
    · exact ⟨⟨rfl, rfl, rfl⟩, Or.inr (Or.inl ⟨hs, rfl⟩)⟩
  next failed ending hs =>
    cases hstep
    refine ⟨⟨rfl, rfl, rfl⟩, Or.inr (Or.inr ⟨by rw [hs]; rfl, ?_⟩)⟩
    cases ending
    · simp only [World.complete]
      split_ifs <;> simp
    · simp only [World.complete]
      split_ifs <;> simp
  next cleanup ending _ hs =>
    obtain ⟨⟨v, cleanup'⟩, hc, rfl⟩ := Option.map_eq_some_iff.mp hstep
    have hsp := spared_cleanupStep hc
    exact ⟨⟨hsp.assembly, hsp.facades, hsp.requested⟩, Or.inl hsp.state⟩
  · cases hstep
    exact ⟨⟨rfl, rfl, rfl⟩, Or.inl rfl⟩

theorem quiet_finisherStep {w' : World} {outcome : Outcome}
    (hstep : finisherStep w outcome = some w') :
    Quiet w w' ∧ (w'.host.state = w.host.state ∨ (w.finisher ≠ .idle ∧ w.finisher ≠ .gone) ∧
      (w'.host.state = .stopped ∨ w'.host.state = .failed)) := by
  unfold Host.finisherStep at hstep
  split at hstep
  · cases hstep
  · cases hstep
  · split_ifs at hstep
    cases hstep
    exact ⟨⟨rfl, rfl, rfl⟩, Or.inl rfl⟩
  next failed hf =>
    cases hstep
    refine ⟨⟨rfl, rfl, rfl⟩, Or.inr ⟨by rw [hf]; exact ⟨nofun, nofun⟩, ?_⟩⟩
    simp only [World.finishShutdown]
    split_ifs <;> simp
  · obtain ⟨⟨v, cleanup'⟩, hc, rfl⟩ := Option.map_eq_some_iff.mp hstep
    have hsp := spared_cleanupStep hc
    exact ⟨⟨hsp.assembly, hsp.facades, hsp.requested⟩, Or.inl hsp.state⟩

/-! ### The moves of a Host -/

/-- The lifecycle of a Host. -/
inductive Legal : State → State → Prop
  | start : Legal .new .starting
  | run : Legal .starting .running
  | startStopped : Legal .starting .stopped
  | startFailed : Legal .starting .failed
  | stop : Legal .running .stopping
  | stopped : Legal .stopping .stopped
  | failed : Legal .stopping .failed

/-- What one step does to the state, the request and the Assembly. -/
structure Moves (w w' : World) : Prop where
  legal : w'.host.state = w.host.state ∨ Legal w.host.state w'.host.state
  requested : w.requested = true → w'.requested = true
  revoked : (w.host.assembly ≠ none → w.host.state = .running ∨ w.host.facades.isOpen = false) →
    w'.host.assembly ≠ none → w'.host.state = .running ∨ w'.host.facades.isOpen = false

theorem Moves.of_quiet {w' : World} (hq : Quiet w w')
    (hstate : w'.host.state = w.host.state) : Moves w w' := by
  refine ⟨Or.inl hstate, fun h => hq.requested.trans h, ?_⟩
  rw [hq.assembly, hstate, hq.facades]
  exact id

theorem Moves.refl : Moves w w := .of_quiet ⟨rfl, rfl, rfl⟩ rfl

/-- The Host moves on, and no Assembly was made unless its gate is closed. -/
theorem Moves.of_legal {w' : World} (hq : Quiet w w') (hl : Legal w.host.state w'.host.state)
    (hn : w.host.state ≠ .running) : Moves w w' := by
  refine ⟨Or.inr hl, fun h => hq.requested.trans h, ?_⟩
  rw [hq.assembly, hq.facades]
  intro h ha
  exact Or.inr ((h ha).resolve_left hn)

/-- **Every step moves legally.** -/
theorem moves_of_inv (h : Inv w) {w' : World} {isValid : GoString → Bool} {event : Event}
    (hstep : step isValid w event = some w') : Moves w w' := by
  cases event with
  | register registrations =>
    simp only [Host.step] at hstep
    split at hstep
    next host hr =>
      cases hstep
      obtain ⟨_, -, hr⟩ := bind_eq_ok.mp hr
      obtain ⟨held, -, hr⟩ := bind_eq_ok.mp hr
      cases hr
      exact .of_quiet ⟨rfl, rfl, rfl⟩ rfl
    next => cases hstep; exact .refl
  | start mode =>
    cases hstep
    unfold World.begin
    split_ifs with hnew
    · refine .of_legal ⟨rfl, rfl, rfl⟩ ?_ (by rw [hnew]; decide)
      rw [hnew]
      exact .start
    · exact .refl
  | proceed outcome =>
    obtain ⟨hq, hstate | ⟨hs, hstate⟩ | ⟨hs, hstate⟩⟩ := quiet_starterStep hstep
    · exact .of_quiet hq hstate
    · obtain ⟨-, hstart, -⟩ := h.staged.of_busy (by rw [hs]; rfl)
      refine .of_legal hq ?_ (by rw [hstart]; decide)
      rw [hstart, hstate]
      exact .run
    · have hb : busy w.starter = true := by
        revert hs
        cases w.starter <;> simp [cleaningUp, busy]
      obtain ⟨-, hstart, -⟩ := h.staged.of_busy hb
      refine .of_legal hq ?_ (by rw [hstart]; decide)
      rw [hstart]
      rcases hstate with hstate | hstate
      · rw [hstate]
        exact .startStopped
      · rw [hstate]
        exact .startFailed
  | shutdown =>
    cases hstep
    unfold World.shutdown
    split
    · exact .refl
    · exact ⟨Or.inl rfl, fun _ => rfl, id⟩
    next hrun =>
      refine ⟨Or.inr ?_, fun _ => rfl, fun _ _ => Or.inr rfl⟩
      rw [hrun]
      exact .stop
    · exact ⟨Or.inl rfl, fun _ => rfl, id⟩
    · exact ⟨Or.inl rfl, fun _ => rfl, id⟩
    · exact ⟨Or.inl rfl, fun _ => rfl, id⟩
  | finish outcome =>
    obtain ⟨hq, hstate | ⟨hf, hstate⟩⟩ := quiet_finisherStep hstep
    · exact .of_quiet hq hstate
    · obtain ⟨-, hstop, -⟩ := h.staged.of_finisher hf
      refine .of_legal hq ?_ (by rw [hstop]; decide)
      rw [hstop]
      rcases hstate with hstate | hstate
      · rw [hstate]
        exact .stopped
      · rw [hstate]
        exact .failed
  | assemble =>
    simp only [Host.step] at hstep
    split at hstep
    next host outcome ha =>
      cases hstep
      obtain ⟨_, hrun, ha⟩ := bind_eq_ok.mp ha
      have hrun : w.host.state = .running := by simpa using refuseIf_eq_ok.mp hrun
      split at ha
      · cases ha
        exact .refl
      · cases ha
        exact ⟨Or.inl rfl, fun hr => hr, fun _ _ => Or.inl hrun⟩
    next => cases hstep; exact .refl
  | provide i key value =>
    obtain ⟨runtime, -, rfl⟩ := Option.map_eq_some_iff.mp hstep
    split
    next host after hp =>
      obtain ⟨records, hp⟩ := provideService_ok hp
      obtain ⟨t, d, dOwner, p, pOwner, rfl⟩ := hp.frame
      exact .of_quiet ⟨rfl, rfl, rfl⟩ rfl
    next => exact .refl
  | resolve i via key =>
    obtain ⟨runtime, -, rfl⟩ := Option.map_eq_some_iff.mp hstep
    split
    · exact .of_quiet ⟨rfl, rfl, rfl⟩ rfl
    · exact .refl
  | onStop i isNil =>
    obtain ⟨runtime, -, rfl⟩ := Option.map_eq_some_iff.mp hstep
    split
    · exact .of_quiet ⟨rfl, rfl, rfl⟩ rfl
    · exact .refl
  | enterFacade =>
    simp only [Host.step] at hstep
    split_ifs at hstep
    · cases hstep
      exact ⟨Or.inl rfl, fun hr => hr, id⟩
    · cases hstep
      exact .refl
  | leaveFacade =>
    cases hstep
    exact ⟨Or.inl rfl, fun hr => hr, id⟩
  | acquireLease =>
    simp only [Host.step] at hstep
    split_ifs at hstep
    · cases hstep
      exact .refl
    · cases hstep
      exact .of_quiet ⟨rfl, rfl, rfl⟩ rfl
  | releaseLease =>
    cases hstep
    exact .of_quiet ⟨rfl, rfl, rfl⟩ rfl
  | finishOverdue callback =>
    cases hstep
    exact .of_quiet ⟨rfl, rfl, rfl⟩ rfl

end Moves

/-! ### The contract -/

/-- What holds in every state of a Host. -/
structure Orderly (w : World) : Prop where
  /-- The channel is closed at most once. -/
  closedOnce : w.host.shutdownDone ≤ 1
  /-- It is closed by whoever completes the lifecycle, after the cleanup has returned. -/
  closed : w.host.shutdownDone = 1 →
    pointOf w = .returned ∧ (w.host.state = .stopped ∨ w.host.state = .failed)
  /-- Callbacks are invoked in reverse order of registration, each at most once. -/
  invoked : w.invoked <+: (List.range w.registered).reverse
  /-- After cleanup every callback was invoked, and the tables of the Host are empty. -/
  released : pointOf w = .returned → w.invoked = (List.range w.registered).reverse ∧
    (∀ name, w.host.services name = none) ∧ w.host.database = none ∧ w.host.persistence = none
  /-- The facades of an Assembly are revoked when the Host stops running. -/
  revoked : w.host.assembly ≠ none → w.host.state = .running ∨ w.host.facades.isOpen = false

theorem orderly_of_inv {w : World} (h : Inv w)
    (hr : w.host.assembly ≠ none → w.host.state = .running ∨ w.host.facades.isOpen = false) :
    Orderly w := by
  obtain ⟨k, hl⟩ := h.ledger
  refine ⟨?_, ?_, ⟨_, hl.pending⟩, ?_, hr⟩
  · cases h.staged <;> omega
  · intro hd
    cases h.staged with
    | new _ _ _ hdone => omega
    | starting _ _ _ hdone => omega
    | running _ _ _ hdone => omega
    | stopping _ _ _ hdone => omega
    | ended _ _ hstate =>
      exact ⟨h.pointOf_done hd, hstate⟩
  · intro hp
    rw [hp] at hl
    have hk : k = 0 := by
      have := congrArg List.length hl.rest
      simpa [upcoming] using this.symm
    subst hk
    have hnone : ∀ name, w.host.services name = none := by
      intro name
      rw [Option.eq_none_iff_forall_ne_some]
      intro record hrec
      obtain ⟨i, hi, -⟩ := hl.owned name record hrec
      exact absurd hi (Nat.not_lt_zero i)
    refine ⟨by simpa [left, current] using hl.pending, hnone, ?_, ?_⟩
    · by_contra hd
      obtain ⟨record, hrec, -⟩ := hl.backed.database hd
      simp [hnone] at hrec
    · by_contra hd
      obtain ⟨record, hrec, -⟩ := hl.backed.persistence hd
      simp [hnone] at hrec

/-- The invariant, with what the steps say about the Assembly. -/
theorem orderly_of_run {isValid : GoString → Bool} {skipMigrations : Bool} {events : List Event}
    {w : World} (h : run (step isValid) events (.create skipMigrations) = some w) :
    Inv w ∧ Orderly w := by
  have hboth : Inv w ∧
      (w.host.assembly ≠ none → w.host.state = .running ∨ w.host.facades.isOpen = false) := by
    refine run_induction
      (P := fun _ w => Inv w ∧
        (w.host.assembly ≠ none → w.host.state = .running ∨ w.host.facades.isOpen = false))
      ⟨inv_create skipMigrations, fun ha => absurd rfl ha⟩ ?_ h
    rintro _ event s t ⟨hi, hr⟩ hs
    exact ⟨hi.step hs, (moves_of_inv hi hs).revoked hr⟩
  exact ⟨hboth.1, orderly_of_inv hboth.1 hboth.2⟩

/-- **The lifecycle of a Host.** In every state of every run the Host is orderly and its next step
legal; and once a Host that left `new` is asked to shut down it never runs again. -/
theorem host_lifecycle (isValid : GoString → Bool) (skipMigrations : Bool) (events : List Event)
    (w : World) (h : run (step isValid) events (.create skipMigrations) = some w) :
    Orderly w ∧
      (∀ event w', step isValid w event = some w' →
        w'.host.state = w.host.state ∨ Legal w.host.state w'.host.state) ∧
      (w.host.state ≠ .new → ∀ after w',
        run (step isValid) (.shutdown :: after) w = some w' → w'.host.state ≠ .running) := by
  obtain ⟨hinv, hord⟩ := orderly_of_run h
  refine ⟨hord, fun event w' hs => (moves_of_inv hinv hs).legal, ?_⟩
  intro hn after w' hrun
  have hreq : w.shutdown.requested = true := by
    unfold World.shutdown
    split <;> first | rfl | contradiction
  have hafter : Inv w' ∧ w'.requested = true := by
    refine run_induction (P := fun _ v => Inv v ∧ v.requested = true) ⟨hinv.shutdown, hreq⟩ ?_
      hrun
    rintro _ event s t ⟨hi, hr⟩ hs
    exact ⟨hi.step hs, (moves_of_inv hi hs).requested hr⟩
  intro hrunning
  cases hafter.1.staged with
  | new _ _ hstate => rw [hrunning] at hstate; cases hstate
  | starting _ _ hstate => rw [hrunning] at hstate; cases hstate
  | running _ _ _ _ hf => rw [hafter.2] at hf; cases hf
  | stopping _ _ hstate => rw [hrunning] at hstate; cases hstate
  | ended _ _ hstate => rcases hstate with hstate | hstate <;> rw [hrunning] at hstate <;> cases hstate

/-! ### A run -/

/-- `IdentityResolver()`. -/
def identityResolverKey : KeyIdentity :=
  ⟨2, .utf8 "identity.resolver", .utf8 "identity", .named 2⟩

/-- An adapter that provides identities. -/
def directory : Registration where
  manifest := ⟨schemaVersion, .utf8 "directory", .utf8 "1.0.0", moduleTypeAdapter, [],
    [.utf8 "identity"]⟩
  actions := []
  migrations := []
  start := true

/-- A feature that needs them. -/
def portal : Registration where
  manifest := ⟨schemaVersion, .utf8 "portal", .utf8 "1.0.0", moduleTypeFeature,
    [.utf8 "identity"], []⟩
  actions := []
  migrations := []
  start := true

/-- The two modules start: each registers a callback, and the portal resolves the directory. -/
def startup : List Event :=
  [.register [portal, directory], .start .start, .proceed .done, .proceed .done, .proceed .done,
    .proceed .done, .provide 0 (some identityResolverKey) (.service 7), .onStop 0 false,
    .proceed .done, .proceed .done, .proceed .done, .proceed .done,
    .proceed .done, .proceed .done, .resolve 1 none (some identityResolverKey), .onStop 1 false,
    .proceed .done, .proceed .done, .proceed .done, .proceed .done,
    .proceed .done, .proceed .done, .proceed .done]

/-- The Host is shut down, up to the callback of the portal, which runs out of time. -/
def teardown : List Event :=
  [.shutdown, .finish .done, .finish .done, .finish .done, .finish .done, .finish .done,
    .finish .timedOut]

/-- The services of the portal go, then the directory is cleaned up and the channel closed. -/
def ending : List Event :=
  [.finish .done, .finish .done, .finish .done, .finish .done, .finish .done, .finish .done,
    .finish .done]

/-- The state after some events. -/
def sampleRun (events : List Event) : Option World :=
  run (step fun _ => true) events (.create false)

/-- The sample ends with both callbacks invoked, the last one first. -/
theorem host_lifecycle_sample : ∃ w,
    sampleRun (startup ++ [.assemble] ++ teardown ++ ending) = some w ∧ Orderly w ∧
      w.host.shutdownDone = 1 ∧ w.invoked = [1, 0] := by
  have hrun : ((sampleRun (startup ++ [.assemble] ++ teardown ++ ending)).map fun w =>
      (w.host.shutdownDone, w.invoked)) = some (1, [1, 0]) := by decide +kernel
  obtain ⟨w, hw, he⟩ := Option.map_eq_some_iff.mp hrun
  simp only [Prod.mk.injEq] at he
  exact ⟨w, hw, (host_lifecycle _ _ _ w hw).1, he⟩

/-- The services a Host refers to, in its tables or behind the facades of its Assembly. -/
def Refers (host : Services.Host) (value : Value) : Prop :=
  (∃ name record, host.services name = some record ∧ record.value = value) ∨
    host.database = some value ∨ host.persistence = some value ∨
    ∃ assembly name, host.assembly = some (.ok assembly) ∧ (name, value) ∈ assembly.facades

/-- **The channel is closed while a callback still runs, and the Host keeps its Assembly.** -/
theorem shutdown_keeps_assembly : ∃ events w, sampleRun events = some w ∧
    w.host.shutdownDone = 1 ∧ (∃ callback ∈ w.invoked, callback ∈ w.overdue) ∧
    ∃ value, Refers w.host value := by
  have hrun : ((sampleRun (startup ++ [.assemble] ++ teardown ++ ending)).map fun w =>
      (w.host.shutdownDone, w.invoked, w.overdue, w.host.assembly)) =
      some (1, [1, 0], [1],
        some (.ok ⟨none, [(.utf8 "identity.resolver", .service 7)]⟩)) := by decide +kernel
  obtain ⟨w, hw, he⟩ := Option.map_eq_some_iff.mp hrun
  simp only [Prod.mk.injEq] at he
  obtain ⟨hd, hi, ho, ha⟩ := he
  refine ⟨_, w, hw, hd, ⟨1, by rw [hi]; decide, by rw [ho]; decide⟩, .service 7, ?_⟩
  exact Or.inr (Or.inr (Or.inr ⟨_, .utf8 "identity.resolver", ha, by simp⟩))

end Modary.Module.Shutdown
