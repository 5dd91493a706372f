import Mathlib.Logic.Function.Basic
import Modary.Lib.Machine
import Modary.Runtime.Callback

/-! # Interleavings of the exactly-once guard

Any number of goroutines call `Invoke` and `CloseAndWait` on one guard. An event is one critical
section, or the return or the panic of the guarded operation, which runs outside the mutex; a run is
any order of them. -/

namespace Modary.Runtime.Guard

open Modary.Action.Errors Modary.Lib.Machine Modary.Runtime.Callback

/-! ### The calls -/

/-- How an `Invoke` ends. -/
inductive Exit
  | returned (result : Err)
  | panicked
  | refused (err : Err)
  deriving DecidableEq, Repr

/-- How far an `Invoke` is. -/
inductive Invoke
  | idle
  /-- the operation is running -/
  | running
  /-- the operation has returned, its result is not recorded yet -/
  | returned (result : Err)
  /-- the result is recorded, the deferred section is still to come -/
  | recorded (result : Err)
  /-- the operation has panicked, the deferred section is still to come -/
  | unwinding
  | exited (exit : Exit)
  deriving DecidableEq, Repr

/-- How far a `CloseAndWait` is. -/
inductive Closer
  | idle
  /-- an operation was in flight: it waits for `done` -/
  | waiting
  /-- only the snapshot is left -/
  | settled
  | exited (snapshot : ExactlyOnce)
  deriving DecidableEq, Repr

/-- The guard and the calls on it; `ran` counts how often an operation was started. -/
structure World where
  guard : ExactlyOnce
  ran : ℕ
  invoke : ℕ → Invoke
  closer : ℕ → Closer

/-- Nothing was called yet. -/
def World.init : World :=
  { guard := {}, ran := 0, invoke := fun _ => .idle, closer := fun _ => .idle }

inductive Event
  | enter (i : ℕ)
  | ret (i : ℕ) (result : Err)
  | panic (i : ℕ)
  | record (i : ℕ)
  | finish (i : ℕ)
  | close (j : ℕ)
  | wake (j : ℕ)
  | snapshot (j : ℕ)
  deriving DecidableEq, Repr

/-- An `Invoke` goes on, with the guard as it leaves it. -/
def World.go (w : World) (i : ℕ) (next : Invoke) (guard : ExactlyOnce) : World :=
  { w with guard := guard, invoke := Function.update w.invoke i next }

/-- A `CloseAndWait` goes on. -/
def World.wait (w : World) (j : ℕ) (next : Closer) (guard : ExactlyOnce) : World :=
  { w with guard := guard, closer := Function.update w.closer j next }

/-- One event; `none` when the call is not there. -/
def step (w : World) : Event → Option World
  | .enter i =>
    match w.invoke i with
    | .idle =>
      match w.guard.enter with
      | (none, guard) => some ({ w with ran := w.ran + 1 }.go i .running guard)
      | (some err, guard) => some (w.go i (.exited (.refused err)) guard)
    | _ => none
  | .ret i result =>
    match w.invoke i with
    | .running => some (w.go i (.returned result) w.guard)
    | _ => none
  | .panic i =>
    match w.invoke i with
    | .running => some (w.go i .unwinding w.guard)
    | _ => none
  | .record i =>
    match w.invoke i with
    | .returned result => some (w.go i (.recorded result) (w.guard.record result))
    | _ => none
  | .finish i =>
    match w.invoke i with
    | .recorded result => some (w.go i (.exited (.returned result)) w.guard.finish)
    | .unwinding => some (w.go i (.exited .panicked) w.guard.finish)
    | _ => none
  | .close j =>
    match w.closer j with
    | .idle => some (w.wait j (if w.guard.inFlight then .waiting else .settled) w.guard.close)
    | _ => none
  | .wake j =>
    match w.closer j with
    | .waiting => if w.guard.completed then some (w.wait j .settled w.guard) else none
    | _ => none
  | .snapshot j =>
    match w.closer j with
    | .settled => some (w.wait j (.exited w.guard) w.guard)
    | _ => none

/-- A run from a new guard. -/
def Run (es : List Event) (w : World) : Prop := run step es World.init = some w

/-! ### What a step does -/

/-- The call was admitted: its operation runs or has run. -/
def Invoke.admitted : Invoke → Bool
  | .idle => false
  | .running => true
  | .returned _ => true
  | .recorded _ => true
  | .unwinding => true
  | .exited (.returned _) => true
  | .exited .panicked => true
  | .exited (.refused _) => false

/-- The call was admitted and is not over. -/
def Invoke.active : Invoke → Bool
  | .running => true
  | .returned _ => true
  | .recorded _ => true
  | .unwinding => true
  | _ => false

/-- The call was admitted and is over. -/
def Invoke.done : Invoke → Bool
  | .exited (.returned _) => true
  | .exited .panicked => true
  | _ => false

/-- The result that the guard has seen. -/
def Invoke.seen : Invoke → Option Err
  | .recorded result => some result
  | .exited (.returned result) => some result
  | _ => none

/-- The result of the operation. -/
def Invoke.result : Invoke → Option Err
  | .returned result => some result
  | .recorded result => some result
  | .exited (.returned result) => some result
  | _ => none

theorem Invoke.not_active_of_done {c : Invoke} (h : c.done = true) : c.active = false := by
  cases c with
  | exited exit => rfl
  | _ => simp [Invoke.done] at h

/-- What one event does. -/
inductive Step (w : World) : Event → World → Prop
  | first {i : ℕ} (hi : w.invoke i = .idle) (hc : w.guard.closed = false) (h0 : w.guard.calls = 0) :
      Step w (.enter i) ({ w with ran := w.ran + 1 }.go i .running
        { w.guard with calls := 1, inFlight := true })
  | repeated {i : ℕ} (hi : w.invoke i = .idle) (hc : w.guard.closed = false)
      (h1 : 1 ≤ w.guard.calls) :
      Step w (.enter i) (w.go i (.exited (.refused (.sentinel .repeatedInvocation)))
        { w.guard with calls := w.guard.calls + 1, repeated := true })
  | late {i : ℕ} (hi : w.invoke i = .idle) (hc : w.guard.closed = true) :
      Step w (.enter i) (w.go i (.exited (.refused (.sentinel .closedInvocation)))
        { w.guard with late := true })
  | ret {i : ℕ} {result : Err} (hi : w.invoke i = .running) :
      Step w (.ret i result) (w.go i (.returned result) w.guard)
  | panic {i : ℕ} (hi : w.invoke i = .running) :
      Step w (.panic i) (w.go i .unwinding w.guard)
  | record {i : ℕ} {result : Err} (hi : w.invoke i = .returned result) :
      Step w (.record i) (w.go i (.recorded result) (w.guard.record result))
  | finish {i : ℕ} {result : Err} (hi : w.invoke i = .recorded result) :
      Step w (.finish i) (w.go i (.exited (.returned result)) w.guard.finish)
  | unwind {i : ℕ} (hi : w.invoke i = .unwinding) :
      Step w (.finish i) (w.go i (.exited .panicked) w.guard.finish)
  | close {j : ℕ} (hj : w.closer j = .idle) :
      Step w (.close j) (w.wait j (if w.guard.inFlight then .waiting else .settled) w.guard.close)
  | wake {j : ℕ} (hj : w.closer j = .waiting) (hd : w.guard.completed = true) :
      Step w (.wake j) (w.wait j .settled w.guard)
  | snapshot {j : ℕ} (hj : w.closer j = .settled) :
      Step w (.snapshot j) (w.wait j (.exited w.guard) w.guard)

theorem step_cases {w w' : World} {e : Event} (h : step w e = some w') : Step w e w' := by
  cases e with
  | enter i =>
    simp only [step] at h
    split at h
    · next hi =>
      by_cases hc : w.guard.closed = true
      · have he : w.guard.enter =
            (some (.sentinel .closedInvocation), { w.guard with late := true }) := by
          simp [ExactlyOnce.enter, hc]
        rw [he] at h
        exact Option.some.inj h ▸ .late hi hc
      · by_cases h0 : w.guard.calls = 0
        · have he : w.guard.enter = (none, { w.guard with calls := 1, inFlight := true }) := by
            simp [ExactlyOnce.enter, hc, h0]
          rw [he] at h
          exact Option.some.inj h ▸ .first hi (by simpa using hc) h0
        · have he : w.guard.enter = (some (.sentinel .repeatedInvocation),
              { w.guard with calls := w.guard.calls + 1, repeated := true }) := by
            simp [ExactlyOnce.enter, hc, h0]
          rw [he] at h
          exact Option.some.inj h ▸ .repeated hi (by simpa using hc) (by omega)
    · cases h
  | ret i result =>
    simp only [step] at h
    split at h
    · next hi => exact Option.some.inj h ▸ .ret hi
    · cases h
  | panic i =>
    simp only [step] at h
    split at h
    · next hi => exact Option.some.inj h ▸ .panic hi
    · cases h
  | record i =>
    simp only [step] at h
    split at h
    · next hi => exact Option.some.inj h ▸ .record hi
    · cases h
  | finish i =>
    simp only [step] at h
    split at h
    · next hi => exact Option.some.inj h ▸ .finish hi
    · next hi => exact Option.some.inj h ▸ .unwind hi
    · cases h
  | close j =>
    simp only [step] at h
    split at h
    · next hj => exact Option.some.inj h ▸ .close hj
    · cases h
  | wake j =>
    simp only [step] at h
    split at h
    · next hj =>
      split at h
      · next hd => exact Option.some.inj h ▸ .wake hj hd
      · cases h
    · cases h
  | snapshot j =>
    simp only [step] at h
    split at h
    · next hj => exact Option.some.inj h ▸ .snapshot hj
    · cases h

/-! ### The guard and its calls agree -/

@[simp] theorem go_invoke (w : World) (i k : ℕ) (next : Invoke) (guard : ExactlyOnce) :
    (w.go i next guard).invoke k = if k = i then next else w.invoke k :=
  Function.update_apply ..

@[simp] theorem go_guard (w : World) (i : ℕ) (next : Invoke) (guard : ExactlyOnce) :
    (w.go i next guard).guard = guard := rfl

@[simp] theorem go_ran (w : World) (i : ℕ) (next : Invoke) (guard : ExactlyOnce) :
    (w.go i next guard).ran = w.ran := rfl

@[simp] theorem go_closer (w : World) (i : ℕ) (next : Invoke) (guard : ExactlyOnce) :
    (w.go i next guard).closer = w.closer := rfl

@[simp] theorem wait_closer (w : World) (j k : ℕ) (next : Closer) (guard : ExactlyOnce) :
    (w.wait j next guard).closer k = if k = j then next else w.closer k :=
  Function.update_apply ..

@[simp] theorem wait_guard (w : World) (j : ℕ) (next : Closer) (guard : ExactlyOnce) :
    (w.wait j next guard).guard = guard := rfl

@[simp] theorem wait_invoke (w : World) (j : ℕ) (next : Closer) (guard : ExactlyOnce) :
    (w.wait j next guard).invoke = w.invoke := rfl

/-- The guard's flags are those of the admitted call. -/
structure Reflects (guard : ExactlyOnce) (c : Invoke) : Prop where
  inFlight : guard.inFlight = c.active
  completed : guard.completed = c.done
  returned : guard.returned = c.seen.isSome

/-- The admitted call is `holder`, and the guard agrees with it and with the closers. -/
structure Agree (w : World) (holder : Option ℕ) : Prop where
  admitted : ∀ i, (w.invoke i).admitted ↔ holder = some i
  calls : w.guard.calls = 0 ↔ holder = none
  ran : w.ran = holder.elim 0 fun _ => 1
  flags : Reflects w.guard (holder.elim .idle w.invoke)
  repeated : w.guard.repeated ↔ 2 ≤ w.guard.calls
  escaped : w.guard.closed → w.guard.inFlight → w.guard.escaped
  closing : ∀ j, w.closer j ≠ .idle → w.guard.closed
  settled : ∀ j, w.closer j ≠ .idle → w.closer j ≠ .waiting → w.guard.inFlight = false

theorem agree_init : Agree World.init none := by
  constructor <;> simp [World.init, Invoke.admitted]
  constructor <;> rfl

section Steps

variable {w : World} {holder : Option ℕ} {i : ℕ}

/-- A call that is not admitted, before and after, leaves the holder as it is. -/
theorem Agree.refuse {next : Invoke} {guard : ExactlyOnce} (hw : Agree w holder)
    (hi : (w.invoke i).admitted = false) (hn : next.admitted = false)
    (hcalls : guard.calls = w.guard.calls ∨ 1 ≤ w.guard.calls ∧ guard.calls = w.guard.calls + 1)
    (hrepeated : guard.repeated ↔ 2 ≤ guard.calls)
    (hflags : Reflects w.guard (holder.elim .idle w.invoke) →
      Reflects guard (holder.elim .idle w.invoke))
    (hrest : guard.inFlight = w.guard.inFlight ∧ guard.closed = w.guard.closed ∧
      guard.escaped = w.guard.escaped) :
    Agree (w.go i next guard) holder := by
  obtain ⟨hf, hc, hx⟩ := hrest
  have hne : holder ≠ some i := fun h => by simp [(hw.admitted i).mpr h] at hi
  have hsame : holder.elim .idle (w.go i next guard).invoke = holder.elim .idle w.invoke := by
    cases holder with
    | none => rfl
    | some k =>
      have hki : k ≠ i := fun h => hne (h ▸ rfl)
      simp [hki]
  refine ⟨fun k => ?_, ?_, hw.ran, hsame ▸ hflags hw.flags, hrepeated, ?_, ?_, ?_⟩
  · by_cases hk : k = i
    · subst hk
      simpa [hn] using hne
    · simpa [hk] using hw.admitted k
  · rw [go_guard, ← hw.calls]
    omega
  · simpa [hf, hc, hx] using hw.escaped
  · simpa [hc] using hw.closing
  · simpa [hf] using hw.settled

/-- The admitted call goes on. -/
theorem Agree.advance {next : Invoke} {guard : ExactlyOnce} (hw : Agree w holder)
    (hi : (w.invoke i).admitted) (hn : next.admitted)
    (hflags : Reflects w.guard (w.invoke i) → Reflects guard next)
    (hrest : guard.calls = w.guard.calls ∧ guard.repeated = w.guard.repeated ∧
      guard.closed = w.guard.closed ∧ guard.escaped = w.guard.escaped)
    (hdown : guard.inFlight → w.guard.inFlight) :
    Agree (w.go i next guard) holder := by
  obtain ⟨hcalls, hr, hc, hx⟩ := hrest
  have hh : holder = some i := (hw.admitted i).mp hi
  subst hh
  refine ⟨fun k => ?_, ?_, hw.ran, ?_, ?_, ?_, ?_, ?_⟩
  · by_cases hk : k = i
    · simp [hk, hn]
    · simpa [hk] using hw.admitted k
  · simpa [hcalls] using hw.calls
  · simpa using hflags hw.flags
  · simpa [hr, hcalls] using hw.repeated
  · intro h1 h2
    simp only [go_guard] at h1 h2 ⊢
    rw [hx]
    exact hw.escaped (hc ▸ h1) (hdown h2)
  · simpa [hc] using hw.closing
  · intro j h1 h2
    have hf := hw.settled j h1 h2
    simp only [go_guard]
    by_contra hg
    have := hdown (by simpa using hg)
    simp [hf] at this

/-- Only closers go on. -/
theorem Agree.wait {j : ℕ} {next : Closer} (hw : Agree w holder) (hclosed : w.guard.closed)
    (hnext : next ≠ .idle → next ≠ .waiting → w.guard.inFlight = false) :
    Agree (w.wait j next w.guard) holder := by
  refine { hw with closing := fun _ _ => hclosed, settled := fun k => ?_ }
  by_cases hk : k = j
  · simpa [hk] using hnext
  · simpa [hk] using hw.settled k

/-- The first call is admitted. -/
theorem Agree.begin (hw : Agree w holder) (hc : w.guard.closed = false)
    (h0 : w.guard.calls = 0) :
    Agree ({ w with ran := w.ran + 1 }.go i .running
      { w.guard with calls := 1, inFlight := true }) (some i) := by
  have hh : holder = none := hw.calls.mp h0
  subst hh
  have hflags := hw.flags
  have hidle : ∀ j, w.closer j = .idle := by
    intro j
    by_contra hj
    simp [hw.closing j hj] at hc
  have hrepeated : w.guard.repeated = false := by
    have h2 := hw.repeated
    rw [h0] at h2
    simpa using h2
  refine ⟨fun k => ?_, by simp, by simp [hw.ran], ⟨by simp [Invoke.active], ?_, ?_⟩,
    by simp [hrepeated], ?_, ?_, ?_⟩
  · by_cases hk : k = i
    · simp [hk, Invoke.admitted]
    · simpa [hk, Ne.symm hk] using hw.admitted k
  · simpa [Invoke.done] using hflags.completed
  · simpa [Invoke.seen] using hflags.returned
  · simp [hc]
  · intro j hj
    exact absurd (hidle j) hj
  · intro j hj
    exact absurd (hidle j) hj

/-- The guard is closed. -/
theorem Agree.close {j : ℕ} (hw : Agree w holder) :
    Agree (w.wait j (if w.guard.inFlight then .waiting else .settled) w.guard.close) holder := by
  refine ⟨hw.admitted, hw.calls, hw.ran, ⟨hw.flags.inFlight, hw.flags.completed, hw.flags.returned⟩,
    hw.repeated, ?_, fun _ _ => rfl, fun k => ?_⟩
  · intro _ h
    have hf : w.guard.inFlight := h
    simp [ExactlyOnce.close, hf]
  · by_cases hk : k = j
    · by_cases hf : w.guard.inFlight <;> simp [hk, hf, ExactlyOnce.close]
    · simpa [hk, ExactlyOnce.close] using hw.settled k

end Steps

theorem Invoke.admitted_of_active {c : Invoke} (h : c.active) : c.admitted := by
  cases c with
  | idle => simp [Invoke.active] at h
  | exited exit => simp [Invoke.active] at h
  | _ => rfl

/-- A call that is under way is the one the guard has in flight. -/
theorem Agree.inFlight_of_active {w : World} {holder : Option ℕ} {i : ℕ} (hw : Agree w holder)
    (h : (w.invoke i).active) : w.guard.inFlight := by
  have hh : holder = some i := (hw.admitted i).mp (Invoke.admitted_of_active h)
  rw [hw.flags.inFlight, hh]
  exact h

/-- Once the operation is over nothing is in flight. -/
theorem Agree.not_inFlight {w : World} {holder : Option ℕ} (hw : Agree w holder)
    (h : w.guard.completed) : w.guard.inFlight = false := by
  rw [hw.flags.inFlight]
  rw [hw.flags.completed] at h
  exact Invoke.not_active_of_done h

theorem agree_step {w w' : World} {e : Event} {holder : Option ℕ} (hw : Agree w holder)
    (h : Step w e w') : ∃ holder', Agree w' holder' := by
  cases h with
  | @first i hi hc h0 => exact ⟨some i, hw.begin hc h0⟩
  | @repeated i hi hc h1 =>
    refine ⟨holder, hw.refuse (by simp [hi, Invoke.admitted]) rfl (.inr ⟨h1, rfl⟩) ?_ ?_
      ⟨rfl, rfl, rfl⟩⟩
    · simp only [true_iff]
      omega
    · exact fun hf => ⟨hf.inFlight, hf.completed, hf.returned⟩
  | @late i hi hc =>
    refine ⟨holder, hw.refuse (by simp [hi, Invoke.admitted]) rfl (.inl rfl) hw.repeated ?_
      ⟨rfl, rfl, rfl⟩⟩
    exact fun hf => ⟨hf.inFlight, hf.completed, hf.returned⟩
  | @ret i result hi =>
    refine ⟨holder, hw.advance (by simp [hi, Invoke.admitted]) rfl ?_ ⟨rfl, rfl, rfl, rfl⟩ id⟩
    rw [hi]
    exact fun hf => ⟨hf.inFlight, hf.completed, hf.returned⟩
  | @panic i hi =>
    refine ⟨holder, hw.advance (by simp [hi, Invoke.admitted]) rfl ?_ ⟨rfl, rfl, rfl, rfl⟩ id⟩
    rw [hi]
    exact fun hf => ⟨hf.inFlight, hf.completed, hf.returned⟩
  | @record i result hi =>
    refine ⟨holder, hw.advance (by simp [hi, Invoke.admitted]) rfl ?_ ⟨rfl, rfl, rfl, rfl⟩ id⟩
    rw [hi]
    exact fun hf => ⟨hf.inFlight, hf.completed, rfl⟩
  | @finish i result hi =>
    refine ⟨holder, hw.advance (by simp [hi, Invoke.admitted]) rfl ?_ ⟨rfl, rfl, rfl, rfl⟩ ?_⟩
    · rw [hi]
      exact fun hf => ⟨rfl, rfl, hf.returned⟩
    · simp [ExactlyOnce.finish]
  | @unwind i hi =>
    refine ⟨holder, hw.advance (by simp [hi, Invoke.admitted]) rfl ?_ ⟨rfl, rfl, rfl, rfl⟩ ?_⟩
    · rw [hi]
      exact fun hf => ⟨rfl, rfl, hf.returned⟩
    · simp [ExactlyOnce.finish]
  | @close j hj => exact ⟨holder, hw.close⟩
  | @wake j hj hd =>
    exact ⟨holder, hw.wait (hw.closing j (by simp [hj])) fun _ _ => hw.not_inFlight hd⟩
  | @snapshot j hj =>
    exact ⟨holder, hw.wait (hw.closing j (by simp [hj])) fun _ _ =>
      hw.settled j (by simp [hj]) (by simp [hj])⟩

/-! ### The guard and the order of events -/

/-- The call of an event that begins an `Invoke`. -/
def Event.entered : Event → Option ℕ
  | .enter i => some i
  | _ => none

/-- The event closes the guard. -/
def Event.closes : Event → Bool
  | .close _ => true
  | _ => false

/-- The `Invoke` calls, as they began. -/
def entered (es : List Event) : List ℕ := es.filterMap Event.entered

/-- The events before the guard is closed. -/
def window (es : List Event) : List Event := es.takeWhile fun e => !e.closes

theorem window_snoc_closed {es : List Event} {e : Event} (h : es.any Event.closes) :
    window (es ++ [e]) = window es := by
  induction es with
  | nil => simp at h
  | cons a es ih =>
    by_cases ha : a.closes
    · simp [window, ha]
    · have hes : es.any Event.closes := by simpa [ha] using h
      simpa [window, ha] using ih hes

theorem window_open {es : List Event} (h : es.any Event.closes = false) : window es = es := by
  simpa [window, List.takeWhile_eq_self_iff] using h

theorem window_snoc_closing {es : List Event} {e : Event} (h : es.any Event.closes = false)
    (he : e.closes) : window (es ++ [e]) = es := by
  have hes : es.takeWhile (fun e => !e.closes) = es := window_open h
  simp [window, List.takeWhile_append, hes, he]

theorem mem_of_mem_window {es : List Event} {e : Event} (h : e ∈ window es) : e ∈ es :=
  (List.takeWhile_prefix _).subset h

theorem entered_window_le (es : List Event) :
    (entered (window es)).length ≤ (entered es).length :=
  ((List.takeWhile_sublist _).filterMap _).length_le

/-- What the guard and the calls tell of the events so far. -/
structure Traced (es : List Event) (w : World) : Prop where
  closed : w.guard.closed = es.any Event.closes
  calls : w.guard.calls = (entered (window es)).length
  late : w.guard.late ↔ (entered (window es)).length < (entered es).length
  finished : ∀ i, .finish i ∈ es ↔ (w.invoke i).done
  result : ∀ i r, .ret i r ∈ es ↔ (w.invoke i).result = some r
  inTime : (∃ i, .finish i ∈ window es) ↔ w.guard.completed ∧ w.guard.escaped = false
  early : ∀ i r, .ret i r ∈ es → .finish i ∈ window es → .ret i r ∈ window es
  escaped : w.guard.escaped → w.guard.closed
  begun : ∀ i, w.invoke i ≠ .idle → i ∈ entered es

theorem traced_init : Traced [] World.init := by
  constructor <;> simp [World.init, entered, window, Invoke.done, Invoke.result]

section Effects

variable {w w' : World} {e : Event}

theorem Step.closed_eq (h : Step w e w') : w'.guard.closed = (w.guard.closed || e.closes) := by
  cases h <;> simp [Event.closes, ExactlyOnce.record, ExactlyOnce.finish, ExactlyOnce.close]

theorem Step.calls_eq (h : Step w e w') :
    w'.guard.calls = w.guard.calls + if w.guard.closed then 0 else e.entered.toList.length := by
  cases h with
  | first hi hc h0 => simp [hc, h0, Event.entered]
  | repeated hi hc h1 => simp [hc, Event.entered]
  | late hi hc => simp [hc]
  | _ => simp [Event.entered, ExactlyOnce.record, ExactlyOnce.finish, ExactlyOnce.close]

theorem Step.late_iff (h : Step w e w') :
    w'.guard.late ↔ w.guard.late ∨ w.guard.closed ∧ e.entered.isSome := by
  cases h with
  | first hi hc h0 => simp [hc]
  | repeated hi hc h1 => simp [hc]
  | late hi hc => simp [hc, Event.entered]
  | _ => simp [Event.entered, ExactlyOnce.record, ExactlyOnce.finish, ExactlyOnce.close]

theorem Step.escaped_iff (h : Step w e w') :
    w'.guard.escaped ↔ w.guard.escaped ∨ e.closes ∧ w.guard.inFlight := by
  cases h <;> simp [Event.closes, ExactlyOnce.record, ExactlyOnce.finish, ExactlyOnce.close]

theorem Step.completed_iff (h : Step w e w') :
    w'.guard.completed ↔ w.guard.completed ∨ ∃ i, e = .finish i := by
  cases h <;> simp [ExactlyOnce.record, ExactlyOnce.finish, ExactlyOnce.close]

theorem Step.done_iff (h : Step w e w') (k : ℕ) :
    (w'.invoke k).done ↔ (w.invoke k).done ∨ e = .finish k := by
  cases h with
  | close | wake | snapshot => simp
  | @finish i result hi | @unwind i hi =>
    by_cases hk : k = i
    · simp [hk, Invoke.done]
    · simp [hk, Ne.symm hk]
  | @first i hi | @repeated i hi | @late i hi | @ret i r hi | @panic i hi | @record i r hi =>
    by_cases hk : k = i
    · simp [hk, hi, Invoke.done]
    · simp [hk]

theorem Step.result_iff (h : Step w e w') (k : ℕ) (r : Err) :
    (w'.invoke k).result = some r ↔ (w.invoke k).result = some r ∨ e = .ret k r := by
  cases h with
  | close | wake | snapshot => simp
  | @ret i result hi =>
    by_cases hk : k = i
    · simp [hk, hi, Invoke.result]
    · simp [hk, Ne.symm hk]
  | @first i hi | @repeated i hi | @late i hi | @panic i hi | @record i r hi | @finish i r hi
  | @unwind i hi =>
    by_cases hk : k = i
    · simp [hk, hi, Invoke.result]
    · simp [hk]

theorem Step.begun (h : Step w e w') (k : ℕ) :
    w'.invoke k ≠ .idle → w.invoke k ≠ .idle ∨ e.entered = some k := by
  cases h with
  | close | wake | snapshot => simp +contextual
  | @first i hi | @repeated i hi | @late i hi =>
    by_cases hk : k = i
    · simp [hk, Event.entered]
    · simp +contextual [hk]
  | @ret i r hi | @panic i hi | @record i r hi | @finish i r hi | @unwind i hi =>
    by_cases hk : k = i
    · simp [hk, hi]
    · simp +contextual [hk]

theorem Step.finish_pre {i : ℕ} (h : Step w (.finish i) w') : (w.invoke i).active := by
  cases h with
  | finish hi => simp [hi, Invoke.active]
  | unwind hi => simp [hi, Invoke.active]

theorem Step.ret_pre {i : ℕ} {r : Err} (h : Step w (.ret i r) w') : (w.invoke i).active := by
  cases h with
  | ret hi => simp [hi, Invoke.active]

end Effects

theorem entered_snoc (es : List Event) (e : Event) :
    (entered (es ++ [e])).length = (entered es).length + e.entered.toList.length := by
  cases he : e.entered <;> simp [entered, he]

theorem Event.entered_of_closes {e : Event} (h : e.closes) : e.entered = none := by
  cases e <;> simp_all [Event.closes, Event.entered]

section Traces

variable {es : List Event} {w w' : World} {e : Event} {holder : Option ℕ}

theorem begun_step (ht : Traced es w) (h : Step w e w') (i : ℕ) (hi : w'.invoke i ≠ .idle) :
    i ∈ entered (es ++ [e]) := by
  rw [entered, List.filterMap_append, List.mem_append]
  rcases h.begun i hi with hi | he
  · exact .inl (ht.begun i hi)
  · simp [he]

/-- An event after the close. -/
theorem traced_step_closed (hw : Agree w holder) (ht : Traced es w) (h : Step w e w')
    (hc : es.any Event.closes) : Traced (es ++ [e]) w' := by
  have hcw : w.guard.closed = true := by rw [ht.closed, hc]
  have hwin := window_snoc_closed (e := e) hc
  constructor
  · simp [h.closed_eq, hcw, hc]
  · simp [h.calls_eq, hcw, hwin, ht.calls]
  · have hle := entered_window_le es
    rw [h.late_iff, ht.late, hwin, entered_snoc]
    cases he : e.entered with
    | none => simp
    | some i =>
      simp [hcw]
      omega
  · intro i
    rw [List.mem_append, ht.finished, List.mem_singleton, h.done_iff, eq_comm (a := e)]
  · intro i r
    rw [List.mem_append, ht.result, List.mem_singleton, h.result_iff, eq_comm (a := e)]
  · rw [hwin, ht.inTime]
    by_cases hf : w.guard.inFlight = true
    · have hx : w.guard.escaped = true := hw.escaped hcw hf
      have hx' : w'.guard.escaped = true := h.escaped_iff.mpr (.inl hx)
      simp [hx, hx']
    · have hx : w'.guard.escaped = w.guard.escaped := by
        rw [Bool.eq_iff_iff, h.escaped_iff]
        simp [hf]
      have hd : w'.guard.completed ↔ w.guard.completed := by
        rw [h.completed_iff]
        refine or_iff_left ?_
        rintro ⟨i, rfl⟩
        exact hf (hw.inFlight_of_active h.finish_pre)
      rw [hx, hd]
  · intro i r hr hf
    rw [hwin] at hf ⊢
    rcases List.mem_append.mp hr with hr | hr
    · exact ht.early i r hr hf
    · obtain rfl := List.mem_singleton.mp hr
      have hdone := (ht.finished i).mp (mem_of_mem_window hf)
      have hactive := h.ret_pre
      simp [Invoke.not_active_of_done hdone] at hactive
  · rw [h.closed_eq, hcw]
    simp
  · exact begun_step ht h

/-- An event before the close, or the close. -/
theorem traced_step_open (hw : Agree w holder) (ht : Traced es w) (h : Step w e w')
    (hc : es.any Event.closes = false) : Traced (es ++ [e]) w' := by
  have hcw : w.guard.closed = false := by rw [ht.closed, hc]
  have hx : w.guard.escaped = false := by
    by_contra hx
    simp [ht.escaped (by simpa using hx)] at hcw
  have hlate : w'.guard.late = false := by
    have hl : ¬ w.guard.late := by simp [ht.late, window_open hc]
    have hl' : ¬ w'.guard.late := by simpa [h.late_iff, hcw] using hl
    simpa using hl'
  have hwin : window (es ++ [e]) = if e.closes then es else es ++ [e] := by
    by_cases he : e.closes
    · simp [he, window_snoc_closing hc he]
    · exact (window_open (by simpa [hc] using he)).trans (by simp [he])
  have hlen : (entered (window (es ++ [e]))).length = (entered (es ++ [e])).length := by
    rw [hwin]
    by_cases he : e.closes
    · simp [he, entered_snoc, Event.entered_of_closes he]
    · simp [he]
  constructor
  · simp [h.closed_eq, hcw, hc]
  · rw [h.calls_eq, ht.calls, window_open hc, hlen, entered_snoc, hcw]
    simp
  · simp [hlate, hlen]
  · intro i
    rw [List.mem_append, ht.finished, List.mem_singleton, h.done_iff, eq_comm (a := e)]
  · intro i r
    rw [List.mem_append, ht.result, List.mem_singleton, h.result_iff, eq_comm (a := e)]
  · have hin := ht.inTime
    rw [window_open hc, hx] at hin
    by_cases he : e.closes
    · have hd : w'.guard.completed ↔ w.guard.completed := by
        rw [h.completed_iff]
        refine or_iff_left ?_
        rintro ⟨i, rfl⟩
        simp [Event.closes] at he
      have hx' : w'.guard.escaped = w.guard.inFlight := by
        rw [Bool.eq_iff_iff, h.escaped_iff]
        simp [hx, he]
      rw [hwin, if_pos he, hin, hd, hx']
      refine and_congr_right fun hdone => ?_
      simp [hw.not_inFlight hdone]
    · have hx' : w'.guard.escaped = false := by
        have hn : ¬ w'.guard.escaped := by simp [h.escaped_iff, hx, he]
        simpa using hn
      rw [hwin, if_neg he, hx', h.completed_iff, and_iff_left rfl]
      rw [and_iff_left rfl] at hin
      simp [← hin, exists_or, eq_comm (a := e)]
  · intro i r hr hf
    rw [hwin] at hf ⊢
    by_cases he : e.closes
    · have hne : Event.ret i r ≠ e := by
        rintro rfl
        simp [Event.closes] at he
      simpa [he, hne] using hr
    · simpa [he] using hr
  · rw [h.escaped_iff, h.closed_eq, hx]
    simp +contextual
  · exact begun_step ht h

theorem traced_step (hw : Agree w holder) (ht : Traced es w) (h : Step w e w') :
    Traced (es ++ [e]) w' := by
  by_cases hc : es.any Event.closes
  · exact traced_step_closed hw ht h hc
  · exact traced_step_open hw ht h (by simpa using hc)

end Traces

theorem traced_run {es : List Event} {w : World} (h : Run es w) :
    (∃ holder, Agree w holder) ∧ Traced es w :=
  run_induction (P := fun es w => (∃ holder, Agree w holder) ∧ Traced es w)
    ⟨⟨none, agree_init⟩, traced_init⟩
    (fun _ _ _ _ ⟨⟨_, hw⟩, ht⟩ hs =>
      ⟨agree_step hw (step_cases hs), traced_step hw ht (step_cases hs)⟩) h

/-! ### What a snapshot says -/

/-- Exactly one `Invoke` was made, and its operation had returned and its deferred section was over
before the close. -/
def ReturnedInTime (es : List Event) : Prop :=
  ∃ i r, entered es = [i] ∧ .ret i r ∈ window es ∧ .finish i ∈ window es

theorem Invoke.result_of_seen {c : Invoke} {r : Err} (h : c.seen = some r) :
    c.result = some r := by
  cases c with
  | recorded result => exact h
  | exited exit => cases exit <;> exact h
  | _ => simp [Invoke.seen] at h

theorem Invoke.seen_of_done {c : Invoke} (hd : c.done) : c.seen = c.result := by
  cases c with
  | exited exit => cases exit <;> rfl
  | _ => simp [Invoke.done] at hd

theorem Invoke.admitted_of_done {c : Invoke} (hd : c.done) : c.admitted := by
  cases c with
  | exited exit => cases exit <;> first | rfl | simp [Invoke.done] at hd
  | _ => simp [Invoke.done] at hd

theorem outcome_returned_iff {s : ExactlyOnce} : s.outcome = .returned ↔
    s.closed ∧ s.calls = 1 ∧ s.inFlight = false ∧ s.completed ∧ s.repeated = false ∧
      s.late = false ∧ s.escaped = false ∧ s.returned := by
  unfold ExactlyOnce.outcome
  split
  · next h =>
    simp only [Bool.and_eq_true, beq_iff_eq] at h
    simp [h.1.1.1.1.1.1.1.2]
  · split
    · next h =>
      simp only [Bool.and_eq_true, beq_iff_eq, Bool.not_eq_true'] at h
      obtain ⟨⟨⟨⟨⟨⟨h1, h2⟩, h3⟩, h4⟩, h5⟩, h6⟩, h7⟩ := h
      by_cases hr : s.returned
      · simp [*]
      · by_cases hn : s.result == .nil <;> simp [hr, hn]
    · next h =>
      simp only [Bool.and_eq_true, beq_iff_eq, Bool.not_eq_true'] at h
      simp only [reduceCtorEq, false_iff]
      rintro ⟨h1, h2, h3, h4, h5, h6, h7, -⟩
      exact h ⟨⟨⟨⟨⟨⟨h1, h2⟩, h3⟩, h4⟩, h5⟩, h6⟩, h7⟩

section Snapshot

variable {es : List Event} {w : World} {holder : Option ℕ} {j : ℕ}

theorem returnedInTime_of_outcome (hw : Agree w holder) (ht : Traced es w)
    (h : w.guard.outcome = .returned) : ReturnedInTime es := by
  obtain ⟨hclosed, hcalls, hflight, hcompleted, hrepeated, hlate, hescaped, hreturned⟩ :=
    outcome_returned_iff.mp h
  obtain ⟨i, hi⟩ := ht.inTime.mpr ⟨hcompleted, hescaped⟩
  have hdone : (w.invoke i).done := (ht.finished i).mp (mem_of_mem_window hi)
  have hh : holder = some i := (hw.admitted i).mp (Invoke.admitted_of_done hdone)
  have hseen : (w.invoke i).seen.isSome := by
    have hr := hw.flags.returned
    rw [hreturned, hh] at hr
    exact hr.symm
  obtain ⟨r, hr⟩ := Option.isSome_iff_exists.mp hseen
  have hret : .ret i r ∈ es := (ht.result i r).mpr (Invoke.result_of_seen hr)
  have hlen : (entered es).length = 1 := by
    have hle := entered_window_le es
    have hnot : ¬ (entered (window es)).length < (entered es).length := by
      rw [← ht.late, hlate]
      simp
    have hone := ht.calls
    omega
  have hmem : i ∈ entered es := by
    refine ht.begun i fun hidle => ?_
    simp [hidle, Invoke.done] at hdone
  obtain ⟨k, hk⟩ := List.length_eq_one_iff.mp hlen
  rw [hk, List.mem_singleton] at hmem
  exact ⟨i, r, by rw [hk, hmem], ht.early i r hret hi, hi⟩

theorem outcome_of_returnedInTime (hw : Agree w holder) (ht : Traced es w)
    (hj : w.closer j = .settled) (h : ReturnedInTime es) : w.guard.outcome = .returned := by
  obtain ⟨i, r, henter, hret, hfinish⟩ := h
  obtain ⟨hcompleted, hescaped⟩ := ht.inTime.mp ⟨i, hfinish⟩
  have hdone : (w.invoke i).done := (ht.finished i).mp (mem_of_mem_window hfinish)
  have hresult : (w.invoke i).result = some r := (ht.result i r).mp (mem_of_mem_window hret)
  have hh : holder = some i := (hw.admitted i).mp (Invoke.admitted_of_done hdone)
  have hcalls : w.guard.calls = 1 := by
    have hle := entered_window_le es
    have hne : w.guard.calls ≠ 0 := by simp [hw.calls, hh]
    have hlen : (entered es).length = 1 := by simp [henter]
    have := ht.calls
    omega
  have hrepeated : ¬ w.guard.repeated := by
    rw [hw.repeated]
    omega
  have hlate : ¬ w.guard.late := by
    rw [ht.late, ← ht.calls, hcalls, henter]
    simp
  have hreturned : w.guard.returned = true := by
    rw [hw.flags.returned, hh]
    simp [Invoke.seen_of_done hdone, hresult]
  refine outcome_returned_iff.mpr ⟨hw.closing j (by simp [hj]), hcalls,
    hw.settled j (by simp [hj]) (by simp [hj]), hcompleted, by simpa using hrepeated,
    by simpa using hlate, hescaped, hreturned⟩

end Snapshot

/-! ### Every interleaving -/

/-- A call that is over stays as it is. -/
theorem Step.over_invoke {w w' : World} {e : Event} {i : ℕ} {exit : Exit} (h : Step w e w')
    (hi : w.invoke i = .exited exit) : w'.invoke i = .exited exit := by
  cases h with
  | close | wake | snapshot => simpa using hi
  | @first k hk | @repeated k hk | @late k hk | @ret k r hk | @panic k hk | @record k r hk
  | @finish k r hk | @unwind k hk =>
    have hne : i ≠ k := by
      rintro rfl
      simp [hk] at hi
    simpa [hne] using hi

/-- An `Invoke` that is not the first, or begins after the close, is refused at once. -/
theorem refused_of_enter {before after : List Event} {i : ℕ} {w : World}
    (h : Run (before ++ .enter i :: after) w)
    (hrefuse : before.any Event.closes ∨ entered before ≠ []) :
    w.invoke i = .exited (.refused (.sentinel
      (if before.any Event.closes then .closedInvocation else .repeatedInvocation))) := by
  obtain ⟨m, m', hm, hstep, hrest⟩ := run_split h
  have hs := step_cases hstep
  obtain ⟨⟨holder, hw⟩, ht⟩ := traced_run hm
  have hover : m'.invoke i = .exited (.refused (.sentinel
      (if before.any Event.closes then .closedInvocation else .repeatedInvocation))) := by
    rw [← ht.closed]
    cases hs with
    | first hi hc h0 =>
      have hopen : before.any Event.closes = false := by rw [← ht.closed, hc]
      have hcalls := ht.calls
      rw [window_open hopen, h0] at hcalls
      rcases hrefuse with hr | hr
      · simp [hr] at hopen
      · exact absurd (List.length_eq_zero_iff.mp hcalls.symm) hr
    | repeated hi hc h1 => simp [hc]
    | late hi hc => simp [hc]
  exact run_induction (P := fun _ w => w.invoke i = _) hover
    (fun _ _ _ _ hk hs => (step_cases hs).over_invoke hk) hrest

/-- A `CloseAndWait` that is over took its snapshot at some point. -/
theorem snapshot_of_over {es : List Event} {w : World} {j : ℕ} {s : ExactlyOnce} (h : Run es w)
    (hj : w.closer j = .exited s) :
    ∃ before after m, es = before ++ .snapshot j :: after ∧ Run before m ∧
      m.closer j = .settled ∧ s = m.guard := by
  induction es using List.reverseRecOn generalizing w with
  | nil =>
    cases h
    simp [World.init] at hj
  | append_singleton es e ih =>
    obtain ⟨m, hm, hs⟩ := run_snoc h
    by_cases hjm : m.closer j = .exited s
    · obtain ⟨before, after, n, rfl, hn⟩ := ih hm hjm
      exact ⟨before, after ++ [e], n, by simp, hn⟩
    · have hcase : e = .snapshot j ∧ m.closer j = .settled ∧ s = m.guard := by
        cases step_cases hs with
        | @snapshot k hk =>
          by_cases hjk : j = k
          · subst hjk
            simp only [wait_closer, if_true, Closer.exited.injEq] at hj
            exact ⟨rfl, hk, hj.symm⟩
          · exact absurd (by simpa [hjk] using hj) hjm
        | @close k hk =>
          by_cases hjk : j = k
          · subst hjk
            by_cases hf : m.guard.inFlight <;> simp [hf] at hj
          · exact absurd (by simpa [hjk] using hj) hjm
        | @wake k hk =>
          by_cases hjk : j = k
          · simp [hjk] at hj
          · exact absurd (by simpa [hjk] using hj) hjm
        | _ => exact absurd (by simpa using hj) hjm
      obtain ⟨rfl, hset, hsnap⟩ := hcase
      exact ⟨es, [], m, rfl, hm, hset, hsnap⟩

/-- **The exactly-once guard, over every interleaving.** The operation is started at most once; when
a `CloseAndWait` has returned no `Invoke` is under way, then or later, and its snapshot says
`Returned` exactly when one `Invoke` had been made whose operation returned and whose deferred
section was over before the close; an `Invoke` after another or after the close is refused with the
error of the contract. -/
theorem guard_interleavings {es : List Event} {w : World} (h : Run es w) :
    w.ran ≤ 1 ∧
    (∀ j s, w.closer j = .exited s →
      (∀ i, (w.invoke i).active = false) ∧
      ∃ before after, es = before ++ .snapshot j :: after ∧
        (s.outcome = .returned ↔ ReturnedInTime before)) ∧
    (∀ before after i, es = before ++ .enter i :: after →
      before.any Event.closes ∨ entered before ≠ [] →
      w.invoke i = .exited (.refused (.sentinel
        (if before.any Event.closes then .closedInvocation else .repeatedInvocation)))) := by
  obtain ⟨⟨holder, hw⟩, -⟩ := traced_run h
  refine ⟨?_, fun j s hj => ⟨fun i => ?_, ?_⟩, ?_⟩
  · rw [hw.ran]
    cases holder <;> simp
  · by_contra hi
    have hflight := hw.inFlight_of_active (by simpa using hi)
    simp [hw.settled j (by simp [hj]) (by simp [hj])] at hflight
  · obtain ⟨before, after, m, rfl, hm, hset, rfl⟩ := snapshot_of_over h hj
    obtain ⟨⟨holder', hw'⟩, ht'⟩ := traced_run hm
    exact ⟨before, after, rfl, returnedInTime_of_outcome hw' ht',
      outcome_of_returnedInTime hw' ht' hset⟩
  · rintro before after i rfl hrefuse
    exact refused_of_enter h hrefuse

/-- A second call is refused while the first runs, a third after the close. -/
theorem guard_interleavings_repeated :
    ∃ w, Run [.enter 0, .enter 1, .ret 0 .nil, .record 0, .finish 0, .close 0, .snapshot 0,
        .enter 2] w ∧
      w.ran ≤ 1 ∧ w.invoke 1 = .exited (.refused (.sentinel .repeatedInvocation)) ∧
      w.invoke 2 = .exited (.refused (.sentinel .closedInvocation)) := by
  obtain ⟨w, hw⟩ : ∃ w, Run [.enter 0, .enter 1, .ret 0 .nil, .record 0, .finish 0, .close 0,
    .snapshot 0, .enter 2] w := ⟨_, rfl⟩
  have h := guard_interleavings hw
  refine ⟨w, hw, h.1, ?_, ?_⟩
  · exact h.2.2 [.enter 0] [.ret 0 .nil, .record 0, .finish 0, .close 0, .snapshot 0, .enter 2] 1
      rfl (.inr (by decide))
  · exact h.2.2 [.enter 0, .enter 1, .ret 0 .nil, .record 0, .finish 0, .close 0, .snapshot 0] [] 2
      rfl (.inl (by decide))

/-- The operation has returned before the close, and the snapshot still does not say `Returned`: the
close came between the return and the deferred section, so the call had escaped. -/
theorem returned_before_close_escaped :
    ∃ w s, Run ([.enter 0, .ret 0 .nil, .close 0, .record 0, .finish 0, .wake 0] ++
        [.snapshot 0]) w ∧
      w.closer 0 = .exited s ∧
      ¬ (s.outcome = .returned ↔
        ∃ i r, entered [.enter 0, .ret 0 .nil, .close 0, .record 0, .finish 0, .wake 0] = [i] ∧
          .ret i r ∈ window [.enter 0, .ret 0 .nil, .close 0, .record 0, .finish 0, .wake 0]) := by
  refine ⟨_, _, rfl, rfl, fun h => ?_⟩
  have hreturned := h.mpr ⟨0, .nil, rfl, by decide⟩
  exact absurd hreturned (by decide)

end Modary.Runtime.Guard
