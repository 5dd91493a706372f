import Mathlib.Data.Finset.Dedup
import Mathlib.Data.Finset.Erase
import Mathlib.Data.Finset.Insert
import Mathlib.Tactic.IntervalCases
import Mathlib.Tactic.SplitIfs
import Modary.Lib.Machine
import Modary.Lib.Slots

/-! # HTTP connections

The `connectionTracker` of `appcmd`. The server reports the state of its connections, owners of
hijacked connections close them, the shutdown closes what is still hijacked, and waits until nothing
is left. All of them meet at the lock of the tracker, and connections are closed outside of it. -/

namespace Modary.App.Connections

open Modary.Lib.Machine Modary.Lib.Slots

/-! ### The tracker -/

/-- `http.ConnState`. -/
inductive ConnState
  | new
  | active
  | idle
  | hijacked
  | closed
  deriving DecidableEq, Repr

/-- How the `Close` of a connection ends. -/
inductive CloseEnd
  | succeeded
  | alreadyClosed
  | failed
  | panicked
  deriving DecidableEq, Repr

inductive CloseError
  | failed
  | panicked
  deriving DecidableEq, Repr

/-- `closeConnection`: its error. -/
def closeConnection : CloseEnd → Option CloseError
  | .succeeded => none
  | .alreadyClosed => none
  | .failed => some .failed
  | .panicked => some .panicked

/-- `connectionTracker`, with all channels so far; a channel is closed or not. -/
structure Tracker where
  active : Finset ℕ
  hijacked : Finset ℕ
  channels : List Bool
  changed : ℕ
  closing : Bool
  errs : List CloseError

/-- `newConnectionTracker`. -/
def newConnectionTracker : Tracker := ⟨∅, ∅, [false], 0, false, []⟩

/-- `notifyLocked`; to close a channel twice is a panic. -/
def Tracker.notifyLocked (tracker : Tracker) : Option Tracker :=
  if tracker.channels[tracker.changed]? = some false then
    some { tracker with
      channels := tracker.channels.set tracker.changed true ++ [false]
      changed := tracker.channels.length }
  else none

/-- No connection is tracked. -/
def Tracker.Empty (tracker : Tracker) : Prop := tracker.active = ∅ ∧ tracker.hijacked = ∅

instance (tracker : Tracker) : Decidable tracker.Empty := inferInstanceAs (Decidable (_ ∧ _))

/-! ### Connections, and who closes them -/

/-- A connection: whether it is a `trackedConnection`, the state that was last reported, and whether
a `Close` of it was invoked, and completed. -/
structure Connection where
  tracked : Bool
  state : Option ConnState
  invoked : Bool
  completed : Bool
  deriving DecidableEq, Repr

/-- Where a goroutine that closes connections stands: between two of them, in the `Close` of one,
behind it with its error, or before it forgets the connection. -/
inductive Stage
  | between
  | closing (connection : ℕ)
  | attempted (connection : ℕ) (err : Option CloseError)
  | recorded (connection : ℕ)
  deriving DecidableEq, Repr

/-- A goroutine that closes connections: an owner, or the tracker with those that it took out of its
sets. -/
structure Closer where
  byTracker : Bool
  queue : List ℕ
  stage : Stage
  deriving DecidableEq, Repr

/-- A goroutine in `wait`. -/
inductive Waiter
  | looking
  | parked (channel : ℕ)
  | stopped
  | timedOut
  deriving DecidableEq, Repr

structure State where
  tracker : Tracker
  connections : List Connection
  closers : List Closer
  waiters : List Waiter
  panicked : Bool

def start : State := ⟨newConnectionTracker, [], [], [], false⟩

/-! ### Steps -/

/-- The tracker with other sets, and a notification of the change. -/
def State.notify (s : State) (tracker : Tracker) : State :=
  match tracker.notifyLocked with
  | some tracker => { s with tracker := tracker }
  | none => { s with panicked := true }

/-- A goroutine of the tracker that closes connections. -/
def State.spawn (s : State) (queue : List ℕ) : State :=
  { s with closers := s.closers ++ [⟨true, queue, .between⟩] }

/-- `observe`. -/
def State.observe (s : State) (c : ℕ) : ConnState → State
  | .new => s.notify { s.tracker with active := insert c s.tracker.active }
  | .closed => s.notify { s.tracker with
      active := s.tracker.active.erase c
      hijacked := s.tracker.hijacked.erase c }
  | .hijacked =>
    if s.tracker.closing = false then
      s.notify { s.tracker with
        active := s.tracker.active.erase c
        hijacked := insert c s.tracker.hijacked }
    else (s.notify { s.tracker with active := s.tracker.active.erase c }).spawn [c]
  | _ => s

/-- `closeHijacked`, which ranges over the hijacked connections in some order. -/
def State.closeHijacked (s : State) (order : List ℕ) : State :=
  (s.notify { s.tracker with closing := true, hijacked := ∅ }).spawn order

/-- `forget`. -/
def State.forget (s : State) (c : ℕ) : State :=
  if c ∈ s.tracker.hijacked then
    s.notify { s.tracker with hijacked := s.tracker.hijacked.erase c }
  else s

/-- What the server may report of a connection after what it last reported: it is new first, and
nothing follows once it is hijacked or closed. -/
def mayFollow : Option ConnState → ConnState → Bool
  | none, state => state = .new
  | some .hijacked, _ => false
  | some .closed, _ => false
  | some _, state => state ≠ .new

def State.update (s : State) (c : ℕ) (f : Connection → Connection) : State :=
  { s with connections := s.connections.modify c f }

def State.put (s : State) (i : ℕ) (closer : Closer) : State :=
  { s with closers := s.closers.set i closer }

/-- The next step of a goroutine that closes connections: `close` of the tracker, which records the
error of a connection that does not do so itself, and `Close` of a `trackedConnection`. -/
def State.close (s : State) (i : ℕ) (closer : Closer) (ended : CloseEnd) : Option State :=
  match closer.stage with
  | .between =>
    match closer.queue with
    | [] => none
    | c :: rest => some ((s.update c fun connection => { connection with invoked := true }).put i
        { closer with queue := rest, stage := .closing c })
  | .closing c => some ((s.update c fun connection => { connection with completed := true }).put i
      { closer with stage := .attempted c (closeConnection ended) })
  | .attempted c err => (s.connections[c]?).map fun connection =>
      let recorded : State := if connection.tracked || closer.byTracker then
        { s with tracker := { s.tracker with errs := s.tracker.errs ++ err.toList } } else s
      recorded.put i { closer with stage := if connection.tracked then .recorded c else .between }
  | .recorded c => some ((s.forget c).put i { closer with stage := .between })

/-- What happens next: a connection is accepted, reported, closed by its owner or by the shutdown; a
closing goroutine makes a step; a wait begins, looks at the sets, is notified, or times out. -/
inductive Event
  | accept (tracked : Bool)
  | observe (c : ℕ) (state : ConnState)
  | ownerClose (c : ℕ)
  | closeHijacked (order : List ℕ)
  | close (i : ℕ) (ended : CloseEnd)
  | wait
  | look (i : ℕ)
  | notified (i : ℕ)
  | timeout (i : ℕ)

/-- One turn of the loop of `wait`. -/
def State.look (s : State) (i : ℕ) : State :=
  let waiter := if s.tracker.Empty then .stopped else .parked s.tracker.changed
  { s with waiters := s.waiters.set i waiter }

def step (s : State) (e : Event) : Option State :=
  if s.panicked then none
  else
    match e with
    | .accept tracked =>
      some { s with connections := s.connections ++ [⟨tracked, none, false, false⟩] }
    | .observe c state => (s.connections[c]?).bind fun connection =>
        if mayFollow connection.state state then
          some ((s.update c fun connection => { connection with state := some state }).observe c state)
        else none
    | .ownerClose c => (s.connections[c]?).map fun _ =>
        { s with closers := s.closers ++ [⟨false, [c], .between⟩] }
    | .closeHijacked order =>
      if order.Nodup ∧ order.toFinset = s.tracker.hijacked then some (s.closeHijacked order) else none
    | .close i ended => (s.closers[i]?).bind fun closer => s.close i closer ended
    | .wait => some { s with waiters := s.waiters ++ [.looking] }
    | .look i => if s.waiters[i]? = some .looking then some (s.look i) else none
    | .notified i => (s.waiters[i]?).bind fun waiter =>
        match waiter with
        | .parked k =>
          if s.tracker.channels[k]? = some true then
            some { s with waiters := s.waiters.set i .looking }
          else none
        | _ => none
    | .timeout i => (s.waiters[i]?).bind fun waiter =>
        match waiter with
        | .parked _ => some { s with waiters := s.waiters.set i .timedOut }
        | _ => none

/-! ### Channels -/

/-- The channels of a state: all but the current one are closed, and a wait on the current one has
seen a connection that is still tracked. -/
structure Notified (s : State) : Prop where
  calm : s.panicked = false
  current : s.tracker.channels[s.tracker.changed]? = some false
  older : ∀ k, s.tracker.channels[k]? = some false → k = s.tracker.changed
  parked : ∀ k, Waiter.parked k ∈ s.waiters →
    s.tracker.channels[k]? = some true ∨ k = s.tracker.changed ∧ ¬ s.tracker.Empty

theorem notified_start : Notified start := by
  refine ⟨rfl, rfl, ?_, ?_⟩
  · intro k hk
    cases k with
    | zero => rfl
    | succ k => cases hk
  · intro k hk
    cases hk

variable {s t : State} {tracker : Tracker}

/-- The channels of a tracker after a notification. -/
theorem notifyLocked_eq (hcurrent : tracker.channels[tracker.changed]? = some false) :
    tracker.notifyLocked = some { tracker with
      channels := tracker.channels.set tracker.changed true ++ [false]
      changed := tracker.channels.length } := if_pos hcurrent

theorem notify_eq (h : Notified s) (hchannels : tracker.channels = s.tracker.channels)
    (hchanged : tracker.changed = s.tracker.changed) :
    s.notify tracker = { s with tracker := { tracker with
      channels := s.tracker.channels.set s.tracker.changed true ++ [false]
      changed := s.tracker.channels.length } } := by
  have hcurrent : tracker.channels[tracker.changed]? = some false := by
    rw [hchannels, hchanged]
    exact h.current
  rw [State.notify, notifyLocked_eq hcurrent, hchannels, hchanged]

theorem notify_fields (h : Notified s) (hchannels : tracker.channels = s.tracker.channels)
    (hchanged : tracker.changed = s.tracker.changed) :
    (s.notify tracker).connections = s.connections ∧ (s.notify tracker).closers = s.closers ∧
      (s.notify tracker).tracker.active = tracker.active ∧
      (s.notify tracker).tracker.hijacked = tracker.hijacked ∧
      (s.notify tracker).tracker.closing = tracker.closing := by
  rw [notify_eq h hchannels hchanged]
  exact ⟨rfl, rfl, rfl, rfl, rfl⟩

/-- Closed channels stay closed, and the current one is closed. -/
theorem closed_notify (h : Notified s) {k : ℕ}
    (hk : s.tracker.channels[k]? = some true ∨ k = s.tracker.changed) :
    (s.tracker.channels.set s.tracker.changed true ++ [false])[k]? = some true := by
  have hlt : s.tracker.changed < s.tracker.channels.length :=
    (List.getElem?_eq_some_iff.mp h.current).1
  rcases hk with hk | rfl
  · have hklt : k < s.tracker.channels.length := (List.getElem?_eq_some_iff.mp hk).1
    have hne : s.tracker.changed ≠ k := by
      rintro rfl
      rw [h.current] at hk
      cases hk
    rw [List.getElem?_append_left (by rw [List.length_set]; exact hklt), List.getElem?_set_ne hne]
    exact hk
  · rw [List.getElem?_append_left (by rw [List.length_set]; exact hlt), List.getElem?_set_self hlt]

theorem Notified.notify (h : Notified s) (hchannels : tracker.channels = s.tracker.channels)
    (hchanged : tracker.changed = s.tracker.changed) : Notified (s.notify tracker) := by
  rw [notify_eq h hchannels hchanged]
  refine ⟨h.calm, ?_, ?_, ?_⟩
  · show (s.tracker.channels.set s.tracker.changed true ++ [false])[s.tracker.channels.length]? = _
    rw [List.getElem?_append_right (by rw [List.length_set]), List.length_set, Nat.sub_self]
    rfl
  · intro k hk
    have hk : (s.tracker.channels.set s.tracker.changed true ++ [false])[k]? = some false := hk
    show k = s.tracker.channels.length
    have hlt := (List.getElem?_eq_some_iff.mp hk).1
    rw [List.length_append, List.length_set, List.length_singleton] at hlt
    by_contra hne
    rw [List.getElem?_append_left (by rw [List.length_set]; omega)] at hk
    by_cases hcurrent : s.tracker.changed = k
    · subst hcurrent
      rw [List.getElem?_set_self (by omega)] at hk
      cases hk
    · rw [List.getElem?_set_ne hcurrent] at hk
      exact hcurrent (h.older k hk).symm
  · intro k hk
    refine .inl (closed_notify h ?_)
    rcases h.parked k hk with hclosed | ⟨hcurrent, -⟩
    · exact .inl hclosed
    · exact .inr hcurrent

/-- Steps that leave the sets and the waiting goroutines alone. -/
theorem Notified.congr (h : Notified s) (hactive : t.tracker.active = s.tracker.active)
    (hhijacked : t.tracker.hijacked = s.tracker.hijacked)
    (hchannels : t.tracker.channels = s.tracker.channels)
    (hchanged : t.tracker.changed = s.tracker.changed) (hwaiters : t.waiters = s.waiters)
    (hpanicked : t.panicked = s.panicked) : Notified t := by
  refine ⟨?_, ?_, ?_, ?_⟩
  · rw [hpanicked]
    exact h.calm
  · rw [hchannels, hchanged]
    exact h.current
  · rw [hchannels, hchanged]
    exact h.older
  · rw [hchannels, hchanged, hwaiters, Tracker.Empty, hactive, hhijacked]
    exact h.parked

/-- Waiting goroutines that move on; one that waits has seen what is there now. -/
theorem Notified.waiters (h : Notified s) {waiters : List Waiter}
    (hparked : ∀ k, Waiter.parked k ∈ waiters →
      Waiter.parked k ∈ s.waiters ∨ k = s.tracker.changed ∧ ¬ s.tracker.Empty) :
    Notified { s with waiters := waiters } := by
  refine ⟨h.calm, h.current, h.older, ?_⟩
  intro k hk
  rcases hparked k hk with hold | hnew
  · exact h.parked k hold
  · exact .inr hnew

theorem Notified.observe (h : Notified s) (c : ℕ) (state : ConnState) :
    Notified (s.observe c state) := by
  cases state with
  | new => exact h.notify rfl rfl
  | closed => exact h.notify rfl rfl
  | hijacked =>
    rw [State.observe]
    by_cases hclosing : s.tracker.closing = false
    · rw [if_pos hclosing]
      exact h.notify rfl rfl
    · rw [if_neg hclosing]
      have hnotified : Notified (s.notify { s.tracker with active := s.tracker.active.erase c }) :=
        h.notify rfl rfl
      exact hnotified.congr rfl rfl rfl rfl rfl rfl
  | active => exact h
  | idle => exact h

theorem Notified.forget (h : Notified s) (c : ℕ) : Notified (s.forget c) := by
  unfold State.forget
  split_ifs
  · exact h.notify rfl rfl
  · exact h

theorem Notified.close (h : Notified s) {i : ℕ} {closer : Closer} {ended : CloseEnd}
    (hstep : s.close i closer ended = some t) : Notified t := by
  unfold State.close at hstep
  split at hstep
  · split at hstep
    · cases hstep
    · cases hstep
      exact h.congr rfl rfl rfl rfl rfl rfl
  · cases hstep
    exact h.congr rfl rfl rfl rfl rfl rfl
  · obtain ⟨connection, -, rfl⟩ := Option.map_eq_some_iff.mp hstep
    refine h.congr ?_ ?_ ?_ ?_ ?_ ?_ <;> simp only [State.put] <;> split_ifs <;> rfl
  · next c _ =>
    cases hstep
    exact (h.forget c).congr rfl rfl rfl rfl rfl rfl

/-- A wait that is woken or runs out of time is not parked any more, and nothing else changes. -/
theorem step_woken (i : ℕ) {e : Event} (he : e = .notified i ∨ e = .timeout i)
    (hstep : step s e = some t) :
    ∃ waiter, (∀ k, waiter ≠ .parked k) ∧ t = { s with waiters := s.waiters.set i waiter } := by
  unfold step at hstep
  split at hstep
  · cases hstep
  rcases he with rfl | rfl
  · obtain ⟨waiter, -, hstep⟩ := Option.bind_eq_some_iff.mp hstep
    split at hstep
    · split_ifs at hstep
      exact ⟨.looking, nofun, (Option.some.inj hstep).symm⟩
    · cases hstep
  · obtain ⟨waiter, -, hstep⟩ := Option.bind_eq_some_iff.mp hstep
    split at hstep
    · exact ⟨.timedOut, nofun, (Option.some.inj hstep).symm⟩
    · cases hstep

theorem Notified.step {e : Event} (h : Notified s) (hstep : step s e = some t) : Notified t := by
  have hmoves := hstep
  unfold Connections.step at hstep
  rw [if_neg (by rw [h.calm]; exact Bool.false_ne_true)] at hstep
  cases e with
  | accept tracked =>
    cases hstep
    exact h.congr rfl rfl rfl rfl rfl rfl
  | observe c state =>
    obtain ⟨connection, -, hstep⟩ := Option.bind_eq_some_iff.mp hstep
    split_ifs at hstep
    cases hstep
    exact (h.congr (t := s.update c fun connection => { connection with state := some state })
      rfl rfl rfl rfl rfl rfl).observe c state
  | ownerClose c =>
    obtain ⟨_, -, rfl⟩ := Option.map_eq_some_iff.mp hstep
    exact h.congr rfl rfl rfl rfl rfl rfl
  | closeHijacked order =>
    simp only at hstep
    split_ifs at hstep
    cases hstep
    have hnotified : Notified (s.notify { s.tracker with closing := true, hijacked := ∅ }) :=
      h.notify rfl rfl
    exact hnotified.congr rfl rfl rfl rfl rfl rfl
  | close i ended =>
    obtain ⟨closer, -, hstep⟩ := Option.bind_eq_some_iff.mp hstep
    exact h.close hstep
  | wait =>
    cases hstep
    refine h.waiters fun k hk => .inl ?_
    rw [List.mem_append, List.mem_singleton] at hk
    exact hk.resolve_right fun heq => by cases heq
  | look i =>
    simp only at hstep
    split_ifs at hstep
    cases hstep
    refine h.waiters fun k hk => ?_
    rcases mem_of_mem_set hk with heq | hk
    · by_cases hempty : s.tracker.Empty
      · rw [if_pos hempty] at heq
        cases heq
      · rw [if_neg hempty] at heq
        cases heq
        exact .inr ⟨rfl, hempty⟩
    · exact .inl hk
  | notified i | timeout i =>
    obtain ⟨waiter, hne, rfl⟩ := step_woken i (by simp) hmoves
    exact h.waiters fun k hk => .inl ((mem_of_mem_set hk).resolve_left fun heq => hne k heq.symm)

/-! ### Connections -/

/-- The connections that a goroutine has still to close, and the one that it is closing. -/
def Closer.unfinished (closer : Closer) : List ℕ :=
  match closer.stage with
  | .closing c => c :: closer.queue
  | _ => closer.queue

/-- A connection that was reported, and is neither hijacked nor closed. -/
def Connection.Served (connection : Connection) : Prop :=
  connection.state ≠ none ∧ connection.state ≠ some .hijacked ∧ connection.state ≠ some .closed

/-- A goroutine of the tracker has still to invoke the `Close` of a connection. -/
def State.Queued (s : State) (c : ℕ) : Prop := ∃ closer ∈ s.closers, closer.byTracker ∧ c ∈ closer.queue

/-- A goroutine of the tracker has still to complete the `Close` of a connection. -/
def State.Unfinished (s : State) (c : ℕ) : Prop :=
  ∃ closer ∈ s.closers, closer.byTracker ∧ c ∈ closer.unfinished

/-- Where the connections of a state are: those that are served are active; those that are hijacked
are tracked, or taken out by a goroutine of the tracker that closes them. -/
structure Placed (s : State) : Prop where
  active : ∀ c connection, s.connections[c]? = some connection → connection.Served →
    c ∈ s.tracker.active
  known : ∀ c ∈ s.tracker.hijacked, ∃ connection, s.connections[c]? = some connection ∧
    connection.state = some .hijacked
  closing : s.tracker.closing = true → s.tracker.hijacked = ∅
  unfinished : ∀ c, s.Unfinished c → ∃ connection, s.connections[c]? = some connection ∧
    connection.state = some .hijacked
  queued : ∀ closer ∈ s.closers, ∀ c ∈ closer.queue, c < s.connections.length
  began : ∀ closer ∈ s.closers, ∀ c,
    (closer.stage = .closing c → ∃ connection, s.connections[c]? = some connection ∧
      connection.invoked = true) ∧
    ((∃ err, closer.stage = .attempted c err) ∨ closer.stage = .recorded c →
      ∃ connection, s.connections[c]? = some connection ∧ connection.invoked = true ∧
        connection.completed = true)
  invoked : ∀ c connection, s.connections[c]? = some connection →
    connection.state = some .hijacked →
      c ∈ s.tracker.hijacked ∨ s.Queued c ∨ connection.invoked = true
  completed : ∀ c connection, s.connections[c]? = some connection →
    connection.state = some .hijacked →
      c ∈ s.tracker.hijacked ∨ s.Unfinished c ∨ connection.completed = true

theorem placed_start : Placed start := by
  refine ⟨?_, ?_, ?_, ?_, ?_, ?_, ?_, ?_⟩
  · intro c connection hc
    cases hc
  · intro c hc
    exact absurd hc (Finset.notMem_empty c)
  · intro _
    rfl
  · rintro c ⟨closer, hcloser, -⟩
    cases hcloser
  · intro closer hcloser
    cases hcloser
  · intro closer hcloser
    cases hcloser
  · intro c connection hc
    cases hc
  · intro c connection hc
    cases hc

/-- Steps that leave the connections and what is done with them alone. -/
theorem Placed.congr (h : Placed s) (hactive : t.tracker.active = s.tracker.active)
    (hhijacked : t.tracker.hijacked = s.tracker.hijacked)
    (hclosing : t.tracker.closing = s.tracker.closing) (hconnections : t.connections = s.connections)
    (hclosers : t.closers = s.closers) : Placed t := by
  have hqueued : t.Queued = s.Queued := by
    unfold State.Queued
    rw [hclosers]
  have hunfinished : t.Unfinished = s.Unfinished := by
    unfold State.Unfinished
    rw [hclosers]
  refine ⟨?_, ?_, ?_, ?_, ?_, ?_, ?_, ?_⟩
  · rw [hconnections, hactive]
    exact h.active
  · rw [hconnections, hhijacked]
    exact h.known
  · rw [hclosing, hhijacked]
    exact h.closing
  · rw [hconnections, hunfinished]
    exact h.unfinished
  · rw [hconnections, hclosers]
    exact h.queued
  · rw [hconnections, hclosers]
    exact h.began
  · rw [hconnections, hhijacked, hqueued]
    exact h.invoked
  · rw [hconnections, hhijacked, hunfinished]
    exact h.completed

theorem Placed.notify (hn : Notified s) (hchannels : tracker.channels = s.tracker.channels)
    (hchanged : tracker.changed = s.tracker.changed) (h : Placed { s with tracker := tracker }) :
    Placed (s.notify tracker) := by
  rw [notify_eq hn hchannels hchanged]
  exact h.congr rfl rfl rfl rfl rfl

theorem Placed.notify_spawn (hn : Notified s) (hchannels : tracker.channels = s.tracker.channels)
    (hchanged : tracker.changed = s.tracker.changed) {queue : List ℕ}
    (h : Placed (State.spawn { s with tracker := tracker } queue)) :
    Placed ((s.notify tracker).spawn queue) := by
  rw [notify_eq hn hchannels hchanged]
  exact h.congr rfl rfl rfl rfl rfl

/-! #### A report -/

theorem getElem?_update (s : State) (c : ℕ) (f : Connection → Connection) (k : ℕ) :
    (s.update c f).connections[k]? = if c = k then (s.connections[k]?).map f else s.connections[k]? := by
  rw [State.update, List.getElem?_modify]
  split_ifs
  · rfl
  · cases s.connections[k]? <;> rfl

/-- A connection is reported in a new state, and the tracker moves it and no other. -/
theorem Placed.report (h : Placed s) {c : ℕ} {connection : Connection} {state : ConnState}
    (hc : s.connections[c]? = some connection) (hfree : connection.state ≠ some .hijacked)
    (hconnections : t.connections = (s.update c fun old => { old with state := some state }).connections)
    (hactive : ∀ k ≠ c, k ∈ s.tracker.active → k ∈ t.tracker.active)
    (hserved : state ≠ .hijacked → state ≠ .closed → c ∈ t.tracker.active)
    (hhijacked : ∀ k ≠ c, k ∈ t.tracker.hijacked ↔ k ∈ s.tracker.hijacked)
    (hself : c ∈ t.tracker.hijacked → state = .hijacked)
    (hclosing : t.tracker.closing = true → t.tracker.hijacked = ∅)
    (hclosers : t.closers = s.closers ∧ (state = .hijacked → c ∈ t.tracker.hijacked) ∨
      t.closers = s.closers ++ [⟨true, [c], .between⟩] ∧ state = .hijacked) : Placed t := by
  have hnew : t.connections[c]? = some { connection with state := some state } := by
    rw [hconnections, getElem?_update, if_pos rfl, hc]
    rfl
  have hold : ∀ k ≠ c, t.connections[k]? = s.connections[k]? := by
    intro k hk
    rw [hconnections, getElem?_update, if_neg fun heq => hk heq.symm]
  have hsub : ∀ closer ∈ s.closers, closer ∈ t.closers := by
    intro closer hcloser
    rcases hclosers with ⟨heq, -⟩ | ⟨heq, -⟩
    · rw [heq]
      exact hcloser
    · rw [heq]
      exact List.mem_append_left _ hcloser
  have hsup : ∀ closer ∈ t.closers, closer ∈ s.closers ∨
      closer = ⟨true, [c], .between⟩ ∧ state = .hijacked := by
    intro closer hcloser
    rcases hclosers with ⟨heq, -⟩ | ⟨heq, hstate⟩
    · rw [heq] at hcloser
      exact .inl hcloser
    · rw [heq, List.mem_append, List.mem_singleton] at hcloser
      exact hcloser.imp_right fun heq => ⟨heq, hstate⟩
  -- the connection is in no account before, as it was not hijacked
  have hother : ∀ k, s.Unfinished k → k ≠ c := by
    rintro k hk rfl
    obtain ⟨other, hother, hstate⟩ := h.unfinished k hk
    rw [hc] at hother
    cases hother
    exact hfree hstate
  have hlength : t.connections.length = s.connections.length := by
    rw [hconnections]
    exact List.length_modify _ _ _
  -- what is in an account stays in it, and the connection enters one when it is hijacked
  have haccount : ∀ {within : Closer → List ℕ} {done : Connection → Prop},
      (∀ k, k ∈ within ⟨true, [k], .between⟩) →
      (∀ k other, s.connections[k]? = some other → other.state = some .hijacked →
        k ∈ s.tracker.hijacked ∨
          (∃ closer ∈ s.closers, closer.byTracker = true ∧ k ∈ within closer) ∨ done other) →
      ∀ k other, t.connections[k]? = some other → other.state = some .hijacked →
        k ∈ t.tracker.hijacked ∨
          (∃ closer ∈ t.closers, closer.byTracker = true ∧ k ∈ within closer) ∨ done other := by
    intro within done hwithin hbefore k other hk hstate
    by_cases hkc : k = c
    · subst hkc
      rw [hnew] at hk
      cases hk
      rcases hclosers with ⟨-, hin⟩ | ⟨heq, -⟩
      · exact .inl (hin (Option.some.inj hstate))
      · refine .inr (.inl ⟨⟨true, [k], .between⟩, ?_, rfl, hwithin k⟩)
        rw [heq]
        exact List.mem_append_right _ (List.mem_singleton.mpr rfl)
    · rw [hold k hkc] at hk
      rcases hbefore k other hk hstate with hin | ⟨closer, hcloser, hby, hmem⟩ | hdone
      · exact .inl ((hhijacked k hkc).mpr hin)
      · exact .inr (.inl ⟨closer, hsub closer hcloser, hby, hmem⟩)
      · exact .inr (.inr hdone)
  refine ⟨?_, ?_, hclosing, ?_, ?_, ?_, ?_, ?_⟩
  · intro k other hk hserve
    by_cases hkc : k = c
    · subst hkc
      rw [hnew] at hk
      cases hk
      exact hserved (fun heq => hserve.2.1 (congrArg some heq)) fun heq =>
        hserve.2.2 (congrArg some heq)
    · rw [hold k hkc] at hk
      exact hactive k hkc (h.active k other hk hserve)
  · intro k hk
    by_cases hkc : k = c
    · subst hkc
      exact ⟨_, hnew, congrArg some (hself hk)⟩
    · obtain ⟨other, hother, hstate⟩ := h.known k ((hhijacked k hkc).mp hk)
      exact ⟨other, (hold k hkc).trans hother, hstate⟩
  · rintro k ⟨closer, hcloser, hby, hmem⟩
    rcases hsup closer hcloser with hcloser | ⟨rfl, hstate⟩
    · have hunfinished : s.Unfinished k := ⟨closer, hcloser, hby, hmem⟩
      obtain ⟨other, hother', hstate⟩ := h.unfinished k hunfinished
      exact ⟨other, (hold k (hother k hunfinished)).trans hother', hstate⟩
    · cases List.mem_singleton.mp hmem
      exact ⟨_, hnew, congrArg some hstate⟩
  · intro closer hcloser k hk
    rw [hlength]
    rcases hsup closer hcloser with hcloser | ⟨rfl, -⟩
    · exact h.queued closer hcloser k hk
    · cases List.mem_singleton.mp hk
      exact (List.getElem?_eq_some_iff.mp hc).1
  · intro closer hcloser k
    rcases hsup closer hcloser with hcloser | ⟨rfl, -⟩
    · obtain ⟨hinvoked, hcompleted⟩ := h.began closer hcloser k
      have hsame : ∀ {p : Connection → Prop}, (∀ old : Connection,
          p old → p { old with state := some state }) →
          (∃ old, s.connections[k]? = some old ∧ p old) → ∃ old, t.connections[k]? = some old ∧ p old := by
        rintro p hp ⟨old, hold', hpold⟩
        by_cases hkc : k = c
        · subst hkc
          rw [hc] at hold'
          cases hold'
          exact ⟨_, hnew, hp _ hpold⟩
        · exact ⟨old, (hold k hkc).trans hold', hpold⟩
      exact ⟨fun hs => hsame (fun _ hp => hp) (hinvoked hs),
        fun hs => hsame (fun _ hp => hp) (hcompleted hs)⟩
    · exact ⟨fun hs => (by cases hs), fun hs => by rcases hs with ⟨_, hs⟩ | hs <;> cases hs⟩
  · exact haccount (fun _ => List.mem_singleton.mpr rfl) h.invoked
  · exact haccount (fun _ => List.mem_singleton.mpr rfl) h.completed

theorem mayFollow_free {last : Option ConnState} {state : ConnState} (h : mayFollow last state = true) :
    last ≠ some .hijacked := by
  rintro rfl
  cases h

theorem Placed.observe (h : Placed s) (hn : Notified s) {c : ℕ} {connection : Connection}
    {state : ConnState} (hc : s.connections[c]? = some connection)
    (hmay : mayFollow connection.state state = true) :
    Placed ((s.update c fun old => { old with state := some state }).observe c state) := by
  have hfree := mayFollow_free hmay
  have hupdate : Notified (s.update c fun old => { old with state := some state }) :=
    hn.congr rfl rfl rfl rfl rfl rfl
  have hout : c ∉ s.tracker.hijacked := by
    intro hin
    obtain ⟨other, hother, hstate⟩ := h.known c hin
    rw [hc] at hother
    cases hother
    exact hfree hstate
  have hsame : ∀ k ≠ c, k ∈ s.tracker.hijacked ↔ k ∈ s.tracker.hijacked := fun _ _ => Iff.rfl
  have hserving : state = .active ∨ state = .idle → c ∈ s.tracker.active := by
    intro hstate
    refine h.active c connection hc ⟨?_, hfree, ?_⟩
    · intro hnone
      rw [hnone] at hmay
      rcases hstate with rfl | rfl <;> exact absurd hmay (by decide)
    · intro hclosed
      rw [hclosed] at hmay
      cases hmay
  cases state with
  | new =>
    refine Placed.notify hupdate rfl rfl ?_
    refine h.report hc hfree rfl ?_ ?_ hsame (fun hin => absurd hin hout) h.closing (.inl ⟨rfl, ?_⟩)
    · intro k _ hk
      exact Finset.mem_insert_of_mem hk
    · intro _ _
      exact Finset.mem_insert_self c _
    · intro heq
      cases heq
  | active =>
    exact h.report hc hfree rfl (fun _ _ hk => hk) (fun _ _ => hserving (.inl rfl)) hsame
      (fun hin => absurd hin hout) h.closing (.inl ⟨rfl, fun heq => by cases heq⟩)
  | idle =>
    exact h.report hc hfree rfl (fun _ _ hk => hk) (fun _ _ => hserving (.inr rfl)) hsame
      (fun hin => absurd hin hout) h.closing (.inl ⟨rfl, fun heq => by cases heq⟩)
  | closed =>
    refine Placed.notify hupdate rfl rfl ?_
    refine h.report hc hfree rfl ?_ ?_ ?_ ?_ ?_ (.inl ⟨rfl, fun heq => by cases heq⟩)
    · intro k hk hin
      exact Finset.mem_erase.mpr ⟨hk, hin⟩
    · intro _ hne
      exact absurd rfl hne
    · intro k hk
      exact ⟨Finset.mem_of_mem_erase, fun hin => Finset.mem_erase.mpr ⟨hk, hin⟩⟩
    · intro hin
      exact absurd (Finset.mem_of_mem_erase hin) hout
    · intro hclosing
      show s.tracker.hijacked.erase c = ∅
      rw [h.closing hclosing, Finset.erase_eq_of_notMem (Finset.notMem_empty c)]
  | hijacked =>
    rw [State.observe]
    by_cases hclosing : s.tracker.closing = false
    · rw [if_pos (show (s.update c _).tracker.closing = false from hclosing)]
      refine Placed.notify hupdate rfl rfl ?_
      refine h.report hc hfree rfl ?_ ?_ ?_ (fun _ => rfl) ?_
        (.inl ⟨rfl, fun _ => Finset.mem_insert_self c _⟩)
      · intro k hk hin
        exact Finset.mem_erase.mpr ⟨hk, hin⟩
      · intro hne
        exact absurd rfl hne
      · intro k hk
        exact ⟨fun hin => (Finset.mem_insert.mp hin).resolve_left hk, Finset.mem_insert_of_mem⟩
      · intro htrue
        rw [show s.tracker.closing = true from htrue] at hclosing
        cases hclosing
    · rw [if_neg (show ¬ (s.update c _).tracker.closing = false from hclosing)]
      refine Placed.notify_spawn hupdate ?_ ?_ ?_
      · rfl
      · rfl
      refine h.report hc hfree rfl ?_ ?_ hsame (fun _ => rfl) h.closing (.inr ⟨rfl, rfl⟩)
      · intro k hk hin
        exact Finset.mem_erase.mpr ⟨hk, hin⟩
      · intro hne
        exact absurd rfl hne

/-! #### A close -/

/-- Connections that are further on in their `Close`. -/
def Grown (connections connections' : List Connection) : Prop :=
  connections'.length = connections.length ∧
    ∀ (k : ℕ) (old : Connection), connections[k]? = some old → ∃ new, connections'[k]? = some new ∧
      new.state = old.state ∧ (old.invoked = true → new.invoked = true) ∧
        (old.completed = true → new.completed = true)

theorem Grown.refl (connections : List Connection) : Grown connections connections :=
  ⟨rfl, fun _ old hold => ⟨old, hold, rfl, id, id⟩⟩

theorem Grown.update {c : ℕ} {f : Connection → Connection} (hstate : ∀ old, (f old).state = old.state)
    (hinvoked : ∀ old : Connection, old.invoked = true → (f old).invoked = true)
    (hcompleted : ∀ old : Connection, old.completed = true → (f old).completed = true) :
    Grown s.connections (s.update c f).connections := by
  refine ⟨List.length_modify _ _ _, ?_⟩
  intro k old hold
  rw [getElem?_update]
  by_cases hkc : c = k
  · rw [if_pos hkc, hold]
    exact ⟨_, rfl, hstate old, hinvoked old, hcompleted old⟩
  · rw [if_neg hkc]
    exact ⟨old, hold, rfl, id, id⟩

theorem Grown.back {l l' : List Connection} (h : Grown l l') {k : ℕ} {new : Connection}
    (hnew : l'[k]? = some new) : ∃ old, l[k]? = some old ∧ new.state = old.state ∧
      (old.invoked = true → new.invoked = true) ∧ (old.completed = true → new.completed = true) := by
  have hlt : k < l.length := by
    rw [← h.1]
    exact (List.getElem?_eq_some_iff.mp hnew).1
  obtain ⟨new', hnew', hrest⟩ := h.2 k l[k] (List.getElem?_eq_getElem hlt)
  rw [hnew] at hnew'
  cases hnew'
  exact ⟨l[k], List.getElem?_eq_getElem hlt, hrest⟩

/-- A closing goroutine makes a step: what it no longer has to invoke is invoked, and what it no
longer has to complete is completed. -/
theorem Placed.work (h : Placed s) {i : ℕ} {closer closer' : Closer}
    (hi : s.closers[i]? = some closer) (hclosers : t.closers = s.closers.set i closer')
    (hgrown : Grown s.connections t.connections) (hactive : t.tracker.active = s.tracker.active)
    (hclosing : t.tracker.closing = s.tracker.closing)
    (hsub : ∀ k ∈ t.tracker.hijacked, k ∈ s.tracker.hijacked)
    (hhijacked : ∀ k ∈ s.tracker.hijacked, k ∈ t.tracker.hijacked ∨
      ∀ new, t.connections[k]? = some new → new.invoked = true ∧ new.completed = true)
    (hby : closer'.byTracker = closer.byTracker)
    (hqueue : ∀ k ∈ closer.queue, k ∈ closer'.queue ∨
      ∀ new, t.connections[k]? = some new → new.invoked = true)
    (hunfinished : ∀ k ∈ closer.unfinished, k ∈ closer'.unfinished ∨
      ∀ new, t.connections[k]? = some new → new.completed = true)
    (hback : ∀ k ∈ closer'.unfinished, k ∈ closer.unfinished)
    (hrest : ∀ k ∈ closer'.queue, k ∈ closer.queue)
    (hbegan : ∀ c, (closer'.stage = .closing c → ∃ connection, t.connections[c]? = some connection ∧
        connection.invoked = true) ∧
      ((∃ err, closer'.stage = .attempted c err) ∨ closer'.stage = .recorded c →
        ∃ connection, t.connections[c]? = some connection ∧ connection.invoked = true ∧
          connection.completed = true)) : Placed t := by
  have hself : closer' ∈ t.closers := by
    rw [hclosers]
    exact mem_set_self hi
  have hmem : ∀ other ∈ s.closers, other = closer ∨ other ∈ t.closers := by
    intro other hother
    rw [hclosers]
    exact mem_set_of_mem closer' hi hother
  refine ⟨?_, ?_, ?_, ?_, ?_, ?_, ?_, ?_⟩
  · intro c new hnew hserved
    obtain ⟨old, hold, hstate, -⟩ := hgrown.back hnew
    rw [hactive]
    refine h.active c old hold ?_
    rw [Connection.Served, ← hstate]
    exact hserved
  · intro c hc
    obtain ⟨old, hold, hstate⟩ := h.known c (hsub c hc)
    obtain ⟨new, hnew, hsame, -⟩ := hgrown.2 c old hold
    exact ⟨new, hnew, hsame.trans hstate⟩
  · intro hclosed
    rw [hclosing] at hclosed
    rw [Finset.eq_empty_iff_forall_notMem]
    intro k hk
    have hin := hsub k hk
    rw [h.closing hclosed] at hin
    exact Finset.notMem_empty k hin
  · rintro c ⟨other, hother, hbyTracker, hc⟩
    have hbefore : s.Unfinished c := by
      rw [hclosers] at hother
      rcases mem_of_mem_set hother with rfl | hother
      · exact ⟨closer, List.mem_of_getElem? hi, by rw [← hby]; exact hbyTracker, hback c hc⟩
      · exact ⟨other, hother, hbyTracker, hc⟩
    obtain ⟨old, hold, hstate⟩ := h.unfinished c hbefore
    obtain ⟨new, hnew, hsame, -⟩ := hgrown.2 c old hold
    exact ⟨new, hnew, hsame.trans hstate⟩
  · intro other hother c hc
    rw [hgrown.1]
    rw [hclosers] at hother
    rcases mem_of_mem_set hother with rfl | hother
    · exact h.queued closer (List.mem_of_getElem? hi) c (hrest c hc)
    · exact h.queued other hother c hc
  · intro other hother c
    rw [hclosers] at hother
    rcases mem_of_mem_set hother with rfl | hother
    · exact hbegan c
    · obtain ⟨hinvoked, hcompleted⟩ := h.began other hother c
      constructor
      · intro hstage
        obtain ⟨old, hold, hold'⟩ := hinvoked hstage
        obtain ⟨new, hnew, -, hi, -⟩ := hgrown.2 c old hold
        exact ⟨new, hnew, hi hold'⟩
      · intro hstage
        obtain ⟨old, hold, hold', hold''⟩ := hcompleted hstage
        obtain ⟨new, hnew, -, hi, hc⟩ := hgrown.2 c old hold
        exact ⟨new, hnew, hi hold', hc hold''⟩
  · intro c new hnew hstate
    obtain ⟨old, hold, hsame, hinv, -⟩ := hgrown.back hnew
    rcases h.invoked c old hold (hsame.symm.trans hstate) with hin | ⟨other, hother, hb, hc⟩ | hdone
    · exact (hhijacked c hin).imp_right fun hall => .inr (hall new hnew).1
    · rcases hmem other hother with rfl | hother
      · rcases hqueue c hc with hc | hall
        · exact .inr (.inl ⟨closer', hself, by rw [hby]; exact hb, hc⟩)
        · exact .inr (.inr (hall new hnew))
      · exact .inr (.inl ⟨other, hother, hb, hc⟩)
    · exact .inr (.inr (hinv hdone))
  · intro c new hnew hstate
    obtain ⟨old, hold, hsame, -, hcomp⟩ := hgrown.back hnew
    rcases h.completed c old hold (hsame.symm.trans hstate) with hin | ⟨other, hother, hb, hc⟩ | hdone
    · exact (hhijacked c hin).imp_right fun hall => .inr (hall new hnew).2
    · rcases hmem other hother with rfl | hother
      · rcases hunfinished c hc with hc | hall
        · exact .inr (.inl ⟨closer', hself, by rw [hby]; exact hb, hc⟩)
        · exact .inr (.inr (hall new hnew))
      · exact .inr (.inl ⟨other, hother, hb, hc⟩)
    · exact .inr (.inr (hcomp hdone))

/-! #### A new connection, a new goroutine -/

theorem Placed.accept (h : Placed s) (tracked : Bool) :
    Placed { s with connections := s.connections ++ [⟨tracked, none, false, false⟩] } := by
  have hold : ∀ {k : ℕ} {connection : Connection}, s.connections[k]? = some connection →
      (s.connections ++ [⟨tracked, none, false, false⟩])[k]? = some connection := by
    intro k connection hk
    rw [List.getElem?_append_left (List.getElem?_eq_some_iff.mp hk).1]
    exact hk
  have hcases : ∀ {k : ℕ} {connection : Connection},
      (s.connections ++ [⟨tracked, none, false, false⟩])[k]? = some connection →
        s.connections[k]? = some connection ∨ connection.state = none := by
    intro k connection hk
    by_cases hlt : k < s.connections.length
    · rw [List.getElem?_append_left hlt] at hk
      exact .inl hk
    · rw [List.getElem?_append_right (by omega)] at hk
      have hmem := List.mem_of_getElem? hk
      rw [List.mem_singleton] at hmem
      rw [hmem]
      exact .inr rfl
  have hstate : ∀ {p : Connection → Prop} {k : ℕ}, (∃ old, s.connections[k]? = some old ∧ p old) →
      ∃ old, (s.connections ++ [⟨tracked, none, false, false⟩])[k]? = some old ∧ p old := by
    rintro p k ⟨old, hk, hp⟩
    exact ⟨old, hold hk, hp⟩
  refine ⟨?_, fun c hc => hstate (h.known c hc), h.closing, fun c hc => hstate (h.unfinished c hc),
    ?_, ?_, ?_, ?_⟩
  · intro c connection hc hserved
    exact h.active c connection ((hcases hc).resolve_right hserved.1) hserved
  · intro closer hcloser c hc
    have hlt := h.queued closer hcloser c hc
    show c < (s.connections ++ [_]).length
    rw [List.length_append]
    omega
  · intro closer hcloser c
    exact ⟨fun hs => hstate ((h.began closer hcloser c).1 hs),
      fun hs => hstate ((h.began closer hcloser c).2 hs)⟩
  · intro c connection hc hhijacked
    refine h.invoked c connection ((hcases hc).resolve_right fun hnone => ?_) hhijacked
    rw [hnone] at hhijacked
    cases hhijacked
  · intro c connection hc hhijacked
    refine h.completed c connection ((hcases hc).resolve_right fun hnone => ?_) hhijacked
    rw [hnone] at hhijacked
    cases hhijacked

/-- A goroutine begins to close connections, among them all that are taken out of the tracker. -/
theorem Placed.spawn (h : Placed s) {closer : Closer} (hstage : closer.stage = .between)
    (hclosers : t.closers = s.closers ++ [closer]) (hconnections : t.connections = s.connections)
    (hactive : t.tracker.active = s.tracker.active)
    (hsub : ∀ k ∈ t.tracker.hijacked, k ∈ s.tracker.hijacked)
    (hclosing : t.tracker.closing = true → t.tracker.hijacked = ∅)
    (hqueue : closer.byTracker = true → ∀ c ∈ closer.queue, c ∈ s.tracker.hijacked)
    (hlength : ∀ c ∈ closer.queue, c < s.connections.length)
    (htaken : ∀ k ∈ s.tracker.hijacked, k ∈ t.tracker.hijacked ∨
      closer.byTracker = true ∧ k ∈ closer.queue) : Placed t := by
  have hnew : closer ∈ t.closers := by
    rw [hclosers]
    exact List.mem_append_right _ (List.mem_singleton.mpr rfl)
  have hold : ∀ other ∈ s.closers, other ∈ t.closers := by
    intro other hother
    rw [hclosers]
    exact List.mem_append_left _ hother
  have hcases : ∀ other ∈ t.closers, other ∈ s.closers ∨ other = closer := by
    intro other hother
    rwa [hclosers, List.mem_append, List.mem_singleton] at hother
  have hunfinished : closer.unfinished = closer.queue := by
    rw [Closer.unfinished, hstage]
  refine ⟨?_, ?_, hclosing, ?_, ?_, ?_, ?_, ?_⟩
  · rw [hconnections, hactive]
    exact h.active
  · intro c hc
    rw [hconnections]
    exact h.known c (hsub c hc)
  · rintro c ⟨other, hother, hby, hc⟩
    rw [hconnections]
    rcases hcases other hother with hother | rfl
    · exact h.unfinished c ⟨other, hother, hby, hc⟩
    · rw [hunfinished] at hc
      exact h.known c (hqueue hby c hc)
  · intro other hother c hc
    rw [hconnections]
    rcases hcases other hother with hother | rfl
    · exact h.queued other hother c hc
    · exact hlength c hc
  · intro other hother c
    rw [hconnections]
    rcases hcases other hother with hother | rfl
    · exact h.began other hother c
    · rw [hstage]
      exact ⟨fun hs => (by cases hs), fun hs => by rcases hs with ⟨_, hs⟩ | hs <;> cases hs⟩
  · intro c connection hc hstate
    rw [hconnections] at hc
    rcases h.invoked c connection hc hstate with hin | ⟨other, hother, hby, hmem⟩ | hinvoked
    · rcases htaken c hin with hin | ⟨hby, hmem⟩
      · exact .inl hin
      · exact .inr (.inl ⟨closer, hnew, hby, hmem⟩)
    · exact .inr (.inl ⟨other, hold other hother, hby, hmem⟩)
    · exact .inr (.inr hinvoked)
  · intro c connection hc hstate
    rw [hconnections] at hc
    rcases h.completed c connection hc hstate with hin | ⟨other, hother, hby, hmem⟩ | hcompleted
    · rcases htaken c hin with hin | ⟨hby, hmem⟩
      · exact .inl hin
      · exact .inr (.inl ⟨closer, hnew, hby, by rw [hunfinished]; exact hmem⟩)
    · exact .inr (.inl ⟨other, hold other hother, hby, hmem⟩)
    · exact .inr (.inr hcompleted)

theorem updated_of_getElem? {c : ℕ} {f : Connection → Connection} {p : Connection → Prop}
    (hp : ∀ old, p (f old)) (new : Connection) (hnew : (s.update c f).connections[c]? = some new) :
    p new := by
  rw [getElem?_update, if_pos rfl] at hnew
  obtain ⟨old, -, rfl⟩ := Option.map_eq_some_iff.mp hnew
  exact hp old

theorem Placed.close (h : Placed s) (hn : Notified s) {i : ℕ} {closer : Closer} {ended : CloseEnd}
    (hi : s.closers[i]? = some closer) (hstep : s.close i closer ended = some t) : Placed t := by
  have hmem := List.mem_of_getElem? hi
  unfold State.close at hstep
  cases hstage : closer.stage with
  | between =>
    simp only [hstage] at hstep
    cases hqueue : closer.queue with
    | nil =>
      simp only [hqueue] at hstep
      cases hstep
    | cons c rest =>
      simp only [hqueue] at hstep
      cases hstep
      have hgrown : Grown s.connections
          (s.update c fun connection => { connection with invoked := true }).connections :=
        Grown.update (fun _ => rfl) (fun _ _ => rfl) fun _ hc => hc
      have hinvoked := @updated_of_getElem? s c (fun connection => { connection with invoked := true })
        (·.invoked = true) fun _ => rfl
      refine h.work hi rfl hgrown rfl rfl (fun _ hk => hk) (fun _ hk => .inl hk) rfl ?_ ?_ ?_ ?_ ?_
      · intro k hk
        rw [hqueue, List.mem_cons] at hk
        rcases hk with rfl | hk
        · exact .inr hinvoked
        · exact .inl hk
      · intro k hk
        rw [Closer.unfinished, hstage, hqueue] at hk
        exact .inl hk
      · intro k hk
        rw [Closer.unfinished, hstage, hqueue]
        exact hk
      · intro k hk
        rw [hqueue]
        exact List.mem_cons_of_mem c hk
      · intro k
        constructor
        · intro hs
          cases hs
          have hlt := h.queued closer hmem c (by rw [hqueue]; exact List.mem_cons_self)
          obtain ⟨new, hnew, -⟩ := hgrown.2 c _ (List.getElem?_eq_getElem hlt)
          exact ⟨new, hnew, hinvoked new hnew⟩
        · intro hs
          rcases hs with ⟨_, hs⟩ | hs <;> cases hs
  | closing c =>
    simp only [hstage] at hstep
    cases hstep
    have hgrown : Grown s.connections
        (s.update c fun connection => { connection with completed := true }).connections :=
      Grown.update (fun _ => rfl) (fun _ hc => hc) fun _ _ => rfl
    have hcompleted := @updated_of_getElem? s c (fun connection => { connection with completed := true })
      (·.completed = true) fun _ => rfl
    obtain ⟨old, hold, hinv⟩ := (h.began closer hmem c).1 hstage
    refine h.work hi rfl hgrown rfl rfl (fun _ hk => hk) (fun _ hk => .inl hk) rfl
      (fun _ hk => .inl hk) ?_ ?_ (fun _ hk => hk) ?_
    · intro k hk
      rw [Closer.unfinished, hstage, List.mem_cons] at hk
      rcases hk with rfl | hk
      · exact .inr hcompleted
      · exact .inl hk
    · intro k hk
      rw [Closer.unfinished, hstage]
      exact List.mem_cons_of_mem c hk
    · intro k
      constructor
      · intro hs
        cases hs
      · intro hs
        have hkc : k = c := by
          rcases hs with ⟨_, hs⟩ | hs
          · cases hs
            rfl
          · cases hs
        subst hkc
        obtain ⟨new, hnew, -, hi', -⟩ := hgrown.2 k old hold
        exact ⟨new, hnew, hi' hinv, hcompleted new hnew⟩
  | attempted c err =>
    simp only [hstage] at hstep
    obtain ⟨connection, hc, rfl⟩ := Option.map_eq_some_iff.mp hstep
    obtain ⟨old, hold, hinv, hcomp⟩ := (h.began closer hmem c).2 (.inl ⟨err, hstage⟩)
    have hrecorded : ∀ b : Bool, ∀ closer' : Closer,
        let recorded : State := if b then
          { s with tracker := { s.tracker with errs := s.tracker.errs ++ err.toList } } else s
        (recorded.put i closer').connections = s.connections ∧
          (recorded.put i closer').closers = s.closers.set i closer' ∧
          (recorded.put i closer').tracker.active = s.tracker.active ∧
          (recorded.put i closer').tracker.hijacked = s.tracker.hijacked ∧
          (recorded.put i closer').tracker.closing = s.tracker.closing := by
      intro b closer'
      cases b <;> exact ⟨rfl, rfl, rfl, rfl, rfl⟩
    obtain ⟨hconnections, hclosers, hactive, hhijacked, hclosing⟩ :=
      hrecorded (connection.tracked || closer.byTracker)
        { closer with stage := if connection.tracked then .recorded c else .between }
    have hrest : ∀ tracked : Bool, Closer.unfinished
        { closer with stage := if tracked then .recorded c else .between } = closer.queue := by
      intro tracked
      cases tracked <;> rfl
    have hunfinished : closer.unfinished = closer.queue := by
      rw [Closer.unfinished, hstage]
    refine h.work hi hclosers (by rw [hconnections]; exact Grown.refl _) hactive hclosing
      (by rw [hhijacked]; exact fun _ hk => hk) (by rw [hhijacked]; exact fun _ hk => .inl hk) rfl
      (fun _ hk => .inl hk) ?_ ?_ (fun _ hk => hk) ?_
    · rw [hrest, hunfinished]
      exact fun _ hk => .inl hk
    · rw [hrest, hunfinished]
      exact fun _ hk => hk
    · intro k
      rw [hconnections]
      constructor
      · intro hs
        cases htracked : connection.tracked <;> rw [htracked] at hs <;> cases hs
      · intro hs
        have hkc : k = c := by
          rcases hs with ⟨_, hs⟩ | hs <;> cases htracked : connection.tracked <;>
            rw [htracked] at hs <;> cases hs
          rfl
        rw [hkc]
        exact ⟨old, hold, hinv, hcomp⟩
  | recorded c =>
    simp only [hstage] at hstep
    cases hstep
    obtain ⟨old, hold, hinv, hcomp⟩ := (h.began closer hmem c).2 (.inr hstage)
    have hunfinished : closer.unfinished = closer.queue := by
      rw [Closer.unfinished, hstage]
    have hforget : (s.forget c).connections = s.connections ∧ (s.forget c).closers = s.closers ∧
        (s.forget c).tracker.active = s.tracker.active ∧
        (s.forget c).tracker.hijacked = s.tracker.hijacked.erase c ∧
        (s.forget c).tracker.closing = s.tracker.closing := by
      unfold State.forget
      by_cases hin : c ∈ s.tracker.hijacked
      · rw [if_pos hin]
        exact notify_fields hn rfl rfl
      · rw [if_neg hin, Finset.erase_eq_of_notMem hin]
        exact ⟨rfl, rfl, rfl, rfl, rfl⟩
    obtain ⟨hconnections, hclosers, hactive, hhijacked, hclosing⟩ := hforget
    have hset : ((s.forget c).put i { closer with stage := .between }).closers =
        s.closers.set i { closer with stage := .between } := by
      rw [State.put, hclosers]
    refine h.work hi hset (by rw [State.put, hconnections]; exact Grown.refl _) hactive hclosing ?_ ?_ rfl (fun _ hk => .inl hk) ?_ ?_ (fun _ hk => hk) ?_
    · intro k hk
      rw [State.put, hhijacked] at hk
      exact Finset.mem_of_mem_erase hk
    · intro k hk
      by_cases hkc : k = c
      · subst hkc
        refine .inr fun new hnew => ?_
        rw [State.put, hconnections, hold] at hnew
        cases hnew
        exact ⟨hinv, hcomp⟩
      · rw [State.put, hhijacked]
        exact .inl (Finset.mem_erase.mpr ⟨hkc, hk⟩)
    · rw [hunfinished]
      exact fun _ hk => .inl hk
    · rw [hunfinished]
      exact fun _ hk => hk
    · intro k
      exact ⟨fun hs => (by cases hs), fun hs => by rcases hs with ⟨_, hs⟩ | hs <;> cases hs⟩

/-! ### Runs -/

/-- **The invariant** of the tracker. -/
structure Inv (s : State) : Prop where
  notified : Notified s
  placed : Placed s

theorem Inv.step {e : Event} (h : Inv s) (hstep : step s e = some t) : Inv t := by
  refine ⟨h.notified.step hstep, ?_⟩
  have hcalm : ¬ s.panicked = true := by
    rw [h.notified.calm]
    exact Bool.false_ne_true
  have hmoves := hstep
  unfold Connections.step at hstep
  rw [if_neg hcalm] at hstep
  cases e with
  | accept tracked =>
    cases hstep
    exact h.placed.accept tracked
  | observe c state =>
    obtain ⟨connection, hc, hstep⟩ := Option.bind_eq_some_iff.mp hstep
    by_cases hmay : mayFollow connection.state state = true
    · rw [if_pos hmay] at hstep
      cases hstep
      exact h.placed.observe h.notified hc hmay
    · rw [if_neg hmay] at hstep
      cases hstep
  | ownerClose c =>
    obtain ⟨connection, hc, rfl⟩ := Option.map_eq_some_iff.mp hstep
    refine h.placed.spawn rfl rfl rfl rfl (fun _ hk => hk) h.placed.closing (fun hby => by cases hby) ?_
      fun _ hk => .inl hk
    intro k hk
    cases List.mem_singleton.mp hk
    exact (List.getElem?_eq_some_iff.mp hc).1
  | closeHijacked order =>
    simp only at hstep
    by_cases horder : order.Nodup ∧ order.toFinset = s.tracker.hijacked
    · rw [if_pos horder] at hstep
      cases hstep
      unfold State.closeHijacked
      refine Placed.notify_spawn h.notified ?_ ?_ ?_
      · rfl
      · rfl
      have hknown : ∀ c ∈ order, c ∈ s.tracker.hijacked := by
        intro c hc
        rw [← horder.2]
        exact List.mem_toFinset.mpr hc
      refine h.placed.spawn rfl rfl rfl rfl ?_ (fun _ => rfl) (fun _ => hknown) ?_ ?_
      · intro k hk
        exact absurd hk (Finset.notMem_empty k)
      · intro c hc
        obtain ⟨connection, hconnection, -⟩ := h.placed.known c (hknown c hc)
        exact (List.getElem?_eq_some_iff.mp hconnection).1
      · intro k hk
        rw [← horder.2] at hk
        exact .inr ⟨rfl, List.mem_toFinset.mp hk⟩
    · rw [if_neg horder] at hstep
      cases hstep
  | close i ended =>
    obtain ⟨closer, hi, hstep⟩ := Option.bind_eq_some_iff.mp hstep
    exact h.placed.close h.notified hi hstep
  | wait =>
    cases hstep
    exact h.placed.congr rfl rfl rfl rfl rfl
  | look i =>
    simp only at hstep
    split_ifs at hstep
    cases hstep
    exact h.placed.congr rfl rfl rfl rfl rfl
  | notified i | timeout i =>
    obtain ⟨_, -, rfl⟩ := step_woken i (by simp) hmoves
    exact h.placed.congr rfl rfl rfl rfl rfl

theorem inv_run {es : List Event} (hrun : run step es start = some s) : Inv s := by
  refine run_induction (P := fun _ s => Inv s) ⟨notified_start, placed_start⟩ ?_ hrun
  intro es e s t h hstep
  exact h.step hstep

/-! ### What the tracker is for -/

/-- The sets of two states are the same, or the channel of the first one is closed in the second. -/
def Told (s t : State) : Prop :=
  t.tracker.active = s.tracker.active ∧ t.tracker.hijacked = s.tracker.hijacked ∨
    t.tracker.channels[s.tracker.changed]? = some true

theorem told_notify (h : Notified s) (hchannels : tracker.channels = s.tracker.channels)
    (hchanged : tracker.changed = s.tracker.changed) : Told s (s.notify tracker) := by
  rw [notify_eq h hchannels hchanged]
  exact .inr (closed_notify h (.inr rfl))

theorem told_observe (h : Notified s) (c : ℕ) (state : ConnState) : Told s (s.observe c state) := by
  cases state with
  | new => exact told_notify h rfl rfl
  | closed => exact told_notify h rfl rfl
  | hijacked =>
    rw [State.observe]
    by_cases hclosing : s.tracker.closing = false
    · rw [if_pos hclosing]
      exact told_notify h rfl rfl
    · rw [if_neg hclosing]
      have htold : Told s (s.notify { s.tracker with active := s.tracker.active.erase c }) :=
        told_notify h rfl rfl
      exact htold
  | active => exact .inl ⟨rfl, rfl⟩
  | idle => exact .inl ⟨rfl, rfl⟩

theorem told_close (h : Notified s) {i : ℕ} {closer : Closer} {ended : CloseEnd}
    (hstep : s.close i closer ended = some t) : Told s t := by
  unfold State.close at hstep
  split at hstep
  · split at hstep
    · cases hstep
    · cases hstep
      exact .inl ⟨rfl, rfl⟩
  · cases hstep
    exact .inl ⟨rfl, rfl⟩
  · obtain ⟨connection, -, rfl⟩ := Option.map_eq_some_iff.mp hstep
    refine .inl ⟨?_, ?_⟩ <;> simp only [State.put] <;> split_ifs <;> rfl
  · next c _ =>
    cases hstep
    unfold State.forget
    by_cases hin : c ∈ s.tracker.hijacked
    · rw [if_pos hin]
      exact told_notify h rfl rfl
    · rw [if_neg hin]
      exact .inl ⟨rfl, rfl⟩

/-- **No step changes the sets without a notification.** -/
theorem told_step {e : Event} (h : Notified s) (hstep : step s e = some t) : Told s t := by
  have hmoves := hstep
  unfold step at hstep
  rw [if_neg (by rw [h.calm]; exact Bool.false_ne_true)] at hstep
  cases e with
  | accept tracked =>
    cases hstep
    exact .inl ⟨rfl, rfl⟩
  | observe c state =>
    obtain ⟨connection, -, hstep⟩ := Option.bind_eq_some_iff.mp hstep
    split_ifs at hstep
    cases hstep
    have hupdate : Notified (s.update c fun connection => { connection with state := some state }) :=
      h.congr rfl rfl rfl rfl rfl rfl
    exact told_observe hupdate c state
  | ownerClose c =>
    obtain ⟨_, -, rfl⟩ := Option.map_eq_some_iff.mp hstep
    exact .inl ⟨rfl, rfl⟩
  | closeHijacked order =>
    simp only at hstep
    split_ifs at hstep
    cases hstep
    have htold : Told s (s.notify { s.tracker with closing := true, hijacked := ∅ }) :=
      told_notify h rfl rfl
    exact htold
  | close i ended =>
    obtain ⟨closer, -, hstep⟩ := Option.bind_eq_some_iff.mp hstep
    exact told_close h hstep
  | wait =>
    cases hstep
    exact .inl ⟨rfl, rfl⟩
  | look i =>
    simp only at hstep
    split_ifs at hstep
    cases hstep
    exact .inl ⟨rfl, rfl⟩
  | notified i | timeout i =>
    obtain ⟨_, -, rfl⟩ := step_woken i (by simp) hmoves
    exact .inl ⟨rfl, rfl⟩

/-- A goroutine that has still to close a connection has a step. -/
theorem close_enabled (h : Inv s) {i : ℕ} {closer : Closer} (hi : s.closers[i]? = some closer)
    (hqueue : closer.queue ≠ []) (ended : CloseEnd) : (step s (.close i ended)).isSome = true := by
  have hcalm : ¬ s.panicked = true := by
    rw [h.notified.calm]
    exact Bool.false_ne_true
  unfold step
  rw [if_neg hcalm]
  simp only [hi, Option.bind_some]
  unfold State.close
  cases hstage : closer.stage with
  | between =>
    obtain ⟨c, rest, hcons⟩ := List.exists_cons_of_ne_nil hqueue
    simp only [hcons]
    rfl
  | closing c => rfl
  | attempted c err =>
    obtain ⟨connection, hc, -⟩ := (h.placed.began closer (List.mem_of_getElem? hi) c).2 (.inl ⟨err, hstage⟩)
    simp only [hc]
    rfl
  | recorded c => rfl

/-- Every connection that was reported was reported closed, or its `Close` is completed. -/
def Settled (s : State) : Prop :=
  ∀ (c : ℕ) (connection : Connection), s.connections[c]? = some connection → connection.state ≠ none →
    connection.state = some .closed ∨ connection.completed = true

/-- A goroutine of the tracker has still to complete the `Close` of a connection that nobody else has
completed. -/
def Outstanding (s : State) : Prop :=
  ∃ c, s.Unfinished c ∧ ∃ connection, s.connections[c]? = some connection ∧
    connection.completed = false

/-- Nothing is tracked: what is not settled is outstanding. -/
theorem Inv.settled_iff (h : Inv s) (hempty : s.tracker.Empty) : Settled s ↔ ¬ Outstanding s := by
  constructor
  · rintro hsettled ⟨c, hunfinished, connection, hc, hopen⟩
    obtain ⟨other, hother, hstate⟩ := h.placed.unfinished c hunfinished
    rw [hc] at hother
    cases hother
    rcases hsettled c connection hc (by rw [hstate]; exact Option.some_ne_none _) with hclosed | hdone
    · rw [hstate] at hclosed
      cases hclosed
    · rw [hopen] at hdone
      cases hdone
  · intro hnone c connection hc hreported
    by_cases hclosed : connection.state = some .closed
    · exact .inl hclosed
    · right
      by_cases hhijacked : connection.state = some .hijacked
      · rcases h.placed.completed c connection hc hhijacked with hin | hunfinished | hdone
        · rw [hempty.2] at hin
          exact absurd hin (Finset.notMem_empty c)
        · by_contra hopen
          exact hnone ⟨c, hunfinished, connection, hc, by rwa [Bool.not_eq_true] at hopen⟩
        · exact hdone
      · have hin := h.placed.active c connection hc ⟨hreported, hhijacked, hclosed⟩
        rw [hempty.1] at hin
        exact absurd hin (Finset.notMem_empty c)

/-- Whenever a wait of a run returns nil, every connection reported so far is settled. -/
def WaitsSettled (es : List Event) : Prop :=
  ∀ before i after, es = before ++ .look i :: after → ∀ m, run step before start = some m →
    m.tracker.Empty → Settled m

/-- No wait of a run finds nothing tracked while the `Close` of a connection is outstanding that the
tracker itself has taken out. -/
def LooksInTime (es : List Event) : Prop :=
  ∀ before i after, es = before ++ .look i :: after → ∀ m, run step before start = some m →
    m.tracker.Empty → ¬ Outstanding m

/-- **The tracker of a server's connections**, in every run: no channel is closed twice; a change of
the sets closes the channel that was current, and whoever waits on one that is not closed has seen
what is there now; once the shutdown has begun, what is hijacked is closed, or is next for a goroutine
that can go on; and a wait returns nil when all is settled, exactly if it never looks while a close of
the tracker is outstanding. -/
theorem tracker_run {es : List Event} (hrun : run step es start = some s) :
    s.panicked = false ∧
    (∀ before e after m n, es = before ++ e :: after → run step before start = some m →
      step m e = some n → Told m n) ∧
    (∀ k, Waiter.parked k ∈ s.waiters →
      s.tracker.channels[k]? = some true ∨ k = s.tracker.changed ∧ ¬ s.tracker.Empty) ∧
    (s.tracker.closing = true → ∀ c connection, s.connections[c]? = some connection →
      connection.state = some .hijacked → connection.invoked = true ∨
        ∃ i closer, s.closers[i]? = some closer ∧ c ∈ closer.queue ∧
          ∀ ended, (step s (.close i ended)).isSome = true) ∧
    (WaitsSettled es ↔ LooksInTime es) := by
  have hinv := inv_run hrun
  refine ⟨hinv.notified.calm, ?_, hinv.notified.parked, ?_, ?_⟩
  · intro before e after m n _ hm hstep
    exact told_step (inv_run hm).notified hstep
  · intro hclosing c connection hc hhijacked
    rcases hinv.placed.invoked c connection hc hhijacked with hin | ⟨closer, hcloser, -, hqueue⟩ | hinvoked
    · rw [hinv.placed.closing hclosing] at hin
      exact absurd hin (Finset.notMem_empty c)
    · obtain ⟨i, hi⟩ := List.getElem?_of_mem hcloser
      exact .inr ⟨i, closer, hi, hqueue, close_enabled hinv hi (List.ne_nil_of_mem hqueue)⟩
    · exact .inl hinvoked
  · constructor
    · intro hsettled before i after hes m hm hempty
      exact ((inv_run hm).settled_iff hempty).mp (hsettled before i after hes m hm hempty)
    · intro htime before i after hes m hm hempty
      exact ((inv_run hm).settled_iff hempty).mpr (htime before i after hes m hm hempty)

/-- A connection is hijacked once the shutdown has closed what was hijacked, and a wait looks while
that connection is being closed. -/
def lateHijack : List Event :=
  [.accept true, .observe 0 .new, .observe 0 .active, .closeHijacked [], .observe 0 .hijacked,
    .close 1 .succeeded, .wait, .look 0]

/-- What a wait of that run looks at is not settled. -/
theorem lateHijack_unsettled : ¬ WaitsSettled lateHijack := by
  intro hsettled
  have hbefore : (run step lateHijack.dropLast start).map State.connections =
      some [⟨true, some .hijacked, true, false⟩] := by decide
  have hempty : (run step lateHijack.dropLast start).map (fun m => decide m.tracker.Empty) = some true := by
    decide
  obtain ⟨m, hm, hlist⟩ := Option.map_eq_some_iff.mp hbefore
  rw [hm] at hempty
  have hdone := hsettled lateHijack.dropLast 0 [] rfl m hm (of_decide_eq_true (Option.some.inj hempty))
    0 ⟨true, some .hijacked, true, false⟩ (by rw [hlist]; rfl) (by decide)
  rcases hdone with hclosed | hdone
  · exact absurd hclosed (by decide)
  · exact absurd hdone (by decide)

/-- A connection is hijacked before the shutdown, which closes it; the wait is told, and looks again
when the `Close` is done. -/
def awaited : List Event :=
  [.accept true, .observe 0 .new, .observe 0 .active, .observe 0 .hijacked, .wait, .look 0,
    .closeHijacked [0], .close 0 .succeeded, .close 0 .succeeded, .close 0 .succeeded,
    .close 0 .succeeded, .notified 0, .look 0]

theorem awaited_settled : WaitsSettled awaited := by
  intro before i after hes m hm hempty
  have hlength : before.length < 13 := by
    have hlengths := congrArg List.length hes
    simp only [awaited, List.length_append, List.length_cons, List.length_nil] at hlengths
    omega
  have hbefore : before = awaited.take before.length := by rw [hes, List.take_left]
  have hlook : awaited[before.length]? = some (.look i) := by
    rw [hes, List.getElem?_append_right le_rfl, Nat.sub_self]
    rfl
  generalize before.length = n at hbefore hlook hlength
  subst hbefore
  interval_cases n <;> cases hlook
  · cases hm
    exact absurd hempty (by decide)
  · cases hm
    intro c connection hc _
    cases c with
    | zero =>
      cases hc
      exact .inr rfl
    | succ c => cases hc

/-- `tracker_run` at a late hijack, which is looked at too early, and at one that is awaited: the
wait that is parked there is told of the change by the shutdown, and the connection is closed. -/
theorem tracker_lateHijack :
    (∃ s, run step lateHijack start = some s ∧ s.panicked = false ∧ ¬ LooksInTime lateHijack) ∧
    (∃ m n, run step (awaited.take 6) start = some m ∧ m.waiters = [.parked 2] ∧
      (m.tracker.channels[2]? = some true ∨ 2 = m.tracker.changed ∧ ¬ m.tracker.Empty) ∧
      step m (.closeHijacked [0]) = some n ∧ Told m n) ∧
    ∃ s, run step awaited start = some s ∧ s.panicked = false ∧ s.tracker.closing = true ∧
      (∃ connection, s.connections[0]? = some connection ∧ connection.state = some .hijacked ∧
        (connection.invoked = true ∨ ∃ i closer, s.closers[i]? = some closer ∧ 0 ∈ closer.queue ∧
          ∀ ended, (step s (.close i ended)).isSome = true)) ∧
      LooksInTime awaited := by
  refine ⟨?_, ?_, ?_⟩
  · have hsome : (run step lateHijack start).isSome = true := by decide
    obtain ⟨s, hs⟩ := Option.isSome_iff_exists.mp hsome
    obtain ⟨hcalm, -, -, -, htime⟩ := tracker_run hs
    exact ⟨s, hs, hcalm, fun hlooks => lateHijack_unsettled (htime.mpr hlooks)⟩
  · have hsome : (run step (awaited.take 6 ++ .closeHijacked [0] :: awaited.drop 7) start).isSome =
        true := by
      decide
    obtain ⟨s, hs⟩ := Option.isSome_iff_exists.mp hsome
    obtain ⟨m, n, hm, hn, -⟩ := run_split hs
    have hwaiters : m.waiters = [.parked 2] := by
      have hparked : (run step (awaited.take 6) start).map State.waiters = some [.parked 2] := by decide
      rw [hm] at hparked
      exact Option.some.inj hparked
    obtain ⟨-, -, hwaits, -⟩ := tracker_run hm
    obtain ⟨-, htold, -⟩ := tracker_run hs
    exact ⟨m, n, hm, hwaiters, hwaits 2 (by rw [hwaiters]; decide), hn, htold _ _ _ m n rfl hm hn⟩
  · have hend : ((run step awaited start).map fun s => (s.tracker.closing, s.connections)) =
        some (true, [⟨true, some .hijacked, true, true⟩]) := by
      decide
    obtain ⟨s, hs, hpair⟩ := Option.map_eq_some_iff.mp hend
    obtain ⟨hclosing, hconnections⟩ := Prod.mk.inj hpair
    obtain ⟨hcalm, -, -, hhijacked, htime⟩ := tracker_run hs
    have hconnection : s.connections[0]? = some ⟨true, some .hijacked, true, true⟩ := by
      rw [hconnections]
      rfl
    exact ⟨s, hs, hcalm, hclosing, ⟨_, hconnection, rfl, hhijacked hclosing 0 _ hconnection rfl⟩,
      htime.mp awaited_settled⟩

/-- **A wait returns nil** while the `Close` of a connection that was hijacked late has not
completed. -/
theorem wait_too_early : ∃ s, run step lateHijack start = some s ∧
    s.waiters = [.stopped] ∧ ¬ Settled s ∧ ¬ WaitsSettled lateHijack := by
  have hend : ((run step lateHijack start).map fun s => (s.waiters, s.connections)) =
      some ([.stopped], [⟨true, some .hijacked, true, false⟩]) := by decide
  obtain ⟨s, hs, hpair⟩ := Option.map_eq_some_iff.mp hend
  obtain ⟨hstopped, hconnections⟩ := Prod.mk.inj hpair
  refine ⟨s, hs, hstopped, fun hsettled => ?_, lateHijack_unsettled⟩
  rcases hsettled 0 ⟨true, some .hijacked, true, false⟩ (by rw [hconnections]; rfl) (by decide)
    with hclosed | hdone
  · exact absurd hclosed (by decide)
  · exact absurd hdone (by decide)

end Modary.App.Connections
