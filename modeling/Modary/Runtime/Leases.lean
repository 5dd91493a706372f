import Mathlib.Data.BitVec
import Mathlib.Logic.Function.Basic
import Modary.Lib.Machine

/-! # Leases of the action registry

`actionruntime.Registry` under any interleaving of `BindPrepared`, `acquire`, `acquireLease`, the
release of a lease, `Revoke` and `Reset`. An event is one critical section of the registry's mutex,
or a step outside it: deriving or cancelling a context, entering a `sync.Once`, receiving from the
channel `drained`. -/

namespace Modary.Runtime.Leases

open Modary.Lib.Machine

variable {ρ : Type}

/-! ### The registry -/

/-- `Registry`, with the contexts of its leases by the number of the call that derived them. `closes`
counts the calls of `close(registry.drained)`. -/
structure Registry (ρ : Type) where
  actions : String → Option ρ
  leases : List (BitVec 64 × ℕ)
  nextLeaseID : BitVec 64
  revoked : Bool
  drainClosed : Bool
  closes : ℕ

/-- `NewRegistry`. -/
def Registry.new : Registry ρ :=
  { actions := fun _ => none, leases := [], nextLeaseID := 0, revoked := false,
    drainClosed := false, closes := 0 }

/-- The loop of `registerLeaseLocked`: the first identifier after `id` that is not live, within
`tries` rounds. -/
def nextFree (live : List (BitVec 64)) : ℕ → BitVec 64 → Option (BitVec 64)
  | 0, _ => none
  | tries + 1, id => if id + 1 ∈ live then nextFree live tries (id + 1) else some (id + 1)

/-- `registerLeaseLocked`. After `2 ^ 64` rounds the loop has seen every identifier, so it then
never ends. -/
def Registry.registerLeaseLocked (registry : Registry ρ) (context : ℕ) :
    Option (BitVec 64 × Registry ρ) :=
  (nextFree (registry.leases.map Prod.fst) (2 ^ 64) registry.nextLeaseID).map fun id =>
    (id, { registry with nextLeaseID := id, leases := (id, context) :: registry.leases })

/-- `closeDrainedLocked`. -/
def Registry.closeDrainedLocked (registry : Registry ρ) : Registry ρ :=
  if registry.revoked && registry.leases.isEmpty && !registry.drainClosed then
    { registry with drainClosed := true, closes := registry.closes + 1 }
  else registry

/-- The section of `Revoke`, without the cancellations. -/
def Registry.revoke (registry : Registry ρ) : Registry ρ :=
  if registry.revoked then registry
  else { registry with revoked := true, actions := fun _ => none }.closeDrainedLocked

/-- The section of a release. -/
def Registry.unregister (registry : Registry ρ) (id : BitVec 64) : Registry ρ :=
  { registry with leases := registry.leases.filter (·.1 ≠ id) }.closeDrainedLocked

/-- The section of `BindPrepared` for a valid descriptor and a handler: refused, or bound. -/
def Registry.bindPrepared (registry : Registry ρ) (id : String) (registered : ρ) : Registry ρ :=
  if registry.revoked then registry
  else match registry.actions id with
    | some _ => registry
    | none => { registry with actions := Function.update registry.actions id (some registered) }

/-! ### The calls -/

/-- The `sync.Once` of a release function. -/
inductive Once
  | fresh
  /-- the first call is inside `Do` -/
  | entered
  /-- it has cancelled the context -/
  | cancelled
  | done
  deriving DecidableEq, Repr

/-- How far an `acquire` or an `acquireLease` is, and the lease it got. -/
inductive Call (ρ : Type)
  | idle
  /-- the context is derived; `acquireLease` has no action -/
  | derived (action : Option String)
  /-- the registry was revoked, the derived context is still to be cancelled -/
  | refused
  /-- the call returned that the registry is revoked -/
  | failed
  | held (id : BitVec 64) (registered : Option ρ) (release : Once)

/-- How far a `Reset` is. -/
inductive Reset
  | idle
  /-- its `Revoke` has returned -/
  | revoked
  /-- it holds the channel -/
  | waiting
  | drained
  | expired
  deriving DecidableEq, Repr

/-- The registry, the contexts and the calls. -/
structure World (ρ : Type) where
  registry : Registry ρ
  cancelled : ℕ → Bool
  call : ℕ → Call ρ
  reset : ℕ → Reset

/-- A new registry and no calls. -/
def World.init : World ρ :=
  { registry := .new, cancelled := fun _ => false, call := fun _ => .idle, reset := fun _ => .idle }

inductive Event (ρ : Type)
  | bind (id : String) (registered : ρ)
  | derive (k : ℕ) (action : Option String)
  | acquire (k : ℕ)
  /-- a refused call cancels its context and returns -/
  | drop (k : ℕ)
  /-- the release function of the lease of call `k` is called -/
  | release (k : ℕ)
  | cancel (k : ℕ)
  | unregister (k : ℕ)
  /-- the parent of a context is done -/
  | parent (k : ℕ)
  | revoke
  | reset (q : ℕ)
  | read (q : ℕ)
  | drained (q : ℕ)
  /-- the context of a `Reset` is done and the channel is not closed -/
  | expired (q : ℕ)

/-- The call of number `k` goes on. -/
def World.go (w : World ρ) (k : ℕ) (next : Call ρ) : World ρ :=
  { w with call := Function.update w.call k next }

/-- The context of call `k` is cancelled. -/
def World.cancel (w : World ρ) (k : ℕ) : World ρ :=
  { w with cancelled := Function.update w.cancelled k true }

/-- `Revoke`: the first one cancels the context of every lease. -/
def World.revoke (w : World ρ) : World ρ :=
  { w with
    registry := w.registry.revoke
    cancelled := fun k =>
      w.cancelled k || (!w.registry.revoked && w.registry.leases.any (·.2 = k)) }

/-- The section of `acquire` and `acquireLease`; `none` when the search for an identifier does not
end. -/
def World.acquire (w : World ρ) (k : ℕ) (action : Option String) : Option (World ρ) :=
  if w.registry.revoked then some (w.go k .refused)
  else (w.registry.registerLeaseLocked k).map fun (id, registry) =>
    { w.go k (.held id (action.bind w.registry.actions) .fresh) with registry := registry }

/-- One event; `none` when it cannot happen. -/
def step (w : World ρ) : Event ρ → Option (World ρ)
  | .bind id registered => some { w with registry := w.registry.bindPrepared id registered }
  | .derive k action =>
    match w.call k with
    | .idle => some (w.go k (.derived action))
    | _ => none
  | .acquire k =>
    match w.call k with
    | .derived action => w.acquire k action
    | _ => none
  | .drop k =>
    match w.call k with
    | .refused => some ((w.cancel k).go k .failed)
    | _ => none
  | .release k =>
    match w.call k with
    | .held id registered .fresh => some (w.go k (.held id registered .entered))
    | .held _ _ _ => some w
    | _ => none
  | .cancel k =>
    match w.call k with
    | .held id registered .entered => some ((w.cancel k).go k (.held id registered .cancelled))
    | _ => none
  | .unregister k =>
    match w.call k with
    | .held id registered .cancelled =>
      some { w.go k (.held id registered .done) with registry := w.registry.unregister id }
    | _ => none
  | .parent k => some (w.cancel k)
  | .revoke => some w.revoke
  | .reset q =>
    match w.reset q with
    | .idle => some { w.revoke with reset := Function.update w.reset q .revoked }
    | _ => none
  | .read q =>
    match w.reset q with
    | .revoked => some { w with reset := Function.update w.reset q .waiting }
    | _ => none
  | .drained q =>
    match w.reset q with
    | .waiting =>
      if w.registry.closes = 0 then none
      else some { w with reset := Function.update w.reset q .drained }
    | _ => none
  | .expired q =>
    match w.reset q with
    | .waiting =>
      if w.registry.closes = 0 then some { w with reset := Function.update w.reset q .expired }
      else none
    | _ => none

/-- A run from a new registry. -/
def Run (es : List (Event ρ)) (w : World ρ) : Prop := run step es World.init = some w

/-- What one event does. -/
inductive Step (w : World ρ) : Event ρ → World ρ → Prop
  | bind {id : String} {registered : ρ} :
      Step w (.bind id registered) { w with registry := w.registry.bindPrepared id registered }
  | derive {k : ℕ} {action : Option String} (hk : w.call k = .idle) :
      Step w (.derive k action) (w.go k (.derived action))
  | refuse {k : ℕ} {action : Option String} (hk : w.call k = .derived action)
      (hr : w.registry.revoked = true) : Step w (.acquire k) (w.go k .refused)
  | lease {k : ℕ} {action : Option String} {id : BitVec 64} (hk : w.call k = .derived action)
      (hr : w.registry.revoked = false) (hid : id ∉ w.registry.leases.map Prod.fst) :
      Step w (.acquire k)
        { w.go k (.held id (action.bind w.registry.actions) .fresh) with
          registry := { w.registry with
            nextLeaseID := id
            leases := (id, k) :: w.registry.leases } }
  | drop {k : ℕ} (hk : w.call k = .refused) : Step w (.drop k) ((w.cancel k).go k .failed)
  | enter {k : ℕ} {id : BitVec 64} {registered : Option ρ}
      (hk : w.call k = .held id registered .fresh) :
      Step w (.release k) (w.go k (.held id registered .entered))
  | again {k : ℕ} {id : BitVec 64} {registered : Option ρ} {release : Once}
      (hk : w.call k = .held id registered release) (hne : release ≠ .fresh) :
      Step w (.release k) w
  | cancel {k : ℕ} {id : BitVec 64} {registered : Option ρ}
      (hk : w.call k = .held id registered .entered) :
      Step w (.cancel k) ((w.cancel k).go k (.held id registered .cancelled))
  | unregister {k : ℕ} {id : BitVec 64} {registered : Option ρ}
      (hk : w.call k = .held id registered .cancelled) :
      Step w (.unregister k)
        { w.go k (.held id registered .done) with registry := w.registry.unregister id }
  | parent {k : ℕ} : Step w (.parent k) (w.cancel k)
  | revoke : Step w .revoke w.revoke
  | reset {q : ℕ} (hq : w.reset q = .idle) :
      Step w (.reset q) { w.revoke with reset := Function.update w.reset q .revoked }
  | read {q : ℕ} (hq : w.reset q = .revoked) :
      Step w (.read q) { w with reset := Function.update w.reset q .waiting }
  | drained {q : ℕ} (hq : w.reset q = .waiting) (hc : w.registry.closes ≠ 0) :
      Step w (.drained q) { w with reset := Function.update w.reset q .drained }
  | expired {q : ℕ} (hq : w.reset q = .waiting) (hc : w.registry.closes = 0) :
      Step w (.expired q) { w with reset := Function.update w.reset q .expired }

/-! ### Identifiers -/

theorem nextFree_fresh {live : List (BitVec 64)} {tries : ℕ} {id next : BitVec 64}
    (h : nextFree live tries id = some next) : next ∉ live := by
  induction tries generalizing id with
  | zero => simp [nextFree] at h
  | succ tries ih =>
    by_cases hid : id + 1 ∈ live
    · rw [nextFree, if_pos hid] at h
      exact ih h
    · rw [nextFree, if_neg hid] at h
      exact Option.some.inj h ▸ hid

/-! ### What one event does -/

theorem step_acquire {w w' : World ρ} {k : ℕ} {action : Option String}
    (hk : w.call k = .derived action) (h : w.acquire k action = some w') :
    Step w (.acquire k) w' := by
  unfold World.acquire at h
  by_cases hr : w.registry.revoked = true
  · rw [if_pos hr] at h
    exact Option.some.inj h ▸ .refuse hk hr
  · rw [if_neg hr, Option.map_eq_some_iff] at h
    obtain ⟨⟨id, registry⟩, hreg, rfl⟩ := h
    rw [Registry.registerLeaseLocked, Option.map_eq_some_iff] at hreg
    obtain ⟨id', hfree, heq⟩ := hreg
    obtain ⟨rfl, rfl⟩ := Prod.mk.inj heq
    exact .lease hk (by simpa using hr) (nextFree_fresh hfree)

theorem step_cases {w w' : World ρ} {e : Event ρ} (h : step w e = some w') : Step w e w' := by
  cases e with
  | bind id registered => exact Option.some.inj h ▸ .bind
  | derive k action =>
    simp only [step] at h
    split at h
    · next hk => exact Option.some.inj h ▸ .derive hk
    · cases h
  | acquire k =>
    simp only [step] at h
    split at h
    · next action hk => exact step_acquire hk h
    · cases h
  | drop k =>
    simp only [step] at h
    split at h
    · next hk => exact Option.some.inj h ▸ .drop hk
    · cases h
  | release k =>
    simp only [step] at h
    split at h
    · next hk => exact Option.some.inj h ▸ .enter hk
    · next hne hk => exact Option.some.inj h ▸ .again hk hne
    · cases h
  | cancel k =>
    simp only [step] at h
    split at h
    · next hk => exact Option.some.inj h ▸ .cancel hk
    · cases h
  | unregister k =>
    simp only [step] at h
    split at h
    · next hk => exact Option.some.inj h ▸ .unregister hk
    · cases h
  | parent k => exact Option.some.inj h ▸ .parent
  | revoke => exact Option.some.inj h ▸ .revoke
  | reset q =>
    simp only [step] at h
    split at h
    · next hq => exact Option.some.inj h ▸ .reset hq
    · cases h
  | read q =>
    simp only [step] at h
    split at h
    · next hq => exact Option.some.inj h ▸ .read hq
    · cases h
  | drained q =>
    simp only [step] at h
    split at h
    · next hq =>
      split at h
      · cases h
      · next hc => exact Option.some.inj h ▸ .drained hq hc
    · cases h
  | expired q =>
    simp only [step] at h
    split at h
    · next hq =>
      split at h
      · next hc => exact Option.some.inj h ▸ .expired hq hc
      · cases h
    · cases h

/-! ### What holds in every state -/

/-- The lease of a call that is not released. -/
def Call.live : Call ρ → Option (BitVec 64)
  | .held _ _ .done => none
  | .held id _ _ => some id
  | _ => none

/-- The call got a lease. -/
def Call.leased : Call ρ → Bool
  | .held _ _ _ => true
  | _ => false

/-- The channel is closed once and exactly when the registry is revoked without leases. -/
structure Drained (registry : Registry ρ) : Prop where
  flag : registry.drainClosed ↔ registry.revoked ∧ registry.leases = []
  closes : registry.closes = if registry.drainClosed then 1 else 0

structure Inv (w : World ρ) : Prop where
  nodup : (w.registry.leases.map Prod.fst).Nodup
  mem : ∀ id k, (id, k) ∈ w.registry.leases ↔ (w.call k).live = some id
  drained : Drained w.registry
  released : ∀ k, (w.call k).leased → (w.call k).live = none → w.cancelled k
  entered : ∀ k id registered, w.call k = .held id registered .cancelled → w.cancelled k
  revoked : w.registry.revoked → ∀ k, (w.call k).leased → w.cancelled k
  resetting : ∀ q, w.reset q ≠ .idle → w.registry.revoked
  reset : ∀ q, w.reset q = .drained → w.registry.closes ≠ 0

theorem inv_init : Inv (World.init : World ρ) := by
  refine ⟨by simp [World.init, Registry.new], ?_, ⟨?_, rfl⟩, ?_, ?_, ?_, ?_, ?_⟩
  all_goals simp [World.init, Registry.new, Call.live, Call.leased]

/-- `closeDrainedLocked` keeps the channel's account. -/
theorem drained_closeDrainedLocked {registry : Registry ρ}
    (hflag : registry.drainClosed → registry.revoked ∧ registry.leases = [])
    (hcloses : registry.closes = if registry.drainClosed then 1 else 0) :
    Drained registry.closeDrainedLocked := by
  unfold Registry.closeDrainedLocked
  split
  · next h =>
    simp only [Bool.and_eq_true, List.isEmpty_iff, Bool.not_eq_true'] at h
    exact ⟨by simp [h.1.1, h.1.2], by simp [hcloses, h.2]⟩
  · next h =>
    refine ⟨⟨hflag, fun hr => ?_⟩, hcloses⟩
    by_contra hd
    exact h (by simp [hr.1, hr.2, hd])

@[simp] theorem closeDrainedLocked_leases (registry : Registry ρ) :
    registry.closeDrainedLocked.leases = registry.leases := by
  unfold Registry.closeDrainedLocked
  split <;> rfl

@[simp] theorem closeDrainedLocked_revoked (registry : Registry ρ) :
    registry.closeDrainedLocked.revoked = registry.revoked := by
  unfold Registry.closeDrainedLocked
  split <;> rfl

theorem closes_le_closeDrainedLocked (registry : Registry ρ) :
    registry.closes ≤ registry.closeDrainedLocked.closes := by
  unfold Registry.closeDrainedLocked
  split <;> simp

@[simp] theorem revoke_leases (registry : Registry ρ) : registry.revoke.leases = registry.leases := by
  unfold Registry.revoke
  split <;> simp

@[simp] theorem revoke_revoked (registry : Registry ρ) : registry.revoke.revoked = true := by
  unfold Registry.revoke
  split
  · next h => exact h
  · simp

theorem closes_le_revoke (registry : Registry ρ) : registry.closes ≤ registry.revoke.closes := by
  unfold Registry.revoke
  split
  · exact le_rfl
  · exact closes_le_closeDrainedLocked { registry with revoked := true, actions := fun _ => none }

theorem drained_revoke {registry : Registry ρ} (h : Drained registry) :
    Drained registry.revoke := by
  unfold Registry.revoke
  split
  · exact h
  · next hr =>
    refine drained_closeDrainedLocked (fun hd => ?_) h.closes
    exact absurd (h.flag.mp hd).1 hr

theorem drained_unregister {registry : Registry ρ} (h : Drained registry) (id : BitVec 64) :
    Drained (registry.unregister id) := by
  refine drained_closeDrainedLocked (fun hd => ?_) h.closes
  obtain ⟨hr, hl⟩ := h.flag.mp hd
  exact ⟨hr, by simp [hl]⟩

theorem bindPrepared_cases (registry : Registry ρ) (id : String) (registered : ρ) :
    ∃ actions, registry.bindPrepared id registered = { registry with actions := actions } := by
  unfold Registry.bindPrepared
  split
  · exact ⟨registry.actions, rfl⟩
  · split
    · exact ⟨registry.actions, rfl⟩
    · exact ⟨_, rfl⟩

section Frame

variable {w w' : World ρ}

/-- A step that leaves the leases as they are. -/
theorem Inv.frame (hw : Inv w) (hl : w'.registry.leases = w.registry.leases)
    (hd : Drained w'.registry) (hlive : ∀ k, (w'.call k).live = (w.call k).live)
    (hleased : ∀ k, (w'.call k).leased = (w.call k).leased)
    (hcancel : ∀ k, w.cancelled k → w'.cancelled k)
    (hentered : ∀ k id registered, w'.call k = .held id registered .cancelled →
      w.call k = .held id registered .cancelled ∨ w'.cancelled k)
    (hrevoked : w'.registry.revoked → w.registry.revoked ∨
      ∀ k id, (id, k) ∈ w.registry.leases → w'.cancelled k)
    (hresetting : ∀ q, w'.reset q ≠ .idle → w'.registry.revoked)
    (hreset : ∀ q, w'.reset q = .drained → w'.registry.closes ≠ 0) : Inv w' where
  nodup := by
    rw [hl]
    exact hw.nodup
  mem id k := by rw [hl, hlive, hw.mem]
  drained := hd
  released k h1 h2 := hcancel k (hw.released k (by rwa [← hleased]) (by rwa [← hlive]))
  entered k id registered h := by
    rcases hentered k id registered h with h | h
    · exact hcancel k (hw.entered k id registered h)
    · exact h
  revoked hr k hk := by
    rw [hleased] at hk
    rcases hrevoked hr with hr | hall
    · exact hcancel k (hw.revoked hr k hk)
    · cases hlk : (w.call k).live with
      | none => exact hcancel k (hw.released k hk hlk)
      | some id => exact hall k id ((hw.mem id k).mpr hlk)
  resetting := hresetting
  reset := hreset

/-- A step of one call that keeps its lease and the registry. -/
theorem Inv.go {k : ℕ} {next : Call ρ} (hw : Inv w) (hlive : next.live = (w.call k).live)
    (hleased : next.leased = (w.call k).leased)
    (hnext : ∀ id registered, next = .held id registered .cancelled → w.cancelled k) :
    Inv (w.go k next) := by
  refine hw.frame rfl hw.drained ?_ ?_ (fun _ => id) ?_ .inl hw.resetting hw.reset
  · intro i
    by_cases hi : i = k <;> simp [World.go, hi, hlive]
  · intro i
    by_cases hi : i = k <;> simp [World.go, hi, hleased]
  · intro i id registered h
    by_cases hi : i = k
    · refine .inr (hi ▸ hnext id registered ?_)
      simpa [World.go, hi] using h
    · exact .inl (by simpa [World.go, Function.update_apply, hi] using h)

theorem Inv.cancel (hw : Inv w) (k : ℕ) : Inv (w.cancel k) := by
  refine hw.frame rfl hw.drained (fun _ => rfl) (fun _ => rfl) ?_ (fun _ _ _ => .inl) .inl
    hw.resetting hw.reset
  intro i hi
  by_cases hik : i = k <;> simp [World.cancel, hik, hi]

theorem Inv.revoke (hw : Inv w) : Inv w.revoke := by
  refine hw.frame (by simp [World.revoke]) (drained_revoke hw.drained) (fun _ => rfl)
    (fun _ => rfl) ?_ (fun _ _ _ => .inl) ?_ (fun _ _ => by simp [World.revoke]) ?_
  · intro i hi
    simp [World.revoke, hi]
  · intro _
    by_cases hr : w.registry.revoked = true
    · exact .inl hr
    · refine .inr fun k id hmem => ?_
      have hr : w.registry.revoked = false := by simpa using hr
      have hany : w.registry.leases.any (·.2 = k) = true :=
        List.any_eq_true.mpr ⟨(id, k), hmem, by simp⟩
      simp [World.revoke, hr, hany]
  · intro q hq
    have hne := hw.reset q hq
    have hle := closes_le_revoke w.registry
    have hgoal : w.registry.revoke.closes ≠ 0 := by omega
    exact hgoal

theorem Inv.resets {q : ℕ} {next : Reset} (hw : Inv w) (hr : w.registry.revoked)
    (hnext : next = .drained → w.registry.closes ≠ 0) :
    Inv { w with reset := Function.update w.reset q next } := by
  refine hw.frame rfl hw.drained (fun _ => rfl) (fun _ => rfl) (fun _ => id) (fun _ _ _ => .inl)
    .inl (fun _ _ => hr) ?_
  intro p hp
  by_cases hpq : p = q
  · exact hnext (by simpa [hpq] using hp)
  · exact hw.reset p (by simpa [Function.update_apply, hpq] using hp)

theorem Inv.lease {k : ℕ} {action : Option String} {id : BitVec 64} {registered : Option ρ}
    (hw : Inv w) (hk : w.call k = .derived action) (hr : w.registry.revoked = false)
    (hid : id ∉ w.registry.leases.map Prod.fst) :
    Inv { w.go k (.held id registered .fresh) with
      registry := { w.registry with
        nextLeaseID := id
        leases := (id, k) :: w.registry.leases } } := by
  have hnd : ¬ w.registry.drainClosed := by simp [hw.drained.flag, hr]
  have hmem : ∀ i x, (x, i) ∈ w.registry.leases → i ≠ k := by
    rintro i x hx rfl
    have hlive := (hw.mem x i).mp hx
    simp [hk, Call.live] at hlive
  refine ⟨?_, ?_, ⟨by simp [hnd, hr], hw.drained.closes⟩, ?_, ?_, ?_, hw.resetting, hw.reset⟩
  · exact List.nodup_cons.mpr ⟨hid, hw.nodup⟩
  · intro x i
    by_cases hi : i = k
    · subst hi
      have hno : (x, i) ∉ w.registry.leases := fun hx => hmem i x hx rfl
      simp [World.go, Call.live, hno, eq_comm]
    · simpa [World.go, Function.update_apply, hi] using hw.mem x i
  · intro i h1 h2
    by_cases hi : i = k
    · simp [World.go, hi, Call.live] at h2
    · simp only [World.go, Function.update_of_ne hi] at h1 h2 ⊢
      exact hw.released i h1 h2
  · intro i x reg h
    by_cases hi : i = k
    · simp [World.go, hi] at h
    · simp only [World.go, Function.update_of_ne hi] at h ⊢
      exact hw.entered i x reg h
  · intro h
    simp [hr] at h

theorem Inv.unregister {k : ℕ} {id : BitVec 64} {registered : Option ρ} (hw : Inv w)
    (hk : w.call k = .held id registered .cancelled) :
    Inv { w.go k (.held id registered .done) with registry := w.registry.unregister id } := by
  have hin : (id, k) ∈ w.registry.leases := (hw.mem id k).mpr (by simp [hk, Call.live])
  -- no other lease has the identifier that is deleted
  have honly : ∀ i, (id, i) ∈ w.registry.leases → i = k := by
    intro i hi
    have h := List.inj_on_of_nodup_map hw.nodup hi hin rfl
    exact (Prod.mk.inj h).2
  have hcancelled : w.cancelled k = true := hw.entered k id registered hk
  have hleases : (w.registry.unregister id).leases = w.registry.leases.filter (·.1 ≠ id) := by
    simp [Registry.unregister]
  have hrevoked : (w.registry.unregister id).revoked = w.registry.revoked := by
    simp [Registry.unregister]
  have hcloses : w.registry.closes ≤ (w.registry.unregister id).closes :=
    closes_le_closeDrainedLocked
      { w.registry with leases := w.registry.leases.filter (·.1 ≠ id) }
  refine ⟨?_, ?_, drained_unregister hw.drained id, ?_, ?_, ?_, ?_, ?_⟩
  · rw [hleases]
    exact hw.nodup.sublist (List.filter_sublist.map _)
  · intro x i
    rw [hleases]
    by_cases hi : i = k
    · subst hi
      have hx : (x, i) ∈ w.registry.leases → x = id := by
        intro hx
        have hlive := (hw.mem x i).mp hx
        simpa [hk, Call.live, eq_comm] using hlive
      simpa [World.go, Call.live] using hx
    · have hx : (x, i) ∈ w.registry.leases → x ≠ id := by
        rintro hx rfl
        exact hi (honly i hx)
      rw [List.mem_filter]
      simp only [World.go, Function.update_of_ne hi, ← hw.mem]
      exact ⟨And.left, fun h => ⟨h, by simpa using hx h⟩⟩
  · intro i h1 h2
    by_cases hi : i = k
    · exact hi ▸ hcancelled
    · simp only [World.go, Function.update_of_ne hi] at h1 h2 ⊢
      exact hw.released i h1 h2
  · intro i x reg h
    by_cases hi : i = k
    · exact hi ▸ hcancelled
    · simp only [World.go, Function.update_of_ne hi] at h ⊢
      exact hw.entered i x reg h
  · intro hr i hi
    by_cases hik : i = k
    · exact hik ▸ hcancelled
    · simp only [World.go, Function.update_of_ne hik] at hi ⊢
      exact hw.revoked (hrevoked ▸ hr) i hi
  · intro q hq
    rw [hrevoked]
    exact hw.resetting q hq
  · intro q hq
    have hne := hw.reset q hq
    have hgoal : (w.registry.unregister id).closes ≠ 0 := by omega
    exact hgoal

end Frame

theorem inv_step {w w' : World ρ} {e : Event ρ} (hw : Inv w) (h : Step w e w') : Inv w' := by
  cases h with
  | @bind id registered =>
    obtain ⟨actions, hb⟩ := bindPrepared_cases w.registry id registered
    rw [hb]
    exact hw.frame rfl ⟨hw.drained.flag, hw.drained.closes⟩ (fun _ => rfl) (fun _ => rfl)
      (fun _ h => h) (fun _ _ _ => .inl) .inl hw.resetting hw.reset
  | derive hk => exact hw.go (by simp [hk, Call.live]) (by simp [hk, Call.leased]) (by simp)
  | refuse hk hr => exact hw.go (by simp [hk, Call.live]) (by simp [hk, Call.leased]) (by simp)
  | lease hk hr hid => exact hw.lease hk hr hid
  | @drop k hk =>
    exact (hw.cancel k).go (by simp [World.cancel, hk, Call.live])
      (by simp [World.cancel, hk, Call.leased]) (by simp)
  | enter hk => exact hw.go (by simp [hk, Call.live]) (by simp [hk, Call.leased]) (by simp)
  | again hk hne => exact hw
  | @cancel k id registered hk =>
    exact (hw.cancel k).go (by simp [World.cancel, hk, Call.live])
      (by simp [World.cancel, hk, Call.leased]) (by simp [World.cancel])
  | unregister hk => exact hw.unregister hk
  | parent => exact hw.cancel _
  | revoke => exact hw.revoke
  | reset hq => exact hw.revoke.resets (by simp [World.revoke]) (by simp)
  | @read q hq => exact hw.resets (hw.resetting q (by simp [hq])) (by simp)
  | @drained q hq hc => exact hw.resets (hw.resetting q (by simp [hq])) fun _ => hc
  | @expired q hq hc => exact hw.resets (hw.resetting q (by simp [hq])) (by simp)

/-! ### Every interleaving -/

/-- The event is the section of a `Revoke`. -/
def Event.revokes : Event ρ → Bool
  | .revoke => true
  | .reset _ => true
  | _ => false

theorem Step.revoked_eq {w w' : World ρ} {e : Event ρ} (h : Step w e w') :
    w'.registry.revoked = (w.registry.revoked || e.revokes) := by
  cases h with
  | @bind id registered =>
    obtain ⟨actions, hb⟩ := bindPrepared_cases w.registry id registered
    simp [hb, Event.revokes]
  | refuse hk hr => simp [World.go, Event.revokes]
  | _ => simp [World.go, World.cancel, World.revoke, Registry.unregister, Event.revokes]

theorem inv_run {es : List (Event ρ)} {w : World ρ} (h : Run es w) :
    Inv w ∧ w.registry.revoked = es.any Event.revokes := by
  refine run_induction (P := fun es w => Inv w ∧ w.registry.revoked = es.any Event.revokes)
    ⟨inv_init, rfl⟩ ?_ h
  intro es e w w' ⟨hw, hr⟩ hs
  exact ⟨inv_step hw (step_cases hs), by simp [(step_cases hs).revoked_eq, hr]⟩

/-- The call returned, or is about to return, that the registry is revoked. -/
def Call.rejected : Call ρ → Bool
  | .refused => true
  | .failed => true
  | _ => false

theorem Step.rejected {w w' : World ρ} {e : Event ρ} {k : ℕ} (h : Step w e w')
    (hk : (w.call k).rejected) : (w'.call k).rejected := by
  cases h with
  | @derive i action hi | @refuse i action hi | @lease i action id hi | @enter i id reg hi
  | @cancel i id reg hi | @unregister i id reg hi =>
    have hne : k ≠ i := by
      rintro rfl
      simp [hi, Call.rejected] at hk
    simpa [World.go, World.cancel, Function.update_apply, hne] using hk
  | @drop i hi =>
    by_cases hki : k = i
    · simp [World.go, hki, Call.rejected]
    · simpa [World.go, World.cancel, Function.update_apply, hki] using hk
  | _ => exact hk

/-- The release function of the lease was called. -/
def Call.releasing : Call ρ → Bool
  | .held _ _ .fresh => false
  | .held _ _ _ => true
  | _ => false

theorem Step.releasing {w w' : World ρ} {e : Event ρ} {k : ℕ} (h : Step w e w')
    (hk : (w.call k).releasing) : (w'.call k).releasing := by
  cases h with
  | @derive i action hi | @refuse i action hi | @lease i action id hi | @enter i id reg hi
  | @drop i hi =>
    have hne : k ≠ i := by
      rintro rfl
      simp [hi, Call.releasing] at hk
    simpa [World.go, World.cancel, Function.update_apply, hne] using hk
  | @cancel i id reg hi | @unregister i id reg hi =>
    by_cases hki : k = i
    · simp [World.go, hki, Call.releasing]
    · simpa [World.go, World.cancel, Function.update_apply, hki] using hk
  | _ => exact hk

theorem Step.releasing_of_release {w w' : World ρ} {k : ℕ} (h : Step w (.release k) w') :
    (w'.call k).releasing := by
  cases h with
  | enter hk => simp [World.go, Call.releasing]
  | @again k id reg release hk hne =>
    rw [hk]
    cases release <;> first | rfl | exact absurd rfl hne

theorem releasing_of_mem {es : List (Event ρ)} {w : World ρ} {k : ℕ} (h : Run es w)
    (hk : .release k ∈ es) : (w.call k).releasing := by
  refine run_induction (P := fun es w => .release k ∈ es → (w.call k).releasing) (by simp) ?_ h hk
  intro es e w w' ih hs hk
  rcases List.mem_append.mp hk with hk | hk
  · exact (step_cases hs).releasing (ih hk)
  · obtain rfl := List.mem_singleton.mp hk
    exact (step_cases hs).releasing_of_release

theorem rejected_of_revoked {before after : List (Event ρ)} {k : ℕ} {w : World ρ}
    (h : Run (before ++ .acquire k :: after) w) (hr : before.any Event.revokes) :
    (w.call k).rejected := by
  obtain ⟨m, m', hm, hstep, hrest⟩ := run_split h
  have hs := step_cases hstep
  have hrevoked : m.registry.revoked = true := by rw [(inv_run hm).2, hr]
  have hk : (m'.call k).rejected := by
    cases hs with
    | refuse hk hr => simp [World.go, Call.rejected]
    | lease hk hr hid => simp [hr] at hrevoked
  exact run_induction (P := fun _ w => (w.call k).rejected) hk
    (fun _ _ _ _ hk hs => (step_cases hs).rejected hk) hrest

/-- A second release of a lease can be left out of the run. -/
theorem release_twice {before after : List (Event ρ)} {k : ℕ} {w : World ρ}
    (h : Run (before ++ .release k :: after) w) (hk : .release k ∈ before) :
    Run (before ++ after) w := by
  obtain ⟨m, m', hm, hstep, hrest⟩ := run_split h
  have hs := step_cases hstep
  have hreleasing := releasing_of_mem hm hk
  have hsame : m' = m := by
    cases hs with
    | enter hk => simp [hk, Call.releasing] at hreleasing
    | again hk hne => rfl
  rw [Run, run_append, hm]
  exact hsame ▸ hrest

/-- Every lease that was given is released. -/
def World.released (w : World ρ) : Prop := ∀ k, (w.call k).leased → (w.call k).live = none

theorem released_iff {w : World ρ} (hw : Inv w) : w.released ↔ w.registry.leases = [] := by
  constructor
  · intro h
    refine List.eq_nil_iff_forall_not_mem.mpr fun ⟨id, k⟩ hmem => ?_
    have hlive := (hw.mem id k).mp hmem
    have hleased : (w.call k).leased := by
      cases hc : w.call k with
      | held id registered release => rfl
      | _ => simp [hc, Call.live] at hlive
    simp [h k hleased] at hlive
  · intro h k _
    cases hlive : (w.call k).live with
    | none => rfl
    | some id =>
      have hmem := (hw.mem id k).mpr hlive
      simp [h] at hmem

/-- **The leases of the registry, over every interleaving.** After a `Revoke` no `acquire` gets a
lease and every leased context is cancelled; `Reset` returns nil only when every lease is released;
the channel is closed at most once, and it is closed exactly when the registry is revoked and every
lease is released; releasing a lease again changes nothing; and live leases have different
identifiers. -/
theorem lease_interleavings {es : List (Event ρ)} {w : World ρ} (h : Run es w) :
    (∀ before after k, es = before ++ .acquire k :: after → before.any Event.revokes →
      (w.call k).rejected) ∧
    (es.any Event.revokes → ∀ k, (w.call k).leased → w.cancelled k) ∧
    (∀ q, w.reset q = .drained → w.released) ∧
    w.registry.closes ≤ 1 ∧
    (w.registry.closes = 1 ↔ es.any Event.revokes ∧ w.released) ∧
    (∀ before after k, es = before ++ .release k :: after → .release k ∈ before →
      Run (before ++ after) w) ∧
    (∀ k k' id, (w.call k).live = some id → (w.call k').live = some id → k = k') := by
  obtain ⟨hw, hr⟩ := inv_run h
  have hcloses := hw.drained.closes
  have hone : w.registry.closes = 1 ↔ es.any Event.revokes ∧ w.released := by
    rw [released_iff hw, ← hr, ← hw.drained.flag]
    by_cases hd : w.registry.drainClosed <;> simp [hcloses, hd]
  have hle : w.registry.closes ≤ 1 := by
    rw [hcloses]
    split <;> omega
  refine ⟨?_, ?_, ?_, hle, hone, ?_, ?_⟩
  · rintro before after k rfl hrevoked
    exact rejected_of_revoked h hrevoked
  · intro hrevoked
    exact hw.revoked (hr.trans hrevoked)
  · intro q hq
    have hne := hw.reset q hq
    exact (hone.mp (by omega)).2
  · rintro before after k rfl hk
    exact release_twice h hk
  · intro k k' id hk hk'
    have hmem := List.inj_on_of_nodup_map hw.nodup ((hw.mem id k).mpr hk)
      ((hw.mem id k').mpr hk') rfl
    exact (Prod.mk.inj hmem).2

/-- A lease is revoked, released twice and drained; an `acquire` that had derived its context before
the `Revoke` is rejected. -/
theorem lease_interleavings_drain :
    ∃ w : World Unit, Run [.derive 0 none, .acquire 0, .derive 1 (some "a"), .reset 0, .read 0,
        .acquire 1, .release 0, .cancel 0, .unregister 0, .release 0, .drained 0] w ∧
      (w.call 1).rejected ∧ w.cancelled 0 ∧ w.released ∧ w.registry.closes = 1 := by
  obtain ⟨w, hw⟩ : ∃ w : World Unit, Run [.derive 0 none, .acquire 0, .derive 1 (some "a"),
    .reset 0, .read 0, .acquire 1, .release 0, .cancel 0, .unregister 0, .release 0,
    .drained 0] w := ⟨_, rfl⟩
  obtain ⟨hrejected, hcancelled, hreset, -, hone, -, -⟩ := lease_interleavings hw
  have hreleased : w.released := hreset 0 (by cases hw; rfl)
  refine ⟨w, hw, ?_, ?_, hreleased, hone.mpr ⟨rfl, hreleased⟩⟩
  · exact hrejected [.derive 0 none, .acquire 0, .derive 1 (some "a"), .reset 0, .read 0]
      [.release 0, .cancel 0, .unregister 0, .release 0, .drained 0] 1 rfl rfl
  · exact hcancelled rfl 0 (by cases hw; rfl)

end Modary.Runtime.Leases
