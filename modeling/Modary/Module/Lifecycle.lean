import Modary.Module.Cleanups

/-! # What a Host keeps

The invariant of every run. `Staged` relates the state of the Host to its threads. `Built` says that
runtimes are made one at a time, and that only the one made last can still be added to. The third
part is the ledger of what cleanup has left. -/

namespace Modary.Module.Lifecycle

open Modary.Lib.GoText Modary.Module.Verify
open Modary.Module.Services Modary.Module.Host Modary.Module.Cleanups

/-! ### The threads -/

/-- The runtime a startup has made and not yet appended. -/
def holder : Starter → Option ℕ
  | .early i _ | .calling i _ | .late i _ _ | .factory i _ _ => some i
  | _ => none

/-- The runtime whose scope may be open. -/
def installing : Starter → Option ℕ
  | .early i _ | .calling i _ => some i
  | _ => none

/-- The runtime whose last resolver may be open. -/
def resolving : Starter → Option ℕ
  | .factory i _ _ => some i
  | _ => none

/-- The modules a startup has still to visit. -/
def todo : Starter → List GoString
  | .entering order => order
  | .top todo | .early _ todo | .calling _ todo | .late _ _ todo | .factory _ _ todo => todo
  | _ => []

/-- The startup has begun and not completed. -/
def busy : Starter → Bool
  | .idle | .returning | .gone => false
  | _ => true

/-- The startup is cleaning up. -/
def cleaningUp : Starter → Bool
  | .cleaning _ _ => true
  | _ => false

/-- The state of the Host and the threads. -/
inductive Staged (w : World) : Prop
  | new (hs : w.starter = .idle) (hf : w.finisher = .idle) (hstate : w.host.state = .new)
      (hdone : w.host.shutdownDone = 0) (hreq : w.requested = false) (hc : w.created = [])
      (hr : w.host.runtimes = [])
  | starting (hs : busy w.starter = true) (hf : w.finisher = .idle)
      (hstate : w.host.state = .starting) (hdone : w.host.shutdownDone = 0)
      (hreq : w.requested = true → w.host.stopRequested = true)
  | running (hs : w.starter = .returning ∨ w.starter = .gone) (hf : w.finisher = .idle)
      (hstate : w.host.state = .running) (hdone : w.host.shutdownDone = 0)
      (hreq : w.requested = false)
  | stopping (hs : w.starter = .returning ∨ w.starter = .gone)
      (hf : w.finisher ≠ .idle ∧ w.finisher ≠ .gone) (hstate : w.host.state = .stopping)
      (hdone : w.host.shutdownDone = 0)
  | ended (hs : w.starter = .returning ∨ w.starter = .gone)
      (hf : w.finisher = .idle ∨ w.finisher = .gone)
      (hstate : w.host.state = .stopped ∨ w.host.state = .failed)
      (hdone : w.host.shutdownDone = 1)

/-- Runtimes are made one at a time. -/
structure Built (w : World) : Prop where
  numbered : w.host.runtimes = List.range w.host.runtimes.length
  started : w.host.started = (w.created.take w.host.runtimes.length).map Runtime.id
  ids : (w.created.map Runtime.id ++ todo w.starter).Nodup
  manifest : ∀ runtime ∈ w.created, runtime.manifest.id = runtime.id ∧
    ∃ registration ∈ w.taken, registration.manifest = runtime.manifest
  held : ∀ i, holder w.starter = some i →
    w.host.runtimes.length = i ∧ w.created.length = i + 1
  unheld : holder w.starter = none → cleaningUp w.starter = false → w.host.shutdownDone = 0 →
    w.created.length = w.host.runtimes.length
  bounded : w.host.runtimes.length ≤ w.created.length
  scope : ∀ i runtime, w.created[i]? = some runtime → runtime.scope = true →
    installing w.starter = some i
  resolver : ∀ i runtime, w.created[i]? = some runtime → true ∈ runtime.resolvers →
    resolving w.starter = some i
  resolvers : ∀ runtime ∈ w.created, true ∉ runtime.resolvers.dropLast
  waiting : ∀ runtimes, w.finisher = .waiting runtimes → runtimes = w.host.runtimes
  unbuilt : w.starter = .validating → w.created = []

/-! ### The invariant -/

/-- **The invariant** of a Host and its threads. -/
structure Inv (w : World) : Prop where
  staged : Staged w
  built : Built w
  ledger : ∃ k, Ledger w.host w.created w.registered w.invoked (pointOf w) k

/-- The fields of a Host the invariant is about. -/
structure Agrees (host host' : Services.Host) : Prop where
  state : host'.state = host.state
  stopRequested : host'.stopRequested = host.stopRequested
  shutdownDone : host'.shutdownDone = host.shutdownDone
  runtimes : host'.runtimes = host.runtimes
  started : host'.started = host.started
  services : host'.services = host.services
  database : host'.database = host.database ∧ host'.databaseOwner = host.databaseOwner
  persistence : host'.persistence = host.persistence ∧
    host'.persistenceOwner = host.persistenceOwner

section Steps

variable {w : World}

/-- The other fields may change at any time. -/
theorem Inv.of_agrees (h : Inv w) {host : Services.Host} (ha : Agrees w.host host)
    (overdue : List ℕ) (published : List ServiceRecord) (resolved : List Resolution) :
    Inv { w with host, overdue, published, resolved } := by
  refine ⟨?_, ?_, ?_⟩
  · cases h.staged with
    | new hs hf hstate hdone hreq hc hr =>
      exact .new hs hf (ha.state.trans hstate) (ha.shutdownDone.trans hdone) hreq hc
        (ha.runtimes.trans hr)
    | starting hs hf hstate hdone hreq =>
      exact .starting hs hf (ha.state.trans hstate) (ha.shutdownDone.trans hdone)
        fun hr => ha.stopRequested.trans (hreq hr)
    | running hs hf hstate hdone hreq =>
      exact .running hs hf (ha.state.trans hstate) (ha.shutdownDone.trans hdone) hreq
    | stopping hs hf hstate hdone =>
      exact .stopping hs hf (ha.state.trans hstate) (ha.shutdownDone.trans hdone)
    | ended hs hf hstate hdone =>
      refine .ended hs hf ?_ (ha.shutdownDone.trans hdone)
      show host.state = _ ∨ host.state = _
      rwa [ha.state]
  · have hb := h.built
    refine { hb with
      numbered := ?_, started := ?_, held := ?_, unheld := ?_, bounded := ?_, waiting := ?_ }
    · show host.runtimes = _
      rw [ha.runtimes]
      exact hb.numbered
    · show host.started = _
      rw [ha.started, ha.runtimes]
      exact hb.started
    · show ∀ i, _ → host.runtimes.length = i ∧ _
      rw [ha.runtimes]
      exact hb.held
    · show _ → _ → host.shutdownDone = 0 → _ = host.runtimes.length
      rw [ha.runtimes, ha.shutdownDone]
      exact hb.unheld
    · show host.runtimes.length ≤ _
      rw [ha.runtimes]
      exact hb.bounded
    · show ∀ runtimes, _ → runtimes = host.runtimes
      rw [ha.runtimes]
      exact hb.waiting
  · obtain ⟨k, hl⟩ := h.ledger
    have hp : pointOf { w with host, overdue, published, resolved } = pointOf w := by
      simp only [pointOf, ha.shutdownDone]
    rw [hp]
    exact ⟨k, hl.of_host ha.services ha.database ha.persistence⟩

/-- A busy startup: the Host is starting. -/
theorem Staged.of_busy (h : Staged w) (hb : busy w.starter = true) :
    w.finisher = .idle ∧ w.host.state = .starting ∧ w.host.shutdownDone = 0 ∧
      (w.requested = true → w.host.stopRequested = true) := by
  cases h with
  | new hs => simp [hs, busy] at hb
  | starting _ hf hstate hdone hreq => exact ⟨hf, hstate, hdone, hreq⟩
  | running hs => rcases hs with hs | hs <;> simp [hs, busy] at hb
  | stopping hs => rcases hs with hs | hs <;> simp [hs, busy] at hb
  | ended hs => rcases hs with hs | hs <;> simp [hs, busy] at hb

/-- Before cleanup all runtimes are left. -/
theorem pointOf_before (hc : cleaningUp w.starter = false)
    (hf : w.finisher = .idle) (hd : w.host.shutdownDone = 0) :
    pointOf w = .reset (List.range w.created.length) := by
  unfold pointOf
  rw [hf]
  cases hs : w.starter <;> simp_all [cleaningUp]

/-- The channel is closed: cleanup has returned. -/
theorem Inv.pointOf_done (h : Inv w) (hd : w.host.shutdownDone = 1) : pointOf w = .returned := by
  cases h.staged with
  | new _ _ _ hdone => omega
  | starting _ _ _ hdone => omega
  | running _ _ _ hdone => omega
  | stopping _ _ _ hdone => omega
  | ended hs hf _ hdone =>
    rcases hs with hs | hs <;> rcases hf with hf | hf <;>
      simp only [pointOf, hs, hf, hdone, one_ne_zero, if_false]

theorem pointOf_finishStart (hs : w.starter = .returning) :
    pointOf w.finishStart = pointOf w := by
  cases hf : w.finisher <;> simp [pointOf, World.finishStart, hs, hf]

/-- Before cleanup the ledger has all runtimes. -/
theorem Inv.ledger_before (h : Inv w) (hb : busy w.starter = true)
    (hc : cleaningUp w.starter = false) :
    Ledger w.host w.created w.registered w.invoked (.reset (List.range w.created.length))
      w.created.length := by
  obtain ⟨hf, -, hd, -⟩ := h.staged.of_busy hb
  obtain ⟨k, hl⟩ := h.ledger
  rw [pointOf_before hc hf hd] at hl
  have hk : (List.range w.created.length).reverse = (List.range k).reverse := hl.rest
  have := congrArg List.length hk
  simp only [List.length_reverse, List.length_range] at this
  rwa [this] at hl ⊢

/-- What a change of the flags of a runtime keeps. -/
structure Keeps (f : Runtime → Runtime) : Prop where
  id : ∀ r, (f r).id = r.id
  manifest : ∀ r, (f r).manifest = r.manifest
  services : ∀ r, (f r).services = r.services
  cleanups : ∀ r, (f r).cleanups = r.cleanups
  cleaned : ∀ r, (f r).cleaned = r.cleaned

/-- **The startup proceeds**: it changes the flags of a runtime, and goes on or gives up. -/
theorem Inv.proceed (h : Inv w) (hb : busy w.starter = true)
    (hc : cleaningUp w.starter = false) {i : ℕ} {f : Runtime → Runtime} (hf : Keeps f)
    {next : Starter} (hb' : busy next = true)
    (hnext : cleaningUp next = false ∧ next ≠ .validating ∧ holder next = holder w.starter ∨
      ∃ failed ending, next = .cleaning ⟨.reset (List.range w.created.length), failed⟩ ending)
    (htodo : (todo next).Sublist (todo w.starter))
    (hscope : ∀ j r, (w.created.modify i f)[j]? = some r → r.scope = true →
      installing next = some j)
    (hresolver : ∀ j r, (w.created.modify i f)[j]? = some r →
      (true ∈ r.resolvers → resolving next = some j) ∧ true ∉ r.resolvers.dropLast) :
    Inv ((w.modify i f).goto next) := by
  obtain ⟨hidle, hstate, hdone, hreq⟩ := h.staged.of_busy hb
  have hl := h.ledger_before hb hc
  have hlen : (w.created.modify i f).length = w.created.length := List.length_modify ..
  have hmap : ∀ {β : Type} (g : Runtime → β), (∀ r, g (f r) = g r) →
      (w.created.modify i f).map g = w.created.map g := by
    intro β g hg
    apply List.ext_getElem?
    intro j
    simp only [List.getElem?_map, List.getElem?_modify]
    by_cases hij : i = j
    · simp [hij, Function.comp_def, hg]
    · simp [hij]
  refine ⟨.starting hb' hidle hstate hdone hreq, ?_, w.created.length, ?_⟩
  · have hbuilt := h.built
    refine
      { numbered := hbuilt.numbered, started := ?_, ids := ?_, manifest := ?_, held := ?_
        unheld := ?_, bounded := ?_, scope := hscope, resolver := fun j r hj => (hresolver j r hj).1
        resolvers := ?_, waiting := hbuilt.waiting, unbuilt := ?_ }
    · show w.host.started = ((w.created.modify i f).take _).map _
      rw [List.map_take, hmap _ hf.id, ← List.map_take]
      exact hbuilt.started
    · show ((w.created.modify i f).map _ ++ _).Nodup
      rw [hmap _ hf.id]
      exact hbuilt.ids.sublist (List.Sublist.append (List.Sublist.refl _) htodo)
    · intro r hr
      obtain ⟨j, hj⟩ := List.mem_iff_getElem?.mp hr
      rw [World.goto, World.modify, List.getElem?_modify] at hj
      obtain ⟨old, ho, rfl⟩ := Option.map_eq_some_iff.mp hj
      have hold := hbuilt.manifest old (List.mem_of_getElem? ho)
      split_ifs
      · rw [hf.manifest, hf.id]
        exact hold
      · exact hold
    · intro j hj
      rcases hnext with ⟨-, -, hh⟩ | ⟨failed, ending, rfl⟩
      · show w.host.runtimes.length = j ∧ (w.created.modify i f).length = j + 1
        rw [hlen]
        exact hbuilt.held j (hh ▸ hj)
      · cases hj
    · intro hn hclean hd
      rcases hnext with ⟨-, -, hh⟩ | ⟨failed, ending, rfl⟩
      · show (w.created.modify i f).length = _
        rw [hlen]
        exact hbuilt.unheld (hh ▸ hn) hc hd
      · cases hclean
    · show _ ≤ (w.created.modify i f).length
      rw [hlen]
      exact hbuilt.bounded
    · intro r hr
      obtain ⟨j, hj⟩ := List.mem_iff_getElem?.mp hr
      exact (hresolver j r hj).2
    · intro hv
      have hv : next = .validating := hv
      rcases hnext with ⟨-, hne, -⟩ | ⟨failed, ending, rfl⟩
      · exact absurd hv hne
      · cases hv
  · have hmod : Ledger w.host (w.created.modify i f) w.registered w.invoked
        (.reset (List.range w.created.length)) w.created.length :=
      hl.modify hf.id hf.services hf.cleanups fun _ => hf.cleaned
    rcases hnext with ⟨hclean, -⟩ | ⟨failed, ending, rfl⟩
    · have hp : pointOf ((w.modify i f).goto next) =
          .reset (List.range (w.created.modify i f).length) := pointOf_before hclean hidle hdone
      rw [hp, hlen]
      exact hmod
    · exact hmod

/-- The startup goes on without touching a runtime. -/
theorem Inv.goto (h : Inv w) (hb : busy w.starter = true) (hc : cleaningUp w.starter = false)
    {next : Starter} (hb' : busy next = true)
    (hnext : cleaningUp next = false ∧ next ≠ .validating ∧ holder next = holder w.starter ∨
      ∃ failed ending, next = .cleaning ⟨.reset (List.range w.created.length), failed⟩ ending)
    (htodo : (todo next).Sublist (todo w.starter))
    (hscope : ∀ j, installing w.starter = some j → installing next = some j)
    (hresolver : ∀ j, resolving w.starter = some j → resolving next = some j) :
    Inv (w.goto next) := by
  have hid : w.created.modify 0 id = w.created := by simp
  have hkeeps : Keeps id := ⟨fun _ => rfl, fun _ => rfl, fun _ => rfl, fun _ => rfl, fun _ => rfl⟩
  have hw : (w.modify 0 id).goto next = w.goto next := by
    simp only [World.modify, World.goto, hid]
  rw [← hw]
  refine h.proceed hb hc hkeeps hb' hnext htodo ?_ ?_
  · intro j r hj hs
    rw [hid] at hj
    exact hscope j (h.built.scope j r hj hs)
  · intro j r hj
    rw [hid] at hj
    exact ⟨fun hm => hresolver j (h.built.resolver j r hj hm),
      h.built.resolvers r (List.mem_of_getElem? hj)⟩

/-- `startFailure` finds every runtime. -/
theorem Built.runtimes_append (h : Built w) (hc : cleaningUp w.starter = false)
    (hd : w.host.shutdownDone = 0) :
    w.host.runtimes ++ (holder w.starter).toList = List.range w.created.length := by
  cases hh : holder w.starter with
  | none =>
    rw [h.unheld hh hc hd, Option.toList_none, List.append_nil]
    exact h.numbered
  | some i =>
    obtain ⟨hr, hl⟩ := h.held i hh
    rw [hl, List.range_succ, ← hr, ← h.numbered, hr]
    rfl

/-- The startup gives up where no scope is open. -/
theorem Inv.fail (h : Inv w) (hb : busy w.starter = true) (hc : cleaningUp w.starter = false)
    (hs : installing w.starter = none) (hr : resolving w.starter = none) :
    Inv (w.fail (holder w.starter)) := by
  obtain ⟨-, -, hd, -⟩ := h.staged.of_busy hb
  have hall := h.built.runtimes_append hc hd
  refine h.goto hb hc rfl (Or.inr ⟨false, .startFailure, ?_⟩) (List.nil_sublist _) ?_ ?_
  · rw [hall]
  · simp [hs]
  · simp [hr]

/-- The startup gives up and closes the scope or the resolver it opened. -/
theorem Inv.close_fail (h : Inv w) (hb : busy w.starter = true) (hc : cleaningUp w.starter = false)
    {i : ℕ} {f : Runtime → Runtime} (hf : Keeps f) (hi : holder w.starter = some i)
    (hclosed : ∀ (j : ℕ) (r : Runtime), (w.created.modify i f)[j]? = some r →
      r.scope = false ∧ true ∉ r.resolvers) :
    Inv ((w.modify i f).fail (some i)) := by
  obtain ⟨-, -, hd, -⟩ := h.staged.of_busy hb
  have hall := h.built.runtimes_append hc hd
  rw [hi] at hall
  refine h.proceed hb hc hf rfl (Or.inr ⟨false, .startFailure, ?_⟩) (List.nil_sublist _) ?_ ?_
  · rw [← hall]
    rfl
  · intro j r hj hs
    simp [(hclosed j r hj).1] at hs
  · intro j r hj
    refine ⟨fun hm => absurd hm (hclosed j r hj).2, fun hm => (hclosed j r hj).2 ?_⟩
    exact (List.dropLast_sublist _).subset hm

/-- What closing the scope of the runtime in hand leaves open: nothing. -/
theorem Built.expire (h : Built w) {i : ℕ} (hi : installing w.starter = some i)
    (hr : resolving w.starter = none) (j : ℕ) (r : Runtime)
    (hj : (w.created.modify i expire)[j]? = some r) : r.scope = false ∧ true ∉ r.resolvers := by
  rw [List.getElem?_modify] at hj
  obtain ⟨old, ho, rfl⟩ := Option.map_eq_some_iff.mp hj
  have hres : true ∉ old.resolvers := by
    intro hm
    have := h.resolver j old ho hm
    simp [hr] at this
  by_cases hij : i = j
  · simp [hij, Host.expire, hres]
  · simp only [hij, if_false]
    refine ⟨?_, hres⟩
    rw [← Bool.not_eq_true]
    intro hs
    have := h.scope j old ho hs
    rw [hi, Option.some.injEq] at this
    exact hij this

/-- What closing the resolver of the runtime in hand leaves open: nothing. -/
theorem Built.closeResolver (h : Built w) {i : ℕ} (hi : resolving w.starter = some i)
    (hs : installing w.starter = none) (j : ℕ) (r : Runtime)
    (hj : (w.created.modify i closeResolver)[j]? = some r) :
    r.scope = false ∧ true ∉ r.resolvers := by
  rw [List.getElem?_modify] at hj
  obtain ⟨old, ho, rfl⟩ := Option.map_eq_some_iff.mp hj
  have hscope : old.scope = false := by
    rw [← Bool.not_eq_true]
    intro hm
    have := h.scope j old ho hm
    simp [hs] at this
  by_cases hij : i = j
  · have hd := h.resolvers old (List.mem_of_getElem? ho)
    simp [hij, Host.closeResolver, hscope, hd]
  · simp only [hij, if_false]
    refine ⟨hscope, fun hm => ?_⟩
    have := h.resolver j old ho hm
    rw [hi, Option.some.injEq] at this
    exact hij this

theorem keeps_expire : Keeps expire :=
  ⟨fun _ => rfl, fun _ => rfl, fun _ => rfl, fun _ => rfl, fun _ => rfl⟩

theorem keeps_deactivate : Keeps deactivate :=
  ⟨fun _ => rfl, fun _ => rfl, fun _ => rfl, fun _ => rfl, fun _ => rfl⟩

theorem keeps_openResolver : Keeps openResolver :=
  ⟨fun _ => rfl, fun _ => rfl, fun _ => rfl, fun _ => rfl, fun _ => rfl⟩

theorem keeps_closeResolver : Keeps closeResolver :=
  ⟨fun _ => rfl, fun _ => rfl, fun _ => rfl, fun _ => rfl, fun _ => rfl⟩

/-- The runtime in hand is closed, and its module goes on. -/
theorem Inv.close_late (h : Inv w) (hb : busy w.starter = true) (hc : cleaningUp w.starter = false)
    {i : ℕ} {f : Runtime → Runtime} (hf : Keeps f) (hi : holder w.starter = some i)
    (hclosed : ∀ (j : ℕ) (r : Runtime), (w.created.modify i f)[j]? = some r →
      r.scope = false ∧ true ∉ r.resolvers) (acts : List Act) :
    Inv ((w.modify i f).goto (.late i acts (todo w.starter))) := by
  refine h.proceed hb hc hf rfl (Or.inl ⟨rfl, nofun, hi.symm⟩) (List.Sublist.refl _) ?_ ?_
  · intro j r hj hs
    simp [(hclosed j r hj).1] at hs
  · intro j r hj
    refine ⟨fun hm => absurd hm (hclosed j r hj).2, fun hm => (hclosed j r hj).2 ?_⟩
    exact (List.dropLast_sublist _).subset hm

/-- An act after the start callback. -/
theorem Inv.act (h : Inv w) {i : ℕ} {act : Act} {acts : List Act} {rest : List GoString}
    (hs : w.starter = .late i (act :: acts) rest) (registration : Registration)
    (outcome : Outcome) : Inv (w.act i registration acts rest outcome act) := by
  have hb : busy w.starter = true := by rw [hs]; rfl
  have hc : cleaningUp w.starter = false := by rw [hs]; rfl
  have hscope : installing w.starter = none := by rw [hs]; rfl
  have hres : resolving w.starter = none := by rw [hs]; rfl
  have hi : holder w.starter = some i := by rw [hs]; rfl
  have ht : todo w.starter = rest := by rw [hs]; rfl
  have hfail : Inv (w.fail (some i)) := by
    have := h.fail hb hc hscope hres
    rwa [hi] at this
  have hlate : Inv (w.goto (.late i acts rest)) := by
    refine h.goto hb hc rfl (Or.inl ⟨rfl, nofun, hi.symm⟩) ?_ ?_ ?_
    · rw [ht]
      exact List.Sublist.refl _
    · simp [hscope]
    · simp [hres]
  have hclosed : ∀ (j : ℕ) (r : Runtime), w.created[j]? = some r →
      r.scope = false ∧ true ∉ r.resolvers := by
    intro j r hj
    constructor
    · rw [← Bool.not_eq_true]
      intro hm
      have := h.built.scope j r hj hm
      simp [hscope] at this
    · intro hm
      have := h.built.resolver j r hj hm
      simp [hres] at this
  cases act with
  | check =>
    simp only [World.act]
    split_ifs
    · exact hlate
    · exact hfail
  | applyMigrations =>
    simp only [World.act]
    split_ifs
    · exact hlate
    · exact hfail
  | newHandler binding =>
    refine h.proceed hb hc keeps_openResolver rfl (Or.inl ⟨rfl, nofun, hi.symm⟩) ?_ ?_ ?_
    · rw [ht]
      exact List.Sublist.refl _
    · intro j r hj hm
      rw [List.getElem?_modify] at hj
      obtain ⟨old, ho, rfl⟩ := Option.map_eq_some_iff.mp hj
      have := (hclosed j old ho).1
      split_ifs at hm
      · simp [openResolver, this] at hm
      · simp [this] at hm
    · intro j r hj
      rw [List.getElem?_modify] at hj
      obtain ⟨old, ho, rfl⟩ := Option.map_eq_some_iff.mp hj
      have hold := (hclosed j old ho).2
      by_cases hij : i = j
      · subst hij
        simp [openResolver, resolving, hold]
      · simp only [hij, if_false]
        exact ⟨fun hm => absurd hm hold, fun hm => hold ((List.dropLast_sublist _).subset hm)⟩
  | deactivate =>
    have := h.close_late hb hc keeps_deactivate hi ?_ acts
    · rwa [ht] at this
    · intro j r hj
      rw [List.getElem?_modify] at hj
      obtain ⟨old, ho, rfl⟩ := Option.map_eq_some_iff.mp hj
      have hold := hclosed j old ho
      split_ifs
      · exact hold
      · exact hold

/-- The critical section that ends the loop body. -/
theorem Inv.append (h : Inv w) {i : ℕ} {rest : List GoString} {runtime : Runtime}
    (hs : w.starter = .late i [] rest) (hr : w.created[i]? = some runtime) :
    Inv (w.append i runtime.id rest) := by
  have hb : busy w.starter = true := by rw [hs]; rfl
  have hc : cleaningUp w.starter = false := by rw [hs]; rfl
  obtain ⟨hidle, hstate, hdone, hreq⟩ := h.staged.of_busy hb
  obtain ⟨hn, hlen⟩ := h.built.held i (by rw [hs]; rfl)
  have hl := h.ledger_before hb hc
  refine ⟨.starting rfl hidle hstate hdone hreq, ?_, w.created.length, ?_⟩
  · have hbuilt := h.built
    refine
      { numbered := ?_, started := ?_, ids := ?_, manifest := hbuilt.manifest, held := ?_
        unheld := ?_, bounded := ?_, scope := ?_, resolver := ?_
        resolvers := hbuilt.resolvers, waiting := ?_, unbuilt := nofun }
    · show w.host.runtimes ++ [i] = List.range (w.host.runtimes ++ [i]).length
      rw [List.length_append, List.length_singleton, List.range_succ, ← hbuilt.numbered, hn]
    · show w.host.started ++ [runtime.id] =
        (w.created.take (w.host.runtimes ++ [i]).length).map Runtime.id
      have hi : i < w.created.length := by omega
      rw [List.length_append, List.length_singleton, hn, List.take_succ_eq_append_getElem hi,
        List.map_append, hbuilt.started, hn]
      rw [List.getElem?_eq_getElem hi, Option.some.injEq] at hr
      simp [hr]
    · have := hbuilt.ids
      rw [hs] at this
      exact this
    · intro j hj
      cases hj
    · intro _ _ _
      show w.created.length = (w.host.runtimes ++ [i]).length
      rw [List.length_append, List.length_singleton]
      omega
    · show (w.host.runtimes ++ [i]).length ≤ w.created.length
      rw [List.length_append, List.length_singleton]
      omega
    · intro j r hj hm
      have := hbuilt.scope j r hj hm
      rw [hs] at this
      cases this
    · intro j r hj hm
      have := hbuilt.resolver j r hj hm
      rw [hs] at this
      cases this
    · intro runtimes hw
      have hw' : w.finisher = .waiting runtimes := hw
      rw [hidle] at hw'
      cases hw'
  · have hp : pointOf (w.append i runtime.id rest) = .reset (List.range w.created.length) :=
      pointOf_before rfl hidle hdone
    rw [hp]
    exact hl.of_host rfl ⟨rfl, rfl⟩ ⟨rfl, rfl⟩

/-- The next module of the loop gets its runtime and its scope. -/
theorem Inv.install (h : Inv w) {id : GoString} {rest : List GoString}
    {registration : Registration} (hs : w.starter = .top (id :: rest))
    (hr : w.registration id = some registration) : Inv (w.install id registration rest) := by
  have hb : busy w.starter = true := by rw [hs]; rfl
  have hc : cleaningUp w.starter = false := by rw [hs]; rfl
  obtain ⟨hidle, hstate, hdone, hreq⟩ := h.staged.of_busy hb
  have hbuilt := h.built
  have hl := h.ledger_before hb hc
  have hids := hbuilt.ids
  rw [hs] at hids
  have hlen := hbuilt.unheld (by rw [hs]; rfl) hc hdone
  have hmanifest : registration.manifest.id = id := by
    have := List.find?_some hr
    simpa using this
  have hnext : ∃ next, (w.install id registration rest).starter = next ∧ busy next = true ∧
      cleaningUp next = false ∧ holder next = some w.created.length ∧ todo next = rest ∧
      installing next = some w.created.length := by
    simp only [World.install]
    split_ifs
    · exact ⟨_, rfl, rfl, rfl, rfl, rfl, rfl⟩
    · exact ⟨_, rfl, rfl, rfl, rfl, rfl, rfl⟩
  obtain ⟨next, hn, hb', hc', hh', ht', hi'⟩ := hnext
  have hscope : ∀ (j : ℕ) (r : Runtime), (w.install id registration rest).created[j]? = some r →
      (j = w.created.length ∧ r.resolvers = []) ∨ w.created[j]? = some r := by
    intro j r hj
    by_cases hlt : j < w.created.length
    · rw [World.install, List.getElem?_append_left hlt] at hj
      exact Or.inr hj
    · have hle : j < (w.install id registration rest).created.length :=
        (List.getElem?_eq_some_iff.mp hj).1
      rw [World.install, List.length_append, List.length_singleton] at hle
      obtain rfl : j = w.created.length := by omega
      rw [World.install, List.getElem?_concat_length, Option.some.injEq] at hj
      exact Or.inl ⟨rfl, by rw [← hj]⟩
  refine ⟨?_, ?_, w.created.length + 1, ?_⟩
  · exact .starting (by rw [hn]; exact hb') hidle hstate hdone hreq
  · refine
      { numbered := hbuilt.numbered, started := ?_, ids := ?_, manifest := ?_, held := ?_
        unheld := ?_, bounded := ?_, scope := ?_, resolver := ?_, resolvers := ?_
        waiting := hbuilt.waiting, unbuilt := ?_ }
    · show w.host.started = ((w.created ++ [_]).take w.host.runtimes.length).map Runtime.id
      rw [← hlen, List.take_append_of_le_length le_rfl, hlen]
      exact hbuilt.started
    · rw [hn, ht']
      show ((w.created ++ [_]).map Runtime.id ++ rest).Nodup
      rw [List.map_append, List.append_assoc]
      exact hids
    · intro r hr'
      rcases List.mem_append.mp hr' with hold | hnew
      · exact hbuilt.manifest r hold
      · obtain rfl := List.mem_singleton.mp hnew
        exact ⟨hmanifest, registration, List.mem_of_find?_eq_some hr, rfl⟩
    · intro j hj
      rw [hn, hh', Option.some.injEq] at hj
      subst hj
      refine ⟨hlen.symm, ?_⟩
      show (w.created ++ [_]).length = _
      simp
    · intro hnone
      rw [hn, hh'] at hnone
      cases hnone
    · show w.host.runtimes.length ≤ (w.created ++ [_]).length
      rw [List.length_append]
      omega
    · intro j r hj hm
      rw [hn, hi']
      rcases hscope j r hj with ⟨rfl, -⟩ | hold
      · rfl
      · have := hbuilt.scope j r hold hm
        rw [hs] at this
        cases this
    · intro j r hj hm
      rcases hscope j r hj with ⟨-, hnil⟩ | hold
      · rw [hnil] at hm
        cases hm
      · have := hbuilt.resolver j r hold hm
        rw [hs] at this
        cases this
    · intro r hr'
      rcases List.mem_append.mp hr' with hold | hnew
      · exact hbuilt.resolvers r hold
      · obtain rfl := List.mem_singleton.mp hnew
        simp
    · intro hv
      rw [hn] at hv
      rw [hv] at hi'
      cases hi'
  · have hp : pointOf (w.install id registration rest) =
        .reset (List.range (w.install id registration rest).created.length) :=
      pointOf_before (by rw [hn]; exact hc') hidle hdone
    have hlen' : (w.install id registration rest).created.length = w.created.length + 1 := by
      simp [World.install]
    rw [hp, hlen']
    refine hl.install ?_ rfl rfl
    have hnd := List.nodup_append.mp hids
    intro hm
    exact hnd.2.2 _ hm id List.mem_cons_self rfl

/-- The order of a validated startup lists each module once. -/
theorem nodup_order {isValid : GoString → Bool} {registrations : List Registration}
    {prepared : List GoString} {graph : Graph}
    (h : validateRegistrations isValid registrations prepared = some graph) :
    graph.order.Nodup := by
  unfold validateRegistrations at h
  split_ifs at h
  split at h
  next found hv =>
    cases h
    have hres := (verify_ok_iff.mp ⟨_, hv⟩).2
    exact (verify_order hv).1.nodup_iff.mpr hres.ids
  next => cases h

/-- Before its first runtime a startup may go anywhere. -/
theorem Inv.enter (h : Inv w) (hs : w.starter = .validating) (order : List GoString)
    {next : Starter} (hb' : busy next = true)
    (hnext : cleaningUp next = false ∧ holder next = none ∨
      ∃ failed ending, next = .cleaning ⟨.returned, failed⟩ ending)
    (htodo : (todo next).Nodup) : Inv { w with order := order, starter := next } := by
  have hc := h.built.unbuilt hs
  have hb : busy w.starter = true := by rw [hs]; rfl
  have hcl : cleaningUp w.starter = false := by rw [hs]; rfl
  obtain ⟨hidle, hstate, hdone, hreq⟩ := h.staged.of_busy hb
  have hbuilt := h.built
  have hl := h.ledger_before hb hcl
  refine ⟨.starting hb' hidle hstate hdone hreq, ?_, w.created.length, ?_⟩
  · refine { hbuilt with
      ids := ?_, held := ?_, unheld := ?_, scope := ?_, resolver := ?_, unbuilt := fun _ => hc }
    · show (w.created.map _ ++ todo next).Nodup
      rw [hc]
      exact htodo
    · intro i hi
      have hi : holder next = some i := hi
      rcases hnext with ⟨-, hn⟩ | ⟨failed, ending, rfl⟩
      · rw [hn] at hi
        cases hi
      · cases hi
    · intro _ _ _
      exact hbuilt.unheld (by rw [hs]; rfl) hcl hdone
    · intro i r hi
      have hi : w.created[i]? = some r := hi
      simp [hc] at hi
    · intro i r hi
      have hi : w.created[i]? = some r := hi
      simp [hc] at hi
  · rcases hnext with ⟨hclean, -⟩ | ⟨failed, ending, rfl⟩
    · have hp : pointOf { w with order := order, starter := next } =
          .reset (List.range w.created.length) := pointOf_before hclean hidle hdone
      rw [hp]
      exact hl
    · have hp : pointOf { w with order := order, starter := .cleaning ⟨.returned, failed⟩ ending } =
          .returned := rfl
      rw [hp]
      refine hl.of_point ?_ rfl
      simp [hc, upcoming]

/-! ### Threads in cleanup -/

theorem release_frame (id : GoString) : ∀ (services : List GoString) (host : Services.Host),
    ∃ table database databaseOwner persistence persistenceOwner, release host id services =
      { host with services := table, database, databaseOwner, persistence, persistenceOwner }
  | [], host => ⟨_, _, _, _, _, rfl⟩
  | first :: services, host => by
    have hone : ∃ table database databaseOwner persistence persistenceOwner,
        releaseOne id host first =
          { host with services := table, database, databaseOwner, persistence,
                      persistenceOwner } := by
      unfold releaseOne
      split
      · exact ⟨_, _, _, _, _, rfl⟩
      · dsimp only
        split_ifs <;> exact ⟨_, _, _, _, _, rfl⟩
    obtain ⟨t, d, dOwner, p, pOwner, hone⟩ := hone
    obtain ⟨t', d', dOwner', p', pOwner', ih⟩ := release_frame id services (releaseOne id host first)
    refine ⟨t', d', dOwner', p', pOwner', ?_⟩
    show release (releaseOne id host first) id services = _
    rw [ih, hone]

/-- What a step of cleanup leaves alone. -/
structure Spared (w w' : World) : Prop where
  starter : w'.starter = w.starter
  finisher : w'.finisher = w.finisher
  taken : w'.taken = w.taken
  requested : w'.requested = w.requested
  published : w'.published = w.published
  resolved : w'.resolved = w.resolved
  state : w'.host.state = w.host.state
  stopRequested : w'.host.stopRequested = w.host.stopRequested
  shutdownDone : w'.host.shutdownDone = w.host.shutdownDone
  runtimes : w'.host.runtimes = w.host.runtimes
  started : w'.host.started = w.host.started
  facades : w'.host.facades = w.host.facades
  assembly : w'.host.assembly = w.host.assembly
  created : w'.created = w.created ∨ ∃ i, w'.created = w.created.modify i retire

theorem spared_cleanupStep {w' : World} {cleanup cleanup' : Cleanup} {outcome : Outcome}
    (h : cleanupStep w cleanup outcome = some (w', cleanup')) : Spared w w' := by
  have hrefl : Spared w w :=
    ⟨rfl, rfl, rfl, rfl, rfl, rfl, rfl, rfl, rfl, rfl, rfl, rfl, rfl, Or.inl rfl⟩
  unfold Host.cleanupStep at h
  split at h
  · cases h
    exact ⟨rfl, rfl, rfl, rfl, rfl, rfl, rfl, rfl, rfl, rfl, rfl, rfl, rfl, Or.inl rfl⟩
  · split_ifs at h
    cases h
    exact hrefl
  · cases h
    exact hrefl
  · split at h
    · cases h
    · split_ifs at h
      · cases h
        exact hrefl
      · cases h
        exact ⟨rfl, rfl, rfl, rfl, rfl, rfl, rfl, rfl, rfl, rfl, rfl, rfl, rfl, Or.inr ⟨_, rfl⟩⟩
  · cases h
    exact ⟨rfl, rfl, rfl, rfl, rfl, rfl, rfl, rfl, rfl, rfl, rfl, rfl, rfl, Or.inl rfl⟩
  · split at h
    · cases h
    next i services rest _ _ runtime hr =>
      cases h
      obtain ⟨t, d, dOwner, p, pOwner, hrel⟩ := release_frame runtime.id services w.host
      have : ∀ host : Services.Host, host = { w.host with
          services := t, database := d, databaseOwner := dOwner, persistence := p
          persistenceOwner := pOwner } → Spared w { w with host := host } := by
        rintro host rfl
        exact ⟨rfl, rfl, rfl, rfl, rfl, rfl, rfl, rfl, rfl, rfl, rfl, rfl, rfl, Or.inl rfl⟩
      exact this _ hrel
  · cases h
    exact ⟨rfl, rfl, rfl, rfl, rfl, rfl, rfl, rfl, rfl, rfl, rfl, rfl, rfl, Or.inl rfl⟩
  · cases h

/-- Cleanup changes nothing of how the runtimes were made. -/
theorem Built.of_spared (h : Built w) {w' : World} (hs : Spared w w') (next : Starter)
    (finisher : Finisher) (hc : cleaningUp w.starter = cleaningUp next)
    (hh : holder w.starter = holder next) (ht : todo w.starter = todo next)
    (hi : installing w.starter = installing next) (hr : resolving w.starter = resolving next)
    (hv : next ≠ .validating) (hf : ∀ runtimes, finisher ≠ .waiting runtimes) :
    Built { w' with starter := next, finisher := finisher } := by
  have hold : ∀ (j : ℕ) (r : Runtime), w'.created[j]? = some r → ∃ old, w.created[j]? = some old ∧
      r.id = old.id ∧ r.manifest = old.manifest ∧ r.scope = old.scope ∧
      r.resolvers = old.resolvers := by
    intro j r hj
    rcases hs.created with he | ⟨i, he⟩
    · rw [he] at hj
      exact ⟨r, hj, rfl, rfl, rfl, rfl⟩
    · rw [he, List.getElem?_modify] at hj
      obtain ⟨old, ho, rfl⟩ := Option.map_eq_some_iff.mp hj
      refine ⟨old, ho, ?_⟩
      split_ifs
      · exact ⟨rfl, rfl, rfl, rfl⟩
      · exact ⟨rfl, rfl, rfl, rfl⟩
  have hids : w'.created.map Runtime.id = w.created.map Runtime.id := by
    rcases hs.created with he | ⟨i, he⟩
    · rw [he]
    · rw [he]
      apply List.ext_getElem?
      intro j
      simp only [List.getElem?_map, List.getElem?_modify]
      by_cases hij : i = j
      · simp [hij, Function.comp_def, retire]
      · simp [hij]
  have hlen : w'.created.length = w.created.length := by
    have := congrArg List.length hids
    simpa using this
  refine
    { numbered := ?_, started := ?_, ids := ?_, manifest := ?_, held := ?_, unheld := ?_
      bounded := ?_, scope := ?_, resolver := ?_, resolvers := ?_
      waiting := fun runtimes he => absurd he (hf runtimes), unbuilt := fun he => absurd he hv }
  · show w'.host.runtimes = _
    rw [hs.runtimes]
    exact h.numbered
  · show w'.host.started = (w'.created.take w'.host.runtimes.length).map _
    rw [hs.started, hs.runtimes, List.map_take, hids, ← List.map_take]
    exact h.started
  · show (w'.created.map _ ++ todo next).Nodup
    rw [hids, ← ht]
    exact h.ids
  · intro r hm
    obtain ⟨j, hj⟩ := List.mem_iff_getElem?.mp hm
    obtain ⟨old, ho, hid, hman, -⟩ := hold j r hj
    have := h.manifest old (List.mem_of_getElem? ho)
    show _ ∧ ∃ registration ∈ w'.taken, _
    rw [hid, hman, hs.taken]
    exact this
  · intro i he
    show w'.host.runtimes.length = i ∧ w'.created.length = i + 1
    rw [hs.runtimes, hlen]
    exact h.held i (hh.trans he)
  · intro hn hcl hd
    show w'.created.length = w'.host.runtimes.length
    rw [hs.runtimes, hlen]
    exact h.unheld (hh.trans hn) (hc.trans hcl) (hs.shutdownDone ▸ hd)
  · show w'.host.runtimes.length ≤ w'.created.length
    rw [hs.runtimes, hlen]
    exact h.bounded
  · intro j r hj hm
    obtain ⟨old, ho, -, -, hsc, -⟩ := hold j r hj
    exact hi ▸ h.scope j old ho (hsc ▸ hm)
  · intro j r hj hm
    obtain ⟨old, ho, -, -, -, hres⟩ := hold j r hj
    exact hr ▸ h.resolver j old ho (hres ▸ hm)
  · intro r hm
    obtain ⟨j, hj⟩ := List.mem_iff_getElem?.mp hm
    obtain ⟨old, ho, -, -, -, hres⟩ := hold j r hj
    rw [hres]
    exact h.resolvers old (List.mem_of_getElem? ho)

/-- A failed startup, or a migration, cleans up. -/
theorem Inv.starter_cleanup (h : Inv w) {w' : World} {cleanup cleanup' : Cleanup}
    {ending : Ending} {outcome : Outcome} (hs : w.starter = .cleaning cleanup ending)
    (hstep : cleanupStep w cleanup outcome = some (w', cleanup')) :
    Inv { w' with starter := .cleaning cleanup' ending } := by
  have hsp := spared_cleanupStep hstep
  obtain ⟨hidle, hstate, hdone, hreq⟩ := h.staged.of_busy (by rw [hs]; rfl)
  have hf : w'.finisher = .idle := hsp.finisher.trans hidle
  refine ⟨?_, ?_, ?_⟩
  · refine .starting rfl hf (hsp.state.trans hstate) (hsp.shutdownDone.trans hdone) ?_
    intro hr
    exact hsp.stopRequested.trans (hreq (hsp.requested ▸ hr))
  · have := h.built.of_spared hsp (.cleaning cleanup' ending) w'.finisher
      (by rw [hs]; rfl) (by rw [hs]; rfl) (by rw [hs]; rfl) (by rw [hs]; rfl) (by rw [hs]; rfl)
      nofun (by simp [hf])
    exact this
  · obtain ⟨k, hl⟩ := h.ledger
    have hp : pointOf w = cleanup.point := by simp only [pointOf, hs]
    rw [hp] at hl
    have hnext := hl.cleanupStep hstep
    exact hnext

/-- A running Host that was shut down cleans up. -/
theorem Inv.finisher_cleanup (h : Inv w) {w' : World} {cleanup cleanup' : Cleanup}
    {outcome : Outcome} (hf : w.finisher = .cleaning cleanup)
    (hstep : cleanupStep w cleanup outcome = some (w', cleanup')) :
    Inv { w' with finisher := .cleaning cleanup' } := by
  have hsp := spared_cleanupStep hstep
  obtain ⟨hs, hstate, hdone⟩ : (w.starter = .returning ∨ w.starter = .gone) ∧
      w.host.state = .stopping ∧ w.host.shutdownDone = 0 := by
    cases h.staged with
    | new _ hf' => rw [hf] at hf'; cases hf'
    | starting _ hf' => rw [hf] at hf'; cases hf'
    | running _ hf' => rw [hf] at hf'; cases hf'
    | stopping hs _ hstate hdone => exact ⟨hs, hstate, hdone⟩
    | ended _ hf' => rcases hf' with hf' | hf' <;> rw [hf] at hf' <;> cases hf'
  refine ⟨?_, ?_, ?_⟩
  · refine .stopping ?_ ⟨nofun, nofun⟩ (hsp.state.trans hstate) (hsp.shutdownDone.trans hdone)
    show w'.starter = _ ∨ w'.starter = _
    rw [hsp.starter]
    exact hs
  · have := h.built.of_spared hsp w'.starter (.cleaning cleanup')
      (by rw [hsp.starter]) (by rw [hsp.starter]) (by rw [hsp.starter]) (by rw [hsp.starter])
      (by rw [hsp.starter])
      (by rw [hsp.starter]; rcases hs with hs | hs <;> rw [hs] <;> nofun) nofun
    exact this
  · obtain ⟨k, hl⟩ := h.ledger
    have hp : pointOf w = cleanup.point := by
      rcases hs with hs | hs <;> simp only [pointOf, hs, hf]
    have hp' : pointOf { w' with finisher := .cleaning cleanup' } = cleanup'.point := by
      rcases hs with hs | hs <;> simp only [pointOf, hsp.starter, hs]
    rw [hp] at hl
    rw [hp']
    have hnext := hl.cleanupStep hstep
    exact hnext

/-! ### The other steps -/

/-- The same ways of standing outside a startup. -/
theorem Built.settle (h : Built w) {w' : World} {next : Starter}
    (hcreated : w'.created = w.created) (htaken : w'.taken = w.taken)
    (hruntimes : w'.host.runtimes = w.host.runtimes) (hstarted : w'.host.started = w.host.started)
    (hs : w'.starter = next) (hnext : next = .last ∨ next = .returning ∨ next = .gone)
    (hclosed : installing w.starter = none ∧ resolving w.starter = none)
    (hlen : w'.host.shutdownDone = 0 → w.created.length = w.host.runtimes.length)
    (hw : ∀ runtimes, w'.finisher = .waiting runtimes → runtimes = w.host.runtimes) : Built w' := by
  have hnone : holder next = none ∧ todo next = [] ∧ next ≠ .validating := by
    rcases hnext with rfl | rfl | rfl <;> exact ⟨rfl, rfl, nofun⟩
  refine
    { numbered := ?_, started := ?_, ids := ?_, manifest := ?_, held := ?_, unheld := ?_
      bounded := ?_, scope := ?_, resolver := ?_, resolvers := ?_, waiting := ?_
      unbuilt := fun he => absurd (hs ▸ he) hnone.2.2 }
  · rw [hruntimes]
    exact h.numbered
  · rw [hstarted, hcreated, hruntimes]
    exact h.started
  · rw [hcreated, hs, hnone.2.1, List.append_nil]
    exact (List.nodup_append.mp h.ids).1
  · rw [hcreated, htaken]
    exact h.manifest
  · intro i hi
    rw [hs, hnone.1] at hi
    cases hi
  · intro _ _ hd
    rw [hcreated, hruntimes]
    exact hlen hd
  · rw [hcreated, hruntimes]
    exact h.bounded
  · intro j r hj hm
    rw [hcreated] at hj
    have := h.scope j r hj hm
    rw [hclosed.1] at this
    cases this
  · intro j r hj hm
    rw [hcreated] at hj
    have := h.resolver j r hj hm
    rw [hclosed.2] at this
    cases this
  · rw [hcreated]
    exact h.resolvers
  · rw [hruntimes]
    exact hw

/-- `Start` makes the Host run. -/
theorem Inv.run (h : Inv w) (hs : w.starter = .last) (hstop : w.host.stopRequested = false) :
    Inv w.run := by
  have hb : busy w.starter = true := by rw [hs]; rfl
  have hc : cleaningUp w.starter = false := by rw [hs]; rfl
  obtain ⟨hidle, hstate, hdone, hreq⟩ := h.staged.of_busy hb
  have hreq : w.requested = false := by
    rw [← Bool.not_eq_true]
    intro hr
    rw [hreq hr] at hstop
    cases hstop
  refine ⟨.running (Or.inl rfl) hidle rfl hdone hreq, ?_, w.created.length, ?_⟩
  · refine h.built.settle rfl rfl rfl rfl rfl (Or.inr (Or.inl rfl)) (by rw [hs]; exact ⟨rfl, rfl⟩)
      (fun _ => h.built.unheld (by rw [hs]; rfl) hc hdone) h.built.waiting
  · have hp : pointOf w.run = .reset (List.range w.created.length) :=
      pointOf_before rfl hidle hdone
    rw [hp]
    exact (h.ledger_before hb hc).of_host rfl ⟨rfl, rfl⟩ ⟨rfl, rfl⟩

/-- A startup completes after its cleanup. -/
theorem Inv.complete (h : Inv w) {failed : Bool} {ending : Ending}
    (hs : w.starter = .cleaning ⟨.returned, failed⟩ ending) : Inv (w.complete failed ending) := by
  have hb : busy w.starter = true := by rw [hs]; rfl
  obtain ⟨hidle, hstate, hdone, hreq⟩ := h.staged.of_busy hb
  obtain ⟨k, hl⟩ := h.ledger
  have hdone' : (w.complete failed ending).host.shutdownDone = 1 := by
    simp [World.complete, hdone]
  refine ⟨.ended (Or.inl rfl) (Or.inl hidle) ?_ hdone', ?_, k, ?_⟩
  · cases ending with
    | startFailure =>
      simp only [World.complete]
      split_ifs
      · exact Or.inl rfl
      · exact Or.inr rfl
    | migration =>
      simp only [World.complete]
      split_ifs
      · exact Or.inr rfl
      · exact Or.inl rfl
  · refine h.built.settle rfl rfl rfl rfl rfl (Or.inr (Or.inl rfl)) (by rw [hs]; exact ⟨rfl, rfl⟩)
      ?_ h.built.waiting
    intro hd
    rw [hdone'] at hd
    cases hd
  · have hp : pointOf w = .returned := by simp only [pointOf, hs]
    have hp' : pointOf (w.complete failed ending) = .returned := by
      have hf : (w.complete failed ending).finisher = .idle := hidle
      have hst : (w.complete failed ending).starter = .returning := rfl
      simp only [pointOf, hst, hf, hdone', one_ne_zero, if_false]
    rw [hp] at hl
    rw [hp']
    exact hl.of_host rfl ⟨rfl, rfl⟩ ⟨rfl, rfl⟩

/-- `finishStart`. -/
theorem Inv.finishStart (h : Inv w) (hs : w.starter = .returning) :
    Inv w.finishStart := by
  refine ⟨?_, ?_, ?_⟩
  · cases h.staged with
    | new hs' => rw [hs] at hs'; cases hs'
    | starting hb => rw [hs] at hb; cases hb
    | running _ hf hstate hdone hreq => exact .running (Or.inr rfl) hf hstate hdone hreq
    | stopping _ hf hstate hdone => exact .stopping (Or.inr rfl) hf hstate hdone
    | ended _ hf hstate hdone => exact .ended (Or.inr rfl) hf hstate hdone
  · refine h.built.settle rfl rfl rfl rfl rfl (Or.inr (Or.inr rfl)) (by rw [hs]; exact ⟨rfl, rfl⟩)
      (fun hd => h.built.unheld (by rw [hs]; rfl) (by rw [hs]; rfl) hd) h.built.waiting
  · obtain ⟨k, hl⟩ := h.ledger
    rw [pointOf_finishStart hs]
    exact ⟨k, hl.of_host rfl ⟨rfl, rfl⟩ ⟨rfl, rfl⟩⟩

/-- `Start` or `Migrate` begins, or is refused. -/
theorem Inv.begin (h : Inv w) (mode : Mode) : Inv (w.begin mode) := by
  unfold World.begin
  split_ifs with hnew
  · cases h.staged with
    | new hs hf hstate hdone hreq hc hr =>
      refine ⟨.starting rfl hf rfl hdone (by simp [hreq]), ?_, 0, ?_⟩
      · have hb := h.built
        refine { hb with
          ids := ?_, manifest := ?_, held := nofun, unheld := ?_, scope := ?_, resolver := ?_
          unbuilt := fun _ => hc }
        · show (w.created.map _ ++ []).Nodup
          simp [hc]
        · show ∀ runtime ∈ w.created, _
          simp [hc]
        · intro _ _ _
          show w.created.length = w.host.runtimes.length
          simp [hc, hr]
        · intro i r hi
          have hi : w.created[i]? = some r := hi
          simp [hc] at hi
        · intro i r hi
          have hi : w.created[i]? = some r := hi
          simp [hc] at hi
      · obtain ⟨k, hl⟩ := h.ledger
        have hcl : cleaningUp w.starter = false := by rw [hs]; rfl
        rw [pointOf_before hcl hf hdone] at hl
        have hk : k = 0 := by
          have := hl.bound
          rw [hc] at this
          exact Nat.le_zero.mp this
        subst hk
        refine Ledger.of_host (hl.of_point ?_ ?_) rfl ⟨rfl, rfl⟩ ⟨rfl, rfl⟩
        · simp [pointOf, hf, hdone]
        · simp [pointOf, hf, hdone]
    | starting _ _ hstate => rw [hnew] at hstate; cases hstate
    | running _ _ hstate => rw [hnew] at hstate; cases hstate
    | stopping _ _ hstate => rw [hnew] at hstate; cases hstate
    | ended _ _ hstate => rcases hstate with hstate | hstate <;> rw [hnew] at hstate <;> cases hstate
  · exact h

/-- `Shutdown`. -/
theorem Inv.shutdown (h : Inv w) : Inv w.shutdown := by
  cases h.staged with
  | new hs hf hstate hdone hreq hc hr =>
    have : w.shutdown = w := by simp only [World.shutdown, hstate]
    rwa [this]
  | starting hb hf hstate hdone hreq =>
    have : w.shutdown = { w with host.stopRequested := true, requested := true } := by
      simp only [World.shutdown, hstate]
    rw [this]
    obtain ⟨k, hl⟩ := h.ledger
    refine ⟨.starting hb hf hstate hdone fun _ => rfl, { h.built with }, k, ?_⟩
    exact hl.of_host rfl ⟨rfl, rfl⟩ ⟨rfl, rfl⟩
  | running hs hf hstate hdone hreq =>
    have hclean : cleaningUp w.starter = false := by rcases hs with hs | hs <;> rw [hs] <;> rfl
    have hsd : w.shutdown.starter = w.starter ∧ w.shutdown.finisher = .waiting w.host.runtimes ∧
        w.shutdown.host.state = .stopping ∧ w.shutdown.host.shutdownDone = w.host.shutdownDone ∧
        w.shutdown.created = w.created ∧ w.shutdown.host.runtimes = w.host.runtimes := by
      simp only [World.shutdown, hstate, and_self]
    obtain ⟨k, hl⟩ := h.ledger
    rw [pointOf_before hclean hf hdone] at hl
    refine ⟨.stopping (hsd.1 ▸ hs) ?_ hsd.2.2.1 (hsd.2.2.2.1.trans hdone), ?_, k, ?_⟩
    · rw [hsd.2.1]
      exact ⟨nofun, nofun⟩
    · obtain ⟨hst, hfin, -, -, hcr, hru⟩ := hsd
      have hnext : w.shutdown.starter = .last ∨ w.shutdown.starter = .returning ∨
          w.shutdown.starter = .gone := by
        rw [hst]
        exact Or.inr hs
      refine h.built.settle hcr ?_ hru ?_ rfl hnext ?_ ?_ ?_
      · simp only [World.shutdown, hstate]
      · simp only [World.shutdown, hstate]
      · rcases hs with hs | hs <;> rw [hs] <;> exact ⟨rfl, rfl⟩
      · intro _
        exact h.built.unheld (by rcases hs with hs | hs <;> rw [hs] <;> rfl) hclean hdone
      · intro runtimes hw
        rw [hfin] at hw
        cases hw
        rfl
    · have hp : pointOf w.shutdown = .reset (List.range w.created.length) := by
        obtain ⟨hst, hfin, -, hd, hcr, -⟩ := hsd
        rcases hs with hs | hs <;> simp only [pointOf, hst, hs, hfin, hd, hdone, hcr, if_true]
      rw [hp]
      simp only [World.shutdown, hstate]
      exact hl.of_host rfl ⟨rfl, rfl⟩ ⟨rfl, rfl⟩
  | stopping hs hf hstate hdone =>
    have : w.shutdown = { w with requested := true } := by simp only [World.shutdown, hstate]
    rw [this]
    exact ⟨.stopping hs hf hstate hdone, { h.built with }, h.ledger⟩
  | ended hs hf hstate hdone =>
    have : w.shutdown = { w with requested := true } := by
      rcases hstate with hstate | hstate <;> simp only [World.shutdown, hstate]
    rw [this]
    exact ⟨.ended hs hf hstate hdone, { h.built with }, h.ledger⟩

/-- A goroutine of `Shutdown` is at work: the Host is stopping. -/
theorem Staged.of_finisher (h : Staged w) (hf : w.finisher ≠ .idle ∧ w.finisher ≠ .gone) :
    (w.starter = .returning ∨ w.starter = .gone) ∧ w.host.state = .stopping ∧
      w.host.shutdownDone = 0 := by
  cases h with
  | new _ hf' => exact absurd hf' hf.1
  | starting _ hf' => exact absurd hf' hf.1
  | running _ hf' => exact absurd hf' hf.1
  | stopping hs _ hstate hdone => exact ⟨hs, hstate, hdone⟩
  | ended _ hf' => exact (hf'.elim (absurd · hf.1) (absurd · hf.2))

/-- `finishShutdown` begins its cleanup when the facades are drained. -/
theorem Inv.drained (h : Inv w) {runtimes : List ℕ} (hf : w.finisher = .waiting runtimes) :
    Inv { w with finisher := .cleaning ⟨.reset runtimes, false⟩ } := by
  obtain ⟨hs, hstate, hdone⟩ := h.staged.of_finisher (by rw [hf]; exact ⟨nofun, nofun⟩)
  have hr := h.built.waiting runtimes hf
  have hlen := h.built.unheld (by rcases hs with hs | hs <;> rw [hs] <;> rfl)
    (by rcases hs with hs | hs <;> rw [hs] <;> rfl) hdone
  refine ⟨.stopping hs ⟨nofun, nofun⟩ hstate hdone, { h.built with waiting := nofun }, ?_⟩
  obtain ⟨k, hl⟩ := h.ledger
  have hp : pointOf w = .reset (List.range w.created.length) := by
    rcases hs with hs | hs <;> simp only [pointOf, hs, hf, hdone, if_true]
  have hp' : pointOf { w with finisher := .cleaning ⟨.reset runtimes, false⟩ } =
      .reset (List.range w.created.length) := by
    have hall : runtimes = List.range w.created.length := by
      rw [hr, hlen]
      exact h.built.numbered
    rcases hs with hs | hs <;> simp only [pointOf, hs, hall]
  rw [hp] at hl
  rw [hp']
  exact ⟨k, hl⟩

/-- `finishShutdown` ends after its cleanup. -/
theorem Inv.finishShutdown (h : Inv w) {failed : Bool}
    (hf : w.finisher = .cleaning ⟨.returned, failed⟩) : Inv (w.finishShutdown failed) := by
  obtain ⟨hs, hstate, hdone⟩ := h.staged.of_finisher (by rw [hf]; exact ⟨nofun, nofun⟩)
  have hdone' : (w.finishShutdown failed).host.shutdownDone = 1 := by
    simp [World.finishShutdown, hdone]
  refine ⟨.ended hs (Or.inr rfl) ?_ hdone', { h.built with unheld := ?_, waiting := nofun }, ?_⟩
  · simp only [World.finishShutdown]
    split_ifs
    · exact Or.inr rfl
    · exact Or.inl rfl
  · intro _ _ hd
    rw [hdone'] at hd
    cases hd
  · obtain ⟨k, hl⟩ := h.ledger
    have hp : pointOf w = .returned := by
      rcases hs with hs | hs <;> simp only [pointOf, hs, hf]
    have hp' : pointOf (w.finishShutdown failed) = .returned := by
      have hst : (w.finishShutdown failed).starter = w.starter := rfl
      have hfin : (w.finishShutdown failed).finisher = .gone := rfl
      rcases hs with hs | hs <;>
        simp only [pointOf, hst, hs, hfin, hdone', one_ne_zero, if_false]
    rw [hp] at hl
    rw [hp']
    exact ⟨k, hl.of_host rfl ⟨rfl, rfl⟩ ⟨rfl, rfl⟩⟩

/-- A runtime with an open scope is the one made last. -/
theorem Inv.last_of_scope (h : Inv w) {i : ℕ} {runtime : Runtime}
    (hr : w.created[i]? = some runtime) (hs : runtime.scope = true) :
    busy w.starter = true ∧ cleaningUp w.starter = false ∧ holder w.starter = some i ∧
      ∃ before, before.length = i ∧ w.created = before ++ [runtime] ∧
        ∀ other, w.created.set i other = before ++ [other] := by
  have hi := h.built.scope i runtime hr hs
  have hstage : busy w.starter = true ∧ cleaningUp w.starter = false ∧
      holder w.starter = some i := by
    revert hi
    cases w.starter <;> simp [installing, busy, cleaningUp, holder]
  obtain ⟨-, hlen⟩ := h.built.held i hstage.2.2
  have hlt : i < w.created.length := by omega
  have hget : w.created[i] = runtime := by
    rw [List.getElem?_eq_getElem hlt, Option.some.injEq] at hr
    exact hr
  have hsplit : w.created = w.created.take i ++ [runtime] := by
    have := List.take_succ_eq_append_getElem hlt
    rw [← hlen, List.take_length, hget] at this
    exact this
  have hi' : (w.created.take i).length = i := by rw [List.length_take]; omega
  refine ⟨hstage.1, hstage.2.1, hstage.2.2, w.created.take i, hi', hsplit, ?_⟩
  intro other
  rw [List.set_eq_take_append_cons_drop, if_pos hlt, List.drop_eq_nil_of_le (by omega)]

/-- The runtime made last is added to. -/
theorem Inv.replaceLast (h : Inv w) {before : List Runtime} {runtime runtime' : Runtime}
    {host : Services.Host} {registered : ℕ} (published : List ServiceRecord)
    (hb : busy w.starter = true) (hc : cleaningUp w.starter = false)
    (hcreated : w.created = before ++ [runtime])
    (hsame : runtime'.id = runtime.id ∧ runtime'.manifest = runtime.manifest ∧
      runtime'.scope = runtime.scope ∧ runtime'.resolvers = runtime.resolvers)
    (hhost : host.state = w.host.state ∧ host.stopRequested = w.host.stopRequested ∧
      host.shutdownDone = w.host.shutdownDone ∧ host.runtimes = w.host.runtimes ∧
      host.started = w.host.started)
    (hl : Ledger host (before ++ [runtime']) registered w.invoked
      (.reset (List.range (before ++ [runtime']).length)) (before ++ [runtime']).length) :
    Inv { w with host, created := before ++ [runtime'], registered, published } := by
  obtain ⟨hidle, hstate, hdone, hreq⟩ := h.staged.of_busy hb
  obtain ⟨hst, hstop, hsd, hru, hsta⟩ := hhost
  obtain ⟨hid, hman, hscope, hres⟩ := hsame
  have hbuilt := h.built
  have hlen : (before ++ [runtime']).length = w.created.length := by simp [hcreated]
  have hids : (before ++ [runtime']).map Runtime.id = w.created.map Runtime.id := by
    simp [hcreated, hid]
  have hold : ∀ (j : ℕ) (r : Runtime), (before ++ [runtime'])[j]? = some r →
      ∃ old, w.created[j]? = some old ∧ r.id = old.id ∧ r.manifest = old.manifest ∧
        r.scope = old.scope ∧ r.resolvers = old.resolvers := by
    intro j r hj
    by_cases hlt : j < before.length
    · rw [List.getElem?_append_left hlt] at hj
      refine ⟨r, ?_, rfl, rfl, rfl, rfl⟩
      rw [hcreated, List.getElem?_append_left hlt]
      exact hj
    · have hle := (List.getElem?_eq_some_iff.mp hj).1
      rw [List.length_append, List.length_singleton] at hle
      obtain rfl : j = before.length := by omega
      rw [List.getElem?_concat_length, Option.some.injEq] at hj
      subst hj
      exact ⟨runtime, by rw [hcreated, List.getElem?_concat_length], hid, hman, hscope, hres⟩
  refine ⟨.starting hb hidle (hst.trans hstate) (hsd.trans hdone) ?_, ?_,
    (before ++ [runtime']).length, ?_⟩
  · exact fun hr => hstop.trans (hreq hr)
  · refine
      { numbered := ?_, started := ?_, ids := ?_, manifest := ?_, held := ?_, unheld := ?_
        bounded := ?_, scope := ?_, resolver := ?_, resolvers := ?_, waiting := ?_, unbuilt := ?_ }
    · show host.runtimes = _
      rw [hru]
      exact hbuilt.numbered
    · show host.started = ((before ++ [runtime']).take host.runtimes.length).map _
      rw [hsta, hru, List.map_take, hids, ← List.map_take]
      exact hbuilt.started
    · show ((before ++ [runtime']).map _ ++ _).Nodup
      rw [hids]
      exact hbuilt.ids
    · intro r hr
      obtain ⟨j, hj⟩ := List.mem_iff_getElem?.mp hr
      obtain ⟨old, ho, h₁, h₂, -⟩ := hold j r hj
      rw [h₁, h₂]
      exact hbuilt.manifest old (List.mem_of_getElem? ho)
    · show ∀ i, _ → host.runtimes.length = i ∧ (before ++ [runtime']).length = i + 1
      rw [hru, hlen]
      exact hbuilt.held
    · show _ → _ → host.shutdownDone = 0 → (before ++ [runtime']).length = host.runtimes.length
      rw [hru, hlen, hsd]
      exact hbuilt.unheld
    · show host.runtimes.length ≤ (before ++ [runtime']).length
      rw [hru, hlen]
      exact hbuilt.bounded
    · intro j r hj hm
      obtain ⟨old, ho, -, -, h₃, -⟩ := hold j r hj
      exact hbuilt.scope j old ho (h₃ ▸ hm)
    · intro j r hj hm
      obtain ⟨old, ho, -, -, -, h₄⟩ := hold j r hj
      exact hbuilt.resolver j old ho (h₄ ▸ hm)
    · intro r hr
      obtain ⟨j, hj⟩ := List.mem_iff_getElem?.mp hr
      obtain ⟨old, ho, -, -, -, h₄⟩ := hold j r hj
      rw [h₄]
      exact hbuilt.resolvers old (List.mem_of_getElem? ho)
    · show ∀ runtimes, _ → runtimes = host.runtimes
      rw [hru]
      exact hbuilt.waiting
    · intro hv
      have := hbuilt.unbuilt hv
      simp [hcreated] at this
  · have hp : pointOf { w with host, created := before ++ [runtime'], registered, published } =
        .reset (List.range (before ++ [runtime']).length) :=
      pointOf_before hc hidle (hsd.trans hdone)
    rw [hp]
    exact hl

/-- `Provide`, through any scope at any time. -/
theorem Inv.provide (h : Inv w) {i : ℕ} {runtime runtime' : Runtime} {host : Services.Host}
    {key : Option KeyIdentity} {value : Value} (published : List ServiceRecord)
    (hr : w.created[i]? = some runtime)
    (hp : provideService w.host runtime key value = .ok (host, runtime')) :
    Inv { w with host, created := w.created.set i runtime', published } := by
  obtain ⟨records, hp⟩ := provideService_ok hp
  obtain ⟨hb, hc, -, before, rfl, hcreated, hset⟩ := h.last_of_scope hr hp.scope
  have hl := h.ledger_before hb hc
  have hid := (h.built.manifest runtime (List.mem_of_getElem? hr)).1
  rw [hcreated] at hl
  obtain ⟨services, d, dOwner, p, pOwner, hframe⟩ := hp.frame
  rw [hset]
  refine h.replaceLast published hb hc hcreated ?_ ?_ (hl.provide hid hp)
  · rw [hp.runtime]
    exact ⟨rfl, rfl, rfl, rfl⟩
  · rw [hframe]
    exact ⟨rfl, rfl, rfl, rfl, rfl⟩

/-- `OnStop`, through any scope at any time. -/
theorem Inv.onStop (h : Inv w) {i : ℕ} {runtime runtime' : Runtime} {cleanup : Option ℕ}
    (hcleanup : ∀ callback ∈ cleanup, callback = w.registered)
    (hr : w.created[i]? = some runtime)
    (hp : onStop w.host runtime cleanup = .ok runtime') :
    Inv { w with created := w.created.set i runtime', registered := w.registered + 1 } := by
  obtain ⟨callback, rfl, he⟩ := onStop_ok hp
  obtain rfl := hcleanup callback rfl
  obtain ⟨hb, hc, -, before, rfl, hcreated, hset⟩ := h.last_of_scope hr he.scope
  have hl := h.ledger_before hb hc
  rw [hcreated] at hl
  rw [hset]
  refine h.replaceLast w.published hb hc hcreated ?_ ⟨rfl, rfl, rfl, rfl, rfl⟩ (hl.onStop he)
  rw [he.runtime]
  exact ⟨rfl, rfl, rfl, rfl⟩

/-! ### Every step -/

theorem Inv.validated (h : Inv w) (isValid : GoString → Bool) (hs : w.starter = .validating) :
    Inv (w.validated isValid) := by
  have hreturned : ∀ ending, Inv (w.goto (.cleaning ⟨.returned, false⟩ ending)) :=
    fun ending => h.enter hs w.order rfl (Or.inr ⟨false, ending, rfl⟩) List.nodup_nil
  unfold World.validated
  split
  next => exact hreturned _
  next graph hv =>
    have hnd := nodup_order hv
    split
    next => exact h.enter hs graph.order rfl (Or.inl ⟨rfl, rfl⟩) hnd
    next =>
      split_ifs
      · exact hreturned _
      · split
        next => exact hreturned _
        next => exact h.enter hs graph.order rfl (Or.inl ⟨rfl, rfl⟩) (hnd.filter _)

theorem Inv.starterStep (h : Inv w) {w' : World} {isValid : GoString → Bool} {outcome : Outcome}
    (hstep : starterStep isValid w outcome = some w') : Inv w' := by
  unfold Host.starterStep at hstep
  cases hs : w.starter with
  | idle => simp [hs] at hstep
  | gone => simp [hs] at hstep
  | validating =>
    simp only [hs, Option.some.injEq] at hstep
    rw [← hstep]
    exact h.validated isValid hs
  | entering order =>
    simp only [hs, Option.some.injEq] at hstep
    rw [← hstep]
    split_ifs
    · exact h.goto (by rw [hs]; rfl) (by rw [hs]; rfl) rfl (Or.inl ⟨rfl, nofun, by rw [hs]; rfl⟩)
        (by rw [hs]; exact List.Sublist.refl _) (by simp [hs, installing])
        (by simp [hs, resolving])
    · have := h.fail (by rw [hs]; rfl) (by rw [hs]; rfl) (by rw [hs]; rfl) (by rw [hs]; rfl)
      rwa [hs] at this
  | top rest =>
    cases rest with
    | nil =>
      simp only [hs, Option.some.injEq] at hstep
      rw [← hstep]
      split
      · exact h.goto (by rw [hs]; rfl) (by rw [hs]; rfl) rfl (Or.inl ⟨rfl, nofun, by rw [hs]; rfl⟩)
          (List.nil_sublist _) (by simp [hs, installing]) (by simp [hs, resolving])
      · exact h.goto (by rw [hs]; rfl) (by rw [hs]; rfl) rfl (Or.inl ⟨rfl, nofun, by rw [hs]; rfl⟩)
          (List.nil_sublist _) (by simp [hs, installing]) (by simp [hs, resolving])
    | cons id rest =>
      simp only [hs] at hstep
      split_ifs at hstep
      · obtain ⟨registration, hr, rfl⟩ := Option.map_eq_some_iff.mp hstep
        exact h.install hs hr
      · obtain rfl := Option.some.inj hstep
        have := h.fail (by rw [hs]; rfl) (by rw [hs]; rfl) (by rw [hs]; rfl) (by rw [hs]; rfl)
        rwa [hs] at this
  | early i rest =>
    simp only [hs] at hstep
    obtain ⟨registration, -, rfl⟩ := Option.map_eq_some_iff.mp hstep
    split_ifs
    · exact h.goto (by rw [hs]; rfl) (by rw [hs]; rfl) rfl (Or.inl ⟨rfl, nofun, by rw [hs]; rfl⟩)
        (by rw [hs]; exact List.Sublist.refl _) (by simp [hs, installing])
        (by simp [hs, resolving])
    · exact h.close_fail (by rw [hs]; rfl) (by rw [hs]; rfl) keeps_expire (by rw [hs]; rfl)
        (h.built.expire (by rw [hs]; rfl) (by rw [hs]; rfl))
  | calling i rest =>
    simp only [hs] at hstep
    obtain ⟨registration, -, rfl⟩ := Option.map_eq_some_iff.mp hstep
    have hclosed := h.built.expire (i := i) (by rw [hs]; rfl) (by rw [hs]; rfl)
    split_ifs
    · have := h.close_late (by rw [hs]; rfl) (by rw [hs]; rfl) keeps_expire (by rw [hs]; rfl)
        hclosed (acts w.mode w.host.skipMigrations registration)
      rwa [hs] at this
    · exact h.close_fail (by rw [hs]; rfl) (by rw [hs]; rfl) keeps_expire (by rw [hs]; rfl) hclosed
  | late i acts rest =>
    cases acts with
    | nil =>
      simp only [hs] at hstep
      obtain ⟨runtime, hr, rfl⟩ := Option.map_eq_some_iff.mp hstep
      exact h.append hs hr
    | cons act acts =>
      simp only [hs] at hstep
      obtain ⟨registration, -, rfl⟩ := Option.map_eq_some_iff.mp hstep
      exact h.act hs registration outcome
  | factory i acts rest =>
    simp only [hs, Option.some.injEq] at hstep
    rw [← hstep]
    have hclosed := h.built.closeResolver (i := i) (by rw [hs]; rfl) (by rw [hs]; rfl)
    split_ifs
    · have := h.close_late (by rw [hs]; rfl) (by rw [hs]; rfl) keeps_closeResolver
        (by rw [hs]; rfl) hclosed acts
      rwa [hs] at this
    · exact h.close_fail (by rw [hs]; rfl) (by rw [hs]; rfl) keeps_closeResolver (by rw [hs]; rfl)
        hclosed
  | applying rest =>
    cases rest with
    | nil =>
      simp only [hs, Option.some.injEq] at hstep
      rw [← hstep]
      obtain ⟨-, -, hdone, -⟩ := h.staged.of_busy (by rw [hs]; rfl)
      have hall := h.built.runtimes_append (by rw [hs]; rfl) hdone
      rw [hs] at hall
      refine h.goto (by rw [hs]; rfl) (by rw [hs]; rfl) rfl (Or.inr ⟨false, .migration, ?_⟩)
        (List.nil_sublist _) (by simp [hs, installing]) (by simp [hs, resolving])
      rw [← hall]
      simp [holder]
    | cons id rest =>
      simp only [hs] at hstep
      obtain ⟨registration, -, rfl⟩ := Option.map_eq_some_iff.mp hstep
      split_ifs
      · exact h.goto (by rw [hs]; rfl) (by rw [hs]; rfl) rfl (Or.inl ⟨rfl, nofun, by rw [hs]; rfl⟩)
          (List.nil_sublist _) (by simp [hs, installing]) (by simp [hs, resolving])
      · have := h.fail (by rw [hs]; rfl) (by rw [hs]; rfl) (by rw [hs]; rfl) (by rw [hs]; rfl)
        rwa [hs] at this
  | last =>
    simp only [hs, Option.some.injEq] at hstep
    rw [← hstep]
    split_ifs with hstop
    · have := h.fail (by rw [hs]; rfl) (by rw [hs]; rfl) (by rw [hs]; rfl) (by rw [hs]; rfl)
      rwa [hs] at this
    · refine h.run hs ?_
      rw [← Bool.not_eq_true]
      exact fun hr => hstop (Or.inl hr)
  | cleaning cleanup ending =>
    obtain ⟨point, failed⟩ := cleanup
    by_cases hp : point = .returned
    · subst hp
      simp only [hs, Option.some.injEq] at hstep
      rw [← hstep]
      exact h.complete hs
    · have hstep' : (Host.cleanupStep w ⟨point, failed⟩ outcome).map
          (fun r => { r.1 with starter := .cleaning r.2 ending }) = some w' := by
        cases point <;> simp_all
      obtain ⟨⟨next, cleanup'⟩, hc, rfl⟩ := Option.map_eq_some_iff.mp hstep'
      exact h.starter_cleanup hs hc
  | returning =>
    simp only [hs, Option.some.injEq] at hstep
    rw [← hstep]
    exact h.finishStart hs

theorem Inv.finisherStep (h : Inv w) {w' : World} {outcome : Outcome}
    (hstep : finisherStep w outcome = some w') : Inv w' := by
  unfold Host.finisherStep at hstep
  cases hf : w.finisher with
  | idle => simp [hf] at hstep
  | gone => simp [hf] at hstep
  | waiting runtimes =>
    simp only [hf] at hstep
    split_ifs at hstep
    obtain rfl := Option.some.inj hstep
    exact h.drained hf
  | cleaning cleanup =>
    obtain ⟨point, failed⟩ := cleanup
    by_cases hp : point = .returned
    · subst hp
      simp only [hf, Option.some.injEq] at hstep
      rw [← hstep]
      exact h.finishShutdown hf
    · have hstep' : (Host.cleanupStep w ⟨point, failed⟩ outcome).map
          (fun r => { r.1 with finisher := .cleaning r.2 }) = some w' := by
        cases point <;> simp_all
      obtain ⟨⟨next, cleanup'⟩, hc, rfl⟩ := Option.map_eq_some_iff.mp hstep'
      exact h.finisher_cleanup hf hc

/-- **Every step keeps the invariant.** -/
theorem Inv.step (h : Inv w) {w' : World} {isValid : GoString → Bool} {event : Event}
    (hstep : step isValid w event = some w') : Inv w' := by
  cases event with
  | register registrations =>
    simp only [Host.step] at hstep
    split at hstep
    next host hr =>
      cases hstep
      obtain ⟨_, -, hr⟩ := bind_eq_ok.mp hr
      obtain ⟨held, -, hr⟩ := bind_eq_ok.mp hr
      cases hr
      refine h.of_agrees ?_ _ _ _
      exact ⟨rfl, rfl, rfl, rfl, rfl, rfl, ⟨rfl, rfl⟩, rfl, rfl⟩
    next => cases hstep; exact h
  | start mode => cases hstep; exact h.begin mode
  | proceed outcome => exact h.starterStep hstep
  | shutdown => cases hstep; exact h.shutdown
  | finish outcome => exact h.finisherStep hstep
  | assemble =>
    simp only [Host.step] at hstep
    split at hstep
    next host outcome ha =>
      cases hstep
      obtain ⟨_, -, ha⟩ := bind_eq_ok.mp ha
      split at ha
      · cases ha
        refine h.of_agrees ?_ _ _ _
        exact ⟨rfl, rfl, rfl, rfl, rfl, rfl, ⟨rfl, rfl⟩, rfl, rfl⟩
      · cases ha
        refine h.of_agrees ?_ _ _ _
        exact ⟨rfl, rfl, rfl, rfl, rfl, rfl, ⟨rfl, rfl⟩, rfl, rfl⟩
    next => cases hstep; exact h
  | provide i key value =>
    obtain ⟨runtime, hr, rfl⟩ := Option.map_eq_some_iff.mp hstep
    split
    next host after hp => exact h.provide _ hr hp
    next => exact h
  | resolve i via key =>
    obtain ⟨runtime, hr, rfl⟩ := Option.map_eq_some_iff.mp hstep
    split
    · refine h.of_agrees ?_ _ _ _
      exact ⟨rfl, rfl, rfl, rfl, rfl, rfl, ⟨rfl, rfl⟩, rfl, rfl⟩
    · exact h
  | onStop i isNil =>
    obtain ⟨runtime, hr, rfl⟩ := Option.map_eq_some_iff.mp hstep
    split
    next after hp =>
      refine h.onStop ?_ hr hp
      cases isNil <;> simp
    next => exact h
  | enterFacade =>
    simp only [Host.step] at hstep
    split_ifs at hstep
    · cases hstep
      refine h.of_agrees ?_ _ _ _
      exact ⟨rfl, rfl, rfl, rfl, rfl, rfl, ⟨rfl, rfl⟩, rfl, rfl⟩
    · cases hstep
      exact h
  | leaveFacade =>
    cases hstep
    refine h.of_agrees ?_ _ _ _
    exact ⟨rfl, rfl, rfl, rfl, rfl, rfl, ⟨rfl, rfl⟩, rfl, rfl⟩
  | acquireLease =>
    simp only [Host.step] at hstep
    split_ifs at hstep
    · cases hstep
      exact h
    · cases hstep
      refine h.of_agrees ?_ _ _ _
      exact ⟨rfl, rfl, rfl, rfl, rfl, rfl, ⟨rfl, rfl⟩, rfl, rfl⟩
  | releaseLease =>
    cases hstep
    refine h.of_agrees ?_ _ _ _
    exact ⟨rfl, rfl, rfl, rfl, rfl, rfl, ⟨rfl, rfl⟩, rfl, rfl⟩
  | finishOverdue callback =>
    cases hstep
    refine h.of_agrees ?_ _ _ _
    exact ⟨rfl, rfl, rfl, rfl, rfl, rfl, ⟨rfl, rfl⟩, rfl, rfl⟩

end Steps

theorem inv_create (skipMigrations : Bool) : Inv (.create skipMigrations) := by
  refine ⟨.new rfl rfl rfl rfl rfl rfl rfl, ?_, 0, ?_⟩
  · refine
      { numbered := rfl, started := rfl, ids := List.nodup_nil, manifest := ?_, held := nofun
        unheld := fun _ _ _ => rfl, bounded := le_rfl, scope := ?_, resolver := ?_
        resolvers := ?_, waiting := nofun, unbuilt := nofun }
    · exact List.forall_mem_nil _
    · intro i runtime hr
      simp [World.create] at hr
    · intro i runtime hr
      simp [World.create] at hr
    · exact List.forall_mem_nil _
  · refine
      { bound := le_rfl, rest := rfl, ids := List.nodup_nil, counted := rfl, pending := rfl
        under := ?_, uncleaned := nofun, owned := nofun, backed := ⟨?_, ?_⟩ }
    · simp [pointOf, World.create, Host.create, current]
    · simp [World.create, Host.create]
    · simp [World.create, Host.create]

end Modary.Module.Lifecycle
