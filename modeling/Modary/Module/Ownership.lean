import Modary.Module.Shutdown

/-! # The services of a Host

Each published name has one owner for good, whose manifest provides the capability of the key. A
module resolves what its manifest declares, from itself or from a module that has started, and what
it resolved stays published until its own callbacks were invoked and awaited (`services_contract`).
A callback that ran out of time is not awaited, and may outlive the services it uses
(`overdue_callback_outlives_service`). -/

namespace Modary.Module.Ownership

open Modary.Lib.GoText Modary.Lib.Machine Modary.Module.Verify
open Modary.Module.Services Modary.Module.Host Modary.Module.Cleanups Modary.Module.Lifecycle
open Modary.Module.Shutdown

/-- How many runtimes have not been released, the first ones made. -/
def liveCount (w : World) : ℕ := span (pointOf w) (upcoming (pointOf w)).length

/-- The runtimes of a later state, as far as services are concerned. -/
structure Extends (created created' : List Runtime) : Prop where
  forth : ∀ (i : ℕ) (r : Runtime), created[i]? = some r →
    ∃ r', created'[i]? = some r' ∧ r'.id = r.id ∧ r'.manifest = r.manifest
  back : ∀ (i : ℕ) (r' : Runtime), i < created.length → created'[i]? = some r' →
    ∃ r, created[i]? = some r ∧ r'.id = r.id ∧ r'.manifest = r.manifest

theorem Extends.refl (created : List Runtime) : Extends created created :=
  ⟨fun _ r h => ⟨r, h, rfl, rfl⟩, fun _ r _ h => ⟨r, h, rfl, rfl⟩⟩

theorem Extends.modify (created : List Runtime) (i : ℕ) {f : Runtime → Runtime}
    (hid : ∀ r, (f r).id = r.id) (hman : ∀ r, (f r).manifest = r.manifest) :
    Extends created (created.modify i f) := by
  have hsame : ∀ (j : ℕ) (r : Runtime), (if i = j then f r else r).id = r.id ∧
      (if i = j then f r else r).manifest = r.manifest := by
    intro j r
    split_ifs
    · exact ⟨hid r, hman r⟩
    · exact ⟨rfl, rfl⟩
  constructor
  · intro j r hj
    refine ⟨if i = j then f r else r, ?_, hsame j r⟩
    rw [List.getElem?_modify, hj]
    rfl
  · intro j r' _ hj
    rw [List.getElem?_modify] at hj
    obtain ⟨r, hr, rfl⟩ := Option.map_eq_some_iff.mp hj
    exact ⟨r, hr, hsame j r⟩

theorem Extends.set {created : List Runtime} {i : ℕ} {old new : Runtime}
    (hold : created[i]? = some old) (hid : new.id = old.id) (hman : new.manifest = old.manifest) :
    Extends created (created.set i new) := by
  have hlt := (List.getElem?_eq_some_iff.mp hold).1
  constructor
  · intro j r hj
    by_cases hij : i = j
    · subst hij
      obtain rfl := Option.some.inj (hold.symm.trans hj)
      exact ⟨new, List.getElem?_set_self hlt, hid, hman⟩
    · exact ⟨r, by rw [List.getElem?_set_ne hij, hj], rfl, rfl⟩
  · intro j r' _ hj
    by_cases hij : i = j
    · subst hij
      rw [List.getElem?_set_self hlt, Option.some.injEq] at hj
      subst hj
      exact ⟨old, hold, hid, hman⟩
    · rw [List.getElem?_set_ne hij] at hj
      exact ⟨r', hj, rfl, rfl⟩

theorem Extends.concat (created : List Runtime) (r : Runtime) : Extends created (created ++ [r]) := by
  constructor
  · intro i old hi
    have hlt := (List.getElem?_eq_some_iff.mp hi).1
    exact ⟨old, by rw [List.getElem?_append_left hlt, hi], rfl, rfl⟩
  · intro i r' hlt hi
    rw [List.getElem?_append_left hlt] at hi
    exact ⟨r', hi, rfl, rfl⟩

/-- What holds of the services published and resolved so far. -/
structure Shared (w : World) : Prop where
  names : (w.published.map fun record => record.key.name).Nodup
  table : ∀ name record, w.host.services name = some record →
    record ∈ w.published ∧ record.key.name = name
  published : ∀ record ∈ w.published, ∃ (i : ℕ) (owner : Runtime), w.created[i]? = some owner ∧
    owner.id = record.owner ∧ record.key.capability ∈ owner.manifest.provides ∧
    ∀ key ∈ canonicalServiceIdentity record.key.name, record.key = key
  kept : ∀ record ∈ w.published, ∀ (i : ℕ) (owner : Runtime), w.created[i]? = some owner →
    owner.id = record.owner → i < liveCount w → w.host.services record.key.name = some record
  resolved : ∀ res ∈ w.resolved, res.record ∈ w.published ∧ res.name = res.record.key.name ∧
    ∃ consumer, w.created[res.consumer]? = some consumer ∧
      (res.record.key.capability ∈ consumer.manifest.requires ∨
        res.record.key.capability ∈ consumer.manifest.provides) ∧
      ∃ j ≤ res.consumer, ∃ owner, w.created[j]? = some owner ∧ owner.id = res.record.owner

section Steps

variable {w : World}

/-- Steps that publish and resolve nothing, and release nothing that is still owned. -/
theorem Shared.carry (h : Shared w) {w' : World} (hpub : w'.published = w.published)
    (hres : w'.resolved = w.resolved) (hext : Extends w.created w'.created)
    (htable : ∀ name record, w'.host.services name = some record →
      w.host.services name = some record)
    (hkept : ∀ record ∈ w.published, ∀ (i : ℕ) (owner : Runtime), w'.created[i]? = some owner →
      owner.id = record.owner → i < liveCount w' →
      w'.host.services record.key.name = some record) : Shared w' := by
  refine ⟨?_, ?_, ?_, ?_, ?_⟩
  · rw [hpub]
    exact h.names
  · rw [hpub]
    exact fun name record hr => h.table name record (htable name record hr)
  · rw [hpub]
    intro record hr
    obtain ⟨i, owner, ho, hid, hcap, hcanon⟩ := h.published record hr
    obtain ⟨owner', ho', hid', hman'⟩ := hext.forth i owner ho
    exact ⟨i, owner', ho', hid'.trans hid, by rw [hman']; exact hcap, hcanon⟩
  · rw [hpub]
    exact hkept
  · rw [hpub, hres]
    intro res hm
    obtain ⟨hrec, hname, consumer, hc, hdecl, j, hj, owner, ho, hid⟩ := h.resolved res hm
    obtain ⟨consumer', hc', -, hman'⟩ := hext.forth _ consumer hc
    obtain ⟨owner', ho', hid', -⟩ := hext.forth j owner ho
    exact ⟨hrec, hname, consumer', hc', by rw [hman']; exact hdecl, j, hj, owner', ho',
      hid'.trans hid⟩

/-- Steps that touch no service. -/
theorem Shared.still (h : Shared w) {w' : World} (hpub : w'.published = w.published)
    (hres : w'.resolved = w.resolved) (hext : Extends w.created w'.created)
    (hlen : w'.created.length = w.created.length) (hs : w'.host.services = w.host.services)
    (hlive : liveCount w' ≤ liveCount w) : Shared w' := by
  refine h.carry hpub hres hext (fun name record hr => hs ▸ hr) ?_
  intro record hr i owner ho hid hi
  have hlt : i < w.created.length := hlen ▸ (List.getElem?_eq_some_iff.mp ho).1
  obtain ⟨owner', ho', hid', -⟩ := hext.back i owner hlt ho
  rw [hs]
  exact h.kept record hr i owner' ho' (hid'.symm.trans hid) (by omega)

theorem liveCount_before (hc : cleaningUp w.starter = false) (hf : w.finisher = .idle)
    (hd : w.host.shutdownDone = 0) : liveCount w = w.created.length := by
  rw [liveCount, pointOf_before hc hf hd]
  simp [span, current, upcoming]

theorem liveCount_done (h : Inv w) (hd : w.host.shutdownDone = 1) : liveCount w = 0 := by
  rw [liveCount, h.pointOf_done hd]
  rfl

theorem liveCount_le (h : Inv w) : liveCount w ≤ w.created.length := by
  obtain ⟨k, hl⟩ := h.ledger
  have hk : (upcoming (pointOf w)).length = k := by
    rw [hl.rest]
    simp
  rw [liveCount, hk, span]
  split_ifs with hs
  · obtain ⟨⟨i, services, callbacks⟩, hc⟩ := Option.isSome_iff_exists.mp hs
    obtain ⟨rfl, runtime, hr, -⟩ := hl.under i services callbacks hc
    exact (List.getElem?_eq_some_iff.mp hr).1
  · exact hl.bound

theorem eq_of_id {created : List Runtime} (hnd : (created.map Runtime.id).Nodup) {i j : ℕ}
    {r s : Runtime} (hi : created[i]? = some r) (hj : created[j]? = some s) (h : r.id = s.id) :
    i = j := by
  have hi' : (created.map Runtime.id)[i]? = some r.id := by rw [List.getElem?_map, hi]; rfl
  have hj' : (created.map Runtime.id)[j]? = some r.id := by rw [List.getElem?_map, hj, h]; rfl
  have hne := List.nodup_iff_getElem?_ne_getElem?.mp hnd
  rcases lt_trichotomy i j with hlt | heq | hgt
  · exact absurd (hi'.trans hj'.symm) (hne i j hlt (List.getElem?_eq_some_iff.mp hj').1)
  · exact heq
  · exact absurd (hj'.trans hi'.symm) (hne j i hgt (List.getElem?_eq_some_iff.mp hi').1)

/-- A step of cleanup. -/
theorem Shared.cleanup (h : Shared w) {v w' : World} {cleanup cleanup' : Cleanup}
    {outcome : Outcome} {k : ℕ}
    (hl : Ledger w.host w.created w.registered w.invoked cleanup.point k)
    (hp : pointOf w = cleanup.point)
    (hstep : cleanupStep w cleanup outcome = some (v, cleanup'))
    (hv : w'.published = v.published ∧ w'.resolved = v.resolved ∧ w'.created = v.created ∧
      w'.host.services = v.host.services) (hp' : pointOf w' = cleanup'.point) : Shared w' := by
  obtain ⟨hpub, hres, hcr, hse⟩ := hv
  have hsp := spared_cleanupStep hstep
  have hext : Extends w.created w'.created := by
    rw [hcr]
    rcases hsp.created with he | ⟨i, he⟩
    · rw [he]
      exact .refl _
    · rw [he]
      exact .modify _ i (fun _ => rfl) fun _ => rfl
  have hlen : w'.created.length = w.created.length := by
    rw [hcr]
    rcases hsp.created with he | ⟨i, he⟩
    · rw [he]
    · rw [he, List.length_modify]
  have hstill : v.host.services = w.host.services → liveCount w' ≤ liveCount w → Shared w' :=
    fun hs hlive => h.still (hpub.trans hsp.published) (hres.trans hsp.resolved) hext hlen
      (hse.trans hs) hlive
  obtain ⟨point, failed⟩ := cleanup
  simp only [liveCount, hp, hp'] at hstill
  unfold Host.cleanupStep at hstep
  cases point with
  | reset runtimes =>
    cases hstep
    exact hstill rfl (by simp [upcoming, span, current])
  | drain runtimes =>
    dsimp only at hstep
    split at hstep
    · cases hstep
      exact hstill rfl (by simp [upcoming, span, current])
    · cases hstep
  | visit rest =>
    cases rest with
    | nil =>
      cases hstep
      exact hstill rfl (by simp [upcoming, span, current])
    | cons i rest =>
      dsimp only at hstep
      split at hstep
      · cases hstep
      · split_ifs at hstep
        · cases hstep
          exact hstill rfl (by simp [upcoming, span, current])
        · cases hstep
          exact hstill rfl (by simp [upcoming, span, current])
  | invoke i services callbacks rest =>
    cases callbacks with
    | nil =>
      dsimp only at hstep
      split at hstep
      · cases hstep
      next runtime hr =>
        cases hstep
        obtain ⟨rfl, -⟩ := hl.under i services [] rfl
        have hrest : rest.length = i := by
          have := congrArg List.length hl.rest
          simpa [upcoming] using this
        refine h.carry hpub hres hext ?_ ?_
        · intro name record hrec
          rw [hse] at hrec
          exact ((release_services ..).mp hrec).1
        · intro record hm j owner ho hid hj
          have hj : j < i := by
            rw [liveCount, hp'] at hj
            simpa [upcoming, span, current, hrest] using hj
          rw [hcr] at ho
          have hkept := h.kept record hm j owner ho hid (by
            rw [liveCount, hp]
            simp only [upcoming, span, current, Option.isSome_some, if_true, hrest]
            omega)
          rw [hse]
          refine (release_services ..).mpr ⟨hkept, ?_⟩
          rintro ⟨-, hown⟩
          have := eq_of_id hl.ids ho hr (hid.trans hown)
          omega
    | cons callback callbacks =>
      cases hstep
      exact hstill rfl (by simp [upcoming, span, current])
  | inside callback i services callbacks rest =>
    cases hstep
    exact hstill rfl (by simp [upcoming, span, current])
  | returned => cases hstep

/-- A step of a startup that makes no runtime and cleans none up. -/
theorem Shared.startup (h : Shared w) (hi : Inv w) (hb : busy w.starter = true)
    (hc : cleaningUp w.starter = false) {w' : World} (hi' : Inv w')
    (hpub : w'.published = w.published) (hres : w'.resolved = w.resolved)
    (hext : Extends w.created w'.created) (hlen : w'.created.length = w.created.length)
    (hs : w'.host.services = w.host.services) : Shared w' := by
  obtain ⟨hf, -, hd, -⟩ := hi.staged.of_busy hb
  refine h.still hpub hres hext hlen hs ?_
  rw [liveCount_before hc hf hd, ← hlen]
  exact liveCount_le hi'

/-- A runtime is made. -/
theorem Shared.install (h : Shared w) (hi : Inv w) {id : GoString} {rest : List GoString}
    {registration : Registration} (hs : w.starter = .top (id :: rest))
    (hr : w.registration id = some registration) : Shared (w.install id registration rest) := by
  obtain ⟨hf, -, hd, -⟩ := hi.staged.of_busy (by rw [hs]; rfl)
  have hids := (hi.install hs hr).built.ids
  refine h.carry rfl rfl (.concat _ _) (fun _ _ hrec => hrec) ?_
  intro record hm i owner ho hid hlive
  obtain ⟨j, old, hold, hoid, -⟩ := h.published record hm
  obtain ⟨old', ho', hid', -⟩ := (Extends.concat w.created
    ⟨id, registration.manifest, true, [], [], [], true, true, false⟩).forth j old hold
  have hij : i = j := eq_of_id (List.nodup_append.mp hids).1 ho ho'
    (hid.trans (hoid.symm.trans hid'.symm))
  subst hij
  refine h.kept record hm i old hold hoid ?_
  rw [liveCount_before (by rw [hs]; rfl) hf hd]
  exact (List.getElem?_eq_some_iff.mp hold).1

theorem Shared.validated (h : Shared w) (hi : Inv w) (isValid : GoString → Bool)
    (hs : w.starter = .validating) : Shared (w.validated isValid) := by
  have hi' := hi.validated isValid hs
  have hstill : ∀ {v : World}, v = w.validated isValid → v.published = w.published →
      v.resolved = w.resolved → v.created = w.created → v.host = w.host →
      Shared (w.validated isValid) := by
    rintro v rfl hpub hres hcr hh
    refine h.startup hi (by rw [hs]; rfl) (by rw [hs]; rfl) hi' hpub hres ?_ (by rw [hcr])
      (by rw [hh])
    rw [hcr]
    exact .refl _
  refine hstill rfl ?_ ?_ ?_ ?_ <;>
  · unfold World.validated
    split
    · rfl
    · split
      · rfl
      · split_ifs
        · rfl
        · split <;> rfl

/-- The next step of a startup. -/
theorem Shared.starterStep (h : Shared w) (hi : Inv w) {w' : World} {isValid : GoString → Bool}
    {outcome : Outcome} (hstep : starterStep isValid w outcome = some w') : Shared w' := by
  have hi' := hi.starterStep hstep
  unfold Host.starterStep at hstep
  have hsame : busy w.starter = true → cleaningUp w.starter = false → ∀ {v : World}, Inv v →
      v.published = w.published → v.resolved = w.resolved → v.created = w.created →
      v.host.services = w.host.services → Shared v := by
    intro hb hc v hv hpub hres hcr hs
    refine h.startup hi hb hc hv hpub hres ?_ (by rw [hcr]) hs
    rw [hcr]
    exact .refl _
  have hflag : busy w.starter = true → cleaningUp w.starter = false → ∀ {v : World}, Inv v →
      v.published = w.published → v.resolved = w.resolved →
      (∃ i f, Keeps f ∧ v.created = w.created.modify i f) →
      v.host.services = w.host.services → Shared v := by
    rintro hb hc v hv hpub hres ⟨i, f, hf, hcr⟩ hs
    refine h.startup hi hb hc hv hpub hres ?_ (by rw [hcr, List.length_modify]) hs
    rw [hcr]
    exact .modify _ i hf.id hf.manifest
  split at hstep
  · cases hstep
  · cases hstep
  next hs =>
    cases hstep
    exact h.validated hi isValid hs
  next hs =>
    cases hstep
    split_ifs at hi' ⊢ <;>
      exact hsame (by rw [hs]; rfl) (by rw [hs]; rfl) hi' rfl rfl rfl rfl
  next hs =>
    cases hstep
    split at hi' <;> exact hsame (by rw [hs]; rfl) (by rw [hs]; rfl) hi' rfl rfl rfl rfl
  next hs =>
    split_ifs at hstep
    · obtain ⟨registration, hr, rfl⟩ := Option.map_eq_some_iff.mp hstep
      exact h.install hi hs hr
    · cases hstep
      exact hsame (by rw [hs]; rfl) (by rw [hs]; rfl) hi' rfl rfl rfl rfl
  next hs =>
    obtain ⟨registration, -, rfl⟩ := Option.map_eq_some_iff.mp hstep
    split_ifs at hi' ⊢
    · exact hsame (by rw [hs]; rfl) (by rw [hs]; rfl) hi' rfl rfl rfl rfl
    · exact hflag (by rw [hs]; rfl) (by rw [hs]; rfl) hi' rfl rfl ⟨_, _, keeps_expire, rfl⟩ rfl
  next hs =>
    obtain ⟨registration, -, rfl⟩ := Option.map_eq_some_iff.mp hstep
    split_ifs at hi' ⊢ <;>
      exact hflag (by rw [hs]; rfl) (by rw [hs]; rfl) hi' rfl rfl ⟨_, _, keeps_expire, rfl⟩ rfl
  next hs =>
    obtain ⟨runtime, -, rfl⟩ := Option.map_eq_some_iff.mp hstep
    exact hsame (by rw [hs]; rfl) (by rw [hs]; rfl) hi' rfl rfl rfl rfl
  next i act acts rest hs =>
    obtain ⟨registration, -, rfl⟩ := Option.map_eq_some_iff.mp hstep
    have hb : busy w.starter = true := by rw [hs]; rfl
    have hc : cleaningUp w.starter = false := by rw [hs]; rfl
    cases act <;> unfold World.act at hi' ⊢
    · dsimp only at hi' ⊢
      split_ifs at hi' ⊢ <;> exact hsame hb hc hi' rfl rfl rfl rfl
    · dsimp only at hi' ⊢
      split_ifs at hi' ⊢ <;> exact hsame hb hc hi' rfl rfl rfl rfl
    · exact hflag hb hc hi' rfl rfl ⟨_, _, keeps_openResolver, rfl⟩ rfl
    · exact hflag hb hc hi' rfl rfl ⟨_, _, keeps_deactivate, rfl⟩ rfl
  next hs =>
    cases hstep
    split_ifs at hi' ⊢ <;>
      exact hflag (by rw [hs]; rfl) (by rw [hs]; rfl) hi' rfl rfl ⟨_, _, keeps_closeResolver, rfl⟩
        rfl
  next hs =>
    cases hstep
    exact hsame (by rw [hs]; rfl) (by rw [hs]; rfl) hi' rfl rfl rfl rfl
  next hs =>
    obtain ⟨registration, -, rfl⟩ := Option.map_eq_some_iff.mp hstep
    split_ifs at hi' ⊢ <;>
      exact hsame (by rw [hs]; rfl) (by rw [hs]; rfl) hi' rfl rfl rfl rfl
  next hs =>
    cases hstep
    split_ifs at hi' ⊢ <;>
      exact hsame (by rw [hs]; rfl) (by rw [hs]; rfl) hi' rfl rfl rfl rfl
  next failed ending hs =>
    cases hstep
    obtain ⟨-, -, hd, -⟩ := hi.staged.of_busy (by rw [hs]; rfl)
    have hzero := liveCount_done hi' (by simp [World.complete, hd])
    exact h.still rfl rfl (.refl _) rfl rfl (by rw [hzero]; exact Nat.zero_le _)
  next cleanup ending _ hs =>
    obtain ⟨⟨v, cleanup'⟩, hcl, rfl⟩ := Option.map_eq_some_iff.mp hstep
    obtain ⟨k, hl⟩ := hi.ledger
    have hp : pointOf w = cleanup.point := by simp only [pointOf, hs]
    rw [hp] at hl
    exact h.cleanup hl hp hcl ⟨rfl, rfl, rfl, rfl⟩ rfl
  next hs =>
    cases hstep
    refine h.still rfl rfl (.refl _) rfl rfl ?_
    rw [liveCount, liveCount, pointOf_finishStart hs]

/-- The next step of the goroutine of `Shutdown`. -/
theorem Shared.finisherStep (h : Shared w) (hi : Inv w) {w' : World} {outcome : Outcome}
    (hstep : finisherStep w outcome = some w') : Shared w' := by
  have hi' := hi.finisherStep hstep
  unfold Host.finisherStep at hstep
  split at hstep
  · cases hstep
  · cases hstep
  next runtimes hf =>
    obtain ⟨hs, -, hdone⟩ := hi.staged.of_finisher (by rw [hf]; simp)
    split_ifs at hstep
    cases hstep
    refine h.still rfl rfl (.refl _) rfl rfl ((liveCount_le hi').trans_eq ?_)
    have hp : pointOf w = .reset (List.range w.created.length) := by
      rcases hs with hs | hs <;> simp only [pointOf, hs, hf, hdone, if_true]
    rw [liveCount, hp]
    simp [span, current, upcoming]
  next failed hf =>
    cases hstep
    obtain ⟨-, -, hdone⟩ := hi.staged.of_finisher (by rw [hf]; simp)
    have hzero := liveCount_done hi' (by simp [World.finishShutdown, hdone])
    exact h.still rfl rfl (.refl _) rfl rfl (by rw [hzero]; exact Nat.zero_le _)
  next cleanup _ hf =>
    obtain ⟨⟨v, cleanup'⟩, hcl, rfl⟩ := Option.map_eq_some_iff.mp hstep
    obtain ⟨hs, -, -⟩ := hi.staged.of_finisher (by rw [hf]; simp)
    obtain ⟨k, hl⟩ := hi.ledger
    have hp : pointOf w = cleanup.point := by
      rcases hs with hs | hs <;> simp only [pointOf, hs, hf]
    rw [hp] at hl
    refine h.cleanup hl hp hcl ⟨rfl, rfl, rfl, rfl⟩ ?_
    have hsp := (spared_cleanupStep hcl).starter
    rcases hs with hs | hs <;> simp only [pointOf, hsp, hs]

/-- `Shutdown` releases nothing. -/
theorem Shared.shutdown (h : Shared w) (hi : Inv w) : Shared w.shutdown := by
  have hle := liveCount_le hi.shutdown
  unfold World.shutdown at hle ⊢
  split
  · exact h
  · exact h.still rfl rfl (.refl _) rfl rfl le_rfl
  next hstate =>
    have hfull : liveCount w = w.created.length := by
      cases hi.staged with
      | new _ _ hs => rw [hstate] at hs; cases hs
      | starting _ _ hs => rw [hstate] at hs; cases hs
      | running hs hf _ hd =>
        exact liveCount_before (by rcases hs with hs | hs <;> rw [hs] <;> rfl) hf hd
      | stopping _ _ hs => rw [hstate] at hs; cases hs
      | ended _ _ hs => rcases hs with hs | hs <;> rw [hstate] at hs <;> cases hs
    refine h.still rfl rfl (.refl _) rfl rfl ?_
    rw [hfull]
    simpa only [hstate] using hle
  · exact h.still rfl rfl (.refl _) rfl rfl le_rfl
  · exact h.still rfl rfl (.refl _) rfl rfl le_rfl
  · exact h.still rfl rfl (.refl _) rfl rfl le_rfl

/-- The names a `Provide` lists are those of the records it enters. -/
theorem entered_eq {host host' : Services.Host} {runtime runtime' : Runtime}
    {records : List ServiceRecord} (hp : Provided host runtime records host' runtime') :
    entered runtime runtime' host' = records := by
  have hnames : runtime'.services.drop runtime.services.length =
      records.map fun r => r.key.name := by
    rw [hp.runtime]
    exact List.drop_left
  have hall : ∀ l : List ServiceRecord, l ⊆ records →
      (l.map fun r => r.key.name).filterMap host'.services = l := by
    intro l hl
    induction l with
    | nil => rfl
    | cons r l ih =>
      have hr : host'.services r.key.name = some r :=
        (hp.services _ _).mpr (Or.inr ⟨hl List.mem_cons_self, rfl⟩)
      rw [List.map_cons, List.filterMap_cons, hr, ih fun x hx => hl (List.mem_cons_of_mem _ hx)]
  rw [entered, hnames]
  exact hall records (List.Subset.refl _)

/-- **A module publishes**: only new names, which it keeps. -/
theorem Shared.provide (h : Shared w) (hi : Inv w) {i : ℕ} {runtime runtime' : Runtime}
    {host : Services.Host} {key : Option KeyIdentity} {value : Value}
    (hr : w.created[i]? = some runtime)
    (hok : provideService w.host runtime key value = .ok (host, runtime')) :
    Shared { w with
      host := host, created := w.created.set i runtime'
      published := w.published ++ entered runtime runtime' host } := by
  obtain ⟨records, hp⟩ := provideService_ok hok
  obtain ⟨hb, hc, -⟩ := hi.last_of_scope hr hp.scope
  obtain ⟨hf, -, hd, -⟩ := hi.staged.of_busy hb
  have hfull := liveCount_before hc hf hd
  have hid := (hi.built.manifest runtime (List.mem_of_getElem? hr)).1
  have hext : Extends w.created (w.created.set i runtime') := by
    refine .set hr ?_ ?_ <;> rw [hp.runtime]
  have hpresent : ∀ record ∈ w.published, w.host.services record.key.name = some record := by
    intro record hm
    obtain ⟨j, owner, ho, hoid, -⟩ := h.published record hm
    refine h.kept record hm j owner ho hoid ?_
    rw [hfull]
    exact (List.getElem?_eq_some_iff.mp ho).1
  rw [entered_eq hp]
  refine ⟨?_, ?_, ?_, ?_, ?_⟩
  · rw [List.map_append]
    refine h.names.append hp.names ?_
    intro name hold hnew
    obtain ⟨old, hm, rfl⟩ := List.mem_map.mp hold
    obtain ⟨record, hm', he⟩ := List.mem_map.mp hnew
    have hvacant := hp.vacant record hm'
    rw [he, hpresent old hm] at hvacant
    cases hvacant
  · intro name record hrec
    rcases (hp.services name record).mp hrec with hold | ⟨hm, rfl⟩
    · obtain ⟨hm, hn⟩ := h.table name record hold
      exact ⟨List.mem_append_left _ hm, hn⟩
    · exact ⟨List.mem_append_right _ hm, rfl⟩
  · intro record hm
    rcases List.mem_append.mp hm with hm | hm
    · obtain ⟨j, owner, ho, hoid, hcap, hcanon⟩ := h.published record hm
      obtain ⟨owner', ho', hid', hman'⟩ := hext.forth j owner ho
      exact ⟨j, owner', ho', hid'.trans hoid, by rw [hman']; exact hcap, hcanon⟩
    · obtain ⟨owner', ho', hid', hman'⟩ := hext.forth i runtime hr
      refine ⟨i, owner', ho', ?_, ?_, hp.canonical record hm⟩
      · rw [hid', hp.owner record hm, hid]
      · rw [hman']
        exact hp.capability record hm
  · intro record hm j owner ho hoid hj
    rcases List.mem_append.mp hm with hm | hm
    · exact (hp.services _ _).mpr (Or.inl (hpresent record hm))
    · exact (hp.services _ _).mpr (Or.inr ⟨hm, rfl⟩)
  · intro res hm
    obtain ⟨hrec, hname, consumer, hcon, hdecl, j, hj, owner, ho, hoid⟩ := h.resolved res hm
    obtain ⟨consumer', hcon', -, hman'⟩ := hext.forth _ consumer hcon
    obtain ⟨owner', ho', hid', -⟩ := hext.forth j owner ho
    exact ⟨List.mem_append_left _ hrec, hname, consumer', hcon', by rw [hman']; exact hdecl, j, hj,
      owner', ho', hid'.trans hoid⟩

/-- A runtime that resolves is the one made last. -/
theorem holder_of_usable (hi : Inv w) {i : ℕ} {runtime : Runtime} {via : Option ℕ}
    (hr : w.created[i]? = some runtime) (hu : runtime.usable via = true) :
    holder w.starter = some i := by
  cases via with
  | none =>
    have := hi.built.scope i runtime hr hu
    revert this
    cases w.starter <;> simp [installing, holder]
  | some resolver =>
    have hm : true ∈ runtime.resolvers := by
      have hu : runtime.resolvers[resolver]? = some true := by simpa [Runtime.usable] using hu
      exact List.mem_of_getElem? hu
    have := hi.built.resolver i runtime hr hm
    revert this
    cases w.starter <;> simp [resolving, holder]

/-- **What a module resolves** it declared, and comes from itself or a module that has started. -/
theorem resolve_started (h : Shared w) (hi : Inv w) {i : ℕ} {runtime : Runtime} {via : Option ℕ}
    {key : Option KeyIdentity} {record : ServiceRecord} (hr : w.created[i]? = some runtime)
    (hok : resolveService w.host runtime via key = .ok record) :
    record ∈ w.published ∧
      (record.key.capability ∈ runtime.manifest.requires ∨
        record.key.capability ∈ runtime.manifest.provides) ∧
      (record.owner = runtime.id ∨ record.owner ∈ w.host.started) ∧
      ∃ j ≤ i, ∃ owner, w.created[j]? = some owner ∧ owner.id = record.owner := by
  have hres := resolveService_ok hok
  obtain ⟨name, hname⟩ := hres.found
  obtain ⟨hm, -⟩ := h.table name record hname
  obtain ⟨j, owner, ho, hoid, -⟩ := h.published record hm
  obtain ⟨hn, hlen⟩ := hi.built.held i (holder_of_usable hi hr hres.usable)
  have hj := (List.getElem?_eq_some_iff.mp ho).1
  refine ⟨hm, hres.declared, ?_, j, by omega, owner, ho, hoid⟩
  by_cases hji : j = i
  · subst hji
    obtain rfl := Option.some.inj (hr.symm.trans ho)
    exact Or.inl hoid.symm
  · refine Or.inr ?_
    rw [hi.built.started, hn, ← hoid]
    refine List.mem_map_of_mem (List.mem_of_getElem? (i := j) ?_)
    rw [List.getElem?_take, if_pos (by omega), ho]

/-- Every step keeps what is shared. -/
theorem Shared.step (h : Shared w) (hi : Inv w) {w' : World} {isValid : GoString → Bool}
    {event : Event} (hstep : step isValid w event = some w') : Shared w' := by
  cases event with
  | register registrations =>
    simp only [Host.step] at hstep
    split at hstep
    next host hr =>
      cases hstep
      obtain ⟨_, -, hr⟩ := bind_eq_ok.mp hr
      obtain ⟨held, -, hr⟩ := bind_eq_ok.mp hr
      cases hr
      exact h.still rfl rfl (.refl _) rfl rfl le_rfl
    next => cases hstep; exact h
  | start mode =>
    cases hstep
    have hle := liveCount_le (hi.begin mode)
    unfold World.begin at hle ⊢
    split_ifs at hle ⊢ with hnew
    · refine h.still rfl rfl (.refl _) rfl rfl ?_
      cases hi.staged with
      | new hs hf _ hd =>
        rw [liveCount_before (by rw [hs]; rfl) hf hd]
        exact hle
      | starting _ _ hs => rw [hnew] at hs; cases hs
      | running _ _ hs => rw [hnew] at hs; cases hs
      | stopping _ _ hs => rw [hnew] at hs; cases hs
      | ended _ _ hs => rcases hs with hs | hs <;> rw [hnew] at hs <;> cases hs
    · exact h
  | proceed outcome => exact h.starterStep hi hstep
  | shutdown => cases hstep; exact h.shutdown hi
  | finish outcome => exact h.finisherStep hi hstep
  | assemble =>
    simp only [Host.step] at hstep
    split at hstep
    next host outcome ha =>
      cases hstep
      obtain ⟨_, -, ha⟩ := bind_eq_ok.mp ha
      split at ha <;> cases ha <;> exact h.still rfl rfl (.refl _) rfl rfl le_rfl
    next => cases hstep; exact h
  | provide i key value =>
    obtain ⟨runtime, hr, rfl⟩ := Option.map_eq_some_iff.mp hstep
    split
    next host after hp => exact h.provide hi hr hp
    next => exact h
  | resolve i via key =>
    obtain ⟨runtime, hr, rfl⟩ := Option.map_eq_some_iff.mp hstep
    split
    next record hok =>
      obtain ⟨hm, hdecl, -, howner⟩ := resolve_started h hi hr hok
      refine ⟨h.names, h.table, h.published, h.kept, ?_⟩
      intro res hres
      rcases List.mem_append.mp hres with hold | hnew
      · exact h.resolved res hold
      · obtain rfl := List.mem_singleton.mp hnew
        exact ⟨hm, rfl, runtime, hr, hdecl, howner⟩
    next => exact h
  | onStop i isNil =>
    obtain ⟨runtime, hr, rfl⟩ := Option.map_eq_some_iff.mp hstep
    split
    next after hok =>
      obtain ⟨callback, -, he⟩ := onStop_ok hok
      obtain ⟨hb, hc, -⟩ := hi.last_of_scope hr he.scope
      have hi' := hi.onStop (by cases isNil <;> simp) hr hok
      refine h.startup hi hb hc hi' rfl rfl ?_ (by simp) rfl
      refine .set hr ?_ ?_ <;> rw [he.runtime]
    next => exact h
  | enterFacade =>
    simp only [Host.step] at hstep
    split_ifs at hstep <;> cases hstep
    · exact h.still rfl rfl (.refl _) rfl rfl le_rfl
    · exact h
  | leaveFacade => cases hstep; exact h.still rfl rfl (.refl _) rfl rfl le_rfl
  | acquireLease =>
    simp only [Host.step] at hstep
    split_ifs at hstep <;> cases hstep
    · exact h
    · exact h.still rfl rfl (.refl _) rfl rfl le_rfl
  | releaseLease => cases hstep; exact h.still rfl rfl (.refl _) rfl rfl le_rfl
  | finishOverdue callback => cases hstep; exact h.still rfl rfl (.refl _) rfl rfl le_rfl

end Steps

theorem shared_create (skipMigrations : Bool) : Shared (.create skipMigrations) :=
  ⟨List.nodup_nil, nofun, nofun, nofun, nofun⟩

theorem shared_of_run {isValid : GoString → Bool} {skipMigrations : Bool} {events : List Event}
    {w : World} (h : run (step isValid) events (.create skipMigrations) = some w) :
    Inv w ∧ Shared w := by
  refine run_induction (P := fun _ w => Inv w ∧ Shared w)
    ⟨inv_create skipMigrations, shared_create skipMigrations⟩ ?_ h
  rintro _ event s t ⟨hi, hsh⟩ hs
  exact ⟨hi.step hs, hsh.step hi hs⟩

/-! ### The contract -/

/-- The callback a cleanup is awaiting, with the number of its runtime. -/
def awaited : CleanupPoint → Option (ℕ × ℕ)
  | .inside callback i _ _ _ => some (callback, i)
  | _ => none

/-- What holds of the services of a Host in every state. -/
structure ServicesContract (w : World) : Prop where
  /-- A name is published once, by one owner. -/
  names : (w.published.map fun record => record.key.name).Nodup
  /-- A published service has its name from its key. -/
  table : ∀ name record, w.host.services name = some record →
    record ∈ w.published ∧ record.key.name = name
  /-- Its owner is a registered module that provides the capability of the key; under a reserved
  name the key is the canonical one. -/
  owners : ∀ record ∈ w.published,
    (∃ registration ∈ w.taken, registration.manifest.id = record.owner ∧
      record.key.capability ∈ registration.manifest.provides) ∧
    ∀ key ∈ canonicalServiceIdentity record.key.name, record.key = key
  /-- A module resolves capabilities its manifest declares, from itself or from a module that has
  started. -/
  resolves : ∀ (i : ℕ) (runtime : Runtime) (via : Option ℕ) (key : Option KeyIdentity)
    (record : ServiceRecord), w.created[i]? = some runtime →
    resolveService w.host runtime via key = .ok record →
    (record.key.capability ∈ runtime.manifest.requires ∨
      record.key.capability ∈ runtime.manifest.provides) ∧
    (record.owner = runtime.id ∨ record.owner ∈ w.host.started)
  /-- What a module resolved is published while one of its callbacks is to be invoked, or is
  awaited. -/
  present : ∀ res ∈ w.resolved, ∀ consumer, w.created[res.consumer]? = some consumer →
    ((∃ callback ∈ consumer.cleanups, callback ∉ w.invoked) ∨
      ∃ callback, awaited (pointOf w) = some (callback, res.consumer)) →
    w.host.services res.name = some res.record

theorem eq_of_callback {created : List Runtime} {n : ℕ}
    (hcount : created.flatMap Runtime.cleanups = List.range n) {i j callback : ℕ}
    {r s : Runtime} (hi : created[i]? = some r) (hj : created[j]? = some s)
    (hr : callback ∈ r.cleanups) (hs : callback ∈ s.cleanups) : i = j := by
  have hnd : (created.flatMap Runtime.cleanups).Nodup := by
    rw [hcount]
    exact List.nodup_range
  have hdis := List.pairwise_iff_getElem.mp (List.nodup_flatMap.mp hnd).2
  obtain ⟨hil, rfl⟩ := List.getElem?_eq_some_iff.mp hi
  obtain ⟨hjl, rfl⟩ := List.getElem?_eq_some_iff.mp hj
  rcases lt_trichotomy i j with hlt | heq | hgt
  · exact absurd hs (hdis i j hil hjl hlt hr)
  · exact heq
  · exact absurd hr (hdis j i hjl hil hgt hs)

/-- A callback not invoked belongs to a runtime not released. -/
theorem live_of_uninvoked {w : World} (h : Inv w) {i callback : ℕ} {runtime : Runtime}
    (hr : w.created[i]? = some runtime) (hm : callback ∈ runtime.cleanups)
    (hn : callback ∉ w.invoked) : i < liveCount w := by
  obtain ⟨k, hl⟩ := h.ledger
  have hk : (upcoming (pointOf w)).length = k := by
    rw [hl.rest]
    simp
  have hreg : callback ∈ List.range w.registered := by
    rw [← hl.counted]
    exact List.mem_flatMap.mpr ⟨runtime, List.mem_of_getElem? hr, hm⟩
  have hpend : callback ∈ w.invoked ++ (left (pointOf w) ++
      ((w.created.take k).flatMap Runtime.cleanups).reverse) := by
    rw [hl.pending]
    exact List.mem_reverse.mpr hreg
  rw [liveCount, hk, span]
  rcases List.mem_append.mp hpend with hinv | hrest
  · exact absurd hinv hn
  · rcases List.mem_append.mp hrest with hleft | hlater
    · cases hc : current (pointOf w) with
      | none => simp [left, hc] at hleft
      | some found =>
        obtain ⟨j, services, callbacks⟩ := found
        obtain ⟨rfl, owner, ho, -, hsub⟩ := hl.under j services callbacks hc
        have hleft : callback ∈ callbacks := by simpa [left, hc] using hleft
        have hij := eq_of_callback hl.counted hr ho hm (hsub hleft)
        simp [hij]
    · obtain ⟨owner, ho, hcb⟩ := List.mem_flatMap.mp (List.mem_reverse.mp hlater)
      obtain ⟨j, hj⟩ := List.mem_iff_getElem?.mp ho
      rw [List.getElem?_take] at hj
      split_ifs at hj with hjk
      have hij := eq_of_callback hl.counted hr hj hm hcb
      split_ifs <;> omega

/-- An awaited callback is one of a runtime not released. -/
theorem live_of_awaited {w : World} (h : Inv w) {i callback : ℕ}
    (ha : awaited (pointOf w) = some (callback, i)) : i < liveCount w := by
  obtain ⟨k, hl⟩ := h.ledger
  have hk : (upcoming (pointOf w)).length = k := by
    rw [hl.rest]
    simp
  rw [liveCount, hk, span]
  cases hp : pointOf w with
  | inside callback' j services callbacks rest =>
    rw [hp] at ha hl
    obtain ⟨-, rfl⟩ : callback' = callback ∧ j = i := by simpa [awaited] using ha
    obtain ⟨rfl, -⟩ := hl.under j services callbacks rfl
    simp [current]
  | _ => simp [hp, awaited] at ha

theorem servicesContract {w : World} (hi : Inv w) (h : Shared w) : ServicesContract w := by
  refine ⟨h.names, h.table, ?_, ?_, ?_⟩
  · intro record hm
    obtain ⟨i, owner, ho, hid, hcap, hcanon⟩ := h.published record hm
    obtain ⟨hmid, registration, hreg, he⟩ := hi.built.manifest owner (List.mem_of_getElem? ho)
    refine ⟨⟨registration, hreg, ?_, ?_⟩, hcanon⟩
    · rw [he, hmid, hid]
    · rw [he]
      exact hcap
  · intro i runtime via key record hr hok
    obtain ⟨-, hdecl, hstarted, -⟩ := resolve_started h hi hr hok
    exact ⟨hdecl, hstarted⟩
  · intro res hm consumer hc hcb
    have hlive : res.consumer < liveCount w := by
      rcases hcb with ⟨callback, hm', hn⟩ | ⟨callback, ha⟩
      · exact live_of_uninvoked hi hc hm' hn
      · exact live_of_awaited hi ha
    obtain ⟨hrec, hname, -, -, -, j, hj, owner, ho, hid⟩ := h.resolved res hm
    rw [hname]
    exact h.kept res.record hrec j owner ho hid (by omega)

/-- **The services of a Host**, in every state of every run. -/
theorem services_contract (isValid : GoString → Bool) (skipMigrations : Bool)
    (events : List Event) (w : World)
    (h : run (step isValid) events (.create skipMigrations) = some w) : ServicesContract w := by
  obtain ⟨hi, hs⟩ := shared_of_run h
  exact servicesContract hi hs

/-- The portal has resolved the directory when its callback is awaited. -/
theorem services_contract_sample : ∃ w,
    sampleRun (startup ++ [.assemble] ++ teardown.dropLast) = some w ∧ ServicesContract w ∧
      awaited (pointOf w) = some (1, 1) ∧ w.resolved.map Resolution.consumer = [1] := by
  have hrun : ((sampleRun (startup ++ [.assemble] ++ teardown.dropLast)).map fun w =>
      (awaited (pointOf w), w.resolved.map Resolution.consumer)) = some (some (1, 1), [1]) := by
    decide +kernel
  obtain ⟨w, hw, he⟩ := Option.map_eq_some_iff.mp hrun
  simp only [Prod.mk.injEq] at he
  exact ⟨w, hw, services_contract _ _ _ w hw, he⟩

/-- **A callback that ran out of time outlives the service it resolved.** -/
theorem overdue_callback_outlives_service : ∃ events w, sampleRun events = some w ∧
    ∃ res ∈ w.resolved, ∃ consumer, w.created[res.consumer]? = some consumer ∧
      (∃ callback ∈ consumer.cleanups, callback ∈ w.overdue) ∧
      w.host.services res.name = none := by
  have hrun : ((sampleRun (startup ++ [.assemble] ++ teardown ++ ending)).map fun w =>
      (w.resolved.map (fun res => (res.consumer, res.name)), w.created.map Runtime.cleanups,
        w.overdue, w.host.services (.utf8 "identity.resolver"))) =
      some ([(1, .utf8 "identity.resolver")], [[0], [1]], [1], none) := by decide +kernel
  obtain ⟨w, hw, he⟩ := Option.map_eq_some_iff.mp hrun
  simp only [Prod.mk.injEq] at he
  obtain ⟨hres, hcl, ho, hn⟩ := he
  obtain ⟨res, hres', hname⟩ := List.map_eq_singleton_iff.mp hres
  simp only [Prod.mk.injEq] at hname
  have hget : (w.created.map Runtime.cleanups)[1]? = some [1] := by rw [hcl]; rfl
  rw [List.getElem?_map] at hget
  obtain ⟨consumer, hc, hcb⟩ := Option.map_eq_some_iff.mp hget
  refine ⟨_, w, hw, res, by rw [hres']; exact List.mem_singleton_self _, consumer, ?_, ?_, ?_⟩
  · rw [hname.1]
    exact hc
  · exact ⟨1, by rw [hcb]; decide, by rw [ho]; decide⟩
  · rw [hname.2]
    exact hn

end Modary.Module.Ownership
