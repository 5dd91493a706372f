import Mathlib.Data.List.Range
import Mathlib.Data.List.Nodup
import Modary.Module.Host

/-! # What cleanup has left to do

The ledger of a Host: the runtimes whose cleanup has not begun are the first ones made, the
callbacks left are theirs, and so are the services still published. Making a runtime, publishing a
service, registering a callback and every step of cleanup keep it. -/

namespace Modary.Module.Cleanups

open Modary.Lib.GoText Modary.Module.Services Modary.Module.Host

/-! ### What cleanup has left -/

/-- The runtimes whose cleanup has not begun, the next one first. -/
def upcoming : CleanupPoint → List ℕ
  | .reset runtimes | .drain runtimes => runtimes.reverse
  | .visit rest | .invoke _ _ _ rest | .inside _ _ _ _ rest => rest
  | .returned => []

/-- The runtime under cleanup, with the names and callbacks it was found with. -/
def current : CleanupPoint → Option (ℕ × List GoString × List ℕ)
  | .invoke i services callbacks _ | .inside _ i services callbacks _ =>
    some (i, services, callbacks)
  | _ => none

/-- The callbacks of the runtime under cleanup that were not invoked. -/
def left (point : CleanupPoint) : List ℕ := (current point).elim [] fun r => r.2.2

/-- The runtimes not released, when `k` are untouched: one more while a runtime is under cleanup. -/
def span (point : CleanupPoint) (k : ℕ) : ℕ := if (current point).isSome then k + 1 else k

/-- Where the cleanup of a Host stands; before it all runtimes are left, afterwards none. -/
def pointOf (w : World) : CleanupPoint :=
  match w.starter, w.finisher with
  | .cleaning cleanup _, _ => cleanup.point
  | _, .cleaning cleanup => cleanup.point
  | _, _ => if w.host.shutdownDone = 0 then .reset (List.range w.created.length) else .returned

/-- What the Host took from a service goes with the service. -/
structure Backed (host : Services.Host) : Prop where
  database : host.database ≠ none → ∃ record,
    host.services databaseStoreKey.name = some record ∧ record.owner = host.databaseOwner
  persistence : host.persistence ≠ none → ∃ record,
    host.services actionPersistenceName = some record ∧ record.owner = host.persistenceOwner

/-- What is left at a point of cleanup: the first `k` runtimes are untouched. -/
structure Ledger (host : Services.Host) (created : List Runtime) (registered : ℕ)
    (invoked : List ℕ) (point : CleanupPoint) (k : ℕ) : Prop where
  bound : k ≤ created.length
  rest : upcoming point = (List.range k).reverse
  ids : (created.map Runtime.id).Nodup
  counted : created.flatMap Runtime.cleanups = List.range registered
  pending : invoked ++ (left point ++ ((created.take k).flatMap Runtime.cleanups).reverse) =
    (List.range registered).reverse
  under : ∀ i services callbacks, current point = some (i, services, callbacks) →
    i = k ∧ ∃ runtime, created[i]? = some runtime ∧ runtime.services = services ∧
      callbacks ⊆ runtime.cleanups
  uncleaned : ∀ i < k, ∀ runtime, created[i]? = some runtime → runtime.cleaned = false
  owned : ∀ name record, host.services name = some record →
    ∃ i < span point k, ∃ runtime, created[i]? = some runtime ∧ runtime.id = record.owner ∧
      name ∈ runtime.services
  backed : Backed host

/-! ### Cleanup -/

theorem releaseOne_services (id : GoString) (host : Services.Host) (name other : GoString)
    (record : ServiceRecord) :
    (releaseOne id host name).services other = some record ↔
      host.services other = some record ∧ ¬ (other = name ∧ record.owner = id) := by
  unfold releaseOne
  cases hn : host.services name with
  | none =>
    constructor
    · intro h
      refine ⟨h, ?_⟩
      rintro ⟨rfl, -⟩
      simp [hn] at h
    · exact fun h => h.1
  | some held =>
    by_cases ho : held.owner = id
    · have hs : (releaseOne id host name).services = Function.update host.services name none := by
        simp only [releaseOne, hn, ho, if_true]
        split_ifs <;> rfl
      simp only [releaseOne, hn] at hs
      rw [hs]
      by_cases hname : other = name
      · subst hname
        simp only [Function.update_self, reduceCtorEq, hn, Option.some.injEq, false_iff]
        rintro ⟨rfl, hne⟩
        exact hne ⟨trivial, ho⟩
      · simp [hname]
    · simp only [ho, if_false]
      constructor
      · intro h
        refine ⟨h, ?_⟩
        rintro ⟨rfl, hr⟩
        rw [hn, Option.some.injEq] at h
        exact ho (h ▸ hr)
      · exact fun h => h.1

theorem Backed.releaseOne {host : Services.Host} (h : Backed host) (id name : GoString) :
    Backed (releaseOne id host name) := by
  cases hn : host.services name with
  | none =>
    have : Host.releaseOne id host name = host := by simp [Host.releaseOne, hn]
    rwa [this]
  | some held =>
    by_cases ho : held.owner = id
    · constructor
      · intro hd
        have hkeep : host.database ≠ none ∧
            (Host.releaseOne id host name).databaseOwner = host.databaseOwner ∧
            ¬ (name = databaseStoreKey.name ∧ host.databaseOwner = id) := by
          revert hd
          simp only [Host.releaseOne, hn, ho, if_true]
          split_ifs <;> simp_all
        obtain ⟨record, hr, hown⟩ := h.database hkeep.1
        refine ⟨record, (releaseOne_services ..).mpr ⟨hr, ?_⟩, hown.trans hkeep.2.1.symm⟩
        rintro ⟨rfl, hid⟩
        exact hkeep.2.2 ⟨rfl, hown ▸ hid⟩
      · intro hd
        have hkeep : host.persistence ≠ none ∧
            (Host.releaseOne id host name).persistenceOwner = host.persistenceOwner ∧
            ¬ (name = actionPersistenceName ∧ host.persistenceOwner = id) := by
          revert hd
          simp only [Host.releaseOne, hn, ho, if_true]
          split_ifs <;> simp_all
        obtain ⟨record, hr, hown⟩ := h.persistence hkeep.1
        refine ⟨record, (releaseOne_services ..).mpr ⟨hr, ?_⟩, hown.trans hkeep.2.1.symm⟩
        rintro ⟨rfl, hid⟩
        exact hkeep.2.2 ⟨rfl, hown ▸ hid⟩
    · have : Host.releaseOne id host name = host := by simp [Host.releaseOne, hn, ho]
      rwa [this]

/-- **The release of a runtime**: the listed services of its owner go, the others stay. -/
theorem release_services (id : GoString) : ∀ (services : List GoString) (host : Services.Host)
    (name : GoString) (record : ServiceRecord),
    (release host id services).services name = some record ↔
      host.services name = some record ∧ ¬ (name ∈ services ∧ record.owner = id)
  | [], host, name, record => by simp [release]
  | first :: services, host, name, record => by
    have ih := release_services id services (releaseOne id host first) name record
    rw [releaseOne_services] at ih
    simp only [release, List.foldl_cons] at ih ⊢
    rw [ih]
    simp only [List.mem_cons]
    tauto

theorem Backed.release {id : GoString} : ∀ {services : List GoString} {host : Services.Host},
    Backed host → Backed (release host id services)
  | [], _, h => h
  | first :: services, host, h => by
    show Backed (Host.release (Host.releaseOne id host first) id services)
    exact Backed.release (h.releaseOne id first)

section Cleanup

variable {host : Services.Host} {created : List Runtime} {registered k : ℕ} {invoked : List ℕ}
  {point : CleanupPoint}

/-- Only the tables of a Host matter. -/
theorem Ledger.of_host (h : Ledger host created registered invoked point k)
    {host' : Services.Host} (hs : host'.services = host.services)
    (hd : host'.database = host.database ∧ host'.databaseOwner = host.databaseOwner)
    (hp : host'.persistence = host.persistence ∧
      host'.persistenceOwner = host.persistenceOwner) :
    Ledger host' created registered invoked point k := by
  refine { h with owned := ?_, backed := ⟨?_, ?_⟩ }
  · rw [hs]
    exact h.owned
  · rw [hs, hd.1, hd.2]
    exact h.backed.database
  · rw [hs, hp.1, hp.2]
    exact h.backed.persistence

/-- Two points at which the same is left. -/
theorem Ledger.of_point (h : Ledger host created registered invoked point k)
    {point' : CleanupPoint} (hu : upcoming point' = upcoming point)
    (hc : Cleanups.current point' = Cleanups.current point) :
    Ledger host created registered invoked point' k := by
  have hl : left point' = left point := by rw [left, left, hc]
  have hs : span point' k = span point k := by rw [span, span, hc]
  refine { h with rest := hu.trans h.rest, pending := ?_, under := ?_, owned := ?_ }
  · rw [hl]
    exact h.pending
  · rw [hc]
    exact h.under
  · rw [hs]
    exact h.owned

/-- A change of a runtime that keeps its id, its services and its callbacks. -/
theorem Ledger.modify (h : Ledger host created registered invoked point k) {i : ℕ}
    {f : Runtime → Runtime} (hid : ∀ r, (f r).id = r.id)
    (hservices : ∀ r, (f r).services = r.services) (hcleanups : ∀ r, (f r).cleanups = r.cleanups)
    (hcleaned : i < k → ∀ r, (f r).cleaned = r.cleaned) :
    Ledger host (created.modify i f) registered invoked point k := by
  have hmap : ∀ {β : Type} (g : Runtime → β), (∀ r, g (f r) = g r) → ∀ l : List Runtime,
      (l.modify i f).map g = l.map g := by
    intro β g hg l
    apply List.ext_getElem?
    intro j
    simp only [List.getElem?_map, List.getElem?_modify]
    by_cases hij : i = j
    · simp [hij, Function.comp_def, hg]
    · simp [hij]
  have hflat : ∀ l : List Runtime,
      (l.modify i f).flatMap Runtime.cleanups = l.flatMap Runtime.cleanups := by
    intro l
    rw [List.flatMap_def, List.flatMap_def, hmap _ hcleanups]
  have htake : ((created.modify i f).take k).flatMap Runtime.cleanups =
      (created.take k).flatMap Runtime.cleanups := by
    rw [List.flatMap_def, List.flatMap_def, List.map_take, List.map_take, hmap _ hcleanups]
  refine { h with
    bound := ?_, ids := ?_, counted := ?_, pending := ?_, under := ?_, uncleaned := ?_
    owned := ?_ }
  · rw [List.length_modify]
    exact h.bound
  · rw [hmap _ hid]
    exact h.ids
  · rw [hflat]
    exact h.counted
  · rw [htake]
    exact h.pending
  · intro j services callbacks hc
    obtain ⟨hj, runtime, hr, hs, hcb⟩ := h.under j services callbacks hc
    refine ⟨hj, if i = j then f runtime else runtime, ?_, ?_, ?_⟩
    · rw [List.getElem?_modify, hr]
      rfl
    · split_ifs
      · rw [hservices, hs]
      · exact hs
    · split_ifs
      · rw [hcleanups]
        exact hcb
      · exact hcb
  · intro j hj runtime hr
    rw [List.getElem?_modify] at hr
    obtain ⟨old, ho, rfl⟩ := Option.map_eq_some_iff.mp hr
    split_ifs with hij
    · subst hij
      rw [hcleaned hj]
      exact h.uncleaned i hj old ho
    · exact h.uncleaned j hj old ho
  · intro name record hrec
    obtain ⟨j, hj, runtime, hr, ho, hn⟩ := h.owned name record hrec
    refine ⟨j, hj, if i = j then f runtime else runtime, ?_, ?_, ?_⟩
    · rw [List.getElem?_modify, hr]
      rfl
    · split_ifs
      · rw [hid, ho]
      · exact ho
    · split_ifs
      · rw [hservices]
        exact hn
      · exact hn

theorem range_succ_reverse {i m : ℕ} {rest : List ℕ}
    (h : i :: rest = (List.range m).reverse) :
    m = i + 1 ∧ rest = (List.range i).reverse := by
  obtain _ | n := m
  · simp at h
  · rw [List.range_succ, List.reverse_append] at h
    simp only [List.reverse_cons, List.reverse_nil, List.nil_append, List.singleton_append,
      List.cons.injEq] at h
    obtain ⟨rfl, rfl⟩ := h
    exact ⟨rfl, rfl⟩

/-- The cleanup of the next runtime begins. -/
theorem Ledger.beginCleanup {i : ℕ} {rest : List ℕ} {runtime : Runtime}
    (h : Ledger host created registered invoked (.visit (i :: rest)) k)
    (hr : created[i]? = some runtime) :
    Ledger host (created.modify i retire) registered invoked
      (.invoke i runtime.services runtime.cleanups.reverse rest) i := by
  obtain ⟨rfl, hrest⟩ := range_succ_reverse h.rest
  have hi : i < created.length := h.bound
  have htake : (created.take (i + 1)).flatMap Runtime.cleanups =
      (created.take i).flatMap Runtime.cleanups ++ runtime.cleanups := by
    rw [List.take_succ_eq_append_getElem hi, List.flatMap_append]
    have : created[i] = runtime := by
      rw [List.getElem?_eq_getElem hi, Option.some.injEq] at hr
      exact hr
    simp [this]
  have hmid : Ledger host created registered invoked
      (.invoke i runtime.services runtime.cleanups.reverse rest) i := by
    refine { h with
      bound := hi.le, rest := hrest, pending := ?_, under := ?_, uncleaned := ?_, owned := ?_ }
    · have hp := h.pending
      rw [htake, List.reverse_append] at hp
      exact hp
    · intro j services callbacks hc
      obtain ⟨rfl, rfl, rfl⟩ : i = j ∧ runtime.services = services ∧
          runtime.cleanups.reverse = callbacks := by simpa [Cleanups.current] using hc
      exact ⟨rfl, runtime, hr, rfl, fun callback hc => List.mem_reverse.mp hc⟩
    · intro j hj
      exact h.uncleaned j (by omega)
    · exact h.owned
  exact hmid.modify (fun _ => rfl) (fun _ => rfl) (fun _ => rfl) fun hlt => absurd hlt (by omega)

/-- The services of a runtime go after its callbacks. -/
theorem Ledger.release {i : ℕ} {rest : List ℕ} {services : List GoString} {runtime : Runtime}
    (h : Ledger host created registered invoked (.invoke i services [] rest) k)
    (hr : created[i]? = some runtime) :
    Ledger (release host runtime.id services) created registered invoked (.visit rest) k := by
  obtain ⟨rfl, found, hf, rfl, -⟩ := h.under i services [] rfl
  obtain rfl : runtime = found := Option.some.inj (hr.symm.trans hf)
  refine { h with rest := h.rest, pending := h.pending, under := ?_, owned := ?_
                  backed := h.backed.release }
  · intro j services callbacks hc
    simp [Cleanups.current] at hc
  · intro name record hrec
    obtain ⟨hrec, hkept⟩ := (release_services ..).mp hrec
    obtain ⟨j, hj, owner, hown, hid, hname⟩ := h.owned name record hrec
    have hne : j ≠ i := by
      rintro rfl
      obtain rfl : runtime = owner := Option.some.inj (hr.symm.trans hown)
      exact hkept ⟨hname, hid.symm⟩
    have hlt : j < i + 1 := hj
    exact ⟨j, by simp only [span, Cleanups.current]; simp; omega, owner, hown, hid, hname⟩

/-- A runtime is made. -/
theorem Ledger.install {runtime : Runtime}
    (h : Ledger host created registered invoked (.reset (List.range created.length))
      created.length) (hid : runtime.id ∉ created.map Runtime.id) (hcb : runtime.cleanups = [])
    (hclean : runtime.cleaned = false) :
    Ledger host (created ++ [runtime]) registered invoked
      (.reset (List.range (created.length + 1))) (created.length + 1) := by
  have hpending := h.pending
  refine
    { bound := by simp, rest := rfl, ids := ?_, counted := ?_, pending := ?_
      under := by simp [Cleanups.current], uncleaned := ?_, owned := ?_, backed := h.backed }
  · rw [List.map_append]
    exact h.ids.append (List.nodup_singleton _) (by simpa using hid)
  · simp [List.flatMap_append, hcb, h.counted]
  · rw [List.take_length] at hpending
    have : (created ++ [runtime]).take (created.length + 1) = created ++ [runtime] := by
      rw [List.take_of_length_le]
      simp
    rw [this, List.flatMap_append]
    simp only [hcb, List.flatMap_cons, List.flatMap_nil, List.append_nil]
    exact hpending
  · intro i hi r hr
    by_cases hlt : i < created.length
    · rw [List.getElem?_append_left hlt] at hr
      exact h.uncleaned i hlt r hr
    · have : i = created.length := by omega
      subst this
      simp only [List.getElem?_concat_length, Option.some.injEq] at hr
      rw [← hr, hclean]
  · intro name record hrec
    obtain ⟨i, hi, r, hr, ho⟩ := h.owned name record hrec
    have hlt : i < created.length := hi
    exact ⟨i, show i < created.length + 1 by omega, r, by
      rw [List.getElem?_append_left hlt, hr], ho⟩

/-- Before cleanup nothing was invoked. -/
theorem Ledger.invoked_eq_nil
    (h : Ledger host created registered invoked (.reset (List.range created.length))
      created.length) : invoked = [] := by
  have hp := h.pending
  rw [List.take_length, h.counted] at hp
  exact List.append_left_eq_self.mp hp

/-- The runtime made last is added to. -/
theorem Ledger.replaceLast {before : List Runtime} {runtime runtime' : Runtime}
    {host' : Services.Host} {registered' : ℕ}
    (h : Ledger host (before ++ [runtime]) registered invoked
      (.reset (List.range (before ++ [runtime]).length)) (before ++ [runtime]).length)
    (hid : runtime'.id = runtime.id) (hclean : runtime'.cleaned = runtime.cleaned)
    (hcount : (before ++ [runtime']).flatMap Runtime.cleanups = List.range registered')
    (hservices : runtime.services ⊆ runtime'.services)
    (howned : ∀ name record, host'.services name = some record →
      host.services name = some record ∨ record.owner = runtime'.id ∧ name ∈ runtime'.services)
    (hbacked : Backed host') :
    Ledger host' (before ++ [runtime']) registered' invoked
      (.reset (List.range (before ++ [runtime']).length)) (before ++ [runtime']).length := by
  have hlen : (before ++ [runtime']).length = before.length + 1 := by simp
  have hfull : (before ++ [runtime]).length = before.length + 1 := by simp
  refine
    { bound := le_rfl, rest := rfl, ids := ?_, counted := hcount, pending := ?_
      under := by simp [Cleanups.current], uncleaned := ?_, owned := ?_, backed := hbacked }
  · have := h.ids
    simpa [hid] using this
  · rw [List.take_length, hcount, h.invoked_eq_nil]
    rfl
  · intro i hi r hr
    by_cases hlt : i < before.length
    · rw [List.getElem?_append_left hlt] at hr
      exact h.uncleaned i (by omega) r (by rwa [List.getElem?_append_left hlt])
    · obtain rfl : i = before.length := by omega
      rw [List.getElem?_concat_length, Option.some.injEq] at hr
      rw [← hr, hclean]
      exact h.uncleaned before.length (by omega) runtime List.getElem?_concat_length
  · intro name record hrec
    rcases howned name record hrec with hold | ⟨hown, hname⟩
    · obtain ⟨i, hi, r, hr, ho, hn⟩ := h.owned name record hold
      have hi : i < (before ++ [runtime]).length := hi
      refine ⟨i, show i < (before ++ [runtime']).length by omega, ?_⟩
      by_cases hlt : i < before.length
      · rw [List.getElem?_append_left hlt] at hr
        exact ⟨r, by rwa [List.getElem?_append_left hlt], ho, hn⟩
      · obtain rfl : i = before.length := by omega
        rw [List.getElem?_concat_length, Option.some.injEq] at hr
        subst hr
        exact ⟨runtime', List.getElem?_concat_length, hid.trans ho, hservices hn⟩
    · exact ⟨before.length, show before.length < (before ++ [runtime']).length by omega, runtime',
        List.getElem?_concat_length, hown.symm, hname⟩

/-- The runtime made last gets a callback. -/
theorem Ledger.onStop {before : List Runtime} {runtime runtime' : Runtime}
    (h : Ledger host (before ++ [runtime]) registered invoked
      (.reset (List.range (before ++ [runtime]).length)) (before ++ [runtime]).length)
    (he : Enrolled host runtime registered runtime') :
    Ledger host (before ++ [runtime']) (registered + 1) invoked
      (.reset (List.range (before ++ [runtime']).length)) (before ++ [runtime']).length := by
  obtain rfl := he.runtime
  refine h.replaceLast rfl rfl ?_ (List.Subset.refl _) (fun _ _ hrec => Or.inl hrec) h.backed
  have hcount := h.counted
  rw [List.flatMap_append] at hcount ⊢
  simp only [List.flatMap_cons, List.flatMap_nil, List.append_nil] at hcount ⊢
  rw [← List.append_assoc, hcount, List.range_succ]

/-- The runtime made last publishes services. -/
theorem Ledger.provide {before : List Runtime} {runtime runtime' : Runtime}
    {records : List ServiceRecord} {host' : Services.Host}
    (h : Ledger host (before ++ [runtime]) registered invoked
      (.reset (List.range (before ++ [runtime]).length)) (before ++ [runtime]).length)
    (hid : runtime.manifest.id = runtime.id)
    (hp : Provided host runtime records host' runtime') :
    Ledger host' (before ++ [runtime']) registered invoked
      (.reset (List.range (before ++ [runtime']).length)) (before ++ [runtime']).length := by
  obtain rfl := hp.runtime
  refine h.replaceLast rfl rfl ?_ (List.subset_append_left _ _) ?_ ⟨?_, ?_⟩
  · have hcount := h.counted
    rw [List.flatMap_append] at hcount ⊢
    exact hcount
  · intro name record hrec
    rcases (hp.services name record).mp hrec with hold | ⟨hm, rfl⟩
    · exact Or.inl hold
    · refine Or.inr ⟨(hp.owner record hm).trans hid, ?_⟩
      exact List.mem_append_right _ (List.mem_map_of_mem hm)
  · intro hd
    rcases hp.database with ⟨h₁, h₂⟩ | ⟨r, hr, hname, hown⟩
    · obtain ⟨record, hrec, ho⟩ := h.backed.database (h₁ ▸ hd)
      exact ⟨record, (hp.services _ _).mpr (Or.inl hrec), ho.trans h₂.symm⟩
    · exact ⟨r, (hp.services _ _).mpr (Or.inr ⟨hr, hname⟩), hown⟩
  · intro hd
    rcases hp.persistence with ⟨h₁, h₂⟩ | ⟨r, hr, hname, hown⟩
    · obtain ⟨record, hrec, ho⟩ := h.backed.persistence (h₁ ▸ hd)
      exact ⟨record, (hp.services _ _).mpr (Or.inl hrec), ho.trans h₂.symm⟩
    · exact ⟨r, (hp.services _ _).mpr (Or.inr ⟨hr, hname⟩), hown⟩

end Cleanup

/-- **A step of cleanup keeps the ledger.** -/
theorem Ledger.cleanupStep {w w' : World} {cleanup cleanup' : Cleanup} {outcome : Outcome} {k : ℕ}
    (h : Ledger w.host w.created w.registered w.invoked cleanup.point k)
    (hstep : cleanupStep w cleanup outcome = some (w', cleanup')) :
    ∃ k', Ledger w'.host w'.created w'.registered w'.invoked cleanup'.point k' := by
  obtain ⟨point, failed⟩ := cleanup
  unfold Host.cleanupStep at hstep
  cases point with
  | reset runtimes =>
    cases hstep
    have hdrain : Ledger w.host w.created w.registered w.invoked (.drain runtimes) k :=
      h.of_point rfl rfl
    exact ⟨k, hdrain.of_host rfl ⟨rfl, rfl⟩ ⟨rfl, rfl⟩⟩
  | drain runtimes =>
    dsimp only at hstep
    split at hstep
    · cases hstep
      exact ⟨k, h.of_point rfl rfl⟩
    · cases hstep
  | visit rest =>
    cases rest with
    | nil =>
      cases hstep
      exact ⟨k, h.of_point rfl rfl⟩
    | cons i rest =>
      dsimp only at hstep
      cases hr : w.created[i]? with
      | none =>
        rw [hr] at hstep
        cases hstep
      | some runtime =>
        obtain ⟨hk, -⟩ := range_succ_reverse h.rest
        have hclean := h.uncleaned i (by omega) runtime hr
        rw [hr] at hstep
        simp only [hclean, Bool.false_eq_true, if_false, Option.some.injEq, Prod.mk.injEq] at hstep
        obtain ⟨rfl, rfl⟩ := hstep
        exact ⟨i, h.beginCleanup hr⟩
  | invoke i services callbacks rest =>
    cases callbacks with
    | nil =>
      dsimp only at hstep
      cases hr : w.created[i]? with
      | none =>
        rw [hr] at hstep
        cases hstep
      | some runtime =>
        rw [hr] at hstep
        cases hstep
        exact ⟨k, h.release hr⟩
    | cons callback callbacks =>
      cases hstep
      refine ⟨k, { h with rest := h.rest, pending := ?_, under := ?_, owned := h.owned }⟩
      · have hp := h.pending
        simp only [left, current, Option.elim] at hp ⊢
        simpa using hp
      · intro j services' callbacks' hc
        obtain ⟨rfl, rfl, rfl⟩ : i = j ∧ services = services' ∧ callbacks = callbacks' := by
          simpa [Cleanups.current] using hc
        obtain ⟨hi, runtime, hr, hs, hcb⟩ := h.under i services (callback :: callbacks) rfl
        exact ⟨hi, runtime, hr, hs, fun other ho => hcb (List.mem_cons_of_mem _ ho)⟩
  | inside callback i services callbacks rest =>
    cases hstep
    exact ⟨k, h.of_point rfl rfl⟩
  | returned => cases hstep

end Modary.Module.Cleanups
