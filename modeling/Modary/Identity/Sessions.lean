import Modary.Identity.Freshness

/-! # No superseded session resolves

The invariant of the runs whose steps meet the condition of `Identity.Freshness`: while a session is
being issued nothing takes away what it was issued from, and the committed sessions of an actor are
deleted by whoever does. A run without the condition leaves a session of a replaced password behind
(`stale_session_resolves`). -/

namespace Modary.Identity.Sessions

open Modary.Lib.GoText Modary.Lib.Keyed Modary.Lib.Machine Modary.Identity.Store
open Modary.Identity.Freshness

variable {crypto : Crypto}

/-! ### The invariant -/

structure Inv (crypto : Crypto) (es : List Event) (w : World) : Prop where
  reached : run (step crypto) es .initial = some w
  sound : ∀ (i : ℕ) (tx : Tx), w.txs[i]? = some tx → tx.status = .running →
    Sound crypto w.tables tx
  apart : ∀ (i j : ℕ) (a b : Tx), i ≠ j → w.txs[i]? = some a → w.txs[j]? = some b →
    a.status = .running → b.status = .running → Apart a.writes b.writes
  exclusive : ∀ (a : String) (i j : ℕ) (tx other : Tx), w.txs[i]? = some tx →
    w.txs[j]? = some other → issues a tx = true → sweeps a other = false
  current : ∀ (i : ℕ) (tx : Tx), w.txs[i]? = some tx → tx.status = .running →
    ¬ Superseded crypto es i
  rows : ∀ row ∈ w.tables.sessions, ∃ (i : ℕ) (tx : Tx) (creation : Creation),
    w.txs[i]? = some tx ∧ tx.status = .committed ∧ tx.job = .createSession creation .commit ∧
    row = creation.row crypto ∧ ¬ Superseded crypto es i
  later : ∀ i, w.txs.length ≤ i → ¬ Superseded crypto es i

theorem inForce_of_current {es : List Event} {w : World} {i : ℕ} {tx : Tx} {creation : Creation}
    {point : CreationPoint} (h : run (step crypto) es .initial = some w)
    (htx : w.txs[i]? = some tx) (hjob : tx.job = .createSession creation point)
    (hs : ¬ Superseded crypto es i) : InForce w.tables creation point := by
  by_contra hn
  exact hs ⟨creation, es, w, tx, point, List.prefix_rfl, h, htx, hjob, hn⟩

/-- Nothing is superseded by a step after which it is in force. -/
theorem not_superseded_snoc {es : List Event} {e : Event} {w : World} {i : ℕ}
    (h : run (step crypto) (es ++ [e]) .initial = some w) (hs : ¬ Superseded crypto es i)
    (hf : ∀ tx creation point, w.txs[i]? = some tx → tx.job = .createSession creation point →
      InForce w.tables creation point) : ¬ Superseded crypto (es ++ [e]) i := by
  rintro ⟨creation, es₁, w₁, tx, point, hpre, hrun, htx, hjob, hn⟩
  rcases List.prefix_concat_iff.mp hpre with rfl | hpre
  · rw [h] at hrun
    obtain rfl := Option.some.inj hrun
    exact hn (hf tx creation point htx hjob)
  · exact hs ⟨creation, es₁, w₁, tx, point, hpre, hrun, htx, hjob, hn⟩

theorem superseded_snoc_of_none {es : List Event} {e : Event} {w : World} {i : ℕ}
    (h : run (step crypto) (es ++ [e]) .initial = some w) (hs : ¬ Superseded crypto es i)
    (hi : w.txs.length ≤ i) : ¬ Superseded crypto (es ++ [e]) i := by
  refine not_superseded_snoc h hs ?_
  intro tx creation point htx
  rw [List.getElem?_eq_none hi] at htx
  cases htx

theorem run_step_snoc {es : List Event} {e : Event} {w w' : World}
    (h : run (step crypto) es .initial = some w) (hs : step crypto w e = some w') :
    run (step crypto) (es ++ [e]) .initial = some w' := by
  rw [run_append, h]
  show (step crypto w e).bind _ = _
  rw [hs]
  rfl

/-- A transaction of a pool in which one was replaced. -/
theorem getElem?_set_cases {txs : List Tx} {i j : ℕ} {new tx : Tx}
    (h : (txs.set i new)[j]? = some tx) :
    (j = i ∧ tx = new) ∨ (j ≠ i ∧ txs[j]? = some tx) := by
  by_cases hij : j = i
  · subst hij
    refine Or.inl ⟨rfl, ?_⟩
    rw [List.getElem?_set_self'] at h
    cases hj : txs[j]? with
    | none =>
      rw [hj] at h
      cases h
    | some old =>
      rw [hj] at h
      exact (Option.some.inj h).symm
  · rw [List.getElem?_set_ne (Ne.symm hij)] at h
    exact Or.inr ⟨hij, h⟩

theorem getElem?_begin_cases {w : World} {job : Job} {j : ℕ} {tx : Tx}
    (h : (w.begin job).txs[j]? = some tx) :
    w.txs[j]? = some tx ∨ (j = w.txs.length ∧ tx = Tx.start job) := by
  simp only [World.begin] at h
  by_cases hj : j < w.txs.length
  · rw [List.getElem?_append_left hj] at h
    exact Or.inl h
  · rw [List.getElem?_append_right (by omega)] at h
    cases hd : j - w.txs.length with
    | zero =>
      rw [hd] at h
      exact Or.inr ⟨by omega, (Option.some.inj h).symm⟩
    | succ n =>
      rw [hd] at h
      cases h

/-! ### Beginning and rolling back -/

theorem issues_start {job : Job} (h : Fresh job) (a : String) : issues a (Tx.start job) = false := by
  cases job with
  | createSession creation point =>
    obtain rfl : point = .loadActor := h
    rfl
  | provision now done todo => rfl
  | deleteToken tokenHash finished => rfl

theorem sweeps_start {job : Job} (h : Fresh job) (a : String) : sweeps a (Tx.start job) = false := by
  cases job with
  | createSession creation point => rfl
  | provision now done todo =>
    obtain rfl : done = [] := h
    rfl
  | deleteToken tokenHash finished => rfl

theorem inForce_loadActor (t : Tables) (creation : Creation) : InForce t creation .loadActor :=
  ⟨fun h => absurd rfl h, fun h => by cases h⟩

theorem inv_begin {es : List Event} {e : Event} {w : World} {job : Job} (h : Inv crypto es w)
    (hjob : Fresh job) (hs : step crypto w e = some (w.begin job)) :
    Inv crypto (es ++ [e]) (w.begin job) := by
  have hrun := run_step_snoc h.reached hs
  have hkeep : ∀ (i : ℕ) (tx : Tx), w.txs[i]? = some tx → ¬ Superseded crypto es i →
      ¬ Superseded crypto (es ++ [e]) i := by
    intro i tx htx hn
    refine not_superseded_snoc hrun hn ?_
    intro tx' creation point htx' hj
    rcases getElem?_begin_cases htx' with hold | ⟨rfl, rfl⟩
    · have hf : InForce w.tables creation point := inForce_of_current h.reached hold hj hn
      exact hf
    · rw [List.getElem?_eq_none le_rfl] at htx
      cases htx
  refine ⟨hrun, ?_, ?_, ?_, ?_, ?_, ?_⟩
  · intro i tx htx hr
    rcases getElem?_begin_cases htx with hold | ⟨-, rfl⟩
    · exact h.sound i tx hold hr
    · exact sound_start hjob
  · intro i j a b hij ha hb hra hrb
    rcases getElem?_begin_cases ha with ha | ⟨hi, rfl⟩
    · rcases getElem?_begin_cases hb with hb | ⟨-, rfl⟩
      · exact h.apart i j a b hij ha hb hra hrb
      · exact (apart_of_empty rfl rfl).symm
    · exact apart_of_empty rfl rfl
  · intro a i j tx other htx ho hi
    rcases getElem?_begin_cases htx with htx | ⟨-, rfl⟩
    · rcases getElem?_begin_cases ho with ho | ⟨-, rfl⟩
      · exact h.exclusive a i j tx other htx ho hi
      · exact sweeps_start hjob a
    · rw [issues_start hjob] at hi
      cases hi
  · intro i tx htx hr
    rcases getElem?_begin_cases htx with hold | ⟨hi, rfl⟩
    · exact hkeep i tx hold (h.current i tx hold hr)
    · refine not_superseded_snoc hrun (h.later i (by omega)) ?_
      intro tx' creation point htx' hj
      rcases getElem?_begin_cases htx' with hold | ⟨-, rfl⟩
      · rw [List.getElem?_eq_none (by omega)] at hold
        cases hold
      · obtain rfl : job = .createSession creation point := hj
        obtain rfl : point = .loadActor := hjob
        exact inForce_loadActor _ creation
  · intro row hrow
    obtain ⟨i, tx, creation, htx, hst, hj, he, hn⟩ := h.rows row hrow
    refine ⟨i, tx, creation, ?_, hst, hj, he, hkeep i tx htx hn⟩
    have hi : i < w.txs.length := (List.getElem?_eq_some_iff.mp htx).1
    simp only [World.begin]
    rw [List.getElem?_append_left hi]
    exact htx
  · intro i hi
    refine superseded_snoc_of_none hrun (h.later i ?_) hi
    simp only [World.begin, List.length_append, List.length_singleton] at hi
    omega

/-- A transaction that is no longer running neither issues nor sweeps. -/
theorem issues_of_ne {a : String} {tx : Tx} (h : tx.status ≠ .running) : issues a tx = false := by
  unfold issues
  cases hs : tx.status with
  | running => exact absurd hs h
  | _ => rfl

theorem sweeps_of_ne {a : String} {tx : Tx} (h : tx.status ≠ .running) : sweeps a tx = false := by
  unfold sweeps
  cases hs : tx.status with
  | running => exact absurd hs h
  | _ => rfl

/-! ### Replacing one transaction -/

/-- What a step owes that changes one open transaction, and the tables with it. -/
structure Replaces (crypto : Crypto) (w w' : World) (i : ℕ) (new : Tx) : Prop where
  txs : w'.txs = w.txs.set i new
  others : ∀ (j : ℕ) (other : Tx), j ≠ i → w.txs[j]? = some other → other.status = .running →
    Sound crypto w'.tables other ∧ ∀ creation point, other.job = .createSession creation point →
      InForce w.tables creation point → InForce w'.tables creation point
  sound : new.status = .running → Sound crypto w'.tables new
  inForce : new.status = .running → ∀ creation point, new.job = .createSession creation point →
    InForce w'.tables creation point
  apart : new.status = .running → ∀ (j : ℕ) (other : Tx), j ≠ i → w.txs[j]? = some other →
    other.status = .running → Apart new.writes other.writes
  issues : ∀ a, issues a new = true → sweeps a new = false ∧
    ∀ other ∈ w.txs, sweeps a other = false
  sweeps : ∀ a, sweeps a new = true → ∀ other ∈ w.txs, Freshness.issues a other = false
  rows : ∀ row ∈ w'.tables.sessions,
    (row ∈ w.tables.sessions ∧ ∀ creation, row = creation.row crypto →
      InForce w.tables creation .commit → InForce w'.tables creation .commit) ∨
    ∃ creation, new.status = .committed ∧ new.job = .createSession creation .commit ∧
      row = creation.row crypto ∧ InForce w'.tables creation .commit

theorem inv_replace {es : List Event} {e : Event} {w w' : World} {i : ℕ} {tx new : Tx}
    (h : Inv crypto es w) (htx : w.txs[i]? = some tx) (hr : tx.status = .running)
    (hs : step crypto w e = some w') (hw : Replaces crypto w w' i new) :
    Inv crypto (es ++ [e]) w' := by
  have hrun := run_step_snoc h.reached hs
  have hget : ∀ {j : ℕ} {other : Tx}, w'.txs[j]? = some other →
      (j = i ∧ other = new) ∨ (j ≠ i ∧ w.txs[j]? = some other) := by
    intro j other ho
    rw [hw.txs] at ho
    exact getElem?_set_cases ho
  have hlen : i < w.txs.length := (List.getElem?_eq_some_iff.mp htx).1
  have hnew : w'.txs[i]? = some new := by
    rw [hw.txs, List.getElem?_set_self hlen]
  refine ⟨hrun, ?_, ?_, ?_, ?_, ?_, ?_⟩
  · intro j other ho hro
    rcases hget ho with ⟨-, rfl⟩ | ⟨hj, ho⟩
    · exact hw.sound hro
    · exact (hw.others j other hj ho hro).1
  · intro j k a b hjk ha hb hra hrb
    rcases hget ha with ⟨rfl, rfl⟩ | ⟨hj, ha⟩
    · rcases hget hb with ⟨rfl, -⟩ | ⟨hk, hb⟩
      · exact absurd rfl hjk
      · exact hw.apart hra k b hk hb hrb
    · rcases hget hb with ⟨rfl, rfl⟩ | ⟨hk, hb⟩
      · exact (hw.apart hrb j a hj ha hra).symm
      · exact h.apart j k a b hjk ha hb hra hrb
  · intro a j k x y hx hy hi
    rcases hget hx with ⟨-, rfl⟩ | ⟨-, hx⟩
    · rcases hget hy with ⟨-, rfl⟩ | ⟨-, hy⟩
      · exact (hw.issues a hi).1
      · exact (hw.issues a hi).2 y (List.mem_of_getElem? hy)
    · rcases hget hy with ⟨-, rfl⟩ | ⟨-, hy⟩
      · by_contra hsw
        have := hw.sweeps a (by simpa using hsw) x (List.mem_of_getElem? hx)
        rw [hi] at this
        cases this
      · exact h.exclusive a j k x y hx hy hi
  · intro j other ho hro
    rcases hget ho with ⟨rfl, rfl⟩ | ⟨hj, ho⟩
    · refine not_superseded_snoc hrun (h.current j tx htx hr) ?_
      intro tx' creation point htx' hjob
      rw [hnew] at htx'
      obtain rfl := Option.some.inj htx'
      exact hw.inForce hro creation point hjob
    · have hn := h.current j other ho hro
      refine not_superseded_snoc hrun hn ?_
      intro tx' creation point htx' hjob
      rcases hget htx' with ⟨hji, -⟩ | ⟨-, htx'⟩
      · exact absurd hji hj
      · rw [ho] at htx'
        obtain rfl := Option.some.inj htx'
        exact (hw.others j _ hj ho hro).2 creation point hjob
          (inForce_of_current h.reached ho hjob hn)
  · intro row hrow
    rcases hw.rows row hrow with ⟨hold, hkeep⟩ | ⟨creation, hst, hjob, he, hf⟩
    · obtain ⟨j, other, creation, ho, hst, hjob, he, hn⟩ := h.rows row hold
      have hj : j ≠ i := by
        rintro rfl
        rw [htx] at ho
        obtain rfl := Option.some.inj ho
        rw [hr] at hst
        cases hst
      have ho' : w'.txs[j]? = some other := by
        rw [hw.txs, List.getElem?_set_ne (Ne.symm hj)]
        exact ho
      refine ⟨j, other, creation, ho', hst, hjob, he, not_superseded_snoc hrun hn ?_⟩
      intro tx' creation' point' htx' hjob'
      rw [ho'] at htx'
      obtain rfl := Option.some.inj htx'
      rw [hjob] at hjob'
      cases hjob'
      exact hkeep creation he (inForce_of_current h.reached ho hjob hn)
    · refine ⟨i, new, creation, hnew, hst, hjob, he,
        not_superseded_snoc hrun (h.current i tx htx hr) ?_⟩
      intro tx' creation' point' htx' hjob'
      rw [hnew] at htx'
      obtain rfl := Option.some.inj htx'
      rw [hjob] at hjob'
      cases hjob'
      exact hf
  · intro j hj
    rw [hw.txs, List.length_set] at hj
    refine superseded_snoc_of_none hrun (h.later j hj) ?_
    rw [hw.txs, List.length_set]
    exact hj

theorem inv_rollback {es : List Event} {e : Event} {w : World} {i : ℕ} {tx : Tx}
    (h : Inv crypto es w) (htx : w.txs[i]? = some tx) (hr : tx.status = .running)
    (hs : step crypto w e = some (w.rollback i tx)) : Inv crypto (es ++ [e]) (w.rollback i tx) := by
  have hne : ({ tx with status := .rolledBack } : Tx).status ≠ .running := by simp
  refine inv_replace h htx hr hs ⟨rfl, ?_, ?_, ?_, ?_, ?_, ?_, ?_⟩
  · intro j other _ ho hro
    exact ⟨h.sound j other ho hro, fun _ _ _ hf => hf⟩
  · intro hrun
    exact absurd hrun hne
  · intro hrun
    exact absurd hrun hne
  · intro hrun
    exact absurd hrun hne
  · intro a hi
    rw [issues_of_ne hne] at hi
    cases hi
  · intro a hsw
    rw [sweeps_of_ne hne] at hsw
    cases hsw
  · intro row hrow
    exact Or.inl ⟨hrow, fun _ _ hf => hf⟩

/-! ### A statement -/

theorem undisturbed_load {w : World} {i : ℕ} {tx : Tx} {creation : Creation}
    (h : undisturbed w (.exec i) = true) (htx : w.txs[i]? = some tx)
    (hjob : tx.job = .createSession creation .loadActor) :
    ∀ other ∈ w.txs, sweeps creation.actorID other = false := by
  simp only [undisturbed, htx, hjob, List.all_eq_true, Bool.not_eq_true'] at h
  exact h

theorem undisturbed_delete {w : World} {i : ℕ} {tx : Tx} {now a : String} {done todo : List Task}
    (h : undisturbed w (.exec i) = true) (htx : w.txs[i]? = some tx)
    (hjob : tx.job = .provision now done (.deleteSessions a :: todo)) :
    ∀ other ∈ w.txs, issues a other = false := by
  simp only [undisturbed, htx, hjob, List.all_eq_true, Bool.not_eq_true'] at h
  exact h

theorem undisturbed_asRead {w : World} {i : ℕ} {tx : Tx} {now : String} {task : Task}
    {done todo : List Task} (h : undisturbed w (.exec i) = true) (htx : w.txs[i]? = some tx)
    (hjob : tx.job = .provision now done (task :: todo)) :
    AsRead (w.tables.under tx.writes) task := by
  cases task with
  | upsertPrincipal principal existingType => simpa [undisturbed, AsRead, htx, hjob] using h
  | upsertPassword credential existingHash => simpa [undisturbed, AsRead, htx, hjob] using h
  | _ => trivial

theorem issues_createSession {a : String} {tx : Tx} {creation : Creation} {point : CreationPoint}
    (hr : tx.status = .running) (hjob : tx.job = .createSession creation point) :
    issues a tx = (point != .loadActor && creation.actorID == a) := by
  simp only [issues, hr, hjob]

theorem sweeps_provision {a now : String} {tx : Tx} {done todo : List Task}
    (hr : tx.status = .running) (hjob : tx.job = .provision now done todo) :
    sweeps a tx = decide (.deleteSessions a ∈ done) := by
  simp only [sweeps, hr, hjob]

theorem mem_others {w : World} {i j : ℕ} {other : Tx} (hj : j ≠ i) (ho : w.txs[j]? = some other)
    (hr : other.status = .running) : other ∈ w.others i := by
  refine List.mem_filter.mpr ⟨?_, by simpa using hr⟩
  exact List.mem_eraseIdx_iff_getElem?.mpr ⟨j, hj, ho⟩

theorem inv_exec {es : List Event} {w : World} {i : ℕ} {tx : Tx} {job : Job} {writes : Writes}
    (h : Inv crypto es w) (hu : undisturbed w (.exec i) = true) (htx : w.txs[i]? = some tx)
    (hr : tx.status = .running)
    (hwaits : ∀ other ∈ w.others i,
      tx.job.waits crypto (w.tables.under tx.writes) other.writes = false)
    (hexec : tx.job.exec crypto (w.tables.under tx.writes) tx.writes = some (.ok (job, writes)))
    (hs : step crypto w (.exec i) = some (w.set i ⟨job, writes, .running⟩)) :
    Inv crypto (es ++ [.exec i]) (w.set i ⟨job, writes, .running⟩) := by
  have hsound := h.sound i tx htx hr
  have hothers : ∀ (j : ℕ) (other : Tx), j ≠ i → w.txs[j]? = some other →
      other.status = .running → Sound crypto w.tables other ∧ ∀ creation point,
        other.job = .createSession creation point → InForce w.tables creation point →
          InForce w.tables creation point :=
    fun j other _ ho hro => ⟨h.sound j other ho hro, fun _ _ _ hf => hf⟩
  have hrows : ∀ row ∈ w.tables.sessions, row ∈ w.tables.sessions ∧ ∀ creation : Creation,
      row = creation.row crypto → InForce w.tables creation .commit →
        InForce w.tables creation .commit :=
    fun row hrow => ⟨hrow, fun _ _ hf => hf⟩
  rcases job_exec_cases hexec with ⟨creation, point, point', hjob, hpoint, he, rfl⟩ |
    ⟨now, done, task, todo, more, hjob, he, rfl⟩ | ⟨tokenHash, hjob, rfl, rfl⟩
  · have hsound : tx.writes.principals = [] ∧ tx.writes.passwords = [] ∧
        (tx.writes.inserted = [] ∨ point = .commit ∧ tx.writes.inserted = [creation.row crypto]) := by
      simpa only [Sound, hjob] using hsound
    obtain ⟨hp, hw, hi⟩ := hsound
    have hi : tx.writes.inserted = [] := hi.resolve_right fun hc => hpoint hc.1
    obtain ⟨hpoint', hp', hw', hi'⟩ := creation_exec he hpoint
    have hf := inForce_of_current h.reached htx hjob (h.current i tx htx hr)
    refine inv_replace h htx hr hs ⟨rfl, hothers, ?_, ?_, ?_, ?_, ?_, fun row hrow =>
      Or.inl (hrows row hrow)⟩
    · intro _
      exact ⟨hp'.trans hp, hw'.trans hw, hi' hi⟩
    · intro _ creation' point'' hj
      cases hj
      exact inForce_exec he hpoint ⟨hp, hw⟩ hf
    · intro _ j other _ _ _
      exact apart_of_empty (hp'.trans hp) (hw'.trans hw)
    · intro a hissue
      refine ⟨rfl, ?_⟩
      have ha : creation.actorID = a := by
        rw [issues_createSession rfl rfl] at hissue
        simp only [Bool.and_eq_true, beq_iff_eq] at hissue
        exact hissue.2
      subst ha
      intro other ho
      obtain ⟨j, hj⟩ := List.mem_iff_getElem?.mp ho
      by_cases hload : point = .loadActor
      · subst hload
        exact undisturbed_load hu htx hjob other ho
      · refine h.exclusive creation.actorID i j tx other htx hj ?_
        rw [issues_createSession hr hjob]
        simp [hload]
    · intro a hsw
      cases hsw
  · have hsound : Provisioned w.tables done (task :: todo) tx.writes := by
      simpa only [Sound, hjob] using hsound
    have hnew : Provisioned w.tables (task :: done) (more ++ todo) writes :=
      provisioned_exec hsound (undisturbed_asRead hu htx hjob) he
    refine inv_replace h htx hr hs ⟨rfl, hothers, ?_, ?_, ?_, ?_, ?_, fun row hrow =>
      Or.inl (hrows row hrow)⟩
    · intro _
      exact hnew
    · intro _ creation point hj
      cases hj
    · intro _ j other hj ho hro
      have hwait := hwaits other (mem_others hj ho hro)
      rw [hjob] at hwait
      exact apart_exec (h.apart i j tx other (Ne.symm hj) htx ho hr hro) hwait he
    · intro a hissue
      cases hissue
    · intro a hsw other ho
      rw [sweeps_provision rfl rfl] at hsw
      rcases List.mem_cons.mp (of_decide_eq_true hsw) with rfl | hdone
      · exact undisturbed_delete hu htx hjob other ho
      · obtain ⟨j, hj⟩ := List.mem_iff_getElem?.mp ho
        by_contra hissue
        have := h.exclusive a j i other tx hj htx (by simpa using hissue)
        rw [sweeps_provision hr hjob] at this
        exact of_decide_eq_false this hdone
  · have hsound : tx.writes.principals = [] ∧ tx.writes.passwords = [] ∧
        tx.writes.inserted = [] := by
      simpa only [Sound, hjob] using hsound
    refine inv_replace h htx hr hs ⟨rfl, hothers, ?_, ?_, ?_, ?_, ?_, fun row hrow =>
      Or.inl (hrows row hrow)⟩
    · intro _
      refine ⟨hsound.1, hsound.2.1, ?_⟩
      simp [Writes.deleteSessions, hsound.2.2]
    · intro _ creation point hj
      cases hj
    · intro _ j other _ _ _
      exact apart_of_empty hsound.1 hsound.2.1
    · intro a hissue
      cases hissue
    · intro a hsw
      cases hsw

/-! ### A commit -/

theorem inForce_congr {t t' : Tables} {creation : Creation} {point : CreationPoint}
    (hp : t'.principal creation.actorID = t.principal creation.actorID)
    (hw : t'.password creation.actorID = t.password creation.actorID)
    (h : InForce t creation point) : InForce t' creation point := by
  refine ⟨?_, ?_⟩
  · rw [hp]
    exact h.principal
  · rw [hw]
    exact h.password

/-- The commit of a provision that deletes no session of the actor. -/
theorem inForce_under {t : Tables} {writes : Writes} {done : List Task} {creation : Creation}
    {point : CreationPoint} (hp : Provisioned t done [] writes)
    (hd : .deleteSessions creation.actorID ∉ done) (h : InForce t creation point) :
    InForce (t.under writes) creation point := by
  have hd : Task.deleteSessions creation.actorID ∉ done ++ [] := by simpa using hd
  refine ⟨?_, ?_⟩
  · intro hpoint
    obtain ⟨row, hrow, hactive, htype⟩ := h.principal hpoint
    cases hl : lookup PrincipalRow.actorID creation.actorID writes.principals with
    | none => exact ⟨row, by simp [hl, hrow], hactive, htype⟩
    | some own =>
      obtain ⟨hown, hkeep⟩ := (hp.principal _ row own hl hrow hactive).resolve_right hd
      exact ⟨own, by simp [hl], hown, by rw [hkeep, htype]⟩
  · intro hpoint hmethod
    obtain ⟨row, hrow, hversion⟩ := h.password hpoint hmethod
    cases hl : lookup PasswordRow.actorID creation.actorID writes.passwords with
    | none => exact ⟨row, by simp [hl, hrow], hversion⟩
    | some own =>
      have hkeep := (hp.password _ row own hl hrow).resolve_right hd
      exact ⟨own, by simp [hl], by rw [hkeep, hversion]⟩

/-- Other tables for an open transaction, with the rows it has written as they were. -/
theorem sound_congr {t t' : Tables} {tx : Tx} (h : Sound crypto t tx)
    (hp : ∀ a ∈ tx.writes.principals.map PrincipalRow.actorID, t'.principal a = t.principal a)
    (hw : ∀ a ∈ tx.writes.passwords.map PasswordRow.actorID, t'.password a = t.password a)
    (hs : ∀ now done todo a, tx.job = .provision now done todo → .deleteSessions a ∈ done →
      ∀ row ∈ t'.sessions, row.actorID = a → row ∈ t.sessions) : Sound crypto t' tx := by
  cases hjob : tx.job with
  | createSession creation point => simpa only [Sound, hjob] using h
  | deleteToken tokenHash finished => simpa only [Sound, hjob] using h
  | provision now done todo =>
    have h : Provisioned t done todo tx.writes := by simpa only [Sound, hjob] using h
    have hnew : Provisioned t' done todo tx.writes := by
      refine ⟨h.inserted, ?_, ?_, ?_⟩
      · intro a ha row hrow hact
        exact h.swept a ha row (hs now done todo a hjob ha row hrow hact) hact
      · intro a row own hown hrow hact
        obtain ⟨hmem, hkey⟩ := lookup_some hown
        rw [hp a (List.mem_map.mpr ⟨own, hmem, hkey⟩)] at hrow
        exact h.principal a row own hown hrow hact
      · intro a row own hown hrow
        obtain ⟨hmem, hkey⟩ := lookup_some hown
        rw [hw a (List.mem_map.mpr ⟨own, hmem, hkey⟩)] at hrow
        exact h.password a row own hown hrow
    simpa only [Sound, hjob] using hnew

theorem principal_under_of_notMem {t : Tables} {writes : Writes} {a : String}
    (h : a ∉ writes.principals.map PrincipalRow.actorID) :
    (t.under writes).principal a = t.principal a := by
  rw [principal_under, lookup_eq_none.mpr h, Option.none_or]

theorem password_under_of_notMem {t : Tables} {writes : Writes} {a : String}
    (h : a ∉ writes.passwords.map PasswordRow.actorID) :
    (t.under writes).password a = t.password a := by
  rw [password_under, lookup_eq_none.mpr h, Option.none_or]

/-- What the commit of a transaction owes to the sessions and to the open transactions. -/
theorem replaces_commit {es : List Event} {w : World} {i : ℕ} {tx : Tx} (h : Inv crypto es w)
    (htx : w.txs[i]? = some tx) (hr : tx.status = .running)
    (hsessions : ∀ (j : ℕ) (other : Tx), j ≠ i → w.txs[j]? = some other → ∀ a,
      sweeps a other = true → ∀ row ∈ (w.tables.under tx.writes).sessions, row.actorID = a →
        row ∈ w.tables.sessions)
    (hforce : ∀ (j : ℕ) (other : Tx) (creation : Creation) (point : CreationPoint), j ≠ i →
      w.txs[j]? = some other → other.status = .running →
      other.job = .createSession creation point → InForce w.tables creation point →
        InForce (w.tables.under tx.writes) creation point)
    (hrows : ∀ row ∈ (w.tables.under tx.writes).sessions,
      (row ∈ w.tables.sessions ∧ ∀ creation, row = creation.row crypto →
        InForce w.tables creation .commit → InForce (w.tables.under tx.writes) creation .commit) ∨
      ∃ creation, tx.job = .createSession creation .commit ∧ row = creation.row crypto ∧
        InForce (w.tables.under tx.writes) creation .commit) :
    Replaces crypto w (w.commit i tx) i { tx with status := .committed } := by
  have hne : ({ tx with status := .committed } : Tx).status ≠ .running := by simp
  refine ⟨rfl, ?_, ?_, ?_, ?_, ?_, ?_, ?_⟩
  · intro j other hj ho hro
    have hapart := h.apart j i other tx hj ho htx hro hr
    refine ⟨?_, fun creation point hjob => hforce j other creation point hj ho hro hjob⟩
    refine sound_congr (h.sound j other ho hro) ?_ ?_ ?_
    · intro a ha
      exact principal_under_of_notMem (hapart.1 a ha)
    · intro a ha
      exact password_under_of_notMem (hapart.2 a ha)
    · intro now done todo a hjob hdone row hrow hact
      refine hsessions j other hj ho a ?_ row hrow hact
      rw [sweeps_provision hro hjob]
      exact decide_eq_true hdone
  · intro hrun
    exact absurd hrun hne
  · intro hrun
    exact absurd hrun hne
  · intro hrun
    exact absurd hrun hne
  · intro a hi
    rw [issues_of_ne hne] at hi
    cases hi
  · intro a hsw
    rw [sweeps_of_ne hne] at hsw
    cases hsw
  · intro row hrow
    rcases hrows row hrow with hold | ⟨creation, hjob, he, hf⟩
    · exact Or.inl hold
    · exact Or.inr ⟨creation, rfl, hjob, he, hf⟩

theorem mem_sessions_under {t : Tables} {writes : Writes} {row : SessionRow}
    (h : row ∈ (t.under writes).sessions) :
    (row ∈ t.sessions ∧ row.sessionID ∉ writes.deleted) ∨ row ∈ writes.inserted := by
  rcases List.mem_append.mp h with h | h
  · obtain ⟨hrow, hd⟩ := List.mem_filter.mp h
    exact Or.inl ⟨hrow, by simpa using hd⟩
  · exact Or.inr h

/-- Without a write to a principal or a password what was in force stays so. -/
theorem inForce_unwritten {w : World} {tx : Tx} (hp : tx.writes.principals = [])
    (hw : tx.writes.passwords = []) {creation : Creation} {point : CreationPoint} :
    InForce w.tables creation point → InForce (w.tables.under tx.writes) creation point :=
  inForce_congr (principal_under_of_notMem (by simp [hp])) (password_under_of_notMem (by simp [hw]))

theorem inv_commit {es : List Event} {e : Event} {w : World} {i : ℕ} {tx : Tx}
    (h : Inv crypto es w) (htx : w.txs[i]? = some tx) (hr : tx.status = .running)
    (hdone : tx.job.exec crypto w.tables tx.writes = none)
    (hs : step crypto w e = some (w.commit i tx)) : Inv crypto (es ++ [e]) (w.commit i tx) := by
  have hsound := h.sound i tx htx hr
  rcases job_exec_none hdone with ⟨creation, hjob⟩ | ⟨now, done, hjob⟩ | ⟨tokenHash, hjob⟩
  · obtain ⟨hp, hw, hi⟩ : tx.writes.principals = [] ∧ tx.writes.passwords = [] ∧
        (tx.writes.inserted = [] ∨
          CreationPoint.commit = .commit ∧ tx.writes.inserted = [creation.row crypto]) := by
      simpa only [Sound, hjob] using hsound
    have hsame := fun creation point => @inForce_unwritten w tx hp hw creation point
    have hown : ∀ row ∈ tx.writes.inserted, row = creation.row crypto := by
      intro row hrow
      rcases hi with hi | ⟨-, hi⟩
      · rw [hi] at hrow
        cases hrow
      · rw [hi] at hrow
        exact List.mem_singleton.mp hrow
    refine inv_replace h htx hr hs (replaces_commit h htx hr ?_ ?_ ?_)
    · intro j other hj ho a hsw row hrow hact
      rcases mem_sessions_under hrow with ⟨hold, -⟩ | hnew
      · exact hold
      · have hissue : issues a tx = true := by
          rw [issues_createSession hr hjob, ← hact, hown row hnew]
          simp [Creation.row]
        have := h.exclusive a i j tx other htx ho hissue
        rw [hsw] at this
        cases this
    · intro j other creation point _ _ _ _
      exact hsame creation point
    · intro row hrow
      rcases mem_sessions_under hrow with ⟨hold, -⟩ | hnew
      · exact Or.inl ⟨hold, fun creation _ => hsame creation .commit⟩
      · refine Or.inr ⟨creation, hjob, hown row hnew, hsame creation .commit ?_⟩
        exact inForce_of_current h.reached htx hjob (h.current i tx htx hr)
  · have hsound : Provisioned w.tables done [] tx.writes := by
      simpa only [Sound, hjob] using hsound
    have hold : ∀ row ∈ (w.tables.under tx.writes).sessions,
        row ∈ w.tables.sessions ∧ row.sessionID ∉ tx.writes.deleted := by
      intro row hrow
      rcases mem_sessions_under hrow with hold | hnew
      · exact hold
      · rw [hsound.inserted] at hnew
        cases hnew
    refine inv_replace h htx hr hs (replaces_commit h htx hr ?_ ?_ ?_)
    · intro j other _ _ a _ row hrow _
      exact (hold row hrow).1
    · intro j other creation point hj ho hro hother hf
      by_cases hload : point = .loadActor
      · subst hload
        exact inForce_loadActor _ creation
      · refine inForce_under hsound ?_ hf
        have hissue : issues creation.actorID other = true := by
          rw [issues_createSession hro hother]
          simp [hload]
        have := h.exclusive creation.actorID j i other tx ho htx hissue
        rw [sweeps_provision hr hjob] at this
        exact of_decide_eq_false this
    · intro row hrow
      obtain ⟨hrow, hkept⟩ := hold row hrow
      refine Or.inl ⟨hrow, ?_⟩
      intro creation he
      refine inForce_under hsound ?_
      intro hdel
      exact hkept (hsound.swept _ hdel row hrow (by rw [he]; rfl))
  · obtain ⟨hp, hw, hi⟩ : tx.writes.principals = [] ∧ tx.writes.passwords = [] ∧
        tx.writes.inserted = [] := by
      simpa only [Sound, hjob] using hsound
    have hsame := fun creation point => @inForce_unwritten w tx hp hw creation point
    have hold : ∀ row ∈ (w.tables.under tx.writes).sessions, row ∈ w.tables.sessions := by
      intro row hrow
      rcases mem_sessions_under hrow with ⟨hold, -⟩ | hnew
      · exact hold
      · rw [hi] at hnew
        cases hnew
    refine inv_replace h htx hr hs (replaces_commit h htx hr ?_ ?_ ?_)
    · intro j other _ _ a _ row hrow _
      exact hold row hrow
    · intro j other creation point _ _ _ _
      exact hsame creation point
    · intro row hrow
      exact Or.inl ⟨hold row hrow, fun creation _ => hsame creation .commit⟩

/-! ### Runs -/

theorem inv_initial : Inv crypto [] .initial := by
  have hsuper : ∀ i, ¬ Superseded crypto [] i := by
    rintro i ⟨creation, es₁, w₁, tx, point, hpre, hrun, htx, -, -⟩
    obtain rfl := List.prefix_nil.mp hpre
    obtain rfl := Option.some.inj hrun
    cases htx
  refine ⟨rfl, ?_, ?_, ?_, ?_, ?_, fun i _ => hsuper i⟩
  · intro i tx htx
    cases htx
  · intro i j a b _ ha
    cases ha
  · intro a i j tx other htx
    cases htx
  · intro i tx htx
    cases htx
  · intro row hrow
    cases hrow

/-- One step that meets the condition keeps the invariant. -/
theorem inv_step {es : List Event} {e : Event} {w w' : World} (h : Inv crypto es w)
    (hs : undisturbedStep crypto w e = some w') : Inv crypto (es ++ [e]) w' := by
  obtain ⟨hu, hs⟩ := step_of_undisturbed hs
  rcases step_cases hs with ⟨job, hjob, rfl⟩ | ⟨i, tx, htx, hr, rfl⟩ |
    ⟨i, tx, job, writes, rfl, htx, hr, hw, hexec, rfl⟩ | ⟨i, tx, htx, hr, hdone, rfl⟩
  · exact inv_begin h hjob hs
  · exact inv_rollback h htx hr hs
  · exact inv_exec h hu htx hr hw hexec hs
  · exact inv_commit h htx hr hdone hs

theorem inv_of_run {es : List Event} {w : World}
    (h : run (undisturbedStep crypto) es .initial = some w) : Inv crypto es w :=
  run_induction inv_initial (fun _ _ _ _ hi hs => inv_step hi hs) h

/-- **No superseded session resolves.** In every run whose steps meet the condition, the token of a
creation that was superseded at some time resolves only where another creation, never superseded,
drew a token of the same hash. -/
theorem superseded_session_ends {es : List Event} {w : World} {i : ℕ} {creation : Creation}
    (h : run (undisturbedStep crypto) es .initial = some w)
    (hs : SupersededCreation crypto es i creation) (now : ℤ) :
    (∃ failure, resolveSession crypto w.tables now (.utf8 creation.sessionToken) =
      .error failure) ∨
    ∃ (j : ℕ) (other : Tx) (creation' : Creation), j ≠ i ∧ w.txs[j]? = some other ∧
      other.status = .committed ∧ other.job = .createSession creation' .commit ∧
      crypto.credentialHash (.utf8 creation'.sessionToken) =
        crypto.credentialHash (.utf8 creation.sessionToken) ∧ ¬ Superseded crypto es j := by
  have hinv := inv_of_run h
  cases hresolve : resolveSession crypto w.tables now (.utf8 creation.sessionToken) with
  | error failure => exact Or.inl ⟨failure, rfl⟩
  | ok session =>
    obtain ⟨_, -, hresolve⟩ := bind_eq_ok.mp hresolve
    cases hfind : w.tables.sessions.find? fun row =>
        row.tokenHash = crypto.credentialHash (.utf8 creation.sessionToken) with
    | none =>
      rw [hfind] at hresolve
      cases hresolve
    | some row =>
      obtain ⟨j, other, creation', ho, hst, hjob, he, hn⟩ :=
        hinv.rows row (List.mem_of_find?_eq_some hfind)
      have hhash : row.tokenHash = crypto.credentialHash (.utf8 creation.sessionToken) := by
        simpa using List.find?_some hfind
      refine Or.inr ⟨j, other, creation', ?_, ho, hst, hjob, ?_, hn⟩
      · rintro rfl
        exact hn ⟨creation, hs⟩
      · rw [← hhash, he]
        rfl

/-! ### A password is replaced -/

/-- The two Argon2 texts of the runs below, and the token. -/
def firstHash : String :=
  "$argon2id$v=19$m=19456,t=2,p=1$MDEyMzQ1Njc4OWFiY2RlZg$69I7qCjDTsQwhQqFvpQJiqEI0lGQvxC84fXE0Ktxca4"

def secondHash : String :=
  "$argon2id$v=19$m=19456,t=2,p=1$ZmVkY2JhOTg3NjU0MzIxMA$2yzGAn5tr/8+bjeybPCIYeZTmEioJOBdNrCb9p0C6Q8"

def sampleToken : String := "4f4f4f4f4f4f4f4f4f4f4f4f4f4f4f4f4f4f4f4f4f4f4f4f4f4f4f4f4f4f4f4f"

def sampleCrypto : Crypto where
  credentialHash token :=
    if token = .utf8 sampleToken then
      "sha256:481568cf8ea0c96cb977077a703463c6af7500e45277cda97d9e90965d03cc10"
    else "sha256:e3b0c44298fc1c149afbf4c8996fb92427ae41e4649b934ca495991b7852b855"
  verifyPassword encoded password :=
    (encoded == firstHash && password == "correct horse battery") ||
      (encoded == secondHash && password == "a newly rotated password")
  parsePasswordHash encoded := encoded == firstHash || encoded == secondHash

/-- One person, with a password. -/
def sampleOptions (password hashed : String) : Options where
  principals := [⟨"ann", "human", "Ann"⟩]
  passwordCredentials := [⟨"ann", "ann@example.test", password, hashed⟩]
  bearerTokens := []
  revokedActorIDs := []
  revokedTokenIDs := []

def firstVersion : String := "2026-08-04T09:00:00.000000000Z"

def secondVersion : String := "2026-08-04T10:00:00.000000000Z"

/-- A login with the first password, and a session for it. -/
def sampleCreation : Creation where
  authentication := ⟨⟨.utf8 "ann", .utf8 "human", .utf8 "Ann"⟩, .password, .utf8 firstVersion⟩
  sessionToken := sampleToken
  csrfToken := sampleToken
  sessionID := "00112233445566778899aabbccddeeff"
  now := 1785837600000000000
  sessionTTL := 43200000000000

/-- The person is provisioned. -/
def provisioned : List Event :=
  .provision (sampleOptions "correct horse battery" firstHash) firstVersion ::
    (List.replicate 5 (.exec 0) ++ [.commit 0])

/-- The password is replaced by transaction `i`. -/
def rotated (i : ℕ) : List Event :=
  .provision (sampleOptions "a newly rotated password" secondHash) secondVersion ::
    (List.replicate 6 (.exec i) ++ [.commit i])

/-- The session is issued first, and deleted with the password. -/
def orderly : List Event :=
  provisioned ++ [.createSession sampleCreation, .exec 1, .exec 1, .exec 1, .exec 1, .commit 1] ++
    rotated 2

/-- The password is replaced between the check of the credential and the insert of the session. -/
def overlapping : List Event :=
  provisioned ++ [.createSession sampleCreation, .exec 1, .exec 1] ++ rotated 2 ++
    [.exec 1, .exec 1, .commit 1]

/-- A creation whose password version is gone. -/
theorem not_inForce_of_version {t : Tables} {creation : Creation} {point : CreationPoint}
    {version : String} (hc : checked point = true)
    (hm : creation.authentication.method = .password)
    (hv : (t.password creation.actorID).map PasswordRow.updatedAt = some version)
    (hn : GoString.utf8 version ≠ creation.authentication.credentialVersion) :
    ¬ InForce t creation point := by
  intro h
  obtain ⟨row, hrow, hversion⟩ := h.password hc hm
  rw [hrow] at hv
  obtain rfl := Option.some.inj hv
  exact hn hversion

/-- Evaluates that the creation is superseded after a part of a run. -/
theorem superseded_of_eval {es es₁ : List Event} {point : CreationPoint} (hpre : es₁ <+: es)
    (hc : checked point = true)
    (h : (run (step sampleCrypto) es₁ .initial).map (fun w =>
      ((w.txs[1]?).map Tx.job, (w.tables.password "ann").map PasswordRow.updatedAt)) =
        some (some (.createSession sampleCreation point), some secondVersion)) :
    SupersededCreation sampleCrypto es 1 sampleCreation := by
  cases hrun : run (step sampleCrypto) es₁ .initial with
  | none =>
    rw [hrun] at h
    cases h
  | some w =>
    rw [hrun] at h
    obtain ⟨hjob, hv⟩ := Prod.mk.inj (Option.some.inj h)
    obtain ⟨tx, htx, hjob⟩ := Option.map_eq_some_iff.mp hjob
    refine ⟨es₁, w, tx, point, hpre, hrun, htx, hjob, not_inForce_of_version hc rfl hv ?_⟩
    decide

theorem superseded_session_ends_orderly : ∃ w,
    run (undisturbedStep sampleCrypto) orderly .initial = some w ∧
    SupersededCreation sampleCrypto orderly 1 sampleCreation ∧
    ((∃ failure, resolveSession sampleCrypto w.tables 0 (.utf8 sampleToken) = .error failure) ∨
    ∃ (j : ℕ) (other : Tx) (creation' : Creation), j ≠ 1 ∧ w.txs[j]? = some other ∧
      other.status = .committed ∧ other.job = .createSession creation' .commit ∧
      sampleCrypto.credentialHash (.utf8 creation'.sessionToken) =
        sampleCrypto.credentialHash (.utf8 sampleToken) ∧
      ¬ Superseded sampleCrypto orderly j) := by
  obtain ⟨w, hw⟩ : ∃ w, run (undisturbedStep sampleCrypto) orderly .initial = some w :=
    Option.isSome_iff_exists.mp (by decide +kernel)
  have hs : SupersededCreation sampleCrypto orderly 1 sampleCreation :=
    @superseded_of_eval orderly orderly .commit List.prefix_rfl rfl (by decide +kernel)
  exact ⟨w, hw, hs, superseded_session_ends hw hs 0⟩

/-- **A session of the replaced password resolves** once every transaction has committed. -/
theorem stale_session_resolves : ∃ w session,
    run (step sampleCrypto) overlapping .initial = some w ∧
    (∀ tx ∈ w.txs, tx.status = .committed) ∧
    SupersededCreation sampleCrypto overlapping 1 sampleCreation ∧
    resolveSession sampleCrypto w.tables 1785841200000000000 (.utf8 sampleToken) = .ok session := by
  have heval : (run (step sampleCrypto) overlapping .initial).map (fun w =>
      (w.txs.all fun tx => tx.status = .committed,
        resolveSession sampleCrypto w.tables 1785841200000000000 (.utf8 sampleToken))) =
      some (true, .ok ⟨.utf8 sampleToken, sampleToken,
        ⟨.utf8 "ann", .utf8 "human", .utf8 "Ann"⟩, 1785880800000000000⟩) := by
    decide +kernel
  obtain ⟨w, hw, heval⟩ := Option.map_eq_some_iff.mp heval
  obtain ⟨hall, hresolve⟩ := Prod.mk.inj heval
  refine ⟨w, _, hw, ?_, ?_, hresolve⟩
  · intro tx htx
    simpa using List.all_eq_true.mp hall tx htx
  · exact @superseded_of_eval overlapping (provisioned ++
      [.createSession sampleCreation, .exec 1, .exec 1] ++ rotated 2) .removeExpired
      (List.prefix_append _ _) rfl (by decide +kernel)

end Modary.Identity.Sessions
