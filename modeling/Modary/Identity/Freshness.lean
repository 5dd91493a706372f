import Modary.Identity.Store

/-! # Sessions and what they were issued from

A session is issued from an active principal of some type and, after a password login, from a
version of its credential. Provisioning deletes the sessions of what it takes away, and only those
its statement sees. Where no session is being issued while a provision that has deleted sessions of
its actor is open, and a provision overwrites the rows it read, no superseded session resolves
(`superseded_session_ends`). -/

namespace Modary.Identity.Freshness

open Modary.Lib.GoText Modary.Lib.Keyed Modary.Lib.Machine Modary.Identity.Store

/-! ### Superseded sessions -/

/-- The credential was read. -/
def checked : CreationPoint → Bool
  | .loadActor | .checkCredential => false
  | _ => true

/-- What a creation has read is still in force: the active principal and its type, and the version
of its password. -/
structure InForce (t : Tables) (creation : Creation) (point : CreationPoint) : Prop where
  principal : point ≠ .loadActor → ∃ row, t.principal creation.actorID = some row ∧
    row.active = true ∧ GoString.utf8 row.actorType = creation.authentication.actor.type
  password : checked point = true → creation.authentication.method = .password →
    ∃ row, t.password creation.actorID = some row ∧
      GoString.utf8 row.updatedAt = creation.authentication.credentialVersion

/-- After some prefix of the run, what the creation had read was no longer in force. -/
def SupersededCreation (crypto : Crypto) (es : List Event) (i : ℕ) (creation : Creation) : Prop :=
  ∃ es₁ w₁ tx point, es₁ <+: es ∧ run (step crypto) es₁ .initial = some w₁ ∧
    w₁.txs[i]? = some tx ∧ tx.job = .createSession creation point ∧
    ¬ InForce w₁.tables creation point

def Superseded (crypto : Crypto) (es : List Event) (i : ℕ) : Prop :=
  ∃ creation, SupersededCreation crypto es i creation

/-! ### The condition -/

/-- A session of the actor is being issued. -/
def issues (actorID : String) (tx : Tx) : Bool :=
  match tx.status, tx.job with
  | .running, .createSession creation point => point != .loadActor && creation.actorID == actorID
  | _, _ => false

/-- An open provision has deleted the sessions of the actor. -/
def sweeps (actorID : String) (tx : Tx) : Bool :=
  match tx.status, tx.job with
  | .running, .provision _ done _ => .deleteSessions actorID ∈ done
  | _, _ => false

/-- The condition on a step, from the state before it. -/
def undisturbed (w : World) : Event → Bool
  | .exec i =>
    match w.txs[i]? with
    | none => true
    | some tx =>
      match tx.job with
      | .createSession creation .loadActor => w.txs.all fun other => !sweeps creation.actorID other
      | .provision _ _ (.deleteSessions actorID :: _) =>
        w.txs.all fun other => !issues actorID other
      | .provision _ _ (.upsertPrincipal principal existingType :: _) =>
        ((w.tables.under tx.writes).principal principal.actorID).map PrincipalRow.actorType
          == existingType
      | .provision _ _ (.upsertPassword credential existingHash :: _) =>
        ((w.tables.under tx.writes).password credential.actorID).map PasswordRow.passwordHash
          == existingHash
      | _ => true
  | _ => true

/-- The steps that meet the condition. -/
def undisturbedStep (crypto : Crypto) (w : World) (e : Event) : Option World :=
  if undisturbed w e then step crypto w e else none

theorem step_of_undisturbed {crypto : Crypto} {w w' : World} {e : Event}
    (h : undisturbedStep crypto w e = some w') : undisturbed w e = true ∧
      step crypto w e = some w' := by
  unfold undisturbedStep at h
  split_ifs at h with hu
  exact ⟨hu, h⟩

/-! ### What a step does -/

/-- A transaction that was just begun. -/
def Fresh : Job → Prop
  | .createSession _ point => point = .loadActor
  | .provision _ done _ => done = []
  | .deleteToken _ finished => finished = false

/-- **The steps of the store.** -/
theorem step_cases {crypto : Crypto} {w w' : World} {e : Event} (h : step crypto w e = some w') :
    (∃ job, Fresh job ∧ w' = w.begin job) ∨
    (∃ (i : ℕ) (tx : Tx), w.txs[i]? = some tx ∧ tx.status = .running ∧ w' = w.rollback i tx) ∨
    (∃ (i : ℕ) (tx : Tx) (job : Job) (writes : Writes), e = .exec i ∧ w.txs[i]? = some tx ∧ tx.status = .running ∧
      (∀ other ∈ w.others i,
        tx.job.waits crypto (w.tables.under tx.writes) other.writes = false) ∧
      tx.job.exec crypto (w.tables.under tx.writes) tx.writes = some (.ok (job, writes)) ∧
      w' = w.set i ⟨job, writes, .running⟩) ∨
    (∃ (i : ℕ) (tx : Tx), w.txs[i]? = some tx ∧ tx.status = .running ∧
      tx.job.exec crypto w.tables tx.writes = none ∧ w' = w.commit i tx) := by
  cases e with
  | createSession creation =>
    simp only [step] at h
    split at h
    · cases h
    · exact Or.inl ⟨.createSession creation .loadActor, rfl, (Option.some.inj h).symm⟩
  | provision options now => exact Or.inl ⟨.provision now [] _, rfl, (Option.some.inj h).symm⟩
  | deleteToken tokenHash => exact Or.inl ⟨.deleteToken _ _, rfl, (Option.some.inj h).symm⟩
  | exec i =>
    simp only [step] at h
    split at h
    · cases h
    next tx htx =>
      split_ifs at h with hb
      have hrun : tx.status = .running := by
        by_contra hn
        exact hb (Or.inl hn)
      split at h
      · cases h
      · exact Or.inr (Or.inl ⟨i, tx, htx, hrun, (Option.some.inj h).symm⟩)
      next job writes hexec =>
        refine Or.inr (Or.inr (Or.inl ⟨i, tx, job, writes, rfl, htx, hrun, ?_, hexec,
          (Option.some.inj h).symm⟩))
        intro other ho
        by_contra hw
        exact hb (Or.inr ⟨other, ho, by simpa using hw⟩)
  | commit i =>
    simp only [step] at h
    split at h
    · cases h
    next tx htx =>
      split_ifs at h with hb
      have hrun : tx.status = .running := by
        by_contra hn
        exact hb (Or.inl hn)
      have hdone : tx.job.exec crypto w.tables tx.writes = none := by
        by_contra hn
        exact hb (Or.inr hn)
      exact Or.inr (Or.inr (Or.inr ⟨i, tx, htx, hrun, hdone, (Option.some.inj h).symm⟩))
  | rollback i =>
    simp only [step] at h
    split at h
    · cases h
    next tx htx =>
      split_ifs at h with hb
      exact Or.inr (Or.inl ⟨i, tx, htx, by simpa using hb, (Option.some.inj h).symm⟩)

/-! ### One transaction -/

@[simp] theorem principal_under (t : Tables) (writes : Writes) (a : String) :
    (t.under writes).principal a =
      (lookup PrincipalRow.actorID a writes.principals).or (t.principal a) :=
  lookup_overlay a writes.principals t.principals

@[simp] theorem password_under (t : Tables) (writes : Writes) (a : String) :
    (t.under writes).password a =
      (lookup PasswordRow.actorID a writes.passwords).or (t.password a) :=
  lookup_overlay a writes.passwords t.passwords

/-- What an open provision owes: it has deleted the sessions of whatever it takes away, or will. -/
structure Provisioned (t : Tables) (done todo : List Task) (writes : Writes) : Prop where
  inserted : writes.inserted = []
  swept : ∀ a, .deleteSessions a ∈ done → ∀ row ∈ t.sessions, row.actorID = a →
    row.sessionID ∈ writes.deleted
  principal : ∀ a row own, lookup PrincipalRow.actorID a writes.principals = some own →
    t.principal a = some row → row.active = true →
    (own.active = true ∧ own.actorType = row.actorType) ∨ .deleteSessions a ∈ done ++ todo
  password : ∀ a row own, lookup PasswordRow.actorID a writes.passwords = some own →
    t.password a = some row →
    own.updatedAt = row.updatedAt ∨ .deleteSessions a ∈ done ++ todo

/-- A statement that was carried out stays on the list, and others may join. -/
theorem mem_advance {task : Task} {a : String} {done todo more : List Task}
    (h : .deleteSessions a ∈ done ++ task :: todo) :
    .deleteSessions a ∈ (task :: done) ++ (more ++ todo) := by
  simp only [List.mem_append, List.mem_cons] at h ⊢
  tauto

theorem Provisioned.advance {t : Tables} {task : Task} {done todo more : List Task}
    {writes : Writes} (h : Provisioned t done (task :: todo) writes)
    (ht : ∀ a, task ≠ .deleteSessions a) : Provisioned t (task :: done) (more ++ todo) writes := by
  refine ⟨h.inserted, ?_, ?_, ?_⟩
  · intro a ha
    rcases List.mem_cons.mp ha with he | ha
    · exact absurd he.symm (ht a)
    · exact h.swept a ha
  · intro a row own hown hrow hact
    exact (h.principal a row own hown hrow hact).imp_right mem_advance
  · intro a row own hown hrow
    exact (h.password a row own hown hrow).imp_right mem_advance

theorem Provisioned.of_bearers {t : Tables} {done todo : List Task} {writes : Writes}
    (h : Provisioned t done todo writes) (bearers : List BearerRow) :
    Provisioned t done todo { writes with bearers } :=
  ⟨h.inserted, h.swept, h.principal, h.password⟩

/-- A write of a principal row that leaves it as it was, or is followed by the delete. -/
theorem Provisioned.put_principal {t : Tables} {done todo : List Task} {writes : Writes}
    (h : Provisioned t done todo writes) {new : PrincipalRow}
    (hnew : ∀ old, (t.under writes).principal new.actorID = some old →
      (new.active = true ∧ new.actorType = old.actorType) ∨
        .deleteSessions new.actorID ∈ done ++ todo) :
    Provisioned t done todo
      { writes with principals := put PrincipalRow.actorID new writes.principals } := by
  refine ⟨h.inserted, h.swept, ?_, h.password⟩
  intro a row own hown hrow hact
  rw [lookup_put] at hown
  split_ifs at hown with ha
  · obtain rfl := Option.some.inj hown
    subst ha
    cases hl : lookup PrincipalRow.actorID new.actorID writes.principals with
    | none =>
      refine hnew row ?_
      rw [principal_under, hl, Option.none_or]
      exact hrow
    | some old =>
      have hview : (t.under writes).principal new.actorID = some old := by
        rw [principal_under, hl, Option.some_or]
      rcases h.principal _ row old hl hrow hact with ⟨-, hold⟩ | hdel
      · rcases hnew old hview with ⟨hactive, htype⟩ | hdel
        · exact Or.inl ⟨hactive, htype.trans hold⟩
        · exact Or.inr hdel
      · exact Or.inr hdel
  · exact h.principal a row own hown hrow hact

theorem Provisioned.put_password {t : Tables} {done todo : List Task} {writes : Writes}
    (h : Provisioned t done todo writes) {new : PasswordRow}
    (hnew : ∀ old, (t.under writes).password new.actorID = some old →
      new.updatedAt = old.updatedAt ∨ .deleteSessions new.actorID ∈ done ++ todo) :
    Provisioned t done todo
      { writes with passwords := put PasswordRow.actorID new writes.passwords } := by
  refine ⟨h.inserted, h.swept, h.principal, ?_⟩
  intro a row own hown hrow
  rw [lookup_put] at hown
  split_ifs at hown with ha
  · obtain rfl := Option.some.inj hown
    subst ha
    cases hl : lookup PasswordRow.actorID new.actorID writes.passwords with
    | none =>
      refine hnew row ?_
      rw [password_under, hl, Option.none_or]
      exact hrow
    | some old =>
      have hview : (t.under writes).password new.actorID = some old := by
        rw [password_under, hl, Option.some_or]
      rcases h.password _ row old hl hrow with hold | hdel
      · rcases hnew old hview with htime | hdel
        · exact Or.inl (htime.trans hold)
        · exact Or.inr hdel
      · exact Or.inr hdel
  · exact h.password a row own hown hrow

/-- The delete of the sessions of an actor takes all that are committed. -/
theorem Provisioned.delete {t : Tables} {actorID : String} {done todo : List Task}
    {writes : Writes} (h : Provisioned t done (.deleteSessions actorID :: todo) writes) :
    Provisioned t (.deleteSessions actorID :: done) todo
      (writes.deleteSessions (t.under writes) fun row => row.actorID = actorID) := by
  refine ⟨?_, ?_, ?_, ?_⟩
  · simp [Writes.deleteSessions, h.inserted]
  · intro a ha row hrow hact
    simp only [Writes.deleteSessions, List.mem_append]
    rcases List.mem_cons.mp ha with he | ha
    · by_cases hd : row.sessionID ∈ writes.deleted
      · exact Or.inl hd
      · refine Or.inr (List.mem_map.mpr ⟨row, List.mem_filter.mpr ⟨?_, ?_⟩, rfl⟩)
        · exact List.mem_append_left _ (List.mem_filter.mpr ⟨hrow, by simpa using hd⟩)
        · cases he
          simpa using hact
    · exact Or.inl (h.swept a ha row hrow hact)
  · intro a row own hown hrow hact
    exact (h.principal a row own hown hrow hact).imp_right (@mem_advance _ _ _ _ [])
  · intro a row own hown hrow
    exact (h.password a row own hown hrow).imp_right (@mem_advance _ _ _ _ [])

/-- The row an upsert overwrites is the one the provision read. -/
def AsRead (view : Tables) : Task → Prop
  | .upsertPrincipal principal existingType =>
    (view.principal principal.actorID).map PrincipalRow.actorType = existingType
  | .upsertPassword credential existingHash =>
    (view.password credential.actorID).map PasswordRow.passwordHash = existingHash
  | _ => True

/-- The upsert of a password keeps the version, or the sessions go. -/
theorem upsertedPassword_updatedAt {crypto : Crypto} {now : String} {credential : PasswordCredential}
    {existingHash : Option String} {old : PasswordRow} (hread : some old.passwordHash = existingHash)
    (hkeep : (passwordChanged crypto credential existingHash && existingHash.isSome) = false) :
    (upsertedPassword crypto now credential existingHash (some old)).updatedAt = old.updatedAt := by
  subst hread
  have hunchanged : passwordChanged crypto credential (some old.passwordHash) = false := by
    simpa using hkeep
  simp [upsertedPassword, hunchanged]

/-- **A statement of a provision keeps what it owes.** -/
theorem provisioned_exec {crypto : Crypto} {now : String} {t : Tables} {task : Task}
    {done todo more : List Task} {writes writes' : Writes}
    (h : Provisioned t done (task :: todo) writes) (hread : AsRead (t.under writes) task)
    (he : task.exec crypto now (t.under writes) writes = .ok (writes', more)) :
    Provisioned t (task :: done) (more ++ todo) writes' := by
  cases task with
  | selectType principal =>
    obtain ⟨rfl, rfl⟩ := Prod.mk.inj (Except.ok.inj he)
    exact h.advance (by simp)
  | upsertPrincipal principal existingType =>
    obtain ⟨rfl, hmore⟩ := Prod.mk.inj (Except.ok.inj he)
    refine (h.advance (by simp)).put_principal ?_
    intro old hold
    have hread : some old.actorType = existingType := by
      rw [← hread]
      exact congrArg (Option.map PrincipalRow.actorType) hold.symm
    by_cases hsame : old.actorType = principal.actorType
    · exact Or.inl ⟨rfl, hsame.symm⟩
    · refine Or.inr ?_
      rw [← hread] at hmore
      simp only [Option.any_some, bne_iff_ne, ne_eq, hsame, not_false_eq_true, if_true] at hmore
      simp [← hmore]
  | deleteSessions actorID =>
    obtain ⟨rfl, rfl⟩ := Prod.mk.inj (Except.ok.inj he)
    exact h.delete
  | deactivateBearers actorID =>
    obtain ⟨rfl, rfl⟩ := Prod.mk.inj (Except.ok.inj he)
    exact (h.advance (by simp)).of_bearers _
  | selectActive actorID credentialKind =>
    simp only [Task.exec] at he
    split at he
    · cases he
    · split_ifs at he
      obtain ⟨rfl, rfl⟩ := Prod.mk.inj (Except.ok.inj he)
      exact h.advance (by simp)
  | selectHash credential =>
    obtain ⟨_, -, he⟩ := bind_eq_ok.mp he
    obtain ⟨rfl, rfl⟩ := Prod.mk.inj (Except.ok.inj he)
    exact h.advance (by simp)
  | upsertPassword credential existingHash =>
    obtain ⟨_, -, he⟩ := bind_eq_ok.mp he
    obtain ⟨rfl, hmore⟩ := Prod.mk.inj (Except.ok.inj he)
    refine (h.advance (by simp)).put_password ?_
    intro old hold
    have hold : (t.under writes).password credential.actorID = some old := hold
    have hread : some old.passwordHash = existingHash := by
      rw [← hread]
      exact congrArg (Option.map PasswordRow.passwordHash) hold.symm
    by_cases hkeep : (passwordChanged crypto credential existingHash && existingHash.isSome) = true
    · refine Or.inr ?_
      rw [if_pos hkeep] at hmore
      show Task.deleteSessions credential.actorID ∈ _
      simp [← hmore]
    · refine Or.inl ?_
      rw [hold]
      exact upsertedPassword_updatedAt hread (by simpa using hkeep)
  | upsertBearer token =>
    obtain ⟨_, -, he⟩ := bind_eq_ok.mp he
    obtain ⟨rfl, rfl⟩ := Prod.mk.inj (Except.ok.inj he)
    exact (h.advance (by simp)).of_bearers _
  | deactivatePrincipal actorID =>
    obtain ⟨hwrites, rfl⟩ := Prod.mk.inj (Except.ok.inj he)
    cases hl : (t.under writes).principal actorID with
    | none =>
      rw [hl] at hwrites
      obtain rfl := hwrites
      exact h.advance (by simp)
    | some row =>
      rw [hl] at hwrites
      obtain rfl := hwrites
      have hkey : row.actorID = actorID := (lookup_some hl).2
      refine (h.advance (by simp)).put_principal ?_
      intro old _
      refine Or.inr ?_
      show Task.deleteSessions row.actorID ∈ _
      simp [hkey]
  | deactivateToken tokenID =>
    obtain ⟨hwrites, rfl⟩ := Prod.mk.inj (Except.ok.inj he)
    have hp : Provisioned t (.deactivateToken tokenID :: done) ([] ++ todo) writes :=
      h.advance (by simp)
    split at hwrites
    · obtain rfl := hwrites
      exact hp
    · obtain rfl := hwrites
      exact hp.of_bearers _

/-! ### Row locks -/

/-- No row of a principal or a credential is written by both. -/
def Apart (a b : Writes) : Prop :=
  (∀ k ∈ a.principals.map PrincipalRow.actorID, k ∉ b.principals.map PrincipalRow.actorID) ∧
  ∀ k ∈ a.passwords.map PasswordRow.actorID, k ∉ b.passwords.map PasswordRow.actorID

theorem Apart.symm {a b : Writes} (h : Apart a b) : Apart b a :=
  ⟨fun k hk hk' => h.1 k hk' hk, fun k hk hk' => h.2 k hk' hk⟩

theorem apart_of_empty {a b : Writes} (hp : a.principals = []) (hw : a.passwords = []) :
    Apart a b := by
  constructor
  · simp [hp]
  · simp [hw]

/-- A statement that need not wait writes no row of the other. -/
theorem apart_exec {crypto : Crypto} {now : String} {view : Tables} {task : Task}
    {more : List Task} {writes writes' other : Writes} (h : Apart writes other)
    (hw : task.waits view other = false)
    (he : task.exec crypto now view writes = .ok (writes', more)) : Apart writes' other := by
  have hput : ∀ new : PrincipalRow, new.actorID ∉ other.principals.map PrincipalRow.actorID →
      Apart { writes with principals := put PrincipalRow.actorID new writes.principals } other := by
    intro new hnew
    refine ⟨?_, h.2⟩
    intro k hk
    rcases keys_put.mp hk with rfl | hk
    · exact hnew
    · exact h.1 k hk
  cases task with
  | upsertPrincipal principal existingType =>
    obtain ⟨rfl, -⟩ := Prod.mk.inj (Except.ok.inj he)
    exact hput _ (of_decide_eq_false hw)
  | deactivatePrincipal actorID =>
    obtain ⟨hwrites, -⟩ := Prod.mk.inj (Except.ok.inj he)
    split at hwrites
    · obtain rfl := hwrites
      exact h
    next row hl =>
      obtain rfl := hwrites
      refine hput _ ?_
      show row.actorID ∉ _
      rw [(lookup_some hl).2]
      exact of_decide_eq_false hw
  | upsertPassword credential existingHash =>
    obtain ⟨_, -, he⟩ := bind_eq_ok.mp he
    obtain ⟨rfl, -⟩ := Prod.mk.inj (Except.ok.inj he)
    refine ⟨h.1, ?_⟩
    intro k hk
    rcases keys_put.mp hk with rfl | hk
    · intro hmem
      obtain ⟨row, hrow, hkey⟩ := List.mem_map.mp hmem
      have hkey : row.actorID = credential.actorID := hkey
      have := List.any_eq_false.mp hw row hrow
      simp [hkey] at this
    · exact h.2 k hk
  | selectType principal =>
    obtain ⟨rfl, -⟩ := Prod.mk.inj (Except.ok.inj he)
    exact h
  | deleteSessions actorID =>
    obtain ⟨rfl, -⟩ := Prod.mk.inj (Except.ok.inj he)
    exact h
  | deactivateBearers actorID =>
    obtain ⟨rfl, -⟩ := Prod.mk.inj (Except.ok.inj he)
    exact h
  | selectActive actorID credentialKind =>
    simp only [Task.exec] at he
    split at he
    · cases he
    · split_ifs at he
      obtain ⟨rfl, -⟩ := Prod.mk.inj (Except.ok.inj he)
      exact h
  | selectHash credential =>
    obtain ⟨_, -, he⟩ := bind_eq_ok.mp he
    obtain ⟨rfl, -⟩ := Prod.mk.inj (Except.ok.inj he)
    exact h
  | upsertBearer token =>
    obtain ⟨_, -, he⟩ := bind_eq_ok.mp he
    obtain ⟨rfl, -⟩ := Prod.mk.inj (Except.ok.inj he)
    exact h
  | deactivateToken tokenID =>
    obtain ⟨hwrites, -⟩ := Prod.mk.inj (Except.ok.inj he)
    split at hwrites
    · obtain rfl := hwrites
      exact h
    · obtain rfl := hwrites
      exact h

/-! ### Sound transactions -/

/-- What an open transaction has written. -/
def Sound (crypto : Crypto) (t : Tables) (tx : Tx) : Prop :=
  match tx.job with
  | .createSession creation point => tx.writes.principals = [] ∧ tx.writes.passwords = [] ∧
    (tx.writes.inserted = [] ∨ point = .commit ∧ tx.writes.inserted = [creation.row crypto])
  | .provision _ done todo => Provisioned t done todo tx.writes
  | .deleteToken _ _ =>
    tx.writes.principals = [] ∧ tx.writes.passwords = [] ∧ tx.writes.inserted = []

theorem sound_start {crypto : Crypto} {t : Tables} {job : Job} (h : Fresh job) :
    Sound crypto t (Tx.start job) := by
  cases job with
  | createSession creation point => exact ⟨rfl, rfl, Or.inl rfl⟩
  | provision now done todo =>
    obtain rfl : done = [] := h
    refine ⟨rfl, ?_, ?_, ?_⟩
    · intro a ha
      cases ha
    · intro a row own hown
      cases hown
    · intro a row own hown
      cases hown
  | deleteToken tokenHash finished => exact ⟨rfl, rfl, rfl⟩

theorem creation_exec {crypto : Crypto} {creation : Creation} {view : Tables}
    {writes writes' : Writes} {point point' : CreationPoint}
    (h : creation.exec crypto view writes point = .ok (point', writes')) (hp : point ≠ .commit) :
    point' ≠ .loadActor ∧ writes'.principals = writes.principals ∧
      writes'.passwords = writes.passwords ∧ (writes.inserted = [] →
        writes'.inserted = [] ∨ point' = .commit ∧ writes'.inserted = [creation.row crypto]) := by
  cases point with
  | loadActor =>
    obtain ⟨actor, -, h⟩ := bind_eq_ok.mp h
    obtain ⟨_, -, h⟩ := bind_eq_ok.mp h
    obtain ⟨rfl, rfl⟩ := Prod.mk.inj (Except.ok.inj h)
    refine ⟨?_, rfl, rfl, Or.inl⟩
    split_ifs <;> simp
  | checkCredential =>
    simp only [Creation.exec] at h
    split at h
    · split_ifs at h
      obtain ⟨rfl, rfl⟩ := Prod.mk.inj (Except.ok.inj h)
      exact ⟨by simp, rfl, rfl, Or.inl⟩
    · cases h
  | removeExpired =>
    obtain ⟨rfl, rfl⟩ := Prod.mk.inj (Except.ok.inj h)
    refine ⟨by simp, rfl, rfl, ?_⟩
    intro hi
    exact Or.inl (by simp [Writes.deleteSessions, hi])
  | insert =>
    simp only [Creation.exec] at h
    split_ifs at h
    obtain ⟨rfl, rfl⟩ := Prod.mk.inj (Except.ok.inj h)
    refine ⟨by simp, rfl, rfl, ?_⟩
    intro hi
    exact Or.inr ⟨rfl, by simp [hi]⟩
  | commit => exact absurd rfl hp

/-- What a creation reads is in force when it reads it. -/
theorem inForce_exec {crypto : Crypto} {creation : Creation} {t : Tables}
    {writes writes' : Writes} {point point' : CreationPoint}
    (h : creation.exec crypto (t.under writes) writes point = .ok (point', writes'))
    (hp : point ≠ .commit) (hw : writes.principals = [] ∧ writes.passwords = [])
    (hf : InForce t creation point) : InForce t creation point' := by
  have hprincipal : (t.under writes).principal creation.actorID = t.principal creation.actorID := by
    rw [principal_under, hw.1]
    rfl
  have hpassword : (t.under writes).password creation.actorID = t.password creation.actorID := by
    rw [password_under, hw.2]
    rfl
  cases point with
  | loadActor =>
    obtain ⟨actor, hload, h⟩ := bind_eq_ok.mp h
    obtain ⟨_, htype, h⟩ := bind_eq_ok.mp h
    obtain ⟨rfl, rfl⟩ := Prod.mk.inj (Except.ok.inj h)
    have htype := refuseIf_eq_ok.mp htype
    refine ⟨?_, ?_⟩
    · intro _
      unfold loadActor at hload
      rw [hprincipal] at hload
      split at hload
      · cases hload
      next row hrow =>
        split_ifs at hload with hactive
        refine ⟨row, hrow, hactive, ?_⟩
        unfold decodeActor at hload
        simp only at hload
        split at hload
        · cases hload
        · obtain rfl := Except.ok.inj hload
          exact not_not.mp htype
    · intro hchecked hmethod
      rw [if_pos hmethod] at hchecked
      cases hchecked
  | checkCredential =>
    refine ⟨fun _ => hf.principal (by simp), ?_⟩
    intro _ _
    simp only [Creation.exec] at h
    split at h
    next credential principal hc _ =>
      split_ifs at h with hv
      rw [hpassword] at hc
      exact ⟨credential, hc, hv.2⟩
    · cases h
  | removeExpired => exact ⟨fun _ => hf.principal (by simp), fun _ => hf.password rfl⟩
  | insert => exact ⟨fun _ => hf.principal (by simp), fun _ => hf.password rfl⟩
  | commit => exact absurd rfl hp

/-- The statements of the three kinds of transactions. -/
theorem job_exec_cases {crypto : Crypto} {view : Tables} {writes writes' : Writes} {job job' : Job}
    (h : job.exec crypto view writes = some (.ok (job', writes'))) :
    (∃ creation point point', job = .createSession creation point ∧ point ≠ .commit ∧
      creation.exec crypto view writes point = .ok (point', writes') ∧
      job' = .createSession creation point') ∨
    (∃ now done task todo more, job = .provision now done (task :: todo) ∧
      task.exec crypto now view writes = .ok (writes', more) ∧
      job' = .provision now (task :: done) (more ++ todo)) ∨
    (∃ tokenHash, job = .deleteToken tokenHash false ∧ job' = .deleteToken tokenHash true ∧
      writes' = writes.deleteSessions view fun row => row.tokenHash = tokenHash) := by
  cases job with
  | createSession creation point =>
    have hp : point ≠ .commit := by
      rintro rfl
      cases h
    have h : some ((creation.exec crypto view writes point).map fun next =>
        (Job.createSession creation next.1, next.2)) = some (.ok (job', writes')) := by
      cases point with
      | commit => exact absurd rfl hp
      | _ => exact h
    cases he : creation.exec crypto view writes point with
    | error err =>
      rw [he] at h
      cases h
    | ok next =>
      rw [he] at h
      cases h
      exact Or.inl ⟨creation, point, next.1, rfl, hp, he, rfl⟩
  | provision now done todo =>
    cases todo with
    | nil => cases h
    | cons task todo =>
      have h : some ((task.exec crypto now view writes).map fun next =>
          (Job.provision now (task :: done) (next.2 ++ todo), next.1)) =
            some (.ok (job', writes')) := h
      cases he : task.exec crypto now view writes with
      | error err =>
        rw [he] at h
        cases h
      | ok next =>
        rw [he] at h
        cases h
        exact Or.inr (Or.inl ⟨now, done, task, todo, next.2, rfl, he, rfl⟩)
  | deleteToken tokenHash finished =>
    cases finished with
    | true => cases h
    | false =>
      cases h
      exact Or.inr (Or.inr ⟨tokenHash, rfl, rfl, rfl⟩)

/-- Without a statement left a transaction commits. -/
theorem job_exec_none {crypto : Crypto} {view : Tables} {writes : Writes} {job : Job}
    (h : job.exec crypto view writes = none) :
    (∃ creation, job = .createSession creation .commit) ∨
    (∃ now done, job = .provision now done []) ∨ ∃ tokenHash, job = .deleteToken tokenHash true := by
  cases job with
  | createSession creation point =>
    cases point with
    | commit => exact Or.inl ⟨creation, rfl⟩
    | _ => cases h
  | provision now done todo =>
    cases todo with
    | nil => exact Or.inr (Or.inl ⟨now, done, rfl⟩)
    | cons task todo => cases h
  | deleteToken tokenHash finished =>
    cases finished with
    | true => exact Or.inr (Or.inr ⟨tokenHash, rfl⟩)
    | false => cases h

end Modary.Identity.Freshness
