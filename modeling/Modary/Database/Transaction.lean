import Modary.Runtime.Callback

/-! # Nested database transactions

`databasecontrol.withinTransaction` over the executors of `governedpostgres` and `postgres`. The
levels of one context share one physical transaction; a level that fails marks it rollback-only in
the binding the context carries. The operations are arbitrary trees of statements and nested
transactions: an operation may look at everything that comes back, swallow it, wrap it, recover a
panic, and then return or panic. -/

namespace Modary.Database.Transaction

open Modary.Action.Errors Modary.Runtime.Callback

/-! ### PostgreSQL -/

/-- How a Go call comes back. -/
inductive Completion
  | returned (err : Err)
  | panicked (value : ℕ)
  deriving DecidableEq, Repr

/-- The physical transaction. -/
inductive Physical
  | none
  | active
  | committed
  | rolledBack
  deriving DecidableEq, Repr

/-- What becomes of `COMMIT`: it may also be carried out and its acknowledgement lost. -/
inductive CommitReply
  | acknowledged
  | refused (cause : Err)
  | unacknowledged (cause : Err)
  deriving DecidableEq, Repr

/-- `COMMIT` takes effect. -/
def CommitReply.carriedOut : CommitReply → Bool
  | .acknowledged => true
  | .unacknowledged _ => true
  | .refused _ => false

/-- What becomes of `Rollback`; `alreadyDone` is `sql.ErrTxDone`, after the driver rolled back on
its own. -/
inductive RollbackReply
  | done
  | alreadyDone
  | failed (cause : Err) (ne : cause ≠ .nil)

/-- The session: whether the transaction begins, what the statements reply (`ρ`), how it ends. -/
structure Session (ρ : Type) where
  beginErr : Option Err
  statement : ℕ → ρ
  commit : CommitReply
  rollback : RollbackReply

/-- The state that the levels of one context share. -/
structure World where
  /-- `transactionBinding.rollbackCause` -/
  rollbackCause : Err := .nil
  physical : Physical := .none
  /-- the next address for a `transactionOperationError` -/
  serial : ℕ := 0
  statements : ℕ := 0
  /-- how the nested operations came back, in the order they did; nothing in the code reads it -/
  nested : List Completion := []
  deriving DecidableEq, Repr

/-- A Go function over the state `σ`. -/
abbrev Call (σ : Type) := σ → Completion × σ

/-! ### The executors -/

/-- The two packages with an executor. -/
inductive Executor
  | governedpostgres
  | postgres
  deriving DecidableEq, Repr

/-- The cause that a nested panic is recorded with. -/
def Executor.panicCause : Executor → Err
  | .governedpostgres => .sentinel .nestedTransactionPanic
  | .postgres => .message "nested PostgreSQL transaction operation panicked"

/-- The error that a rolled back root transaction reports: `postgres` joins in every case. -/
def Executor.rollbackOperation (executor : Executor) (operationErr rollbackCause : Err) : Err :=
  match executor with
  | .governedpostgres =>
    if operationErr ≠ .nil then errorsJoin operationErr rollbackCause else rollbackCause
  | .postgres => errorsJoin operationErr rollbackCause

/-- `markRollbackOnly`: the first cause stays. -/
def markRollbackOnly (w : World) (cause : Err) : World :=
  if w.rollbackCause = .nil then
    { w with rollbackCause := errorsJoin (.sentinel .nestedTransactionRollback) cause }
  else w

section Executors

variable {L : Type} {ρ : Type}

/-- `WithinTransaction` on a context that is bound to the transaction already. -/
def nestedWithinTransaction (executor : Executor) (operation : Call (L × World)) :
    Call (L × World) := fun s =>
  match operation s with
  | (.panicked value, l, w) => (.panicked value, l, markRollbackOnly w executor.panicCause)
  | (.returned err, l, w) =>
    if err ≠ .nil then (.returned (rollbackPending err), l, markRollbackOnly w err)
    else (.returned .nil, l, w)

/-- `transaction.Rollback()` and the outcome made of its reply. -/
def rollback (session : Session ρ) (operation : Err) (w : World) : Err × World :=
  match session.rollback with
  | .done => (rolledBack operation, { w with physical := .rolledBack })
  | .alreadyDone => (rolledBack operation, { w with physical := .rolledBack })
  | .failed cause _ => (rollbackFailed operation cause, w)

/-- `transaction.Commit()` and the outcome made of its reply. -/
def commit (session : Session ρ) (w : World) : Err × World :=
  match session.commit with
  | .acknowledged => (.nil, { w with physical := .committed })
  | .unacknowledged cause =>
    (commitFailed (.wrapped "commit PostgreSQL transaction" cause),
      { w with physical := .committed })
  | .refused cause =>
    (commitFailed (.wrapped "commit PostgreSQL transaction" cause),
      { w with physical := .rolledBack })

/-- `WithinTransaction` on a context without a transaction. -/
def rootWithinTransaction (session : Session ρ) (executor : Executor)
    (operation : Call (L × World)) : Call (L × World) := fun (l, w) =>
  match session.beginErr with
  | some cause => (.returned (.wrapped "begin PostgreSQL transaction" cause), l, w)
  | none =>
    match operation (l, { w with physical := .active }) with
    | (.panicked value, l, w) =>
      -- the deferred `Rollback`
      (.panicked value, l, (rollback session .nil w).2)
    | (.returned operationErr, l, w) =>
      if operationErr ≠ .nil ∨ w.rollbackCause ≠ .nil then
        let (err, w) :=
          rollback session (executor.rollbackOperation operationErr w.rollbackCause) w
        (.returned err, l, w)
      else
        let (err, w) := commit session w
        (.returned err, l, w)

end Executors

/-! ### `databasecontrol.withinTransaction` -/

/-- The variables that the guarded operation shares with `withinTransaction`. -/
structure Locals where
  guard : ExactlyOnce := {}
  operationFailure : Option OperationFailure := none
  panicValue : ℕ := 0
  deriving DecidableEq, Repr

/-- The recorded end of a guarded operation that failed. -/
def fail (guard : ExactlyOnce) (panicValue : ℕ) (failure : OperationFailure) (w : World) :
    Completion × (Locals × World) :=
  (.returned (failure.err .databasecontrol),
    { guard := (guard.record (failure.err .databasecontrol)).finish
      operationFailure := some failure
      panicValue },
    { w with serial := w.serial + 1 })

/-- `guardedOperation`. The executors never pass a nil context. -/
def guardedOperation (trustedOperation : Bool) (operation : Call World) :
    Call (Locals × World) := fun (l, w) =>
  match l.guard.enter with
  | (some err, guard) => (.returned err, { l with guard }, w)
  | (none, guard) =>
    match operation w with
    | (.panicked value, w) =>
      fail guard value
        { serial := w.serial, cause := .sentinel .transactionBackendContract, panicked := true } w
    | (.returned err, w) =>
      if err = .nil then (.returned .nil, { l with guard := (guard.record .nil).finish }, w)
      else
        let cause :=
          if trustedOperation then err
          else .dependencyError .databasecontrol "database transaction operation" err
        fail guard 0 { serial := w.serial, cause } w

/-- The variable `returnedErr`. -/
def returnedErr : Completion → Err
  | .returned err => err
  | .panicked _ => .nil

/-- The variable `backendErr`. -/
def backendErr : Completion → Err
  | .returned err =>
    if err = .nil then .nil
    else .dependencyError .databasecontrol "run database transaction" err
  | .panicked _ =>
    .dependencyError .databasecontrol "run database transaction" (.sentinel .dependencyPanic)

/-- `newTransactionBackendContractError`. -/
def newTransactionBackendContractError (backend operation : Err) : Err :=
  .contractError .databasecontrol backend operation

/-- `projectTransactionOutcome`. -/
def projectTransactionOutcome (proof : Proof) : Err :=
  match proof.state with
  | .rollbackPending => rollbackPending proof.operation
  | .rolledBack => rolledBack proof.operation
  | .rollbackFailed =>
    rollbackFailed proof.operation
      (.dependencyError .databasecontrol "roll back database transaction" proof.completion)
  | .commitFailed =>
    commitFailed
      (.dependencyError .databasecontrol "commit database transaction" proof.completion)
  | .unknown => newTransactionBackendContractError .nil .nil

/-- The decision on an operation that failed. -/
def settleFailure (heap : Heap) (trustedOperation : Bool) (reply : Completion) (l : Locals)
    (failure : OperationFailure) : Completion :=
  let operationFailure := failure.err .databasecontrol
  let violation := Completion.returned
    (newTransactionBackendContractError (backendErr reply) operationFailure)
  match reply with
  | .panicked _ => violation
  | .returned returnedErr =>
    if failure.invalidContext || !is heap l.guard.close.result operationFailure then violation
    else
      match root returnedErr with
      | none => violation
      | some proof =>
        if !is heap proof.operation operationFailure then violation
        else if proof.state ≠ .rollbackPending ∧ proof.state ≠ .rolledBack ∧
            proof.state ≠ .rollbackFailed then violation
        else if failure.panicked then .panicked l.panicValue
        else if trustedOperation ∧ proof.state = .rolledBack then
          .returned (.outcomeError .databasecontrol (backendErr reply) failure.cause)
        else .returned (projectTransactionOutcome proof)

/-- The decision once the window is closed. -/
def settle (heap : Heap) (trustedOperation : Bool) (reply : Completion) (l : Locals) :
    Completion :=
  let snapshot := l.guard.close
  match snapshot.outcome with
  | .notInvoked =>
    if backendErr reply = .nil ∨ (root (returnedErr reply)).isSome then
      .returned (newTransactionBackendContractError .nil .nil)
    else .returned (backendErr reply)
  | .returned =>
    match l.operationFailure with
    | none =>
      if snapshot.result ≠ .nil then
        .returned (newTransactionBackendContractError (backendErr reply) snapshot.result)
      else
        match reply with
        | .panicked _ => .returned (newTransactionBackendContractError (backendErr reply) .nil)
        | .returned returnedErr =>
          if returnedErr = .nil then .returned .nil
          else
            match root returnedErr with
            | none => .returned (newTransactionBackendContractError (backendErr reply) .nil)
            | some proof =>
              if proof.state ≠ .commitFailed then
                .returned (newTransactionBackendContractError (backendErr reply) .nil)
              else .returned (projectTransactionOutcome proof)
    | some failure => settleFailure heap trustedOperation reply l failure
  | .panicked =>
    .returned (newTransactionBackendContractError (backendErr reply)
      (failureErr .databasecontrol l.operationFailure))
  | .contractViolation =>
    .returned (newTransactionBackendContractError (backendErr reply)
      (failureErr .databasecontrol l.operationFailure))

/-- `control.withinTransaction` over a backend. -/
def withinTransaction (heap : Heap) (backend : Call (Locals × World) → Call (Locals × World))
    (trustedOperation : Bool) (operation : Call World) : Call World := fun w =>
  match backend (guardedOperation trustedOperation operation) ({}, w) with
  | (reply, l, w) => (settle heap trustedOperation reply l, w)

/-! ### Operations -/

/-- An operation: a tree of statements and nested transactions, whose continuations decide what is
made of each reply. -/
inductive Body (ρ : Type)
  | ret (err : Err)
  | panic (value : ℕ)
  | statement (next : ρ → Body ρ)
  | nested (trustedOperation : Bool) (operation : Body ρ) (next : Completion → Body ρ)

section Runs

variable {ρ : Type} (heap : Heap) (executor : Executor) (session : Session ρ)

/-- Note how a nested operation came back. -/
def noted (operation : Call World) : Call World := fun w =>
  match operation w with
  | (c, w) => (c, { w with nested := w.nested ++ [c] })

/-- The run of an operation inside the transaction. -/
def exec : Body ρ → Call World
  | .ret err => fun w => (.returned err, w)
  | .panic value => fun w => (.panicked value, w)
  | .statement next => fun w =>
    exec (next (session.statement w.statements)) { w with statements := w.statements + 1 }
  | .nested trustedOperation operation next => fun w =>
    match withinTransaction heap (nestedWithinTransaction executor) trustedOperation
      (noted (exec operation)) w with
    | (c, w) => exec (next c) w

/-- The outermost call. -/
def outermost (trustedOperation : Bool) (body : Body ρ) : Completion × World :=
  withinTransaction heap (rootWithinTransaction session executor) trustedOperation
    (exec heap executor session body) {}

/-! ### What the levels share -/

@[simp] theorem markRollbackOnly_physical (w : World) (cause : Err) :
    (markRollbackOnly w cause).physical = w.physical := by
  unfold markRollbackOnly; split_ifs <;> rfl

@[simp] theorem markRollbackOnly_nested (w : World) (cause : Err) :
    (markRollbackOnly w cause).nested = w.nested := by
  unfold markRollbackOnly; split_ifs <;> rfl

theorem markRollbackOnly_cause (w : World) (cause : Err) :
    (markRollbackOnly w cause).rollbackCause ≠ .nil := by
  unfold markRollbackOnly
  split_ifs with h
  · simp [errorsJoin]
  · exact h

/-- The guarded operation on a fresh guard, for an operation that succeeds. -/
theorem guardedOperation_nil {trusted : Bool} {operation : Call World} {w w' : World}
    (h : operation w = (.returned .nil, w')) :
    guardedOperation trusted operation ({}, w) =
      (.returned .nil, { guard := ((({} : ExactlyOnce).enter.2.record .nil).finish) }, w') := by
  simp [guardedOperation, h, ExactlyOnce.enter]

/-- The guarded operation on a fresh guard, for an operation that fails or panics: it returns an
error of its own. -/
theorem guardedOperation_fail (trusted : Bool) {operation : Call World} {w w' : World}
    {c : Completion} (h : operation w = (c, w')) (hc : c ≠ .returned .nil) :
    ∃ value failure, guardedOperation trusted operation ({}, w) =
      fail ({} : ExactlyOnce).enter.2 value failure w' := by
  cases c with
  | panicked value => exact ⟨value, _, by simp [guardedOperation, h, ExactlyOnce.enter]; rfl⟩
  | returned err =>
    have hn : err ≠ .nil := fun he => hc (by rw [he])
    exact ⟨0, _, by simp [guardedOperation, h, hn, ExactlyOnce.enter]; rfl⟩

/-- What a nested transaction does to the shared state: nothing if its operation succeeds, else the
transaction is marked. -/
theorem nested_world (trusted : Bool) {operation : Call World} {w w' : World} {c : Completion}
    (h : operation w = (c, w')) :
    let after := (withinTransaction heap (nestedWithinTransaction executor) trusted operation w).2
    (c = .returned .nil → after = w') ∧
      (c ≠ .returned .nil →
        ∃ cause, after = markRollbackOnly { w' with serial := w'.serial + 1 } cause) := by
  constructor
  · rintro rfl
    simp [withinTransaction, nestedWithinTransaction, guardedOperation_nil h]
  · intro hc
    obtain ⟨value, failure, he⟩ := guardedOperation_fail trusted h hc
    refine ⟨failure.err .databasecontrol, ?_⟩
    simp [withinTransaction, nestedWithinTransaction, he, fail, OperationFailure.err]

/-- Inside the transaction it is marked exactly when a nested operation failed or panicked. -/
structure Marked (w : World) : Prop where
  physical : w.physical = .active
  cause : w.rollbackCause ≠ .nil ↔ ∃ c ∈ w.nested, c ≠ .returned .nil

theorem exec_marked : ∀ (body : Body ρ) {w : World}, Marked w →
    Marked (exec heap executor session body w).2
  | .ret _, _, h => h
  | .panic _, _, h => h
  | .statement next, w, h => exec_marked (next _) ⟨h.physical, h.cause⟩
  | .nested trusted operation next, w, h => by
    rcases hop : exec heap executor session operation w with ⟨c, w'⟩
    have h1 : Marked w' := by
      have := exec_marked operation h
      rwa [hop] at this
    have hn : noted (exec heap executor session operation) w =
        (c, { w' with nested := w'.nested ++ [c] }) := by
      simp [noted, hop]
    obtain ⟨h2, h3⟩ := nested_world heap executor trusted hn
    rcases hw : withinTransaction heap (nestedWithinTransaction executor) trusted
      (noted (exec heap executor session operation)) w with ⟨d, v⟩
    simp only [exec, hw] at h2 h3 ⊢
    refine exec_marked (next d) ?_
    by_cases hc : c = .returned .nil
    · rw [h2 hc]
      exact ⟨h1.physical, by simp [h1.cause, hc]⟩
    · obtain ⟨cause, rfl⟩ := h3 hc
      refine ⟨by simpa using h1.physical, iff_of_true (markRollbackOnly_cause _ _) ?_⟩
      exact ⟨c, by simp, hc⟩

/-! ### The outermost call -/

/-- The error that the backend returned, behind the wrappers of `withinTransaction`. -/
def reported : Err → Err
  | .outcomeError _ (.dependencyError _ _ err) _ => err
  | .contractError _ (.dependencyError _ _ err) _ => err
  | err => err

/-- The call returns an error that carries a root-level proof of a rollback. -/
def CarriesRolledBack (c : Completion) : Prop :=
  ∃ err proof, c = .returned err ∧ root (reported err) = some proof ∧ proof.state = .rolledBack

theorem not_carries_nil : ¬ CarriesRolledBack (.returned .nil) := by
  rintro ⟨err, proof, h, hp, -⟩
  cases h
  cases hp

theorem not_carries_commitFailed (completion : Err) :
    ¬ CarriesRolledBack (.returned (commitFailed completion)) := by
  rintro ⟨err, proof, h, hp, hs⟩
  cases h
  simp only [commitFailed, newOutcome, reported, root] at hp
  split_ifs at hp
  cases hp
  cases hs

/-- A rollback either takes place and is proven, or is reported as failed. -/
theorem rollback_cases (operation : Err) (w : World) :
    rollback session operation w = (rolledBack operation, { w with physical := .rolledBack }) ∨
      ∃ cause, cause ≠ .nil ∧
        rollback session operation w = (rollbackFailed operation cause, w) := by
  unfold rollback
  split
  · exact Or.inl rfl
  · exact Or.inl rfl
  · next cause hn _ => exact Or.inr ⟨cause, hn, rfl⟩

/-- The variables after an operation that succeeded. -/
theorem settle_success (trusted : Bool) (err : Err) :
    settle heap trusted (.returned err)
        { guard := (({} : ExactlyOnce).enter.2.record .nil).finish } =
      if err = .nil then .returned .nil
      else
        match root err with
        | none => .returned (newTransactionBackendContractError (backendErr (.returned err)) .nil)
        | some proof =>
          if proof.state ≠ .commitFailed then
            .returned (newTransactionBackendContractError (backendErr (.returned err)) .nil)
          else .returned (projectTransactionOutcome proof) := rfl

theorem projectTransactionOutcome_ne_nil (proof : Proof) : projectTransactionOutcome proof ≠ .nil := by
  unfold projectTransactionOutcome
  split <;> simp [rollbackPending, rolledBack, rollbackFailed, commitFailed, newOutcome,
    newTransactionBackendContractError]

/-- A projected outcome proves a rollback only if the original did. -/
theorem root_project {proof proof' : Proof}
    (h : root (reported (projectTransactionOutcome proof)) = some proof')
    (hs : proof'.state = .rolledBack) : proof.state = .rolledBack := by
  unfold projectTransactionOutcome at h
  split at h
  case h_2 hp => exact hp
  case h_5 => cases h
  all_goals
    simp only [rollbackPending, rollbackFailed, commitFailed, newOutcome, reported, root] at h
    split_ifs at h
    cases h
    cases hs

/-- The backend's error inside a wrapper is the one it returned; a panic leaves none. -/
theorem backendErr_eq (reply : Completion) :
    (backendErr reply = .nil ∧ returnedErr reply = .nil) ∨
      ∃ err, backendErr reply = .dependencyError .databasecontrol "run database transaction" err ∧
        (err = returnedErr reply ∨ root err = none) := by
  cases reply with
  | returned err =>
    by_cases h : err = .nil
    · exact Or.inl ⟨by simp [backendErr, h], h⟩
    · exact Or.inr ⟨err, by simp [backendErr, h], Or.inl rfl⟩
  | panicked value => exact Or.inr ⟨_, rfl, Or.inr rfl⟩

/-- What the decision can be: nil after nil, a panic, a projection of the backend's own proof, or the
backend's error inside a wrapper of this package. -/
inductive Settled (reply : Completion) : Completion → Prop
  | nil (h : reply = .returned .nil) : Settled reply (.returned .nil)
  | panicked (value : ℕ) : Settled reply (.panicked value)
  | violation (manager operation : Err) (h : manager = .nil ∨ manager = backendErr reply) :
    Settled reply (.returned (.contractError .databasecontrol manager operation))
  | backend (h : backendErr reply ≠ .nil) : Settled reply (.returned (backendErr reply))
  | outcome (diagnostic : Err) :
    Settled reply (.returned (.outcomeError .databasecontrol (backendErr reply) diagnostic))
  | projected (proof : Proof) (h : root (returnedErr reply) = some proof) :
    Settled reply (.returned (projectTransactionOutcome proof))

theorem settled_failure (trusted : Bool) (reply : Completion) (l : Locals)
    (failure : OperationFailure) :
    Settled reply (settleFailure heap trusted reply l failure) := by
  unfold settleFailure
  dsimp only
  split
  · exact .violation _ _ (Or.inr rfl)
  split
  · exact .violation _ _ (Or.inr rfl)
  split
  · exact .violation _ _ (Or.inr rfl)
  next proof hp =>
  split
  · exact .violation _ _ (Or.inr rfl)
  split
  · exact .violation _ _ (Or.inr rfl)
  split
  · exact .panicked _
  split
  · exact .outcome _
  · exact .projected proof hp

theorem settled (trusted : Bool) (reply : Completion) (l : Locals) :
    Settled reply (settle heap trusted reply l) := by
  unfold settle
  dsimp only
  split
  · split
    · exact .violation _ _ (Or.inl rfl)
    · next h => exact .backend fun hn => h (Or.inl hn)
  · split
    · split
      · exact .violation _ _ (Or.inr rfl)
      split
      · exact .violation _ _ (Or.inr rfl)
      split
      · next h => exact .nil (by rw [h])
      split
      · exact .violation _ _ (Or.inr rfl)
      next proof hp =>
      split
      · exact .violation _ _ (Or.inr rfl)
      · exact .projected proof hp
    · exact settled_failure heap _ _ _ _
  · exact .violation _ _ (Or.inr rfl)
  · exact .violation _ _ (Or.inr rfl)

/-- Only a backend that returned nil makes the call return nil. -/
theorem Settled.eq_nil {reply : Completion} (h : Settled reply (.returned .nil)) :
    reply = .returned .nil := by
  generalize hc : Completion.returned .nil = c at h
  cases h with
  | nil h => exact h
  | panicked value => cases hc
  | violation manager operation h => cases hc
  | backend h => exact absurd (Completion.returned.inj hc).symm h
  | outcome diagnostic => cases hc
  | projected proof h =>
    exact absurd (Completion.returned.inj hc).symm (projectTransactionOutcome_ne_nil proof)

/-- Only a backend that proved a rollback makes the call carry such a proof. -/
theorem Settled.carries {reply c : Completion} (h : Settled reply c) (hc : CarriesRolledBack c) :
    ∃ proof, root (returnedErr reply) = some proof ∧ proof.state = .rolledBack := by
  obtain ⟨err, proof, rfl, hp, hs⟩ := hc
  generalize hr : Completion.returned err = r at h
  cases h with
  | nil h => cases hr; cases hp
  | panicked value => cases hr
  | violation manager operation h =>
    cases hr
    rcases h with rfl | rfl
    · cases hp
    rcases backendErr_eq reply with ⟨h, -⟩ | ⟨e, h, rfl | hn⟩ <;> rw [h] at hp
    · cases hp
    · exact ⟨proof, hp, hs⟩
    · cases hn.symm.trans hp
  | backend h =>
    cases hr
    rcases backendErr_eq reply with ⟨h, -⟩ | ⟨e, h, -⟩ <;> rw [h] at hp <;> cases hp
  | outcome diagnostic =>
    cases hr
    rcases backendErr_eq reply with ⟨h, -⟩ | ⟨e, h, rfl | hn⟩ <;> rw [h] at hp
    · cases hp
    · exact ⟨proof, hp, hs⟩
    · cases hn.symm.trans hp
  | projected proof' h =>
    cases hr
    exact ⟨proof', h, root_project hp hs⟩

section Begun

variable (trusted : Bool) {body : Body ρ} {c : Completion} {w : World}
  (hb : session.beginErr = none)
  (he : exec heap executor session body { physical := .active } = (c, w))

include hb he

/-- The operation succeeded and no nested one failed: the transaction is committed, or the commit is
reported as failed. -/
theorem outermost_commit (hc : c = .returned .nil) (hr : w.rollbackCause = .nil) :
    outermost heap executor session trusted body =
      match session.commit with
      | .acknowledged => (.returned .nil, { w with physical := .committed })
      | .unacknowledged cause =>
        (.returned (commitFailed (.dependencyError .databasecontrol "commit database transaction"
            (.opaqueError (.wrapped "commit PostgreSQL transaction" cause)))),
          { w with physical := .committed })
      | .refused cause =>
        (.returned (commitFailed (.dependencyError .databasecontrol "commit database transaction"
            (.opaqueError (.wrapped "commit PostgreSQL transaction" cause)))),
          { w with physical := .rolledBack }) := by
  subst hc
  simp only [outermost, withinTransaction, rootWithinTransaction, hb, guardedOperation_nil he, hr,
    commit, ne_eq, not_true_eq_false, or_self, if_false]
  have hn : ∀ cause, commitFailed (.wrapped "commit PostgreSQL transaction" cause) ≠ .nil := by
    simp [commitFailed, newOutcome]
  split <;> simp [settle_success, root_commitFailed, hn, projectTransactionOutcome, toOpaque]

/-- The operation failed, or a nested one did: nothing is committed, the call does not return nil,
and it carries a proof of the rollback only if there was one. -/
theorem outermost_rollback (hw : w.physical = .active)
    (h : c ≠ .returned .nil ∨ w.rollbackCause ≠ .nil) :
    (outermost heap executor session trusted body).1 ≠ .returned .nil ∧
      (outermost heap executor session trusted body).2.physical ≠ .committed ∧
      (CarriesRolledBack (outermost heap executor session trusted body).1 →
        (outermost heap executor session trusted body).2.physical = .rolledBack) := by
  -- in every case the executor rolls back a cause that is not nil
  obtain ⟨l, v, operation, hn, hv, hr⟩ : ∃ l v operation, operation ≠ .nil ∧
      v.physical = .active ∧
      rootWithinTransaction session executor
          (guardedOperation trusted (exec heap executor session body)) ({}, {}) =
        (.returned (rollback session operation v).1, l, (rollback session operation v).2) := by
    by_cases hc : c = .returned .nil
    · subst hc
      have hr : w.rollbackCause ≠ .nil := h.resolve_left (by simp)
      refine ⟨{ guard := (({} : ExactlyOnce).enter.2.record .nil).finish }, w,
        executor.rollbackOperation .nil w.rollbackCause, ?_, hw, ?_⟩
      · cases executor <;> simp [Executor.rollbackOperation, errorsJoin, hr]
      · simp [rootWithinTransaction, hb, guardedOperation_nil he, hr]
    · obtain ⟨value, failure, hg⟩ := guardedOperation_fail trusted he hc
      have hf : failure.err .databasecontrol ≠ .nil := by simp [OperationFailure.err]
      refine ⟨(fail ({} : ExactlyOnce).enter.2 value failure w).2.1, { w with serial := w.serial + 1 },
        executor.rollbackOperation (failure.err .databasecontrol) w.rollbackCause, ?_, hw, ?_⟩
      · cases executor <;> simp [Executor.rollbackOperation, errorsJoin, hf]
      · simp [rootWithinTransaction, hb, hg, fail, hf]
  simp only [outermost, withinTransaction, hr]
  have hset := settled heap trusted (.returned (rollback session operation v).1) l
  rcases rollback_cases session operation v with hs | ⟨cause, hcause, hs⟩ <;> rw [hs] at hset ⊢
  · refine ⟨fun h => ?_, by simp, fun _ => rfl⟩
    rw [h] at hset
    cases hset.eq_nil
  · refine ⟨fun h => ?_, by simp [hv], fun h => ?_⟩
    · rw [h] at hset
      cases hset.eq_nil
    · obtain ⟨proof, hp, hp'⟩ := hset.carries h
      simp only [returnedErr, root_rollbackFailed hn hcause, Option.some.injEq] at hp
      subst hp
      cases hp'

end Begun

/-- **The contract of nested transactions**, over every tree of operations: the physical transaction
commits exactly when it began, the outermost operation returned nil, no nested operation failed or
panicked, and PostgreSQL carried the commit out; the outermost call returns nil exactly when that
commit was also acknowledged; and it carries a proof of a rollback only when there was one. -/
theorem outermost_contract (trusted : Bool) (body : Body ρ) :
    let result := outermost heap executor session trusted body
    let operation := exec heap executor session body { physical := .active }
    (result.2.physical = .committed ↔
      session.beginErr = none ∧ operation.1 = .returned .nil ∧
        (∀ c ∈ operation.2.nested, c = .returned .nil) ∧ session.commit.carriedOut = true) ∧
    (result.1 = .returned .nil ↔
      result.2.physical = .committed ∧ session.commit = .acknowledged) ∧
    (CarriesRolledBack result.1 → result.2.physical = .rolledBack) := by
  dsimp only
  rcases hb : session.beginErr with _ | cause
  · rcases he : exec heap executor session body { physical := .active } with ⟨c, w⟩
    have hm : Marked w := by
      have h0 : Marked { physical := .active } := ⟨rfl, by simp⟩
      have := exec_marked heap executor session body h0
      rwa [he] at this
    by_cases h : c = .returned .nil ∧ w.rollbackCause = .nil
    · -- nothing failed, so it is the commit that decides
      have hn : ∀ c ∈ w.nested, c = .returned .nil := by
        intro d hd
        by_contra hne
        exact hm.cause.mpr ⟨d, hd, hne⟩ h.2
      rw [outermost_commit heap executor session trusted hb he h.1 h.2]
      rcases hc : session.commit with _ | e | e
      · exact ⟨by simpa [h.1, CommitReply.carriedOut] using hn, by simp,
          fun hr => absurd hr not_carries_nil⟩
      · exact ⟨by simp [CommitReply.carriedOut], by simp [commitFailed, newOutcome], fun _ => rfl⟩
      · exact ⟨by simpa [h.1, CommitReply.carriedOut] using hn, by simp [commitFailed, newOutcome],
          fun hr => absurd hr (not_carries_commitFailed _)⟩
    · -- something failed, so nothing is committed
      have hf : c ≠ .returned .nil ∨ w.rollbackCause ≠ .nil := not_and_or.mp h
      obtain ⟨h1, h2, h3⟩ :=
        outermost_rollback heap executor session trusted hb he hm.physical hf
      refine ⟨iff_of_false h2 ?_, iff_of_false h1 fun hh => h2 hh.1, h3⟩
      rintro ⟨-, hc, hn, -⟩
      refine h ⟨hc, not_not.mp fun hr => ?_⟩
      obtain ⟨d, hd, hne⟩ := hm.cause.mp hr
      exact hne (hn d hd)
  · -- the transaction did not begin
    have hset := settled heap trusted
      (.returned (.wrapped "begin PostgreSQL transaction" cause)) ({} : Locals)
    have ho : outermost heap executor session trusted body = (settle heap trusted
        (.returned (.wrapped "begin PostgreSQL transaction" cause)) ({} : Locals), {}) := by
      simp [outermost, withinTransaction, rootWithinTransaction, hb]
    rw [ho]
    refine ⟨by simp, iff_of_false (fun h => ?_) (by simp), fun h => ?_⟩
    · rw [show settle _ _ _ _ = _ from h] at hset
      cases hset.eq_nil
    · obtain ⟨proof, hp, -⟩ := hset.carries h
      cases hp

/-- A deferred constraint fails at the commit: the operation returned nil, nothing nested failed,
and yet the transaction is rolled back. -/
theorem refused_commit_rolls_back :
    ¬ ∀ (heap : Heap) (session : Session Unit) (trusted : Bool) (body : Body Unit),
      let result := outermost heap .governedpostgres session trusted body
      let operation := exec heap .governedpostgres session body { physical := .active }
      result.2.physical = .committed ↔
        operation.1 = .returned .nil ∧ ∀ c ∈ operation.2.nested, c = .returned .nil := by
  intro h
  have := (h (fun _ => .untrusted)
    { beginErr := none, statement := fun _ => (), commit := .refused (.message "foreign key violation"),
      rollback := .done } false (.ret .nil)).mpr ⟨rfl, by simp [exec]⟩
  exact absurd this (by decide)

end Runs

end Modary.Database.Transaction
