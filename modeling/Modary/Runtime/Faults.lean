import Modary.Runtime.Engine

/-! # Faults and reports

What went wrong in a call, and what the caller gets to see of an error on its way out through
`withRequest`, `withinTransaction` and `finalizeRuntimeFailure`. -/

namespace Modary.Runtime.Faults

open Modary.Lib.GoText
open Modary.Action.Authz Modary.Action.Errors Modary.Action.Types
open Modary.Action.Persistence Modary.Runtime.Failures Modary.Runtime.Callback
open Modary.Runtime.Transaction Modary.Runtime.Environment Modary.Runtime.Engine

/-! ### Faults -/

/-- What a dependency did wrong. A denied decision is a fault of its own kind. -/
inductive Fault
  | dependency
  | planMissing
  | handler
  | denial
  deriving DecidableEq, Repr

/-- The dependency returned an error or panicked. -/
def failed {α : Type} : Reply α → Bool
  | .returned _ err => err != .nil
  | .panicked => true

/-- `Proven`, computed. -/
def proven (heap : Heap) (reply : ManagerReply) (failure : OperationFailure) : Bool :=
  match root reply.err with
  | some proof => proof.state == .rolledBack && is heap proof.operation (failure.err .actionruntime)
  | none => false

/-- The manager did what it is for: it committed what succeeded, or it proved that it rolled back
this very failure. -/
def Finished.sound (heap : Heap) (serial : ℕ) (result : Err) (finished : Finished) : Bool :=
  finished.inTime &&
    if result = .nil then finished.reply == .returned .nil
    else proven heap finished.reply { serial, cause := result }

/-- The fault of an authorizer's reply. -/
def authorizeFault : Reply Decision → Option Fault
  | .panicked => some .dependency
  | .returned decision err =>
    if err ≠ .nil then some .dependency else if decision.allowed then none else some .denial

/-- The fault of a call. An event that is recorded outside a transaction is recorded as far as
possible, and so is the time it is stamped with: there is no fault in that. -/
def fault (heap : Heap) : Environment.Call → Option Fault
  | ⟨.acquire _, _⟩ => none
  | ⟨.acquireLease, _⟩ => none
  | ⟨.randomRequestID, _⟩ => none
  | ⟨.clock .event, _⟩ => none
  | ⟨.auditDetached _, _⟩ => none
  | ⟨.clock .decision, reading⟩ => if reading = (none : Option ℤ) then some .dependency else none
  | ⟨.authorize _ _, reply⟩ => authorizeFault reply
  | ⟨.planGet _ _, reply⟩ =>
    match (reply : Reply Plan).dependency "load preview plan" with
    | .ok _ => none
    | .error err => if is heap err (.sentinel .planNotFound) then some .planMissing else some .dependency
  | ⟨.planSave _ _, reply⟩ => if failed (reply : Reply Unit) then some .dependency else none
  | ⟨.planDeleteExpired _ _, reply⟩ => if failed (reply : Reply ℤ) then some .dependency else none
  | ⟨.lookup _ _, reply⟩ =>
    if failed (reply : Reply (Option IdempotencyRecord)) then some .dependency else none
  | ⟨.reserve _ _, reply⟩ =>
    if failed (reply : Reply (Option IdempotencyRecord)) then some .dependency else none
  | ⟨.complete _ _, reply⟩ => if failed (reply : Reply Unit) then some .dependency else none
  | ⟨.abort _ _, reply⟩ => if failed (reply : Reply Unit) then some .dependency else none
  | ⟨.auditRequired _ _, reply⟩ => if failed (reply : Reply Unit) then some .dependency else none
  | ⟨.handlerPlan _ _, reply⟩ => if failed (reply : Reply PlanData) then some .handler else none
  | ⟨.handlerExecute _ _, reply⟩ => if failed (reply : Reply Result) then some .handler else none
  | ⟨.begin, started⟩ =>
    match (started : Started) with
    | .run _ => none
    | .unused _ => some .dependency
    | .nilContext _ _ => some .dependency
    | .violated _ => some .dependency
  | ⟨.finish serial result, finished⟩ =>
    if Finished.sound heap serial result (finished : Environment.Finished) then none
    else some .dependency

/-- The faults of a history, in order. -/
def faults (heap : Heap) (h : List Environment.Call) : List Fault := h.filterMap (fault heap)

@[simp] theorem faults_append (heap : Heap) (h h' : List Environment.Call) :
    faults heap (h ++ h') = faults heap h ++ faults heap h' := List.filterMap_append

@[simp] theorem faults_nil (heap : Heap) : faults heap [] = [] := rfl

theorem faults_cons (heap : Heap) (c : Environment.Call) (h : List Environment.Call) :
    faults heap (c :: h) = (fault heap c).toList ++ faults heap h := by
  unfold faults
  cases hf : fault heap c <;> simp [hf]

theorem proven_iff {heap : Heap} {reply : ManagerReply} {failure : OperationFailure} :
    proven heap reply failure = true ↔ Proven heap reply failure := by
  unfold proven Proven
  cases root reply.err <;> simp

/-! ### What an error claims to be -/

/-- A code with its kind. -/
abbrev Report := GoString × ErrorKind

/-- `INTERNAL_ERROR`. -/
def internal : Report := (codeInternal, .internal)

/-- What an envelope claims to be once the request context is written over it. -/
def claimOf (envelope : Envelope) : Report :=
  if envelope.code = codeInternal ∨ envelope.code = .utf8 "" then internal
  else
    (envelope.code,
      if envelope.kind.valid then envelope.kind else (builtinErrorKind envelope.code).getD .unset)

/-- The kind of an envelope is one of the closed set, or left open. -/
def Formed (envelope : Envelope) : Prop := envelope.kind = .unset ∨ envelope.kind.valid = true

/-- The error claims to be something that `P` admits, and if the last gate stops it, then `P` admits
an internal error too. -/
def Fit (heap : Heap) (P : Report → Prop) (err : Err) : Prop :=
  err ≠ .nil ∧
    match findActionError heap err with
    | none => P internal
    | some (envelope, _) =>
      P (claimOf envelope) ∧ Formed envelope ∧
        (P internal ∨
          (validErrorMessage envelope.message = true ∧ (builtinErrorKind envelope.code).isSome))

/-- A built-in code with its own kind, or a code that only a descriptor can declare. -/
def Known (report : Report) : Prop :=
  builtinErrorKind report.1 = some report.2 ∨
    (builtinErrorKind report.1 = none ∧ report.2.valid = true ∧ report.2 ≠ .internal)

theorem builtin_valid {code : GoString} {kind : ErrorKind} (h : builtinErrorKind code = some kind) :
    kind.valid = true := by
  have hm : (code, kind) ∈ builtinErrorKinds := by
    unfold builtinErrorKind at h
    obtain ⟨l₁, l₂, he, -⟩ := List.lookup_eq_some_iff.mp h
    rw [he]
    simp
  have hall : ∀ p ∈ builtinErrorKinds, p.2.valid = true := by decide
  exact hall _ hm

/-! ### The way out -/

theorem claimOf_forRequest (envelope : Envelope) (request : Action.Types.Request)
    (permission : GoString) :
    claimOf (Envelope.forRequest envelope request permission) = claimOf envelope := by
  unfold claimOf Envelope.forRequest
  dsimp only
  split_ifs <;> rfl

theorem formed_forRequest (envelope : Envelope) (request : Action.Types.Request)
    (permission : GoString) : Formed (Envelope.forRequest envelope request permission) := by
  unfold Formed Envelope.forRequest
  dsimp only
  split_ifs with hv
  · exact Or.inr hv
  · cases hb : builtinErrorKind envelope.code with
    | none => exact Or.inl rfl
    | some kind => exact Or.inr (builtin_valid hb)

section WayOut

variable {heap : Heap} {P : Report → Prop} {err : Err}

theorem fit_action {serial : ℕ} {envelope : Envelope} {cause : Err} :
    Fit heap P (.action serial envelope cause) ↔
      P (claimOf envelope) ∧ Formed envelope ∧ (P internal ∨
        (validErrorMessage envelope.message = true ∧ (builtinErrorKind envelope.code).isSome)) := by
  simp [Fit]

/-- An error of the runtime's own with the code `INTERNAL_ERROR`. -/
theorem Fit.of_internal (hp : P internal) (h : Internal err) : Fit heap P err := by
  obtain ⟨message, cause, rfl⟩ := h
  exact fit_action.mpr ⟨by simpa [claimOf] using hp, Or.inl rfl, Or.inl hp⟩

theorem Fit.mono {P' : Report → Prop} (h : Fit heap P err) (hp : ∀ report, P report → P' report) :
    Fit heap P' err := by
  refine ⟨h.1, ?_⟩
  have := h.2
  split at this
  · exact hp _ this
  · exact ⟨hp _ this.1, this.2.1, this.2.2.imp_left (hp _)⟩

/-- `WithRequest` leaves the report as it is. -/
theorem Fit.withRequest (h : Fit heap P err) (request : Action.Types.Request)
    (permission : GoString) : Fit heap P (withRequest heap err request permission) := by
  unfold Failures.withRequest
  rw [if_neg h.1]
  have hs := h.2
  split
  · next envelope cause hf =>
    rw [hf] at hs
    refine fit_action.mpr ⟨?_, formed_forRequest envelope request permission, hs.2.2⟩
    rw [claimOf_forRequest]
    exact hs.1
  · next hf =>
    rw [hf] at hs
    exact fit_action.mpr ⟨by simpa [claimOf, Envelope.forRequest] using hs,
      formed_forRequest _ request permission, Or.inl hs⟩

theorem governedKind_valid (envelope : Envelope) : envelope.governedKind.valid = true := by
  unfold Envelope.governedKind
  split
  · next kind hb =>
    split_ifs
    · exact builtin_valid hb
    · rfl
  · split_ifs with hv
    · exact hv
    · rfl

/-- Under a report that is known, `ErrorKindOf` reads the kind off that `WithRequest` writes. -/
theorem governedKind_eq {envelope : Envelope} (hk : Known (claimOf envelope))
    (hf : Formed envelope) (hi : envelope.code ≠ codeInternal) (he : envelope.code ≠ .utf8 "") :
    (envelope.code, envelope.governedKind) = claimOf envelope := by
  have hc : claimOf envelope = (envelope.code, if envelope.kind.valid then envelope.kind
      else (builtinErrorKind envelope.code).getD .unset) := by simp [claimOf, hi, he]
  rw [hc] at hk ⊢
  unfold Envelope.governedKind
  cases hb : builtinErrorKind envelope.code with
  | some kind =>
    simp only [Known, hb, Option.getD_some, Option.some.injEq, reduceCtorEq, false_and,
      or_false] at hk ⊢
    rcases hf with hf | hf
    · simp [hf, ErrorKind.valid]
    · simp only [hf, if_true] at hk ⊢
      simp [hk]
  | none =>
    simp only [Known, hb, Option.getD_none, reduceCtorEq, true_and, false_or] at hk ⊢
    split_ifs at hk ⊢ with hv
    · rfl
    · cases hk.1

/-- A failure that was proven rolled back is reported as itself, or as an internal error. -/
theorem Fit.operationFailure (h : Fit heap P err) (hk : ∀ report, P report → Known report)
    (hp : P internal) (manager : Err) :
    Fit heap P (newTransactionOperationFailure heap err manager) := by
  unfold newTransactionOperationFailure
  have hv : (errorKindOf heap err).valid = true := by
    unfold errorKindOf
    split
    · exact governedKind_valid _
    · rfl
  refine fit_action.mpr ⟨?_, Or.inr hv, Or.inl hp⟩
  cases ha : asActionError heap err with
  | none => simpa [claimOf, surfacedCode, ha] using hp
  | some p =>
    obtain ⟨envelope, cause⟩ := p
    -- an action error is the first one of its own graph
    have hf : findActionError heap err = some (envelope, cause) := by
      rw [findActionError, walk_eq_cons heap h.1, List.findSome?_cons, ha]
    have hs := h.2
    rw [hf] at hs
    by_cases hc : envelope.code = codeInternal ∨ envelope.code = .utf8 ""
    · rcases hc with hc | hc <;> simpa [claimOf, surfacedCode, ha, hc] using hp
    · push Not at hc
      have hg := governedKind_eq (hk _ hs.1) hs.2.1 hc.1 hc.2
      have : claimOf
          { code := surfacedCode heap err, kind := errorKindOf heap err,
            message := surfacedMessage heap err } = claimOf envelope := by
        rw [← hg]
        simp [claimOf, surfacedCode, ha, hc, errorKindOf, hf, governedKind_valid]
      rw [this]
      exact hs.1

/-! ### The last gate -/

/-- An error as it leaves the runtime. -/
def Final (heap : Heap) (P : Report → Prop) (err : Err) : Prop :=
  ∃ envelope cause, findActionError heap err = some (envelope, cause) ∧
    validErrorMessage envelope.message = true ∧ P (envelope.code, envelope.kind)

theorem final_internal (hp : P internal) (cause : Err) :
    Final heap P (invalidRuntimeFailure cause) :=
  ⟨_, _, findActionError_action _ _ _ _, by decide, hp⟩

/-- The kind that the gate gives is the one of the claim. -/
theorem claimOf_of_finalKind {envelope : Envelope} {kind : ErrorKind}
    (h : Envelope.finalKind envelope = some kind) :
    validErrorMessage envelope.message = true ∧ (envelope.code, kind) = claimOf envelope := by
  have hint : builtinErrorKind codeInternal = some .internal := by decide
  have hempty : builtinErrorKind (.utf8 "") = none := by decide
  have hcustom : validCustomErrorCode (.utf8 "") = false := by decide
  unfold Envelope.finalKind at h
  split at h
  · cases h
  next hm =>
  refine ⟨by simpa using hm, ?_⟩
  unfold claimOf
  split at h
  · next k hb =>
    split at h
    · cases h
    next hne =>
    obtain rfl := Option.some.inj h
    by_cases hi : envelope.code = codeInternal
    · rw [hi, hint] at hb
      simp [hi, internal, Option.some.inj hb]
    have he : envelope.code ≠ .utf8 "" := fun he => by
      rw [he, hempty] at hb
      cases hb
    simp only [hi, he, or_self, if_false, hb, Option.getD_some]
    split
    · next hv =>
      have hu : envelope.kind ≠ .unset := fun hu => by simp [hu, ErrorKind.valid] at hv
      rw [not_and_not_right.mp hne hu]
    · rfl
  · next hb =>
    split at h
    · cases h
    next hne =>
    obtain rfl := Option.some.inj h
    push Not at hne
    have hi : envelope.code ≠ codeInternal := fun hi => by
      rw [hi, hint] at hb
      cases hb
    have he : envelope.code ≠ .utf8 "" := fun he => hne.1 (he ▸ hcustom)
    have hv : envelope.kind.valid = true := by simpa using hne.2.1
    simp [hi, he, hv]

/-- **What the last gate lets out** is what the error claims to be, or an internal error. -/
theorem Fit.finalize (h : Fit heap P err) (hk : ∀ report, P report → Known report) :
    Final heap P (finalizeRuntimeFailure heap err) := by
  unfold finalizeRuntimeFailure
  rw [if_neg h.1]
  have hs := h.2
  split
  · next hf =>
    rw [hf] at hs
    exact final_internal hs _
  next envelope cause hf =>
  rw [hf] at hs
  obtain ⟨hc, hform, hi⟩ := hs
  split
  · -- the gate stops the error
    next hg =>
    rcases hi with hi | ⟨hm, hb⟩
    · exact final_internal hi _
    · obtain ⟨kind, hb⟩ := Option.isSome_iff_exists.mp hb
      have hne : envelope.kind ≠ .unset ∧ envelope.kind ≠ kind := by
        by_contra hcon
        simp [Envelope.finalKind, hm, hb, hcon] at hg
      have hv : envelope.kind.valid = true := hform.resolve_left hne.1
      have hi : envelope.code = codeInternal ∨ envelope.code = .utf8 "" := by
        by_contra hcon
        have := hk _ hc
        simp only [claimOf, hcon, if_false, hv, if_true] at this
        rcases this with h1 | ⟨h1, -⟩
        · rw [hb] at h1
          exact hne.2 (Option.some.inj h1).symm
        · rw [hb] at h1
          cases h1
      rw [claimOf, if_pos hi] at hc
      exact final_internal hc _
  · next kind hg =>
    obtain ⟨hm, hclaim⟩ := claimOf_of_finalKind hg
    split
    · next he =>
      refine ⟨envelope, cause, hf, hm, ?_⟩
      rw [he, hclaim]
      exact hc
    · refine ⟨_, _, findActionError_action _ _ _ _, hm, ?_⟩
      show P (envelope.code, kind)
      rw [hclaim]
      exact hc

theorem finalKind_idem {envelope : Envelope} {kind : ErrorKind}
    (h : Envelope.finalKind envelope = some kind) :
    Envelope.finalKind { envelope with kind := kind } = some kind := by
  unfold Envelope.finalKind at h ⊢
  dsimp only
  split at h
  · cases h
  next hm =>
  rw [if_neg hm]
  split at h
  · next k hb =>
    split at h
    · cases h
    · obtain rfl := Option.some.inj h
      simp
  · next hb =>
    split at h
    · cases h
    · next hn =>
      obtain rfl := Option.some.inj h
      rw [if_neg hn]

/-- What has passed the gate passes it again as it is. -/
theorem finalize_idem (heap : Heap) (err : Err) :
    finalizeRuntimeFailure heap (finalizeRuntimeFailure heap err) =
      finalizeRuntimeFailure heap err := by
  have hinv : ∀ cause, finalizeRuntimeFailure heap (invalidRuntimeFailure cause) =
      invalidRuntimeFailure cause := by
    intro cause
    have hk : Envelope.finalKind
        { code := codeInternal, kind := .internal, message := .utf8 "action execution failed" } =
        some .internal := by decide
    simp [finalizeRuntimeFailure, invalidRuntimeFailure, hk]
  by_cases hn : err = .nil
  · simp [finalizeRuntimeFailure, hn]
  rw [show finalizeRuntimeFailure heap err = _ from if_neg hn]
  cases hf : findActionError heap err with
  | none => exact hinv err
  | some p =>
    obtain ⟨envelope, cause⟩ := p
    dsimp only
    cases hk : Envelope.finalKind envelope with
    | none => exact hinv err
    | some kind =>
      dsimp only
      by_cases he : envelope.kind = kind
      · simp only [he, if_true]
        rw [show finalizeRuntimeFailure heap err = _ from if_neg hn, hf]
        simp [hk, he]
      · simp only [he, if_false]
        simp [finalizeRuntimeFailure, finalKind_idem hk]

end WayOut

/-! ### What may be reported -/

/-- The report that the faults of a run allow, for an action with this descriptor. -/
structure Ruling (descriptor : Descriptor) (found : List Fault) (report : Report) : Prop where
  declared : builtinErrorKind report.1 = some report.2 ∨
    (builtinErrorKind report.1 = none ∧
      descriptorErrorKind descriptor report.1 = some report.2 ∧ report.2 ≠ .internal)
  handler : .handler ∈ found → report.2 ≠ .denied ∧
    ((builtinErrorKind report.1).isSome → report.1 ∈ codeInternal :: handlerCodes)
  denied : report.2 = .denied → .denial ∈ found
  dependency : .dependency ∈ found → report.1 = codeInternal
  missing : .planMissing ∈ found → report.1 = codePlanNotFound

theorem descriptorErrorKind_valid {descriptor : Descriptor} {code : GoString} {kind : ErrorKind}
    (h : descriptorErrorKind descriptor code = some kind) : kind.valid = true := by
  unfold descriptorErrorKind at h
  split at h
  · next k hb =>
    obtain rfl := Option.some.inj h
    exact builtin_valid hb
  · split at h
    · split at h
      · next hv =>
        obtain rfl := Option.some.inj h
        exact hv
      · cases h
    · cases h

theorem Ruling.known {descriptor : Descriptor} {found : List Fault} {report : Report}
    (h : Ruling descriptor found report) : Known report :=
  h.declared.imp_right fun hd => ⟨hd.1, descriptorErrorKind_valid hd.2.1, hd.2.2⟩

/-- An internal error may be reported after anything but a missing plan. -/
theorem ruling_internal (descriptor : Descriptor) {found : List Fault} (h : .planMissing ∉ found) :
    Ruling descriptor found internal where
  declared := Or.inl (by decide)
  handler _ := ⟨by decide, fun _ => List.mem_cons_self⟩
  denied hd := absurd hd (by decide)
  dependency _ := rfl
  missing hm := absurd hm h

/-! ### The errors of the runtime's own checks -/

/-- A built-in code that is not the one of a denial. -/
def ownCode (code : GoString) : Bool :=
  match builtinErrorKind code with
  | some kind => kind != .denied
  | none => false

/-- An error of a check: it has such a code, or none at all. -/
inductive Own : Err → Prop
  | action {serial : ℕ} {envelope : Envelope} {cause : Err} (code : ownCode envelope.code = true)
      (kind : envelope.kind = .unset ∨ builtinErrorKind envelope.code = some envelope.kind) :
      Own (.action serial envelope cause)
  | message (text : String) : Own (.message text)
  | wrapped (text text' : String) : Own (.wrapped text (.message text'))

theorem own_newError {code : GoString} (h : ownCode code = true) (message : GoString) :
    Own (newError code message) := by
  refine .action h ?_
  unfold ownCode at h
  cases hb : builtinErrorKind code with
  | none => simp [hb] at h
  | some kind => exact Or.inr (by simp)

theorem own_actionError {code : GoString} (h : ownCode code = true) (message : String)
    (cause : Err) : Own (actionError code message cause) := .action h (Or.inl rfl)

/-- An error of a check is reported as it is. -/
theorem Own.fit {err : Err} (h : Own err) (heap : Heap) {P : Report → Prop}
    (hP : ∀ report : Report, builtinErrorKind report.1 = some report.2 → report.2 ≠ .denied →
      P report) : Fit heap P err := by
  have hi : P internal := hP internal (by decide) (by decide)
  cases h with
  | action code kind =>
    next serial envelope cause =>
    refine fit_action.mpr ⟨?_, kind.imp_right builtin_valid, Or.inl hi⟩
    unfold ownCode at code
    cases hb : builtinErrorKind envelope.code with
    | none => simp [hb] at code
    | some k =>
      have hk : k ≠ .denied := by simpa [hb] using code
      unfold claimOf
      split
      · exact hi
      have hc : (if envelope.kind.valid = true then envelope.kind
          else (builtinErrorKind envelope.code).getD .unset) = k := by
        rcases kind with hu | hu
        · simp [hu, ErrorKind.valid, hb]
        · rw [hb] at hu
          have hu := Option.some.inj hu
          simp [← hu, builtin_valid hb]
      rw [hc]
      exact hP _ hb hk
  | message text => exact ⟨by simp, hi⟩
  | wrapped text text' => exact ⟨by simp, hi⟩

/-- Without a fault, any error of a check may be reported. -/
theorem ruling_of_builtin {descriptor : Descriptor} {report : Report}
    (hb : builtinErrorKind report.1 = some report.2) (hd : report.2 ≠ .denied) :
    Ruling descriptor [] report where
  declared := Or.inl hb
  handler h := absurd h (by simp)
  denied h := absurd h hd
  dependency h := absurd h (by simp)
  missing h := absurd h (by simp)

/-- Every error of the check has the property. -/
def Fails {α : Type} (P : Err → Prop) (x : Except Err α) : Prop := ∀ err, x = .error err → P err

section Checks

variable {α β : Type} {P : Err → Prop}

theorem fails_ok (a : α) : Fails P (.ok a : Except Err α) := fun _ h => by cases h

theorem fails_error {err : Err} (h : P err) : Fails P (.error err : Except Err α) :=
  fun _ he => by cases he; exact h

theorem Fails.bind {x : Except Err α} {f : α → Except Err β} (hx : Fails P x)
    (hf : ∀ a, Fails P (f a)) : Fails P (x >>= f) := by
  cases x with
  | ok a => exact hf a
  | error err => exact fails_error (hx err rfl)

variable (e : Engine)

theorem own_canonicalInput (input : RawMessage) : Fails Own (canonicalInput e input) := by
  unfold canonicalInput
  split
  · exact fails_error (own_newError rfl _)
  · exact fails_error (own_newError rfl _)
  · exact fails_error (own_actionError rfl _ _)
  · exact fails_error (.message _)
  · exact fails_error (own_newError rfl _)
  · exact fails_error (own_actionError rfl _ _)
  · exact fails_ok _

theorem own_schemaCheck (check : SchemaCheck) (h : check.err ≠ .nil) : Own check.err := by
  cases check with
  | valid => exact absurd rfl h
  | uninitialized => exact .message _
  | limit => exact own_newError rfl _
  | malformed => exact own_newError rfl _
  | evaluationLimit => exact .action rfl (Or.inr rfl)
  | evaluationError text => exact .wrapped _ _
  | mismatch => exact .action rfl (Or.inr rfl)

theorem own_canonicalHandlerJSON (value : RawMessage) (field : String) :
    Fails Own (canonicalHandlerJSON e value field) := by
  unfold canonicalHandlerJSON
  dsimp only
  split
  · exact fails_ok _
  · exact fails_error (own_actionError rfl _ _)

theorem own_hashPlan (plan : Plan) : Fails Own (hashPlan e plan) := by
  unfold hashPlan
  split
  · exact fails_error (.wrapped _ _)
  · split
    · exact fails_ok _
    · exact fails_error (.wrapped _ _)

theorem own_sealExecutionPlan (plan : Plan) (fingerprint : GoString) :
    Fails Own (sealExecutionPlan e plan fingerprint) := by
  unfold sealExecutionPlan
  split
  · exact fails_error (own_actionError rfl _ _)
  split
  · exact fails_error (own_actionError rfl _ _)
  dsimp only
  split
  · exact fails_error (own_actionError rfl _ _)
  split
  · exact fails_error (own_actionError rfl _ _)
  · exact fails_ok _

theorem own_enforceConstraints (decision : Decision) (impact : Impact) :
    Fails Own (enforceConstraints decision impact) := by
  unfold enforceConstraints
  split
  · exact fails_error (own_actionError rfl _ _)
  split
  · exact fails_error (own_newError rfl _)
  · exact fails_ok _

theorem own_validateExecutionPlanPolicy (descriptor : Descriptor) (planHash : GoString) :
    Fails Own (validateExecutionPlanPolicy descriptor planHash) := by
  unfold validateExecutionPlanPolicy
  split
  · exact fails_error (own_newError rfl _)
  split
  · exact fails_error (own_newError rfl _)
  · exact fails_ok _

theorem own_validateDeletedPlanCount (deleted : ℤ) : Fails Own (validateDeletedPlanCount deleted) := by
  unfold validateDeletedPlanCount
  split
  · exact fails_error (own_actionError rfl _ _)
  · exact fails_ok _

theorem own_ownStoredIdempotencyRecord (record : IdempotencyRecord) :
    Fails Own (ownStoredIdempotencyRecord record) := by
  unfold ownStoredIdempotencyRecord
  dsimp only
  split
  · exact fails_error (own_actionError rfl _ _)
  split
  · exact fails_error (own_actionError rfl _ _)
  split
  · exact fails_error (own_actionError rfl _ _)
  · exact fails_ok _

theorem fails_mapError {x : Except Err α} {f : Err → Err} (h : ∀ err, P (f err)) :
    Fails P (x.mapError f) := by
  cases x with
  | error err => exact fails_error (h err)
  | ok a => exact fails_ok _

theorem fails_refuseIf {c : Prop} [Decidable c] {err : Err} (h : P err) :
    Fails P (refuseIf c err) := by
  unfold refuseIf
  split
  · exact fails_error h
  · exact fails_ok _

theorem own_checkStored (expected existing : IdempotencyRecord) :
    Fails Own (checkStored e expected existing) := by
  unfold checkStored
  refine .bind (fails_mapError fun _ => own_actionError rfl _ _) fun _ => ?_
  iterate 6 refine .bind (fails_refuseIf (own_newError rfl _)) fun _ => ?_
  exact fails_mapError fun _ => own_actionError rfl _ _

theorem own_checkReplay (registered : Registration) (decision : Decision)
    (existing : IdempotencyRecord) : Fails Own (checkReplay registered decision existing) := by
  unfold checkReplay
  refine .bind (own_enforceConstraints _ _) fun _ => ?_
  refine .bind (fails_refuseIf (own_newError rfl _)) fun _ => ?_
  refine .bind (fails_mapError fun _ => own_actionError rfl _ _) fun _ => ?_
  exact .bind (fails_mapError fun _ => own_actionError rfl _ _) fun _ => fails_ok _

theorem own_checkLoaded (request : Action.Types.Request) (registered : Registration) (plan : Plan) :
    Fails Own (checkLoaded e request registered plan) := by
  unfold checkLoaded
  iterate 4 refine .bind (fails_refuseIf (own_newError rfl _)) fun _ => ?_
  exact .bind (own_canonicalInput e _) fun _ => fails_refuseIf (own_newError rfl _)

theorem own_checkCurrent (now : Time) (plan : Plan) : Fails Own (checkCurrent now plan) := by
  unfold checkCurrent
  exact .bind (fails_refuseIf (own_newError rfl _)) fun _ => fails_refuseIf (own_newError rfl _)

theorem own_invalidHandlerValue (field : String) (cause : Err) :
    Own (invalidHandlerValue field cause) := own_actionError rfl _ _

theorem own_checkPlanSizes (data : PlanData) : Fails Own (checkPlanSizes data) := by
  unfold checkPlanSizes
  refine .bind (fails_mapError fun _ => own_invalidHandlerValue _ _) fun _ => ?_
  refine .bind (fails_mapError fun _ => own_invalidHandlerValue _ _) fun _ => ?_
  exact fails_mapError fun _ => own_invalidHandlerValue _ _

theorem own_checkPlanFacts (data : PlanData) : Fails Own (checkPlanFacts data) := by
  unfold checkPlanFacts
  refine .bind (fails_mapError fun _ => own_invalidHandlerValue _ _) fun _ => ?_
  exact fails_mapError fun _ => own_invalidHandlerValue _ _

theorem own_checkPlanned (request : Action.Types.Request) (registered : Registration)
    (data : PlanData) : Fails Own (checkPlanned e request registered data) := by
  unfold checkPlanned
  refine .bind (own_checkPlanSizes data) fun _ => ?_
  refine .bind ?_ fun _ => ?_
  · split
    · exact fails_ok _
    · exact fails_mapError fun _ => own_invalidHandlerValue _ _
  refine .bind (own_checkPlanFacts data) fun _ => ?_
  exact .bind (own_canonicalInput e _) fun _ => fails_ok _

theorem own_checkPreviewed (registered : Registration) (data : PlanData) :
    Fails Own (checkPreviewed e registered data) := by
  unfold checkPreviewed
  refine .bind (own_checkPlanSizes data) fun _ => ?_
  refine .bind (fails_mapError fun _ => own_invalidHandlerValue _ _) fun _ => ?_
  refine .bind (own_canonicalHandlerJSON e _ _) fun _ => ?_
  refine .bind (own_canonicalHandlerJSON e _ _) fun _ => ?_
  exact .bind (own_checkPlanFacts data) fun _ => fails_ok _

theorem own_sealPreviewPlan (draft : Plan) : Fails Own (sealPreviewPlan e draft) := by
  unfold sealPreviewPlan
  refine .bind (own_hashPlan e draft) fun _ => ?_
  exact .bind (fails_mapError fun _ => own_actionError rfl _ _) fun _ => fails_ok _

theorem own_checkOutput (registered : Registration) (result : Result) :
    Fails Own (checkOutput registered result) := by
  unfold checkOutput
  refine .bind (fails_mapError fun _ => own_invalidHandlerValue _ _) fun _ => ?_
  refine .bind (fails_mapError fun _ => own_invalidHandlerValue _ _) fun _ => ?_
  refine .bind (fails_mapError fun _ => own_invalidHandlerValue _ _) fun _ => ?_
  exact fails_mapError fun _ => own_invalidHandlerValue _ _

theorem own_checkExecute (request : Action.Types.Request) (registered : Registration) :
    Fails Own (checkExecute e request registered) := by
  unfold checkExecute
  refine .bind (fails_refuseIf (own_newError rfl _)) fun _ => ?_
  refine .bind (own_validateExecutionPlanPolicy _ _) fun _ => ?_
  exact .bind (own_canonicalInput e _) fun _ => fails_ok _

end Checks

/-! ### The errors of calls -/

section Calls

variable (e : Engine) {descriptor : Descriptor}

theorem outcome_eq_ok {α : Type} {operation : String} {reply : Reply α} {value : α} :
    reply.outcome operation = .ok value ↔ reply = .returned value .nil := by
  cases reply with
  | returned v err =>
    by_cases h : err = .nil <;> simp [Reply.outcome, h]
  | panicked => simp [Reply.outcome]

theorem outcome_eq_error {α : Type} {operation : String} {reply : Reply α} {err : Err}
    (h : reply.outcome operation = .error err) : err ≠ .nil ∧ failed reply = true := by
  cases reply with
  | returned v err' =>
    by_cases hn : err' = .nil
    · simp [Reply.outcome, hn] at h
    · simp only [Reply.outcome, hn, if_false, Except.error.injEq] at h
      subst h
      exact ⟨hn, by simpa [failed] using hn⟩
  | panicked =>
    obtain rfl := Except.error.inj h
    exact ⟨by simp, rfl⟩

theorem dependency_eq_ok {α : Type} {operation : String} {reply : Reply α} {value : α} :
    reply.dependency operation = .ok value ↔ reply = .returned value .nil := by
  unfold Reply.dependency
  rcases h : reply.outcome operation with err | v
  · have : reply ≠ .returned value .nil := fun hr => by
      rw [outcome_eq_ok.mpr hr] at h
      cases h
    simpa using this
  · obtain rfl := outcome_eq_ok.mp h
    simp

theorem dependency_eq_error {α : Type} {operation : String} {reply : Reply α} {err : Err}
    (h : reply.dependency operation = .error err) : Internal err ∧ failed reply = true := by
  unfold Reply.dependency at h
  rcases ho : reply.outcome operation with cause | v
  · rw [ho] at h
    obtain rfl := Except.error.inj h
    exact ⟨⟨_, _, rfl⟩, (outcome_eq_error ho).2⟩
  · rw [ho] at h
    cases h

/-- What the handler's error is reported as. -/
theorem fit_normalizeHandlerFailure {err : Err} (hn : err ≠ .nil) :
    Fit e.heap (Ruling descriptor [.handler]) (normalizeHandlerFailure e.heap err descriptor) := by
  have hi : Ruling descriptor [.handler] internal := ruling_internal descriptor (by decide)
  have hinv : Fit e.heap (Ruling descriptor [.handler]) (invalidHandlerFailure err) :=
    fit_action.mpr ⟨by simpa [claimOf] using hi, Or.inr rfl, Or.inl hi⟩
  unfold normalizeHandlerFailure
  rw [if_neg hn]
  split
  · exact hinv
  next envelope cause hu =>
  split
  · exact hinv
  next kind hk =>
  split
  · exact hinv
  have hv : kind.valid = true ∧ Ruling descriptor [.handler] (envelope.code, kind) := by
    unfold handlerErrorKind at hk
    split at hk
    · next k hb =>
      split at hk
      · next hm =>
        obtain rfl := Option.some.inj hk
        have hd : k ≠ .denied := by
          have hall : ∀ c ∈ handlerCodes, builtinErrorKind c ≠ some .denied := by decide
          rintro rfl
          exact hall _ hm hb
        exact ⟨builtin_valid hb,
          { declared := Or.inl hb
            handler := fun _ => ⟨hd, fun _ => List.mem_cons_of_mem _ hm⟩
            denied := fun h => absurd h hd
            dependency := fun h => absurd h (by decide)
            missing := fun h => absurd h (by decide) }⟩
      · cases hk
    · next hb =>
      split at hk
      · next k hd =>
        split at hk
        · cases hk
        · next hne =>
          obtain rfl := Option.some.inj hk
          push Not at hne
          exact ⟨descriptorErrorKind_valid hd,
            { declared := Or.inr ⟨hb, hd, hne.2⟩
              handler := fun _ => ⟨hne.1, fun h => by simp [hb] at h⟩
              denied := fun h => absurd h hne.1
              dependency := fun h => absurd h (by decide)
              missing := fun h => absurd h (by decide) }⟩
      · cases hk
  refine fit_action.mpr ⟨?_, Or.inr hv.1, Or.inl hi⟩
  unfold claimOf
  split
  · exact hi
  · simpa [hv.1] using hv.2

/-- An allowed decision is allowed as the authorizer gave it, and the fingerprint that it lacks is
the fallback. -/
theorem normalizeDecision_ok {decision normalized : Decision} {fallback : GoString}
    (h : normalizeDecision decision descriptor fallback = .ok normalized) :
    normalized.allowed = decision.allowed ∧ normalized.maxRows = decision.maxRows ∧
      normalized.fingerprint =
        (if decision.fingerprint = .utf8 "" then fallback else decision.fingerprint) ∧
      normalized.fingerprint ≠ .utf8 "" ∧
      (normalized.allowed = false →
        descriptorErrorKind descriptor normalized.code = some .denied) := by
  unfold normalizeDecision at h
  obtain ⟨_, -, h⟩ := bind_eq_ok.mp h
  obtain ⟨_, -, h⟩ := bind_eq_ok.mp h
  obtain ⟨_, hf, h⟩ := bind_eq_ok.mp h
  obtain ⟨_, -, h⟩ := bind_eq_ok.mp h
  obtain ⟨_, -, h⟩ := bind_eq_ok.mp h
  have hne : (if decision.fingerprint = .utf8 "" then fallback else decision.fingerprint) ≠
      .utf8 "" := by
    obtain ⟨_, hf, -⟩ := bind_eq_ok.mp hf
    obtain ⟨s, hs, hr, -⟩ := validateText_ok hf
    rw [hs]
    simpa using hr rfl
  dsimp only at h
  by_cases ha : decision.allowed = true
  · rw [if_pos ha] at h
    obtain ⟨_, -, h⟩ := bind_eq_ok.mp h
    obtain rfl := Except.ok.inj h
    exact ⟨rfl, rfl, rfl, hne, fun hd => absurd (ha.symm.trans hd) (by simp)⟩
  · rw [if_neg ha] at h
    obtain ⟨_, -, h⟩ := bind_eq_ok.mp h
    obtain ⟨_, hd, h⟩ := bind_eq_ok.mp h
    obtain rfl := Except.ok.inj h
    exact ⟨rfl, rfl, rfl, hne, fun _ => by simpa using refuseIf_eq_ok.mp hd⟩

/-- What the runtime takes for an allowed decision. -/
structure Allows (descriptor : Descriptor) (fallback : GoString) (given decision : Decision) :
    Prop where
  allowed : given.allowed = true
  maxRows : decision.maxRows = given.maxRows
  fingerprint : decision.fingerprint =
    if given.fingerprint = .utf8 "" then fallback else given.fingerprint
  fingerprint_ne : decision.fingerprint ≠ .utf8 ""

theorem judge_ok {request : Action.Types.Request} {fallback : GoString} {reply : Reply Decision}
    {decision : Decision} (h : judge e request descriptor fallback reply = .ok decision) :
    ∃ given, reply = .returned given .nil ∧ Allows descriptor fallback given decision := by
  unfold judge at h
  split at h
  · cases h
  next given hr =>
  split at h
  · cases h
  next normalized hn =>
  split at h
  · next ha =>
    obtain rfl := Except.ok.inj h
    obtain ⟨h1, h2, h3, h4, -⟩ := normalizeDecision_ok hn
    exact ⟨given, dependency_eq_ok.mp hr, h1 ▸ ha, h2, h3, h4⟩
  · cases h

theorem planMissing_authorizeFault (reply : Reply Decision) :
    .planMissing ∉ (authorizeFault reply).toList := by
  cases reply with
  | panicked => simp [authorizeFault]
  | returned decision err =>
    simp only [authorizeFault]
    split_ifs <;> simp

theorem judge_error {request : Action.Types.Request} {fallback : GoString} {reply : Reply Decision}
    {err : Err} (h : judge e request descriptor fallback reply = .error err) :
    Fit e.heap (Ruling descriptor (authorizeFault reply).toList) err := by
  have hi : Ruling descriptor (authorizeFault reply).toList internal :=
    ruling_internal descriptor (planMissing_authorizeFault reply)
  unfold judge at h
  split at h
  · next cause hd =>
    obtain rfl := Except.error.inj h
    exact (Fit.of_internal hi (dependency_eq_error hd).1).withRequest _ _
  next given hr =>
  obtain rfl := dependency_eq_ok.mp hr
  split at h
  · obtain rfl := Except.error.inj h
    exact (Fit.of_internal hi ⟨_, _, rfl⟩).withRequest _ _
  next decision hn =>
  split at h
  · cases h
  next ha =>
  obtain rfl := Except.error.inj h
  obtain ⟨h1, -, -, -, h5⟩ := normalizeDecision_ok hn
  have hd := h5 (by simpa using ha)
  have hg : given.allowed = false := by rw [← h1]; simpa using ha
  have hf : authorizeFault (.returned given .nil) = some .denial := by
    simp [authorizeFault, hg]
  refine Fit.withRequest (fit_action.mpr ?_) _ _
  rw [hd]
  refine ⟨?_, Or.inr rfl, Or.inl hi⟩
  unfold claimOf
  split
  · exact hi
  · rw [hf]
    have hdecl : builtinErrorKind decision.code = some .denied ∨
        (builtinErrorKind decision.code = none ∧
          descriptorErrorKind descriptor decision.code = some .denied ∧
          ErrorKind.denied ≠ .internal) := by
      cases hb : builtinErrorKind decision.code with
      | none => exact Or.inr ⟨rfl, hd, by decide⟩
      | some kind =>
        rw [descriptorErrorKind, hb] at hd
        exact Or.inl hd
    exact
      { declared := hdecl
        handler := fun h => absurd h (by decide)
        denied := fun _ => by decide
        dependency := fun h => absurd h (by decide)
        missing := fun h => absurd h (by decide) }

end Calls

end Modary.Runtime.Faults
