import Modary.Validation.Evaluation

/-! # Answers

`ValidateFlag` and `ValidateManyFlag` of `internal/jsonschema/engine/validation.go`. There is an
answer exactly when the judgement of the values is within the budget, and it is the one of the
judgement; otherwise the call ends with an error, which names a limit that the judgement exceeds. -/

namespace Modary.Validation

open Modary.Lib.JsonNumber Modary.Lib.JsonValue

variable {ρ : Type}

/-! ### The recursion -/

theorem enterFrame_eq {budget : EvaluationBudget} (h : budget.Sound) :
    budget.enterFrame =
      if budget.limits.maxFrames < budget.frames + 1 then
        .error { budget with
          frames := budget.frames + 1
          exhausted := some ⟨.activeFrames, budget.limits.maxFrames⟩ }
      else .ok { budget with frames := budget.frames + 1 } := by
  have hadd : saturatingAdd budget.frames 1 = budget.frames + 1 := by
    have hle := h.frames_le
    have hlt := h.frames_lt
    rw [saturatingAdd_eq (by omega)]
    omega
  unfold EvaluationBudget.enterFrame
  simp only [hadd]

/-- Inside of its frame a schema takes one frame less. -/
theorem settles_leaving {budget : EvaluationBudget} {j : Judgement} {room : ℕ}
    {Q : Result → Prop} {e : Except Abort (Result × Machine)}
    (h : Settles { budget with frames := budget.frames + 1 } j room Q e) :
    Settles budget j.nested (room + 1) Q (leaving e) := by
  rcases e with (final | _) | ⟨result, m⟩
  · obtain ⟨hnone, hsome⟩ := h
    refine ⟨hnone, fun err herr => ?_⟩
    cases hsome err herr with
    | work h => exact .work h
    | diagnostics h => exact .diagnostics h
    | frames h =>
      simp only at h
      refine .frames ?_
      show _ < budget.frames + (j.frames + 1)
      omega
  · have h' : budget.frames + 1 + room < budget.limits.maxFrames := h
    show budget.frames + (room + 1) < budget.limits.maxFrames
    omega
  · obtain ⟨hwithin, hbudget, hpost⟩ := h
    have hframes : budget.frames + 1 + j.frames ≤ budget.limits.maxFrames := hwithin.frames
    refine ⟨⟨hwithin.work, hwithin.diagnostics, ?_, hwithin.calm⟩, ?_, hpost⟩
    · show budget.frames + (j.frames + 1) ≤ _
      omega
    · simp only at hbudget
      show m.budget.leaveFrame = _
      rw [hbudget]
      rfl

/-- **Every schema takes its judgement**, whatever the depth of the stack. -/
theorem judged_visit (lib : Library) (schemas : ρ → SubSchema ρ) (orders : Orders) :
    ∀ fuel, Judged (visit (evaluate lib schemas) orders fuel) fuel (judge lib schemas fuel)
  | 0 => by
    intro current node result m hsound
    rw [visit, enterFrame_eq hsound]
    by_cases hover : m.budget.limits.maxFrames < m.budget.frames + 1
    · rw [if_pos hover]
      refine ⟨fun hnone => (by cases hnone), fun err herr => ?_⟩
      cases herr
      exact .frames hover
    · rw [if_neg hover]
      show m.budget.frames + 0 < m.budget.limits.maxFrames
      omega
  | fuel + 1 => by
    intro current node result m hsound
    rw [visit, enterFrame_eq hsound, judge]
    by_cases hover : m.budget.limits.maxFrames < m.budget.frames + 1
    · rw [if_pos hover]
      refine ⟨fun hnone => (by cases hnone), fun err herr => ?_⟩
      cases herr
      refine .frames ?_
      show _ < m.budget.frames + (_ + 1)
      omega
    · rw [if_neg hover]
      refine settles_leaving ?_
      have hframes : m.budget.frames + 1 ≤ m.budget.limits.maxFrames := by omega
      have hbody : Adds orders (visit (evaluate lib schemas) orders fuel) fuel
          (evaluate lib schemas current node)
          (judgeBody lib (judge lib schemas fuel) schemas current node) :=
        adds_evaluate (judged_visit lib schemas orders fuel) lib schemas current node
      exact hbody result { m with budget := { m.budget with frames := m.budget.frames + 1 } }
        ⟨hsound.work_le, hsound.diagnostics_le, hframes, hsound.work_lt, hsound.diagnostics_lt,
          hsound.frames_lt, hsound.fresh⟩

/-! ### Several values -/

/-- `Schema`, as it is evaluated. -/
structure Schema (ρ : Type) where
  rootSchema : ρ
  schemas : ρ → SubSchema ρ

/-- Why there is no answer. -/
inductive ValidateError
  | limits
  | limit (err : LimitError)
  | panicked
  deriving DecidableEq, Repr

/-- The text of an error. -/
def ValidateError.message : ValidateError → String
  | .limits => "JSON Schema evaluation limits must be positive"
  | .limit err => err.message
  | .panicked => "JSON Schema validator panicked"

/-- How a call ends. -/
inductive Outcome
  | answer (valid : Bool)
  | refused (err : ValidateError)
  /-- The stack grows until the runtime gives up, which nothing recovers from. -/
  | overflow
  deriving DecidableEq, Repr

section Calls

variable (lib : Library) (schema : Schema ρ) (orders : Orders) (stack : ℕ)

/-- The loop over the roots. -/
def validateRoots : List (Json Number) → Machine → Except Abort (Bool × Machine)
  | [], m => .ok (true, m)
  | root :: roots, m =>
    match visit (evaluate lib schema.schemas) orders stack schema.rootSchema root ⟨false, 0⟩ m with
    | .error e => .error e
    | .ok reply => if reply.1.valid then validateRoots roots reply.2 else .ok (false, reply.2)

/-- `validateManyFlag`, with its deferred `recover`. -/
def validateManyFlag (roots : List (Json Number)) (budget : EvaluationBudget) : Outcome :=
  match validateRoots lib schema orders stack roots ⟨budget, 0⟩ with
  | .ok reply => .answer reply.1
  | .error (.panicked final) =>
    match final.exhausted with
    | some err => .refused (.limit err)
    | none => .refused .panicked
  | .error .overflow => .overflow

/-- `ValidateManyFlag`, on a stack that holds so many calls. -/
def ValidateManyFlag (roots : List (Json Number)) (limits : Budget) : Outcome :=
  match newEvaluationBudget limits with
  | none => .refused .limits
  | some budget => validateManyFlag lib schema orders stack roots budget

/-- `ValidateFlag`. -/
def ValidateFlag (root : Json Number) (limits : Budget) : Outcome :=
  ValidateManyFlag lib schema orders stack [root] limits

/-- What the values take, up to the first that is not valid. -/
def judgeRoots : List (Json Number) → Judgement
  | [] => 0
  | root :: roots =>
    judge lib schema.schemas stack schema.rootSchema root +
      if (judge lib schema.schemas stack schema.rootSchema root).invalid = true then 0
      else judgeRoots roots

end Calls

/-- The limits of a call, where they are given. -/
structure Budget.Valid (limits : Budget) : Prop where
  work_pos : 0 < limits.maxWorkUnits
  diagnostics_pos : 0 < limits.maxDiagnostics
  work_lt : limits.maxWorkUnits ≤ maxUint64
  diagnostics_lt : limits.maxDiagnostics ≤ maxUint64
  frames_lt : limits.maxFrames < maxUint64

/-- `MaxFrames`, or its default. -/
def Budget.frames (limits : Budget) : ℕ :=
  if limits.maxFrames = 0 then defaultMaxEvaluationFrames else limits.maxFrames

/-- The budget that a call starts with. -/
def Budget.start (limits : Budget) : EvaluationBudget :=
  ⟨{ limits with maxFrames := limits.frames }, 0, 0, 0, none⟩

theorem newEvaluationBudget_eq {limits : Budget} (h : limits.Valid) :
    newEvaluationBudget limits = some limits.start := by
  have hwork := h.work_pos
  have hdiagnostics := h.diagnostics_pos
  rw [newEvaluationBudget, if_neg (by omega)]
  rfl

theorem start_sound {limits : Budget} (h : limits.Valid) : limits.start.Sound := by
  refine ⟨Nat.zero_le _, Nat.zero_le _, Nat.zero_le _, h.work_lt, h.diagnostics_lt, ?_, rfl⟩
  have hlt := h.frames_lt
  show limits.frames < maxUint64
  unfold Budget.frames defaultMaxEvaluationFrames maxUint64 at *
  split_ifs <;> omega

section Results

variable (lib : Library) (schema : Schema ρ) (orders : Orders) (stack : ℕ)

theorem settles_validateRoots : ∀ (roots : List (Json Number)) (m : Machine), m.budget.Sound →
    Settles m.budget (judgeRoots lib schema stack roots) stack
      (fun valid => valid = !(judgeRoots lib schema stack roots).invalid)
      (validateRoots lib schema orders stack roots m)
  | [], m, hsound => ⟨within_zero hsound, (spend_zero hsound).symm, rfl⟩
  | root :: roots, m, hsound => by
    have hfirst := judged_visit lib schema.schemas orders stack schema.rootSchema root ⟨false, 0⟩ m
      hsound
    rw [validateRoots, judgeRoots]
    cases hvisit : visit (evaluate lib schema.schemas) orders stack schema.rootSchema root
        ⟨false, 0⟩ m with
    | error e =>
      rw [hvisit] at hfirst
      exact Refused.left hfirst
    | ok reply =>
      rw [hvisit] at hfirst
      obtain ⟨hwithin, hbudget, hinvalid⟩ := hfirst
      rw [Bool.false_or] at hinvalid
      have hsound' : reply.2.budget.Sound := by
        rw [hbudget]
        exact hwithin.sound hsound
      rw [← hinvalid]
      show Settles _ _ _ _ (if (!reply.1.invalid) = true then _ else _)
      cases hcase : reply.1.invalid with
      | true =>
        simp only [Bool.not_true, Bool.false_eq_true, if_false, if_true, add_zero]
        rw [← hinvalid, hcase]
        exact ⟨hwithin, hbudget, rfl⟩
      | false =>
        simp only [Bool.not_false, Bool.false_eq_true, if_false, if_true]
        have hrest := settles_validateRoots roots reply.2 hsound'
        rw [hbudget] at hrest
        cases hloop : validateRoots lib schema orders stack roots reply.2 with
        | error e =>
          rw [hloop] at hrest
          exact Refused.right hrest
        | ok last =>
          rw [hloop] at hrest
          obtain ⟨hwithin', hbudget', hvalid⟩ := hrest
          refine ⟨hwithin.add hwithin', hbudget'.trans spend_spend, ?_⟩
          rw [Judgement.invalid_add, ← hinvalid, hcase, Bool.false_or]
          exact hvalid

/-! ### Stacks -/

variable {lib schema orders stack}

theorem validateRoots_le {more : ℕ} (hle : stack ≤ more) :
    ∀ (roots : List (Json Number)) (m : Machine),
      validateRoots lib schema orders stack roots m ≠ .error .overflow →
        validateRoots lib schema orders more roots m =
          validateRoots lib schema orders stack roots m
  | [], _, _ => rfl
  | root :: roots, m, h => by
    have hvisit : visit (evaluate lib schema.schemas) orders stack schema.rootSchema root ⟨false, 0⟩ m
        ≠ .error .overflow := by
      intro hover
      rw [validateRoots, hover] at h
      exact h rfl
    rw [validateRoots] at h
    rw [validateRoots, validateRoots, visit_le hle hvisit]
    cases hreply : visit (evaluate lib schema.schemas) orders stack schema.rootSchema root
        ⟨false, 0⟩ m with
    | error e => rfl
    | ok reply =>
      rw [hreply] at h
      simp only at h ⊢
      split_ifs at h ⊢
      · exact validateRoots_le hle roots reply.2 h
      · rfl

/-- The loop is not stopped by the stack. -/
theorem validateRoots_ne {limits : Budget} (h : limits.Valid) (hstack : limits.frames ≤ stack)
    (roots : List (Json Number)) :
    validateRoots lib schema orders stack roots ⟨limits.start, 0⟩ ≠ .error .overflow := by
  intro hover
  have hsettles := settles_validateRoots lib schema orders stack roots ⟨limits.start, 0⟩
    (start_sound h)
  rw [hover] at hsettles
  have hroom : 0 + stack < limits.frames := hsettles
  omega

/-- A stack for all the frames of the budget is as good as any. -/
theorem ValidateManyFlag_stack {limits : Budget} (h : limits.Valid)
    (hstack : limits.frames ≤ stack) (roots : List (Json Number)) :
    ValidateManyFlag lib schema orders stack roots limits =
      ValidateManyFlag lib schema orders limits.frames roots limits := by
  rw [ValidateManyFlag, ValidateManyFlag, newEvaluationBudget_eq h]
  simp only [validateManyFlag]
  rw [validateRoots_le hstack roots _ (validateRoots_ne h le_rfl roots)]

/-! ### Answers and refusals -/

/-- What an error says about the judgement of the values. -/
def Explains (limits : Budget) (j : Judgement) : ValidateError → Prop
  | .limits => False
  | .limit err => Exceeded limits.start j err
  | .panicked => j.panics = true

theorem Explains.not_within {limits : Budget} {j : Judgement} {err : ValidateError}
    (h : Explains limits j err) : ¬ Within limits.start j := by
  intro hwithin
  cases err with
  | limits => exact h
  | limit err => exact Exceeded.not_within h hwithin
  | panicked => exact absurd (hwithin.calm.symm.trans h) Bool.false_ne_true

variable (lib schema orders) in
/-- There is an answer, that of the judgement, or an error that the judgement explains. -/
theorem ValidateManyFlag_cases {limits : Budget} (h : limits.Valid)
    (hstack : limits.frames ≤ stack) (roots : List (Json Number)) :
    (ValidateManyFlag lib schema orders stack roots limits =
        .answer (!(judgeRoots lib schema stack roots).invalid) ∧
      Within limits.start (judgeRoots lib schema stack roots)) ∨
    ∃ err, ValidateManyFlag lib schema orders stack roots limits = .refused err ∧
      Explains limits (judgeRoots lib schema stack roots) err := by
  have hsettles := settles_validateRoots lib schema orders stack roots ⟨limits.start, 0⟩
    (start_sound h)
  rw [ValidateManyFlag, newEvaluationBudget_eq h]
  simp only [validateManyFlag]
  rcases hloop : validateRoots lib schema orders stack roots ⟨limits.start, 0⟩ with
    (final | _) | ⟨valid, m⟩
  · rw [hloop] at hsettles
    obtain ⟨hnone, hsome⟩ := hsettles
    right
    cases hexhausted : final.exhausted with
    | none => exact ⟨.panicked, by simp only [hexhausted], hnone hexhausted⟩
    | some err => exact ⟨.limit err, by simp only [hexhausted], hsome err hexhausted⟩
  · exact absurd hloop (validateRoots_ne h hstack roots)
  · rw [hloop] at hsettles
    obtain ⟨hwithin, -, hvalid⟩ := hsettles
    left
    refine ⟨?_, hwithin⟩
    simp only at hvalid ⊢
    rw [hvalid]

/-- **The end of a call.** It answers exactly when the judgement of the values is within its
limits, and then with what the judgement says. An error names a limit that the judgement exceeds,
or there is a panic in the judgement; the stack does not overflow. -/
theorem call_ends {limits : Budget} (h : limits.Valid) (hstack : limits.frames ≤ stack)
    (roots : List (Json Number)) :
    (∀ valid, ValidateManyFlag lib schema orders stack roots limits = .answer valid ↔
      Within limits.start (judgeRoots lib schema limits.frames roots) ∧
        valid = !(judgeRoots lib schema limits.frames roots).invalid) ∧
    (∀ err, ValidateManyFlag lib schema orders stack roots limits = .refused err →
      Explains limits (judgeRoots lib schema limits.frames roots) err) ∧
    ValidateManyFlag lib schema orders stack roots limits ≠ .overflow := by
  rw [ValidateManyFlag_stack h hstack]
  rcases ValidateManyFlag_cases lib schema orders h le_rfl roots with
    ⟨hanswer, hwithin⟩ | ⟨err, hrefused, hexplains⟩
  · rw [hanswer]
    refine ⟨fun valid => ?_, fun err herr => (by cases herr), fun hover => (by cases hover)⟩
    rw [Outcome.answer.injEq]
    exact ⟨fun hvalid => ⟨hwithin, hvalid.symm⟩, fun hboth => hboth.2.symm⟩
  · rw [hrefused]
    refine ⟨fun valid => ⟨fun heq => (by cases heq), fun hboth => ?_⟩, fun err' herr => ?_,
      fun hover => (by cases hover)⟩
    · exact absurd hboth.1 hexplains.not_within
    · cases herr
      exact hexplains

/-! ### Other orders, other budgets -/

/-- One budget gives nothing more than the other. -/
structure Budget.AtMost (limits limits' : Budget) : Prop where
  work : limits.maxWorkUnits ≤ limits'.maxWorkUnits
  diagnostics : limits.maxDiagnostics ≤ limits'.maxDiagnostics
  frames : limits.frames ≤ limits'.frames

theorem Within.mono {limits limits' : Budget} (h : limits.AtMost limits') {j : Judgement}
    (hwithin : Within limits.start j) : Within limits'.start j where
  work := le_trans hwithin.work h.work
  diagnostics := le_trans hwithin.diagnostics h.diagnostics
  frames := le_trans hwithin.frames h.frames
  calm := hwithin.calm

/-- **One answer.** Where a call has answered, no other call for the same values, with its own
budget, with a stack for it and with maps gone through in other orders, answers otherwise. It may
have no answer; with at least the budget of the first it has that one. -/
theorem one_answer {limits limits' : Budget} {orders' : Orders} {stack' : ℕ}
    {roots : List (Json Number)} {valid : Bool} (h : limits.Valid) (h' : limits'.Valid)
    (hstack : limits.frames ≤ stack) (hstack' : limits'.frames ≤ stack')
    (hanswer : ValidateManyFlag lib schema orders stack roots limits = .answer valid) :
    (ValidateManyFlag lib schema orders' stack' roots limits' = .answer valid ∨
      ∃ err, ValidateManyFlag lib schema orders' stack' roots limits' = .refused err ∧
        err ≠ .limits) ∧
    (limits.AtMost limits' →
      ValidateManyFlag lib schema orders' stack' roots limits' = .answer valid) := by
  have hdeep : limits.frames ≤ max limits.frames limits'.frames := le_max_left _ _
  have hdeep' : limits'.frames ≤ max limits.frames limits'.frames := le_max_right _ _
  rw [ValidateManyFlag_stack h hstack, ← ValidateManyFlag_stack h hdeep] at hanswer
  rw [ValidateManyFlag_stack h' hstack', ← ValidateManyFlag_stack h' hdeep']
  -- both calls on one stack: their judgements are the same
  rcases ValidateManyFlag_cases lib schema orders h hdeep roots with ⟨hfirst, hwithin⟩ | ⟨err, hrefused, -⟩
  · rw [hfirst, Outcome.answer.injEq] at hanswer
    rw [← hanswer]
    rcases ValidateManyFlag_cases lib schema orders' h' hdeep' roots with ⟨hsecond, -⟩ | ⟨err, hrefused, hexplains⟩
    · exact ⟨.inl hsecond, fun _ => hsecond⟩
    · refine ⟨.inr ⟨err, hrefused, ?_⟩, fun hle => ?_⟩
      · rintro rfl
        exact hexplains
      · exact absurd (hwithin.mono hle) hexplains.not_within
  · rw [hrefused] at hanswer
    cases hanswer

end Results

/-! ### Calls on one schema -/

section Sample

/-- `additionalProperties: false` over two properties, one with a limit and one recursive. -/
def sampleSchema : Schema (Fin 3) where
  rootSchema := 0
  schemas := fun pointer =>
    if pointer = 0 then
      { properties := [("a", 1), ("b", 2)], additionalProperties := some (.flag false) }
    else if pointer = 1 then { types := [.string], minLength := some 2 }
    else { refSchema := some 0 }

def sampleLibrary : Library := ⟨fun _ _ => false, fun _ _ => true, fun _ => none⟩

/-- Every map is gone through from its start. -/
def sampleOrders : Orders := fun _ _ => 1

/-- Every map is gone through from its end. -/
def sampleReversed : Orders := fun _ _ => Fin.revPerm

def sampleValue : Json Number := .obj [("b", .obj [("a", .str "x")]), ("a", .str "yes")]

theorem valid_sample (work : ℕ) (h : 0 < work) (hle : work ≤ 100) :
    (⟨work, 8, 4⟩ : Budget).Valid := by
  have hmax : maxUint64 = 18446744073709551615 := rfl
  exact ⟨h, show 0 < 8 by omega, show work ≤ maxUint64 by omega, show 8 ≤ maxUint64 by omega,
    show 4 < maxUint64 by omega⟩

theorem one_answer_sample :
    ValidateManyFlag sampleLibrary sampleSchema sampleReversed 9 [sampleValue] ⟨64, 8, 4⟩ =
      .answer false :=
  (one_answer (valid_sample 26 (by decide) (by decide)) (valid_sample 64 (by decide) (by decide))
    (by decide) (by decide)
    (show ValidateManyFlag sampleLibrary sampleSchema sampleOrders 4 [sampleValue] ⟨26, 8, 4⟩ =
      .answer false by decide +kernel)).2 ⟨by decide, by decide, by decide⟩

/-- `dependencies`, which are for objects only. -/
def dependentSchema : Schema (Fin 1) where
  rootSchema := 0
  schemas := fun _ => { dependencies := [("a", .names ["b"])] }

/-- `1e1000001`, whose exponent `SetString` refuses. -/
def excessive : Number :=
  ⟨false, ['1'], none, some ⟨false, none, "1000001".toList⟩, by decide, by decide, by decide⟩

/-- A call without the work it takes, the same call with it, and one that panics: dependencies read a
number that `SetString` refuses. -/
theorem call_ends_sample :
    (∃ err, ValidateManyFlag sampleLibrary sampleSchema sampleOrders 4 [sampleValue] ⟨25, 8, 4⟩ =
        .refused err ∧ Explains ⟨25, 8, 4⟩ (judgeRoots sampleLibrary sampleSchema 4 [sampleValue])
          err) ∧
    Within (⟨26, 8, 4⟩ : Budget).start (judgeRoots sampleLibrary sampleSchema 4 [sampleValue]) ∧
    (ValidateManyFlag sampleLibrary dependentSchema sampleOrders 4 [.num excessive]
        ⟨10000000000000, 8, 4⟩ = .refused .panicked ∧
      (judgeRoots sampleLibrary dependentSchema 4 [.num excessive]).panics = true) := by
  refine ⟨⟨.limit ⟨.workUnits, 25⟩, by decide +kernel, ?_⟩, ?_, ?_⟩
  · exact (call_ends (valid_sample 25 (by decide) (by decide)) (by decide) [sampleValue]).2.1 _
      (show ValidateManyFlag sampleLibrary sampleSchema sampleOrders 4 [sampleValue] ⟨25, 8, 4⟩ =
        .refused (.limit ⟨.workUnits, 25⟩) by decide +kernel)
  · exact (((call_ends (valid_sample 26 (by decide) (by decide)) (by decide) [sampleValue]).1
      false).mp (show ValidateManyFlag sampleLibrary sampleSchema sampleOrders 4 [sampleValue]
        ⟨26, 8, 4⟩ = .answer false by decide +kernel)).1
  · have hpanics : ValidateManyFlag sampleLibrary dependentSchema sampleOrders 4 [.num excessive]
        ⟨10000000000000, 8, 4⟩ = .refused .panicked := by decide +kernel
    exact ⟨hpanics, (call_ends ⟨by decide, by decide, by decide, by decide, by decide⟩ (by decide)
      [.num excessive]).2.1 _ hpanics⟩

end Sample

end Modary.Validation
