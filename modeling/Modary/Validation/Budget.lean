import Mathlib.Algebra.BigOperators.Group.List.Basic
import Mathlib.Data.Nat.Size
import Mathlib.Order.Lattice.Nat
import Modary.Lib.JsonText

/-! # The evaluation budget

`internal/jsonschema/engine/budget.go`: one call of the validator has a number of work units, of
diagnostics and of active frames, counted with saturation. A `Judgement` is what a part of an
evaluation takes from the budget and adds to the result; judgements are added up in any order. -/

namespace Modary.Validation

open Modary.Lib.JsonNumber Modary.Lib.JsonText

/-! ### Saturation -/

/-- `math.MaxUint64`. -/
def maxUint64 : ℕ := 2 ^ 64 - 1

/-- `saturatingAdd`. -/
def saturatingAdd (left right : ℕ) : ℕ :=
  if maxUint64 - left < right then maxUint64 else left + right

/-- `saturatingMultiply`. -/
def saturatingMultiply (left right : ℕ) : ℕ :=
  if left = 0 ∨ right = 0 then 0
  else if maxUint64 / right < left then maxUint64
  else left * right

theorem saturatingAdd_eq {left : ℕ} (h : left ≤ maxUint64) (right : ℕ) :
    saturatingAdd left right = min (left + right) maxUint64 := by
  unfold saturatingAdd
  split_ifs with hover
  · have hle : maxUint64 ≤ left + right := by omega
    exact (min_eq_right hle).symm
  · have hle : left + right ≤ maxUint64 := by omega
    exact (min_eq_left hle).symm

/-! ### What things cost -/

/-- `numberWork`. -/
def numberWork (value : Number) : ℕ :=
  let digits := value.text.length
  let work := saturatingAdd 1 (saturatingMultiply digits digits)
  match value.exponent with
  | none => work
  | some e =>
    let exponent := digitsNumber e.digits
    -- `strconv.ParseUint` fails
    if maxUint64 < exponent then maxUint64
    else saturatingAdd work (saturatingMultiply exponent exponent)

/-- `regexpWork`. -/
def regexpWork (expressionBytes valueBytes : ℕ) : ℕ :=
  saturatingAdd 1
    (saturatingMultiply (saturatingAdd 1 expressionBytes) (saturatingAdd 1 valueBytes))

/-- `sortWork`. -/
def sortWork (length : ℕ) : ℕ :=
  if length < 2 then length else saturatingMultiply length length.size

/-! ### The budget -/

/-- `DefaultMaxEvaluationFrames`. -/
def defaultMaxEvaluationFrames : ℕ := 4096

/-- `Budget`. -/
structure Budget where
  maxWorkUnits : ℕ
  maxDiagnostics : ℕ
  maxFrames : ℕ
  deriving DecidableEq, Repr

/-- What a call can run out of. -/
inductive Resource
  | workUnits
  | generatedDiagnostics
  | activeFrames
  deriving DecidableEq, Repr

/-- The name of a resource in an error. -/
def Resource.text : Resource → String
  | .workUnits => "work units"
  | .generatedDiagnostics => "generated diagnostics"
  | .activeFrames => "active frames"

/-- `LimitError`. -/
structure LimitError where
  resource : Resource
  limit : ℕ
  deriving DecidableEq, Repr

/-- `(*LimitError).Error`. -/
def LimitError.message (err : LimitError) : String :=
  "JSON Schema evaluation limit exceeded: " ++ err.resource.text ++ " exceeds " ++
    toString err.limit

/-- `evaluationBudget`. -/
structure EvaluationBudget where
  limits : Budget
  work : ℕ
  diagnostics : ℕ
  frames : ℕ
  exhausted : Option LimitError
  deriving DecidableEq, Repr

/-- `newEvaluationBudget`. -/
def newEvaluationBudget (limits : Budget) : Option EvaluationBudget :=
  if limits.maxWorkUnits = 0 ∨ limits.maxDiagnostics = 0 then none
  else
    let maxFrames :=
      if limits.maxFrames = 0 then defaultMaxEvaluationFrames else limits.maxFrames
    some ⟨{ limits with maxFrames := maxFrames }, 0, 0, 0, none⟩

namespace EvaluationBudget

variable (budget : EvaluationBudget)

/-- `consumeWork`; an error is the budget that it panics with. -/
def consumeWork (units : ℕ) : Except EvaluationBudget EvaluationBudget :=
  if units = 0 then .ok budget
  else
    let budget := { budget with work := saturatingAdd budget.work units }
    if budget.limits.maxWorkUnits < budget.work then
      .error { budget with exhausted := some ⟨.workUnits, budget.limits.maxWorkUnits⟩ }
    else .ok budget

/-- `consumeDiagnostic`. -/
def consumeDiagnostic : Except EvaluationBudget EvaluationBudget :=
  let budget := { budget with diagnostics := saturatingAdd budget.diagnostics 1 }
  if budget.limits.maxDiagnostics < budget.diagnostics then
    .error { budget with
      exhausted := some ⟨.generatedDiagnostics, budget.limits.maxDiagnostics⟩ }
  else .ok budget

/-- `enterFrame`. -/
def enterFrame : Except EvaluationBudget EvaluationBudget :=
  let budget := { budget with frames := saturatingAdd budget.frames 1 }
  if budget.limits.maxFrames < budget.frames then
    .error { budget with exhausted := some ⟨.activeFrames, budget.limits.maxFrames⟩ }
  else .ok budget

/-- `leaveFrame`. -/
def leaveFrame : EvaluationBudget := { budget with frames := budget.frames - 1 }

/-- The counters of a call that goes on are within its limits. -/
structure Sound : Prop where
  work_le : budget.work ≤ budget.limits.maxWorkUnits
  diagnostics_le : budget.diagnostics ≤ budget.limits.maxDiagnostics
  frames_le : budget.frames ≤ budget.limits.maxFrames
  work_lt : budget.limits.maxWorkUnits ≤ maxUint64
  diagnostics_lt : budget.limits.maxDiagnostics ≤ maxUint64
  frames_lt : budget.limits.maxFrames < maxUint64
  fresh : budget.exhausted = none

end EvaluationBudget

/-! ### Judgements -/

/-- What a part of an evaluation takes and whether it makes the result invalid. -/
@[ext]
structure Judgement where
  work : ℕ
  diagnostics : ℕ
  /-- The frames that are active at once. -/
  frames : ℕ
  panics : Bool
  invalid : Bool
  deriving DecidableEq, Repr

namespace Judgement

/-- One part and another. -/
instance : Add Judgement where
  add a b := ⟨a.work + b.work, a.diagnostics + b.diagnostics, max a.frames b.frames,
    a.panics || b.panics, a.invalid || b.invalid⟩

instance : Zero Judgement where
  zero := ⟨0, 0, 0, false, false⟩

variable (a b c : Judgement)

@[simp] theorem work_add : (a + b).work = a.work + b.work := rfl
@[simp] theorem diagnostics_add : (a + b).diagnostics = a.diagnostics + b.diagnostics := rfl
@[simp] theorem frames_add : (a + b).frames = max a.frames b.frames := rfl
@[simp] theorem panics_add : (a + b).panics = (a.panics || b.panics) := rfl
@[simp] theorem invalid_add : (a + b).invalid = (a.invalid || b.invalid) := rfl
@[simp] theorem work_zero : (0 : Judgement).work = 0 := rfl
@[simp] theorem diagnostics_zero : (0 : Judgement).diagnostics = 0 := rfl
@[simp] theorem frames_zero : (0 : Judgement).frames = 0 := rfl
@[simp] theorem invalid_zero : (0 : Judgement).invalid = false := rfl

theorem add_assoc' : a + b + c = a + (b + c) := by
  ext <;> simp [Nat.add_assoc, max_assoc, Bool.or_assoc]

theorem add_comm' : a + b = b + a := by
  ext <;> simp [Nat.add_comm, max_comm, Bool.or_comm]

theorem zero_add' : 0 + a = a := by
  ext <;> simp

theorem add_zero' : a + 0 = a := by
  ext <;> simp

/-- The order of the parts does not count. -/
instance : AddCommMonoid Judgement where
  add_assoc := add_assoc'
  zero_add := zero_add'
  add_zero := add_zero'
  add_comm := add_comm'
  nsmul := nsmulRec

/-- Work units. -/
def units (count : ℕ) : Judgement := ⟨count, 0, 0, false, false⟩

/-- A mismatch that is reported. -/
def mismatch : Judgement := ⟨0, 1, 0, false, true⟩

/-- A mismatch where the test fails. -/
def requiring (test : Bool) : Judgement := if test then 0 else mismatch

/-- A panic of the evaluation itself. -/
def panic : Judgement := ⟨0, 0, 0, true, false⟩

/-- What is taken, whatever the result. -/
def quiet : Judgement := { a with invalid := false }

/-- One frame further in. -/
def nested : Judgement := { a with frames := a.frames + 1 }

theorem units_add (m n : ℕ) : units (m + n) = units m + units n := rfl

@[simp] theorem invalid_units (count : ℕ) : (units count).invalid = false := rfl
@[simp] theorem invalid_quiet : a.quiet.invalid = false := rfl

@[simp] theorem invalid_requiring (test : Bool) : (requiring test).invalid = !test := by
  cases test <;> rfl

/-- A sum is invalid when one of its parts is. -/
theorem invalid_sum {α : Type} (f : α → Judgement) : ∀ l : List α,
    (l.map f).sum.invalid = l.any fun x => (f x).invalid
  | [] => rfl
  | x :: l => by
    rw [List.map_cons, List.sum_cons, invalid_add, invalid_sum f l, List.any_cons]

end Judgement

end Modary.Validation
