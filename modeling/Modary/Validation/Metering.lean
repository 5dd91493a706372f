import Modary.Lib.JsonValue
import Modary.Lib.Prog
import Modary.Lib.Permuted
import Modary.Validation.Budget

/-! # Metered evaluation

What the keywords of a schema do is a program: it takes work units, reports mismatches, goes through
maps in an order that the runtime chooses, and has nodes validated against other schemas. `run`
performs such a program on the budget of a call. `Spends` is the rule of what a program takes from
the budget: it ends exactly when all of it is there. -/

namespace Modary.Validation

open Modary.Lib.Prog Modary.Lib.Permuted Modary.Lib.JsonNumber Modary.Lib.JsonValue

variable {ρ α β : Type}

/-! ### Programs -/

/-- `Result` of an evaluation for its flag only. -/
structure Result where
  invalid : Bool
  score : ℤ
  deriving DecidableEq, Repr

/-- `(*Result).Valid`. -/
def Result.valid (result : Result) : Bool := !result.invalid

/-- What the keywords ask for. -/
inductive Op (ρ : Type)
  | consumeWork (units : ℕ)
  | consumeDiagnostic
  /-- `range` over a map with so many entries. -/
  | range (count : ℕ)
  /-- `validateRecursive` with another schema. -/
  | validateRecursive (schema : ρ) (node : Json Number) (result : Result)
  | panic

/-- What they get. -/
def Reply : Op ρ → Type
  | .consumeWork _ => Unit
  | .consumeDiagnostic => Unit
  | .range count => Equiv.Perm (Fin count)
  | .validateRecursive _ _ _ => Result
  | .panic => Empty

/-- A part of the evaluation. -/
abbrev Body (ρ α : Type) := Prog (Op ρ) Reply α

/-- `(*Result).consumeWork`. -/
def consumeWork (units : ℕ) : Body ρ Unit := .call (.consumeWork units) .ret

/-- `range` over a map: its entries, in some order. -/
def ranged (entries : List α) : Body ρ (List α) :=
  .call (.range entries.length) fun order => .ret (permuted entries order)

/-- `validateRecursive`, with a result to add to. -/
def validateRecursive (schema : ρ) (node : Json Number) (result : Result) : Body ρ Result :=
  .call (.validateRecursive schema node result) .ret

/-- `subValidateWithContext`. -/
def subValidateWithContext (schema : ρ) (node : Json Number) : Body ρ Result :=
  validateRecursive schema node ⟨false, 0⟩

/-- A panic. -/
def crash : Body ρ α := .call .panic Empty.elim

/-- `(*Result).incrementScore`. -/
def Result.incrementScore (result : Result) : Result := { result with score := result.score + 1 }

/-- `(*Result).mergeErrors`. -/
def Result.mergeErrors (result : Result) : Option Result → Result
  | none => result
  | some other => ⟨result.invalid || other.invalid, result.score + other.score⟩

/-- `(*Result).addInternalError`. -/
def addInternalError (result : Result) : Body ρ Result :=
  .call .consumeDiagnostic fun _ => .ret ⟨true, result.score - 2⟩

/-! ### Performing them -/

/-- The budget, and how many maps were gone through. -/
structure Machine where
  budget : EvaluationBudget
  ranges : ℕ

/-- An evaluation that does not end: a panic, with the budget at that moment, or a stack without
end. -/
inductive Abort
  | panicked (budget : EvaluationBudget)
  | overflow

/-- The orders in which the runtime goes through maps. -/
abbrev Orders := (turn count : ℕ) → Equiv.Perm (Fin count)

/-- `validateRecursive`. -/
abbrev Visit (ρ : Type) := ρ → Json Number → Result → Machine → Except Abort (Result × Machine)

/-- Goes on with the budget, or panics. -/
def Machine.charge (m : Machine) :
    Except EvaluationBudget EvaluationBudget → Except Abort (Unit × Machine)
  | .ok budget => .ok ((), { m with budget })
  | .error budget => .error (.panicked budget)

section Perform

variable (orders : Orders) (visit : Visit ρ)

/-- One request. -/
def perform (m : Machine) : (op : Op ρ) → Except Abort (Reply op × Machine)
  | .consumeWork units => m.charge (m.budget.consumeWork units)
  | .consumeDiagnostic => m.charge m.budget.consumeDiagnostic
  | .range count => .ok (orders m.ranges count, { m with ranges := m.ranges + 1 })
  | .validateRecursive schema node result => visit schema node result m
  | .panic => .error (.panicked m.budget)

/-- A program. -/
def run : Body ρ α → Machine → Except Abort (α × Machine)
  | .ret a, m => .ok (a, m)
  | .call op next, m =>
    match perform orders visit m op with
    | .error e => .error e
    | .ok reply => run (next reply.1) reply.2

theorem run_bind (f : α → Body ρ β) : ∀ (p : Body ρ α) (m : Machine),
    run orders visit (p >>= f) m =
      (run orders visit p m).bind fun reply => run orders visit (f reply.1) reply.2
  | .ret _, _ => rfl
  | .call op next, m => by
    show run orders visit (.call op fun r => next r >>= f) m = _
    rw [run, run]
    cases perform orders visit m op with
    | error e => rfl
    | ok reply => exact run_bind f (next reply.1) reply.2

end Perform

/-! ### The recursion -/

/-- The deferred `leaveFrame`. -/
def leaving : Except Abort (Result × Machine) → Except Abort (Result × Machine)
  | .ok (result, m) => .ok (result, { m with budget := m.budget.leaveFrame })
  | .error (.panicked budget) => .error (.panicked budget.leaveFrame)
  | .error .overflow => .error .overflow

/-- Keywords that call each other, `fuel` frames deep at most. -/
def visit (body : ρ → Json Number → Result → Body ρ Result) (orders : Orders) : ℕ → Visit ρ
  | 0, _, _, _, m =>
    match m.budget.enterFrame with
    | .error budget => .error (.panicked budget)
    | .ok _ => .error .overflow
  | fuel + 1, schema, node, result, m =>
    match m.budget.enterFrame with
    | .error budget => .error (.panicked budget)
    | .ok budget =>
      leaving (run orders (visit body orders fuel) (body schema node result) { m with budget })

theorem run_agree {orders : Orders} {v w : Visit ρ}
    (h : ∀ schema node result m, v schema node result m ≠ .error .overflow →
      w schema node result m = v schema node result m) :
    ∀ (p : Body ρ α) (m : Machine), run orders v p m ≠ .error .overflow →
      run orders w p m = run orders v p m
  | .ret _, _, _ => rfl
  | .call op next, m, hr => by
    rw [run] at hr
    rw [run, run]
    have hop : perform orders v m op ≠ .error .overflow →
        perform orders w m op = perform orders v m op := by
      cases op with
      | validateRecursive schema node result => exact h schema node result m
      | _ => exact fun _ => rfl
    cases hp : perform orders v m op with
    | error e =>
      rw [hp] at hr
      have he : perform orders v m op ≠ .error .overflow := by
        rw [hp]
        exact fun heq => hr (by rw [Except.error.inj heq])
      rw [hop he, hp]
    | ok r =>
      rw [hp] at hr
      have he : perform orders v m op ≠ .error .overflow := by
        rw [hp]
        exact fun heq => (by cases heq)
      rw [hop he, hp]
      exact run_agree h (next r.1) r.2 hr

theorem leaving_ne {e : Except Abort (Result × Machine)} (h : leaving e ≠ .error .overflow) :
    e ≠ .error .overflow := by
  rintro rfl
  exact h rfl

/-- **A deeper stack changes nothing**, unless the first one is not deep enough. -/
theorem visit_succ {body : ρ → Json Number → Result → Body ρ Result} {orders : Orders} :
    ∀ (fuel : ℕ) (schema : ρ) (node : Json Number) (result : Result) (m : Machine),
      visit body orders fuel schema node result m ≠ .error .overflow →
        visit body orders (fuel + 1) schema node result m =
          visit body orders fuel schema node result m
  | 0, schema, node, result, m, h => by
    rw [visit] at h
    rw [visit, visit]
    cases he : m.budget.enterFrame with
    | error budget => rfl
    | ok budget =>
      rw [he] at h
      exact absurd rfl h
  | fuel + 1, schema, node, result, m, h => by
    rw [visit] at h
    rw [visit.eq_2, visit.eq_2]
    cases he : m.budget.enterFrame with
    | error budget => rfl
    | ok budget =>
      rw [he] at h
      simp only at h ⊢
      rw [run_agree (visit_succ fuel) _ _ (leaving_ne h)]

theorem visit_le {body : ρ → Json Number → Result → Body ρ Result} {orders : Orders}
    {fuel more : ℕ} (hle : fuel ≤ more) {schema : ρ} {node : Json Number} {result : Result}
    {m : Machine} (h : visit body orders fuel schema node result m ≠ .error .overflow) :
    visit body orders more schema node result m =
      visit body orders fuel schema node result m := by
  induction hle with
  | refl => rfl
  | step _ ih => rw [visit_succ _ _ _ _ _ (by rw [ih]; exact h), ih]

end Modary.Validation
