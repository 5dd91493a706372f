import Mathlib.Algebra.BigOperators.Group.List.Lemmas
import Modary.Validation.Metering

/-! # What a part of an evaluation takes

The rules for `Spends`: a program takes a judgement from the budget. It ends when the judgement is
within the budget, and then exactly that is taken; otherwise it ends with a panic, and the limit
that the panic reports is one that the judgement exceeds. -/

namespace Modary.Validation

open Modary.Lib.Permuted Modary.Lib.JsonNumber Modary.Lib.JsonValue

variable {ρ α β : Type}

/-! ### Budgets and judgements -/

/-- The budget has what the judgement takes. -/
structure Within (budget : EvaluationBudget) (j : Judgement) : Prop where
  work : min (budget.work + j.work) maxUint64 ≤ budget.limits.maxWorkUnits
  diagnostics : min (budget.diagnostics + j.diagnostics) maxUint64 ≤ budget.limits.maxDiagnostics
  frames : budget.frames + j.frames ≤ budget.limits.maxFrames
  calm : j.panics = false

/-- The budget after a judgement. -/
def EvaluationBudget.spend (budget : EvaluationBudget) (j : Judgement) : EvaluationBudget :=
  { budget with
    work := min (budget.work + j.work) maxUint64
    diagnostics := min (budget.diagnostics + j.diagnostics) maxUint64 }

/-- The limits that a judgement exceeds. -/
inductive Exceeded (budget : EvaluationBudget) (j : Judgement) : LimitError → Prop
  | work (h : budget.limits.maxWorkUnits < min (budget.work + j.work) maxUint64) :
      Exceeded budget j ⟨.workUnits, budget.limits.maxWorkUnits⟩
  | diagnostics
      (h : budget.limits.maxDiagnostics < min (budget.diagnostics + j.diagnostics) maxUint64) :
      Exceeded budget j ⟨.generatedDiagnostics, budget.limits.maxDiagnostics⟩
  | frames (h : budget.limits.maxFrames < budget.frames + j.frames) :
      Exceeded budget j ⟨.activeFrames, budget.limits.maxFrames⟩

/-- Why an evaluation may end without a result. With `room` more frames than are active, no stack
grows without end. -/
def Refused (budget : EvaluationBudget) (j : Judgement) (room : ℕ) : Abort → Prop
  | .panicked final => (final.exhausted = none → j.panics = true) ∧
      ∀ err, final.exhausted = some err → Exceeded budget j err
  | .overflow => budget.frames + room < budget.limits.maxFrames

/-- How an evaluation ends. -/
def Settles (budget : EvaluationBudget) (j : Judgement) (room : ℕ) (Q : α → Prop) :
    Except Abort (α × Machine) → Prop
  | .ok reply => Within budget j ∧ reply.2.budget = budget.spend j ∧ Q reply.1
  | .error e => Refused budget j room e

section Budgets

variable {budget : EvaluationBudget} {i j : Judgement} {room : ℕ}

theorem within_zero (h : budget.Sound) : Within budget 0 := by
  obtain ⟨hwork, hdiagnostics, hframes, hwork', hdiagnostics', -, -⟩ := h
  constructor
  · rw [Judgement.work_zero]
    omega
  · rw [Judgement.diagnostics_zero]
    omega
  · rw [Judgement.frames_zero]
    omega
  · rfl

theorem spend_zero (h : budget.Sound) : budget.spend 0 = budget := by
  obtain ⟨hwork, hdiagnostics, -, hwork', hdiagnostics', -, -⟩ := h
  have hmin : min (budget.work + 0) maxUint64 = budget.work := by omega
  have hmin' : min (budget.diagnostics + 0) maxUint64 = budget.diagnostics := by omega
  rw [EvaluationBudget.spend, Judgement.work_zero, Judgement.diagnostics_zero, hmin, hmin']

theorem Within.sound (hw : Within budget j) (h : budget.Sound) : (budget.spend j).Sound where
  work_le := hw.work
  diagnostics_le := hw.diagnostics
  frames_le := h.frames_le
  work_lt := h.work_lt
  diagnostics_lt := h.diagnostics_lt
  frames_lt := h.frames_lt
  fresh := h.fresh

theorem Within.add (hi : Within budget i) (hj : Within (budget.spend i) j) :
    Within budget (i + j) := by
  constructor
  · have h := hj.work
    simp only [EvaluationBudget.spend] at h
    rw [Judgement.work_add]
    omega
  · have h := hj.diagnostics
    simp only [EvaluationBudget.spend] at h
    rw [Judgement.diagnostics_add]
    omega
  · have h := hj.frames
    simp only [EvaluationBudget.spend] at h
    have h' := hi.frames
    rw [Judgement.frames_add]
    omega
  · rw [Judgement.panics_add, hi.calm, hj.calm]
    rfl

theorem spend_spend : (budget.spend i).spend j = budget.spend (i + j) := by
  have hwork : min (min (budget.work + i.work) maxUint64 + j.work) maxUint64 =
      min (budget.work + (i.work + j.work)) maxUint64 := by omega
  have hdiagnostics :
      min (min (budget.diagnostics + i.diagnostics) maxUint64 + j.diagnostics) maxUint64 =
        min (budget.diagnostics + (i.diagnostics + j.diagnostics)) maxUint64 := by omega
  simp only [EvaluationBudget.spend, Judgement.work_add, Judgement.diagnostics_add, hwork,
    hdiagnostics]

theorem Exceeded.left {err : LimitError} (h : Exceeded budget i err) :
    Exceeded budget (i + j) err := by
  cases h with
  | work h =>
    refine .work ?_
    rw [Judgement.work_add]
    omega
  | diagnostics h =>
    refine .diagnostics ?_
    rw [Judgement.diagnostics_add]
    omega
  | frames h =>
    refine .frames ?_
    rw [Judgement.frames_add]
    omega

theorem Exceeded.right {err : LimitError} (h : Exceeded (budget.spend i) j err) :
    Exceeded budget (i + j) err := by
  cases h with
  | work h =>
    simp only [EvaluationBudget.spend] at h
    refine .work ?_
    rw [Judgement.work_add]
    omega
  | diagnostics h =>
    simp only [EvaluationBudget.spend] at h
    refine .diagnostics ?_
    rw [Judgement.diagnostics_add]
    omega
  | frames h =>
    simp only [EvaluationBudget.spend] at h
    refine .frames ?_
    rw [Judgement.frames_add]
    omega

/-- A judgement that is not within the budget exceeds no limit that it could be within. -/
theorem Exceeded.not_within {err : LimitError} (h : Exceeded budget j err) : ¬ Within budget j := by
  intro hw
  cases h with
  | work h => exact absurd hw.work (by omega)
  | diagnostics h => exact absurd hw.diagnostics (by omega)
  | frames h => exact absurd hw.frames (by omega)

theorem Refused.left {e : Abort} (h : Refused budget i room e) : Refused budget (i + j) room e := by
  cases e with
  | overflow => exact h
  | panicked final =>
    refine ⟨?_, fun err herr => (h.2 err herr).left⟩
    intro hnone
    rw [Judgement.panics_add, h.1 hnone]
    rfl

theorem Refused.right {e : Abort} (h : Refused (budget.spend i) j room e) :
    Refused budget (i + j) room e := by
  cases e with
  | overflow => exact h
  | panicked final =>
    refine ⟨?_, fun err herr => (h.2 err herr).right⟩
    intro hnone
    rw [Judgement.panics_add, h.1 hnone, Bool.or_true]

end Budgets

/-! ### Rules -/

section Rules

variable (orders : Orders) (visitor : Visit ρ) (room : ℕ)

/-- The program takes the judgement, and what it ends with is as stated. -/
def Spends (p : Body ρ α) (j : Judgement) (Q : α → Prop) : Prop :=
  ∀ m : Machine, m.budget.Sound → Settles m.budget j room Q (run orders visitor p m)

/-- The schemas take their judgements. -/
def Judged (judge : ρ → Json Number → Judgement) : Prop :=
  ∀ schema node (result : Result) (m : Machine), m.budget.Sound →
    Settles m.budget (judge schema node) room
      (fun after => after.invalid = (result.invalid || (judge schema node).invalid))
      (visitor schema node result m)

/-- The program takes the judgement, and adds to the result what the judgement says. -/
def Adds (p : Result → Body ρ Result) (j : Judgement) : Prop :=
  ∀ result, Spends orders visitor room (p result) j fun after =>
    after.invalid = (result.invalid || j.invalid)

variable {orders visitor room}

theorem spends_pure {a : α} {Q : α → Prop} (h : Q a) : Spends orders visitor room (pure a) 0 Q :=
  fun _ hsound => ⟨within_zero hsound, (spend_zero hsound).symm, h⟩

theorem spends_bind {p : Body ρ α} {f : α → Body ρ β} {i j : Judgement} {P : α → Prop}
    {Q : β → Prop} (hp : Spends orders visitor room p i P)
    (hf : ∀ a, P a → Spends orders visitor room (f a) j Q) :
    Spends orders visitor room (p >>= f) (i + j) Q := by
  intro m hsound
  rw [run_bind]
  have hfirst := hp m hsound
  cases hr : run orders visitor p m with
  | error e =>
    rw [hr] at hfirst
    exact Refused.left hfirst
  | ok reply =>
    rw [hr] at hfirst
    obtain ⟨hwithin, hbudget, hpost⟩ := hfirst
    have hsound' : reply.2.budget.Sound := by
      rw [hbudget]
      exact hwithin.sound hsound
    have hsecond := hf reply.1 hpost reply.2 hsound'
    show Settles m.budget (i + j) room Q (run orders visitor (f reply.1) reply.2)
    rw [hbudget] at hsecond
    cases hr' : run orders visitor (f reply.1) reply.2 with
    | error e =>
      rw [hr'] at hsecond
      exact Refused.right hsecond
    | ok last =>
      rw [hr'] at hsecond
      exact ⟨hwithin.add hsecond.1, hsecond.2.1.trans spend_spend, hsecond.2.2⟩

/-- Consequence; whether the judgement is invalid does not count here. -/
theorem Spends.conseq {p : Body ρ α} {i j : Judgement} {P Q : α → Prop}
    (hp : Spends orders visitor room p i P) (hij : i.quiet = j.quiet) (hq : ∀ a, P a → Q a) :
    Spends orders visitor room p j Q := by
  intro m hsound
  have h := hp m hsound
  have hwork : i.work = j.work := congrArg (·.work) hij
  have hdiagnostics : i.diagnostics = j.diagnostics := congrArg (·.diagnostics) hij
  have hframes : i.frames = j.frames := congrArg (·.frames) hij
  have hpanics : i.panics = j.panics := congrArg (·.panics) hij
  cases hr : run orders visitor p m with
  | error e =>
    rw [hr] at h
    cases e with
    | overflow => exact h
    | panicked final =>
      refine ⟨fun hnone => hpanics ▸ h.1 hnone, fun err herr => ?_⟩
      cases h.2 err herr with
      | work h => exact .work (hwork ▸ h)
      | diagnostics h => exact .diagnostics (hdiagnostics ▸ h)
      | frames h => exact .frames (hframes ▸ h)
  | ok reply =>
    rw [hr] at h
    obtain ⟨hwithin, hbudget, hpost⟩ := h
    refine ⟨⟨hwork ▸ hwithin.work, hdiagnostics ▸ hwithin.diagnostics, hframes ▸ hwithin.frames,
      hpanics ▸ hwithin.calm⟩, ?_, hq _ hpost⟩
    rw [hbudget, EvaluationBudget.spend, EvaluationBudget.spend, hwork, hdiagnostics]

/-! ### Requests -/

/-- One request and what its reply is made to. -/
theorem spends_call {op : Op ρ} {f : Reply op → α} {j : Judgement} {Q : α → Prop}
    (h : ∀ m : Machine, m.budget.Sound →
      Settles m.budget j room (fun reply => Q (f reply)) (perform orders visitor m op)) :
    Spends orders visitor room (.call op fun reply => .ret (f reply)) j Q := by
  intro m hsound
  have hop := h m hsound
  rw [run]
  cases hp : perform orders visitor m op with
  | error e =>
    rw [hp] at hop
    exact hop
  | ok reply =>
    rw [hp] at hop
    exact hop

theorem spends_consumeWork (count : ℕ) :
    Spends orders visitor room (consumeWork count) (.units count) fun _ => True := by
  refine spends_call fun m hsound => ?_
  have hall := hsound
  obtain ⟨hwork, hdiagnostics, hframes, hwork', hdiagnostics', -, -⟩ := hsound
  have hadd : saturatingAdd m.budget.work count = min (m.budget.work + count) maxUint64 :=
    saturatingAdd_eq (by omega) count
  show Settles _ _ _ _ (m.charge (m.budget.consumeWork count))
  unfold EvaluationBudget.consumeWork
  simp only [hadd]
  by_cases hzero : count = 0
  · rw [if_pos hzero, hzero]
    exact ⟨within_zero hall, (spend_zero hall).symm, trivial⟩
  · rw [if_neg hzero]
    by_cases hover : m.budget.limits.maxWorkUnits < min (m.budget.work + count) maxUint64
    · rw [if_pos hover]
      refine ⟨fun hnone => (by cases hnone), fun err herr => ?_⟩
      cases herr
      exact .work hover
    · rw [if_neg hover]
      have hmin : min (m.budget.diagnostics + 0) maxUint64 = m.budget.diagnostics := by omega
      refine ⟨⟨?_, ?_, ?_, rfl⟩, ?_, trivial⟩
      · show min (m.budget.work + count) maxUint64 ≤ _
        omega
      · show min (m.budget.diagnostics + 0) maxUint64 ≤ _
        omega
      · show m.budget.frames + 0 ≤ _
        omega
      · show { m.budget with work := min (m.budget.work + count) maxUint64 } = _
        rw [EvaluationBudget.spend, Judgement.units, hmin]

theorem spends_addInternalError (result : Result) :
    Spends orders visitor room (addInternalError result) .mismatch fun after =>
      after.invalid = true := by
  refine spends_call fun m hsound => ?_
  obtain ⟨hwork, hdiagnostics, hframes, hwork', hdiagnostics', -, -⟩ := hsound
  have hadd : saturatingAdd m.budget.diagnostics 1 =
      min (m.budget.diagnostics + 1) maxUint64 := saturatingAdd_eq (by omega) 1
  show Settles _ _ _ _ (m.charge m.budget.consumeDiagnostic)
  unfold EvaluationBudget.consumeDiagnostic
  simp only [hadd]
  by_cases hover : m.budget.limits.maxDiagnostics < min (m.budget.diagnostics + 1) maxUint64
  · rw [if_pos hover]
    refine ⟨fun hnone => (by cases hnone), fun err herr => ?_⟩
    cases herr
    exact .diagnostics hover
  · rw [if_neg hover]
    have hmin : min (m.budget.work + 0) maxUint64 = m.budget.work := by omega
    refine ⟨⟨?_, ?_, ?_, rfl⟩, ?_, trivial⟩
    · show min (m.budget.work + 0) maxUint64 ≤ _
      omega
    · show min (m.budget.diagnostics + 1) maxUint64 ≤ _
      omega
    · show m.budget.frames + 0 ≤ _
      omega
    · show { m.budget with diagnostics := min (m.budget.diagnostics + 1) maxUint64 } = _
      rw [EvaluationBudget.spend, Judgement.mismatch, hmin]

theorem spends_ranged (entries : List α) :
    Spends orders visitor room (ranged entries) 0 fun found => found.Perm entries :=
  spends_call fun _ hsound =>
    ⟨within_zero hsound, (spend_zero hsound).symm, permuted_perm entries _⟩

theorem spends_crash {Q : α → Prop} :
    Spends orders visitor room (crash : Body ρ α) .panic Q := by
  intro m hsound
  refine ⟨fun _ => rfl, fun err herr => ?_⟩
  rw [hsound.fresh] at herr
  cases herr

section Schemas

variable {judge : ρ → Json Number → Judgement} (h : Judged visitor room judge)

include h

theorem adds_validateRecursive (schema : ρ) (node : Json Number) :
    Adds orders visitor room (validateRecursive schema node) (judge schema node) :=
  fun result => spends_call fun m hsound => h schema node result m hsound

theorem spends_sub (schema : ρ) (node : Json Number) :
    Spends orders visitor room (subValidateWithContext schema node) (judge schema node)
      fun after => after.invalid = (judge schema node).invalid := by
  refine (adds_validateRecursive h schema node ⟨false, 0⟩).conseq rfl fun after hafter => ?_
  rw [hafter, Bool.false_or]

end Schemas

/-! ### Sequences -/

/-- Work units, and then the rest. -/
theorem spends_work {p : Body ρ α} {j : Judgement} {Q : α → Prop} (count : ℕ)
    (hp : Spends orders visitor room p j Q) :
    Spends orders visitor room (consumeWork count >>= fun _ => p) (.units count + j) Q :=
  spends_bind (spends_consumeWork count) fun _ _ => hp

/-- The last step makes something of what is found. -/
theorem spends_map {p : Body ρ α} {j : Judgement} {P : α → Prop} {f : α → β}
    {Q : β → Prop} (hp : Spends orders visitor room p j P) (h : ∀ a, P a → Q (f a)) :
    Spends orders visitor room (p >>= fun a => pure (f a)) j Q := by
  have hall : Spends orders visitor room (p >>= fun a => pure (f a)) (j + 0) Q :=
    spends_bind hp fun a ha => spends_pure (h a ha)
  rw [add_zero] at hall
  exact hall

/-! ### Results -/

/-- What leaves the budget and the flag alone. -/
theorem adds_pure {f : Result → Result} (h : ∀ result, (f result).invalid = result.invalid) :
    Adds orders visitor room (fun result => pure (f result)) 0 := by
  intro result
  refine spends_pure ?_
  rw [h, Judgement.invalid_zero, Bool.or_false]

theorem adds_bind {p q : Result → Body ρ Result} {i j : Judgement}
    (hp : Adds orders visitor room p i) (hq : Adds orders visitor room q j) :
    Adds orders visitor room (fun result => p result >>= q) (i + j) := by
  intro result
  refine spends_bind (hp result) fun middle hmiddle => ?_
  refine (hq middle).conseq rfl fun after hafter => ?_
  rw [hafter, hmiddle, Judgement.invalid_add, Bool.or_assoc]

/-- Work units before it. -/
theorem adds_consumeWork {p : Result → Body ρ Result} {j : Judgement} (count : ℕ)
    (hp : Adds orders visitor room p j) :
    Adds orders visitor room (fun result => consumeWork count >>= fun _ => p result)
      (.units count + j) := by
  intro result
  refine spends_bind (spends_consumeWork count) fun _ _ => ?_
  exact (hp result).conseq rfl fun after hafter => hafter

theorem adds_congr {p : Result → Body ρ Result} {i j : Judgement}
    (hp : Adds orders visitor room p i) (h : i = j) : Adds orders visitor room p j := h ▸ hp

theorem adds_if {p q : Result → Body ρ Result} {i j : Judgement} {c : Prop} [Decidable c]
    (hp : c → Adds orders visitor room p i) (hq : ¬ c → Adds orders visitor room q j) :
    Adds orders visitor room (fun result => if c then p result else q result)
      (if c then i else j) := by
  by_cases hc : c
  · simp only [if_pos hc]
    exact hp hc
  · simp only [if_neg hc]
    exact hq hc

/-! ### Loops -/

/-- A loop whose turns take what their elements say. -/
theorem spends_foldlM {σ : Type} {f : σ → α → Body ρ σ} {take : α → Judgement}
    {I : List α → σ → Prop} (hstep : ∀ (done : List α) (x : α) (s : σ), I done s →
      Spends orders visitor room (f s x) (take x) (I (done ++ [x]))) :
    ∀ (l done : List α) (s : σ), I done s →
      Spends orders visitor room (l.foldlM f s) (l.map take).sum (I (done ++ l))
  | [], done, s, hs => by
    rw [List.append_nil]
    exact spends_pure hs
  | x :: l, done, s, hs => by
    rw [List.foldlM_cons, List.map_cons, List.sum_cons]
    refine spends_bind (hstep done x s hs) fun s' hs' => ?_
    have hrest := spends_foldlM hstep l (done ++ [x]) s' hs'
    rwa [List.append_assoc] at hrest

/-- A loop over a list that adds to the result. -/
theorem adds_foldlM {f : Result → α → Body ρ Result} {take : α → Judgement} :
    ∀ l : List α, (∀ x ∈ l, Adds orders visitor room (fun result => f result x) (take x)) →
      Adds orders visitor room (fun result => l.foldlM f result) (l.map take).sum
  | [], _ => adds_pure fun _ => rfl
  | x :: l, h => by
    simp only [List.foldlM_cons]
    exact adds_bind (h x List.mem_cons_self)
      (adds_foldlM l fun y hy => h y (List.mem_cons_of_mem x hy))

/-- **The order of a map does not count.** -/
theorem adds_range {f : Result → α → Body ρ Result} {take : α → Judgement} (l : List α)
    (h : ∀ x ∈ l, Adds orders visitor room (fun result => f result x) (take x)) :
    Adds orders visitor room (fun result => ranged l >>= fun found => found.foldlM f result)
      (l.map take).sum := by
  intro result
  have hzero : (l.map take).sum = 0 + (l.map take).sum := (zero_add _).symm
  rw [hzero]
  refine spends_bind (spends_ranged l) fun found hperm => ?_
  have hsum : (found.map take).sum = (l.map take).sum := (hperm.map take).sum_eq
  have hloop := adds_foldlM (f := f) found (fun x hx => h x (hperm.mem_iff.mp hx)) result
  rw [hsum] at hloop
  exact hloop.conseq rfl fun after hafter => hafter

/-- A loop over a map whose turns take what their entries say. -/
theorem spends_range {σ : Type} {f : σ → α → Body ρ σ} {take : α → Judgement}
    {I : List α → σ → Prop} (hstep : ∀ (done : List α) (x : α) (s : σ), I done s →
      Spends orders visitor room (f s x) (take x) (I (done ++ [x]))) (l : List α) (s : σ)
    (hs : I [] s) :
    Spends orders visitor room (ranged l >>= fun found => found.foldlM f s) (l.map take).sum
      fun after => ∃ found, found.Perm l ∧ I found after := by
  have hzero : (l.map take).sum = 0 + (l.map take).sum := (zero_add _).symm
  rw [hzero]
  refine spends_bind (spends_ranged l) fun found hperm => ?_
  have hsum : (found.map take).sum = (l.map take).sum := (hperm.map take).sum_eq
  rw [← hsum]
  exact (spends_foldlM hstep found [] s hs).conseq rfl fun after hafter => ⟨found, hperm, hafter⟩

end Rules

end Modary.Validation
