import Mathlib.Data.List.Induction
import Mathlib.Data.Option.Basic

/-! # Runs of a state machine

A machine is a partial step function: an event that is not enabled has no successor. A run is the
list of its events, and a property of a run and its last state is proved by adding one event at the
end. -/

namespace Modary.Lib.Machine

variable {σ ε : Type*}

/-- The state after a list of events, if each is enabled. -/
def run (step : σ → ε → Option σ) : List ε → σ → Option σ
  | [], s => some s
  | e :: es, s => (step s e).bind (run step es)

variable {step : σ → ε → Option σ}

theorem run_append (es fs : List ε) (s : σ) :
    run step (es ++ fs) s = (run step es s).bind (run step fs) := by
  induction es generalizing s with
  | nil => rfl
  | cons e es ih =>
    simp only [List.cons_append, run, Option.bind_assoc]
    exact Option.bind_congr fun t _ => ih t

/-- One more event: the run up to it, then its step. -/
theorem run_snoc {es : List ε} {e : ε} {s t : σ} (h : run step (es ++ [e]) s = some t) :
    ∃ m, run step es s = some m ∧ step m e = some t := by
  rw [run_append, Option.bind_eq_some_iff] at h
  obtain ⟨m, hm, h⟩ := h
  obtain ⟨u, hu, h⟩ := Option.bind_eq_some_iff.mp h
  exact ⟨m, hm, hu.trans h⟩

/-- The run up to an event, the event, and the run after it. -/
theorem run_split {es fs : List ε} {e : ε} {s t : σ} (h : run step (es ++ e :: fs) s = some t) :
    ∃ m n, run step es s = some m ∧ step m e = some n ∧ run step fs n = some t := by
  rw [run_append, Option.bind_eq_some_iff] at h
  obtain ⟨m, hm, h⟩ := h
  obtain ⟨n, hn, h⟩ := Option.bind_eq_some_iff.mp h
  exact ⟨m, n, hm, hn, h⟩

/-- **The run rule**: what holds before the first event and is kept by every step holds of every
run and the state it ends in. -/
theorem run_induction {P : List ε → σ → Prop} {s₀ : σ} (init : P [] s₀)
    (keep : ∀ es e s t, P es s → step s e = some t → P (es ++ [e]) t) :
    ∀ {es : List ε} {s : σ}, run step es s₀ = some s → P es s := by
  intro es
  induction es using List.reverseRecOn with
  | nil => rintro s h; cases h; exact init
  | append_singleton es e ih =>
    intro s h
    obtain ⟨m, hm, hs⟩ := run_snoc h
    exact keep es e m s (ih hm) hs

/-! ### Runs under a condition -/

/-- Every step of a list of events meets a condition, as far as the events are enabled. -/
def along (step : σ → ε → Option σ) (ok : σ → ε → Bool) : List ε → σ → Bool
  | [], _ => true
  | e :: es, s => ok s e && (step s e).all (along step ok es)

variable {ok : σ → ε → Bool}

theorem along_iff {es : List ε} {s₀ : σ} :
    along step ok es s₀ = true ↔ ∀ before e, before ++ [e] <+: es → ∀ m,
      run step before s₀ = some m → ok m e = true := by
  induction es generalizing s₀ with
  | nil =>
    refine iff_of_true rfl fun before e hprefix => ?_
    have hnil := List.prefix_nil.mp hprefix
    simp at hnil
  | cons first es ih =>
    rw [along, Bool.and_eq_true_iff]
    constructor
    · rintro ⟨hfirst, hrest⟩ before e hprefix m hrun
      cases before with
      | nil =>
        cases hrun
        obtain rfl : e = first := (List.cons_prefix_cons.mp hprefix).1
        exact hfirst
      | cons b before =>
        obtain ⟨rfl, htail⟩ := List.cons_prefix_cons.mp hprefix
        obtain ⟨t, ht, hrun'⟩ := Option.bind_eq_some_iff.mp hrun
        rw [ht] at hrest
        exact ih.mp hrest before e htail m hrun'
    · intro h
      constructor
      · exact h [] first (List.cons_prefix_cons.mpr ⟨rfl, List.nil_prefix⟩) s₀ rfl
      · cases ht : step s₀ first with
        | none => rfl
        | some t =>
          refine ih.mpr fun before e hprefix m hrun => ?_
          refine h (first :: before) e (List.cons_prefix_cons.mpr ⟨rfl, hprefix⟩) m ?_
          exact Option.bind_eq_some_iff.mpr ⟨t, ht, hrun⟩

/-- The run rule for runs whose steps all meet a condition: what holds at first and is kept by every
such step holds at the end. -/
theorem run_induction_of {P : σ → Prop} {s₀ : σ} (init : P s₀)
    (keep : ∀ s e t, P s → ok s e = true → step s e = some t → P t) {es : List ε} {s : σ}
    (hrun : run step es s₀ = some s) (hok : along step ok es s₀ = true) : P s := by
  rw [along_iff] at hok
  induction es using List.reverseRecOn generalizing s with
  | nil =>
    cases hrun
    exact init
  | append_singleton es e ih =>
    obtain ⟨m, hm, hs⟩ := run_snoc hrun
    have hbefore : P m := by
      refine ih hm fun before e' hprefix => hok before e' ?_
      exact hprefix.trans (List.prefix_append es [e])
    exact keep m e s hbefore (hok es e (List.prefix_refl _) m hm) hs

end Modary.Lib.Machine
