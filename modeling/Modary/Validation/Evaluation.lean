import Mathlib.Tactic.Abel
import Modary.Validation.Judging

/-! # The keywords take what they are judged to

Section by section of `validateRecursive`: each adds to the result what its judgement says and takes
that from the budget, in whatever order the maps are gone through. -/

namespace Modary.Validation

open Modary.Lib.JsonNumber Modary.Lib.JsonValue
open Modary.Lib.GoText (byteLength)
open Judgement (units requiring mismatch)

variable {ρ α : Type} {orders : Orders} {visitor : Visit ρ} {room : ℕ}

/-! ### Results -/

theorem Spends.congr {p : Body ρ α} {i j : Judgement} {P : α → Prop}
    (hp : Spends orders visitor room p i P) (h : i = j) : Spends orders visitor room p j P := h ▸ hp

theorem adds_skip : Adds (ρ := ρ) orders visitor room pure 0 := adds_pure (f := id) fun _ => rfl

theorem adds_score {p : Result → Body ρ Result} {j : Judgement}
    (hp : Adds orders visitor room p j) :
    Adds orders visitor room (fun result => p result >>= fun result => pure result.incrementScore)
      j :=
  fun result => spends_map (hp result) fun _ hafter => hafter

theorem adds_report (merged : Option Result) :
    Adds (ρ := ρ) orders visitor room
      (fun result => addInternalError result >>= fun result => pure (result.mergeErrors merged))
      mismatch := by
  intro result
  refine spends_map (spends_addInternalError result) fun after hafter => ?_
  cases merged with
  | none => rw [Result.mergeErrors, hafter, mismatch, Bool.or_true]
  | some other =>
    show (after.invalid || other.invalid) = _
    rw [hafter, mismatch, Bool.or_true, Bool.true_or]

theorem adds_addInternalError :
    Adds (ρ := ρ) orders visitor room addInternalError mismatch := by
  intro result
  refine (spends_addInternalError result).conseq rfl fun after hafter => ?_
  rw [hafter, mismatch, Bool.or_true]

theorem adds_require (test : Bool) :
    Adds (ρ := ρ) orders visitor room (require test) (requiring test) := by
  cases test with
  | true => exact adds_skip
  | false => exact adds_addInternalError

/-- First something is found that leaves the result alone. -/
theorem adds_after {p : Body ρ α} {f : α → Result → Body ρ Result} {i j : Judgement}
    {P : α → Prop} (hp : Spends orders visitor room p i P) (hi : i.invalid = false)
    (hf : ∀ a, P a → Adds orders visitor room (f a) j) :
    Adds orders visitor room (fun result => p >>= fun a => f a result) (i + j) := by
  intro result
  refine spends_bind hp fun a ha => (hf a ha result).conseq rfl fun after hafter => ?_
  rw [hafter, Judgement.invalid_add, hi, Bool.false_or]

theorem adds_consumeKey {p : Result → Body ρ Result} {j : Judgement} (key : String)
    (hp : Adds orders visitor room p j) :
    Adds orders visitor room (fun result => consumeKey key >>= fun _ => p result)
      (units (keyWork key) + j) :=
  adds_consumeWork _ hp

theorem countP_append_singleton (p : α → Bool) (done : List α) (x : α) :
    (done ++ [x]).countP p = done.countP p + if p x then 1 else 0 := by
  rw [List.countP_append, List.countP_singleton]

section Schemas

variable {child : ρ → Json Number → Judgement} (h : Judged visitor room child)

include h

/-- A schema whose errors are merged. -/
theorem adds_sub (schema : ρ) (node : Json Number) :
    Adds orders visitor room (fun result => subValidateWithContext schema node >>= fun found =>
      pure (result.mergeErrors (some found))) (child schema node) := by
  intro result
  refine spends_map (spends_sub h schema node) fun found hfound => ?_
  show (result.invalid || found.invalid) = _
  rw [hfound]

/-- A schema that is only tried. -/
theorem spends_try (schema : ρ) (node : Json Number) :
    Spends orders visitor room (subValidateWithContext schema node) (child schema node).quiet
      fun found => found.valid = passes child node schema := by
  refine (spends_sub h schema node).conseq rfl fun found hfound => ?_
  rw [Result.valid, hfound, passes]

/-! ### `validateSchema` -/

section Combinations

variable (node : Json Number)

theorem spends_anyOfStep (state : AnyOf) (schema : ρ) :
    Spends orders visitor room (anyOfStep node state schema)
      (units 1 + if state.validated = true then 0 else (child schema node).quiet)
      fun after => after.validated = (state.validated || passes child node schema) := by
  refine spends_work 1 ?_
  cases hvalidated : state.validated with
  | true =>
    rw [if_pos rfl, if_pos rfl]
    refine spends_pure ?_
    rw [hvalidated, Bool.true_or]
  | false =>
    rw [if_neg Bool.false_ne_true, if_neg Bool.false_ne_true]
    refine (spends_bind (spends_try h schema node) fun found hfound => ?_).congr (add_zero _)
    rw [Bool.false_or, ← hfound]
    cases hvalid : found.valid with
    | true => exact spends_pure rfl
    | false => exact spends_pure rfl

theorem spends_anyOf : ∀ (schemas : List ρ) (state : AnyOf),
    Spends orders visitor room (schemas.foldlM (anyOfStep node) state)
      (units schemas.length + if state.validated = true then 0 else tried (child · node) schemas)
      fun after => after.validated = (state.validated || schemas.any (passes child node))
  | [], state => by
    refine (spends_pure ?_).congr ?_
    · rw [List.any_nil, Bool.or_false]
    · cases state.validated <;> rfl
  | schema :: schemas, state => by
    rw [List.foldlM_cons]
    have hrest : ∀ middle : AnyOf, middle.validated = (state.validated || passes child node schema) →
        Spends orders visitor room (schemas.foldlM (anyOfStep node) middle)
          (units schemas.length + if (state.validated || passes child node schema) = true then 0
            else tried (child · node) schemas)
          fun after => after.validated =
            (state.validated || (schema :: schemas).any (passes child node)) := by
      intro middle hmiddle
      have hloop := spends_anyOf schemas middle
      rw [hmiddle] at hloop
      refine hloop.conseq rfl fun after hafter => ?_
      rw [hafter, List.any_cons, Bool.or_assoc]
    refine (spends_bind (spends_anyOfStep h node state schema) hrest).congr ?_
    rw [List.length_cons, Nat.add_comm, Judgement.units_add, tried, passes]
    cases state.validated <;> cases (child schema node).invalid <;> simp <;> abel

theorem adds_anyOf (schemas : List ρ) :
    Adds orders visitor room (validateAnyOf node schemas) (judgeAnyOf child node schemas) := by
  unfold validateAnyOf judgeAnyOf
  refine adds_if (fun _ => adds_skip) fun _ => ?_
  refine adds_after (spends_anyOf h node schemas ⟨false, none⟩) ?_ fun state hstate => ?_
  · exact invalid_tried _ schemas
  · rw [Bool.false_or] at hstate
    rw [← hstate]
    cases hvalidated : state.validated with
    | true => exact adds_skip
    | false => exact adds_report state.best

/-! #### `oneOf` and `allOf` -/

theorem spends_oneOfStep (state : OneOf) (schema : ρ) :
    Spends orders visitor room (oneOfStep node state schema) (units 1 + (child schema node).quiet)
      fun after => after.nbValidated =
        state.nbValidated + if passes child node schema then 1 else 0 := by
  refine spends_work 1 ?_
  refine (spends_bind (spends_try h schema node) fun found hfound => ?_).congr (add_zero _)
  rw [← hfound]
  cases found.valid with
  | true => exact spends_pure rfl
  | false =>
    by_cases hzero : state.nbValidated = 0
    · rw [if_neg Bool.false_ne_true, if_pos hzero]
      exact spends_pure rfl
    · rw [if_neg Bool.false_ne_true, if_neg hzero]
      exact spends_pure rfl

theorem spends_oneOf (schemas : List ρ) :
    Spends orders visitor room (schemas.foldlM (oneOfStep node) ⟨0, none⟩)
      (schemas.map fun schema => units 1 + (child schema node).quiet).sum
      fun after => after.nbValidated = schemas.countP (passes child node) := by
  refine spends_foldlM (I := fun done (state : OneOf) =>
    state.nbValidated = done.countP (passes child node)) ?_ schemas [] ⟨0, none⟩ rfl
  intro done schema state hstate
  refine (spends_oneOfStep h node state schema).conseq rfl fun after hafter => ?_
  rw [hafter, hstate, countP_append_singleton]

theorem adds_oneOf (schemas : List ρ) :
    Adds orders visitor room (validateOneOf node schemas) (judgeOneOf child node schemas) := by
  unfold validateOneOf judgeOneOf
  refine adds_if (fun _ => adds_skip) fun _ => ?_
  refine adds_after (spends_oneOf h node schemas) ?_ fun state hstate => ?_
  · rw [Judgement.invalid_sum]
    simp
  · rw [← hstate]
    by_cases hone : state.nbValidated = 1
    · simp only [if_pos hone, decide_eq_true hone]
      exact adds_skip
    · simp only [if_neg hone, decide_eq_false hone]
      by_cases hzero : state.nbValidated = 0
      · simp only [if_pos hzero]
        exact adds_report state.best
      · simp only [if_neg hzero]
        exact adds_report none

theorem spends_allOfStep (state : AllOf) (schema : ρ) :
    Spends orders visitor room (allOfStep node state schema) (units 1 + child schema node)
      fun after => after.nbValidated =
          state.nbValidated + (if passes child node schema then 1 else 0) ∧
        after.result.invalid = (state.result.invalid || (child schema node).invalid) := by
  refine spends_work 1 (spends_map (spends_sub h schema node) fun found hfound => ⟨?_, ?_⟩)
  · have hvalid : found.valid = passes child node schema := by rw [Result.valid, hfound, passes]
    rw [← hvalid]
    cases found.valid <;> rfl
  · show (state.result.invalid || found.invalid) = _
    rw [hfound]

theorem spends_allOf (schemas : List ρ) (result : Result) :
    Spends orders visitor room (schemas.foldlM (allOfStep node) ⟨0, result⟩)
      (schemas.map fun schema => units 1 + child schema node).sum
      fun after => after.nbValidated = schemas.countP (passes child node) ∧
        after.result.invalid =
          (result.invalid || schemas.any fun schema => (child schema node).invalid) := by
  refine spends_foldlM (I := fun done (state : AllOf) =>
    state.nbValidated = done.countP (passes child node) ∧ state.result.invalid =
      (result.invalid || done.any fun schema => (child schema node).invalid)) ?_ schemas []
    ⟨0, result⟩ ⟨rfl, (Bool.or_false _).symm⟩
  intro done schema state hstate
  refine (spends_allOfStep h node state schema).conseq rfl fun after hafter => ⟨?_, ?_⟩
  · rw [hafter.1, hstate.1, countP_append_singleton]
  · rw [hafter.2, hstate.2, List.any_append, Bool.or_assoc, List.any_cons, List.any_nil,
      Bool.or_false]

theorem adds_allOf (schemas : List ρ) :
    Adds orders visitor room (validateAllOf node schemas) (judgeAllOf child node schemas) := by
  unfold validateAllOf judgeAllOf
  refine adds_if (fun _ => adds_skip) fun _ => ?_
  intro result
  refine spends_bind (spends_allOf h node schemas result) fun state hstate => ?_
  rw [← hstate.1]
  refine (adds_require _ state.result).conseq rfl fun after hafter => ?_
  rw [hafter, hstate.2, Judgement.invalid_add, Judgement.invalid_sum, Bool.or_assoc]
  simp

/-! #### `not`, `dependencies` and `if` -/

theorem adds_not (schema : Option ρ) :
    Adds orders visitor room (validateNot node schema) (judgeNot child node schema) := by
  cases schema with
  | none => exact adds_skip
  | some schema =>
    refine adds_after (spends_try h schema node) rfl fun found hfound => ?_
    rw [← hfound]
    exact adds_require _

theorem adds_dependency (object : List (String × Json Number)) (entry : String × Dependency ρ) :
    Adds orders visitor room (fun result => validateDependency node object result entry)
      (judgeDependency child node object entry) := by
  unfold validateDependency judgeDependency
  refine adds_consumeKey entry.1 (adds_if (fun _ => adds_skip) fun _ => ?_)
  cases entry.2 with
  | names names => exact adds_foldlM names fun name _ => adds_consumeKey name (adds_require _)
  | schema schema => exact adds_validateRecursive h schema node

theorem adds_dependencies (lib : Library) (dependencies : List (String × Dependency ρ)) :
    Adds orders visitor room (validateDependencies node lib dependencies)
      (judgeDependencies lib child node dependencies) := by
  unfold validateDependencies judgeDependencies
  refine adds_if (fun _ => adds_skip) fun _ => ?_
  cases node with
  | num number => exact adds_if (fun _ _ => spends_crash) fun _ => adds_skip
  | obj object => exact adds_range dependencies fun entry _ => adds_dependency h _ object entry
  | _ => exact adds_skip

theorem adds_branch (schema : Option ρ) (applies : Bool) :
    Adds orders visitor room (validateBranch node schema applies)
      (judgeBranch child node schema applies) := by
  unfold validateBranch judgeBranch
  cases schema with
  | none => exact adds_skip
  | some schema =>
    refine adds_if (fun _ => ?_) fun _ => adds_skip
    refine adds_after (spends_try h schema node) rfl fun found hfound => ?_
    rw [← hfound]
    cases found.valid with
    | true => exact adds_skip
    | false => exact adds_report (some found)

theorem adds_condition (schema : SubSchema ρ) :
    Adds orders visitor room (validateCondition node schema)
      (judgeCondition child node schema) := by
  unfold validateCondition judgeCondition
  cases schema.if with
  | none => exact adds_skip
  | some condition =>
    refine adds_after (spends_try h condition node) rfl fun found hfound => ?_
    rw [← hfound]
    exact adds_bind (adds_branch h node schema.then _) (adds_branch h node schema.else _)

theorem adds_schema (lib : Library) (schema : SubSchema ρ) :
    Adds orders visitor room (validateSchema node lib schema)
      (judgeSchema lib child node schema) := by
  unfold validateSchema judgeSchema
  refine adds_bind (adds_anyOf h node _) (adds_bind (adds_oneOf h node _) ?_)
  refine adds_bind (adds_allOf h node _) (adds_bind (adds_not h node _) ?_)
  exact adds_bind (adds_dependencies h node lib _) (adds_score (adds_condition h node schema))

end Combinations

/-! ### `validateCommon` -/

section Common

omit h

theorem adds_const (value : Json Number) (const : Option (List Char)) :
    Adds (ρ := ρ) orders visitor room (validateConst value const) (judgeConst value const) := by
  cases const with
  | none => exact adds_skip
  | some const =>
    refine adds_after (spends_marshal value) rfl fun vString hv => ?_
    rw [hv]
    exact adds_consumeWork _ (adds_require _)

theorem adds_enum (value : Json Number) (enum : List (List Char)) :
    Adds (ρ := ρ) orders visitor room (validateEnum value enum) (judgeEnum value enum) := by
  unfold validateEnum judgeEnum
  refine adds_if (fun _ => adds_skip) fun _ => ?_
  refine adds_after (spends_marshal value) rfl fun vString hv => ?_
  rw [hv]
  refine adds_consumeWork _ (adds_bind (adds_foldlM enum fun candidate _ => ?_) (adds_require _))
  exact adds_congr (adds_consumeWork _ adds_skip) (add_zero _)

theorem adds_common (value : Json Number) (schema : SubSchema ρ) :
    Adds orders visitor room (validateCommon value schema) (judgeCommon value schema) :=
  adds_bind (adds_const value schema.const) (adds_score (adds_enum value schema.enum))

/-! ### `validateArray` -/

theorem adds_count (minimum maximum : Option ℤ) (count : ℤ) :
    Adds (ρ := ρ) orders visitor room (validateCount minimum maximum count)
      (judgeCount minimum maximum count) :=
  adds_bind (adds_require _) (adds_require _)

theorem spends_uniqueItemsStep (state : UniqueItems) (item : Json Number) :
    Spends (ρ := ρ) orders visitor room (uniqueItemsStep state item)
      (units 1 + (units (marshalWork item) +
        requiring (!isStringInSlice state.stringifiedItems (canonicalText item))))
      fun after => after.stringifiedItems = canonicalText item :: state.stringifiedItems ∧
        after.result.invalid = (state.result.invalid ||
          (requiring (!isStringInSlice state.stringifiedItems (canonicalText item))).invalid) := by
  refine spends_work 1 (spends_bind (spends_marshal item) fun vString hv => ?_)
  rw [hv]
  exact spends_map (adds_require _ state.result) fun after hafter => ⟨rfl, hafter⟩

theorem spends_uniqueItems : ∀ (items : List (Json Number)) (state : UniqueItems),
    Spends (ρ := ρ) orders visitor room (items.foldlM uniqueItemsStep state)
      (judgeUniqueItems state.stringifiedItems items)
      fun after => after.result.invalid = (state.result.invalid ||
        (judgeUniqueItems state.stringifiedItems items).invalid)
  | [], state => spends_pure (by rw [judgeUniqueItems, Judgement.invalid_zero, Bool.or_false])
  | item :: items, state => by
    rw [List.foldlM_cons, judgeUniqueItems, ← add_assoc, ← add_assoc, add_assoc (units 1)]
    refine spends_bind (spends_uniqueItemsStep state item) fun middle hmiddle => ?_
    have hloop := spends_uniqueItems items middle
    rw [hmiddle.1, hmiddle.2] at hloop
    refine hloop.conseq rfl fun after hafter => ?_
    rw [hafter, Judgement.invalid_add, Judgement.invalid_add, Judgement.invalid_units,
      Judgement.invalid_add, Judgement.invalid_units, Bool.false_or, Bool.false_or, Bool.or_assoc]

theorem adds_unique (uniqueItems : Bool) (value : List (Json Number)) :
    Adds (ρ := ρ) orders visitor room (validateUniqueItems uniqueItems value)
      (if uniqueItems then judgeUniqueItems [] value else 0) :=
  adds_if (fun _ result => spends_map (spends_uniqueItems value ⟨[], result⟩)
    fun _ hafter => hafter)
    fun _ => adds_skip

end Common

theorem adds_item (schema : ρ) (item : Json Number) :
    Adds orders visitor room (fun result => validateItem schema result item)
      (judgeItem child schema item) :=
  adds_consumeWork 1 (adds_sub h schema item)

theorem adds_additionalItems (additional : Option (Additional ρ)) (items : List (Json Number)) :
    Adds orders visitor room (validateAdditionalItems additional items)
      (judgeAdditionalItems child additional items) := by
  rcases additional with _ | (allowed | schema)
  · exact adds_skip
  · exact adds_require allowed
  · exact adds_foldlM items fun item _ => adds_item h schema item

theorem adds_items (schema : SubSchema ρ) (value : List (Json Number)) :
    Adds orders visitor room (validateItems schema value) (judgeItems child schema value) := by
  unfold validateItems judgeItems
  refine adds_if (fun _ => ?_) fun _ => adds_if (fun _ => adds_skip) fun _ => ?_
  · cases schema.itemsChildren with
    | nil =>
      refine adds_foldlM value fun item _ => adds_consumeWork 1 fun result => ?_
      exact spends_crash
    | cons only others => exact adds_foldlM value fun item _ => adds_item h only item
  · refine adds_bind (adds_foldlM _ fun pair _ => adds_item h pair.1 pair.2) ?_
    exact adds_if (fun _ => adds_additionalItems h _ _) fun _ => adds_skip

theorem spends_contains (schema : ρ) : ∀ (items : List (Json Number)) (best : Option Result),
    Spends orders visitor room (containsLoop schema items best)
      (tried (judgeItem child schema) items)
      fun found => found.1 = items.any fun item => passes child item schema
  | [], best => spends_pure rfl
  | item :: items, best => by
    rw [containsLoop, tried]
    have hitem : (judgeItem child schema item).quiet = units 1 + (child schema item).quiet := rfl
    have hinvalid : (judgeItem child schema item).invalid = (child schema item).invalid := by
      rw [judgeItem, Judgement.invalid_add, Judgement.invalid_units, Bool.false_or]
    rw [hitem, hinvalid, add_assoc]
    refine spends_work 1 (spends_bind (spends_try h schema item) fun found hfound => ?_)
    have hpasses : passes child item schema = !(child schema item).invalid := rfl
    rw [hfound, List.any_cons]
    cases hinvalid : (child schema item).invalid with
    | true =>
      rw [hinvalid] at hpasses
      rw [hpasses, if_neg (by simp), if_pos rfl]
      exact spends_contains schema items _
    | false =>
      rw [hinvalid] at hpasses
      rw [hpasses, if_pos (by rfl), if_neg Bool.false_ne_true]
      exact spends_pure rfl

theorem adds_contains (schema : Option ρ) (value : List (Json Number)) :
    Adds orders visitor room (validateContains schema value) (judgeContains child schema value) := by
  cases schema with
  | none => exact adds_skip
  | some schema =>
    refine adds_after (spends_contains h schema value none) (invalid_tried _ value)
      fun found hfound => ?_
    rw [← hfound]
    cases found.1 with
    | true => exact adds_skip
    | false => exact adds_report found.2

theorem adds_array (schema : SubSchema ρ) (value : List (Json Number)) :
    Adds orders visitor room (validateArray schema value) (judgeArray child schema value) := by
  unfold validateArray judgeArray
  refine adds_bind (adds_items h schema value) (adds_bind (adds_count _ _ _) ?_)
  exact adds_bind (adds_unique _ value) (adds_score (adds_contains h _ value))

/-! ### `validateObject` -/

section Objects

variable (lib : Library)

theorem spends_patternPropertyStep (key : String) (value : Json Number) (state : PatternProperty)
    (entry : String × ρ) :
    Spends orders visitor room (patternPropertyStep lib key value state entry)
      (units (regexpWork (byteLength entry.1.toList) (byteLength key.toList)) +
        if lib.matchString entry.1 key then child entry.2 value else 0)
      fun after => after.validated = (state.validated || lib.matchString entry.1 key) ∧
        after.result.invalid = (state.result.invalid ||
          (if lib.matchString entry.1 key then child entry.2 value else 0).invalid) := by
  refine spends_work _ ?_
  cases lib.matchString entry.1 key with
  | true =>
    refine spends_map (spends_sub h entry.2 value) fun found hfound => ⟨?_, ?_⟩
    · rw [Bool.or_true]
    · show (state.result.invalid || found.invalid) = _
      rw [hfound]
      rfl
  | false =>
    refine spends_pure ⟨?_, ?_⟩
    · rw [Bool.or_false]
    · exact (Bool.or_false _).symm

theorem spends_patterns (schema : SubSchema ρ) (key : String) (value : Json Number)
    (result : Result) :
    Spends orders visitor room (validatePatterns lib schema key value result)
      (judgePatternProperty lib child schema key value)
      fun after => after.validated = matched lib schema key ∧ after.result.invalid =
        (result.invalid || (judgePatternProperty lib child schema key value).invalid) := by
  refine (spends_range (I := fun done (state : PatternProperty) =>
    state.validated = done.any (fun entry => lib.matchString entry.1 key) ∧
      state.result.invalid = (result.invalid || done.any fun entry =>
        (if lib.matchString entry.1 key then child entry.2 value else 0).invalid))
    ?_ schema.patternProperties ⟨false, result⟩ ⟨rfl, (Bool.or_false _).symm⟩).conseq rfl ?_
  · intro done entry state hstate
    refine (spends_patternPropertyStep h lib key value state entry).conseq rfl
      fun after hafter => ⟨?_, ?_⟩
    · rw [hafter.1, hstate.1, List.any_append, List.any_cons, List.any_nil, Bool.or_false]
    · rw [hafter.2, hstate.2, List.any_append, List.any_cons, List.any_nil, Bool.or_false,
        Bool.or_assoc]
  · rintro after ⟨found, hperm, hvalidated, hinvalid⟩
    refine ⟨hvalidated.trans hperm.any_eq, ?_⟩
    rw [hinvalid, hperm.any_eq, judgePatternProperty, Judgement.invalid_sum]
    simp only [Judgement.invalid_add, Judgement.invalid_units, Bool.false_or]

theorem spends_patternProperty (schema : SubSchema ρ) (key : String) (value : Json Number)
    (result : Result) :
    Spends orders visitor room (validatePatternProperty lib schema key value result)
      (judgePatternProperty lib child schema key value)
      fun after => after.validated = matched lib schema key ∧ after.result.invalid =
        (result.invalid || (judgePatternProperty lib child schema key value).invalid) := by
  refine spends_map (spends_patterns h lib schema key value result) fun state hstate => ?_
  cases hvalidated : state.validated with
  | true => exact ⟨hvalidated.symm.trans hstate.1, hstate.2⟩
  | false => exact hstate

theorem adds_additionalProperty (additional : Option (Additional ρ)) (value : Json Number) :
    Adds orders visitor room (validateAdditionalProperty additional value)
      (judgeAdditionalProperty child additional value) := by
  rcases additional with _ | (allowed | schema)
  · exact adds_skip
  · exact adds_require allowed
  · exact adds_sub h schema value

theorem adds_property (schema : SubSchema ρ) (property : String × Json Number) :
    Adds orders visitor room (fun result => validateProperty lib schema result property)
      (judgeProperty lib child schema property) := by
  refine adds_consumeWork 1 (adds_consumeKey property.1 ?_)
  intro result
  refine spends_bind (spends_patternProperty h lib schema property.1 property.2 result)
    fun state hstate => ?_
  rw [hstate.1]
  have hrest : Adds orders visitor room (fun result =>
      if (!(schema.properties.lookup property.1).isSome && !matched lib schema property.1) = true
      then validateAdditionalProperty schema.additionalProperties property.2 result
      else pure result) _ :=
    adds_if (fun _ => adds_additionalProperty h schema.additionalProperties property.2)
      fun _ => adds_skip
  refine (hrest state.result).conseq rfl fun after hafter => ?_
  rw [hafter, hstate.2, Judgement.invalid_add, Bool.or_assoc]

omit h in
theorem adds_required (required : List String) (value : List (String × Json Number)) :
    Adds (ρ := ρ) orders visitor room (validateRequired required value)
      (judgeRequired required value) := by
  refine adds_foldlM required fun name _ => adds_consumeKey name ?_
  cases (value.lookup name).isSome with
  | true => exact adds_pure fun _ => rfl
  | false => exact adds_addInternalError

theorem adds_propertyNames (schema : Option ρ) (value : List (String × Json Number)) :
    Adds orders visitor room (validatePropertyNames schema value)
      (judgePropertyNames child schema value) := by
  cases schema with
  | none => exact adds_skip
  | some schema =>
    refine adds_range value fun property _ => adds_consumeWork 1 ?_
    refine adds_after (spends_try h schema (.str property.1)) rfl fun found hfound => ?_
    rw [← hfound]
    cases found.valid with
    | true => exact adds_skip
    | false => exact adds_report (some found)

theorem adds_object (schema : SubSchema ρ) (value : List (String × Json Number)) :
    Adds orders visitor room (validateObject lib schema value)
      (judgeObject lib child schema value) := by
  unfold validateObject judgeObject
  refine adds_bind (adds_count _ _ _) (adds_bind (adds_required _ value) ?_)
  refine adds_bind ?_ (adds_score (adds_propertyNames h _ value))
  exact adds_range value fun property _ => adds_property h lib schema property

theorem adds_properties (properties : List (String × ρ)) (value : List (String × Json Number)) :
    Adds orders visitor room (validateProperties properties value)
      (judgeProperties child properties value) := by
  refine adds_range properties fun entry _ => adds_consumeKey entry.1 ?_
  cases value.lookup entry.1 with
  | none => exact adds_skip
  | some nextNode => exact adds_validateRecursive h entry.2 nextNode

end Objects

/-! ### Scalars -/

section Scalars

omit h

variable (lib : Library)

theorem adds_string (schema : SubSchema ρ) (value : Json Number) :
    Adds orders visitor room (validateString lib schema value) (judgeString lib schema value) := by
  cases value with
  | str value =>
    refine adds_bind ?_ (adds_bind ?_ (adds_score ?_))
    · exact adds_if (fun _ => adds_consumeWork _ (adds_count _ _ _)) fun _ => adds_skip
    · cases schema.pattern with
      | none => exact adds_skip
      | some pattern => exact adds_consumeWork _ (adds_require _)
    · exact adds_if (fun _ => adds_skip) fun _ => adds_consumeWork _ (adds_require _)
  | _ => exact adds_skip

theorem adds_limit {κ : Type} (number : Option ℚ) (limit : Option κ) (work : ℕ)
    (test : ℚ → κ → Bool) :
    Adds (ρ := ρ) orders visitor room (validateLimit number limit work test)
      (judgeLimit number limit work test) := by
  cases limit with
  | none => exact adds_skip
  | some limit =>
    refine adds_consumeWork work ?_
    cases number with
    | none => exact fun _ => spends_crash
    | some number => exact adds_require _

theorem adds_number (schema : SubSchema ρ) (value : Json Number) :
    Adds orders visitor room (validateNumber lib schema value) (judgeNumber lib schema value) := by
  cases value with
  | num number =>
    refine adds_bind (adds_limit _ _ _ _) (adds_bind (adds_limit _ _ _ _) ?_)
    refine adds_bind (adds_limit _ _ _ _) (adds_bind (adds_limit _ _ _ _) ?_)
    exact adds_score (adds_limit _ _ _ _)
  | _ => exact adds_skip

end Scalars

/-! ### `validateRecursive` -/

variable (lib : Library)

omit h in
theorem adds_typed (schema : SubSchema ρ) (validType : Bool) {p : Result → Body ρ Result}
    {j : Judgement} (hp : Adds orders visitor room p j) :
    Adds orders visitor room (typed schema validType p)
      (if mistyped schema validType then mismatch else j) :=
  adds_if (fun _ => adds_addInternalError) fun _ => adds_score hp

theorem adds_scalar (schema : SubSchema ρ) (node : Json Number) :
    Adds orders visitor room (fun result => do
      let result ← validateSchema node lib schema result
      let result ← validateNumber lib schema node result
      let result ← validateCommon node schema result
      validateString lib schema node result) (judgeScalar lib child schema node) :=
  adds_bind (adds_schema h node lib schema) (adds_bind (adds_number lib schema node)
    (adds_bind (adds_common node schema) (adds_string lib schema node)))

theorem adds_keywords (schema : SubSchema ρ) (node : Json Number) :
    Adds orders visitor room (validateKeywords lib schema node)
      (judgeKeywords lib child schema node) := by
  cases node with
  | null => exact adds_typed schema _ (adds_bind (adds_schema h _ lib schema) (adds_common _ schema))
  | bool value => exact adds_typed schema _ (adds_scalar h lib schema _)
  | num number =>
    exact adds_consumeWork _ (adds_typed schema _ (adds_scalar h lib schema _))
  | str value => exact adds_typed schema _ (adds_scalar h lib schema _)
  | arr value =>
    exact adds_typed schema _ (adds_bind (adds_schema h _ lib schema)
      (adds_bind (adds_array h schema value) (adds_common _ schema)))
  | obj value =>
    exact adds_typed schema _ (adds_bind (adds_schema h _ lib schema)
      (adds_bind (adds_object h lib schema value) (adds_bind (adds_common _ schema)
        (adds_properties h _ value))))

theorem adds_evaluate (schemas : ρ → SubSchema ρ) (current : ρ) (node : Json Number) :
    Adds orders visitor room (evaluate lib schemas current node)
      (judgeBody lib child schemas current node) := by
  refine adds_consumeWork 1 ?_
  cases (schemas current).pass with
  | some pass => exact adds_require pass
  | none =>
    cases (schemas current).refSchema with
    | some refSchema => exact adds_validateRecursive h refSchema node
    | none => exact adds_keywords h lib _ node

end Schemas

end Modary.Validation
