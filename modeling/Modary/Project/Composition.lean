import Modary.Action.Declared
import Modary.App.Binding

/-! # Compositions in canonical order

What an inspection does before it registers anything: it refuses identities that are declared twice, and
brings modules, actions, channels, capabilities and migrations in order. -/

namespace Modary.Project.Composition

open Modary.Lib.GoText Modary.Lib.GoOrder Modary.Lib.Sorting
open Modary.Action.Errors Modary.Action.Declared
open Modary.Module.Manifests
open Modary.Module.Services (MigrationSource)
open Modary.Schema.Profile (Texts)
open Modary.Action.Contract (SchemaFault)
open Modary.App.Binding hiding Environment

/-- What Go leaves open: how `sort.Slice` orders the errors of one code, in which order a map is
iterated, and which text an error of the vendored engine has, which goes through maps itself. -/
structure Choices where
  sortSpecs : List ErrorSpec → List ErrorSpec
  iterate : {α : Type} → List α → List α
  report : Texts → String

/-- The choices keep to what Go promises. -/
structure Choices.Lawful (c : Choices) : Prop where
  sortSpecs_perm : ∀ specs, (c.sortSpecs specs).Perm specs
  sortSpecs_inOrder : ∀ specs, InOrder (c.sortSpecs specs)
  iterate_perm : ∀ {α : Type} (keys : List α), (c.iterate keys).Perm keys
  report_mem : ∀ texts, c.report texts = texts.first ∨ c.report texts ∈ texts.others

/-- Errors of one code stay as they are, a map is iterated as it was filled. -/
def steady : Choices where
  sortSpecs := sortOn fun spec => order spec.code
  iterate keys := keys
  report := Texts.first

theorem steady_lawful : steady.Lawful :=
  ⟨fun _ => sortOn_perm _ _, fun _ => sortOn_ascending _ _, fun _ => List.Perm.refl _,
    fun _ => .inl rfl⟩

/-- The error of a schema, as this run shows it. -/
def Choices.fault (c : Choices) : SchemaFault → SchemaFault
  | .refused (.engine start texts) => .refused (.engine start ⟨c.report texts, []⟩)
  | .notCompiled texts => .notCompiled ⟨c.report texts, []⟩
  | fault => fault

/-- The error of a descriptor, as this run shows it. -/
def Choices.refusal (c : Choices) : Action.Contract.Refusal → Action.Contract.Refusal
  | .schema name fault => .schema name (c.fault fault)
  | .canonicalize name fault => .canonicalize name (c.fault fault)
  | reason => reason

/-- The texts of the engine in the error of a schema. -/
def faultTexts : SchemaFault → Option Texts
  | .refused (.engine _ texts) => some texts
  | .notCompiled texts => some texts
  | _ => none

/-- The texts of the engine in the error of a descriptor. -/
def refusalTexts : Action.Contract.Refusal → Option Texts
  | .schema _ fault => faultTexts fault
  | .canonicalize _ fault => faultTexts fault
  | _ => none

/-- An error of the engine, if it is one, has one text. -/
def OneText (reason : Action.Contract.Refusal) : Prop :=
  ∀ texts, refusalTexts reason = some texts → texts.Settled

/-- `compositionIdentity`: an owner and a value. -/
abbrev CompositionIdentity := GoString × GoString

/-- The order of identities. -/
def identityOrder (identity : CompositionIdentity) :
    (List ℕ ×ₗ List ℕ) ×ₗ (List ℕ ×ₗ List ℕ) :=
  toLex (order identity.1, order identity.2)

theorem identityOrder_injective : Function.Injective identityOrder := by
  intro a b h
  obtain ⟨h₁, h₂⟩ := Prod.mk.inj (toLex.injective h)
  exact Prod.ext (order_injective h₁) (order_injective h₂)

/-- `firstDuplicateString` and `firstDuplicateCompositionIdentity`: the smallest value counted more than
once, of a map of counts. -/
def firstDuplicate {α γ : Type} [DecidableEq α] [LinearOrder γ] (c : Choices) (key : α → γ)
    (counted : List α) : Option α :=
  (sortOn key ((c.iterate counted.dedup).filter fun value => 1 < counted.count value)).head?

/-- Why `preScanDuplicateIdentities` refuses. -/
inductive Duplicate
  | module (id : GoString)
  | action (owner id : GoString)
  | migration (owner driver : GoString)
  deriving DecidableEq, Repr

/-- The ids of the modules. -/
def moduleIDs (registrations : List Registration) : List GoString :=
  registrations.map fun registration => registration.manifest.id

/-- The actions of a module, under its id. -/
def ownedActions (registration : Registration) : List CompositionIdentity :=
  registration.actions.map fun binding => (registration.manifest.id, binding.descriptor.id)

/-- The migration drivers of a module, under its id. -/
def ownedMigrations (registration : Registration) : List CompositionIdentity :=
  registration.migrations.map fun migration => (registration.manifest.id, migration.driver)

/-- `preScanDuplicateIdentities`. -/
def preScanDuplicateIdentities (c : Choices) (registrations : List Registration) :
    Except Duplicate Unit :=
  match firstDuplicate c order (moduleIDs registrations) with
  | some id => .error (.module id)
  | none =>
    match firstDuplicate c identityOrder (registrations.flatMap ownedActions) with
    | some (owner, id) => .error (.action owner id)
    | none =>
      match firstDuplicate c identityOrder (registrations.flatMap ownedMigrations) with
      | some (owner, driver) => .error (.migration owner driver)
      | none => .ok ()

/-! ### The canonical order -/

/-- A binding with its channels and its errors in order. -/
def canonicalBinding (c : Choices) (binding : ActionBinding) : ActionBinding :=
  { binding with descriptor := { binding.descriptor with
      channels := sortOn order binding.descriptor.channels
      errors := c.sortSpecs binding.descriptor.errors } }

/-- The order of the actions of a module. -/
def actionOrder (binding : ActionBinding) : (List ℕ ×ₗ List ℕ) ×ₗ (List ℕ ×ₗ List ℕ) :=
  toLex (order binding.descriptor.id, order binding.descriptor.version)

/-- The order of the modules. -/
def moduleOrder (registration : Registration) :
    (List ℕ ×ₗ List ℕ) ×ₗ ((List ℕ ×ₗ List ℕ) ×ₗ (List ℕ ×ₗ List ℕ)) :=
  toLex (order registration.manifest.id,
    toLex (order registration.manifest.version, order registration.manifest.type))

/-- A registration with all it lists in order. -/
def canonicalRegistration (c : Choices) (registration : Registration) : Registration :=
  { registration with
    manifest := { registration.manifest with
      requires := sortOn order registration.manifest.requires
      provides := sortOn order registration.manifest.provides }
    actions := sortOn actionOrder (registration.actions.map (canonicalBinding c))
    migrations := sortOn (fun migration : MigrationSource => order migration.driver) registration.migrations }

/-- `canonicalRegistrations`. -/
def canonicalRegistrations (c : Choices) (registrations : List Registration) : List Registration :=
  sortOn moduleOrder (registrations.map (canonicalRegistration c))

/-! ### Reordered definitions -/

/-- Two bindings that differ in the order of channels and errors only. -/
structure SameBinding (binding other : ActionBinding) : Prop where
  rest : { binding.descriptor with channels := [], errors := [] } =
    { other.descriptor with channels := [], errors := [] }
  channels : binding.descriptor.channels.Perm other.descriptor.channels
  errors : binding.descriptor.errors.Perm other.descriptor.errors
  newHandler : binding.newHandler = other.newHandler

/-- Two registrations that differ in the order of what they list only. -/
structure SameRegistration (registration other : Registration) : Prop where
  rest : { registration.manifest with requires := [], provides := [] } =
    { other.manifest with requires := [], provides := [] }
  requires : registration.manifest.requires.Perm other.manifest.requires
  provides : registration.manifest.provides.Perm other.manifest.provides
  actions : ∃ actions, List.Forall₂ SameBinding registration.actions actions ∧ actions.Perm other.actions
  migrations : registration.migrations.Perm other.migrations
  start : registration.start = other.start

/-- Two definitions that differ in the order of modules, and of what they list, only. -/
structure Reordered (definition other : Definition) : Prop where
  metadata : definition.metadata = other.metadata
  modules : ∃ modules, List.Forall₂ SameRegistration definition.modules modules ∧
    modules.Perm other.modules

/-! ### What reordering keeps -/

theorem forall₂_refl {α : Type} {R : α → α → Prop} (h : ∀ a, R a a) (l : List α) : List.Forall₂ R l l := by
  induction l with
  | nil => exact .nil
  | cons a l ih => exact .cons (h a) ih

theorem SameRegistration.refl (registration : Registration) : SameRegistration registration registration where
  rest := rfl
  requires := List.Perm.refl _
  provides := List.Perm.refl _
  actions := ⟨registration.actions,
    forall₂_refl (fun _ => ⟨rfl, List.Perm.refl _, List.Perm.refl _, rfl⟩) _, List.Perm.refl _⟩
  migrations := List.Perm.refl _
  start := rfl

theorem Reordered.refl (definition : Definition) : Reordered definition definition :=
  ⟨rfl, definition.modules, forall₂_refl SameRegistration.refl _, List.Perm.refl _⟩

theorem SameRegistration.id {registration other : Registration} (h : SameRegistration registration other) :
    registration.manifest.id = other.manifest.id := by
  have hid := congrArg Manifest.id h.rest
  exact hid

theorem SameBinding.id {binding other : ActionBinding} (h : SameBinding binding other) :
    binding.descriptor.id = other.descriptor.id := by
  have hid := congrArg Action.Contract.Descriptor.id h.rest
  exact hid

theorem map_eq_of_forall₂ {α β γ : Type} {R : α → β → Prop} {f : α → γ} {g : β → γ} {l : List α} {m : List β}
    (h : List.Forall₂ R l m) (hfg : ∀ a b, R a b → f a = g b) : l.map f = m.map g := by
  induction h with
  | nil => rfl
  | cons hab _ ih => rw [List.map_cons, List.map_cons, hfg _ _ hab, ih]

theorem flatMap_perm_of_forall₂ {α β γ : Type} {R : α → β → Prop} {f : α → List γ} {g : β → List γ}
    {l : List α} {m : List β} (h : List.Forall₂ R l m) (hfg : ∀ a b, R a b → (f a).Perm (g b)) :
    (l.flatMap f).Perm (m.flatMap g) := by
  induction h with
  | nil => exact List.Perm.refl _
  | cons hab _ ih =>
    rw [List.flatMap_cons, List.flatMap_cons]
    exact (hfg _ _ hab).append ih

theorem SameRegistration.ownedActions_perm {registration other : Registration}
    (h : SameRegistration registration other) :
    (ownedActions registration).Perm (ownedActions other) := by
  obtain ⟨actions, hsame, hperm⟩ := h.actions
  have hids : registration.actions.map (fun binding => (registration.manifest.id, binding.descriptor.id)) =
      actions.map fun binding => (other.manifest.id, binding.descriptor.id) :=
    map_eq_of_forall₂ hsame fun a b hab => Prod.ext h.id hab.id
  unfold ownedActions
  rw [hids]
  exact hperm.map _

theorem SameRegistration.ownedMigrations_perm {registration other : Registration}
    (h : SameRegistration registration other) :
    (ownedMigrations registration).Perm (ownedMigrations other) := by
  unfold ownedMigrations
  rw [h.id]
  exact h.migrations.map _

section
variable {c c' : Choices}

/-- The smallest duplicate does not depend on the order in which values are counted. -/
theorem firstDuplicate_perm {α γ : Type} [DecidableEq α] [LinearOrder γ] {key : α → γ}
    (hkey : Function.Injective key) (hc : c.Lawful) (hc' : c'.Lawful) {l₁ l₂ : List α} (h : l₁.Perm l₂) :
    firstDuplicate c key l₁ = firstDuplicate c' key l₂ := by
  unfold firstDuplicate
  have hcount : (fun value => decide (1 < l₁.count value)) = fun value => decide (1 < l₂.count value) :=
    funext fun value => by rw [h.count_eq]
  have hkeys : (c.iterate l₁.dedup).Perm (c'.iterate l₂.dedup) :=
    (hc.iterate_perm _).trans (h.dedup.trans (hc'.iterate_perm _).symm)
  rw [hcount, sortOn_congr (hkeys.filter _) fun _ _ _ _ heq => hkey heq]

theorem firstDuplicate_eq_none {α γ : Type} [DecidableEq α] [LinearOrder γ] {key : α → γ}
    (hc : c.Lawful) {l : List α} : firstDuplicate c key l = none ↔ l.Nodup := by
  unfold firstDuplicate
  rw [List.head?_eq_none_iff, ← List.length_eq_zero_iff, (sortOn_perm _ _).length_eq,
    List.length_eq_zero_iff, List.filter_eq_nil_iff, List.nodup_iff_count_le_one]
  constructor
  · intro h value
    by_cases hmem : value ∈ l
    · have hin := (hc.iterate_perm l.dedup).mem_iff.mpr (List.mem_dedup.mpr hmem)
      have hnot := h value hin
      rw [decide_eq_true_eq] at hnot
      omega
    · rw [List.count_eq_zero_of_not_mem hmem]
      omega
  · intro h value _
    have hle := h value
    rw [decide_eq_true_eq]
    omega

/-- No identity is declared twice. -/
structure Unique (registrations : List Registration) : Prop where
  modules : (moduleIDs registrations).Nodup
  actions : (registrations.flatMap ownedActions).Nodup
  migrations : (registrations.flatMap ownedMigrations).Nodup

theorem preScan_ok_iff (hc : c.Lawful) {registrations : List Registration} :
    preScanDuplicateIdentities c registrations = .ok () ↔ Unique registrations := by
  unfold preScanDuplicateIdentities
  have hm := @firstDuplicate_eq_none c _ _ _ _ order hc (moduleIDs registrations)
  have ha := @firstDuplicate_eq_none c _ _ _ _ identityOrder hc (registrations.flatMap ownedActions)
  have hg := @firstDuplicate_eq_none c _ _ _ _ identityOrder hc (registrations.flatMap ownedMigrations)
  constructor
  · intro h
    cases h₁ : firstDuplicate c order (moduleIDs registrations) with
    | some id => rw [h₁] at h; cases h
    | none =>
      cases h₂ : firstDuplicate c identityOrder (registrations.flatMap ownedActions) with
      | some identity => rw [h₁, h₂] at h; cases h
      | none =>
        cases h₃ : firstDuplicate c identityOrder (registrations.flatMap ownedMigrations) with
        | some identity => rw [h₁, h₂, h₃] at h; cases h
        | none => exact ⟨hm.mp h₁, ha.mp h₂, hg.mp h₃⟩
  · rintro ⟨h₁, h₂, h₃⟩
    rw [hm.mpr h₁, ha.mpr h₂, hg.mpr h₃]

/-- **Duplicates are reported alike** in every order. -/
theorem preScan_reordered (hc : c.Lawful) (hc' : c'.Lawful) {definition other : Definition}
    (h : Reordered definition other) :
    preScanDuplicateIdentities c definition.modules = preScanDuplicateIdentities c' other.modules := by
  obtain ⟨modules, hsame, hperm⟩ := h.modules
  have hids : (moduleIDs definition.modules).Perm (moduleIDs other.modules) := by
    unfold moduleIDs
    rw [map_eq_of_forall₂ hsame fun _ _ hab => hab.id]
    exact hperm.map _
  have hactions : (definition.modules.flatMap ownedActions).Perm (other.modules.flatMap ownedActions) :=
    (flatMap_perm_of_forall₂ hsame fun _ _ hab => hab.ownedActions_perm).trans (hperm.flatMap_right _)
  have hmigrations :
      (definition.modules.flatMap ownedMigrations).Perm (other.modules.flatMap ownedMigrations) :=
    (flatMap_perm_of_forall₂ hsame fun _ _ hab => hab.ownedMigrations_perm).trans (hperm.flatMap_right _)
  unfold preScanDuplicateIdentities
  rw [firstDuplicate_perm order_injective hc hc' hids,
    firstDuplicate_perm identityOrder_injective hc hc' hactions,
    firstDuplicate_perm identityOrder_injective hc hc' hmigrations]

end

/-! ### The canonical order of reordered definitions -/

/-- Two bindings that differ in the order of the errors of one code only. -/
structure AlikeBinding (binding other : ActionBinding) : Prop where
  rest : { binding.descriptor with errors := [] } = { other.descriptor with errors := [] }
  errors : binding.descriptor.errors.Perm other.descriptor.errors
  inOrder : InOrder binding.descriptor.errors
  inOrder_other : InOrder other.descriptor.errors
  newHandler : binding.newHandler = other.newHandler

/-- Two registrations that differ in the order of the errors of one code only. -/
structure AlikeRegistration (registration other : Registration) : Prop where
  manifest : registration.manifest = other.manifest
  actions : List.Forall₂ AlikeBinding registration.actions other.actions
  migrations : registration.migrations = other.migrations
  start : registration.start = other.start

theorem forall₂_map {α β α' β' : Type} {R : α → β → Prop} {S : α' → β' → Prop} {f : α → α'} {g : β → β'}
    {l : List α} {m : List β} (h : List.Forall₂ R l m) (hfg : ∀ a b, R a b → S (f a) (g b)) :
    List.Forall₂ S (l.map f) (m.map g) := by
  induction h with
  | nil => exact .nil
  | cons hab _ ih => exact .cons (hfg _ _ hab) ih

/-- Related lists are sorted alike when related entries have one key. -/
theorem forall₂_sortOn {α β γ : Type} [LinearOrder γ] {R : α → β → Prop} {f : α → γ} {g : β → γ}
    {l : List α} {m : List β} (h : List.Forall₂ R l m) (hkey : ∀ a b, R a b → f a = g b) :
    List.Forall₂ R (sortOn f l) (sortOn g m) := by
  have hinsert : ∀ {a : α} {b : β} {as : List α} {bs : List β}, R a b → List.Forall₂ R as bs →
      List.Forall₂ R (as.orderedInsert (fun x y => f x ≤ f y) a)
        (bs.orderedInsert (fun x y => g x ≤ g y) b) := by
    intro a b as bs hab htail
    induction htail with
    | nil => exact .cons hab .nil
    | cons hcd htail ih =>
      rw [List.orderedInsert_cons, List.orderedInsert_cons, hkey _ _ hab, hkey _ _ hcd]
      split_ifs
      · exact .cons hab (.cons hcd htail)
      · exact .cons hcd ih
  unfold sortOn
  induction h with
  | nil => exact .nil
  | cons hab _ ih =>
    rw [List.insertionSort_cons, List.insertionSort_cons]
    exact hinsert hab ih

section
variable {c c' : Choices}

theorem SameBinding.canonical (hc : c.Lawful) (hc' : c'.Lawful) {binding other : ActionBinding}
    (h : SameBinding binding other) :
    AlikeBinding (canonicalBinding c binding) (canonicalBinding c' other) := by
  obtain ⟨⟨id, version, title, description, inputSchema, previewSchema, outputSchema, permission, preview,
    auditLevel, channels, errors, requiresIdempotency⟩, newHandler⟩ := binding
  obtain ⟨⟨id', version', title', description', inputSchema', previewSchema', outputSchema', permission',
    preview', auditLevel', channels', errors', requiresIdempotency'⟩, newHandler'⟩ := other
  obtain ⟨hrest, hchannels, herrors, hhandler⟩ := h
  simp only [Action.Contract.Descriptor.mk.injEq, true_and] at hrest hchannels herrors hhandler
  refine ⟨?_, ?_, hc.sortSpecs_inOrder _, hc'.sortSpecs_inOrder _, hhandler⟩
  · simp only [canonicalBinding, Action.Contract.Descriptor.mk.injEq, true_and]
    obtain ⟨h₁, h₂, h₃, h₄, h₅, h₆, h₇, h₈, h₉, h₁₀, h₁₁⟩ := hrest
    exact ⟨h₁, h₂, h₃, h₄, h₅, h₆, h₇, h₈, h₉, h₁₀, sortOn_order_congr hchannels, h₁₁⟩
  · exact (hc.sortSpecs_perm _).trans (herrors.trans (hc'.sortSpecs_perm _).symm)

theorem AlikeBinding.id {binding other : ActionBinding} (h : AlikeBinding binding other) :
    binding.descriptor.id = other.descriptor.id := by
  have hid := congrArg Action.Contract.Descriptor.id h.rest
  exact hid

theorem AlikeBinding.actionOrder {binding other : ActionBinding} (h : AlikeBinding binding other) :
    actionOrder binding = actionOrder other := by
  have hversion := congrArg Action.Contract.Descriptor.version h.rest
  have hversion : binding.descriptor.version = other.descriptor.version := hversion
  unfold Composition.actionOrder
  rw [h.id, hversion]

/-- Actions with ids of their own are told apart by their order. -/
theorem sortOn_actionOrder_congr {actions others : List ActionBinding} (h : actions.Perm others)
    (hids : (actions.map fun binding => binding.descriptor.id).Nodup) :
    sortOn actionOrder actions = sortOn actionOrder others := by
  refine sortOn_congr h fun a ha b hb heq => ?_
  exact List.inj_on_of_nodup_map hids ha hb (order_injective (Prod.mk.inj (toLex.injective heq)).1)

theorem nodup_of_owned {α : Type} {owner : GoString} {f : α → GoString} {l : List α}
    (h : (l.map fun a => (owner, f a)).Nodup) : (l.map f).Nodup := by
  have hmap : (l.map fun a => (owner, f a)) = (l.map f).map fun value => (owner, value) := by
    rw [List.map_map]
    rfl
  rw [hmap] at h
  exact h.of_map _

theorem SameRegistration.canonical (hc : c.Lawful) (hc' : c'.Lawful) {registration other : Registration}
    (h : SameRegistration registration other) (hactions : (ownedActions registration).Nodup)
    (hmigrations : (ownedMigrations registration).Nodup) :
    AlikeRegistration (canonicalRegistration c registration) (canonicalRegistration c' other) := by
  obtain ⟨actions, hsame, hperm⟩ := h.actions
  refine ⟨?_, ?_, ?_, h.start⟩
  · obtain ⟨⟨schemaVersion, id, version, type, requires, provides⟩, as, migrations, start⟩ := registration
    obtain ⟨⟨schemaVersion', id', version', type', requires', provides'⟩, as', migrations', start'⟩ := other
    have hrest := h.rest
    simp only [Manifest.mk.injEq] at hrest
    obtain ⟨h₁, h₂, h₃, h₄, -, -⟩ := hrest
    simp only [canonicalRegistration, Manifest.mk.injEq]
    exact ⟨h₁, h₂, h₃, h₄, sortOn_order_congr h.requires, sortOn_order_congr h.provides⟩
  · have halike : List.Forall₂ AlikeBinding (registration.actions.map (canonicalBinding c))
        (actions.map (canonicalBinding c')) := forall₂_map hsame fun _ _ hab => hab.canonical hc hc'
    have hids : ((actions.map (canonicalBinding c')).map fun binding => binding.descriptor.id).Nodup := by
      rw [List.map_map]
      have heq : registration.actions.map (fun binding => binding.descriptor.id) =
          actions.map fun binding => binding.descriptor.id := map_eq_of_forall₂ hsame fun _ _ hab => hab.id
      show (actions.map fun binding => binding.descriptor.id).Nodup
      rw [← heq]
      exact nodup_of_owned hactions
    have hsorted := forall₂_sortOn halike fun _ _ hab => hab.actionOrder
    rw [sortOn_actionOrder_congr (hperm.map (canonicalBinding c')) hids] at hsorted
    exact hsorted
  · have hdrivers := nodup_of_owned (f := fun migration : MigrationSource => migration.driver) hmigrations
    exact sortOn_congr h.migrations fun a ha b hb heq =>
      List.inj_on_of_nodup_map hdrivers ha hb (order_injective heq)

/-- **Reordered definitions have one canonical order**, up to the errors of one code. -/
theorem canonicalRegistrations_alike (hc : c.Lawful) (hc' : c'.Lawful) {definition other : Definition}
    (h : Reordered definition other) (hunique : Unique definition.modules) :
    List.Forall₂ AlikeRegistration (canonicalRegistrations c definition.modules)
      (canonicalRegistrations c' other.modules) := by
  obtain ⟨modules, hsame, hperm⟩ := h.modules
  have hids : moduleIDs definition.modules = moduleIDs modules :=
    map_eq_of_forall₂ hsame fun _ _ hab => hab.id
  have halike : List.Forall₂ AlikeRegistration (definition.modules.map (canonicalRegistration c))
      (modules.map (canonicalRegistration c')) := by
    have hactions := (List.nodup_flatMap.mp hunique.actions).1
    have hmigrations := (List.nodup_flatMap.mp hunique.migrations).1
    clear hperm hids
    generalize definition.modules = registrations at hsame hactions hmigrations
    induction hsame with
    | nil => exact .nil
    | cons hab _ ih =>
      refine .cons (hab.canonical hc hc' (hactions _ List.mem_cons_self) (hmigrations _ List.mem_cons_self)) ?_
      exact ih (fun r hr => hactions r (List.mem_cons_of_mem _ hr)) fun r hr =>
        hmigrations r (List.mem_cons_of_mem _ hr)
  have horder : ∀ a b, AlikeRegistration a b → moduleOrder a = moduleOrder b := by
    intro a b hab
    unfold moduleOrder
    rw [hab.manifest]
  have hsorted := forall₂_sortOn halike horder
  have hnodup : ((modules.map (canonicalRegistration c')).map fun r => r.manifest.id).Nodup := by
    rw [List.map_map]
    show (moduleIDs modules).Nodup
    rw [← hids]
    exact hunique.modules
  have hcongr : sortOn moduleOrder (modules.map (canonicalRegistration c')) =
      sortOn moduleOrder (other.modules.map (canonicalRegistration c')) := by
    refine sortOn_congr (hperm.map _) fun a ha b hb heq => ?_
    exact List.inj_on_of_nodup_map hnodup ha hb (order_injective (Prod.mk.inj (toLex.injective heq)).1)
  unfold canonicalRegistrations
  rw [← hcongr]
  exact hsorted

end

end Modary.Project.Composition
