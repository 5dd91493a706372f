import Modary.Project.Inspection

/-! # What an inspection accepts

Which definitions an inspection accepts does not depend on any order, and they are those that `Preflight`
accepts. -/

namespace Modary.Project.Acceptance

open Modary.Lib.GoText Modary.Lib.GoOrder Modary.Lib.Sorting Modary.Lib.JsonText
open Modary.Action.Errors Modary.Action.Types Modary.Action.Declared
open Modary.Action.Contract (Dependencies PreparedDescriptor compileDescriptor hashDescriptorContract
  compilePreview compileValidator)
open Modary.Action.Canonical
open Modary.Action.Descriptors (validateErrorSpecs validateChannels validateDescriptorText)
open Modary.Module.Manifests
open Modary.Module.Services (MigrationSource HostError checkMigrations migrationDriverPattern)
open Modary.Module.Verify (Graph VerifyError verify Resolvable verify_ok_iff)
open Modary.App.Binding Modary.Project.Composition
open Modary.Project.Inspection hiding register prepareActions prepareRegistration prepareDescriptor
  actionOwner

variable {δ φ : Type}

/-! ### Checks that no order decides -/

theorem refuseIf_passes {ε : Type} {p : Prop} [Decidable p] {reason : ε} {u : Unit} :
    refuseIf p reason = .ok u ↔ ¬ p := refuseIf_eq_ok

theorem checkMigrations_ok_iff {id : GoString} : ∀ {seen : List GoString} {sources : List MigrationSource},
    checkMigrations id seen sources = .ok () ↔
      (∀ source ∈ sources, migrationDriverPattern source.driver ≠ false ∧ source.files ≠ false ∧
        source.driver ∉ seen) ∧ (sources.map MigrationSource.driver).Nodup := by
  intro seen sources
  induction sources generalizing seen with
  | nil => simp [checkMigrations]
  | cons source rest ih =>
    unfold checkMigrations
    simp only [bind_eq_ok, refuseIf_passes, exists_const, ih, ← and_assoc]
    rw [fresh_cons fun _ => List.mem_cons.trans or_comm, ← and_assoc]

theorem validateChannels_ok_iff : ∀ {seen channels : List GoString},
    validateChannels seen channels = .ok () ↔
      (∀ channel ∈ channels, validateDescriptorText "channel" channel true maxChannelRunes = .ok () ∧
        channel ∉ seen) ∧ channels.Nodup := by
  intro seen channels
  induction channels generalizing seen with
  | nil => simp [validateChannels]
  | cons channel rest ih =>
    unfold validateChannels
    rw [List.forall_mem_cons, List.nodup_cons]
    simp only [bind_eq_ok, mapError_eq_ok, refuseIf_passes, ih]
    constructor
    · rintro ⟨_, htext, _, hseen, hall, hnodup⟩
      refine ⟨⟨⟨htext, hseen⟩, fun other hother => ?_⟩, ?_, hnodup⟩
      · obtain ⟨h₁, h₂⟩ := hall other hother
        exact ⟨h₁, fun hmem => h₂ (List.mem_cons_of_mem _ hmem)⟩
      · exact fun hmem => (hall channel hmem).2 List.mem_cons_self
    · rintro ⟨⟨⟨htext, hseen⟩, hall⟩, hnew, hnodup⟩
      refine ⟨(), htext, (), hseen, fun other hother => ?_, hnodup⟩
      obtain ⟨h₁, h₂⟩ := hall other hother
      refine ⟨h₁, fun hmem => ?_⟩
      rcases List.mem_cons.mp hmem with rfl | hmem
      · exact hnew hother
      · exact h₂ hmem

/-- A descriptor with its channels and errors in any order is prepared when one is. -/
theorem prepared_of_perm {deps : Dependencies δ} {descriptor : Action.Contract.Descriptor}
    {channels channels' : List GoString} {errors errors' : List ErrorSpec}
    (hchannels : channels.Perm channels') (herrors : errors.Perm errors')
    (h : ∃ compiled hash, compileDescriptor deps { descriptor with channels := channels, errors := errors } =
        .ok compiled ∧
      hashDescriptorContract deps { descriptor with channels := channels, errors := errors } = .ok hash) :
    ∃ compiled hash, compileDescriptor deps { descriptor with channels := channels', errors := errors' } =
        .ok compiled ∧
      hashDescriptorContract deps { descriptor with channels := channels', errors := errors' } = .ok hash := by
  obtain ⟨compiled, hash, hcompiled, hhash⟩ := h
  have hcompiled' : compileDescriptor deps { descriptor with channels := channels', errors := errors' } =
      .ok compiled := by
    unfold compileDescriptor at hcompiled ⊢
    simp only [bind_eq_ok, mapError_eq_ok, refuseIf_passes] at hcompiled ⊢
    obtain ⟨_, h₁, _, h₂, _, h₃, _, h₄, _, h₅, _, h₆, _, h₇, _, h₈, input, h₉, preview, h₁₀, output, h₁₁, _,
      h₁₂, _, h₁₃, _, h₁₄, _, h₁₅, h₁₆⟩ := hcompiled
    refine ⟨(), h₁, (), h₂, (), h₃, (), h₄, (), h₅, (), h₆, (), h₇, (), h₈, input, h₉, preview, h₁₀, output,
      h₁₁, (), ?_, (), ?_, (), ?_, (), ?_, h₁₆⟩
    · intro hnil
      rw [hnil] at hchannels
      exact h₁₂ (List.perm_nil.mp hchannels)
    · rw [← hchannels.length_eq]
      exact h₁₃
    · rw [validateChannels_ok_iff] at h₁₄ ⊢
      rw [← hchannels.nodup_iff]
      simp only [← hchannels.mem_iff]
      exact h₁₄
    · exact (validateErrorSpecs_ok_perm herrors).mp h₁₅
  unfold hashDescriptorContract at hhash
  obtain ⟨input, hinput, hhash⟩ := bind_eq_ok.mp hhash
  obtain ⟨preview, hpreview, hhash⟩ := bind_eq_ok.mp hhash
  obtain ⟨output, houtput, -⟩ := bind_eq_ok.mp hhash
  refine ⟨compiled, deps.sha256 (Action.Contract.material
    { descriptor with channels := channels', errors := errors' } input preview output).text, hcompiled', ?_⟩
  unfold hashDescriptorContract
  exact bind_eq_ok.mpr ⟨input, hinput, bind_eq_ok.mpr ⟨preview, hpreview,
    bind_eq_ok.mpr ⟨output, houtput, rfl⟩⟩⟩

/-- A descriptor is accepted. -/
def Accepted (deps : Dependencies δ) (descriptor : Action.Contract.Descriptor) : Prop :=
  ∃ contract, Action.Contract.prepareDescriptor deps descriptor = .ok contract

/-- A descriptor is accepted in every order of its channels and errors. -/
theorem Accepted.perm {deps : Dependencies δ} {descriptor : Action.Contract.Descriptor}
    {channels : List GoString} {errors : List ErrorSpec} (hchannels : descriptor.channels.Perm channels)
    (herrors : descriptor.errors.Perm errors) (h : Accepted deps descriptor) :
    Accepted deps { descriptor with channels := channels, errors := errors } := by
  obtain ⟨contract, h⟩ := h
  obtain ⟨_, hsizes, h⟩ := bind_eq_ok.mp h
  obtain ⟨compiled, hcompiled, h⟩ := bind_eq_ok.mp h
  obtain ⟨hash, hhash, -⟩ := bind_eq_ok.mp h
  have hsorted := ((sortOn_perm GoString.runes descriptor.channels).trans hchannels).trans
    (sortOn_perm GoString.runes channels).symm
  have hsorted' := ((sortOn_perm (fun spec : ErrorSpec => spec.code.runes) descriptor.errors).trans
    herrors).trans (sortOn_perm (fun spec : ErrorSpec => spec.code.runes) errors).symm
  obtain ⟨compiled, hash, hcompiled, hhash⟩ := prepared_of_perm hsorted hsorted'
    ⟨compiled, hash, hcompiled, hhash⟩
  exact ⟨_, bind_eq_ok.mpr ⟨(), hsizes, bind_eq_ok.mpr ⟨compiled, hcompiled,
    bind_eq_ok.mpr ⟨hash, hhash, rfl⟩⟩⟩⟩

/-- The ids of the actions of registrations. -/
def actionIDs (registrations : List Registration) : List GoString :=
  registrations.flatMap fun registration => registration.actions.map fun binding => binding.descriptor.id

/-- A registration passes by itself. -/
structure Sound (env : Environment δ φ) (registration : Registration) : Prop where
  module : prepareModule env.isValid registration = .ok ()
  actions : ∀ binding ∈ registration.actions,
    binding.newHandler = true ∧ Accepted env.deps binding.descriptor

/-- Registrations pass together. -/
structure Registrable (env : Environment δ φ) (registrations : List Registration) : Prop where
  sound : ∀ registration ∈ registrations, Sound env registration
  modules : (moduleIDs registrations).Nodup
  actions : (actionIDs registrations).Nodup

section
variable {c : Choices} {env : Environment δ φ}

end

/-! ### What an inspection registers -/

section
variable {c : Choices} {env : Environment δ φ}

/-- Each contract is that of a descriptor. -/
def Prepared (c : Choices) (deps : Dependencies δ) (table : Table δ) : Prop :=
  ∀ entry ∈ table, ∃ descriptor, Inspection.prepareDescriptor c deps descriptor = .ok entry.2

end

/-! ### What a preflight registers -/

section
variable {env : Environment δ φ}

end

/-! ### The graph -/

section
variable {env : Environment δ φ}

end

/-! ### The projection -/

section
variable {c : Choices} {env : Environment δ φ}

theorem exists_lookup {α β : Type} [BEq α] [LawfulBEq α] {a : α} {l : List (α × β)}
    (h : a ∈ l.map Prod.fst) : ∃ b, l.lookup a = some b := by
  induction l with
  | nil => cases h
  | cons entry rest ih =>
    obtain ⟨a', b'⟩ := entry
    rw [List.lookup_cons]
    by_cases heq : a = a'
    · exact ⟨b', by simp [heq]⟩
    · rw [beq_eq_false_iff_ne.mpr heq]
      refine ih ((List.mem_cons.mp h).resolve_left heq)

end

/-! ### Inspection and preflight -/

section
variable {c : Choices} {env : Environment δ φ} {definition : Definition}

/-- Registrations that pass declare no identity twice. -/
theorem Registrable.unique {registrations : List Registration} (h : Registrable env registrations) :
    Unique registrations where
  modules := h.modules
  actions := by
    have hmap : (registrations.flatMap ownedActions).map Prod.snd = actionIDs registrations := by
      rw [List.map_flatMap]
      unfold actionIDs ownedActions
      simp only [List.map_map]
      rfl
    exact List.Nodup.of_map Prod.snd (hmap ▸ h.actions)
  migrations := by
    refine List.nodup_flatMap.mpr ⟨fun registration hregistration => ?_, ?_⟩
    · obtain ⟨_, -, hmodule⟩ := bind_eq_ok.mp (h.sound registration hregistration).module
      obtain ⟨_, -, hmigrations⟩ := bind_eq_ok.mp hmodule
      obtain ⟨-, hnodup⟩ := checkMigrations_ok_iff.mp hmigrations
      unfold ownedMigrations
      have hmap : (registration.migrations.map fun migration => (registration.manifest.id, migration.driver)) =
          (registration.migrations.map MigrationSource.driver).map fun driver =>
            (registration.manifest.id, driver) := by
        rw [List.map_map]
        rfl
      rw [hmap]
      exact hnodup.map fun a b hab => (Prod.mk.inj hab).2
    · have hpairwise := h.modules
      unfold moduleIDs at hpairwise
      rw [List.Nodup, List.pairwise_map] at hpairwise
      refine hpairwise.imp fun {a b} hne => ?_
      intro x hx hy
      obtain ⟨m, -, rfl⟩ := List.mem_map.mp hx
      obtain ⟨n, -, heq⟩ := List.mem_map.mp hy
      exact hne (Prod.mk.inj heq).1.symm

end

end Modary.Project.Acceptance
