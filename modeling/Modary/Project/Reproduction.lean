import Modary.Project.Acceptance

/-! # Reproducible inspections

What an inspection answers about a definition depends on the order of nothing but the errors of one code,
on the iteration of a map when a module shares several actions with the modules before it, and on the
maps of the vendored engine when a schema makes it stop in more than one way. -/

namespace Modary.Project.Reproduction

open Modary.Lib.GoText Modary.Lib.Sorting Modary.Lib.JsonText
open Modary.Module.Manifests
open Modary.App.Binding hiding actionIDs
open Modary.Project.Composition Modary.Project.Acceptance
open Modary.Project.Inspection hiding register prepareActions prepareRegistration prepareDescriptor
  actionOwner

variable {δ φ : Type}

/-! ### What decides the answer -/

section
variable {env : Environment δ φ} {definition : Definition}

/-- What an inspection reports of a module, after others that pass, is settled: of its actions that can be
reached the errors are settled and the engine has one text for what it refuses, and it shares one action
with the others at most. -/
structure Decided (env : Environment δ φ) (before : List Registration) (registration : Registration) :
    Prop where
  descriptors : prepareModule env.isValid registration = .ok () →
    ∀ earlier binding later, registration.actions = earlier ++ binding :: later →
      (∀ other ∈ earlier, other.newHandler = true ∧ Accepted env.deps other.descriptor) →
        binding.newHandler = true → SettledDescriptor env.deps binding.descriptor
  shared : Sound env registration →
    (registration.actions.filter fun binding => binding.descriptor.id ∈ actionIDs before).length ≤ 1

end

/-! ### Two modules that share two actions -/

/-- A module with two actions. -/
def twofold (id : String) : Registration where
  manifest := ⟨schemaVersion, .utf8 id, .utf8 "1.0.0", moduleTypeFeature, [], []⟩
  actions := [⟨{ guarded with id := .utf8 "first" }, true⟩, ⟨{ guarded with id := .utf8 "second" }, true⟩]
  migrations := []
  start := false

/-- An application of two such modules. -/
def overlapping : Definition :=
  ⟨⟨.utf8 "app", .utf8 "App", .utf8 "1.0.0"⟩, [twofold "notes", twofold "tasks"]⟩

/-- The action that an inspection reports as owned. -/
def reported {δ : Type} : Except InspectError (Snapshot δ) → Option GoString
  | .error (.register (.host (.actionOwned action _ _))) => some action
  | _ => none

end Modary.Project.Reproduction
