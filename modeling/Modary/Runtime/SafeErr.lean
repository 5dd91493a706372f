import Modary.Action.Errors
import Modary.Lib.Preorder

/-! # The walk over an error graph

`safeerr.Walk`. An error is an address of a graph, and what the walk can see of it is a shape: it
calls no method but `Unwrap`, and that of trusted packages alone. The visitor is a computation of any
monad, so it may keep a state or panic. -/

namespace Modary.Runtime.SafeErr

open Modary.Lib.Preorder

variable {ν : Type}

def maxNodes : ℕ := 64

def trustedFrameworkPackages : List String :=
  ["github.com/iiwish/modary/action", "github.com/iiwish/modary/appcmd",
    "github.com/iiwish/modary/database", "github.com/iiwish/modary/internal/actionruntime",
    "github.com/iiwish/modary/internal/databasecontrol", "github.com/iiwish/modary/internal/safeerr",
    "github.com/iiwish/modary/internal/transactionoutcome", "github.com/iiwish/modary/module",
    "github.com/iiwish/modary/projecttool"]

def trustedStandardPackages : List String :=
  ["context", "errors", "fmt", "io/fs", "net", "net/http", "net/url", "os", "os/exec", "syscall"]

/-- `trustedPackagePath`. -/
def trustedPackagePath (packagePath : String) : Bool :=
  packagePath ∈ trustedStandardPackages || packagePath ∈ trustedFrameworkPackages

/-- What a call of a method does. -/
inductive Outcome (α : Type)
  | returns (value : α)
  | panics

/-- What the walk sees of an error that is not nil. -/
structure Shape (ν : Type) where
  /-- `isNil`: a nil of a type that has one -/
  isNil : Bool
  /-- the cause, of an `*opaqueError` -/
  opaqueCause : Option (Option ν)
  /-- the package of the type behind its pointers -/
  packagePath : String
  /-- the method `Unwrap() []error`, where there is one -/
  unwrapMany : Option (Outcome (List (Option ν)))
  /-- the method `Unwrap() error`, where there is one -/
  unwrapOne : Option (Outcome (Option ν))

/-- `trustedUnwrapper`. -/
def trustedUnwrapper (packagePath : String) : Bool :=
  if packagePath = "" then false else trustedPackagePath packagePath

/-- A list of one error, if it is not nil. -/
def one (child : Option ν) : List (Option ν) :=
  match child with
  | none => []
  | some child => [some child]

/-- `unwrapTrustedUnchecked`, with a bound on the errors that are copied. -/
def unwrapTrustedUnchecked (bound : List (Option ν) → List (Option ν)) (err : Shape ν) :
    Outcome (List (Option ν)) :=
  if err.isNil then .returns []
  else
    match err.opaqueCause with
    | some cause => .returns (one cause)
    | none =>
      if trustedUnwrapper err.packagePath = false then .returns []
      else
        match err.unwrapMany, err.unwrapOne with
        | some (.returns values), _ => .returns (bound values)
        | some .panics, _ => .panics
        | none, some (.returns child) => .returns (one child)
        | none, some .panics => .panics
        | none, none => .returns []

/-- The children of an unwrapping that may have panicked. -/
def recovered : Outcome (List (Option ν)) → List (Option ν)
  | .returns children => children
  | .panics => []

/-- `unwrapTrusted`. -/
def unwrapTrusted (err : Shape ν) : List (Option ν) :=
  recovered (unwrapTrustedUnchecked (List.take maxNodes) err)

section Walk

variable {m : Type → Type} [Monad m] (graph : ν → Shape ν) (visit : ν → m Bool)

/-- The loop of `Walk`, with the top of the stack first: so many visits are left. -/
def walkLoop : ℕ → List (Option ν) → m Bool
  | 0, _ => pure false
  | _ + 1, [] => pure false
  | remaining + 1, none :: stack => walkLoop remaining stack
  | remaining + 1, some current :: stack => do
    if ← visit current then pure true
    else walkLoop remaining ((unwrapTrusted (graph current)).take remaining ++ stack)

/-- `Walk`. -/
def walk (root : Option ν) (visit : Option (ν → m Bool)) : m Bool :=
  match root, visit with
  | some root, some visit => walkLoop graph visit maxNodes [some root]
  | _, _ => pure false

variable {graph visit}

end Walk

/-- The errors that the classifiers go through are those of the same unfolding. -/
theorem errors_walk_eq (heap : Action.Errors.Heap) (root : Action.Errors.Err) {depth : ℕ}
    (hdepth : maxNodes ≤ depth) : Action.Errors.walk heap root =
      ((preorder (fun err => (Action.Errors.unwrapTrusted heap err).map (entryOf (· == .nil))) depth
        (entryOf (· == .nil) root)).take maxNodes).reduceOption := by
  have h := visit_eq (Action.Errors.unwrapTrusted heap) (fun err => err == .nil) depth maxNodes [root]
    hdepth
  rw [List.map_singleton, List.flatMap_singleton] at h
  exact h

end Modary.Runtime.SafeErr
