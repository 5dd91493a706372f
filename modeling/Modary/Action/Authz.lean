import Modary.Action.Names

/-! # The authorization contract

The policy input and the decision of package `authz`. -/

namespace Modary.Action.Authz

open Modary.Lib.GoText Modary.Action.Names

/-- `authz.Phase`; `other` is any other text. -/
inductive Phase
  | intent
  | impact
  | other (text : GoString)
  deriving DecidableEq, Repr

/-- `authz.Impact`. A nil and an empty resource list are not told apart. -/
structure Impact where
  rows : ℤ := 0
  resources : List GoString := []
  deriving DecidableEq, Repr

/-- `authz.Request`. -/
structure Request where
  actor : Actor
  operationID : GoString
  permission : GoString
  scope : Execution
  phase : Phase
  impact : Impact
  deriving DecidableEq, Repr

/-- `authz.Decision`, with the row limit of its constraints. -/
structure Decision where
  allowed : Bool := false
  code : GoString := .utf8 ""
  reason : GoString := .utf8 ""
  requiredPermission : GoString := .utf8 ""
  maxRows : ℤ := 0
  fingerprint : GoString := .utf8 ""
  deriving DecidableEq, Repr

end Modary.Action.Authz
