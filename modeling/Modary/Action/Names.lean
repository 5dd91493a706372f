import Modary.Lib.GoText

/-! # Identifiers, actors and scopes

The value types that every governed request carries (`identity.Actor`, `scope.Execution`) and the
checks the framework makes on them. An error is the text of the source's error. -/

namespace Modary.Action.Names

open Modary.Lib.GoText

/-! ### Identifiers -/

/-- `maxActionIdentifierBytes`. -/
def maxActionIdentifierBytes : ℕ := 127

/-- One segment of an identifier: `[a-z][a-z0-9_-]{0,62}`. -/
def validSegment (s : List Char) : Bool :=
  matchToken isLower (fun c => isLower c || isDigit c || c == '_' || c == '-') 62 s

/-- `action.ValidIdentifier`: dot-separated segments, at most 127 bytes. -/
def validIdentifier (value : GoString) : Bool :=
  byteLength value.runes ≤ maxActionIdentifierBytes && (value.runes.splitOn '.').all validSegment

/-! ### Actors -/

/-- `identity.Actor`. -/
structure Actor where
  id : GoString
  type : GoString
  displayName : GoString
  deriving DecidableEq, Repr

def maxActorIDRunes : ℕ := 256

def maxActorTypeRunes : ℕ := 64

def maxDisplayNameRunes : ℕ := 256

/-- `identity.validateActorText`. -/
def validateActorText (name : String) (value : GoString) (required : Bool) (limit : ℕ) :
    Except String Unit :=
  validateText name value required limit isControl

/-- `identity.ValidateActorID`. -/
def validateActorID (value : GoString) : Except String Unit :=
  validateActorText "actor id" value true maxActorIDRunes

/-- `identity.ValidateActorType`. -/
def validateActorType (value : GoString) : Except String Unit :=
  validateActorText "actor type" value true maxActorTypeRunes

/-- `identity.ValidateDisplayName`. -/
def validateDisplayName (value : GoString) : Except String Unit :=
  validateActorText "actor display name" value false maxDisplayNameRunes

/-- `identity.ValidateActor`. -/
def validateActor (actor : Actor) : Except String Unit := do
  validateActorID actor.id
  validateActorType actor.type
  validateDisplayName actor.displayName

/-! ### Scopes -/

/-- `scope.Execution`. -/
structure Execution where
  kind : GoString
  id : GoString
  deriving DecidableEq, Repr

def maxKindRunes : ℕ := 64

def maxIDRunes : ℕ := 256

/-- `^[a-z][a-z0-9._-]{0,63}$`. -/
def kindPattern (s : List Char) : Bool :=
  matchToken isLower (fun c => isLower c || isDigit c || c == '.' || c == '_' || c == '-') 63 s

/-- `scope.Execution.Validate`. -/
def Execution.validate (execution : Execution) : Except String Unit :=
  if !execution.kind.validString then .error "execution scope kind must be valid UTF-8"
  else if !kindPattern execution.kind.runes || maxKindRunes < execution.kind.runes.length then
    .error "execution scope kind must match ^[a-z][a-z0-9._-]\x7b0,63\x7d$"
  else if !execution.id.validString then .error "execution scope id must be valid UTF-8"
  else if execution.id == .utf8 "" || trimSpace execution.id.runes != execution.id.runes ||
      maxIDRunes < execution.id.runes.length then
    .error "execution scope id must contain 1 to 256 non-surrounding-whitespace characters"
  else if execution.id.runes.any isControl then
    .error "execution scope id cannot contain control characters"
  else .ok ()

/-! ### What the checks admit -/

theorem utf8_of_validIdentifier {value : GoString} (h : validIdentifier value = true) :
    ∃ s : String, value = .utf8 s := by
  cases value with
  | utf8 s => exact ⟨s, rfl⟩
  | raw b =>
    have : validSegment [] = false := rfl
    simp [validIdentifier, GoString.runes, this] at h

/-- An identifier has between 1 and 127 characters. -/
theorem length_of_validIdentifier {s : String} (h : validIdentifier (.utf8 s) = true) :
    1 ≤ s.length ∧ s.length ≤ maxActionIdentifierBytes := by
  obtain ⟨h1, h2⟩ := Bool.and_eq_true_iff.mp h
  have hb : byteLength s.toList ≤ maxActionIdentifierBytes := of_decide_eq_true h1
  have ha : (s.toList.splitOn '.').all validSegment = true := h2
  rw [← String.length_toList]
  refine ⟨?_, (length_le_byteLength _).trans hb⟩
  rcases hs : s.toList with _ | ⟨c, cs⟩
  · rw [hs] at ha
    exact absurd ha (by decide)
  · simp

theorem utf8_of_validateActor {actor : Actor} (h : validateActor actor = .ok ()) :
    (∃ s : String, actor.id = .utf8 s) ∧ ∃ s : String, actor.type = .utf8 s := by
  unfold validateActor at h
  rcases h1 : validateActorID actor.id with e | u <;> rw [h1] at h
  · simp [bind, Except.bind] at h
  rcases h2 : validateActorType actor.type with e | v <;> rw [h2] at h
  · simp [bind, Except.bind] at h
  obtain ⟨s, hs, -⟩ := validateText_ok h1
  obtain ⟨t, ht, -⟩ := validateText_ok h2
  exact ⟨⟨s, hs⟩, ⟨t, ht⟩⟩

theorem utf8_of_scope_validate {execution : Execution} (h : execution.validate = .ok ()) :
    (∃ s : String, execution.kind = .utf8 s) ∧ ∃ s : String, execution.id = .utf8 s := by
  unfold Execution.validate at h
  split_ifs at h with h1 h2 h3 h4 h5
  cases hk : execution.kind with
  | raw b => simp [hk, GoString.validString] at h1
  | utf8 s =>
    cases hi : execution.id with
    | raw b => simp [hi, GoString.validString] at h3
    | utf8 t => exact ⟨⟨s, rfl⟩, ⟨t, rfl⟩⟩

end Modary.Action.Names
