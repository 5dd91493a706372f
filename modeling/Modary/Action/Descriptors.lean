import Modary.Action.Persistence

/-! # Registered descriptors

The checks that `PrepareDescriptor` makes on the fields of a descriptor that the runtime reads. -/

namespace Modary.Action.Descriptors

open Modary.Lib.GoText Modary.Action.Names Modary.Action.Errors Modary.Action.Types
open Modary.Action.Persistence

def maxDescriptorChannels : ℕ := 32
def maxActionVersionRunes : ℕ := 128
def maxDescriptorErrors : ℕ := 64

/-- `validateDescriptorText`. -/
def validateDescriptorText (field : String) (value : GoString) (required : Bool) (maxRunes : ℕ) :
    Except String Unit :=
  validateText field value required maxRunes isControl

/-- `validActionVersion`. -/
def validActionVersion (checks : Checks) (version : GoString) : Bool :=
  let coreVersion := version.runes.takeWhile fun c => c != '-' && c != '+'
  coreVersion.count '.' == 2 && checks.semverIsValid version

/-- Why a descriptor is refused. -/
inductive Refusal
  | id
  | version (text : String)
  | semanticVersion
  | permission
  | noChannel
  | channelCount
  | channel (text : String)
  | duplicateChannel (channel : GoString)
  | errorCount
  | frameworkCode (code : GoString)
  | errorCode (code : GoString)
  | errorKind (code : GoString) (kind : ErrorKind)
  | internalKind (code : GoString)
  | duplicateCode (code : GoString)
  deriving DecidableEq, Repr

/-- The loop over the channels, with those seen so far. -/
def validateChannels : List GoString → List GoString → Except Refusal Unit
  | _, [] => .ok ()
  | seen, channel :: rest => do
    (validateDescriptorText "channel" channel true maxChannelRunes).mapError .channel
    refuseIf (channel ∈ seen) (.duplicateChannel channel)
    validateChannels (channel :: seen) rest

/-- The loop of `validateErrorSpecs`, with the codes seen so far. -/
def validateSpecs : List GoString → List ErrorSpec → Except Refusal Unit
  | _, [] => .ok ()
  | seen, spec :: rest => do
    refuseIf ((builtinErrorKind spec.code).isSome = true) (.frameworkCode spec.code)
    refuseIf (validCustomErrorCode spec.code = false) (.errorCode spec.code)
    refuseIf (spec.kind.valid = false) (.errorKind spec.code spec.kind)
    refuseIf (spec.kind = .internal) (.internalKind spec.code)
    refuseIf (spec.code ∈ seen) (.duplicateCode spec.code)
    validateSpecs (spec.code :: seen) rest

/-- `validateErrorSpecs`. -/
def validateErrorSpecs (specs : List ErrorSpec) : Except Refusal Unit := do
  refuseIf (maxDescriptorErrors < specs.length) .errorCount
  validateSpecs [] specs

/-- `compileDescriptor` without its title, its description and its schemas. -/
def compileDescriptor (checks : Checks) (descriptor : Descriptor) : Except Refusal Unit := do
  refuseIf (validIdentifier descriptor.id = false) .id
  (validateDescriptorText "version" descriptor.version true maxActionVersionRunes).mapError .version
  refuseIf (validActionVersion checks descriptor.version = false) .semanticVersion
  refuseIf (validIdentifier descriptor.permission = false) .permission
  refuseIf (descriptor.channels = []) .noChannel
  refuseIf (maxDescriptorChannels < descriptor.channels.length) .channelCount
  validateChannels [] descriptor.channels
  validateErrorSpecs descriptor.errors

/-! ### What the checks admit -/

theorem validateChannels_ok {channels : List GoString} : ∀ {seen : List GoString},
    validateChannels seen channels = .ok () → channels.Nodup ∧
      ∀ channel ∈ channels, (∃ s : String, channel = .utf8 s) ∧ channel ∉ seen := by
  induction channels with
  | nil => exact fun _ => ⟨List.nodup_nil, by simp⟩
  | cons channel rest ih =>
    intro seen h
    obtain ⟨_, htext, h⟩ := bind_eq_ok.mp h
    obtain ⟨_, hseen, h⟩ := bind_eq_ok.mp h
    rw [mapError_eq_ok] at htext
    rw [refuseIf_eq_ok] at hseen
    obtain ⟨s, hs, -⟩ := validateText_ok htext
    obtain ⟨hnodup, hrest⟩ := ih h
    constructor
    · refine List.nodup_cons.mpr ⟨fun hmem => ?_, hnodup⟩
      exact (hrest channel hmem).2 List.mem_cons_self
    · intro other hother
      rcases List.mem_cons.mp hother with rfl | hother
      · exact ⟨⟨s, hs⟩, hseen⟩
      · obtain ⟨htext, hnot⟩ := hrest other hother
        exact ⟨htext, fun hmem => hnot (List.mem_cons_of_mem _ hmem)⟩

theorem utf8_of_validCustomErrorCode {code : GoString} (h : validCustomErrorCode code = true) :
    ∃ s : String, code = .utf8 s := by
  cases code with
  | utf8 s => exact ⟨s, rfl⟩
  | raw units =>
    rw [validCustomErrorCode, Bool.and_eq_true] at h
    have hnone : customErrorCodePattern (GoString.raw units).runes = false := rfl
    rw [hnone] at h
    cases h.2

theorem validateSpecs_ok {specs : List ErrorSpec} : ∀ {seen : List GoString},
    validateSpecs seen specs = .ok () → (specs.map ErrorSpec.code).Nodup ∧
      ∀ spec ∈ specs, (∃ s : String, spec.code = .utf8 s) ∧ spec.kind.valid = true ∧
        spec.code ∉ seen := by
  induction specs with
  | nil => exact fun _ => ⟨List.nodup_nil, by simp⟩
  | cons spec rest ih =>
    intro seen h
    simp only [validateSpecs, bind_eq_ok] at h
    obtain ⟨_, -, _, hcode, _, hkind, _, -, _, hseen, h⟩ := h
    rw [refuseIf_eq_ok] at hcode hkind hseen
    rw [Bool.not_eq_false] at hcode hkind
    obtain ⟨hnodup, hrest⟩ := ih h
    constructor
    · rw [List.map_cons]
      refine List.nodup_cons.mpr ⟨fun hmem => ?_, hnodup⟩
      obtain ⟨other, hother, heq⟩ := List.mem_map.mp hmem
      have hnot := (hrest other hother).2.2
      rw [heq] at hnot
      exact hnot List.mem_cons_self
    · intro other hother
      rcases List.mem_cons.mp hother with rfl | hother
      · exact ⟨utf8_of_validCustomErrorCode hcode, hkind, hseen⟩
      · obtain ⟨htext, hvalid, hnot⟩ := hrest other hother
        exact ⟨htext, hvalid, fun hmem => hnot (List.mem_cons_of_mem _ hmem)⟩

theorem utf8_of_valid {kind : ErrorKind} (h : kind.valid = true) :
    ∃ s : String, kind.text = .utf8 s := by
  cases kind with
  | other text => cases h
  | _ => exact ⟨_, rfl⟩

end Modary.Action.Descriptors
