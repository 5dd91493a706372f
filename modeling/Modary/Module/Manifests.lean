import Modary.Lib.GoText

/-! # Module manifests

The identity and capability contract of a module, and the checks it passes before it takes part in
a graph. Whether a text is a Semantic Version is decided by a library of its own, here a
parameter. -/

namespace Modary.Module.Manifests

open Modary.Lib.GoText

/-- `SchemaVersion`. -/
def schemaVersion : GoString := .utf8 "modary.module/v1alpha2"

/-- `ModuleTypeFeature`. -/
def moduleTypeFeature : GoString := .utf8 "feature"

/-- `ModuleTypeAdapter`. -/
def moduleTypeAdapter : GoString := .utf8 "adapter"

/-- The manifest of a module. A capability is its name. -/
structure Manifest where
  schemaVersion : GoString
  id : GoString
  version : GoString
  type : GoString
  requires : List GoString
  provides : List GoString
  deriving DecidableEq, Repr

/-- The field of a manifest that lists capabilities. -/
inductive Field
  | requires
  | provides
  deriving DecidableEq, Repr

/-- What a manifest is refused for, with the values its message shows. -/
inductive Refusal
  | schemaVersion (id value : GoString)
  | id (id : GoString)
  | version (id value : GoString)
  | type (id value : GoString)
  | capability (id : GoString) (field : Field) (capability : GoString)
  | capabilityRepeated (id : GoString) (field : Field) (capability : GoString)
  deriving DecidableEq, Repr

/-- `[a-z][a-z0-9-]{0,62}`. -/
def validName (s : List Char) : Bool :=
  matchToken isLower (fun c => isLower c || isDigit c || c == '-') 62 s

/-- `moduleIDPattern`. -/
def moduleIDPattern (value : GoString) : Bool := validName value.runes

/-- `capabilityPattern`: names separated by dots and slashes. -/
def capabilityPattern (value : GoString) : Bool :=
  (value.runes.splitOnP fun c => c == '.' || c == '/').all validName

/-- The text of a version before its first `-` or `+` has two dots. -/
def hasCoreVersion : GoString → Bool
  | .utf8 s => (s.toList.takeWhile fun c => c != '-' && c != '+').count '.' == 2
  | .raw units => (units.takeWhile fun c => c != .inl '-' && c != .inl '+').count (.inl '.') == 2

/-- `"v" + version`. -/
def tagged : GoString → GoString
  | .utf8 s => .utf8 ("v" ++ s)
  | .raw units => .raw (.inl 'v' :: units)

/-- `validateCapabilities`, with the capabilities met so far. -/
def validateCapabilities (moduleID : GoString) (field : Field) :
    List GoString → List GoString → Except Refusal Unit
  | _, [] => .ok ()
  | seen, capability :: rest =>
    if 127 < byteLength capability.runes ∨ capabilityPattern capability = false then
      .error (.capability moduleID field capability)
    else if capability ∈ seen then .error (.capabilityRepeated moduleID field capability)
    else validateCapabilities moduleID field (capability :: seen) rest

/-- `ValidateManifest`. -/
def validateManifest (isValid : GoString → Bool) (manifest : Manifest) : Except Refusal Unit := do
  refuseIf (manifest.schemaVersion ≠ schemaVersion)
    (.schemaVersion manifest.id manifest.schemaVersion)
  refuseIf (moduleIDPattern manifest.id = false) (.id manifest.id)
  refuseIf (hasCoreVersion manifest.version = false ∨ isValid (tagged manifest.version) = false)
    (.version manifest.id manifest.version)
  refuseIf (manifest.type ≠ moduleTypeFeature ∧ manifest.type ≠ moduleTypeAdapter)
    (.type manifest.id manifest.type)
  validateCapabilities manifest.id .requires [] manifest.requires
  validateCapabilities manifest.id .provides [] manifest.provides

/-! ### What the checks pass -/

/-- The value is text: Go's order of such values is the order of their runes. -/
def IsText (value : GoString) : Prop := ∃ s : String, value = .utf8 s

theorem IsText.eq_of_runes {a b : GoString} (ha : IsText a) (hb : IsText b)
    (h : a.runes = b.runes) : a = b := by
  obtain ⟨s, rfl⟩ := ha
  obtain ⟨t, rfl⟩ := hb
  exact congrArg GoString.utf8 (String.toList_injective h)

theorem isText_of_moduleIDPattern {value : GoString} (h : moduleIDPattern value = true) :
    IsText value := by
  cases value with
  | utf8 s => exact ⟨s, rfl⟩
  | raw units => exact absurd h (by simp [moduleIDPattern, validName, GoString.runes, matchToken])

theorem isText_of_capabilityPattern {value : GoString} (h : capabilityPattern value = true) :
    IsText value := by
  cases value with
  | utf8 s => exact ⟨s, rfl⟩
  | raw units =>
    have hnil : validName [] = false := rfl
    simp [capabilityPattern, GoString.runes, hnil] at h

theorem validateCapabilities_ok {moduleID : GoString} {field : Field} :
    ∀ {seen capabilities : List GoString},
      validateCapabilities moduleID field seen capabilities = .ok () →
      capabilities.Nodup ∧ (∀ c ∈ capabilities, IsText c) ∧ ∀ c ∈ capabilities, c ∉ seen
  | _, [], _ => ⟨List.nodup_nil, by simp, by simp⟩
  | seen, c :: rest, h => by
    unfold validateCapabilities at h
    split_ifs at h with h₁ h₂
    obtain ⟨hnd, htext, hnew⟩ := validateCapabilities_ok h
    have hc : IsText c := isText_of_capabilityPattern (by simpa using fun hf => h₁ (Or.inr hf))
    refine ⟨List.nodup_cons.mpr ⟨fun hmem => hnew c hmem List.mem_cons_self, hnd⟩, ?_, ?_⟩
    · intro d hd
      rcases List.mem_cons.mp hd with rfl | hd
      · exact hc
      · exact htext d hd
    · intro d hd
      rcases List.mem_cons.mp hd with rfl | hd
      · exact h₂
      · exact fun hs => hnew d hd (List.mem_cons_of_mem _ hs)

/-- A manifest that passes: its names are text, and no capability is provided twice. -/
structure Named (manifest : Manifest) : Prop where
  id : IsText manifest.id
  requires : ∀ c ∈ manifest.requires, IsText c
  provides : ∀ c ∈ manifest.provides, IsText c
  provides_nodup : manifest.provides.Nodup

theorem named_of_validateManifest {isValid : GoString → Bool} {manifest : Manifest}
    (h : validateManifest isValid manifest = .ok ()) : Named manifest := by
  simp only [validateManifest, bind_eq_ok] at h
  obtain ⟨_, -, _, hid, _, -, _, -, _, hreq, hprov⟩ := h
  have hpattern : moduleIDPattern manifest.id = true := by simpa using refuseIf_eq_ok.mp hid
  obtain ⟨-, hr, -⟩ := validateCapabilities_ok hreq
  obtain ⟨hnd, hp, -⟩ := validateCapabilities_ok hprov
  exact ⟨isText_of_moduleIDPattern hpattern, hr, hp, hnd⟩

end Modary.Module.Manifests
