import Modary.Action.Descriptors
import Modary.Lib.GoOrder

/-! # Declared errors

What `validateErrorSpecs` reports of the errors of an action, and when it reports the same however two
errors of one code are ordered, which `sort.Slice` leaves open. -/

namespace Modary.Action.Declared

open Modary.Lib.GoText Modary.Lib.GoOrder Modary.Lib.Sorting
open Modary.Action.Errors Modary.Action.Descriptors

/-- The code of an error an action may declare. -/
def validCode (code : GoString) : Bool := (builtinErrorKind code).isNone && validCustomErrorCode code

/-- The kind of an error an action may declare. -/
def declarable (kind : ErrorKind) : Bool := kind.valid && kind != .internal

/-- What is reported of a code that is not valid. -/
def codeFault (code : GoString) : Refusal :=
  if (builtinErrorKind code).isSome = true then .frameworkCode code else .errorCode code

/-- What is reported of a kind that is not declarable. -/
def kindFault (code : GoString) (kind : ErrorKind) : Refusal :=
  if kind.valid = false then .errorKind code kind else .internalKind code

/-- The errors are in the order of their codes. -/
def InOrder (specs : List ErrorSpec) : Prop := specs.Pairwise fun a b => order a.code ≤ order b.code

/-- The errors declared under a code. -/
def under (specs : List ErrorSpec) (code : GoString) : List ErrorSpec :=
  specs.filter fun spec => spec.code = code

/-- The errors under a code leave one thing to report: none of their kinds can be declared but for one
error at most, and those that cannot are the same; or all can. -/
def SettledUnder (kinds : List ErrorKind) : Prop :=
  (∀ kind ∈ kinds, declarable kind = true) ∨
    (kinds.filter declarable).length ≤ 1 ∧
      ∀ kind ∈ kinds, ∀ other ∈ kinds, declarable kind = false → declarable other = false → kind = other

/-- The check reaches a code: it is valid, and each smaller one passes. -/
def Reached (specs : List ErrorSpec) (code : GoString) : Prop :=
  validCode code = true ∧ ∀ spec ∈ specs, order spec.code < order code →
    validCode spec.code = true ∧ declarable spec.kind = true ∧ (under specs spec.code).length ≤ 1

/-- The errors leave one thing to report under each code that the check reaches. -/
def SettledCodes (specs : List ErrorSpec) : Prop :=
  ∀ code, Reached specs code → SettledUnder ((under specs code).map ErrorSpec.kind)

/-- The errors of an action leave one thing to report. -/
def Settled (specs : List ErrorSpec) : Prop := specs.length ≤ maxDescriptorErrors → SettledCodes specs

/-! ### One error after the other -/

section
variable {seen : List GoString} {spec other : ErrorSpec} {rest specs : List ErrorSpec}

theorem validateSpecs_of_code (h : validCode spec.code = false) :
    validateSpecs seen (spec :: rest) = .error (codeFault spec.code) := by
  unfold validateSpecs
  rw [validCode, Bool.and_eq_false_iff] at h
  by_cases hbuiltin : (builtinErrorKind spec.code).isSome = true
  · simp [refuseIf, codeFault, hbuiltin, bind, Except.bind]
  · have hcustom : validCustomErrorCode spec.code = false := by
      rcases h with h | h
      · rw [Option.isNone_eq_false_iff] at h
        exact absurd h hbuiltin
      · exact h
    simp [refuseIf, codeFault, hbuiltin, hcustom, bind, Except.bind]

theorem validateSpecs_of_kind (hcode : validCode spec.code = true) (h : declarable spec.kind = false) :
    validateSpecs seen (spec :: rest) = .error (kindFault spec.code spec.kind) := by
  unfold validateSpecs
  rw [validCode, Bool.and_eq_true, Option.isNone_iff_eq_none] at hcode
  by_cases hvalid : spec.kind.valid = false
  · simp [refuseIf, kindFault, hcode.1, hcode.2, hvalid, bind, Except.bind]
  · rw [Bool.not_eq_false] at hvalid
    have hinternal : spec.kind = .internal := by simpa [declarable, hvalid] using h
    rw [hinternal] at hvalid ⊢
    simp [refuseIf, kindFault, hcode.1, hcode.2, hvalid, bind, Except.bind]

theorem validateSpecs_of_passed (hcode : validCode spec.code = true) (hkind : declarable spec.kind = true) :
    validateSpecs seen (spec :: rest) =
      if spec.code ∈ seen then .error (.duplicateCode spec.code)
      else validateSpecs (spec.code :: seen) rest := by
  rw [validateSpecs]
  rw [validCode, Bool.and_eq_true, Option.isNone_iff_eq_none] at hcode
  rw [declarable, Bool.and_eq_true, bne_iff_ne] at hkind
  by_cases hseen : spec.code ∈ seen
  · simp [refuseIf, hcode.1, hcode.2, hkind.1, hkind.2, hseen, bind, Except.bind]
  · simp [refuseIf, hcode.1, hcode.2, hkind.1, hkind.2, hseen, bind, Except.bind]

/-- **What passes**: codes and kinds that an action may declare, every code once. -/
theorem validateSpecs_ok_iff : ∀ {specs : List ErrorSpec} {seen : List GoString},
    validateSpecs seen specs = .ok () ↔
      (∀ spec ∈ specs, validCode spec.code = true ∧ declarable spec.kind = true ∧ spec.code ∉ seen) ∧
        (specs.map ErrorSpec.code).Nodup := by
  intro specs
  induction specs with
  | nil => intro seen; simp [validateSpecs]
  | cons spec rest ih =>
    intro seen
    simp only [← and_assoc]
    rw [fresh_cons fun _ => List.mem_cons.trans or_comm]
    cases hcode : validCode spec.code with
    | false => simp [validateSpecs_of_code hcode]
    | true =>
      cases hkind : declarable spec.kind with
      | false => simp [validateSpecs_of_kind hcode hkind]
      | true =>
        rw [validateSpecs_of_passed hcode hkind]
        by_cases hseen : spec.code ∈ seen
        · simp [hseen]
        · rw [if_neg hseen, ih]
          simp only [hseen, not_false_eq_true, and_self, true_and, ← and_assoc]

/-- The order of the errors does not decide whether they pass. -/
theorem validateErrorSpecs_ok_perm {specs others : List ErrorSpec} (h : specs.Perm others) :
    validateErrorSpecs specs = .ok () ↔ validateErrorSpecs others = .ok () := by
  unfold validateErrorSpecs
  rw [bind_eq_ok, bind_eq_ok, h.length_eq]
  refine exists_congr fun _ => and_congr_right fun _ => ?_
  rw [validateSpecs_ok_iff, validateSpecs_ok_iff, (h.map _).nodup_iff]
  simp only [h.mem_iff]

end

/-! ### Orders of one code -/

theorem under_perm {specs others : List ErrorSpec} (h : specs.Perm others) (code : GoString) :
    (under specs code).Perm (under others code) := h.filter _

theorem SettledUnder.perm {kinds others : List ErrorKind} (hp : kinds.Perm others)
    (h : SettledUnder kinds) : SettledUnder others := by
  rcases h with h | ⟨h, hsame⟩
  · exact Or.inl fun kind hkind => h kind (hp.mem_iff.mpr hkind)
  · refine Or.inr ⟨?_, ?_⟩
    · rw [← (hp.filter _).length_eq]
      exact h
    · intro kind hkind other hother
      exact hsame kind (hp.mem_iff.mpr hkind) other (hp.mem_iff.mpr hother)

theorem Reached.perm {specs others : List ErrorSpec} {code : GoString} (hp : specs.Perm others)
    (h : Reached others code) : Reached specs code := by
  refine ⟨h.1, fun spec hspec hlt => ?_⟩
  rw [(under_perm hp spec.code).length_eq]
  exact h.2 spec (hp.mem_iff.mp hspec) hlt

theorem SettledCodes.perm {specs others : List ErrorSpec} (hp : specs.Perm others)
    (h : SettledCodes specs) : SettledCodes others := fun code hreached =>
  ((h code (hreached.perm hp))).perm ((under_perm hp code).map _)

/-- The first two errors of a settled code decide alike. -/
theorem SettledUnder.pair {kinds : List ErrorKind} {k₁ k₂ l₁ l₂ : ErrorKind} {code : GoString}
    {ks ls : List ErrorKind} (h : SettledUnder kinds) (hk : kinds.Perm (k₁ :: k₂ :: ks))
    (hl : kinds.Perm (l₁ :: l₂ :: ls)) :
    (if declarable k₁ = false then kindFault code k₁
      else if declarable k₂ = false then kindFault code k₂ else .duplicateCode code) =
    (if declarable l₁ = false then kindFault code l₁
      else if declarable l₂ = false then kindFault code l₂ else .duplicateCode code) := by
  have hmem : ∀ {a b : ErrorKind} {cs : List ErrorKind}, kinds.Perm (a :: b :: cs) →
      a ∈ kinds ∧ b ∈ kinds := by
    intro a b cs hp
    exact ⟨hp.mem_iff.mpr (by simp), hp.mem_iff.mpr (by simp)⟩
  obtain ⟨hk₁, hk₂⟩ := hmem hk
  obtain ⟨hl₁, hl₂⟩ := hmem hl
  rcases h with hall | ⟨hfew, hsame⟩
  · simp only [hall k₁ hk₁, hall k₂ hk₂, hall l₁ hl₁, hall l₂ hl₂, Bool.true_eq_false, if_false]
  · -- one of the first two cannot be declared, as at most one can be
    have hfirst : ∀ {a b : ErrorKind} {cs : List ErrorKind}, kinds.Perm (a :: b :: cs) →
        declarable a = false ∨ declarable b = false := by
      intro a b cs hp
      by_contra hboth
      push Not at hboth
      rw [ne_eq, Bool.not_eq_false, ne_eq, Bool.not_eq_false] at hboth
      have hlength := (hp.filter declarable).length_eq
      rw [List.filter_cons_of_pos hboth.1, List.filter_cons_of_pos hboth.2] at hlength
      simp only [List.length_cons] at hlength
      omega
    have hreport : ∀ {a b : ErrorKind}, a ∈ kinds → b ∈ kinds → (declarable a = false ∨ declarable b = false) →
        ∃ k ∈ kinds, declarable k = false ∧
          (if declarable a = false then kindFault code a
            else if declarable b = false then kindFault code b else .duplicateCode code) =
            kindFault code k := by
      intro a b ha hb hab
      by_cases hfalse : declarable a = false
      · exact ⟨a, ha, hfalse, by rw [if_pos hfalse]⟩
      · have hb' : declarable b = false := hab.resolve_left hfalse
        exact ⟨b, hb, hb', by rw [if_neg hfalse, if_pos hb']⟩
    obtain ⟨k, hk, hkf, hkeq⟩ := hreport hk₁ hk₂ (hfirst hk)
    obtain ⟨l, hl, hlf, hleq⟩ := hreport hl₁ hl₂ (hfirst hl)
    rw [hkeq, hleq, hsame k hk l hl hkf hlf]

/-- A settled list stays settled when its first error has passed. -/
theorem SettledCodes.tail {spec : ErrorSpec} {rest : List ErrorSpec} (h : SettledCodes (spec :: rest))
    (hsole : (under (spec :: rest) spec.code).length ≤ 1) (hcode : validCode spec.code = true)
    (hkind : declarable spec.kind = true) : SettledCodes rest := by
  rintro code ⟨hvalid, hsmaller⟩
  have hnone : under rest spec.code = [] := by
    rw [under, List.filter_cons_of_pos (by simp), List.length_cons] at hsole
    exact List.length_eq_zero_iff.mp (Nat.le_zero.mp (Nat.le_of_succ_le_succ hsole))
  have hother : ∀ c, c ≠ spec.code → under (spec :: rest) c = under rest c := by
    intro c hc
    rw [under, List.filter_cons_of_neg (by simpa using fun heq => hc heq.symm)]
    rfl
  by_cases heq : code = spec.code
  · rw [heq, hnone]
    exact Or.inl (by simp)
  · rw [← hother code heq]
    refine h code ⟨hvalid, fun other hmem hlt => ?_⟩
    rcases List.mem_cons.mp hmem with rfl | hmem
    · exact ⟨hcode, hkind, hsole⟩
    · obtain ⟨h₁, h₂, h₃⟩ := hsmaller other hmem hlt
      refine ⟨h₁, h₂, ?_⟩
      by_cases hsame : other.code = spec.code
      · rw [hsame]
        exact hsole
      · rw [hother _ hsame]
        exact h₃

end Modary.Action.Declared
