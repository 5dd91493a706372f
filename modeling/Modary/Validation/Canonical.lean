import Modary.Lib.Decimal
import Modary.Lib.JsonAlike
import Modary.Lib.Sized
import Modary.Validation.Spending

/-! # Canonical texts

`canonicalNumber` and `writeCanonicalValue` of `internal/jsonschema/engine/utils.go`: the texts by
which `const`, `enum` and `uniqueItems` compare values. -/

namespace Modary.Validation

open Modary.Lib.JsonNumber Modary.Lib.JsonValue Modary.Lib.JsonText
open Modary.Lib.Codec Modary.Lib.Decimal
open Modary.Lib.GoText (byteLength isDigit)
open Modary.Lib.JsonPlace (length_mapItems)

variable {ρ : Type}

/-! ### Numbers -/

/-- `canonicalNumber`, on the parts of a token. -/
def canonicalNumber (value : Number) : List Char :=
  let fraction := value.fraction.getD []
  let mantissa := value.whole ++ fraction
  let exponent := (value.exponent.map exponentValue).getD 0
  let coefficient := mantissa.dropWhile (· = '0')
  if coefficient = [] then ['0', 'e', '0']
  else
    let exponent := exponent - fraction.length
    let trimmed := coefficient.rdropWhile (· = '0')
    let exponent := exponent + (coefficient.length - trimmed.length : ℤ)
    (if value.negative then '-' :: trimmed else trimmed) ++ 'e' :: encodeInt exponent

/-- The digits of a form behind its sign. -/
def coefficientText (f : Form) : List Char :=
  if f.digits = [] then ['0'] else if f.negative then '-' :: f.digits else f.digits

/-- The text of a form. -/
def formText (f : Form) : List Char := coefficientText f ++ 'e' :: encodeInt f.exponent

theorem canonicalNumber_eq (n : Number) : canonicalNumber n = formText (form n) := by
  unfold canonicalNumber form mantissa scale formText coefficientText
  simp only
  by_cases hnil : (n.whole ++ n.fraction.getD []).dropWhile (· = '0') = []
  · simp only [if_pos hnil]
    rfl
  · have hne := rdropWhile_ne_nil hnil (head_dropWhile_ne _)
    simp only [if_neg hnil, if_neg hne]

/-- The exponent is behind the only `e`. -/
theorem not_mem_coefficientText {f : Form} (h : f.Proper) : 'e' ∉ coefficientText f := by
  have hdigits : 'e' ∉ f.digits := by
    intro hmem
    have hdigit := List.all_eq_true.mp h.digits 'e' hmem
    revert hdigit
    decide
  unfold coefficientText
  split_ifs with hnil hnegative
  · decide
  · intro hmem
    rcases List.mem_cons.mp hmem with heq | hmem
    · revert heq
      decide
    · exact hdigits hmem
  · exact hdigits

theorem coefficientText_inj {f g : Form} (hf : f.Proper) (hg : g.Proper)
    (h : coefficientText f = coefficientText g) : f.negative = g.negative ∧ f.digits = g.digits := by
  have hsign : ∀ {f : Form}, f.Proper → ∀ cs, f.digits ≠ '-' :: cs := by
    intro f hf cs heq
    have hall := hf.digits
    rw [heq, List.all_cons, Bool.and_eq_true] at hall
    exact absurd hall.1 (by decide)
  unfold coefficientText at h
  by_cases hfnil : f.digits = [] <;> by_cases hgnil : g.digits = []
  · rw [hf.zero hfnil, hg.zero hgnil]
    exact ⟨rfl, rfl⟩
  · rw [if_pos hfnil, if_neg hgnil] at h
    split_ifs at h with hneg
    · cases h
    · exact absurd (by rw [← h]; rfl) hg.head
  · rw [if_neg hfnil, if_pos hgnil] at h
    split_ifs at h with hneg
    · cases h
    · exact absurd (by rw [h]; rfl) hf.head
  · rw [if_neg hfnil, if_neg hgnil] at h
    cases hfneg : f.negative <;> cases hgneg : g.negative <;> simp only [hfneg, hgneg, if_true,
      Bool.false_eq_true, if_false] at h
    · exact ⟨rfl, h⟩
    · exact absurd h (hsign hf _)
    · exact absurd h.symm (hsign hg _)
    · exact ⟨rfl, (List.cons.inj h).2⟩

theorem formText_inj {f g : Form} (hf : f.Proper) (hg : g.Proper) (h : formText f = formText g) :
    f = g := by
  have hbefore : ∀ {f : Form}, f.Proper →
      (formText f).takeWhile (· ≠ 'e') = coefficientText f := by
    intro f hf
    have hall : ∀ c ∈ coefficientText f, decide (c ≠ 'e') = true := by
      intro c hc
      refine decide_eq_true ?_
      rintro rfl
      exact not_mem_coefficientText hf hc
    rw [formText, List.takeWhile_append_of_pos hall]
    simp
  have hcoefficient : coefficientText f = coefficientText g := by
    rw [← hbefore hf, ← hbefore hg, h]
  obtain ⟨hnegative, hdigits⟩ := coefficientText_inj hf hg hcoefficient
  rw [formText, formText, hcoefficient, List.append_cancel_left_eq, List.cons.injEq] at h
  have hexponent : f.exponent = g.exponent := by
    have hstop := encodeInt_delimitedBy f.exponent g.exponent ':' ':' [] [] notDecimal_colon
      notDecimal_colon (by rw [h.2])
    exact hstop.1
  obtain ⟨fn, fd, fe⟩ := f
  obtain ⟨gn, gd, ge⟩ := g
  simp only at hnegative hdigits hexponent
  rw [hnegative, hdigits, hexponent]

/-! ### Values -/

mutual

/-- The text of a value whose members are in order. -/
def valueText : Json Form → List Char
  | .null => ['z']
  | .bool value => if value then ['b', '1'] else ['b', '0']
  | .str value => 's' :: encodeSized value.toList
  | .num value => 'n' :: encodeSized (formText value)
  | .arr items => 'a' :: (encodeInt items.length ++ ':' :: itemsText items)
  | .obj members => 'o' :: (encodeInt members.length ++ ':' :: membersText members)

def itemsText : List (Json Form) → List Char
  | [] => []
  | item :: items => valueText item ++ itemsText items

def membersText : List (String × Json Form) → List Char
  | [] => []
  | (name, value) :: members =>
    'k' :: (encodeSized name.toList ++ (valueText value ++ membersText members))

end

/-- A count in front of something. -/
theorem counted_inj {m n : ℕ} {r s : List Char}
    (h : encodeInt m ++ ':' :: r = encodeInt n ++ ':' :: s) : m = n ∧ r = s := by
  obtain ⟨hcount, -, hrest⟩ :=
    encodeInt_delimitedBy _ _ _ _ _ _ notDecimal_colon notDecimal_colon h
  exact ⟨by exact_mod_cast hcount, hrest⟩

mutual

/-- The text of a value tells it from every other and from what follows. -/
theorem valueText_inj : ∀ (v w : Json Number) {r s : List Char},
    valueText (mapNumbers form v) ++ r = valueText (mapNumbers form w) ++ s →
      mapNumbers form v = mapNumbers form w ∧ r = s
  | .null, w, r, s, h => by
    cases w with
    | null => exact ⟨rfl, (List.cons.inj h).2⟩
    | bool value => cases value <;> cases (List.cons.inj h).1
    | _ => cases (List.cons.inj h).1
  | .bool value, w, r, s, h => by
    cases w with
    | bool other =>
      cases value <;> cases other
      · exact ⟨rfl, (List.cons.inj (List.cons.inj h).2).2⟩
      · cases (List.cons.inj (List.cons.inj h).2).1
      · cases (List.cons.inj (List.cons.inj h).2).1
      · exact ⟨rfl, (List.cons.inj (List.cons.inj h).2).2⟩
    | _ => cases value <;> cases (List.cons.inj h).1
  | .str value, w, r, s, h => by
    cases w with
    | str other =>
      obtain ⟨hvalue, hrest⟩ := encodeSized_selfDelimiting _ _ _ _ (List.cons.inj h).2
      rw [String.toList_inj.mp hvalue]
      exact ⟨rfl, hrest⟩
    | bool value => cases value <;> cases (List.cons.inj h).1
    | _ => cases (List.cons.inj h).1
  | .num value, w, r, s, h => by
    cases w with
    | num other =>
      obtain ⟨hvalue, hrest⟩ := encodeSized_selfDelimiting _ _ _ _ (List.cons.inj h).2
      have hform := formText_inj (form_proper value) (form_proper other) hvalue
      rw [mapNumbers, mapNumbers, hform]
      exact ⟨rfl, hrest⟩
    | bool value => cases value <;> cases (List.cons.inj h).1
    | _ => cases (List.cons.inj h).1
  | .arr items, w, r, s, h => by
    cases w with
    | arr others =>
      simp only [mapNumbers, valueText, List.cons_append, List.append_assoc, List.cons.injEq,
        true_and] at h
      obtain ⟨hcount, hrest⟩ := counted_inj h
      rw [length_mapItems, length_mapItems] at hcount
      obtain ⟨hitems, hrs⟩ := itemsText_inj items others hcount hrest
      rw [mapNumbers, mapNumbers, hitems]
      exact ⟨rfl, hrs⟩
    | bool value => cases value <;> cases (List.cons.inj h).1
    | _ => cases (List.cons.inj h).1
  | .obj members, w, r, s, h => by
    cases w with
    | obj others =>
      simp only [mapNumbers, valueText, List.cons_append, List.append_assoc, List.cons.injEq,
        true_and] at h
      obtain ⟨hcount, hrest⟩ := counted_inj h
      rw [mapMembers_eq_map, mapMembers_eq_map, List.length_map, List.length_map] at hcount
      obtain ⟨hmembers, hrs⟩ := membersText_inj members others hcount hrest
      rw [mapNumbers, mapNumbers, hmembers]
      exact ⟨rfl, hrs⟩
    | bool value => cases value <;> cases (List.cons.inj h).1
    | _ => cases (List.cons.inj h).1

theorem itemsText_inj : ∀ (v w : List (Json Number)) {r s : List Char}, v.length = w.length →
    itemsText (mapItems form v) ++ r = itemsText (mapItems form w) ++ s →
      mapItems form v = mapItems form w ∧ r = s
  | [], w, r, s, hlength, h => by
    cases w with
    | nil => exact ⟨rfl, h⟩
    | cons other others => cases hlength
  | item :: items, w, r, s, hlength, h => by
    cases w with
    | nil => cases hlength
    | cons other others =>
      rw [mapItems, mapItems, itemsText, itemsText, List.append_assoc, List.append_assoc] at h
      obtain ⟨hitem, hrest⟩ := valueText_inj item other h
      obtain ⟨hitems, hrs⟩ := itemsText_inj items others (Nat.succ.inj hlength) hrest
      rw [mapItems, mapItems, hitem, hitems]
      exact ⟨rfl, hrs⟩

theorem membersText_inj : ∀ (v w : List (String × Json Number)) {r s : List Char},
    v.length = w.length →
      membersText (mapMembers form v) ++ r = membersText (mapMembers form w) ++ s →
        mapMembers form v = mapMembers form w ∧ r = s
  | [], w, r, s, hlength, h => by
    cases w with
    | nil => exact ⟨rfl, h⟩
    | cons other others => cases hlength
  | (name, value) :: members, w, r, s, hlength, h => by
    cases w with
    | nil => cases hlength
    | cons other others =>
      obtain ⟨key, other⟩ := other
      simp only [mapMembers, membersText, List.cons_append, List.append_assoc, List.cons.injEq,
        true_and] at h
      obtain ⟨hname, hrest⟩ := encodeSized_selfDelimiting _ _ _ _ h
      obtain ⟨hvalue, hrest⟩ := valueText_inj value other hrest
      obtain ⟨hmembers, hrs⟩ := membersText_inj members others (Nat.succ.inj hlength) hrest
      rw [mapMembers, mapMembers, String.toList_inj.mp hname, hvalue, hmembers]
      exact ⟨rfl, hrs⟩

end

mutual

theorem allNumbers_true {ν : Type} : ∀ v : Json ν, allNumbers (fun _ => true) v = true
  | .null => rfl
  | .bool _ => rfl
  | .num _ => rfl
  | .str _ => rfl
  | .arr items => by rw [allNumbers, allItems_true items]
  | .obj members => by rw [allNumbers, allMembers_true members]

theorem allItems_true {ν : Type} : ∀ v : List (Json ν), allItems (fun _ => true) v = true
  | [] => rfl
  | item :: items => by
    rw [allItems, allNumbers_true item, allItems_true items]
    rfl

theorem allMembers_true {ν : Type} : ∀ v : List (String × Json ν),
    allMembers (fun _ => true) v = true
  | [] => rfl
  | (_, value) :: members => by
    rw [allMembers, allNumbers_true value, allMembers_true members]
    rfl

end

/-- What `marshalWithoutNumber` makes of a value. -/
def canonicalText (value : Json Number) : List Char := valueText (mapNumbers form (ordered value))

/-- **Canonical texts are equal when the values are.** -/
theorem canonicalText_eq_iff {v w : Json Number} (hv : distinct v = true)
    (hw : distinct w = true) : canonicalText v = canonicalText w ↔
      alike (mapNumbers numberValue v) (mapNumbers numberValue w) = true := by
  have hforms : canonicalText v = canonicalText w ↔
      mapNumbers form (ordered v) = mapNumbers form (ordered w) := by
    constructor
    · intro h
      refine (valueText_inj (ordered v) (ordered w) (r := []) (s := []) ?_).1
      rw [List.append_nil, List.append_nil]
      exact h
    · intro h
      rw [canonicalText, canonicalText, h]
  have hv' : distinct (mapNumbers form v) = true := (distinct_mapNumbers form v).trans hv
  have hw' : distinct (mapNumbers form w) = true := (distinct_mapNumbers form w).trans hw
  rw [hforms, ← ordered_mapNumbers, ← ordered_mapNumbers, ordered_eq_iff _ _ hv' hw']
  have hsame := alike_mapNumbers (p := fun _ => true) (f := form) (g := numberValue)
    (fun n m _ _ => form_eq_iff) v w (allNumbers_true v) (allNumbers_true w)
  rw [hsame]

/-! ### Writing them -/

mutual

/-- `writeCanonicalValue`, on a value whose members are in order; no number of a document is
refused by `canonicalNumber`. -/
def writeCanonicalValue : Json Number → Body ρ (List Char)
  | .null => do
    consumeWork 1
    pure ['z']
  | .bool value => do
    consumeWork 1
    pure (if value then ['b', '1'] else ['b', '0'])
  | .str value => do
    consumeWork 1
    consumeWork (byteLength value.toList)
    pure ('s' :: encodeSized value.toList)
  | .num value => do
    consumeWork 1
    consumeWork (numberWork value)
    pure ('n' :: encodeSized (canonicalNumber value))
  | .arr items => do
    consumeWork 1
    let output ← writeItems items
    pure ('a' :: (encodeInt items.length ++ ':' :: output))
  | .obj members => do
    consumeWork 1
    consumeWork (sortWork members.length)
    let output ← writeMembers members
    pure ('o' :: (encodeInt members.length ++ ':' :: output))

def writeItems : List (Json Number) → Body ρ (List Char)
  | [] => pure []
  | item :: items => do
    let text ← writeCanonicalValue item
    let output ← writeItems items
    pure (text ++ output)

def writeMembers : List (String × Json Number) → Body ρ (List Char)
  | [] => pure []
  | (name, value) :: members => do
    consumeWork (byteLength name.toList)
    let text ← writeCanonicalValue value
    let output ← writeMembers members
    pure ('k' :: (encodeSized name.toList ++ (text ++ output)))

end

/-- `marshalWithoutNumberBudget`: the members of every object are sorted by their names. -/
def marshalWithoutNumberBudget (value : Json Number) : Body ρ (List Char) :=
  writeCanonicalValue (ordered value)

mutual

/-- The work of writing a value. -/
def writingWork : Json Number → ℕ
  | .null => 1
  | .bool _ => 1
  | .str value => 1 + byteLength value.toList
  | .num value => 1 + numberWork value
  | .arr items => 1 + itemsWork items
  | .obj members => 1 + sortWork members.length + membersWork members

def itemsWork : List (Json Number) → ℕ
  | [] => 0
  | item :: items => writingWork item + itemsWork items

def membersWork : List (String × Json Number) → ℕ
  | [] => 0
  | (name, value) :: members => byteLength name.toList + writingWork value + membersWork members

end

/-- The work of `marshalWithoutNumberBudget`. -/
def marshalWork (value : Json Number) : ℕ := writingWork (ordered value)

section Rules

variable {orders : Orders} {visitor : Visit ρ} {room : ℕ}

mutual

theorem spends_writeCanonicalValue : ∀ v : Json Number,
    Spends orders visitor room (writeCanonicalValue v) (.units (writingWork v))
      fun text => text = valueText (mapNumbers form v)
  | .null => by
    refine spends_work 1 (spends_pure ?_)
    rfl
  | .bool value => by
    refine spends_work 1 (spends_pure ?_)
    rfl
  | .str value => by
    refine spends_work 1 (spends_work _ (spends_pure ?_))
    rfl
  | .num value => by
    refine spends_work 1 (spends_work _ (spends_pure ?_))
    rw [canonicalNumber_eq]
    rfl
  | .arr items => by
    refine spends_work 1 (spends_map (spends_writeItems items) fun output houtput => ?_)
    rw [houtput, mapNumbers, valueText, length_mapItems]
  | .obj members => by
    rw [writingWork, Judgement.units_add, Judgement.units_add, add_assoc]
    refine spends_work 1 (spends_work _ (spends_map (spends_writeMembers members)
      fun output houtput => ?_))
    rw [houtput, mapNumbers, valueText, mapMembers_eq_map, List.length_map]

theorem spends_writeItems : ∀ items : List (Json Number),
    Spends orders visitor room (writeItems items) (.units (itemsWork items))
      fun text => text = itemsText (mapItems form items)
  | [] => spends_pure rfl
  | item :: items => by
    rw [itemsWork, Judgement.units_add]
    refine spends_bind (spends_writeCanonicalValue item) fun text htext => ?_
    refine spends_map (spends_writeItems items) fun output houtput => ?_
    rw [htext, houtput, mapItems, itemsText]

theorem spends_writeMembers : ∀ members : List (String × Json Number),
    Spends orders visitor room (writeMembers members) (.units (membersWork members))
      fun text => text = membersText (mapMembers form members)
  | [] => spends_pure rfl
  | (name, value) :: members => by
    rw [membersWork, Judgement.units_add, Judgement.units_add, add_assoc]
    refine spends_work _ ?_
    refine spends_bind (spends_writeCanonicalValue value) fun text htext => ?_
    refine spends_map (spends_writeMembers members) fun output houtput => ?_
    rw [htext, houtput, mapMembers, membersText]

end

theorem spends_marshal (v : Json Number) :
    Spends orders visitor room (marshalWithoutNumberBudget v) (.units (marshalWork v))
      fun text => text = canonicalText v :=
  spends_writeCanonicalValue (ordered v)

end Rules

/-- **Two values are written alike when they are alike**, their numbers compared by value: whatever
is left of the budgets of the calls that write them. -/
theorem written_eq_iff {orders orders' : Orders} {visitor visitor' : Visit ρ} {v w : Json Number}
    {m m' after after' : Machine} {text text' : List Char} (hv : distinct v = true)
    (hw : distinct w = true) (hm : m.budget.Sound) (hm' : m'.budget.Sound)
    (htext : run orders visitor (marshalWithoutNumberBudget v) m = .ok (text, after))
    (htext' : run orders' visitor' (marshalWithoutNumberBudget w) m' = .ok (text', after')) :
    text = text' ↔ alike (mapNumbers numberValue v) (mapNumbers numberValue w) = true := by
  have hfirst : Spends orders visitor 0 _ _ _ := spends_marshal v
  have hsecond : Spends orders' visitor' 0 _ _ _ := spends_marshal w
  have hv' := hfirst m hm
  have hw' := hsecond m' hm'
  rw [htext] at hv'
  rw [htext'] at hw'
  have htexts : text = canonicalText v := hv'.2.2
  have htexts' : text' = canonicalText w := hw'.2.2
  rw [htexts, htexts', canonicalText_eq_iff hv hw]

section Sample

/-- A call with so many work units. -/
def sampleMachine (work : ℕ) : Machine := ⟨⟨⟨work, 1, 1⟩, 0, 0, 0, none⟩, 0⟩

theorem sampleMachine_sound (work : ℕ) (h : work ≤ 100) : (sampleMachine work).budget.Sound := by
  have hmax : maxUint64 = 18446744073709551615 := rfl
  exact ⟨Nat.zero_le _, Nat.zero_le _, Nat.zero_le _, show work ≤ maxUint64 by omega,
    show 1 ≤ maxUint64 by omega, show 1 < maxUint64 by omega, rfl⟩

/-- `1.0` -/
def sampleOne : Number := ⟨false, ['1'], some ['0'], none, rfl, rfl, rfl⟩

/-- `10e-1` -/
def sampleTen : Number :=
  ⟨false, ['1', '0'], none, some ⟨false, some true, ['1']⟩, rfl, rfl, rfl⟩

theorem written_eq_iff_sample :
    alike (mapNumbers numberValue (.obj [("a", .num sampleOne), ("b", .null)]))
      (mapNumbers numberValue (.obj [("b", .null), ("a", .num sampleTen)])) = true :=
  (written_eq_iff (by decide) (by decide) (sampleMachine_sound 50 (by omega))
    (sampleMachine_sound 90 (by omega))
    (show run (fun _ _ => 1) (fun (_ : Empty) _ result m => .ok (result, m))
        (marshalWithoutNumberBudget (.obj [("a", .num sampleOne), ("b", .null)]))
        (sampleMachine 50) = .ok ("o2:k1:an3:1e0k1:bz".toList, _) from rfl)
    (show run (fun _ _ => 1) (fun (_ : Empty) _ result m => .ok (result, m))
        (marshalWithoutNumberBudget (.obj [("b", .null), ("a", .num sampleTen)]))
        (sampleMachine 90) = .ok ("o2:k1:an3:1e0k1:bz".toList, _) from rfl)).mp rfl

end Sample

end Modary.Validation
