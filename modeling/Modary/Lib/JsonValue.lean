import Mathlib.Data.List.Induction
import Mathlib.Data.List.Nodup

/-! # JSON values

JSON documents as trees, with the members of an object in their order, and how `encoding/json`
assigns the members of an object to the fields of a struct: to the field of that name, or else to
the one whose name it folds to. -/

namespace Modary.Lib.JsonValue

/-- A JSON value over a type of numbers. -/
inductive Json (ν : Type)
  | null
  | bool (value : Bool)
  | num (value : ν)
  | str (value : String)
  | arr (items : List (Json ν))
  | obj (members : List (String × Json ν))
  deriving Repr

/-! ### Sizes -/

section Sizes

variable {ν : Type}

mutual

/-- The number of values in a document. -/
def nodes : Json ν → ℕ
  | .arr items => 1 + nodesOfItems items
  | .obj members => 1 + nodesOfMembers members
  | _ => 1

def nodesOfItems : List (Json ν) → ℕ
  | [] => 0
  | item :: items => nodes item + nodesOfItems items

def nodesOfMembers : List (String × Json ν) → ℕ
  | [] => 0
  | (_, value) :: members => nodes value + nodesOfMembers members

end

mutual

/-- The number of containers around the deepest value. -/
def depth : Json ν → ℕ
  | .arr items => 1 + depthOfItems items
  | .obj members => 1 + depthOfMembers members
  | _ => 0

def depthOfItems : List (Json ν) → ℕ
  | [] => 0
  | item :: items => max (depth item) (depthOfItems items)

def depthOfMembers : List (String × Json ν) → ℕ
  | [] => 0
  | (_, value) :: members => max (depth value) (depthOfMembers members)

end

mutual

/-- No object has two members of one name. -/
def distinct : Json ν → Bool
  | .arr items => distinctItems items
  | .obj members => (members.map Prod.fst).Nodup && distinctMembers members
  | _ => true

def distinctItems : List (Json ν) → Bool
  | [] => true
  | item :: items => distinct item && distinctItems items

def distinctMembers : List (String × Json ν) → Bool
  | [] => true
  | (_, value) :: members => distinct value && distinctMembers members

end

theorem distinctMembers_iff {members : List (String × Json ν)} :
    distinctMembers members = true ↔ ∀ member ∈ members, distinct member.2 = true := by
  induction members with
  | nil => simp [distinctMembers]
  | cons member members ih =>
    rw [distinctMembers, Bool.and_eq_true, ih, List.forall_mem_cons]

theorem depth_le_of_mem_items {items : List (Json ν)} {item : Json ν} (h : item ∈ items) :
    depth item ≤ depthOfItems items := by
  induction items with
  | nil => cases h
  | cons first items ih =>
    unfold depthOfItems
    rcases List.mem_cons.mp h with rfl | h
    · omega
    · have hle := ih h
      omega

theorem depth_le_of_mem_members {members : List (String × Json ν)} {member : String × Json ν}
    (h : member ∈ members) : depth member.2 ≤ depthOfMembers members := by
  induction members with
  | nil => cases h
  | cons first members ih =>
    unfold depthOfMembers
    rcases List.mem_cons.mp h with rfl | h
    · omega
    · have hle := ih h
      omega

/-- `jsonvalue.Limits`, without the one on number tokens. -/
structure Limits where
  maxBytes : ℕ
  maxDepth : ℕ
  maxNodes : ℕ

/-- A document and the length of its text. -/
structure Raw (ν : Type) where
  value : Json ν
  bytes : ℕ

/-- `jsonvalue.Validate` on a document that parses. -/
def Limits.validate (limits : Limits) (raw : Raw ν) : Bool :=
  raw.bytes ≤ limits.maxBytes && depth raw.value ≤ limits.maxDepth &&
    nodes raw.value ≤ limits.maxNodes && distinct raw.value

theorem nodup_of_validate {limits : Limits} {members : List (String × Json ν)} {bytes : ℕ}
    (h : limits.validate ⟨.obj members, bytes⟩ = true) : (members.map Prod.fst).Nodup := by
  have hd : distinct (.obj members) = true := (Bool.and_eq_true_iff.mp h).2
  unfold distinct at hd
  exact of_decide_eq_true (Bool.and_eq_true_iff.mp hd).1

end Sizes

/-! ### Members by name -/

theorem lookup_cons_if {β : Type} (name key : String) (value : β) (rest : List (String × β)) :
    ((key, value) :: rest).lookup name = if name = key then some value else rest.lookup name := by
  rw [List.lookup_cons]
  by_cases h : name = key
  · simp [h]
  · have hbeq : (name == key) = false := beq_false_of_ne h
    simp [h, hbeq]

/-- A name that occurs once is looked up to its member. -/
theorem lookup_eq_some_iff_mem {β : Type} {members : List (String × β)}
    (hnodup : (members.map Prod.fst).Nodup) {name : String} {value : β} :
    members.lookup name = some value ↔ (name, value) ∈ members := by
  induction members with
  | nil => simp
  | cons member members ih =>
    obtain ⟨key, other⟩ := member
    rw [List.map_cons, List.nodup_cons] at hnodup
    rw [lookup_cons_if, List.mem_cons, Prod.mk.injEq]
    by_cases hname : name = key
    · subst hname
      have hnot : (name, value) ∉ members := by
        intro hmem
        have hfst : name ∈ members.map Prod.fst := List.mem_map_of_mem hmem
        exact hnodup.1 hfst
      simp [hnot, eq_comm]
    · simp [hname, ih hnodup.2]

theorem mem_of_lookup {β : Type} {members : List (String × β)} {name : String} {value : β}
    (h : members.lookup name = some value) : (name, value) ∈ members := by
  obtain ⟨before, after, rfl, -⟩ := List.lookup_eq_some_iff.mp h
  simp

/-! ### Equal values -/

section Equal

variable {ν : Type} [DecidableEq ν]

mutual

/-- The two are the same JSON value: the order of members does not count. -/
def alike : Json ν → Json ν → Bool
  | .null, .null => true
  | .bool a, .bool b => a = b
  | .num a, .num b => a = b
  | .str a, .str b => a = b
  | .arr items, .arr others => alikeItems items others
  | .obj members, .obj others =>
    alikeMembers members others && others.all fun other => other.1 ∈ members.map Prod.fst
  | _, _ => false

def alikeItems : List (Json ν) → List (Json ν) → Bool
  | [], [] => true
  | item :: items, other :: others => alike item other && alikeItems items others
  | _, _ => false

def alikeMembers : List (String × Json ν) → List (String × Json ν) → Bool
  | [], _ => true
  | (name, value) :: members, others =>
    (others.lookup name).any (fun other => alike value other) && alikeMembers members others

end

/-- A member of one object has a member alike of that name in the other. -/
theorem lookup_of_alikeMembers {members others : List (String × Json ν)}
    (h : alikeMembers members others = true) {name : String} {value : Json ν}
    (hvalue : (name, value) ∈ members) :
    ∃ other, others.lookup name = some other ∧ alike value other = true := by
  induction members with
  | nil => cases hvalue
  | cons member members ih =>
    obtain ⟨key, first⟩ := member
    rw [alikeMembers, Bool.and_eq_true] at h
    rcases List.mem_cons.mp hvalue with heq | hrest
    · cases heq
      cases hlookup : others.lookup name with
      | none =>
        rw [hlookup] at h
        cases h.1
      | some other =>
        rw [hlookup] at h
        exact ⟨other, rfl, h.1⟩
    · exact ih h.2 hrest

/-- An object that is like an object with a member has one like it. -/
theorem lookup_of_alike {members others : List (String × Json ν)}
    (h : alike (.obj members) (.obj others) = true) {name : String} {other : Json ν}
    (hother : others.lookup name = some other) :
    ∃ value, members.lookup name = some value ∧ alike value other = true := by
  rw [alike, Bool.and_eq_true, List.all_eq_true] at h
  have hmem : (name, other) ∈ others := mem_of_lookup hother
  have hname : name ∈ members.map Prod.fst := of_decide_eq_true (h.2 _ hmem)
  obtain ⟨value, hvalue⟩ : ∃ value, members.lookup name = some value := by
    cases hlookup : members.lookup name with
    | some value => exact ⟨value, rfl⟩
    | none =>
      obtain ⟨member, hmember, rfl⟩ := List.mem_map.mp hname
      have hne := List.lookup_eq_none_iff.mp hlookup member hmember
      simp at hne
  obtain ⟨found, hfound, halike⟩ := lookup_of_alikeMembers h.1 (mem_of_lookup hvalue)
  rw [hother] at hfound
  cases hfound
  exact ⟨value, hvalue, halike⟩

mutual

/-- A value whose objects have distinct names is like itself. -/
theorem alike_self : ∀ value : Json ν, distinct value = true → alike value value = true
  | .null, _ => rfl
  | .bool _, _ => decide_eq_true rfl
  | .num _, _ => decide_eq_true rfl
  | .str _, _ => decide_eq_true rfl
  | .arr items, h => by
    rw [distinct] at h
    rw [alike]
    exact alikeItems_self items h
  | .obj members, h => by
    rw [distinct, Bool.and_eq_true, decide_eq_true_eq] at h
    have hmembers : alikeMembers members members = true :=
      alikeMembers_self members members h.2 fun name value hmem =>
        (lookup_eq_some_iff_mem h.1).mpr hmem
    rw [alike, hmembers, Bool.true_and, List.all_eq_true]
    intro member hmember
    exact decide_eq_true (List.mem_map_of_mem hmember)

theorem alikeItems_self : ∀ items : List (Json ν), distinctItems items = true →
    alikeItems items items = true
  | [], _ => rfl
  | item :: items, h => by
    rw [distinctItems, Bool.and_eq_true] at h
    rw [alikeItems, alike_self item h.1, alikeItems_self items h.2]
    rfl

theorem alikeMembers_self : ∀ members others : List (String × Json ν),
    distinctMembers members = true →
      (∀ name value, (name, value) ∈ members → others.lookup name = some value) →
        alikeMembers members others = true
  | [], _, _, _ => rfl
  | (name, value) :: members, others, h, hlookup => by
    rw [distinctMembers, Bool.and_eq_true] at h
    have hrest := alikeMembers_self members others h.2 fun key other hmem =>
      hlookup key other (List.mem_cons_of_mem _ hmem)
    rw [alikeMembers, hlookup name value List.mem_cons_self, Option.any_some,
      alike_self value h.1, hrest]
    rfl

end

theorem eq_of_alike_str {value : Json ν} {text : String} (h : alike value (.str text) = true) :
    value = .str text := by
  cases value with
  | str other => exact congrArg Json.str (of_decide_eq_true h)
  | _ => cases h

theorem exists_of_alike_obj {value : Json ν} {others : List (String × Json ν)}
    (h : alike value (.obj others) = true) : ∃ members, value = .obj members := by
  cases value with
  | obj members => exact ⟨members, rfl⟩
  | _ => cases h

end Equal

/-! ### Fields of a struct -/

/-- The smallest character that folds to the same as this one. Of the orbits of `SimpleFold` only
those with a letter in ASCII can meet an ASCII name; the long s and the Kelvin sign are in them. -/
def foldRune (c : Char) : Char :=
  if 'a' ≤ c ∧ c ≤ 'z' then Char.ofNat (c.toNat - 32)
  else if c = Char.ofNat 0x17f then 'S'
  else if c = Char.ofNat 0x212a then 'K'
  else c

/-- `foldName`. -/
def foldName (name : String) : List Char := name.toList.map foldRune

/-- The field that a member is assigned to. -/
def fieldOf (fields : List String) (name : String) : Option String :=
  if name ∈ fields then some name
  else fields.find? fun field => foldName field = foldName name

section Assignment

variable {ν : Type}

theorem fieldOf_of_mem {fields : List String} {name : String} (h : name ∈ fields) :
    fieldOf fields name = some name :=
  if_pos h

theorem mem_of_fieldOf {fields : List String} {name field : String}
    (h : fieldOf fields name = some field) : field ∈ fields := by
  unfold fieldOf at h
  split at h
  · next hmem => exact Option.some.inj h ▸ hmem
  · exact List.mem_of_find?_eq_some h

/-- Of names that fold apart, a member goes to the one that its own folds to. -/
theorem fieldOf_eq_some_iff {fields : List String} (hfold : (fields.map foldName).Nodup)
    {name field : String} :
    fieldOf fields name = some field ↔ field ∈ fields ∧ foldName field = foldName name := by
  have hinj : ∀ a ∈ fields, ∀ b ∈ fields, foldName a = foldName b → a = b :=
    fun a ha b hb heq => List.inj_on_of_nodup_map hfold ha hb heq
  unfold fieldOf
  split_ifs with hname
  · constructor
    · rintro ⟨⟩
      exact ⟨hname, rfl⟩
    · rintro ⟨hfield, heq⟩
      rw [hinj field hfield name hname heq]
  · constructor
    · intro h
      have hsome := List.find?_some h
      exact ⟨List.mem_of_find?_eq_some h, of_decide_eq_true hsome⟩
    · rintro ⟨hfield, heq⟩
      cases hfind : fields.find? fun field => foldName field = foldName name with
      | none => exact absurd heq (by simpa using List.find?_eq_none.mp hfind field hfield)
      | some other =>
        have hsome := List.find?_some hfind
        have hother : foldName other = foldName name := of_decide_eq_true hsome
        rw [hinj other (List.mem_of_find?_eq_some hfind) field hfield (hother.trans heq.symm)]

/-- The values that are assigned to a field, in their order. -/
def assigned (fields : List String) (members : List (String × Json ν)) (field : String) :
    List (Json ν) :=
  (members.filter fun member => fieldOf fields member.1 = some field).map Prod.snd

/-- What one value does to a `*string`: `null` makes it nil, and no other type is taken. -/
def assignPointer (_ : Option String) : Json ν → Option (Option String)
  | .str s => some (some s)
  | .null => some none
  | _ => none

/-- What one value does to a `string`: `null` leaves it as it is. -/
def assignString (old : String) : Json ν → Option String
  | .str s => some s
  | .null => some old
  | _ => none

/-- A `*string` after all the values that are assigned to it. -/
def decodePointer (values : List (Json ν)) : Option (Option String) :=
  values.foldlM assignPointer none

/-- A `string` after all the values that are assigned to it. -/
def decodeString (values : List (Json ν)) : Option String := values.foldlM assignString ""

/-- A text or `null`. -/
def textual : Json ν → Bool
  | .str _ => true
  | .null => true
  | _ => false

/-- The text of a value. -/
def text? : Json ν → Option String
  | .str s => some s
  | _ => none

/-- The last value counts. -/
theorem decodePointer_eq (values : List (Json ν)) :
    decodePointer values =
      if values.all textual then some (values.getLast?.bind text?) else none := by
  induction values using List.reverseRecOn with
  | nil => rfl
  | append_singleton values value ih =>
    unfold decodePointer at ih ⊢
    rw [List.foldlM_append, ih]
    by_cases hall : values.all textual = true
    · cases value <;> simp [hall, assignPointer, textual, text?]
    · cases value <;> simp [hall, textual]

theorem decodeString_toList (found : Option (Json ν)) :
    decodeString found.toList =
      if found.toList.all textual then some ((found.bind text?).getD "") else none := by
  cases found with
  | none => rfl
  | some value => cases value <;> rfl

/-- A field gets the member of its name when every member goes to the field of its own name. -/
theorem assigned_eq_lookup {fields : List String} {members : List (String × Json ν)}
    (hnodup : (members.map Prod.fst).Nodup)
    (hexact : ∀ member ∈ members, fieldOf fields member.1 = some member.1) (field : String) :
    assigned fields members field = (members.lookup field).toList := by
  induction members with
  | nil => rfl
  | cons member members ih =>
    obtain ⟨name, value⟩ := member
    rw [List.map_cons, List.nodup_cons] at hnodup
    have ih := ih hnodup.2 fun other hother => hexact other (List.mem_cons_of_mem _ hother)
    have hfield : fieldOf fields name = some name := hexact (name, value) List.mem_cons_self
    unfold assigned at ih ⊢
    rw [List.lookup_cons]
    by_cases hname : name = field
    · subst hname
      have hnone : members.lookup name = none := by
        rw [List.lookup_eq_none_iff]
        intro other hother
        have hmem : other.1 ∈ members.map Prod.fst := List.mem_map_of_mem hother
        have hne : name ≠ other.1 := fun heq => hnodup.1 (heq ▸ hmem)
        exact bne_iff_ne.mpr hne
      rw [hnone] at ih
      simp [hfield, ih]
    · have hne : (field == name) = false := by simp [Ne.symm hname]
      simp [hfield, hname, hne, ih]

end Assignment

end Modary.Lib.JsonValue
