import Mathlib.Data.List.Basic
import Modary.Lib.JsonValue

/-! # Places in a JSON document

A place is the way from the root of a document to a value in it. One value can be replaced, or the
texts at a whole set of places rewritten; the rest of the document stays as it is. -/

namespace Modary.Lib.JsonPlace

open Modary.Lib.JsonValue

/-- One step down into a container. -/
inductive Step
  | key (name : String)
  | index (i : ℕ)
  deriving DecidableEq, Repr

/-- The way to a value. -/
abbrev Place := List Step

variable {ν : Type}

/-! ### Reading -/

/-- The value one step below. -/
def child : Json ν → Step → Option (Json ν)
  | .obj members, .key name => members.lookup name
  | .arr items, .index i => items[i]?
  | _, _ => none

/-- The value at a place. -/
def get : Json ν → Place → Option (Json ν)
  | value, [] => some value
  | value, step :: place => (child value step).bind fun below => get below place

theorem get_cons (value : Json ν) (step : Step) (place : Place) :
    get value (step :: place) = (child value step).bind fun below => get below place := rfl

theorem get_append (value : Json ν) (p q : Place) :
    get value (p ++ q) = (get value p).bind fun below => get below q := by
  induction p generalizing value with
  | nil => rfl
  | cons step p ih =>
    rw [List.cons_append, get_cons, get_cons, Option.bind_assoc]
    exact Option.bind_congr fun below _ => ih below

theorem get_append_of_get {value below : Json ν} {p : Place} (h : get value p = some below)
    (q : Place) : get value (p ++ q) = get below q := by
  rw [get_append, h, Option.bind_some]

theorem get_key (members : List (String × Json ν)) (name : String) :
    get (.obj members) [.key name] = members.lookup name := by
  rw [get_cons, child]
  cases members.lookup name <;> rfl

/-! ### Distinct names -/

theorem distinct_of_mem_items {items : List (Json ν)} (h : distinctItems items = true) :
    ∀ item ∈ items, distinct item = true := by
  induction items with
  | nil => simp
  | cons first items ih =>
    rw [distinctItems, Bool.and_eq_true] at h
    exact List.forall_mem_cons.mpr ⟨h.1, ih h.2⟩

theorem distinct_of_mem_members {members : List (String × Json ν)}
    (h : distinctMembers members = true) : ∀ member ∈ members, distinct member.2 = true := by
  induction members with
  | nil => simp
  | cons first members ih =>
    obtain ⟨name, value⟩ := first
    rw [distinctMembers, Bool.and_eq_true] at h
    exact List.forall_mem_cons.mpr ⟨h.1, ih h.2⟩

theorem nodup_of_distinct {members : List (String × Json ν)}
    (h : distinct (.obj members) = true) : (members.map Prod.fst).Nodup := by
  rw [distinct, Bool.and_eq_true] at h
  exact of_decide_eq_true h.1

theorem distinct_child {value below : Json ν} {step : Step} (h : distinct value = true)
    (hchild : child value step = some below) : distinct below = true := by
  cases value with
  | arr items =>
    cases step with
    | key name => cases hchild
    | index i =>
      rw [distinct] at h
      exact distinct_of_mem_items h below (List.mem_of_getElem? hchild)
  | obj members =>
    cases step with
    | index i => cases hchild
    | key name =>
      have hmem := (lookup_eq_some_iff_mem (nodup_of_distinct h)).mp hchild
      rw [distinct, Bool.and_eq_true] at h
      exact distinct_of_mem_members h.2 _ hmem
  | _ => cases hchild

theorem distinct_get {value below : Json ν} {place : Place} (h : distinct value = true)
    (hget : get value place = some below) : distinct below = true := by
  induction place generalizing value with
  | nil => cases hget; exact h
  | cons step place ih =>
    obtain ⟨next, hnext, hget⟩ := Option.bind_eq_some_iff.mp hget
    exact ih (distinct_child h hnext) hget

/-! ### Replacing one value -/

/-- The members with the value of one name changed. -/
def setMember (name : String) (f : Json ν → Json ν) (members : List (String × Json ν)) :
    List (String × Json ν) :=
  members.map fun member => if member.1 = name then (member.1, f member.2) else member

/-- The document with the value at a place replaced. -/
def set (new : Json ν) : Place → Json ν → Json ν
  | [], _ => new
  | .key name :: place, .obj members => .obj (setMember name (set new place) members)
  | .index i :: place, .arr items => .arr (items.modify i (set new place))
  | _, value => value

/-! ### Rewriting texts -/

/-- The part of a rewriting that is below a step. -/
def below (texts : Place → Option String) (step : Step) : Place → Option String :=
  fun place => texts (step :: place)

mutual

/-- The document with the texts at some places rewritten. -/
def rewrite (texts : Place → Option String) : Json ν → Json ν
  | .str s => .str ((texts []).getD s)
  | .arr items => .arr (rewriteItems texts 0 items)
  | .obj members => .obj (rewriteMembers texts members)
  | value => value

def rewriteItems (texts : Place → Option String) (i : ℕ) : List (Json ν) → List (Json ν)
  | [] => []
  | item :: items => rewrite (below texts (.index i)) item :: rewriteItems texts (i + 1) items

def rewriteMembers (texts : Place → Option String) :
    List (String × Json ν) → List (String × Json ν)
  | [] => []
  | (name, value) :: members =>
    (name, rewrite (below texts (.key name)) value) :: rewriteMembers texts members

end

variable {texts : Place → Option String}

theorem rewriteItems_getElem? (i j : ℕ) (items : List (Json ν)) :
    (rewriteItems texts i items)[j]? =
      items[j]?.map (rewrite (below texts (.index (i + j)))) := by
  induction items generalizing i j with
  | nil => simp [rewriteItems]
  | cons item items ih =>
    cases j with
    | zero => simp [rewriteItems]
    | succ j =>
      have hindex : i + 1 + j = i + (j + 1) := by omega
      rw [rewriteItems, List.getElem?_cons_succ, List.getElem?_cons_succ, ih, hindex]

@[simp] theorem length_rewriteItems (i : ℕ) (items : List (Json ν)) :
    (rewriteItems texts i items).length = items.length := by
  induction items generalizing i with
  | nil => rfl
  | cons item items ih => simp [rewriteItems, ih]

theorem rewriteMembers_lookup (name : String) (members : List (String × Json ν)) :
    (rewriteMembers texts members).lookup name =
      (members.lookup name).map (rewrite (below texts (.key name))) := by
  induction members with
  | nil => rfl
  | cons member members ih =>
    obtain ⟨key, value⟩ := member
    rw [rewriteMembers, lookup_cons_if, lookup_cons_if, ih]
    by_cases hname : name = key
    · subst hname
      simp
    · simp [hname]

@[simp] theorem rewriteMembers_names (members : List (String × Json ν)) :
    (rewriteMembers texts members).map Prod.fst = members.map Prod.fst := by
  induction members with
  | nil => rfl
  | cons member members ih =>
    obtain ⟨key, value⟩ := member
    simp [rewriteMembers, ih]

theorem child_rewrite (value : Json ν) (step : Step) :
    child (rewrite texts value) step = (child value step).map (rewrite (below texts step)) := by
  cases value with
  | arr items =>
    cases step with
    | key name => rfl
    | index i => simp [rewrite, child, rewriteItems_getElem?]
  | obj members =>
    cases step with
    | index i => rfl
    | key name => simp [rewrite, child, rewriteMembers_lookup]
  | _ => rfl

/-- What is at a place afterwards is what was there, rewritten. -/
theorem get_rewrite (value : Json ν) (place : Place) :
    get (rewrite texts value) place =
      (get value place).map (rewrite fun q => texts (place ++ q)) := by
  induction place generalizing value texts with
  | nil => rfl
  | cons step place ih =>
    rw [get_cons, get_cons, child_rewrite]
    cases child value step with
    | none => rfl
    | some next => exact ih next

theorem get_str_rewrite (texts : Place → Option String) {value : Json ν} {place : Place}
    {s : String} (h : get value place = some (.str s)) :
    get (rewrite texts value) place = some (.str ((texts place).getD s)) := by
  rw [get_rewrite, h, Option.map_some, rewrite, List.append_nil]

/-! ### Equal rewritings -/

section Congr

variable {others : Place → Option String}

mutual

/-- Two rewritings that agree on every text of a document agree on the document. -/
theorem rewrite_congr : ∀ (value : Json ν) (texts others : Place → Option String),
    distinct value = true →
    (∀ place s, get value place = some (.str s) → (texts place).getD s = (others place).getD s) →
    rewrite texts value = rewrite others value
  | .null, _, _, _, _ => rfl
  | .bool _, _, _, _, _ => rfl
  | .num _, _, _, _, _ => rfl
  | .str s, texts, others, _, h => by
    have hroot := h [] s rfl
    simp [rewrite, hroot]
  | .arr items, texts, others, hd, h => by
    rw [distinct] at hd
    have hitems := rewriteItems_congr items texts others 0 hd fun i place s hget => by
      rw [Nat.zero_add]
      exact h (.index i :: place) s hget
    rw [rewrite, rewrite]
    exact congrArg Json.arr hitems
  | .obj members, texts, others, hd, h => by
    have hnodup := nodup_of_distinct hd
    rw [distinct, Bool.and_eq_true] at hd
    have hmembers := rewriteMembers_congr members texts others hd.2
      fun name value hmem place s hget => by
        have hlookup := (lookup_eq_some_iff_mem hnodup).mpr hmem
        have hplace : get (.obj members) (.key name :: place) = some (.str s) := by
          rw [get_cons, child, hlookup, Option.bind_some, hget]
        exact h (.key name :: place) s hplace
    rw [rewrite, rewrite]
    exact congrArg Json.obj hmembers

theorem rewriteItems_congr : ∀ (items : List (Json ν)) (texts others : Place → Option String)
    (first : ℕ), distinctItems items = true →
    (∀ i place s, (items[i]?.bind fun item => get item place) = some (.str s) →
      (texts (.index (first + i) :: place)).getD s = (others (.index (first + i) :: place)).getD s) →
    rewriteItems texts first items = rewriteItems others first items
  | [], _, _, _, _, _ => rfl
  | item :: items, texts, others, first, hd, h => by
    rw [distinctItems, Bool.and_eq_true] at hd
    have hitem := rewrite_congr item (below texts (.index first)) (below others (.index first)) hd.1
      fun place s hget => h 0 place s hget
    have hitems := rewriteItems_congr items texts others (first + 1) hd.2 fun i place s hget => by
      have hnext := h (i + 1) place s hget
      have hindex : first + 1 + i = first + (i + 1) := by omega
      rw [hindex]
      exact hnext
    rw [rewriteItems, rewriteItems, hitem, hitems]

theorem rewriteMembers_congr : ∀ (members : List (String × Json ν))
    (texts others : Place → Option String), distinctMembers members = true →
    (∀ name value, (name, value) ∈ members → ∀ place s, get value place = some (.str s) →
      (texts (.key name :: place)).getD s = (others (.key name :: place)).getD s) →
    rewriteMembers texts members = rewriteMembers others members
  | [], _, _, _, _ => rfl
  | (name, value) :: members, texts, others, hd, h => by
    rw [distinctMembers, Bool.and_eq_true] at hd
    have hvalue := rewrite_congr value (below texts (.key name)) (below others (.key name)) hd.1
      (h name value List.mem_cons_self)
    have hmembers := rewriteMembers_congr members texts others hd.2 fun other value hmem =>
      h other value (List.mem_cons_of_mem _ hmem)
    rw [rewriteMembers, rewriteMembers, hvalue, hmembers]

end

/-- **Two rewritings of a document are equal** when and only when they agree on its texts. -/
theorem rewrite_eq_iff {value : Json ν} (hd : distinct value = true) :
    rewrite texts value = rewrite others value ↔
      ∀ place s, get value place = some (.str s) → (texts place).getD s = (others place).getD s := by
  constructor
  · intro heq place s hget
    have hleft := get_str_rewrite texts hget
    rw [heq, get_str_rewrite others hget] at hleft
    exact (Json.str.inj (Option.some.inj hleft)).symm
  · exact rewrite_congr value texts others hd

end Congr

mutual

/-- A rewriting of no text leaves a document as it is. -/
theorem rewrite_none : ∀ value : Json ν, rewrite (fun _ => none) value = value
  | .null => rfl
  | .bool _ => rfl
  | .num _ => rfl
  | .str _ => rfl
  | .arr items => congrArg Json.arr (rewriteItems_none 0 items)
  | .obj members => congrArg Json.obj (rewriteMembers_none members)

theorem rewriteItems_none : ∀ (i : ℕ) (items : List (Json ν)),
    rewriteItems (fun _ => none) i items = items
  | _, [] => rfl
  | i, item :: items => by
    have hitem := rewrite_none item
    have hitems := rewriteItems_none (i + 1) items
    rw [rewriteItems, hitems]
    exact congrArg (· :: items) hitem

theorem rewriteMembers_none : ∀ members : List (String × Json ν),
    rewriteMembers (fun _ => none) members = members
  | [] => rfl
  | (name, value) :: members => by
    have hvalue := rewrite_none value
    have hmembers := rewriteMembers_none members
    rw [rewriteMembers, hmembers]
    exact congrArg (fun v => (name, v) :: members) hvalue

end

theorem rewriteMembers_eq_map (members : List (String × Json ν)) :
    rewriteMembers texts members =
      members.map fun member => (member.1, rewrite (below texts (.key member.1)) member.2) := by
  induction members with
  | nil => rfl
  | cons member members ih =>
    obtain ⟨name, value⟩ := member
    rw [rewriteMembers, ih, List.map_cons]

/-- One more text in a rewriting. -/
def also (texts : Place → Option String) (place : Place) (t : String) : Place → Option String :=
  fun q => if q = place then some t else texts q

theorem below_also_same (step : Step) (place : Place) (t : String) :
    below (also texts (step :: place) t) step = also (below texts step) place t := by
  funext q
  simp [below, also]

theorem below_also_other {step other : Step} (hne : other ≠ step) (place : Place) (t : String) :
    below (also texts (step :: place) t) other = below texts other := by
  funext q
  simp [below, also, hne]

/-- **Setting a text** of a rewritten document is rewriting that text too. -/
theorem set_rewrite {value : Json ν} {place : Place} {s t : String} (hd : distinct value = true)
    (h : get value place = some (.str s)) :
    set (.str t) place (rewrite texts value) = rewrite (also texts place t) value := by
  induction place generalizing value texts with
  | nil =>
    cases h
    rfl
  | cons step place ih =>
    obtain ⟨next, hnext, hget⟩ := Option.bind_eq_some_iff.mp h
    have hnextd := distinct_child hd hnext
    have hset : set (.str t) place (rewrite (below texts step) next) =
        rewrite (also (below texts step) place t) next := ih hnextd hget
    cases value with
    | arr items =>
      cases step with
      | key name => cases hnext
      | index i =>
        rw [rewrite, rewrite, set]
        refine congrArg Json.arr (List.ext_getElem? fun j => ?_)
        rw [List.getElem?_modify, rewriteItems_getElem?, rewriteItems_getElem?, Nat.zero_add]
        by_cases hj : i = j
        · subst hj
          have hitem : items[i]? = some next := hnext
          rw [hitem, below_also_same]
          simp [hset]
        · have hne : Step.index j ≠ Step.index i := fun heq => hj (Step.index.inj heq).symm
          rw [below_also_other hne]
          simp [hj]
    | obj members =>
      cases step with
      | index i => cases hnext
      | key name =>
        rw [rewrite, rewrite, set]
        refine congrArg Json.obj ?_
        rw [rewriteMembers_eq_map, rewriteMembers_eq_map, setMember, List.map_map]
        refine List.map_congr_left fun member hmem => ?_
        obtain ⟨key, below⟩ := member
        by_cases hkey : key = name
        · subst hkey
          have hlookup := (lookup_eq_some_iff_mem (nodup_of_distinct hd)).mpr hmem
          have hbelow : next = below := Option.some.inj (hnext.symm.trans hlookup)
          subst hbelow
          simp [below_also_same, hset]
        · have hne : Step.key key ≠ Step.key name := fun heq => hkey (Step.key.inj heq)
          simp [hkey, below_also_other hne]
    | _ => cases hnext

/-! ### Sizes of a rewritten document -/

mutual

@[simp] theorem nodes_rewrite : ∀ (texts : Place → Option String) (value : Json ν),
    nodes (rewrite texts value) = nodes value
  | _, .null => rfl
  | _, .bool _ => rfl
  | _, .num _ => rfl
  | _, .str _ => rfl
  | texts, .arr items => by rw [rewrite, nodes, nodes, nodesOfItems_rewrite texts 0 items]
  | texts, .obj members => by rw [rewrite, nodes, nodes, nodesOfMembers_rewrite texts members]

theorem nodesOfItems_rewrite : ∀ (texts : Place → Option String) (i : ℕ) (items : List (Json ν)),
    nodesOfItems (rewriteItems texts i items) = nodesOfItems items
  | _, _, [] => rfl
  | texts, i, item :: items => by
    have hitem := nodes_rewrite (below texts (.index i)) item
    have hitems := nodesOfItems_rewrite texts (i + 1) items
    rw [rewriteItems, nodesOfItems, nodesOfItems, hitem, hitems]

theorem nodesOfMembers_rewrite : ∀ (texts : Place → Option String)
    (members : List (String × Json ν)),
    nodesOfMembers (rewriteMembers texts members) = nodesOfMembers members
  | _, [] => rfl
  | texts, (name, value) :: members => by
    have hvalue := nodes_rewrite (below texts (.key name)) value
    have hmembers := nodesOfMembers_rewrite texts members
    rw [rewriteMembers, nodesOfMembers, nodesOfMembers, hvalue, hmembers]

end

mutual

@[simp] theorem depth_rewrite : ∀ (texts : Place → Option String) (value : Json ν),
    depth (rewrite texts value) = depth value
  | _, .null => rfl
  | _, .bool _ => rfl
  | _, .num _ => rfl
  | _, .str _ => rfl
  | texts, .arr items => by rw [rewrite, depth, depth, depthOfItems_rewrite texts 0 items]
  | texts, .obj members => by rw [rewrite, depth, depth, depthOfMembers_rewrite texts members]

theorem depthOfItems_rewrite : ∀ (texts : Place → Option String) (i : ℕ) (items : List (Json ν)),
    depthOfItems (rewriteItems texts i items) = depthOfItems items
  | _, _, [] => rfl
  | texts, i, item :: items => by
    have hitem := depth_rewrite (below texts (.index i)) item
    have hitems := depthOfItems_rewrite texts (i + 1) items
    rw [rewriteItems, depthOfItems, depthOfItems, hitem, hitems]

theorem depthOfMembers_rewrite : ∀ (texts : Place → Option String)
    (members : List (String × Json ν)),
    depthOfMembers (rewriteMembers texts members) = depthOfMembers members
  | _, [] => rfl
  | texts, (name, value) :: members => by
    have hvalue := depth_rewrite (below texts (.key name)) value
    have hmembers := depthOfMembers_rewrite texts members
    rw [rewriteMembers, depthOfMembers, depthOfMembers, hvalue, hmembers]

end

end Modary.Lib.JsonPlace
