import Mathlib.Algebra.GroupWithZero.Nat
import Mathlib.Data.String.Basic
import Modary.Lib.JsonValue
import Modary.Lib.Sorting

/-! # JSON values in one order

A value with its numbers replaced, and with the members of its objects in the order of their names,
as `json.Marshal` writes a map. Values that are alike are the same in this order. -/

namespace Modary.Lib.JsonValue

open Modary.Lib.Sorting

variable {ν μ κ : Type}

/-! ### Numbers -/

mutual

/-- The value with other numbers. -/
def mapNumbers (f : ν → μ) : Json ν → Json μ
  | .null => .null
  | .bool value => .bool value
  | .num value => .num (f value)
  | .str value => .str value
  | .arr items => .arr (mapItems f items)
  | .obj members => .obj (mapMembers f members)

def mapItems (f : ν → μ) : List (Json ν) → List (Json μ)
  | [] => []
  | item :: items => mapNumbers f item :: mapItems f items

def mapMembers (f : ν → μ) : List (String × Json ν) → List (String × Json μ)
  | [] => []
  | (name, value) :: members => (name, mapNumbers f value) :: mapMembers f members

end

mutual

/-- Every number of the value passes. -/
def allNumbers (p : ν → Bool) : Json ν → Bool
  | .num value => p value
  | .arr items => allItems p items
  | .obj members => allMembers p members
  | _ => true

def allItems (p : ν → Bool) : List (Json ν) → Bool
  | [] => true
  | item :: items => allNumbers p item && allItems p items

def allMembers (p : ν → Bool) : List (String × Json ν) → Bool
  | [] => true
  | (_, value) :: members => allNumbers p value && allMembers p members

end

mutual

theorem mapNumbers_mapNumbers (f : ν → μ) (g : μ → κ) : ∀ v : Json ν,
    mapNumbers g (mapNumbers f v) = mapNumbers (fun n => g (f n)) v
  | .null => rfl
  | .bool _ => rfl
  | .num _ => rfl
  | .str _ => rfl
  | .arr items => by rw [mapNumbers, mapNumbers, mapNumbers, mapItems_mapItems f g items]
  | .obj members => by rw [mapNumbers, mapNumbers, mapNumbers, mapMembers_mapMembers f g members]

theorem mapItems_mapItems (f : ν → μ) (g : μ → κ) : ∀ v : List (Json ν),
    mapItems g (mapItems f v) = mapItems (fun n => g (f n)) v
  | [] => rfl
  | item :: items => by
    rw [mapItems, mapItems, mapItems, mapNumbers_mapNumbers f g item, mapItems_mapItems f g items]

theorem mapMembers_mapMembers (f : ν → μ) (g : μ → κ) : ∀ v : List (String × Json ν),
    mapMembers g (mapMembers f v) = mapMembers (fun n => g (f n)) v
  | [] => rfl
  | (name, value) :: members => by
    rw [mapMembers, mapMembers, mapMembers, mapNumbers_mapNumbers f g value,
      mapMembers_mapMembers f g members]

end

theorem lookup_mapMembers (f : ν → μ) (name : String) : ∀ members : List (String × Json ν),
    (mapMembers f members).lookup name = (members.lookup name).map (mapNumbers f)
  | [] => rfl
  | (key, value) :: members => by
    rw [mapMembers, lookup_cons_if, lookup_cons_if, lookup_mapMembers f name members]
    split_ifs <;> rfl

theorem names_mapMembers (f : ν → μ) : ∀ members : List (String × Json ν),
    (mapMembers f members).map Prod.fst = members.map Prod.fst
  | [] => rfl
  | (key, value) :: members => by
    rw [mapMembers, List.map_cons, List.map_cons, names_mapMembers f members]

theorem allMembers_iff {p : ν → Bool} {members : List (String × Json ν)} :
    allMembers p members = true ↔ ∀ member ∈ members, allNumbers p member.2 = true := by
  induction members with
  | nil => simp [allMembers]
  | cons member members ih =>
    rw [allMembers, Bool.and_eq_true, ih, List.forall_mem_cons]

section Both

variable {p q r : ν → Bool}

mutual

/-- What holds of every number that passes both checks. -/
theorem allNumbers_both (h : ∀ n, p n = true → q n = true → r n = true) : ∀ v : Json ν,
    allNumbers p v = true → allNumbers q v = true → allNumbers r v = true
  | .null, _, _ => rfl
  | .bool _, _, _ => rfl
  | .num n, hp, hq => h n hp hq
  | .str _, _, _ => rfl
  | .arr items, hp, hq => allItems_both h items hp hq
  | .obj members, hp, hq => allMembers_both h members hp hq

theorem allItems_both (h : ∀ n, p n = true → q n = true → r n = true) : ∀ v : List (Json ν),
    allItems p v = true → allItems q v = true → allItems r v = true
  | [], _, _ => rfl
  | item :: items, hp, hq => by
    rw [allItems, Bool.and_eq_true] at hp hq
    rw [allItems, allNumbers_both h item hp.1 hq.1, allItems_both h items hp.2 hq.2]
    rfl

theorem allMembers_both (h : ∀ n, p n = true → q n = true → r n = true) :
    ∀ v : List (String × Json ν),
      allMembers p v = true → allMembers q v = true → allMembers r v = true
  | [], _, _ => rfl
  | (_, value) :: members, hp, hq => by
    rw [allMembers, Bool.and_eq_true] at hp hq
    rw [allMembers, allNumbers_both h value hp.1 hq.1, allMembers_both h members hp.2 hq.2]
    rfl

end

end Both

section Alike

variable [DecidableEq μ] [DecidableEq κ] {p : ν → Bool} {f : ν → μ} {g : ν → κ}

mutual

/-- Two ways to replace numbers that tell the same of them apart tell the same values apart. -/
theorem alike_mapNumbers (h : ∀ n m, p n = true → p m = true → (f n = f m ↔ g n = g m)) :
    ∀ v w : Json ν, allNumbers p v = true → allNumbers p w = true →
      alike (mapNumbers f v) (mapNumbers f w) = alike (mapNumbers g v) (mapNumbers g w)
  | .null, w, _, _ => by cases w <;> rfl
  | .bool _, w, _, _ => by cases w <;> rfl
  | .str _, w, _, _ => by cases w <;> rfl
  | .num n, w, hn, hw => by
    cases w with
    | num m =>
      have hiff := h n m hn hw
      simp only [mapNumbers, alike, hiff]
    | _ => rfl
  | .arr items, w, hitems, hw => by
    cases w with
    | arr others =>
      rw [mapNumbers, mapNumbers, mapNumbers, mapNumbers, alike, alike]
      exact alikeItems_mapItems h items others hitems hw
    | _ => rfl
  | .obj members, w, hmembers, hw => by
    cases w with
    | obj others =>
      have hothers : ∀ name other, others.lookup name = some other →
          allNumbers p other = true := fun name other hother =>
        allMembers_iff.mp hw (name, other) (mem_of_lookup hother)
      have hall : ∀ {χ : Type} (k : ν → χ), ((mapMembers k others).all fun other =>
          other.1 ∈ (mapMembers k members).map Prod.fst) =
            others.all fun other => other.1 ∈ members.map Prod.fst := by
        intro χ k
        have hmap := List.all_map (f := Prod.fst) (l := mapMembers k others)
          (p := fun name => decide (name ∈ members.map Prod.fst))
        have hmap' := List.all_map (f := Prod.fst) (l := others)
          (p := fun name => decide (name ∈ members.map Prod.fst))
        rw [names_mapMembers] at hmap ⊢
        exact hmap.symm.trans hmap'
      rw [mapNumbers, mapNumbers, mapNumbers, mapNumbers, alike, alike, hall, hall,
        alikeMembers_mapMembers h members others hmembers hothers]
    | _ => rfl

theorem alikeItems_mapItems (h : ∀ n m, p n = true → p m = true → (f n = f m ↔ g n = g m)) :
    ∀ v w : List (Json ν), allItems p v = true → allItems p w = true →
      alikeItems (mapItems f v) (mapItems f w) = alikeItems (mapItems g v) (mapItems g w)
  | [], w, _, _ => by cases w <;> rfl
  | item :: items, [], _, _ => rfl
  | item :: items, other :: others, hv, hw => by
    rw [allItems, Bool.and_eq_true] at hv hw
    rw [mapItems, mapItems, mapItems, mapItems, alikeItems, alikeItems,
      alike_mapNumbers h item other hv.1 hw.1, alikeItems_mapItems h items others hv.2 hw.2]

theorem alikeMembers_mapMembers
    (h : ∀ n m, p n = true → p m = true → (f n = f m ↔ g n = g m)) :
    ∀ v w : List (String × Json ν), allMembers p v = true →
      (∀ name other, w.lookup name = some other → allNumbers p other = true) →
        alikeMembers (mapMembers f v) (mapMembers f w) =
          alikeMembers (mapMembers g v) (mapMembers g w)
  | [], _, _, _ => rfl
  | (name, value) :: members, w, hv, hw => by
    rw [allMembers, Bool.and_eq_true] at hv
    rw [mapMembers, mapMembers, alikeMembers, alikeMembers, lookup_mapMembers, lookup_mapMembers,
      alikeMembers_mapMembers h members w hv.2 hw]
    cases hother : w.lookup name with
    | none => rfl
    | some other =>
      have heq := alike_mapNumbers h value other hv.1 (hw name other hother)
      simp only [Option.map_some, Option.any_some, heq]

end

end Alike

/-! ### Order -/

mutual

/-- The members of every object in the order of their names. -/
def ordered : Json ν → Json ν
  | .arr items => .arr (orderedItems items)
  | .obj members => .obj (sortOn Prod.fst (orderedMembers members))
  | value => value

def orderedItems : List (Json ν) → List (Json ν)
  | [] => []
  | item :: items => ordered item :: orderedItems items

def orderedMembers : List (String × Json ν) → List (String × Json ν)
  | [] => []
  | (name, value) :: members => (name, ordered value) :: orderedMembers members

end

theorem orderedMembers_eq_map : ∀ members : List (String × Json ν),
    orderedMembers members = members.map fun member => (member.1, ordered member.2)
  | [] => rfl
  | (name, value) :: members => by
    rw [orderedMembers, orderedMembers_eq_map members, List.map_cons]

theorem names_orderedMembers (members : List (String × Json ν)) :
    (orderedMembers members).map Prod.fst = members.map Prod.fst := by
  rw [orderedMembers_eq_map, List.map_map]
  rfl

/-- Two objects with distinct names are the same in order when they have the same members. -/
theorem sortOn_names_eq_iff {a b : List (String × Json ν)} (ha : (a.map Prod.fst).Nodup)
    (hb : (b.map Prod.fst).Nodup) :
    sortOn Prod.fst a = sortOn Prod.fst b ↔ ∀ member, member ∈ a ↔ member ∈ b := by
  constructor
  · intro h member
    have hmem : member ∈ sortOn Prod.fst a ↔ member ∈ sortOn Prod.fst b := by rw [h]
    rwa [mem_sortOn, mem_sortOn] at hmem
  · intro h
    have hperm : a.Perm b :=
      (List.perm_ext_iff_of_nodup ha.of_map hb.of_map).mpr h
    refine sortOn_congr hperm ?_
    intro x hx y hy heq
    exact List.inj_on_of_nodup_map ha hx hy heq

section Equal

variable [DecidableEq ν]

theorem alikeMembers_iff {members others : List (String × Json ν)} :
    alikeMembers members others = true ↔ ∀ member ∈ members,
      ∃ other, others.lookup member.1 = some other ∧ alike member.2 other = true := by
  induction members with
  | nil => simp [alikeMembers]
  | cons member members ih =>
    rw [alikeMembers, Bool.and_eq_true, ih, List.forall_mem_cons, Option.any_eq_true]

mutual

/-- **Values that are alike are the same in order.** -/
theorem ordered_eq_iff : ∀ v w : Json ν, distinct v = true → distinct w = true →
    (ordered v = ordered w ↔ alike v w = true)
  | .null, w, _, _ => by cases w <;> simp [ordered, alike]
  | .bool _, w, _, _ => by cases w <;> simp [ordered, alike]
  | .num _, w, _, _ => by cases w <;> simp [ordered, alike]
  | .str _, w, _, _ => by cases w <;> simp [ordered, alike]
  | .arr items, w, hv, hw => by
    cases w with
    | arr others =>
      rw [ordered, ordered, Json.arr.injEq, alike]
      exact orderedItems_eq_iff items others hv hw
    | _ => simp [ordered, alike]
  | .obj members, w, hv, hw => by
    cases w with
    | obj others =>
      rw [distinct, Bool.and_eq_true, decide_eq_true_eq] at hv hw
      have hinner := orderedMembers_mem_iff members others hv.2 (distinctMembers_iff.mp hw.2)
      have hnames : ((orderedMembers members).map Prod.fst).Nodup := by
        rw [names_orderedMembers]
        exact hv.1
      have hnames' : ((orderedMembers others).map Prod.fst).Nodup := by
        rw [names_orderedMembers]
        exact hw.1
      rw [ordered, ordered, Json.obj.injEq, sortOn_names_eq_iff hnames hnames', alike,
        Bool.and_eq_true, List.all_eq_true, alikeMembers_iff]
      constructor
      · intro h
        refine ⟨?_, ?_⟩
        · intro member hmember
          have hmem : (member.1, ordered member.2) ∈ orderedMembers others := by
            refine (h _).mp ?_
            rw [orderedMembers_eq_map]
            exact List.mem_map_of_mem hmember
          obtain ⟨other, hother, halike⟩ := (hinner member hmember).mp hmem
          exact ⟨other, (lookup_eq_some_iff_mem hw.1).mpr hother, halike⟩
        · intro other hother
          have hmem : (other.1, ordered other.2) ∈ orderedMembers members := by
            refine (h _).mpr ?_
            rw [orderedMembers_eq_map]
            exact List.mem_map_of_mem hother
          rw [← names_orderedMembers]
          exact decide_eq_true (List.mem_map.mpr ⟨_, hmem, rfl⟩)
      · rintro ⟨hforward, hback⟩
        have hsub : ∀ member ∈ orderedMembers members, member ∈ orderedMembers others := by
          intro member hmember
          rw [orderedMembers_eq_map] at hmember
          obtain ⟨inner, hmem, rfl⟩ := List.mem_map.mp hmember
          obtain ⟨other, hother, halike⟩ := hforward inner hmem
          exact (hinner inner hmem).mpr ⟨other, mem_of_lookup hother, halike⟩
        intro member
        refine ⟨hsub member, ?_⟩
        intro hmember
        have hkey : member.1 ∈ (orderedMembers members).map Prod.fst := by
          rw [names_orderedMembers]
          rw [orderedMembers_eq_map] at hmember
          obtain ⟨other, hother, rfl⟩ := List.mem_map.mp hmember
          exact of_decide_eq_true (hback other hother)
        obtain ⟨found, hfound, hname⟩ := List.mem_map.mp hkey
        have heq : found = member :=
          List.inj_on_of_nodup_map hnames' (hsub found hfound) hmember hname
        rw [← heq]
        exact hfound
    | _ => simp [ordered, alike]

theorem orderedItems_eq_iff : ∀ v w : List (Json ν), distinctItems v = true →
    distinctItems w = true → (orderedItems v = orderedItems w ↔ alikeItems v w = true)
  | [], w, _, _ => by cases w <;> simp [orderedItems, alikeItems]
  | item :: items, [], _, _ => by simp [orderedItems, alikeItems]
  | item :: items, other :: others, hv, hw => by
    rw [distinctItems, Bool.and_eq_true] at hv hw
    rw [orderedItems, orderedItems, List.cons.injEq, alikeItems, Bool.and_eq_true,
      ordered_eq_iff item other hv.1 hw.1, orderedItems_eq_iff items others hv.2 hw.2]

/-- A member of the first is in the second, both in order, when the second has one like it. -/
theorem orderedMembers_mem_iff : ∀ v w : List (String × Json ν), distinctMembers v = true →
    (∀ other ∈ w, distinct other.2 = true) → ∀ member ∈ v,
      ((member.1, ordered member.2) ∈ orderedMembers w ↔
        ∃ other, (member.1, other) ∈ w ∧ alike member.2 other = true)
  | [], _, _, _ => fun _ h => by cases h
  | (name, value) :: members, w, hv, hw => by
    rw [distinctMembers, Bool.and_eq_true] at hv
    intro member hmember
    rcases List.mem_cons.mp hmember with rfl | hrest
    · rw [orderedMembers_eq_map, List.mem_map]
      constructor
      · rintro ⟨⟨key, other⟩, hother, heq⟩
        rw [Prod.mk.injEq] at heq
        obtain ⟨rfl, heq⟩ := heq
        exact ⟨other, hother, (ordered_eq_iff value other hv.1 (hw _ hother)).mp heq.symm⟩
      · rintro ⟨other, hother, halike⟩
        exact ⟨(name, other), hother,
          congrArg (name, ·) ((ordered_eq_iff value other hv.1 (hw _ hother)).mpr halike).symm⟩
    · exact orderedMembers_mem_iff members w hv.2 hw member hrest

end

end Equal

/-! ### What the order keeps -/

mutual

theorem distinct_ordered : ∀ v : Json ν, distinct v = true → distinct (ordered v) = true
  | .null, _ => rfl
  | .bool _, _ => rfl
  | .num _, _ => rfl
  | .str _, _ => rfl
  | .arr items, h => by
    rw [ordered, distinct]
    exact distinctItems_ordered items h
  | .obj members, h => by
    rw [distinct, Bool.and_eq_true, decide_eq_true_eq] at h
    have hall := distinctMembers_ordered members h.2
    have hperm := sortOn_perm Prod.fst (orderedMembers members)
    rw [ordered, distinct, Bool.and_eq_true, decide_eq_true_eq]
    constructor
    · rw [(hperm.map Prod.fst).nodup_iff, names_orderedMembers]
      exact h.1
    · rw [distinctMembers_iff] at hall ⊢
      exact fun member hmember => hall member (hperm.mem_iff.mp hmember)

theorem distinctItems_ordered : ∀ v : List (Json ν), distinctItems v = true →
    distinctItems (orderedItems v) = true
  | [], _ => rfl
  | item :: items, h => by
    rw [distinctItems, Bool.and_eq_true] at h
    rw [orderedItems, distinctItems, distinct_ordered item h.1, distinctItems_ordered items h.2]
    rfl

theorem distinctMembers_ordered : ∀ v : List (String × Json ν), distinctMembers v = true →
    distinctMembers (orderedMembers v) = true
  | [], _ => rfl
  | (name, value) :: members, h => by
    rw [distinctMembers, Bool.and_eq_true] at h
    rw [orderedMembers, distinctMembers, distinct_ordered value h.1,
      distinctMembers_ordered members h.2]
    rfl

end

mutual

/-- What is in order stays as it is. -/
theorem ordered_ordered : ∀ v : Json ν, distinct v = true → ordered (ordered v) = ordered v
  | .null, _ => rfl
  | .bool _, _ => rfl
  | .num _, _ => rfl
  | .str _, _ => rfl
  | .arr items, h => by
    rw [ordered, ordered, orderedItems_orderedItems items h]
  | .obj members, h => by
    rw [distinct, Bool.and_eq_true, decide_eq_true_eq] at h
    have hinner := orderedMembers_orderedMembers members h.2
    have hnames : ((orderedMembers members).map Prod.fst).Nodup := by
      rw [names_orderedMembers]
      exact h.1
    have hperm : (orderedMembers (sortOn Prod.fst (orderedMembers members))).Perm
        (orderedMembers members) := by
      have hmap := (sortOn_perm Prod.fst (orderedMembers members)).map
        fun member => (member.1, ordered member.2)
      rw [← orderedMembers_eq_map, ← orderedMembers_eq_map, hinner] at hmap
      exact hmap
    rw [ordered, ordered, Json.obj.injEq]
    refine sortOn_congr hperm ?_
    intro x hx y hy heq
    exact List.inj_on_of_nodup_map hnames (hperm.mem_iff.mp hx) (hperm.mem_iff.mp hy) heq

theorem orderedItems_orderedItems : ∀ v : List (Json ν), distinctItems v = true →
    orderedItems (orderedItems v) = orderedItems v
  | [], _ => rfl
  | item :: items, h => by
    rw [distinctItems, Bool.and_eq_true] at h
    rw [orderedItems, orderedItems, ordered_ordered item h.1, orderedItems_orderedItems items h.2]

theorem orderedMembers_orderedMembers : ∀ v : List (String × Json ν), distinctMembers v = true →
    orderedMembers (orderedMembers v) = orderedMembers v
  | [], _ => rfl
  | (name, value) :: members, h => by
    rw [distinctMembers, Bool.and_eq_true] at h
    rw [orderedMembers, orderedMembers, ordered_ordered value h.1,
      orderedMembers_orderedMembers members h.2]

end

/-- A value in order is like the value. -/
theorem alike_ordered [DecidableEq ν] {v : Json ν} (h : distinct v = true) :
    alike (ordered v) v = true :=
  (ordered_eq_iff _ _ (distinct_ordered v h) h).mp (ordered_ordered v h)

mutual

theorem distinct_mapNumbers (f : ν → μ) : ∀ v : Json ν, distinct (mapNumbers f v) = distinct v
  | .null => rfl
  | .bool _ => rfl
  | .num _ => rfl
  | .str _ => rfl
  | .arr items => by
    rw [mapNumbers, distinct, distinct, distinctItems_mapItems f items]
  | .obj members => by
    rw [mapNumbers, distinct, distinct, names_mapMembers, distinctMembers_mapMembers f members]

theorem distinctItems_mapItems (f : ν → μ) : ∀ v : List (Json ν),
    distinctItems (mapItems f v) = distinctItems v
  | [] => rfl
  | item :: items => by
    rw [mapItems, distinctItems, distinctItems, distinct_mapNumbers f item,
      distinctItems_mapItems f items]

theorem distinctMembers_mapMembers (f : ν → μ) : ∀ v : List (String × Json ν),
    distinctMembers (mapMembers f v) = distinctMembers v
  | [] => rfl
  | (name, value) :: members => by
    rw [mapMembers, distinctMembers, distinctMembers, distinct_mapNumbers f value,
      distinctMembers_mapMembers f members]

end

theorem mapMembers_eq_map (f : ν → μ) : ∀ members : List (String × Json ν),
    mapMembers f members = members.map fun member => (member.1, mapNumbers f member.2)
  | [] => rfl
  | (name, value) :: members => by
    rw [mapMembers, mapMembers_eq_map f members, List.map_cons]

theorem sortOn_mapMembers (f : ν → μ) (members : List (String × Json ν)) :
    sortOn Prod.fst (mapMembers f members) = mapMembers f (sortOn Prod.fst members) := by
  rw [mapMembers_eq_map, mapMembers_eq_map]
  exact (List.map_insertionSort (fun a b : String × Json ν => a.1 ≤ b.1)
    (fun a b : String × Json μ => a.1 ≤ b.1) (fun member => (member.1, mapNumbers f member.2))
    members fun _ _ _ _ => Iff.rfl).symm

mutual

/-- Replacing numbers and ordering members may be done in either order. -/
theorem ordered_mapNumbers (f : ν → μ) : ∀ v : Json ν,
    ordered (mapNumbers f v) = mapNumbers f (ordered v)
  | .null => rfl
  | .bool _ => rfl
  | .num _ => rfl
  | .str _ => rfl
  | .arr items => by
    rw [mapNumbers, ordered, ordered, mapNumbers, orderedItems_mapItems f items]
  | .obj members => by
    rw [mapNumbers, ordered, ordered, mapNumbers, orderedMembers_mapMembers f members,
      sortOn_mapMembers]

theorem orderedItems_mapItems (f : ν → μ) : ∀ v : List (Json ν),
    orderedItems (mapItems f v) = mapItems f (orderedItems v)
  | [] => rfl
  | item :: items => by
    rw [mapItems, orderedItems, orderedItems, mapItems, ordered_mapNumbers f item,
      orderedItems_mapItems f items]

theorem orderedMembers_mapMembers (f : ν → μ) : ∀ v : List (String × Json ν),
    orderedMembers (mapMembers f v) = mapMembers f (orderedMembers v)
  | [] => rfl
  | (name, value) :: members => by
    rw [mapMembers, orderedMembers, orderedMembers, mapMembers, ordered_mapNumbers f value,
      orderedMembers_mapMembers f members]

end

/-- Values that are alike stay so when their numbers are replaced. -/
theorem alike_mapNumbers_of_alike [DecidableEq ν] [DecidableEq μ] (f : ν → μ) {v w : Json ν}
    (hv : distinct v = true) (hw : distinct w = true) (h : alike v w = true) :
    alike (mapNumbers f v) (mapNumbers f w) = true := by
  have heq := (ordered_eq_iff v w hv hw).mpr h
  refine (ordered_eq_iff _ _ ?_ ?_).mp ?_
  · rw [distinct_mapNumbers]
    exact hv
  · rw [distinct_mapNumbers]
    exact hw
  · rw [ordered_mapNumbers, heq, ordered_mapNumbers]

section Congr

variable {p : ν → Bool} {f g : ν → μ}

mutual

/-- Numbers that are replaced by the same ones make the same value. -/
theorem mapNumbers_congr (h : ∀ n, p n = true → f n = g n) : ∀ v : Json ν,
    allNumbers p v = true → mapNumbers f v = mapNumbers g v
  | .null, _ => rfl
  | .bool _, _ => rfl
  | .num n, hn => by rw [mapNumbers, mapNumbers, h n hn]
  | .str _, _ => rfl
  | .arr items, hitems => by rw [mapNumbers, mapNumbers, mapItems_congr h items hitems]
  | .obj members, hmembers => by
    rw [mapNumbers, mapNumbers, mapMembers_congr h members hmembers]

theorem mapItems_congr (h : ∀ n, p n = true → f n = g n) : ∀ v : List (Json ν),
    allItems p v = true → mapItems f v = mapItems g v
  | [], _ => rfl
  | item :: items, hv => by
    rw [allItems, Bool.and_eq_true] at hv
    rw [mapItems, mapItems, mapNumbers_congr h item hv.1, mapItems_congr h items hv.2]

theorem mapMembers_congr (h : ∀ n, p n = true → f n = g n) : ∀ v : List (String × Json ν),
    allMembers p v = true → mapMembers f v = mapMembers g v
  | [], _ => rfl
  | (name, value) :: members, hv => by
    rw [allMembers, Bool.and_eq_true] at hv
    rw [mapMembers, mapMembers, mapNumbers_congr h value hv.1, mapMembers_congr h members hv.2]

end

mutual

theorem mapNumbers_id : ∀ v : Json ν, mapNumbers (fun n => n) v = v
  | .null => rfl
  | .bool _ => rfl
  | .num _ => rfl
  | .str _ => rfl
  | .arr items => by rw [mapNumbers, mapItems_id items]
  | .obj members => by rw [mapNumbers, mapMembers_id members]

theorem mapItems_id : ∀ v : List (Json ν), mapItems (fun n => n) v = v
  | [] => rfl
  | item :: items => by rw [mapItems, mapNumbers_id item, mapItems_id items]

theorem mapMembers_id : ∀ v : List (String × Json ν), mapMembers (fun n => n) v = v
  | [] => rfl
  | (name, value) :: members => by rw [mapMembers, mapNumbers_id value, mapMembers_id members]

end

/-- Numbers that are replaced by themselves leave the value as it is. -/
theorem mapNumbers_fixed {f : ν → ν} (h : ∀ n, p n = true → f n = n) (v : Json ν)
    (hv : allNumbers p v = true) : mapNumbers f v = v :=
  (mapNumbers_congr h v hv).trans (mapNumbers_id v)

end Congr

mutual

/-- The numbers of a value with other numbers. -/
theorem allNumbers_mapNumbers (p : μ → Bool) (f : ν → μ) : ∀ v : Json ν,
    allNumbers p (mapNumbers f v) = allNumbers (fun n => p (f n)) v
  | .null => rfl
  | .bool _ => rfl
  | .num _ => rfl
  | .str _ => rfl
  | .arr items => by rw [mapNumbers, allNumbers, allNumbers, allItems_mapItems p f items]
  | .obj members => by rw [mapNumbers, allNumbers, allNumbers, allMembers_mapMembers p f members]

theorem allItems_mapItems (p : μ → Bool) (f : ν → μ) : ∀ v : List (Json ν),
    allItems p (mapItems f v) = allItems (fun n => p (f n)) v
  | [] => rfl
  | item :: items => by
    rw [mapItems, allItems, allItems, allNumbers_mapNumbers p f item, allItems_mapItems p f items]

theorem allMembers_mapMembers (p : μ → Bool) (f : ν → μ) : ∀ v : List (String × Json ν),
    allMembers p (mapMembers f v) = allMembers (fun n => p (f n)) v
  | [] => rfl
  | (name, value) :: members => by
    rw [mapMembers, allMembers, allMembers, allNumbers_mapNumbers p f value,
      allMembers_mapMembers p f members]

end

mutual

/-- The numbers of a value in order. -/
theorem allNumbers_ordered (p : ν → Bool) : ∀ v : Json ν,
    allNumbers p (ordered v) = true ↔ allNumbers p v = true
  | .null => Iff.rfl
  | .bool _ => Iff.rfl
  | .num _ => Iff.rfl
  | .str _ => Iff.rfl
  | .arr items => by rw [ordered, allNumbers, allNumbers, allItems_orderedItems p items]
  | .obj members => by
    rw [ordered, allNumbers, allNumbers, ← allMembers_orderedMembers p members, allMembers_iff,
      allMembers_iff]
    simp only [mem_sortOn]

theorem allItems_orderedItems (p : ν → Bool) : ∀ v : List (Json ν),
    allItems p (orderedItems v) = true ↔ allItems p v = true
  | [] => Iff.rfl
  | item :: items => by
    rw [orderedItems, allItems, allItems, Bool.and_eq_true, Bool.and_eq_true,
      allNumbers_ordered p item, allItems_orderedItems p items]

theorem allMembers_orderedMembers (p : ν → Bool) : ∀ v : List (String × Json ν),
    allMembers p (orderedMembers v) = true ↔ allMembers p v = true
  | [] => Iff.rfl
  | (name, value) :: members => by
    rw [orderedMembers, allMembers, allMembers, Bool.and_eq_true, Bool.and_eq_true,
      allNumbers_ordered p value, allMembers_orderedMembers p members]

end

/-! ### Depth -/

theorem depthOfMembers_le_iff {members : List (String × Json ν)} {k : ℕ} :
    depthOfMembers members ≤ k ↔ ∀ member ∈ members, depth member.2 ≤ k := by
  induction members with
  | nil => simp [depthOfMembers]
  | cons member members ih =>
    rw [depthOfMembers, max_le_iff, ih, List.forall_mem_cons]

mutual

theorem depth_mapNumbers (f : ν → μ) : ∀ v : Json ν, depth (mapNumbers f v) = depth v
  | .null => rfl
  | .bool _ => rfl
  | .num _ => rfl
  | .str _ => rfl
  | .arr items => by rw [mapNumbers, depth, depth, depth_mapItems f items]
  | .obj members => by rw [mapNumbers, depth, depth, depth_mapMembers f members]

theorem depth_mapItems (f : ν → μ) : ∀ v : List (Json ν),
    depthOfItems (mapItems f v) = depthOfItems v
  | [] => rfl
  | item :: items => by
    rw [mapItems, depthOfItems, depthOfItems, depth_mapNumbers f item, depth_mapItems f items]

theorem depth_mapMembers (f : ν → μ) : ∀ v : List (String × Json ν),
    depthOfMembers (mapMembers f v) = depthOfMembers v
  | [] => rfl
  | (name, value) :: members => by
    rw [mapMembers, depthOfMembers, depthOfMembers, depth_mapNumbers f value,
      depth_mapMembers f members]

end

mutual

theorem depth_ordered : ∀ v : Json ν, depth (ordered v) = depth v
  | .null => rfl
  | .bool _ => rfl
  | .num _ => rfl
  | .str _ => rfl
  | .arr items => by rw [ordered, depth, depth, depth_orderedItems items]
  | .obj members => by
    have hsorted : depthOfMembers (sortOn Prod.fst (orderedMembers members)) =
        depthOfMembers (orderedMembers members) := by
      refine le_antisymm (depthOfMembers_le_iff.mpr ?_) (depthOfMembers_le_iff.mpr ?_)
      · intro member hmember
        exact depth_le_of_mem_members (mem_sortOn.mp hmember)
      · intro member hmember
        exact depth_le_of_mem_members (mem_sortOn.mpr hmember)
    rw [ordered, depth, depth, hsorted, depth_orderedMembers members]

theorem depth_orderedItems : ∀ v : List (Json ν), depthOfItems (orderedItems v) = depthOfItems v
  | [] => rfl
  | item :: items => by
    rw [orderedItems, depthOfItems, depthOfItems, depth_ordered item, depth_orderedItems items]

theorem depth_orderedMembers : ∀ v : List (String × Json ν),
    depthOfMembers (orderedMembers v) = depthOfMembers v
  | [] => rfl
  | (name, value) :: members => by
    rw [orderedMembers, depthOfMembers, depthOfMembers, depth_ordered value,
      depth_orderedMembers members]

end

/-! ### Nodes -/

theorem nodesOfMembers_eq_sum (members : List (String × Json ν)) :
    nodesOfMembers members = (members.map fun member => nodes member.2).sum := by
  induction members with
  | nil => rfl
  | cons member members ih => rw [nodesOfMembers, ih, List.map_cons, List.sum_cons]

mutual

theorem nodes_mapNumbers (f : ν → μ) : ∀ v : Json ν, nodes (mapNumbers f v) = nodes v
  | .null => rfl
  | .bool _ => rfl
  | .num _ => rfl
  | .str _ => rfl
  | .arr items => by rw [mapNumbers, nodes, nodes, nodes_mapItems f items]
  | .obj members => by rw [mapNumbers, nodes, nodes, nodes_mapMembers f members]

theorem nodes_mapItems (f : ν → μ) : ∀ v : List (Json ν),
    nodesOfItems (mapItems f v) = nodesOfItems v
  | [] => rfl
  | item :: items => by
    rw [mapItems, nodesOfItems, nodesOfItems, nodes_mapNumbers f item, nodes_mapItems f items]

theorem nodes_mapMembers (f : ν → μ) : ∀ v : List (String × Json ν),
    nodesOfMembers (mapMembers f v) = nodesOfMembers v
  | [] => rfl
  | (name, value) :: members => by
    rw [mapMembers, nodesOfMembers, nodesOfMembers, nodes_mapNumbers f value,
      nodes_mapMembers f members]

end

mutual

theorem nodes_ordered : ∀ v : Json ν, nodes (ordered v) = nodes v
  | .null => rfl
  | .bool _ => rfl
  | .num _ => rfl
  | .str _ => rfl
  | .arr items => by rw [ordered, nodes, nodes, nodes_orderedItems items]
  | .obj members => by
    have hsorted : nodesOfMembers (sortOn Prod.fst (orderedMembers members)) =
        nodesOfMembers (orderedMembers members) := by
      rw [nodesOfMembers_eq_sum, nodesOfMembers_eq_sum]
      exact ((sortOn_perm Prod.fst (orderedMembers members)).map _).sum_nat
    rw [ordered, nodes, nodes, hsorted, nodes_orderedMembers members]

theorem nodes_orderedItems : ∀ v : List (Json ν), nodesOfItems (orderedItems v) = nodesOfItems v
  | [] => rfl
  | item :: items => by
    rw [orderedItems, nodesOfItems, nodesOfItems, nodes_ordered item, nodes_orderedItems items]

theorem nodes_orderedMembers : ∀ v : List (String × Json ν),
    nodesOfMembers (orderedMembers v) = nodesOfMembers v
  | [] => rfl
  | (name, value) :: members => by
    rw [orderedMembers, nodesOfMembers, nodesOfMembers, nodes_ordered value,
      nodes_orderedMembers members]

end

end Modary.Lib.JsonValue
