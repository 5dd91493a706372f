import Modary.Lib.JsonOrder
import Modary.Lib.JsonPlace

/-! # Places of like documents

Documents that are the same JSON value have like values at the same places. They stay alike when
the same texts of both are rewritten. -/

namespace Modary.Lib.JsonPlace

open Modary.Lib.JsonValue

variable {ν μ : Type} {texts others : Place → Option String}

/-! ### Reading like documents -/

section Alike

variable [DecidableEq ν]

theorem alike_symm {v w : Json ν} (hv : distinct v = true) (hw : distinct w = true)
    (h : alike v w = true) : alike w v = true := by
  have heq := (ordered_eq_iff v w hv hw).mpr h
  exact (ordered_eq_iff w v hw hv).mp heq.symm

theorem length_of_alikeItems : ∀ {items others : List (Json ν)},
    alikeItems items others = true → items.length = others.length
  | [], [], _ => rfl
  | [], _ :: _, h => by cases h
  | _ :: _, [], h => by cases h
  | item :: items, other :: others, h => by
    rw [alikeItems, Bool.and_eq_true] at h
    rw [List.length_cons, List.length_cons, length_of_alikeItems h.2]

theorem getElem?_of_alikeItems {items others : List (Json ν)} {i : ℕ} {item : Json ν}
    (h : alikeItems items others = true) (hitem : items[i]? = some item) :
    ∃ other, others[i]? = some other ∧ alike item other = true := by
  induction items generalizing others i with
  | nil => cases hitem
  | cons first items ih =>
    cases others with
    | nil => cases h
    | cons second others =>
      rw [alikeItems, Bool.and_eq_true] at h
      cases i with
      | zero =>
        cases hitem
        exact ⟨second, rfl, h.1⟩
      | succ i =>
        obtain ⟨other, hother, halike⟩ := ih h.2 hitem
        exact ⟨other, hother, halike⟩

theorem child_of_alike {v w below : Json ν} {step : Step} (h : alike v w = true)
    (hchild : child v step = some below) :
    ∃ other, child w step = some other ∧ alike below other = true := by
  cases v with
  | arr items =>
    cases w with
    | arr others =>
      cases step with
      | key name => cases hchild
      | index i => exact getElem?_of_alikeItems h hchild
    | _ => cases h
  | obj members =>
    cases w with
    | obj others =>
      cases step with
      | index i => cases hchild
      | key name =>
        rw [alike, Bool.and_eq_true] at h
        exact lookup_of_alikeMembers h.1 (mem_of_lookup hchild)
    | _ => cases h
  | _ => cases hchild

/-- What is at a place of a document is at that place of a like one. -/
theorem get_of_alike {v w found : Json ν} {place : Place} (h : alike v w = true)
    (hget : get v place = some found) :
    ∃ other, get w place = some other ∧ alike found other = true := by
  induction place generalizing v w with
  | nil =>
    cases hget
    exact ⟨w, rfl, h⟩
  | cons step place ih =>
    obtain ⟨below, hbelow, hget⟩ := Option.bind_eq_some_iff.mp hget
    obtain ⟨next, hnext, halike⟩ := child_of_alike h hbelow
    obtain ⟨other, hother, hfound⟩ := ih halike hget
    refine ⟨other, ?_, hfound⟩
    rw [get_cons, hnext, Option.bind_some, hother]

mutual

/-- **Like documents stay alike** when the same texts of both are rewritten. -/
theorem alike_rewrite : ∀ (texts : Place → Option String) (v w : Json ν), alike v w = true →
    alike (rewrite texts v) (rewrite texts w) = true
  | _, .null, .null, _ => rfl
  | _, .bool a, .bool b, h => h
  | _, .num a, .num b, h => h
  | texts, .str a, .str b, h => by
    have heq : a = b := of_decide_eq_true h
    rw [heq, rewrite, alike]
    exact decide_eq_true rfl
  | texts, .arr items, .arr others, h => by
    rw [rewrite, rewrite, alike]
    exact alikeItems_rewrite texts 0 items others h
  | texts, .obj members, .obj others, h => by
    rw [alike, Bool.and_eq_true, List.all_eq_true] at h
    rw [rewrite, rewrite, alike, alikeMembers_rewrite texts members others h.1, Bool.true_and,
      List.all_eq_true]
    intro other hother
    rw [rewriteMembers_eq_map] at hother
    obtain ⟨member, hmem, rfl⟩ := List.mem_map.mp hother
    rw [rewriteMembers_names]
    exact h.2 member hmem

theorem alikeItems_rewrite : ∀ (texts : Place → Option String) (i : ℕ) (items others : List (Json ν)),
    alikeItems items others = true →
      alikeItems (rewriteItems texts i items) (rewriteItems texts i others) = true
  | _, _, [], [], _ => rfl
  | texts, i, item :: items, other :: others, h => by
    rw [alikeItems, Bool.and_eq_true] at h
    have hitem := alike_rewrite (below texts (.index i)) item other h.1
    have hitems := alikeItems_rewrite texts (i + 1) items others h.2
    rw [rewriteItems, rewriteItems, alikeItems, hitem, hitems]
    rfl

theorem alikeMembers_rewrite : ∀ (texts : Place → Option String)
    (members others : List (String × Json ν)), alikeMembers members others = true →
      alikeMembers (rewriteMembers texts members) (rewriteMembers texts others) = true
  | _, [], _, _ => rfl
  | texts, (name, value) :: members, others, h => by
    rw [alikeMembers, Bool.and_eq_true, Option.any_eq_true] at h
    obtain ⟨⟨other, hother, halike⟩, hrest⟩ := h
    have hvalue := alike_rewrite (below texts (.key name)) value other halike
    have hmembers := alikeMembers_rewrite texts members others hrest
    rw [rewriteMembers, alikeMembers, rewriteMembers_lookup, hother, Option.map_some,
      Option.any_some, hvalue, hmembers]
    rfl

end

end Alike

/-! ### Rewriting twice, and under a map of numbers -/

mutual

theorem rewrite_rewrite : ∀ (texts others : Place → Option String) (v : Json ν),
    rewrite texts (rewrite others v) = rewrite (fun p => (texts p).or (others p)) v
  | _, _, .null => rfl
  | _, _, .bool _ => rfl
  | _, _, .num _ => rfl
  | texts, others, .str s => by
    rw [rewrite, rewrite, rewrite]
    cases texts [] <;> rfl
  | texts, others, .arr items => by
    rw [rewrite, rewrite, rewrite, rewriteItems_rewriteItems texts others 0 items]
  | texts, others, .obj members => by
    rw [rewrite, rewrite, rewrite, rewriteMembers_rewriteMembers texts others members]

theorem rewriteItems_rewriteItems : ∀ (texts others : Place → Option String) (i : ℕ)
    (items : List (Json ν)), rewriteItems texts i (rewriteItems others i items) =
      rewriteItems (fun p => (texts p).or (others p)) i items
  | _, _, _, [] => rfl
  | texts, others, i, item :: items => by
    have hitem := rewrite_rewrite (below texts (.index i)) (below others (.index i)) item
    have hitems := rewriteItems_rewriteItems texts others (i + 1) items
    rw [rewriteItems, rewriteItems, rewriteItems, hitem, hitems]
    rfl

theorem rewriteMembers_rewriteMembers : ∀ (texts others : Place → Option String)
    (members : List (String × Json ν)), rewriteMembers texts (rewriteMembers others members) =
      rewriteMembers (fun p => (texts p).or (others p)) members
  | _, _, [] => rfl
  | texts, others, (name, value) :: members => by
    have hvalue := rewrite_rewrite (below texts (.key name)) (below others (.key name)) value
    have hmembers := rewriteMembers_rewriteMembers texts others members
    rw [rewriteMembers, rewriteMembers, rewriteMembers, hvalue, hmembers]
    rfl

end

mutual

theorem mapNumbers_rewrite (f : ν → μ) : ∀ (texts : Place → Option String) (v : Json ν),
    mapNumbers f (rewrite texts v) = rewrite texts (mapNumbers f v)
  | _, .null => rfl
  | _, .bool _ => rfl
  | _, .num _ => rfl
  | _, .str _ => rfl
  | texts, .arr items => by
    rw [rewrite, mapNumbers, mapNumbers, rewrite, mapItems_rewriteItems f texts 0 items]
  | texts, .obj members => by
    rw [rewrite, mapNumbers, mapNumbers, rewrite, mapMembers_rewriteMembers f texts members]

theorem mapItems_rewriteItems (f : ν → μ) : ∀ (texts : Place → Option String) (i : ℕ)
    (items : List (Json ν)),
    mapItems f (rewriteItems texts i items) = rewriteItems texts i (mapItems f items)
  | _, _, [] => rfl
  | texts, i, item :: items => by
    have hitem := mapNumbers_rewrite f (below texts (.index i)) item
    have hitems := mapItems_rewriteItems f texts (i + 1) items
    rw [rewriteItems, mapItems, mapItems, rewriteItems, hitem, hitems]

theorem mapMembers_rewriteMembers (f : ν → μ) : ∀ (texts : Place → Option String)
    (members : List (String × Json ν)),
    mapMembers f (rewriteMembers texts members) = rewriteMembers texts (mapMembers f members)
  | _, [] => rfl
  | texts, (name, value) :: members => by
    have hvalue := mapNumbers_rewrite f (below texts (.key name)) value
    have hmembers := mapMembers_rewriteMembers f texts members
    rw [rewriteMembers, mapMembers, mapMembers, rewriteMembers, hvalue, hmembers]

end

theorem getElem?_mapItems (f : ν → μ) : ∀ (items : List (Json ν)) (i : ℕ),
    (mapItems f items)[i]? = items[i]?.map (mapNumbers f)
  | [], i => by simp [mapItems]
  | item :: items, 0 => by simp [mapItems]
  | item :: items, i + 1 => by
    have hrest := getElem?_mapItems f items i
    rw [mapItems, List.getElem?_cons_succ, List.getElem?_cons_succ, hrest]

@[simp] theorem length_mapItems (f : ν → μ) (items : List (Json ν)) :
    (mapItems f items).length = items.length := by
  induction items with
  | nil => rfl
  | cons item items ih => rw [mapItems, List.length_cons, List.length_cons, ih]

theorem child_mapNumbers (f : ν → μ) (v : Json ν) (step : Step) :
    child (mapNumbers f v) step = (child v step).map (mapNumbers f) := by
  cases v with
  | arr items =>
    cases step with
    | key name => rfl
    | index i => exact getElem?_mapItems f items i
  | obj members =>
    cases step with
    | index i => rfl
    | key name => simp [mapNumbers, child, lookup_mapMembers]
  | _ => rfl

theorem get_mapNumbers (f : ν → μ) (v : Json ν) (place : Place) :
    get (mapNumbers f v) place = (get v place).map (mapNumbers f) := by
  induction place generalizing v with
  | nil => rfl
  | cons step place ih =>
    rw [get_cons, get_cons, child_mapNumbers]
    cases child v step with
    | none => rfl
    | some below => exact ih below

mutual

@[simp] theorem distinct_rewrite : ∀ (texts : Place → Option String) (v : Json ν),
    distinct (rewrite texts v) = distinct v
  | _, .null => rfl
  | _, .bool _ => rfl
  | _, .num _ => rfl
  | _, .str _ => rfl
  | texts, .arr items => by rw [rewrite, distinct, distinct, distinctItems_rewriteItems texts 0 items]
  | texts, .obj members => by
    rw [rewrite, distinct, distinct, rewriteMembers_names, distinctMembers_rewriteMembers texts members]

theorem distinctItems_rewriteItems : ∀ (texts : Place → Option String) (i : ℕ)
    (items : List (Json ν)), distinctItems (rewriteItems texts i items) = distinctItems items
  | _, _, [] => rfl
  | texts, i, item :: items => by
    have hitem := distinct_rewrite (below texts (.index i)) item
    have hitems := distinctItems_rewriteItems texts (i + 1) items
    rw [rewriteItems, distinctItems, distinctItems, hitem, hitems]

theorem distinctMembers_rewriteMembers : ∀ (texts : Place → Option String)
    (members : List (String × Json ν)),
    distinctMembers (rewriteMembers texts members) = distinctMembers members
  | _, [] => rfl
  | texts, (name, value) :: members => by
    have hvalue := distinct_rewrite (below texts (.key name)) value
    have hmembers := distinctMembers_rewriteMembers texts members
    rw [rewriteMembers, distinctMembers, distinctMembers, hvalue, hmembers]

end

end Modary.Lib.JsonPlace
