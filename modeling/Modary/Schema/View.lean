import Modary.Lib.JsonAlike
import Modary.Lib.JsonText
import Modary.Schema.Walk

/-! # What the walk sees

The walk over a schema document looks at its shape and at the texts of its references. Documents
that look alike have the same locations; neither the spelling of numbers, nor the order of members,
nor a `$schema` is looked at. -/

namespace Modary.Schema.View

open Modary.Lib.GoText Modary.Lib.JsonValue Modary.Lib.JsonText Modary.Lib.JsonPlace
open Modary.Lib.JsonPointer Modary.Schema.Profile Modary.Schema.Walk

/-- What is seen of a value. -/
inductive Shape
  | object
  | array (length : ℕ)
  | boolean
  | declaration
  | text (s : String)
  | other
  deriving DecidableEq, Repr

/-- The place is that of a member `$schema`. -/
def ofSchema (place : Place) : Prop := place.getLast? = some (Step.key "$schema")

instance (place : Place) : Decidable (ofSchema place) := by
  unfold ofSchema
  infer_instance

/-- What is seen of a value at a place: not the text of a `$schema`, and of that of the root not
even whether there is one. -/
def look (place : Place) : Value → Option Shape
  | .obj _ => some .object
  | .arr items => some (.array items.length)
  | .bool _ => some .boolean
  | .str s =>
    if place = [Step.key "$schema"] then none
    else if ofSchema place then some .declaration
    else some (.text s)
  | _ => some .other

theorem look_str (place : Place) (s : String) : look place (.str s) =
    if place = [Step.key "$schema"] then none
    else if ofSchema place then some .declaration
    else some (.text s) := rfl

theorem look_arr (place : Place) (items : List Value) :
    look place (.arr items) = some (.array items.length) := rfl

/-- What is seen of a document. -/
def view (document : Value) (place : Place) : Option Shape := (get document place).bind (look place)

/-! ### Documents that look alike -/

section Transfer

variable {v w : Value} {p q : Place}

theorem view_of_get {found : Value} (h : get v p = some found) : view v p = look p found := by
  rw [view, h, Option.bind_some]

theorem obj_of_view (h : view v = view w) {members : Members} (hget : get v p = some (.obj members)) :
    ∃ others, get w p = some (.obj others) := by
  have hlook : view w p = some .object := by
    rw [← h, view_of_get hget]
    rfl
  obtain ⟨found, hfound, hshape⟩ := Option.bind_eq_some_iff.mp hlook
  cases found with
  | obj others => exact ⟨others, hfound⟩
  | str s =>
    rw [look_str] at hshape
    split_ifs at hshape <;> cases hshape
  | _ => cases hshape

theorem arr_of_view (h : view v = view w) {items : List Value} (hget : get v p = some (.arr items)) :
    ∃ others, get w p = some (.arr others) ∧ others.length = items.length := by
  have hlook : view w p = some (.array items.length) := by
    rw [← h, view_of_get hget]
    rfl
  obtain ⟨found, hfound, hshape⟩ := Option.bind_eq_some_iff.mp hlook
  cases found with
  | arr others =>
    have hlength : others.length = items.length := Shape.array.inj (Option.some.inj hshape)
    exact ⟨others, hfound, hlength⟩
  | str s =>
    rw [look_str] at hshape
    split_ifs at hshape <;> cases hshape
  | _ => cases hshape

theorem text_of_view (h : view v = view w) (hp : ¬ ofSchema p) {s : String}
    (hget : get v p = some (.str s)) : get w p = some (.str s) := by
  have hroot : p ≠ [Step.key "$schema"] := by
    rintro rfl
    exact hp rfl
  have hlook : view w p = some (.text s) := by
    rw [← h, view_of_get hget, look_str, if_neg hroot, if_neg hp]
  obtain ⟨found, hfound, hshape⟩ := Option.bind_eq_some_iff.mp hlook
  cases found with
  | str t =>
    rw [look_str, if_neg hroot, if_neg hp] at hshape
    cases hshape
    exact hfound
  | _ => cases hshape

theorem schema_of_view (h : view v = view w) {found : Value} (hget : get v p = some found)
    (hschema : isSchemaValue found = true) :
    ∃ other, get w p = some other ∧ isSchemaValue other = true := by
  cases found with
  | obj members =>
    obtain ⟨others, hothers⟩ := obj_of_view h hget
    exact ⟨_, hothers, rfl⟩
  | bool value =>
    have hlook : view w p = some .boolean := by
      rw [← h, view_of_get hget]
      rfl
    obtain ⟨other, hother, hshape⟩ := Option.bind_eq_some_iff.mp hlook
    cases other with
    | bool value => exact ⟨_, hother, rfl⟩
    | str s =>
      rw [look_str] at hshape
      split_ifs at hshape <;> cases hshape
    | _ => cases hshape
  | _ => cases hschema

theorem some_of_view (h : view v = view w) (hp : p ≠ [Step.key "$schema"]) {found : Value}
    (hget : get v p = some found) : ∃ other, get w p = some other := by
  have hlook : ∃ shape, view v p = some shape := by
    rw [view_of_get hget]
    cases found with
    | str s =>
      rw [look_str, if_neg hp]
      split_ifs
      · exact ⟨_, rfl⟩
      · exact ⟨_, rfl⟩
    | _ => exact ⟨_, rfl⟩
  obtain ⟨shape, hshape⟩ := hlook
  rw [h] at hshape
  obtain ⟨other, hother, -⟩ := Option.bind_eq_some_iff.mp hshape
  exact ⟨other, hother⟩

/-- What is not a text is seen at every place. -/
theorem container_of_view (h : view v = view w) {found : Value} (hget : get v p = some found)
    (htext : ∀ s, found ≠ .str s) : ∃ other, get w p = some other := by
  have hlook : ∃ shape, view v p = some shape := by
    rw [view_of_get hget]
    cases found with
    | str s => exact absurd rfl (htext s)
    | _ => exact ⟨_, rfl⟩
  obtain ⟨shape, hshape⟩ := hlook
  rw [h] at hshape
  obtain ⟨other, hother, -⟩ := Option.bind_eq_some_iff.mp hshape
  exact ⟨other, hother⟩

/-- A member that a keyword of the grammar names. -/
theorem member_of_view (h : view v = view w) {members others : Members} {keyword : String}
    (hv : get v p = some (.obj members)) (hw : get w p = some (.obj others))
    (hkeyword : keyword ≠ "$schema") {value : Value} (hvalue : members.lookup keyword = some value) :
    ∃ other, others.lookup keyword = some other := by
  have hne : p ++ [Step.key keyword] ≠ [Step.key "$schema"] := by
    intro heq
    have hlast : Step.key keyword = .key "$schema" := by simpa using congrArg List.getLast? heq
    exact hkeyword (Step.key.inj hlast)
  have hget : get v (p ++ [Step.key keyword]) = some value := (get_member hv keyword).trans hvalue
  obtain ⟨other, hother⟩ := some_of_view h hne hget
  exact ⟨other, (get_member hw keyword).symm.trans hother⟩

theorem obj_member_of_view (h : view v = view w) {members others children : Members}
    {keyword : String} (hv : get v p = some (.obj members)) (hw : get w p = some (.obj others))
    (hvalue : members.lookup keyword = some (.obj children)) :
    ∃ below, others.lookup keyword = some (.obj below) := by
  have hget : get v (p ++ [Step.key keyword]) = some (.obj children) :=
    (get_member hv keyword).trans hvalue
  obtain ⟨below, hbelow⟩ := obj_of_view h hget
  exact ⟨below, (get_member hw keyword).symm.trans hbelow⟩

theorem arr_member_of_view (h : view v = view w) {members others : Members} {items : List Value}
    {keyword : String} (hv : get v p = some (.obj members)) (hw : get w p = some (.obj others))
    (hvalue : members.lookup keyword = some (.arr items)) :
    ∃ below, others.lookup keyword = some (.arr below) ∧ below.length = items.length := by
  have hget : get v (p ++ [Step.key keyword]) = some (.arr items) := (get_member hv keyword).trans hvalue
  obtain ⟨below, hbelow, hlength⟩ := arr_of_view h hget
  exact ⟨below, (get_member hw keyword).symm.trans hbelow, hlength⟩

theorem schema_member_of_view (h : view v = view w) {members others : Members} {value : Value}
    {keyword : String} (hv : get v p = some (.obj members)) (hw : get w p = some (.obj others))
    (hvalue : members.lookup keyword = some value) (hschema : isSchemaValue value = true) :
    ∃ below, others.lookup keyword = some below ∧ isSchemaValue below = true := by
  have hget : get v (p ++ [Step.key keyword]) = some value := (get_member hv keyword).trans hvalue
  obtain ⟨below, hbelow, hisSchema⟩ := schema_of_view h hget hschema
  exact ⟨below, (get_member hw keyword).symm.trans hbelow, hisSchema⟩

/-- The grammar has the same children in documents that look alike. -/
theorem grammarChild_of_view (h : view v = view w) (hd : distinct v = true)
    {members others : Members} (hv : get v p = some (.obj members))
    (hw : get w p = some (.obj others)) {path : Place} (hchild : GrammarChild members path) :
    GrammarChild others path := by
  cases hchild with
  | @single keyword value hkeyword hlookup =>
    have hne : keyword ≠ "$schema" := by
      rintro rfl
      exact absurd hkeyword (by decide)
    obtain ⟨other, hother⟩ := member_of_view h hv hw hne hlookup
    exact .single hkeyword hother
  | listed hkeyword hlookup hi =>
    obtain ⟨below, hbelow, hlength⟩ := arr_member_of_view h hv hw hlookup
    exact .listed hkeyword hbelow (by omega)
  | tuple hlookup hi =>
    obtain ⟨below, hbelow, hlength⟩ := arr_member_of_view h hv hw hlookup
    exact .tuple hbelow (by omega)
  | items hlookup hvalue =>
    obtain ⟨below, hbelow, hschema⟩ := schema_member_of_view h hv hw hlookup hvalue
    exact .items hbelow hschema
  | @named keyword name children hkeyword hlookup hname =>
    obtain ⟨below, hbelow⟩ := obj_member_of_view h hv hw hlookup
    have hgetv : get v (p ++ [Step.key keyword]) = some (.obj children) :=
      (get_member hv keyword).trans hlookup
    have hgetw : get w (p ++ [Step.key keyword]) = some (.obj below) :=
      (get_member hw keyword).trans hbelow
    obtain ⟨value, hvalue⟩ := exists_lookup hname
    have hget : get v (p ++ [Step.key keyword] ++ [Step.key name]) = some value :=
      (get_member hgetv name).trans hvalue
    have hne : p ++ [Step.key keyword] ++ [Step.key name] ≠ [Step.key "$schema"] := by
      intro heq
      have hlength := congrArg List.length heq
      simp at hlength
    obtain ⟨other, hother⟩ := some_of_view h hne hget
    rw [get_member hgetw] at hother
    exact .named hkeyword hbelow (List.mem_map_of_mem (mem_of_lookup hother))
  | @dependency name value children hlookup hmem hvalue =>
    obtain ⟨below, hbelow⟩ := obj_member_of_view h hv hw hlookup
    have hgetv : get v (p ++ [Step.key "dependencies"]) = some (.obj children) :=
      (get_member hv "dependencies").trans hlookup
    have hgetw : get w (p ++ [Step.key "dependencies"]) = some (.obj below) :=
      (get_member hw "dependencies").trans hbelow
    have hnodup := nodup_of_distinct (distinct_get hd hgetv)
    obtain ⟨other, hother, hschema⟩ := schema_member_of_view h hgetv hgetw
      ((lookup_eq_some_iff_mem hnodup).mpr hmem) hvalue
    exact .dependency hbelow (mem_of_lookup hother) hschema

/-- A pointer to a schema leads to the same place in documents that look alike. -/
theorem resolve_of_view (h : view v = view w) {base rest : Place} {above other target : Value}
    {tokens : List Bytes} (hv : get v base = some above) (hw : get w base = some other)
    (hresolve : resolveTokens above tokens = .ok rest) (htarget : get above rest = some target)
    (hschema : isSchemaValue target = true) : resolveTokens other tokens = .ok rest := by
  induction tokens generalizing base rest above other with
  | nil =>
    cases hresolve
    rfl
  | cons token tokens ih =>
    obtain ⟨step, below, more, hstep, hbelow, hrest, rfl⟩ := resolveTokens_cons_ok hresolve
    rw [get_cons, hbelow, Option.bind_some] at htarget
    have hgetv : get v (base ++ [step]) = some below := by
      rw [get_append_of_get hv, get_cons, hbelow]
      rfl
    have hnext : ∃ next, stepTo other token = .ok step ∧ child other step = some next := by
      cases above with
      | arr items =>
        obtain ⟨others, hothers, hlength⟩ := arr_of_view h hv
        rw [hw] at hothers
        cases hothers
        have hsame : stepTo (.arr others : Value) token = .ok step := by
          rw [stepTo, hlength]
          exact hstep
        obtain ⟨next, hnext⟩ := child_of_stepTo hsame
        exact ⟨next, hsame, hnext⟩
      | obj members =>
        obtain ⟨others, hothers⟩ := obj_of_view h hv
        rw [hw] at hothers
        cases hothers
        cases step with
        | index i => cases hbelow
        | key name =>
          -- A text is no schema, and nothing is below it.
          have htext : ∀ s, below ≠ .str s := by
            rintro s rfl
            cases more with
            | nil =>
              cases htarget
              cases hschema
            | cons step more => cases htarget
          obtain ⟨next, hnext⟩ := container_of_view h hgetv htext
          have hchild : child (.obj others : Value) (Step.key name) = some next := by
            rw [get_append_of_get hw, get_key] at hnext
            exact hnext
          rw [← tokenOf_of_stepTo hstep]
          exact ⟨next, stepTo_tokenOf hchild, hchild⟩
      | _ => cases hstep
    obtain ⟨next, hsame, hnext⟩ := hnext
    have hgetw : get w (base ++ [step]) = some next := by
      rw [get_append_of_get hw, get_cons, hnext]
      rfl
    rw [resolveTokens_cons hsame hnext, ih hgetv hgetw hrest htarget]
    rfl

theorem edge_of_view (h : view v = view w) (hd : distinct v = true) (hedge : Edge v p q) :
    Edge w p q := by
  rcases hedge with ⟨members, path, hv, hchild, rfl⟩ | ⟨members, reference, value, tokens, hv, href, hresolve⟩
  · obtain ⟨others, hw⟩ := obj_of_view h hv
    exact .inl ⟨others, path, hw, grammarChild_of_view h hd hv hw hchild, rfl⟩
  · obtain ⟨others, hw⟩ := obj_of_view h hv
    have hplace : ¬ ofSchema (p ++ [Step.key "$ref"]) := by
      unfold ofSchema
      rw [List.getLast?_concat]
      decide
    have hget : get v (p ++ [Step.key "$ref"]) = some (.str reference) :=
      (get_member hv "$ref").trans href
    have href' : others.lookup "$ref" = some (.str reference) :=
      (get_member hw "$ref").symm.trans (text_of_view h hplace hget)
    obtain ⟨parsed, hparsed, hresolve⟩ := bind_eq_ok.mp hresolve
    obtain ⟨target, htarget, hresolve⟩ := bind_eq_ok.mp hresolve
    cases hfound : get v target with
    | none =>
      simp only [hfound] at hresolve
      cases hresolve
    | some found =>
      simp only [hfound] at hresolve
      split_ifs at hresolve with hschema
      cases hresolve
      obtain ⟨other, hother, hisSchema⟩ := schema_of_view h hfound hschema
      have hrootv : get v [] = some v := rfl
      have hrootw : get w [] = some w := rfl
      have hleads := resolve_of_view h hrootv hrootw htarget hfound hschema
      refine .inr ⟨others, reference, other, tokens, hw, href', ?_⟩
      refine bind_eq_ok.mpr ⟨tokens, hparsed, bind_eq_ok.mpr ⟨q, hleads, ?_⟩⟩
      simp only [hother, if_pos hisSchema]

/-- **Documents that look alike have the same locations.** -/
theorem reached_congr (h : view v = view w) (hv : distinct v = true) (hw : distinct w = true) :
    Reached v = Reached w := by
  have hedge : Edge v = Edge w := by
    funext p q
    exact propext ⟨edge_of_view h hv, edge_of_view h.symm hw⟩
  rw [Reached, Reached, hedge]

end Transfer

/-! ### What does not show -/

/-- The value that a document of tokens spells. -/
def valueOf (document : Value) : Json ℚ := mapNumbers numberValue document

/-- The same JSON value, with the numbers compared by value. -/
def SameValue (v w : Value) : Prop := alike (valueOf v) (valueOf w) = true

variable {v w : Value}

theorem SameValue.refl (hv : distinct v = true) : SameValue v v := by
  have hdistinct : distinct (valueOf v) = true := by
    rw [valueOf, distinct_mapNumbers]
    exact hv
  exact (ordered_eq_iff _ _ hdistinct hdistinct).mp rfl

theorem SameValue.symm (h : SameValue v w) (hv : distinct v = true) (hw : distinct w = true) :
    SameValue w v := by
  unfold SameValue valueOf
  exact alike_symm (by rw [distinct_mapNumbers]; exact hv) (by rw [distinct_mapNumbers]; exact hw) h

/-- What is at a place of a document is the same value at that place of the other. -/
theorem get_of_same {place : Place} {found : Value} (h : SameValue v w)
    (hget : get v place = some found) : ∃ other, get w place = some other ∧ SameValue found other := by
  have hvalue : get (valueOf v) place = some (valueOf found) := by
    rw [valueOf, get_mapNumbers, hget]
    rfl
  obtain ⟨value, hother, halike⟩ := get_of_alike h hvalue
  rw [valueOf, get_mapNumbers] at hother
  obtain ⟨found', hfound, rfl⟩ := Option.map_eq_some_iff.mp hother
  exact ⟨found', hfound, halike⟩

theorem look_of_same (place : Place) (h : SameValue v w) : look place v = look place w := by
  cases v with
  | null => cases w with
    | null => rfl
    | _ => cases h
  | bool a => cases w with
    | bool b => rfl
    | _ => cases h
  | num n => cases w with
    | num m => rfl
    | _ => cases h
  | str s => cases w with
    | str t =>
      have heq : s = t := of_decide_eq_true h
      rw [heq]
    | _ => cases h
  | arr items => cases w with
    | arr others =>
      have hlength := length_of_alikeItems (show alikeItems (mapItems numberValue items)
        (mapItems numberValue others) = true from h)
      rw [length_mapItems, length_mapItems] at hlength
      rw [look_arr, look_arr, hlength]
    | _ => cases h
  | obj members => cases w with
    | obj others => rfl
    | _ => cases h

/-- The same JSON value looks the same. -/
theorem view_of_same (h : SameValue v w) (hv : distinct v = true) (hw : distinct w = true) :
    view v = view w := by
  funext place
  cases hgetv : get v place with
  | some found =>
    obtain ⟨other, hother, hsame⟩ := get_of_same h hgetv
    rw [view_of_get hgetv, view_of_get hother, look_of_same place hsame]
  | none =>
    cases hgetw : get w place with
    | none => rw [view, view, hgetv, hgetw]
    | some other =>
      obtain ⟨found, hfound, -⟩ := get_of_same (h.symm hv hw) hgetw
      rw [hgetv] at hfound
      cases hfound

/-- A rewriting of the texts of `$schema` does not show. -/
theorem view_rewrite {texts : Place → Option String}
    (h : ∀ place, ¬ ofSchema place → texts place = none) (v : Value) : view (rewrite texts v) = view v := by
  funext place
  rw [view, view, get_rewrite]
  cases get v place with
  | none => rfl
  | some found =>
    rw [Option.map_some, Option.bind_some, Option.bind_some]
    cases found with
    | str s =>
      rw [rewrite, List.append_nil, look_str, look_str]
      by_cases hroot : place = [Step.key "$schema"]
      · rw [if_pos hroot, if_pos hroot]
      · rw [if_neg hroot, if_neg hroot]
        by_cases hplace : ofSchema place
        · rw [if_pos hplace, if_pos hplace]
        · rw [if_neg hplace, if_neg hplace, h place hplace, Option.getD_none]
    | arr items => rw [rewrite, look_arr, look_arr, length_rewriteItems]
    | _ => rfl

theorem seals_of_not_ofSchema {objects : Place → Prop} {place : Place} (h : ¬ ofSchema place) :
    seals objects place = none := by
  refine if_neg ?_
  rintro ⟨p, -, rfl⟩
  exact h (by rw [ofSchema, List.getLast?_concat])

/-! ### The declaration of the root -/

/-- The document with a `$schema` at its root. -/
def declared : Value → Value
  | .obj members =>
    if (members.lookup "$schema").isSome then .obj members
    else .obj (members ++ [("$schema", .str canonicalDraft7URI)])
  | value => value

theorem lookup_snoc (members : Members) (key name : String) (value : Value) :
    (members ++ [(key, value)]).lookup name =
      (members.lookup name).or (if name = key then some value else none) := by
  induction members with
  | nil => rw [List.nil_append, lookup_cons_if]; rfl
  | cons member members ih =>
    obtain ⟨other, first⟩ := member
    rw [List.cons_append, lookup_cons_if, lookup_cons_if, ih]
    by_cases hname : name = other
    · rw [if_pos hname, if_pos hname]; rfl
    · rw [if_neg hname, if_neg hname]

/-- A declaration of the root does not show. -/
theorem view_declared (v : Value) : view (declared v) = view v := by
  cases v with
  | obj members =>
    rw [declared]
    by_cases hdeclared : (members.lookup "$schema").isSome = true
    · rw [if_pos hdeclared]
    · rw [if_neg hdeclared]
      rw [Option.not_isSome_iff_eq_none] at hdeclared
      funext place
      cases place with
      | nil => rfl
      | cons step place =>
        cases step with
        | index i => rfl
        | key name =>
          rw [view, view, get_cons, get_cons, child, child, lookup_snoc]
          by_cases hname : name = "$schema"
          · rw [hname, hdeclared, if_pos rfl]
            cases place with
            | nil => rfl
            | cons step place => rfl
          · rw [if_neg hname, Option.or_none]
  | _ => rfl

theorem depth_declared (v : Value) : depth (declared v) ≤ depth v := by
  cases v with
  | obj members =>
    rw [declared]
    split_ifs
    · exact le_rfl
    · have hmembers : depthOfMembers (members ++ [("$schema", .str canonicalDraft7URI)]) ≤
          depthOfMembers members := by
        rw [depthOfMembers_le_iff]
        intro member hmember
        rcases List.mem_append.mp hmember with hmember | hmember
        · exact depth_le_of_mem_members hmember
        · rw [List.mem_singleton.mp hmember]
          exact Nat.zero_le _
      rw [depth, depth]
      omega
  | _ => exact le_rfl

theorem distinct_declared {v : Value} (h : distinct v = true) : distinct (declared v) = true := by
  cases v with
  | obj members =>
    rw [declared]
    split_ifs with hdeclared
    · exact h
    · rw [Option.not_isSome_iff_eq_none] at hdeclared
      rw [distinct, Bool.and_eq_true, decide_eq_true_eq, distinctMembers_iff] at h ⊢
      have hfresh : "$schema" ∉ members.map Prod.fst := by
        intro hname
        obtain ⟨value, hvalue⟩ := exists_lookup hname
        rw [hdeclared] at hvalue
        cases hvalue
      constructor
      · rw [List.map_append]
        refine List.Nodup.append h.1 (List.nodup_singleton _) ?_
        intro name hname hother
        rw [List.map_singleton, List.mem_singleton] at hother
        rw [hother] at hname
        exact hfresh hname
      · intro member hmember
        rcases List.mem_append.mp hmember with hmember | hmember
        · exact h.2 member hmember
        · rw [List.mem_singleton.mp hmember]
          rfl
  | _ => exact h

/-- Sealing the declaration of the root and declaring it may be done in either order. -/
theorem rewrite_declared {objects : Place → Prop} (hroot : objects []) (v : Value) :
    rewrite (seals objects) (declared v) = declared (rewrite (seals objects) v) := by
  cases v with
  | obj members =>
    have hseal : seals objects [Step.key "$schema"] = some canonicalDraft7URI := seals_at (p := []) hroot
    rw [declared, rewrite, declared, rewriteMembers_lookup, Option.isSome_map]
    by_cases hdeclared : (members.lookup "$schema").isSome = true
    · rw [if_pos hdeclared, if_pos hdeclared, rewrite]
    · rw [if_neg hdeclared, if_neg hdeclared, rewrite, rewriteMembers_eq_map, rewriteMembers_eq_map,
        List.map_append, List.map_singleton, rewrite, below, hseal, Option.getD_some]
  | _ => rfl

/-- Sealing more objects covers sealing fewer. -/
theorem rewrite_seals {objects others : Place → Prop} (hle : ∀ p, others p → objects p) (v : Value) :
    rewrite (seals objects) (rewrite (seals others) v) = rewrite (seals objects) v := by
  rw [rewrite_rewrite]
  congr 1
  funext place
  by_cases h : ∃ p, others p ∧ place = p ++ [Step.key "$schema"]
  · obtain ⟨p, hp, rfl⟩ := h
    rw [seals_at (hle p hp)]
    rfl
  · have hnone : seals others place = none := if_neg h
    rw [hnone, Option.or_none]

/-- The document as a contract states it: with the canonical `$schema` at some of its objects, and
one at its root. -/
noncomputable def stated (objects : Value → Place → Prop) (v : Value) : Value :=
  declared (rewrite (seals (objects v)) v)

theorem distinct_stated (objects : Value → Place → Prop) (h : distinct v = true) :
    distinct (stated objects v) = true := by
  refine distinct_declared ?_
  rw [distinct_rewrite]
  exact h

theorem depth_stated (objects : Value → Place → Prop) (v : Value) :
    depth (stated objects v) ≤ depth v := by
  have hdepth := depth_declared (rewrite (seals (objects v)) v)
  rw [depth_rewrite] at hdepth
  exact hdepth

theorem view_stated (objects : Value → Place → Prop) (v : Value) : view (stated objects v) = view v := by
  rw [stated, view_declared, view_rewrite fun place h => seals_of_not_ofSchema h]

/-- **What is the same up to the declarations of its structural positions** is the same up to those
of all that is reached. -/
theorem same_reached (hv : distinct v = true) (hw : distinct w = true)
    (h : SameValue (stated Structural v) (stated Structural w)) :
    SameValue (stated Reached v) (stated Reached w) := by
  have hview : view v = view w := by
    have hstated := view_of_same h (distinct_stated Structural hv) (distinct_stated Structural hw)
    rwa [view_stated, view_stated] at hstated
  have hreached : Reached v = Reached w := reached_congr hview hv hw
  have hseal : ∀ u : Value, rewrite (seals (Reached u)) (stated Structural u) = stated Reached u := by
    intro u
    have hroot : Reached u [] := .refl
    rw [stated, rewrite_declared hroot, rewrite_seals fun p hp => Structural.reached hp, stated]
  have hall := alike_rewrite (seals (Reached v)) _ _ h
  rw [valueOf, valueOf, ← mapNumbers_rewrite, ← mapNumbers_rewrite, hseal v, hreached, hseal w] at hall
  exact hall

end Modary.Schema.View
