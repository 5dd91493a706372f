import Modary.Lib.Expansion
import Modary.Schema.Closure

/-! # The expansion of a schema

`checkSameInstanceExpansion`: which schemas are asked about one instance, said of the document. The
check accepts when and only when that relation has no cycle and no location expands to more visits
than the limit, and the evaluation of what it accepts ends on every instance. -/

namespace Modary.Schema.Expansion

open Modary.Lib.GoText Modary.Lib.JsonValue Modary.Lib.JsonPlace
open Modary.Lib.Expansion Modary.Schema.Profile Modary.Schema.Graph Modary.Schema.Walk
open Modary.Schema.Links Modary.Schema.Frame Modary.Schema.Closure

/-! ### One instance -/

/-- The paths of the keywords whose schemas are all asked about the instance itself. -/
def Applicator : Place → Prop
  | [.key keyword] => keyword ∈ ["not", "if"]
  | [.key keyword, .index _] => keyword ∈ SchemaGraph.lists
  | [.key keyword, .key _] => keyword = "dependencies"
  | _ => False

/-- A schema that is asked about the same instance: the target of `$ref` alone, or the schemas of the
applicators. -/
def Always (document : Value) (p q : Place) : Prop :=
  RefEdge document p q ∨ ∃ members path, get document p = some (.obj members) ∧
    members.lookup "$ref" = none ∧ GrammarChild members path ∧ Applicator path ∧ q = p ++ path

/-- One of the two branches of a schema with `if`. -/
def Branch (document : Value) (p q : Place) : Prop :=
  ∃ members keyword value, get document p = some (.obj members) ∧ members.lookup "$ref" = none ∧
    (members.lookup "if").isSome = true ∧ keyword ∈ ["then", "else"] ∧
      members.lookup keyword = some value ∧ q = p ++ [.key keyword]

/-- The same-instance relation. -/
def SameInstance (document : Value) : Place → Place → Prop :=
  Follows (Always document) (Branch document)

section Relation

variable {document : Value} {members : Members} {path p q : Place} {keyword : String}

theorem edgeOf_same : SchemaGraph.edgeOf keyword = .same ↔ keyword ∈ ["not", "if"] := by
  unfold SchemaGraph.edgeOf
  split_ifs with hsame hbranch <;> simp_all

theorem edgeOf_branch : SchemaGraph.edgeOf keyword = .branch ↔ keyword ∈ ["then", "else"] := by
  have hnone : ∀ k ∈ ["not", "if"], k ∉ ["then", "else"] := by decide
  unfold SchemaGraph.edgeOf
  split_ifs with hsame hbranch
  · exact ⟨fun heq => (nomatch heq), fun hmem => absurd hmem (hnone keyword hsame)⟩
  · simp [hbranch]
  · simp [hbranch]

/-- The list of a child is told by its keyword. -/
theorem edgeOfPath_same (h : GrammarChild members path) :
    edgeOfPath path = .same ↔ Applicator path := by
  have hmaps : ∀ k ∈ SchemaGraph.maps, ¬ (k ∈ SchemaGraph.lists ∨ k = "dependencies") := by decide
  cases h with
  | single hkeyword h => exact edgeOf_same
  | listed hkeyword h hi => exact ⟨fun _ => hkeyword, fun _ => if_pos (.inl hkeyword)⟩
  | tuple h hi =>
    refine ⟨fun heq => (nomatch heq), fun happ => ?_⟩
    have hlist : "items" ∈ SchemaGraph.lists := happ
    exact absurd hlist (by decide)
  | items h hvalue => exact edgeOf_same
  | @named keyword name children hkeyword h hname =>
    have hplain : edgeOfPath [.key keyword, .key name] = .plain := if_neg (hmaps keyword hkeyword)
    rw [hplain]
    exact ⟨fun heq => (nomatch heq), fun happ => absurd (Or.inr happ) (hmaps keyword hkeyword)⟩
  | dependency h hmem hvalue => exact ⟨fun _ => rfl, fun _ => rfl⟩

theorem edgeOfPath_branch (h : GrammarChild members path) :
    edgeOfPath path = .branch ↔ ∃ keyword ∈ ["then", "else"], path = [.key keyword] := by
  have hmaps : ∀ k ∈ SchemaGraph.maps, ¬ (k ∈ SchemaGraph.lists ∨ k = "dependencies") := by decide
  have hone : ∀ keyword, edgeOfPath [.key keyword] = .branch ↔
      ∃ k ∈ ["then", "else"], ([.key keyword] : Place) = [.key k] := by
    intro keyword
    refine edgeOf_branch.trans ⟨fun hk => ⟨keyword, hk, rfl⟩, ?_⟩
    rintro ⟨k, hk, heq⟩
    cases heq
    exact hk
  have htwo : ∀ {keyword : String} {step : Step} {edge : SchemaGraph.Edge}, edge ≠ .branch →
      edgeOfPath [.key keyword, step] = edge → (edgeOfPath [.key keyword, step] = .branch ↔
        ∃ k ∈ ["then", "else"], ([.key keyword, step] : Place) = [.key k]) := by
    intro keyword step edge hne hedge
    rw [hedge]
    refine ⟨fun heq => absurd heq hne, ?_⟩
    rintro ⟨k, -, heq⟩
    cases heq
  have hsame : SchemaGraph.Edge.same ≠ .branch := fun heq => nomatch heq
  have hplain : SchemaGraph.Edge.plain ≠ .branch := fun heq => nomatch heq
  cases h with
  | single hkeyword h => exact hone _
  | listed hkeyword h hi =>
    exact htwo hsame (if_pos (.inl hkeyword))
  | tuple h hi => exact htwo hplain rfl
  | items h hvalue => exact hone _
  | named hkeyword h hname => exact htwo hplain (if_neg (hmaps _ hkeyword))
  | dependency h hmem hvalue => exact htwo hsame rfl

/-- What is asked about the same instance is a location of the graph. -/
theorem SameInstance.edge (h : SameInstance document p q) : Walk.Edge document p q := by
  rcases h with (href | ⟨members, path, hget, -, hchild, -, rfl⟩) |
    ⟨members, keyword, value, hget, -, -, hkeyword, hvalue, rfl⟩
  · exact .inr href
  · exact .inl ⟨members, path, hget, hchild, rfl⟩
  · have hsingles : ∀ k ∈ ["then", "else"], k ∈ SchemaGraph.singles := by decide
    exact .inl ⟨members, _, hget, .single (hsingles keyword hkeyword) hvalue, rfl⟩

theorem refEdge_unique {q' : Place} (h : RefEdge document p q) (h' : RefEdge document p q') :
    q = q' := by
  obtain ⟨members, reference, value, tokens, hget, hlookup, hresolve⟩ := h
  obtain ⟨members', reference', value', tokens', hget', hlookup', hresolve'⟩ := h'
  rw [hget] at hget'
  cases hget'
  rw [hlookup] at hlookup'
  cases hlookup'
  rw [hresolve] at hresolve'
  cases hresolve'
  rfl

end Relation

/-! ### The lists of a node -/

/-- The nodes that `cost` always goes on to. -/
def everyOf (node : SchemaNode) : List ℕ :=
  match node.ref with
  | some target => [target]
  | none => node.same

/-- The nodes that it takes the most costly of. -/
def optionsOf (graph : SchemaGraph) (node : SchemaNode) : List ℕ :=
  match node.ref with
  | some _ => []
  | none => if graph.conditional node then node.branches else []

section Built

variable {setting : Setting} {limits : CompileLimits} {document : Document} {walk graph : SchemaGraph}
  {id : ℕ} {node : SchemaNode} {q : Place}

theorem built_root (h : Built setting limits document walk graph) : ∃ texts,
    graph.root = rewrite texts document.1 := by
  have hroot : graph.root = walk.root := by
    rw [h.marked]
    rfl
  exact ⟨_, hroot.trans h.tracked.walked.root⟩

theorem conditional_iff (h : Built setting limits document walk graph) :
    graph.conditional node = true ↔ ∃ members, get document.1 node.place = some (.obj members) ∧
      (members.lookup "if").isSome = true := by
  obtain ⟨texts, hroot⟩ := built_root h
  unfold SchemaGraph.conditional
  rw [hroot]
  constructor
  · intro hconditional
    split at hconditional
    · next members hmembers =>
      obtain ⟨old, hold, rfl⟩ := get_rewritten_obj hmembers
      rw [rewriteMembers_lookup, Option.isSome_map] at hconditional
      exact ⟨old, hold, hconditional⟩
    · cases hconditional
  · rintro ⟨members, hget, hif⟩
    rw [get_rewrite, hget, Option.map_some, rewrite]
    simp only
    rw [rewriteMembers_lookup, Option.isSome_map]
    exact hif

/-- A node has no target when and only when its object has no `$ref`. -/
theorem ref_none_iff (h : Built setting limits document walk graph)
    (hnode : graph.nodes[id]? = some node) : node.ref = none ↔
      ∀ members, get document.1 node.place = some (.obj members) → members.lookup "$ref" = none := by
  constructor
  · intro hnone members hget
    cases hvalue : members.lookup "$ref" with
    | none => rfl
    | some value =>
      obtain ⟨_, _, _, t, -, -, -, -, ht, -⟩ := h.reference hnode hget hvalue
      rw [hnone] at ht
      cases ht
  · intro hnone
    obtain ⟨old, hold, heq⟩ := h.node hnode
    have hplace := (h.place_of_node hold).1
    have hnodePlace : node.place = old.place := by rw [heq]
    have href : node.ref = old.ref := by rw [heq]
    rw [hnodePlace] at hnone
    rw [href]
    refine h.tracked.linked.noTarget id old hold ?_
    rw [refsTo, hplace, Option.bind_some]
    cases hobject : objectAt document.1 old.place with
    | none => simp
    | some members =>
      have hlookup := hnone members (objectAt_eq_some.mp hobject)
      simp [referenceTokens, hlookup]

/-- **The nodes that are always gone on to** are those at the places that are. -/
theorem always_iff (h : Built setting limits document walk graph)
    (hnode : graph.nodes[id]? = some node) :
    Always document.1 node.place q ↔ ∃ c ∈ everyOf node, (places graph)[c]? = some q := by
  unfold everyOf
  cases href : node.ref with
  | some t =>
    have hsome : ∃ members value, get document.1 node.place = some (.obj members) ∧
        members.lookup "$ref" = some value := by
      by_contra hnot
      have hnone := (ref_none_iff h hnode).mpr fun members hget => by
        cases hvalue : members.lookup "$ref" with
        | none => rfl
        | some value => exact absurd ⟨members, value, hget, hvalue⟩ hnot
      rw [href] at hnone
      cases hnone
    obtain ⟨members, value, hget, hvalue⟩ := hsome
    obtain ⟨_, _, place, t', -, -, -, hedge, ht, hplace⟩ := h.reference hnode hget hvalue
    rw [href] at ht
    cases ht
    simp only [List.mem_singleton, exists_eq_left, hplace, Option.some.injEq]
    constructor
    · rintro (hq | ⟨others, _, hget', hnone, -⟩)
      · exact refEdge_unique hedge hq
      · rw [hget] at hget'
        cases hget'
        rw [hvalue] at hnone
        cases hnone
    · rintro rfl
      exact .inl hedge
  | none =>
    have hnone := (ref_none_iff h hnode).mp href
    have hplaces := h.edge_places hnode .same q
    change _ ↔ ∃ c ∈ children node .same, _
    rw [← hplaces]
    constructor
    · rintro (⟨members, _, _, _, hget, hvalue, -⟩ | ⟨members, path, hget, -, hchild, happ, rfl⟩)
      · rw [hnone members hget] at hvalue
        cases hvalue
      · exact ⟨members, path, hget, hchild, .inr ((edgeOfPath_same hchild).mpr happ), rfl⟩
    · rintro ⟨members, path, hget, hchild, hplain | hsame, rfl⟩
      · cases hplain
      · exact .inr ⟨members, path, hget, hnone members hget, hchild,
          (edgeOfPath_same hchild).mp hsame, rfl⟩

/-- The nodes of the branches are those at the places of the branches. -/
theorem branch_iff (h : Built setting limits document walk graph)
    (hnode : graph.nodes[id]? = some node) :
    Branch document.1 node.place q ↔ ∃ c ∈ optionsOf graph node, (places graph)[c]? = some q := by
  unfold optionsOf
  cases href : node.ref with
  | some t =>
    simp only [List.not_mem_nil, false_and, exists_false, iff_false]
    rintro ⟨members, _, _, hget, hlookup, -⟩
    have hnone := (ref_none_iff h hnode).mpr fun others hothers => by
      rw [hget] at hothers
      cases hothers
      exact hlookup
    rw [href] at hnone
    cases hnone
  | none =>
    have hnone := (ref_none_iff h hnode).mp href
    have hplaces := h.edge_places hnode .branch q
    by_cases hconditional : graph.conditional node = true
    · simp only [if_pos hconditional]
      change _ ↔ ∃ c ∈ children node .branch, _
      rw [← hplaces]
      obtain ⟨members, hget, hif⟩ := (conditional_iff h).mp hconditional
      constructor
      · rintro ⟨members, keyword, value, hget, -, -, hkeyword, hvalue, rfl⟩
        have hsingles : ∀ k ∈ ["then", "else"], k ∈ SchemaGraph.singles := by decide
        have hchild : GrammarChild members [.key keyword] :=
          .single (hsingles keyword hkeyword) hvalue
        exact ⟨members, _, hget, hchild, .inr ((edgeOfPath_branch hchild).mpr ⟨keyword, hkeyword, rfl⟩),
          rfl⟩
      · rintro ⟨others, path, hget', hchild, hplain | hbranch, rfl⟩
        · cases hplain
        · rw [hget] at hget'
          cases hget'
          obtain ⟨keyword, hkeyword, rfl⟩ := (edgeOfPath_branch hchild).mp hbranch
          obtain ⟨found, hfound⟩ := found_of_grammarChild hchild
          rw [get_key] at hfound
          exact ⟨members, keyword, found, hget, hnone members hget, hif, hkeyword, hfound, rfl⟩
    · simp only [if_neg hconditional, List.not_mem_nil, false_and, exists_false, iff_false]
      rintro ⟨members, _, _, hget, -, hif, -⟩
      exact hconditional ((conditional_iff h).mpr ⟨members, hget, hif⟩)

/-- The nodes that are gone on to have places, different ones. -/
theorem place_of_every (h : Built setting limits document walk graph)
    (hnode : graph.nodes[id]? = some node) {c : ℕ} (hc : c ∈ everyOf node) :
    ∃ q, (places graph)[c]? = some q := by
  unfold everyOf at hc
  cases href : node.ref with
  | some t =>
    rw [href] at hc
    have hct : c = t := List.mem_singleton.mp hc
    have hsome : ¬ ∀ members, get document.1 node.place = some (.obj members) →
        members.lookup "$ref" = none := by
      intro hnone
      rw [(ref_none_iff h hnode).mpr hnone] at href
      cases href
    push Not at hsome
    obtain ⟨members, hget, hlookup⟩ := hsome
    obtain ⟨value, hvalue⟩ := Option.ne_none_iff_exists'.mp hlookup
    obtain ⟨_, _, place, t', -, -, -, -, ht, hplace⟩ := h.reference hnode hget hvalue
    rw [href] at ht
    cases ht
    rw [hct]
    exact ⟨place, hplace⟩
  | none =>
    rw [href] at hc
    obtain ⟨members, path, hget, hchild, -, htokens⟩ := (h.grammar hnode .same c).mp hc
    exact ⟨_, h.place_of_tokens htokens (h.below hnode hget hchild)⟩

theorem place_of_option (h : Built setting limits document walk graph)
    (hnode : graph.nodes[id]? = some node) {c : ℕ} (hc : c ∈ optionsOf graph node) :
    ∃ q, (places graph)[c]? = some q := by
  have hbranch : c ∈ children node .branch := by
    unfold optionsOf at hc
    split at hc
    · cases hc
    · split_ifs at hc
      · exact hc
      · cases hc
  obtain ⟨members, path, hget, hchild, -, htokens⟩ := (h.grammar hnode .branch c).mp hbranch
  exact ⟨_, h.place_of_tokens htokens (h.below hnode hget hchild)⟩

theorem nodup_children (h : Built setting limits document walk graph)
    (hnode : graph.nodes[id]? = some node) (edge : SchemaGraph.Edge) : (children node edge).Nodup := by
  obtain ⟨old, hold, heq⟩ := h.node hnode
  have hsame : children node edge = children old edge := by
    rw [heq]
    cases edge <;> rfl
  rw [hsame]
  exact h.tracked.linked.nodup old (List.mem_of_getElem? hold) edge

/-- The place of a node, by its number. -/
def placeAt (graph : SchemaGraph) (c : ℕ) : Place := (places graph)[c]?.getD []

theorem placeAt_eq {c : ℕ} (hq : (places graph)[c]? = some q) : placeAt graph c = q := by
  rw [placeAt, hq]
  rfl

theorem nodup_every (h : Built setting limits document walk graph)
    (hnode : graph.nodes[id]? = some node) : ((everyOf node).map (placeAt graph)).Nodup := by
  cases href : node.ref with
  | some t =>
    unfold everyOf
    rw [href]
    exact List.nodup_singleton _
  | none =>
    have hsame : everyOf node = children node .same := by
      unfold everyOf
      rw [href]
      rfl
    have hplace : ∀ c ∈ children node .same, (places graph)[c]? = some (placeAt graph c) := by
      intro c hc
      obtain ⟨q, hq⟩ := place_of_every h hnode (hsame ▸ hc)
      rw [placeAt_eq hq, hq]
    rw [hsame]
    refine List.Nodup.map_on (fun a ha b hb heq => ?_) (nodup_children h hnode .same)
    have hb' := hplace b hb
    rw [← heq] at hb'
    exact h.child_inj hnode ha hb (hplace a ha) hb'

end Built

/-! ### The costs -/

/-- What `cost` does at a node, whatever it does at the nodes that it goes on to. -/
def expand (graph : SchemaGraph) (f : ℕ → List (ℕ × ℕ) → Except Refusal (ℕ × List (ℕ × ℕ)))
    (node : SchemaNode) (memo : List (ℕ × ℕ)) : Except Refusal (ℕ × List (ℕ × ℕ)) := do
  let limit := graph.limits.maxSameInstanceSchemaVisits
  match node.ref with
  | some target => do
    let (nested, memo) ← f target memo
    .ok (SchemaGraph.boundedAdd 1 nested limit, memo)
  | none => do
    let (total, memo) ← node.same.foldlM (fun (total, memo) child => do
      let (nested, memo) ← f child memo
      .ok (SchemaGraph.boundedAdd total nested limit, memo)) (1, memo)
    if graph.conditional node then do
      let (most, memo) ← node.branches.foldlM (fun (most, memo) child => do
        let (nested, memo) ← f child memo
        .ok (max nested most, memo)) (0, memo)
      .ok (SchemaGraph.boundedAdd total most limit, memo)
    else .ok (total, memo)

theorem cost_succ (graph : SchemaGraph) (rounds : ℕ) (active : List ℕ) (id : ℕ)
    (memo : List (ℕ × ℕ)) : graph.cost (rounds + 1) active id memo = (do
      refuseIf (id ∈ active) (.message "JSON Schema contains a zero-progress local $ref cycle")
      match memo.lookup id, graph.nodes[id]? with
      | some total, _ => .ok (total, memo)
      | none, none => .ok (1, memo)
      | none, some node =>
        let (total, memo) ← expand graph (graph.cost rounds (id :: active)) node memo
        requireLimit "same-instance schema visits" total graph.limits.maxSameInstanceSchemaVisits
        .ok (total, (id, total) :: memo)) := by
  rw [SchemaGraph.cost]
  refine bind_congr fun _ => ?_
  cases memo.lookup id with
  | some total => rfl
  | none =>
    cases graph.nodes[id]? with
    | none => rfl
    | some node =>
      cases href : node.ref with
      | some target => simp [expand, href, bind_assoc]
      | none =>
        simp only [expand, href, bind_assoc]
        refine bind_congr fun _ => ?_
        by_cases hconditional : graph.conditional node = true
        · simp [hconditional]
        · simp [hconditional]

theorem boundedAdd_eq (left right limit : ℕ) :
    SchemaGraph.boundedAdd left right limit = min (left + right) (limit + 1) := by
  unfold SchemaGraph.boundedAdd
  split_ifs with h <;> omega

section Fold

variable {P : List (ℕ × ℕ) → Prop} {f : ℕ → List (ℕ × ℕ) → Except Refusal (ℕ × List (ℕ × ℕ))}
  {value : ℕ → ℕ} {memo memo' : List (ℕ × ℕ)}

/-- A step at a number gives its value, and keeps what holds of the memo. -/
def Values (P : List (ℕ × ℕ) → Prop) (f : ℕ → List (ℕ × ℕ) → Except Refusal (ℕ × List (ℕ × ℕ)))
    (value : ℕ → ℕ) (c : ℕ) : Prop :=
  ∀ memo nested memo', P memo → f c memo = .ok (nested, memo') → P memo' ∧ nested = value c

/-- A step at a number is made. -/
def Steps (P : List (ℕ × ℕ) → Prop) (f : ℕ → List (ℕ × ℕ) → Except Refusal (ℕ × List (ℕ × ℕ)))
    (c : ℕ) : Prop :=
  ∀ memo, P memo → ∃ result, f c memo = .ok result

/-- A step at a number was made. -/
def Ran (P : List (ℕ × ℕ) → Prop) (f : ℕ → List (ℕ × ℕ) → Except Refusal (ℕ × List (ℕ × ℕ)))
    (c : ℕ) : Prop :=
  ∃ memo result, P memo ∧ f c memo = .ok result

/-- The values of a list are combined one after the other. -/
theorem fold_values (combine : ℕ → ℕ → ℕ) (l : List ℕ) :
    ∀ {start out : ℕ} {memo : List (ℕ × ℕ)}, (∀ c ∈ l, Values P f value c) → P memo →
      l.foldlM (fun x child => do
        let y ← f child x.2
        Except.ok (combine x.1 y.1, y.2)) (start, memo) = .ok (out, memo') →
      P memo' ∧ out = l.foldl (fun total c => combine total (value c)) start ∧
        ∀ c ∈ l, Ran P f c := by
  induction l with
  | nil =>
    intro start out memo _ hmemo h
    cases h
    exact ⟨hmemo, rfl, fun c hc => nomatch hc⟩
  | cons c l ih =>
    intro start out memo hl hmemo h
    rw [List.foldlM_cons] at h
    obtain ⟨⟨total, middle⟩, hfirst, hrest⟩ := bind_eq_ok.mp h
    obtain ⟨⟨nested, after⟩, hstep, heq⟩ := bind_eq_ok.mp hfirst
    cases heq
    obtain ⟨hmiddle, rfl⟩ := hl c List.mem_cons_self memo nested _ hmemo hstep
    obtain ⟨hlast, hout, hran⟩ := ih (fun d hd => hl d (List.mem_cons_of_mem _ hd)) hmiddle hrest
    refine ⟨hlast, hout, fun d hd => ?_⟩
    rcases List.mem_cons.mp hd with rfl | hd
    · exact ⟨memo, _, hmemo, hstep⟩
    · exact hran d hd

/-- Where each step is made, all are. -/
theorem fold_steps (combine : ℕ → ℕ → ℕ) (l : List ℕ) :
    ∀ (start : ℕ) {memo : List (ℕ × ℕ)}, (∀ c ∈ l, Values P f value c ∧ Steps P f c) → P memo →
      ∃ result, l.foldlM (fun x child => do
        let y ← f child x.2
        Except.ok (combine x.1 y.1, y.2)) (start, memo) = .ok result := by
  induction l with
  | nil =>
    intro start memo _ _
    exact ⟨_, rfl⟩
  | cons c l ih =>
    intro start memo hl hmemo
    obtain ⟨hvalue, hstep⟩ := hl c List.mem_cons_self
    obtain ⟨⟨nested, after⟩, hstep⟩ := hstep memo hmemo
    obtain ⟨hafter, -⟩ := hvalue memo nested after hmemo hstep
    obtain ⟨result, hrest⟩ := ih (combine start nested)
      (fun d hd => hl d (List.mem_cons_of_mem _ hd)) hafter
    refine ⟨result, ?_⟩
    rw [List.foldlM_cons]
    exact bind_eq_ok.mpr ⟨_, bind_eq_ok.mpr ⟨_, hstep, rfl⟩, hrest⟩

theorem foldl_boundedAdd (limit : ℕ) (l : List ℕ) : ∀ {start : ℕ}, start ≤ limit + 1 →
    l.foldl (fun total c => SchemaGraph.boundedAdd total (value c) limit) start =
      min (start + (l.map value).sum) (limit + 1) := by
  induction l with
  | nil =>
    intro start h
    simp only [List.foldl_nil, List.map_nil, List.sum_nil]
    omega
  | cons c l ih =>
    intro start h
    rw [List.foldl_cons, boundedAdd_eq, ih (by omega), List.map_cons, List.sum_cons]
    omega

theorem foldl_max (l : List ℕ) : ∀ {start : ℕ},
    l.foldl (fun most c => max (value c) most) start = max start ((l.map value).foldr max 0) := by
  induction l with
  | nil =>
    intro start
    simp
  | cons c l ih =>
    intro start
    rw [List.foldl_cons, ih, List.map_cons, List.foldr_cons]
    omega

/-- The visits below a node, from those of the nodes that are gone on to. -/
def total (value : ℕ → ℕ) (every options : List ℕ) : ℕ :=
  1 + (every.map value).sum + (options.map value).foldr max 0

/-- **The cost of a node** is its visits, or one more than the limit when they are more. -/
theorem expand_values {graph : SchemaGraph} {node : SchemaNode} {n : ℕ}
    (hvalues : ∀ c ∈ everyOf node ++ optionsOf graph node, Values P f value c) (hmemo : P memo)
    (h : expand graph f node memo = .ok (n, memo')) : P memo' ∧
      n = min (total value (everyOf node) (optionsOf graph node))
        (graph.limits.maxSameInstanceSchemaVisits + 1) ∧
      ∀ c ∈ everyOf node ++ optionsOf graph node, Ran P f c := by
  unfold everyOf optionsOf total at *
  unfold expand at h
  cases href : node.ref with
  | some target =>
    simp only [href] at h hvalues ⊢
    obtain ⟨⟨nested, after⟩, hstep, heq⟩ := bind_eq_ok.mp h
    cases heq
    obtain ⟨hafter, rfl⟩ := hvalues target (by simp) memo nested _ hmemo hstep
    refine ⟨hafter, ?_, ?_⟩
    · rw [boundedAdd_eq]
      simp
    · intro c hc
      have hct : c = target := by simpa using hc
      rw [hct]
      exact ⟨memo, _, hmemo, hstep⟩
  | none =>
    simp only [href] at h hvalues ⊢
    obtain ⟨⟨sum, middle⟩, hsum, h⟩ := bind_eq_ok.mp h
    obtain ⟨hmiddle, hsame, hran⟩ := fold_values
      (fun x y => SchemaGraph.boundedAdd x y graph.limits.maxSameInstanceSchemaVisits) node.same
      (fun c hc => hvalues c (List.mem_append_left _ hc)) hmemo hsum
    rw [foldl_boundedAdd _ _ (by omega)] at hsame
    by_cases hconditional : graph.conditional node = true
    · simp only [if_pos hconditional] at h hvalues ⊢
      obtain ⟨⟨most, after⟩, hmost, heq⟩ := bind_eq_ok.mp h
      cases heq
      obtain ⟨hafter, hmost, hran'⟩ := fold_values (fun x y => max y x) node.branches
        (fun c hc => hvalues c (List.mem_append_right _ hc)) hmiddle hmost
      rw [foldl_max] at hmost
      refine ⟨hafter, ?_, ?_⟩
      · rw [boundedAdd_eq, hsame, hmost]
        omega
      · intro c hc
        rcases List.mem_append.mp hc with hc | hc
        · exact hran c hc
        · exact hran' c hc
    · simp only [if_neg hconditional] at h ⊢
      cases h
      refine ⟨hmiddle, ?_, ?_⟩
      · rw [hsame]
        simp
      · simpa using hran

/-- Where the nodes that are gone on to have costs, the node has one. -/
theorem expand_steps {graph : SchemaGraph} {node : SchemaNode}
    (hsteps : ∀ c ∈ everyOf node ++ optionsOf graph node, Values P f value c ∧ Steps P f c)
    (hmemo : P memo) : ∃ result, expand graph f node memo = .ok result := by
  unfold everyOf optionsOf at hsteps
  unfold expand
  cases href : node.ref with
  | some target =>
    simp only [href] at hsteps ⊢
    obtain ⟨⟨nested, after⟩, hstep⟩ := (hsteps target (by simp)).2 memo hmemo
    exact ⟨_, bind_eq_ok.mpr ⟨_, hstep, rfl⟩⟩
  | none =>
    simp only [href] at hsteps ⊢
    obtain ⟨⟨sum, middle⟩, hsum⟩ := fold_steps
      (fun x y => SchemaGraph.boundedAdd x y graph.limits.maxSameInstanceSchemaVisits) node.same 1
      (fun c hc => hsteps c (List.mem_append_left _ hc)) hmemo
    obtain ⟨hmiddle, -, -⟩ := fold_values
      (fun x y => SchemaGraph.boundedAdd x y graph.limits.maxSameInstanceSchemaVisits) node.same
      (fun c hc => (hsteps c (List.mem_append_left _ hc)).1) hmemo hsum
    by_cases hconditional : graph.conditional node = true
    · simp only [if_pos hconditional] at hsteps ⊢
      obtain ⟨⟨most, after⟩, hmost⟩ := fold_steps (fun x y => max y x) node.branches 0
        (fun c hc => hsteps c (List.mem_append_right _ hc)) hmiddle
      exact ⟨_, bind_eq_ok.mpr ⟨_, hsum, bind_eq_ok.mpr ⟨_, hmost, rfl⟩⟩⟩
    · simp only [if_neg hconditional]
      exact ⟨_, bind_eq_ok.mpr ⟨_, hsum, rfl⟩⟩

end Fold

/-! ### The check -/

section Check

variable {setting : Setting} {limits : CompileLimits} {document : Document} {walk graph : SchemaGraph}
  {cost : Place → ℕ}

/-- The visits of locations. -/
abbrev LocationVisits (document : Value) : Place → ℕ → Prop :=
  Visits (Always document) (Branch document)

/-- The visits of a node, within the limit. -/
def Fits (document : Value) (graph : SchemaGraph) (id n : ℕ) : Prop :=
  n ≤ graph.limits.maxSameInstanceSchemaVisits ∧
    ∃ p, (places graph)[id]? = some p ∧ LocationVisits document p n

/-- What is kept of nodes are their visits. -/
def Noted (document : Value) (graph : SchemaGraph) (memo : List (ℕ × ℕ)) : Prop :=
  ∀ entry ∈ memo, Fits document graph entry.1 entry.2

/-- The visits of a node are those of its location. -/
theorem visits_of_total (cost : Place → ℕ) (h : Built setting limits document walk graph) {id : ℕ} {node : SchemaNode}
    (hnode : graph.nodes[id]? = some node)
    (hvisits : ∀ c ∈ everyOf node ++ optionsOf graph node,
      LocationVisits document.1 (placeAt graph c) (cost (placeAt graph c))) :
    LocationVisits document.1 node.place
      (total (fun c => cost (placeAt graph c)) (everyOf node) (optionsOf graph node)) := by
  have hevery : ∀ q, q ∈ ((everyOf node).map (placeAt graph)).toFinset ↔
      Always document.1 node.place q := by
    intro q
    rw [always_iff h hnode, List.mem_toFinset, List.mem_map]
    refine exists_congr fun c => and_congr_right fun hc => ?_
    obtain ⟨q', hq'⟩ := place_of_every h hnode hc
    rw [placeAt_eq hq', hq', Option.some_inj]
  have hoptions : ∀ q, q ∈ ((optionsOf graph node).map (placeAt graph)).toFinset ↔
      Branch document.1 node.place q := by
    intro q
    rw [branch_iff h hnode, List.mem_toFinset, List.mem_map]
    refine exists_congr fun c => and_congr_right fun hc => ?_
    obtain ⟨q', hq'⟩ := place_of_option h hnode hc
    rw [placeAt_eq hq', hq', Option.some_inj]
  have hsum : ((everyOf node).map (placeAt graph)).toFinset.sum cost =
      ((everyOf node).map fun c => cost (placeAt graph c)).sum := by
    rw [List.sum_toFinset cost (nodup_every h hnode), List.map_map]
    rfl
  have hsup : ∀ l : List ℕ, (l.map (placeAt graph)).toFinset.sup cost =
      (l.map fun c => cost (placeAt graph c)).foldr max 0 := by
    intro l
    induction l with
    | nil => rfl
    | cons c l ih =>
      rw [List.map_cons, List.toFinset_cons, Finset.sup_insert, ih, List.map_cons, List.foldr_cons]
  have hvisits := Visits.intro cost _ _ hevery hoptions fun q hq => by
    have hc : ∃ c ∈ everyOf node ++ optionsOf graph node, placeAt graph c = q := by
      rcases hq with hq | hq
      · obtain ⟨c, hc, hplace⟩ := (always_iff h hnode).mp hq
        exact ⟨c, List.mem_append_left _ hc, placeAt_eq hplace⟩
      · obtain ⟨c, hc, hplace⟩ := (branch_iff h hnode).mp hq
        exact ⟨c, List.mem_append_right _ hc, placeAt_eq hplace⟩
    obtain ⟨c, hc, rfl⟩ := hc
    exact hvisits c hc
  rw [hsum, hsup] at hvisits
  exact hvisits

/-- A node that is kept, or is computed, has its visits. -/
theorem values_cost (h : Built setting limits document walk graph)
    (hcost : ∀ p n, LocationVisits document.1 p n → cost p = n) (rounds : ℕ) :
    ∀ (active : List ℕ) (id : ℕ) {memo memo' : List (ℕ × ℕ)} {n : ℕ}, id < graph.nodes.length →
      Noted document.1 graph memo → graph.cost rounds active id memo = .ok (n, memo') →
        Noted document.1 graph memo' ∧ Fits document.1 graph id n ∧ id ∈ memo'.map Prod.fst := by
  induction rounds with
  | zero =>
    intro active id memo memo' n _ _ hrun
    cases hrun
  | succ rounds ih =>
    intro active id memo memo' n hid hmemo hrun
    rw [cost_succ] at hrun
    obtain ⟨_, -, hrun⟩ := bind_eq_ok.mp hrun
    cases hlookup : memo.lookup id with
    | some kept =>
      simp only [hlookup] at hrun
      cases hrun
      obtain ⟨before, after, hsplit, -⟩ := List.lookup_eq_some_iff.mp hlookup
      have hmem : (id, n) ∈ memo := by
        rw [hsplit]
        exact List.mem_append_right before List.mem_cons_self
      exact ⟨hmemo, hmemo _ hmem, List.mem_map_of_mem hmem⟩
    | none =>
      have hnode : graph.nodes[id]? = some graph.nodes[id] := List.getElem?_eq_getElem hid
      simp only [hlookup, hnode] at hrun
      obtain ⟨⟨count, middle⟩, hexpand, hrun⟩ := bind_eq_ok.mp hrun
      obtain ⟨_, hlimit, heq⟩ := bind_eq_ok.mp hrun
      cases heq
      rw [requireLimit, refuseIf_eq_ok, not_lt] at hlimit
      have hplaces : ∀ c ∈ everyOf graph.nodes[id] ++ optionsOf graph graph.nodes[id],
          c < graph.nodes.length := by
        intro c hc
        have hq : ∃ q, (places graph)[c]? = some q := by
          rcases List.mem_append.mp hc with hc | hc
          · exact place_of_every h hnode hc
          · exact place_of_option h hnode hc
        obtain ⟨q, hq⟩ := hq
        have hlt := (List.getElem?_eq_some_iff.mp hq).1
        rwa [places, List.length_map] at hlt
      -- What is run for a node below gives its visits.
      have hbelow : ∀ c ∈ everyOf graph.nodes[id] ++ optionsOf graph graph.nodes[id],
          ∀ before nested after, Noted document.1 graph before →
            graph.cost rounds (id :: active) c before = .ok (nested, after) →
              Noted document.1 graph after ∧
                LocationVisits document.1 (placeAt graph c) nested := by
        intro c hc before nested after hbefore hstep
        obtain ⟨hafter, ⟨-, q, hq, hvisits⟩, -⟩ := ih (id :: active) c (hplaces c hc) hbefore hstep
        rw [placeAt_eq hq]
        exact ⟨hafter, hvisits⟩
      have hvalues : ∀ c ∈ everyOf graph.nodes[id] ++ optionsOf graph graph.nodes[id],
          Values (Noted document.1 graph) (graph.cost rounds (id :: active))
            (fun c => cost (placeAt graph c)) c := by
        intro c hc before nested after hbefore hstep
        obtain ⟨hafter, hvisits⟩ := hbelow c hc before nested after hbefore hstep
        exact ⟨hafter, (hcost _ _ hvisits).symm⟩
      obtain ⟨hmiddle, htotal, hran⟩ := expand_values hvalues hmemo hexpand
      have hvisits := visits_of_total cost h hnode fun c hc => by
        obtain ⟨before, ⟨nested, after⟩, hbefore, hstep⟩ := hran c hc
        obtain ⟨-, hvisits⟩ := hbelow c hc before nested after hbefore hstep
        rw [hcost _ _ hvisits]
        exact hvisits
      have hexact : count = total (fun c => cost (placeAt graph c))
          (everyOf graph.nodes[id]) (optionsOf graph graph.nodes[id]) := by omega
      have hfits : Fits document.1 graph id count := by
        refine ⟨hlimit, graph.nodes[id].place, ?_, ?_⟩
        · rw [places, List.getElem?_map, hnode]
          rfl
        · rw [hexact]
          exact hvisits
      refine ⟨fun entry hentry => ?_, hfits, by simp⟩
      rcases List.mem_cons.mp hentry with rfl | hentry
      · exact hfits
      · exact hmiddle entry hentry

/-- The relation is asked about, for each location of the graph, what is a location of it too. -/
theorem closed_places (h : Built setting limits document walk graph) {p q : Place}
    (hp : p ∈ places graph) (hedge : SameInstance document.1 p q) : q ∈ places graph := by
  rw [h.places_eq, h.tracked.walked.places_iff] at hp ⊢
  exact hp.tail hedge.edge

theorem length_le_of_nodup {l : List ℕ} (hnodup : l.Nodup) {n : ℕ} (h : ∀ a ∈ l, a < n) :
    l.length ≤ n := by
  have hsub : l ⊆ List.range n := fun a ha => List.mem_range.mpr (h a ha)
  have hle := (List.subperm_of_subset hnodup hsub).length_le
  rwa [List.length_range] at hle

/-- **The recursion answers** where every location has visits within the limit: it never comes back
to a node that it is at, so it nests no deeper than there are nodes. -/
theorem steps_cost (h : Built setting limits document walk graph)
    (hcost : ∀ p n, LocationVisits document.1 p n → cost p = n)
    (hlimit : ∀ p n, LocationVisits document.1 p n → p ∈ places graph →
      n ≤ graph.limits.maxSameInstanceSchemaVisits) (n : ℕ) :
    ∀ {p : Place} {id : ℕ} {active : List ℕ} {rounds : ℕ}, (places graph)[id]? = some p →
      LocationVisits document.1 p n → active.Nodup →
        (∀ a ∈ active, a < graph.nodes.length ∧
          Relation.TransGen (SameInstance document.1) (placeAt graph a) p) →
        graph.nodes.length < rounds + active.length →
          Steps (Noted document.1 graph) (graph.cost rounds active) id := by
  induction n using Nat.strong_induction_on with
  | h n ih =>
  intro p id active rounds hid hvisits hnodup hactive hrounds memo hmemo
  have hcycle : ¬ Relation.TransGen (SameInstance document.1) p p := not_cycle_of_acc hvisits.acc
  have hnot : id ∉ active := by
    intro hmem
    have hback := (hactive id hmem).2
    rw [placeAt_eq hid] at hback
    exact hcycle hback
  have hlength := length_le_of_nodup hnodup fun a ha => (hactive a ha).1
  obtain ⟨rounds, rfl⟩ : ∃ r, rounds = r + 1 := ⟨rounds - 1, by omega⟩
  have hlt : id < graph.nodes.length := by
    have hlt := (List.getElem?_eq_some_iff.mp hid).1
    rwa [places, List.length_map] at hlt
  have hnode : graph.nodes[id]? = some graph.nodes[id] := List.getElem?_eq_getElem hlt
  have hplace : graph.nodes[id].place = p := by
    rw [places, List.getElem?_map, hnode] at hid
    exact Option.some.inj hid
  rw [cost_succ]
  cases hlookup : memo.lookup id with
  | some kept => exact ⟨_, bind_eq_ok.mpr ⟨(), refuseIf_eq_ok.mpr hnot, rfl⟩⟩
  | none =>
    -- A node that is gone on to has fewer visits.
    have hbelow : ∀ c ∈ everyOf graph.nodes[id] ++ optionsOf graph graph.nodes[id],
        ∃ q m, (places graph)[c]? = some q ∧ SameInstance document.1 p q ∧
          LocationVisits document.1 q m ∧ m < n := by
      intro c hc
      have hedge : ∃ q, (places graph)[c]? = some q ∧ SameInstance document.1 p q := by
        rw [← hplace]
        rcases List.mem_append.mp hc with hc | hc
        · obtain ⟨q, hq⟩ := place_of_every h hnode hc
          exact ⟨q, hq, .inl ((always_iff h hnode).mpr ⟨c, hc, hq⟩)⟩
        · obtain ⟨q, hq⟩ := place_of_option h hnode hc
          exact ⟨q, hq, .inr ((branch_iff h hnode).mpr ⟨c, hc, hq⟩)⟩
      obtain ⟨q, hq, hedge⟩ := hedge
      obtain ⟨m, hm, hless⟩ := hvisits.lt hedge
      exact ⟨q, m, hq, hedge, hm, hless⟩
    have hsteps : ∀ c ∈ everyOf graph.nodes[id] ++ optionsOf graph graph.nodes[id],
        Values (Noted document.1 graph) (graph.cost rounds (id :: active))
          (fun c => cost (placeAt graph c)) c ∧
        Steps (Noted document.1 graph) (graph.cost rounds (id :: active)) c := by
      intro c hc
      obtain ⟨q, m, hq, hedge, hm, hless⟩ := hbelow c hc
      have hclt : c < graph.nodes.length := by
        have hlt := (List.getElem?_eq_some_iff.mp hq).1
        rwa [places, List.length_map] at hlt
      refine ⟨?_, ih m hless hq hm (List.nodup_cons.mpr ⟨hnot, hnodup⟩) ?_ ?_⟩
      · intro before nested after hbefore hstep
        obtain ⟨hafter, ⟨-, q', hq', hvisits'⟩, -⟩ :=
          values_cost h hcost rounds (id :: active) c hclt hbefore hstep
        rw [hq] at hq'
        cases hq'
        refine ⟨hafter, ?_⟩
        show nested = cost (placeAt graph c)
        rw [placeAt_eq hq]
        exact (hcost q nested hvisits').symm
      · intro a ha
        rcases List.mem_cons.mp ha with rfl | ha
        · refine ⟨hlt, ?_⟩
          rw [placeAt_eq hid]
          exact .single hedge
        · exact ⟨(hactive a ha).1, (hactive a ha).2.tail hedge⟩
      · rw [List.length_cons]
        omega
    obtain ⟨⟨count, middle⟩, hexpand⟩ := expand_steps hsteps hmemo
    obtain ⟨-, hcount, -⟩ := expand_values (fun c hc => (hsteps c hc).1) hmemo hexpand
    have htotal := visits_of_total cost h hnode fun c hc => by
      obtain ⟨q, m, hq, -, hm, -⟩ := hbelow c hc
      rw [placeAt_eq hq, hcost q m hm]
      exact hm
    rw [hplace] at htotal
    have hfits := hlimit p _ htotal (List.mem_of_getElem? hid)
    refine ⟨(count, (id, count) :: middle), bind_eq_ok.mpr ⟨(), refuseIf_eq_ok.mpr hnot, ?_⟩⟩
    simp only [hnode]
    refine bind_eq_ok.mpr ⟨_, hexpand, bind_eq_ok.mpr ⟨(), refuseIf_eq_ok.mpr ?_, rfl⟩⟩
    show ¬ graph.limits.maxSameInstanceSchemaVisits < count
    omega

/-- No location comes back to itself. -/
def Acyclic (document : Value) : Prop :=
  ∀ p, Reached document p → ¬ Relation.TransGen (SameInstance document) p p

/-- No location has more visits than the limit. -/
def Bounded (document : Value) (limit : ℕ) : Prop :=
  ∀ p n, Reached document p → LocationVisits document p n → n ≤ limit

/-- Without a cycle the visits of each location are a number. -/
theorem exists_visits_of_acyclic (h : Built setting limits document walk graph)
    (hacyclic : Acyclic document.1) {p : Place} (hp : Reached document.1 p) :
    ∃ n, LocationVisits document.1 p n := by
  have hmem : ∀ p, p ∈ (places graph).toFinset ↔ Reached document.1 p := by
    intro p
    rw [List.mem_toFinset, h.places_eq, h.tracked.walked.places_iff]
  have hclosed : ∀ p ∈ (places graph).toFinset, ∀ q, SameInstance document.1 p q →
      q ∈ (places graph).toFinset := by
    intro p hp q hedge
    rw [List.mem_toFinset] at hp ⊢
    exact closed_places h hp hedge
  have hacc := acc_of_not_cycle hclosed fun p hp => hacyclic p ((hmem p).mp hp)
  exact exists_visits hclosed ((hmem p).mpr hp) (hacc p ((hmem p).mpr hp))

/-- The loop over the nodes: what it keeps, and which nodes it went through. -/
theorem fold_check (h : Built setting limits document walk graph)
    (hcost : ∀ p n, LocationVisits document.1 p n → cost p = n) (ids : List ℕ) :
    ∀ {memo last : List (ℕ × ℕ)}, (∀ id ∈ ids, id < graph.nodes.length) →
      Noted document.1 graph memo → ids.foldlM (fun memo id => do
        let (_, memo) ← graph.cost (graph.nodes.length + 1) [] id memo
        Except.ok memo) memo = .ok last → ∀ id ∈ ids, ∃ n, Fits document.1 graph id n := by
  induction ids with
  | nil =>
    intro memo last _ _ _ id hid
    cases hid
  | cons first ids ih =>
    intro memo last hids hmemo hfold id hid
    rw [List.foldlM_cons] at hfold
    obtain ⟨middle, hfirst, hrest⟩ := bind_eq_ok.mp hfold
    obtain ⟨⟨n, after⟩, hrun, heq⟩ := bind_eq_ok.mp hfirst
    cases heq
    obtain ⟨hmiddle, hfits, -⟩ :=
      values_cost h hcost _ _ first (hids first List.mem_cons_self) hmemo hrun
    rcases List.mem_cons.mp hid with rfl | hid
    · exact ⟨n, hfits⟩
    · exact ih (fun c hc => hids c (List.mem_cons_of_mem _ hc)) hmiddle hrest id hid

theorem fold_check_ok (h : Built setting limits document walk graph)
    (hcost : ∀ p n, LocationVisits document.1 p n → cost p = n) (ids : List ℕ) :
    ∀ {memo : List (ℕ × ℕ)}, (∀ id ∈ ids, id < graph.nodes.length ∧
        Steps (Noted document.1 graph) (graph.cost (graph.nodes.length + 1) []) id) →
      Noted document.1 graph memo → ∃ last, ids.foldlM (fun memo id => do
        let (_, memo) ← graph.cost (graph.nodes.length + 1) [] id memo
        Except.ok memo) memo = .ok last := by
  induction ids with
  | nil =>
    intro memo _ _
    exact ⟨memo, rfl⟩
  | cons first ids ih =>
    intro memo hids hmemo
    obtain ⟨hlt, hsteps⟩ := hids first List.mem_cons_self
    obtain ⟨⟨n, after⟩, hrun⟩ := hsteps memo hmemo
    obtain ⟨hafter, -, -⟩ := values_cost h hcost _ _ first hlt hmemo hrun
    obtain ⟨last, hrest⟩ := ih (fun c hc => hids c (List.mem_cons_of_mem _ hc)) hafter
    refine ⟨last, ?_⟩
    rw [List.foldlM_cons]
    exact bind_eq_ok.mpr ⟨after, bind_eq_ok.mpr ⟨_, hrun, rfl⟩, hrest⟩

/-- The check accepts what has visits within the limit everywhere. -/
theorem check_iff_fits (h : Built setting limits document walk graph) :
    graph.checkSameInstanceExpansion = .ok () ↔ ∀ p, Reached document.1 p →
      ∃ n, LocationVisits document.1 p n ∧ n ≤ graph.limits.maxSameInstanceSchemaVisits := by
  obtain ⟨cost, hcost⟩ := exists_cost (Always document.1) (Branch document.1)
  have hreached : ∀ p, p ∈ places graph ↔ Reached document.1 p := by
    intro p
    rw [h.places_eq, h.tracked.walked.places_iff]
  have hempty : Noted document.1 graph [] := by
    intro entry hentry
    cases hentry
  constructor
  · intro hcheck p hp
    obtain ⟨last, hfold, -⟩ := bind_eq_ok.mp hcheck
    obtain ⟨id, hid⟩ := List.getElem?_of_mem ((hreached p).mpr hp)
    have hlt := (List.getElem?_eq_some_iff.mp hid).1
    rw [places, List.length_map] at hlt
    obtain ⟨n, hlimit, q, hq, hvisits⟩ := fold_check h hcost (List.range graph.nodes.length)
      (fun c hc => List.mem_range.mp hc) hempty hfold id (List.mem_range.mpr hlt)
    rw [hid] at hq
    cases hq
    exact ⟨n, hvisits, hlimit⟩
  · intro hfits
    have hlimit : ∀ p n, LocationVisits document.1 p n → p ∈ places graph →
        n ≤ graph.limits.maxSameInstanceSchemaVisits := by
      intro p n hvisits hp
      obtain ⟨m, hm, hle⟩ := hfits p ((hreached p).mp hp)
      rw [hvisits.unique hm]
      exact hle
    have hsteps : ∀ id ∈ List.range graph.nodes.length, id < graph.nodes.length ∧
        Steps (Noted document.1 graph) (graph.cost (graph.nodes.length + 1) []) id := by
      intro id hid
      have hlt := List.mem_range.mp hid
      have hplaced : (places graph)[id]? = some (graph.nodes[id].place) := by
        rw [places, List.getElem?_map, List.getElem?_eq_getElem hlt]
        rfl
      obtain ⟨n, hvisits, -⟩ := hfits _ ((hreached _).mp (List.mem_of_getElem? hplaced))
      exact ⟨hlt, steps_cost h hcost hlimit n hplaced hvisits List.nodup_nil
        (fun a ha => absurd ha List.not_mem_nil) (by simp)⟩
    obtain ⟨last, hfold⟩ := fold_check_ok h hcost _ hsteps hempty
    exact bind_eq_ok.mpr ⟨last, hfold, rfl⟩

/-- **The check accepts** when and only when no location comes back to itself and none has more
visits than the limit. -/
theorem check_iff (h : Built setting limits document walk graph) :
    graph.checkSameInstanceExpansion = .ok () ↔
      Acyclic document.1 ∧ Bounded document.1 limits.maxSameInstanceSchemaVisits := by
  have hlimits : graph.limits = limits := by
    rw [← h.limits_eq, h.marked]
    rfl
  rw [check_iff_fits h, hlimits]
  constructor
  · intro hfits
    refine ⟨fun p hp => ?_, fun p n hp hn => ?_⟩
    · obtain ⟨n, hn, -⟩ := hfits p hp
      exact not_cycle_of_acc hn.acc
    · obtain ⟨m, hm, hle⟩ := hfits p hp
      rw [hn.unique hm]
      exact hle
  · rintro ⟨hacyclic, hbounded⟩ p hp
    obtain ⟨n, hn⟩ := exists_visits_of_acyclic h hacyclic hp
    exact ⟨n, hn, hbounded p n hp hn⟩

end Check

/-! ### Evaluation -/

/-- The schemas below an object, by their paths, that the evaluation of the object may ask about what
it is asked about itself or about what is in it, whatever patterns match and schemas answer. -/
inductive Asks (members : Members) : Place → Value → Value → Prop
  | listed {keyword : String} {schemas : List Value} {i : ℕ} {inst : Value}
      (hkeyword : keyword ∈ SchemaGraph.lists) (h : members.lookup keyword = some (.arr schemas))
      (hi : i < schemas.length) : Asks members [.key keyword, .index i] inst inst
  | not {schema inst : Value} (h : members.lookup "not" = some schema) :
      Asks members [.key "not"] inst inst
  | dependency {trigger : String} {schema : Value} {dependencies object : Members}
      (h : members.lookup "dependencies" = some (.obj dependencies))
      (hmem : (trigger, schema) ∈ dependencies) (hschema : isSchemaValue schema = true)
      (hpresent : (object.lookup trigger).isSome = true) :
      Asks members [.key "dependencies", .key trigger] (.obj object) (.obj object)
  | condition {schema inst : Value} (h : members.lookup "if" = some schema) :
      Asks members [.key "if"] inst inst
  | branch {keyword : String} {condition schema inst : Value}
      (hcondition : members.lookup "if" = some condition) (hkeyword : keyword ∈ ["then", "else"])
      (h : members.lookup keyword = some schema) : Asks members [.key keyword] inst inst
  | items {schema item : Value} {items : List Value} {i : ℕ}
      (h : members.lookup "items" = some schema) (hschema : isSchemaValue schema = true)
      (hitem : items[i]? = some item) : Asks members [.key "items"] (.arr items) item
  | tuple {schemas items : List Value} {item : Value} {i : ℕ}
      (h : members.lookup "items" = some (.arr schemas)) (hi : i < schemas.length)
      (hitem : items[i]? = some item) : Asks members [.key "items", .index i] (.arr items) item
  | additionalItems {schemas items : List Value} {schema item : Value} {i : ℕ}
      (htuple : members.lookup "items" = some (.arr schemas)) (hi : schemas.length ≤ i)
      (h : members.lookup "additionalItems" = some schema) (hitem : items[i]? = some item) :
      Asks members [.key "additionalItems"] (.arr items) item
  | contains {schema item : Value} {items : List Value} {i : ℕ}
      (h : members.lookup "contains" = some schema) (hitem : items[i]? = some item) :
      Asks members [.key "contains"] (.arr items) item
  | property {name : String} {schemas object : Members} {value : Value}
      (h : members.lookup "properties" = some (.obj schemas)) (hname : name ∈ schemas.map Prod.fst)
      (hvalue : (name, value) ∈ object) :
      Asks members [.key "properties", .key name] (.obj object) value
  | patternProperty {pattern name : String} {schemas object : Members} {value : Value}
      (h : members.lookup "patternProperties" = some (.obj schemas))
      (hpattern : pattern ∈ schemas.map Prod.fst) (hvalue : (name, value) ∈ object) :
      Asks members [.key "patternProperties", .key pattern] (.obj object) value
  | additionalProperty {name : String} {schema value : Value} {object : Members}
      (h : members.lookup "additionalProperties" = some schema) (hvalue : (name, value) ∈ object) :
      Asks members [.key "additionalProperties"] (.obj object) value
  | propertyNames {name : String} {schema value : Value} {object : Members}
      (h : members.lookup "propertyNames" = some schema) (hvalue : (name, value) ∈ object) :
      Asks members [.key "propertyNames"] (.obj object) (.str name)

/-- The calls that `validateRecursive` makes of itself, for a location of the document and an
instance: at a `$ref` its target alone, else what the keywords ask. -/
inductive Calls (document : Value) : Place × Value → Place × Value → Prop
  | reference {p q : Place} {inst : Value} (h : RefEdge document p q) :
      Calls document (p, inst) (q, inst)
  | keyword {p path : Place} {members : Members} {inst next : Value}
      (hget : get document p = some (.obj members)) (hlookup : members.lookup "$ref" = none)
      (h : Asks members path inst next) :
      Calls document (p, inst) (p ++ path, next)

section Evaluation

variable {document : Value} {members : Members} {path p q : Place} {v w : Value}

theorem nodes_item_lt {items : List Value} {item : Value} (h : item ∈ items) :
    nodes item < nodes (.arr items) := by
  have hle : nodes item ≤ nodesOfItems items := by
    induction items with
    | nil => cases h
    | cons first items ih =>
      rw [nodesOfItems]
      rcases List.mem_cons.mp h with rfl | h
      · omega
      · have hrest := ih h
        omega
  rw [nodes]
  omega

theorem nodes_member_lt {object : Members} {name : String} {value : Value}
    (h : (name, value) ∈ object) : nodes value < nodes (.obj object) := by
  have hle : nodes value ≤ nodesOfMembers object := by
    induction object with
    | nil => cases h
    | cons first object ih =>
      obtain ⟨key, other⟩ := first
      rw [nodesOfMembers]
      rcases List.mem_cons.mp h with heq | h
      · cases heq
        omega
      · have hrest := ih h
        omega
  rw [nodes]
  omega

/-- A schema that is asked is a grammar child; it is asked about the instance itself only where the
same-instance relation says so, else about less. -/
theorem Asks.smaller (hget : get document p = some (.obj members))
    (hlookup : members.lookup "$ref" = none) (h : Asks members path v w) :
    GrammarChild members path ∧
      (nodes w < nodes v ∨ (w = v ∧ SameInstance document p (p ++ path))) := by
  have halways : GrammarChild members path → Applicator path → SameInstance document p (p ++ path) :=
    fun hchild happ => .inl (.inr ⟨members, path, hget, hlookup, hchild, happ, rfl⟩)
  have hsingles : ∀ k ∈ ["not", "if", "then", "else", "additionalItems", "contains",
      "additionalProperties", "propertyNames"], k ∈ SchemaGraph.singles := by decide
  have hmaps : ∀ k ∈ ["properties", "patternProperties"], k ∈ SchemaGraph.maps := by decide
  cases h with
  | listed hkeyword h hi =>
    have hchild : GrammarChild members _ := .listed hkeyword h hi
    exact ⟨hchild, .inr ⟨rfl, halways hchild hkeyword⟩⟩
  | not h =>
    have hchild : GrammarChild members _ := .single (hsingles "not" (by simp)) h
    exact ⟨hchild, .inr ⟨rfl, halways hchild (by simp [Applicator])⟩⟩
  | dependency h hmem hschema hpresent =>
    have hchild : GrammarChild members _ := .dependency h hmem hschema
    exact ⟨hchild, .inr ⟨rfl, halways hchild rfl⟩⟩
  | condition h =>
    have hchild : GrammarChild members _ := .single (hsingles "if" (by simp)) h
    exact ⟨hchild, .inr ⟨rfl, halways hchild (by simp [Applicator])⟩⟩
  | @branch keyword _ _ _ hcondition hkeyword h =>
    have hmem : keyword ∈ SchemaGraph.singles := by
      rcases List.mem_pair.mp hkeyword with rfl | rfl
      · exact hsingles "then" (by simp)
      · exact hsingles "else" (by simp)
    refine ⟨.single hmem h, .inr ⟨rfl, .inr ⟨members, keyword, _, hget, hlookup, ?_, hkeyword, h,
      rfl⟩⟩⟩
    rw [hcondition]
    rfl
  | items h hschema hitem =>
    exact ⟨.items h hschema, .inl (nodes_item_lt (List.mem_of_getElem? hitem))⟩
  | tuple h hi hitem => exact ⟨.tuple h hi, .inl (nodes_item_lt (List.mem_of_getElem? hitem))⟩
  | additionalItems _ _ h hitem =>
    exact ⟨.single (hsingles "additionalItems" (by simp)) h,
      .inl (nodes_item_lt (List.mem_of_getElem? hitem))⟩
  | contains h hitem =>
    exact ⟨.single (hsingles "contains" (by simp)) h,
      .inl (nodes_item_lt (List.mem_of_getElem? hitem))⟩
  | property h hname hvalue =>
    exact ⟨.named (hmaps "properties" (by simp)) h hname, .inl (nodes_member_lt hvalue)⟩
  | patternProperty h hpattern hvalue =>
    exact ⟨.named (hmaps "patternProperties" (by simp)) h hpattern, .inl (nodes_member_lt hvalue)⟩
  | additionalProperty h hvalue =>
    exact ⟨.single (hsingles "additionalProperties" (by simp)) h, .inl (nodes_member_lt hvalue)⟩
  | @propertyNames name _ value object h hvalue =>
    refine ⟨.single (hsingles "propertyNames" (by simp)) h, .inl ?_⟩
    have hless := nodes_member_lt hvalue
    have hpositive : 0 < nodes value := by
      cases value <;> simp [nodes]
    have hname : nodes (.str name : Value) = 1 := rfl
    omega

/-- A call goes to a location of the graph, with less of the instance, or along the same-instance
relation with all of it. -/
theorem Calls.smaller (h : Calls document (p, v) (q, w)) (hp : Reached document p) :
    Reached document q ∧ (nodes w < nodes v ∨ (w = v ∧ SameInstance document p q)) := by
  cases h with
  | reference href => exact ⟨hp.tail (.inr href), .inr ⟨rfl, .inl (.inl href)⟩⟩
  | keyword hget hlookup h =>
    obtain ⟨hchild, hless⟩ := h.smaller hget hlookup
    exact ⟨hp.tail (.inl ⟨_, _, hget, hchild, rfl⟩), hless⟩

end Evaluation

section Whole

variable {setting : Setting} {limits : CompileLimits} {document : Document} {graph : SchemaGraph}

/-- **The expansion check.** Of a document that is prepared so far it accepts exactly those whose
same-instance relation has no cycle, and whose locations have no more visits than the limit; each
location has its visits then. With each call that the evaluation of what it accepts makes, the size
of the instance and the visits go down in their lexicographic order, so it ends on every instance. -/
theorem checkSameInstanceExpansion_iff (h : built setting limits document.1 = .ok graph) :
    (graph.checkSameInstanceExpansion = .ok () ↔
      Acyclic document.1 ∧ Bounded document.1 limits.maxSameInstanceSchemaVisits) ∧
    (Acyclic document.1 → ∀ p, Reached document.1 p → ∃ n, LocationVisits document.1 p n) ∧
    (graph.checkSameInstanceExpansion = .ok () → ∀ p inst, Reached document.1 p →
      Acc (fun next call => Calls document.1 call next) (p, inst)) ∧
    (∀ p q v w n m, Reached document.1 p → Calls document.1 (p, v) (q, w) →
      LocationVisits document.1 p n → LocationVisits document.1 q m →
        Prod.Lex (· < ·) (· < ·) (nodes w, m) (nodes v, n)) := by
  obtain ⟨walk, hbuilt⟩ := built_ok h
  refine ⟨check_iff hbuilt, fun hacyclic p hp => exists_visits_of_acyclic hbuilt hacyclic hp, ?_, ?_⟩
  · intro hcheck p inst hp
    have hfits := (check_iff_fits hbuilt).mp hcheck
    have hacc : ∀ a, Reached document.1 a → Acc (fun b a => SameInstance document.1 a b) a := by
      intro a ha
      obtain ⟨n, hn, -⟩ := hfits a ha
      exact hn.acc
    exact acc_calls nodes hacc (fun x y hx hcall => hcall.smaller hx) p inst hp
  · intro p q v w n m hp hcall hn hm
    obtain ⟨-, hless | ⟨rfl, hedge⟩⟩ := hcall.smaller hp
    · exact .left _ _ hless
    · obtain ⟨m', hm', hless⟩ := hn.lt hedge
      rw [hm'.unique hm] at hless
      exact .right _ hless

/-- A document whose `allOf` asks it about itself again. -/
def circular : Document := ⟨.obj [("allOf", .arr [.obj [("$ref", .str "#")]])], by decide +kernel⟩

/-- `checkSameInstanceExpansion_iff` at two documents. The first has a list, a condition with a
branch and references, and contains itself in a property: it is accepted, its evaluation ends on
every instance, and a call to a schema of its list has fewer visits. The second asks itself about
the same instance: it is refused, so it has a cycle or too many visits. -/
theorem checkSameInstanceExpansion_branching :
    (∃ graph, built lenient defaultCompileLimits branching.1 = .ok graph ∧
      graph.checkSameInstanceExpansion = .ok () ∧ Acyclic branching.1 ∧
      Bounded branching.1 defaultCompileLimits.maxSameInstanceSchemaVisits ∧
      (∀ inst, Acc (fun next call => Calls branching.1 call next) ([], inst)) ∧
      ∃ n m, LocationVisits branching.1 [] n ∧
        LocationVisits branching.1 [.key "allOf", .index 0] m ∧ m < n) ∧
    (∃ graph, built lenient defaultCompileLimits circular.1 = .ok graph ∧
      graph.checkSameInstanceExpansion ≠ .ok () ∧ ¬ (Acyclic circular.1 ∧
        Bounded circular.1 defaultCompileLimits.maxSameInstanceSchemaVisits)) := by
  constructor
  · have haccepted : ((built lenient defaultCompileLimits branching.1).bind
        SchemaGraph.checkSameInstanceExpansion).isOk = true := by
      decide +kernel
    cases hbuild : built lenient defaultCompileLimits branching.1 with
    | error err =>
      rw [hbuild] at haccepted
      cases haccepted
    | ok graph =>
      rw [hbuild] at haccepted
      have hcheck : graph.checkSameInstanceExpansion = .ok () := by
        cases hcheck : graph.checkSameInstanceExpansion with
        | ok => rfl
        | error err =>
          have herror : (graph.checkSameInstanceExpansion).isOk = true := haccepted
          rw [hcheck] at herror
          cases herror
      obtain ⟨hiff, hvisits, hends, hsmaller⟩ := checkSameInstanceExpansion_iff hbuild
      obtain ⟨hacyclic, hbounded⟩ := hiff.mp hcheck
      have hroot : Reached branching.1 [] := .refl
      have hlists : "allOf" ∈ SchemaGraph.lists := by decide
      have hchild : GrammarEdge branching.1 [] [.key "allOf", .index 0] :=
        ⟨_, _, rfl, .listed hlists rfl (by decide), rfl⟩
      obtain ⟨n, hn⟩ := hvisits hacyclic [] hroot
      obtain ⟨m, hm⟩ := hvisits hacyclic _ (hroot.tail (.inl hchild))
      have hcall : Calls branching.1 ([], .null) ([] ++ [.key "allOf", .index 0], .null) :=
        .keyword rfl rfl (.listed hlists rfl (by decide))
      refine ⟨graph, rfl, hcheck, hacyclic, hbounded, fun inst => hends hcheck [] inst hroot,
        n, m, hn, hm, ?_⟩
      rcases Prod.lex_def.mp (hsmaller _ _ _ _ n m hroot hcall hn hm) with hless | ⟨-, hless⟩
      · exact absurd hless (Nat.lt_irrefl _)
      · exact hless
  · have hrefused : (built lenient defaultCompileLimits circular.1).toOption.map
        (fun graph => graph.checkSameInstanceExpansion.isOk) = some false := by
      decide +kernel
    cases hbuild : built lenient defaultCompileLimits circular.1 with
    | error err =>
      rw [hbuild] at hrefused
      cases hrefused
    | ok graph =>
      rw [hbuild] at hrefused
      have hcheck : graph.checkSameInstanceExpansion ≠ .ok () := by
        intro hcheck
        have herror : graph.checkSameInstanceExpansion.isOk = false := Option.some.inj hrefused
        rw [hcheck] at herror
        cases herror
      have hiff := (checkSameInstanceExpansion_iff hbuild).1
      exact ⟨graph, rfl, hcheck, fun hboth => hcheck (hiff.mpr hboth)⟩

end Whole

end Modary.Schema.Expansion
