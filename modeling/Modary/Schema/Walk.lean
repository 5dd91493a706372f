import Mathlib.Logic.Relation
import Modary.Schema.Graph

/-! # The walk over a schema document

Which locations become nodes, said of the document alone: what the grammar makes a schema, and what
a reference leads to from there. The walk makes nodes of exactly these, and rewrites their
`$schema`. -/

namespace Modary.Schema.Walk

open Modary.Lib.GoText Modary.Lib.JsonValue Modary.Lib.JsonPlace Modary.Lib.JsonPointer
open Modary.Schema.Profile Modary.Schema.Graph

/-! ### Locations -/

/-- A value below an object that the grammar of Draft 7 makes a schema. -/
inductive GrammarChild (members : Members) : Place → Prop
  | single {keyword : String} {value : Value} (hkeyword : keyword ∈ SchemaGraph.singles)
      (h : members.lookup keyword = some value) : GrammarChild members [.key keyword]
  | listed {keyword : String} {items : List Value} {i : ℕ} (hkeyword : keyword ∈ SchemaGraph.lists)
      (h : members.lookup keyword = some (.arr items)) (hi : i < items.length) :
      GrammarChild members [.key keyword, .index i]
  | tuple {items : List Value} {i : ℕ} (h : members.lookup "items" = some (.arr items))
      (hi : i < items.length) : GrammarChild members [.key "items", .index i]
  | items {value : Value} (h : members.lookup "items" = some value)
      (hvalue : isSchemaValue value = true) : GrammarChild members [.key "items"]
  | named {keyword name : String} {children : Members} (hkeyword : keyword ∈ SchemaGraph.maps)
      (h : members.lookup keyword = some (.obj children)) (hname : name ∈ children.map Prod.fst) :
      GrammarChild members [.key keyword, .key name]
  | dependency {name : String} {value : Value} {children : Members}
      (h : members.lookup "dependencies" = some (.obj children)) (hmem : (name, value) ∈ children)
      (hvalue : isSchemaValue value = true) : GrammarChild members [.key "dependencies", .key name]

variable {document : Value}

/-- From a location to one that its grammar makes a schema. -/
def GrammarEdge (document : Value) (p q : Place) : Prop :=
  ∃ members path, get document p = some (.obj members) ∧ GrammarChild members path ∧ q = p ++ path

/-- From a location to the target of its `$ref`. -/
def RefEdge (document : Value) (p q : Place) : Prop :=
  ∃ members reference value tokens, get document p = some (.obj members) ∧
    members.lookup "$ref" = some (.str reference) ∧
    SchemaGraph.resolveLocalReference document reference = .ok (value, q, tokens)

def Edge (document : Value) (p q : Place) : Prop := GrammarEdge document p q ∨ RefEdge document p q

/-- A structural schema position. -/
def Structural (document : Value) : Place → Prop := Relation.ReflTransGen (GrammarEdge document) []

/-- A location that preparation makes a node. -/
def Reached (document : Value) : Place → Prop := Relation.ReflTransGen (Edge document) []

theorem Structural.reached {p : Place} (h : Structural document p) : Reached document p := by
  have hle : GrammarEdge document ≤ Edge document := fun _ _ hedge => Or.inl hedge
  exact Relation.ReflTransGen.mono hle _ _ h

/-! ### Documents with other texts -/

section Rewritten

variable {texts : Place → Option String} {members : Members} {keyword : String}

theorem isSchemaValue_rewrite (value : Value) :
    isSchemaValue (rewrite texts value) = isSchemaValue value := by
  cases value <;> rfl

theorem lookup_rewritten {value : Value}
    (h : (rewriteMembers texts members).lookup keyword = some value) :
    ∃ old, members.lookup keyword = some old ∧ rewrite (below texts (.key keyword)) old = value := by
  rw [rewriteMembers_lookup] at h
  exact Option.map_eq_some_iff.mp h

theorem lookup_rewritten_arr {items : List Value}
    (h : (rewriteMembers texts members).lookup keyword = some (.arr items)) :
    ∃ old, members.lookup keyword = some (.arr old) ∧
      items = rewriteItems (below texts (.key keyword)) 0 old := by
  obtain ⟨old, hold, hvalue⟩ := lookup_rewritten h
  cases old with
  | arr old =>
    rw [rewrite] at hvalue
    exact ⟨old, hold, (Json.arr.inj hvalue).symm⟩
  | _ => cases hvalue

theorem lookup_rewritten_obj {children : Members}
    (h : (rewriteMembers texts members).lookup keyword = some (.obj children)) :
    ∃ old, members.lookup keyword = some (.obj old) ∧
      children = rewriteMembers (below texts (.key keyword)) old := by
  obtain ⟨old, hold, hvalue⟩ := lookup_rewritten h
  cases old with
  | obj old =>
    rw [rewrite] at hvalue
    exact ⟨old, hold, (Json.obj.inj hvalue).symm⟩
  | _ => cases hvalue

theorem lookup_rewrite_some (texts : Place → Option String) {value : Value}
    (h : members.lookup keyword = some value) :
    (rewriteMembers texts members).lookup keyword =
      some (rewrite (below texts (.key keyword)) value) := by
  rw [rewriteMembers_lookup, h, Option.map_some]

theorem mem_rewriteMembers {name : String} {value : Value} :
    (name, value) ∈ rewriteMembers texts members ↔
      ∃ old, (name, old) ∈ members ∧ rewrite (below texts (.key name)) old = value := by
  rw [rewriteMembers_eq_map, List.mem_map]
  constructor
  · rintro ⟨⟨other, old⟩, hmem, heq⟩
    cases heq
    exact ⟨old, hmem, rfl⟩
  · rintro ⟨old, hmem, rfl⟩
    exact ⟨(name, old), hmem, rfl⟩

/-- The grammar looks at no text. -/
theorem grammarChild_rewrite {path : Place} :
    GrammarChild (rewriteMembers texts members) path ↔ GrammarChild members path := by
  constructor
  · intro h
    cases h with
    | single hkeyword h =>
      obtain ⟨old, hold, -⟩ := lookup_rewritten h
      exact .single hkeyword hold
    | listed hkeyword h hi =>
      obtain ⟨old, hold, rfl⟩ := lookup_rewritten_arr h
      rw [length_rewriteItems] at hi
      exact .listed hkeyword hold hi
    | tuple h hi =>
      obtain ⟨old, hold, rfl⟩ := lookup_rewritten_arr h
      rw [length_rewriteItems] at hi
      exact .tuple hold hi
    | items h hvalue =>
      obtain ⟨old, hold, rfl⟩ := lookup_rewritten h
      rw [isSchemaValue_rewrite] at hvalue
      exact .items hold hvalue
    | named hkeyword h hname =>
      obtain ⟨old, hold, rfl⟩ := lookup_rewritten_obj h
      rw [rewriteMembers_names] at hname
      exact .named hkeyword hold hname
    | dependency h hmem hvalue =>
      obtain ⟨old, hold, rfl⟩ := lookup_rewritten_obj h
      obtain ⟨value, hold', rfl⟩ := mem_rewriteMembers.mp hmem
      rw [isSchemaValue_rewrite] at hvalue
      exact .dependency hold hold' hvalue
  · intro h
    cases h with
    | single hkeyword h => exact .single hkeyword (lookup_rewrite_some texts h)
    | listed hkeyword h hi =>
      have hlookup := lookup_rewrite_some texts h
      rw [rewrite] at hlookup
      exact .listed hkeyword hlookup (by rwa [length_rewriteItems])
    | tuple h hi =>
      have hlookup := lookup_rewrite_some texts h
      rw [rewrite] at hlookup
      exact .tuple hlookup (by rwa [length_rewriteItems])
    | items h hvalue =>
      exact .items (lookup_rewrite_some texts h) (by rwa [isSchemaValue_rewrite])
    | named hkeyword h hname =>
      have hlookup := lookup_rewrite_some texts h
      rw [rewrite] at hlookup
      exact .named hkeyword hlookup (by rwa [rewriteMembers_names])
    | dependency h hmem hvalue =>
      have hlookup := lookup_rewrite_some texts h
      rw [rewrite] at hlookup
      exact .dependency hlookup (mem_rewriteMembers.mpr ⟨_, hmem, rfl⟩)
        (by rwa [isSchemaValue_rewrite])

end Rewritten

/-! ### Nodes that are added -/

/-- The places of the nodes. -/
def places (graph : SchemaGraph) : List Place := graph.nodes.map SchemaNode.place

/-- The tokens of each node lead to its place, and its pointer is theirs. -/
structure Located (document : Value) (graph : SchemaGraph) : Prop where
  pointer : ∀ node ∈ graph.nodes, node.pointer = pointerKey node.tokens
  leads : ∀ node ∈ graph.nodes, resolveTokens document node.tokens = .ok node.place
  bounded : graph.nodes.length ≤ graph.limits.maxSchemaNodes

/-- A graph with more nodes: those at some places, which are nodes now. -/
structure Grows (graph next : SchemaGraph) (new : Place → Prop) : Prop where
  root : next.root = graph.root
  limits : next.limits = graph.limits
  more : ∃ added, places next = places graph ++ added ∧ ∀ p ∈ added, new p
  covers : ∀ p, new p → p ∈ places next

/-- What a step that adds nodes does to a located graph. -/
def Adds (document : Value) (new : Place → Prop) (graph next : SchemaGraph) : Prop :=
  Located document graph → Located document next ∧ Grows graph next new

section Adds

variable {graph next last : SchemaGraph} {new newer : Place → Prop}

theorem Grows.subset (h : Grows graph next new) {p : Place} (hp : p ∈ places graph) :
    p ∈ places next := by
  obtain ⟨added, hplaces, -⟩ := h.more
  rw [hplaces]
  exact List.mem_append_left _ hp

theorem Adds.none : Adds document (fun _ => False) graph graph := by
  intro hlocated
  refine ⟨hlocated, rfl, rfl, ⟨[], by simp, by simp⟩, fun p hp => hp.elim⟩

theorem Adds.trans (h : Adds document new graph next) (h' : Adds document newer next last) :
    Adds document (fun p => new p ∨ newer p) graph last := by
  intro hlocated
  obtain ⟨hnext, hgrows⟩ := h hlocated
  obtain ⟨hlast, hgrows'⟩ := h' hnext
  refine ⟨hlast, hgrows'.root.trans hgrows.root, hgrows'.limits.trans hgrows.limits, ?_, ?_⟩
  · obtain ⟨added, hadded, hnew⟩ := hgrows.more
    obtain ⟨added', hadded', hnew'⟩ := hgrows'.more
    refine ⟨added ++ added', ?_, ?_⟩
    · rw [hadded', hadded, List.append_assoc]
    · intro p hp
      rcases List.mem_append.mp hp with hp | hp
      · exact .inl (hnew p hp)
      · exact .inr (hnew' p hp)
  · rintro p (hp | hp)
    · exact hgrows'.subset (hgrows.covers p hp)
    · exact hgrows'.covers p hp

theorem Adds.congr (h : Adds document new graph next) (hiff : ∀ p, new p ↔ newer p) :
    Adds document newer graph next := by
  have heq : new = newer := funext fun p => propext (hiff p)
  exact heq ▸ h

/-- One step after the other, for a list of them. -/
theorem adds_foldlM {α : Type} (document : Value) (each : α → Place → Prop)
    {f : SchemaGraph → α → Except Refusal SchemaGraph} {l : List α}
    (hstep : ∀ a ∈ l, ∀ graph next, f graph a = .ok next → Adds document (each a) graph next)
    {graph next : SchemaGraph} (h : l.foldlM f graph = .ok next) :
    Adds document (fun p => ∃ a ∈ l, each a p) graph next := by
  induction l generalizing graph with
  | nil =>
    cases h
    exact Adds.none.congr fun p => by simp
  | cons a l ih =>
    rw [List.foldlM_cons] at h
    obtain ⟨middle, hfirst, hrest⟩ := bind_eq_ok.mp h
    have hfirst := hstep a List.mem_cons_self graph middle hfirst
    have hrest := ih (fun b hb => hstep b (List.mem_cons_of_mem _ hb)) hrest
    exact (hfirst.trans hrest).congr fun p => by simp

/-- What a change of one element keeps of each is kept of the list. -/
theorem map_modify {α β : Type} {f : α → α} {g : α → β} (hfg : ∀ a, g (f a) = g a) (l : List α)
    (i : ℕ) : (l.modify i f).map g = l.map g := by
  refine List.ext_getElem? fun j => ?_
  rw [List.getElem?_map, List.getElem?_map, List.getElem?_modify]
  cases l[j]? with
  | none => rfl
  | some a => by_cases hij : i = j <;> simp [hij, hfg]

/-- What is neither a node nor the document may change. -/
theorem Adds.beside {other : SchemaGraph} (h : Adds document new graph next)
    (hnodes : other.nodes = next.nodes) (hroot : other.root = next.root)
    (hlimits : other.limits = next.limits) : Adds document new graph other := by
  intro hlocated
  obtain ⟨hnext, hgrows⟩ := h hlocated
  have hplaces : places other = places next := by rw [places, hnodes, ← places]
  refine ⟨⟨?_, ?_, ?_⟩, hroot.trans hgrows.root, hlimits.trans hgrows.limits, ?_, ?_⟩
  · rw [hnodes]
    exact hnext.pointer
  · rw [hnodes]
    exact hnext.leads
  · rw [hnodes, hlimits]
    exact hnext.bounded
  · rw [hplaces]
    exact hgrows.more
  · rw [hplaces]
    exact hgrows.covers

/-- A change of edges. -/
theorem Adds.edit (h : Adds document new graph next) (id : ℕ) (f : SchemaNode → SchemaNode)
    (hf : ∀ node, (f node).place = node.place ∧ (f node).tokens = node.tokens ∧
      (f node).pointer = node.pointer) : Adds document new graph (next.edit id f) := by
  intro hlocated
  obtain ⟨hnext, hgrows⟩ := h hlocated
  have hplaces : places (next.edit id f) = places next := map_modify (fun node => (hf node).1) _ _
  have hnodes : ∀ node ∈ (next.edit id f).nodes, ∃ old ∈ next.nodes, old.place = node.place ∧
      old.tokens = node.tokens ∧ old.pointer = node.pointer := by
    intro node hnode
    let core := fun node : SchemaNode => (node.place, node.tokens, node.pointer)
    have hcore : (next.edit id f).nodes.map core = next.nodes.map core :=
      map_modify (fun node => by simp [core, hf node]) _ _
    have hmem : core node ∈ next.nodes.map core := hcore ▸ List.mem_map_of_mem hnode
    obtain ⟨old, hold, heq⟩ := List.mem_map.mp hmem
    simp only [core, Prod.mk.injEq] at heq
    exact ⟨old, hold, heq⟩
  have hlength : (next.edit id f).nodes.length = next.nodes.length := List.length_modify _ _ _
  refine ⟨⟨?_, ?_, ?_⟩, hgrows.root, hgrows.limits, ?_, ?_⟩
  · intro node hnode
    obtain ⟨old, hold, -, htokens, hpointer⟩ := hnodes node hnode
    rw [← htokens, ← hpointer, hnext.pointer old hold]
  · intro node hnode
    obtain ⟨old, hold, hplace, htokens, -⟩ := hnodes node hnode
    rw [← htokens, ← hplace, hnext.leads old hold]
  · rw [hlength]
    exact hnext.bounded
  · rw [hplaces]
    exact hgrows.more
  · rw [hplaces]
    exact hgrows.covers

/-- A node is added, or there is one already. -/
theorem adds_addNode {value : Value} {place : Place} {tokens : List Bytes} {depth id : ℕ}
    (hleads : resolveTokens document tokens = .ok place)
    (h : graph.addNode value place tokens depth = .ok (id, next)) :
    Adds document (fun p => p = place) graph next := by
  intro hlocated
  obtain ⟨_, hvalue, h⟩ := bind_eq_ok.mp h
  obtain ⟨_, hdepth, h⟩ := bind_eq_ok.mp h
  cases hfind : graph.byPointer (pointerKey tokens) with
  | some existing =>
    simp only [hfind] at h
    cases h
    -- The node with this pointer has these tokens, so it is where they lead.
    obtain ⟨hlt, hpointer, -⟩ := List.findIdx?_eq_some_iff_getElem.mp hfind
    have hmem : graph.nodes[id] ∈ graph.nodes := List.getElem_mem hlt
    have hkey := of_decide_eq_true hpointer
    rw [hlocated.pointer _ hmem] at hkey
    have hplace := hlocated.leads _ hmem
    rw [pointerKey_inj hkey, hleads] at hplace
    have hin : place ∈ places graph := by
      rw [Except.ok.inj hplace]
      exact List.mem_map_of_mem hmem
    refine ⟨hlocated, rfl, rfl, ⟨[], by simp, by simp⟩, ?_⟩
    rintro p rfl
    exact hin
  | none =>
    simp only [hfind] at h
    obtain ⟨_, hroom, h⟩ := bind_eq_ok.mp h
    rw [refuseIf_eq_ok] at hroom
    cases h
    refine ⟨⟨?_, ?_, ?_⟩, rfl, rfl, ⟨[place], by simp [places], by simp⟩, ?_⟩
    · intro node hnode
      rcases List.mem_append.mp hnode with hnode | hnode
      · exact hlocated.pointer node hnode
      · rw [List.mem_singleton] at hnode
        rw [hnode]
    · intro node hnode
      rcases List.mem_append.mp hnode with hnode | hnode
      · exact hlocated.leads node hnode
      · rw [List.mem_singleton] at hnode
        rw [hnode]
        exact hleads
    · rw [List.length_append, List.length_singleton]
      show graph.nodes.length + 1 ≤ graph.limits.maxSchemaNodes
      omega
    · rintro p rfl
      simp [places]

end Adds

/-! ### Grammar children -/

section Children

/-- The tokens of what is below an object lead to it. -/
def Leads (document : Value) (base : SchemaNode) (members : Members) : Prop :=
  ∀ path value, get (.obj members) path = some value →
    resolveTokens document (base.tokens ++ tokensOf path) = .ok (base.place ++ path)

/-- The places at some paths below a node. -/
def At (base : SchemaNode) (paths : Place → Prop) (p : Place) : Prop :=
  ∃ path, paths path ∧ p = base.place ++ path

/-- The paths of a keyword with a list of schemas. -/
def ListPath (members : Members) (keyword : String) (path : Place) : Prop :=
  ∃ items i, members.lookup keyword = some (.arr items) ∧ i < items.length ∧
    path = [.key keyword, .index i]

/-- The path of a keyword with one schema. -/
def SinglePath (members : Members) (keyword : String) (path : Place) : Prop :=
  ∃ value, members.lookup keyword = some value ∧ path = [.key keyword]

/-- The paths of the keyword `items`. -/
def ItemsPath (members : Members) (path : Place) : Prop :=
  ListPath members "items" path ∨
    ∃ value, members.lookup "items" = some value ∧ isSchemaValue value = true ∧ path = [.key "items"]

/-- The paths of a keyword with an object of schemas. -/
def MapPath (members : Members) (keyword : String) (path : Place) : Prop :=
  ∃ children name, members.lookup keyword = some (.obj children) ∧ name ∈ children.map Prod.fst ∧
    path = [.key keyword, .key name]

/-- The paths of the schemas among the dependencies. -/
def DependencyPath (members : Members) (path : Place) : Prop :=
  ∃ children, members.lookup "dependencies" = some (.obj children) ∧ ∃ dependency ∈ children,
    isSchemaValue dependency.2 = true ∧ path = [.key "dependencies", .key dependency.1]

/-- The grammar, keyword by keyword. -/
theorem grammarChild_iff {members : Members} {path : Place} :
    GrammarChild members path ↔
      (((∃ keyword ∈ SchemaGraph.singles, SinglePath members keyword path) ∨
        (∃ keyword ∈ SchemaGraph.lists, ListPath members keyword path)) ∨ ItemsPath members path) ∨
        (∃ keyword ∈ SchemaGraph.maps, MapPath members keyword path) ∨
        DependencyPath members path := by
  constructor
  · intro h
    cases h with
    | single hkeyword h => exact .inl (.inl (.inl ⟨_, hkeyword, _, h, rfl⟩))
    | listed hkeyword h hi => exact .inl (.inl (.inr ⟨_, hkeyword, _, _, h, hi, rfl⟩))
    | tuple h hi => exact .inl (.inr (.inl ⟨_, _, h, hi, rfl⟩))
    | items h hvalue => exact .inl (.inr (.inr ⟨_, h, hvalue, rfl⟩))
    | named hkeyword h hname => exact .inr (.inl ⟨_, hkeyword, _, _, h, hname, rfl⟩)
    | dependency h hmem hvalue => exact .inr (.inr ⟨_, h, _, hmem, hvalue, rfl⟩)
  · rintro (((⟨keyword, hkeyword, value, h, rfl⟩ | ⟨keyword, hkeyword, items, i, h, hi, rfl⟩) |
      (⟨items, i, h, hi, rfl⟩ | ⟨value, h, hvalue, rfl⟩)) |
      ⟨keyword, hkeyword, children, name, h, hname, rfl⟩ |
      ⟨children, h, ⟨name, value⟩, hmem, hvalue, rfl⟩)
    · exact .single hkeyword h
    · exact .listed hkeyword h hi
    · exact .tuple h hi
    · exact .items h hvalue
    · exact .named hkeyword h hname
    · exact .dependency h hmem hvalue

variable {base : SchemaNode} {members : Members} {parent : ℕ} {edge : SchemaGraph.Edge}
  {graph next : SchemaGraph} {keyword : String}

theorem get_two {value below : Value} {step : Step} (h : members.lookup keyword = some value)
    (hchild : child value step = some below) :
    get (.obj members) [.key keyword, step] = some below := by
  rw [get_cons, child, h, Option.bind_some, get_cons, hchild]
  rfl

theorem exists_lookup {name : String} (h : name ∈ members.map Prod.fst) :
    ∃ value, members.lookup name = some value := by
  cases hlookup : members.lookup name with
  | some value => exact ⟨value, rfl⟩
  | none =>
    obtain ⟨member, hmem, hname⟩ := List.mem_map.mp h
    have hne := List.lookup_eq_none_iff.mp hlookup member hmem
    simp [hname] at hne

theorem adds_addGrammarChild {path : Place} {value found : Value}
    (hleads : Leads document base members) (hfound : get (.obj members) path = some found)
    (h : graph.addGrammarChild parent base edge path value = .ok next) :
    Adds document (fun p => p = base.place ++ path) graph next := by
  obtain ⟨⟨id, middle⟩, hadd, h⟩ := bind_eq_ok.mp h
  have hadds := adds_addNode (hleads path found hfound) hadd
  have hedit := hadds.edit parent (fun node =>
    edge.add id { node with grammar := appendUniqueNode node.grammar id })
    (fun node => by cases edge <;> exact ⟨rfl, rfl, rfl⟩)
  simp only at h
  split at h
  · cases h
    exact hedit
  · cases h
    exact hedit.beside rfl rfl rfl

theorem adds_addChildren {children : List (Place × Value)} (hleads : Leads document base members)
    (hfound : ∀ child ∈ children, ∃ found, get (.obj members) child.1 = some found)
    (h : graph.addChildren parent base edge children = .ok next) :
    Adds document (At base fun path => ∃ child ∈ children, path = child.1) graph next := by
  have hadds := adds_foldlM document
    (fun (child : Place × Value) p => p = base.place ++ child.1) ?_ h
  · refine hadds.congr fun p => ?_
    constructor
    · rintro ⟨child, hmem, rfl⟩
      exact ⟨child.1, ⟨child, hmem, rfl⟩, rfl⟩
    · rintro ⟨path, ⟨child, hmem, rfl⟩, rfl⟩
      exact ⟨child, hmem, rfl⟩
  · intro child hmem graph next hstep
    obtain ⟨_, -, hstep⟩ := bind_eq_ok.mp hstep
    obtain ⟨found, hfound⟩ := hfound child hmem
    exact adds_addGrammarChild hleads hfound hstep

theorem At.congr {P Q : Place → Prop} (h : ∀ path, P path ↔ Q path) (p : Place) :
    At base P p ↔ At base Q p := by
  have heq : P = Q := funext fun path => propext (h path)
  rw [heq]

theorem adds_collectSingle (hleads : Leads document base members)
    (h : graph.collectSingle parent base members keyword = .ok next) :
    Adds document (At base (SinglePath members keyword)) graph next := by
  unfold SchemaGraph.collectSingle at h
  cases hlookup : members.lookup keyword with
  | none =>
    rw [hlookup] at h
    cases h
    exact Adds.none.congr fun p => by simp [At, SinglePath, hlookup]
  | some value =>
    rw [hlookup] at h
    have hadds := adds_addChildren hleads (by simp [get_key, hlookup]) h
    exact hadds.congr (At.congr fun path => by simp [SinglePath, hlookup])

theorem found_listed {items : List Value} (hlookup : members.lookup keyword = some (.arr items)) :
    ∀ child ∈ SchemaGraph.listed keyword items, ∃ found, get (.obj members) child.1 = some found := by
  intro child hmem
  obtain ⟨⟨item, i⟩, hitem, rfl⟩ := List.mem_map.mp hmem
  have hget : items[i]? = some item := List.mem_zipIdx_iff_getElem?.mp hitem
  exact ⟨item, get_two hlookup hget⟩

theorem mem_listed {items : List Value} {path : Place} :
    (∃ child ∈ SchemaGraph.listed keyword items, path = child.1) ↔
      ∃ i, i < items.length ∧ path = [.key keyword, .index i] := by
  constructor
  · rintro ⟨child, hmem, rfl⟩
    obtain ⟨⟨item, i⟩, hitem, rfl⟩ := List.mem_map.mp hmem
    have hget : items[i]? = some item := List.mem_zipIdx_iff_getElem?.mp hitem
    exact ⟨i, (List.getElem?_eq_some_iff.mp hget).1, rfl⟩
  · rintro ⟨i, hi, rfl⟩
    have hitem : (items[i], i) ∈ items.zipIdx :=
      List.mem_zipIdx_iff_getElem?.mpr (List.getElem?_eq_getElem hi)
    exact ⟨_, List.mem_map_of_mem hitem, rfl⟩

theorem adds_listed {items : List Value} (hleads : Leads document base members)
    (hlookup : members.lookup keyword = some (.arr items))
    (h : graph.addChildren parent base edge (SchemaGraph.listed keyword items) = .ok next) :
    Adds document (At base (ListPath members keyword)) graph next := by
  have hadds := adds_addChildren hleads (found_listed hlookup) h
  refine hadds.congr (At.congr fun path => ?_)
  rw [mem_listed]
  simp [ListPath, hlookup]

theorem adds_collectList (hleads : Leads document base members)
    (h : graph.collectList parent base members keyword = .ok next) :
    Adds document (At base (ListPath members keyword)) graph next := by
  unfold SchemaGraph.collectList at h
  split at h
  · next hlookup =>
    cases h
    exact Adds.none.congr fun p => by simp [At, ListPath, hlookup]
  · next children hlookup =>
    obtain ⟨_, -, h⟩ := bind_eq_ok.mp h
    obtain ⟨_, -, h⟩ := bind_eq_ok.mp h
    exact adds_listed hleads hlookup h
  · cases h

theorem adds_collectItems (hleads : Leads document base members)
    (h : graph.collectItems parent base members = .ok next) :
    Adds document (At base (ItemsPath members)) graph next := by
  unfold SchemaGraph.collectItems at h
  split at h
  · next hlookup =>
    cases h
    exact Adds.none.congr fun p => by simp [At, ItemsPath, ListPath, hlookup]
  · next children hlookup =>
    obtain ⟨_, -, h⟩ := bind_eq_ok.mp h
    obtain ⟨_, -, h⟩ := bind_eq_ok.mp h
    refine (adds_listed hleads hlookup h).congr (At.congr fun path => ?_)
    simp [ItemsPath, hlookup, isSchemaValue]
  · next value hvalue hlookup =>
    obtain ⟨_, hschema, h⟩ := bind_eq_ok.mp h
    rw [refuseIf_eq_ok] at hschema
    have hadds := adds_addChildren hleads (by simp [get_key, hlookup]) h
    refine hadds.congr (At.congr fun path => ?_)
    have hisSchema : isSchemaValue value = true := by simpa using hschema
    have hnot : ¬ ListPath members "items" path := by
      rintro ⟨items, i, hitems, -, -⟩
      rw [hlookup] at hitems
      exact hvalue items (Option.some.inj hitems)
    simp [ItemsPath, hlookup, hisSchema, hnot]

theorem mem_sortedMembers {children : Members} {member : String × Value} :
    member ∈ SchemaGraph.sortedMembers children ↔ member ∈ children :=
  (Lib.Sorting.sortOn_perm Prod.fst children).mem_iff

theorem adds_collectMap (hleads : Leads document base members)
    (h : graph.collectMap parent base members keyword = .ok next) :
    Adds document (At base (MapPath members keyword)) graph next := by
  unfold SchemaGraph.collectMap at h
  split at h
  · next hlookup =>
    cases h
    exact Adds.none.congr fun p => by simp [At, MapPath, hlookup]
  · next children hlookup =>
    obtain ⟨_, -, h⟩ := bind_eq_ok.mp h
    have hadds := adds_addChildren hleads ?_ h
    · refine hadds.congr (At.congr fun path => ?_)
      constructor
      · rintro ⟨child, hmem, rfl⟩
        obtain ⟨member, hmember, rfl⟩ := List.mem_map.mp hmem
        have hname := List.mem_map_of_mem (f := Prod.fst) (mem_sortedMembers.mp hmember)
        exact ⟨children, member.1, hlookup, hname, rfl⟩
      · rintro ⟨others, name, hothers, hname, rfl⟩
        rw [hlookup] at hothers
        cases hothers
        obtain ⟨member, hmember, rfl⟩ := List.mem_map.mp hname
        exact ⟨_, List.mem_map_of_mem (mem_sortedMembers.mpr hmember), rfl⟩
    · intro child hmem
      obtain ⟨member, hmember, rfl⟩ := List.mem_map.mp hmem
      have hname := List.mem_map_of_mem (f := Prod.fst) (mem_sortedMembers.mp hmember)
      obtain ⟨found, hfound⟩ := exists_lookup hname
      exact ⟨found, get_two hlookup hfound⟩
  · cases h

theorem adds_collectDependency {children : Members} {dependency : String × Value}
    (hleads : Leads document base members)
    (hlookup : members.lookup "dependencies" = some (.obj children)) (hmem : dependency ∈ children)
    (h : graph.collectDependency parent base dependency = .ok next) :
    Adds document (At base fun path => isSchemaValue dependency.2 = true ∧
      path = [.key "dependencies", .key dependency.1]) graph next := by
  unfold SchemaGraph.collectDependency at h
  by_cases hschema : isSchemaValue dependency.2 = true
  · rw [if_pos hschema] at h
    obtain ⟨found, hfound⟩ := exists_lookup (List.mem_map_of_mem hmem)
    have hadds := adds_addChildren hleads
      (by simpa [SchemaGraph.named] using ⟨found, get_two hlookup hfound⟩) h
    exact hadds.congr (At.congr fun path => by simp [SchemaGraph.named, hschema])
  · rw [if_neg hschema] at h
    have hsame : next = graph := by
      split at h
      · obtain ⟨_, -, h⟩ := bind_eq_ok.mp h
        obtain ⟨_, -, h⟩ := bind_eq_ok.mp h
        exact (Except.ok.inj h).symm
      · cases h
    rw [hsame]
    exact Adds.none.congr fun p => by simp [At, hschema]

theorem adds_collectDependencies (hleads : Leads document base members)
    (h : graph.collectDependencies parent base members = .ok next) :
    Adds document (At base (DependencyPath members)) graph next := by
  unfold SchemaGraph.collectDependencies at h
  split at h
  · next hlookup =>
    cases h
    exact Adds.none.congr fun p => by simp [At, DependencyPath, hlookup]
  · next children hlookup =>
    obtain ⟨_, -, h⟩ := bind_eq_ok.mp h
    have hadds := adds_foldlM document
      (fun dependency => At base fun path => isSchemaValue dependency.2 = true ∧
        path = [.key "dependencies", .key dependency.1])
      (fun dependency hmem graph next hstep =>
        adds_collectDependency hleads hlookup (mem_sortedMembers.mp hmem) hstep) h
    refine hadds.congr fun p => ?_
    constructor
    · rintro ⟨dependency, hmem, path, hpath, rfl⟩
      exact ⟨path, ⟨children, hlookup, dependency, mem_sortedMembers.mp hmem, hpath⟩, rfl⟩
    · rintro ⟨path, ⟨others, hothers, dependency, hmem, hpath⟩, rfl⟩
      rw [hlookup] at hothers
      cases hothers
      exact ⟨dependency, mem_sortedMembers.mpr hmem, path, hpath, rfl⟩
  · cases h

/-- Every keyword of a list. -/
theorem adds_keywords {keywords : List String} {paths : String → Place → Prop}
    {f : SchemaGraph → String → Except Refusal SchemaGraph}
    (hstep : ∀ keyword graph next, f graph keyword = .ok next →
      Adds document (At base (paths keyword)) graph next)
    (h : keywords.foldlM f graph = .ok next) :
    Adds document (At base fun path => ∃ keyword ∈ keywords, paths keyword path) graph next := by
  have hadds := adds_foldlM document (fun keyword => At base (paths keyword))
    (fun keyword _ graph next hstep' => hstep keyword graph next hstep') h
  refine hadds.congr fun p => ?_
  constructor
  · rintro ⟨keyword, hmem, path, hpath, rfl⟩
    exact ⟨path, ⟨keyword, hmem, hpath⟩, rfl⟩
  · rintro ⟨path, ⟨keyword, hmem, hpath⟩, rfl⟩
    exact ⟨keyword, hmem, path, hpath, rfl⟩

/-- **The grammar children of an object become nodes**, and nothing else does. -/
theorem adds_collectGrammarChildren (hleads : Leads document base members)
    (h : graph.collectGrammarChildren parent base members = .ok next) :
    Adds document (At base (GrammarChild members)) graph next := by
  obtain ⟨g₁, h₁, h⟩ := bind_eq_ok.mp h
  obtain ⟨g₂, h₂, h⟩ := bind_eq_ok.mp h
  obtain ⟨g₃, h₃, h⟩ := bind_eq_ok.mp h
  obtain ⟨g₄, h₄, h₅⟩ := bind_eq_ok.mp h
  have hsingles := adds_keywords (f := SchemaGraph.collectSingle parent base members)
    (fun _ _ _ => adds_collectSingle hleads) h₁
  have hlists := adds_keywords (f := SchemaGraph.collectList parent base members)
    (fun _ _ _ => adds_collectList hleads) h₂
  have hitems := adds_collectItems hleads h₃
  have hmaps := adds_keywords (f := SchemaGraph.collectMap parent base members)
    (fun _ _ _ => adds_collectMap hleads) h₄
  have hdependencies := adds_collectDependencies hleads h₅
  have hall := ((hsingles.trans hlists).trans hitems).trans (hmaps.trans hdependencies)
  refine hall.congr fun p => ?_
  have hor : ∀ P Q : Place → Prop, At base P p ∨ At base Q p ↔
      At base (fun path => P path ∨ Q path) p := by
    intro P Q
    constructor
    · rintro (⟨path, hpath, rfl⟩ | ⟨path, hpath, rfl⟩)
      · exact ⟨path, .inl hpath, rfl⟩
      · exact ⟨path, .inr hpath, rfl⟩
    · rintro ⟨path, hpath | hpath, rfl⟩
      · exact .inl ⟨path, hpath, rfl⟩
      · exact .inr ⟨path, hpath, rfl⟩
  rw [hor, hor, hor, hor]
  exact At.congr (fun path => grammarChild_iff.symm) p

end Children

/-! ### The walk -/

section Walk

open Classical in
/-- The rewriting of the `$schema` of the objects at some places. -/
noncomputable def seals (objects : Place → Prop) : Place → Option String := fun q =>
  if ∃ p, objects p ∧ q = p ++ [.key "$schema"] then some canonicalDraft7URI else none

variable {objects : Place → Prop} {graph next : SchemaGraph} {node : SchemaNode}

theorem seals_at {p : Place} (h : objects p) :
    seals objects (p ++ [.key "$schema"]) = some canonicalDraft7URI :=
  if_pos ⟨p, h, rfl⟩

theorem seals_not_at {p : Place} (h : ¬ objects p) :
    seals objects (p ++ [.key "$schema"]) = none := by
  refine if_neg ?_
  rintro ⟨q, hq, heq⟩
  rw [List.append_cancel_right heq] at h
  exact h hq

theorem seals_other {p : Place} {name : String} (hname : name ≠ "$schema") :
    seals objects (p ++ [.key name]) = none := by
  refine if_neg ?_
  rintro ⟨q, -, heq⟩
  have hlast := List.append_inj_right' heq rfl
  simp only [List.cons.injEq, Step.key.injEq, and_true] at hlast
  exact hname hlast

/-- The rewriting of one more `$schema`. -/
theorem also_seals (p : Place) :
    also (seals objects) (p ++ [.key "$schema"]) canonicalDraft7URI =
      seals fun q => objects q ∨ q = p := by
  funext q
  unfold also
  by_cases hq : q = p ++ [.key "$schema"]
  · rw [if_pos hq, hq, seals_at (.inr rfl)]
  · have hiff : (∃ r, (objects r ∨ r = p) ∧ q = r ++ [.key "$schema"]) ↔
        ∃ r, objects r ∧ q = r ++ [.key "$schema"] := by
      constructor
      · rintro ⟨r, hr | rfl, rfl⟩
        · exact ⟨r, hr, rfl⟩
        · exact absurd rfl hq
      · rintro ⟨r, hr, rfl⟩
        exact ⟨r, .inl hr, rfl⟩
    rw [if_neg hq]
    by_cases hexists : ∃ r, objects r ∧ q = r ++ [.key "$schema"]
    · rw [seals, seals, if_pos hexists, if_pos (hiff.mpr hexists)]
    · rw [seals, seals, if_neg hexists, if_neg (mt hiff.mp hexists)]

/-- A value at a place of a rewritten document, and the one that was there. -/
theorem get_rewritten {texts : Place → Option String} {place : Place} {value : Value}
    (h : get (rewrite texts document) place = some value) :
    ∃ old, get document place = some old ∧ value = rewrite (fun q => texts (place ++ q)) old := by
  rw [get_rewrite] at h
  obtain ⟨old, hold, heq⟩ := Option.map_eq_some_iff.mp h
  exact ⟨old, hold, heq.symm⟩

theorem get_rewritten_obj {texts : Place → Option String} {place : Place} {members : Members}
    (h : get (rewrite texts document) place = some (.obj members)) :
    ∃ old, get document place = some (.obj old) ∧
      members = rewriteMembers (fun q => texts (place ++ q)) old := by
  obtain ⟨old, hold, heq⟩ := get_rewritten h
  cases old with
  | obj old =>
    rw [rewrite] at heq
    exact ⟨old, hold, Json.obj.inj heq⟩
  | _ => cases heq

theorem get_rewritten_str {texts : Place → Option String} {place : Place} {s : String}
    (h : get (rewrite texts document) place = some (.str s)) :
    ∃ old, get document place = some (.str old) ∧ s = (texts place).getD old := by
  obtain ⟨old, hold, heq⟩ := get_rewritten h
  cases old with
  | str old =>
    rw [rewrite, List.append_nil] at heq
    exact ⟨old, hold, Json.str.inj heq⟩
  | _ => cases heq

theorem get_member {place : Place} {members : Members}
    (h : get document place = some (.obj members)) (name : String) :
    get document (place ++ [.key name]) = members.lookup name := by
  rw [get_append_of_get h, get_key]

/-- A place without a text `$schema` may be sealed or not. -/
theorem seals_irrelevant (hd : distinct document = true) {p : Place}
    (h : ∀ s, get document (p ++ [.key "$schema"]) ≠ some (.str s)) :
    rewrite (seals fun q => objects q ∨ q = p) document = rewrite (seals objects) document := by
  refine (rewrite_eq_iff hd).mpr fun place s hget => ?_
  have hne : place ≠ p ++ [.key "$schema"] := by
    rintro rfl
    exact h s hget
  rw [← also_seals, also, if_neg hne]

/-- `$schema` is sealed, and nothing else of the graph changes. -/
theorem declareSchema_ok (hd : distinct document = true)
    (hroot : graph.root = rewrite (seals objects) document) {members : Members}
    (hget : get graph.root node.place = some (.obj members))
    (h : graph.declareSchema node members = .ok next) :
    next = { graph with
      root := rewrite (seals fun q => objects q ∨ q = node.place) document } := by
  have hschema : get graph.root (node.place ++ [.key "$schema"]) = members.lookup "$schema" :=
    get_member hget "$schema"
  rw [hroot] at hschema
  unfold SchemaGraph.declareSchema at h
  split at h
  · next hlookup =>
    cases h
    have hnone : ∀ s, get document (node.place ++ [.key "$schema"]) ≠ some (.str s) := by
      intro s hs
      rw [hlookup, get_rewrite, hs] at hschema
      cases hschema
    rw [seals_irrelevant hd hnone, ← hroot]
  · next declaration hlookup =>
    rw [hlookup] at hschema
    obtain ⟨old, hold, -⟩ := get_rewritten_str hschema
    split at h
    · cases h
      rw [hroot, set_rewrite hd hold, also_seals]
    · cases h
  · cases h

/-- A reference is resolved as in the document itself. -/
theorem resolve_rewritten {texts : Place → Option String} {reference : String} {value : Value}
    {place : Place} {tokens : List Bytes}
    (h : SchemaGraph.resolveLocalReference (rewrite texts document) reference =
      .ok (value, place, tokens)) :
    resolveTokens document tokens = .ok place ∧
      ∃ old, SchemaGraph.resolveLocalReference document reference = .ok (old, place, tokens) := by
  obtain ⟨parsed, hparsed, h⟩ := bind_eq_ok.mp h
  obtain ⟨target, htarget, h⟩ := bind_eq_ok.mp h
  cases hget : get (rewrite texts document) target with
  | none => simp only [hget] at h; cases h
  | some found =>
    simp only [hget] at h
    obtain ⟨old, hold, hfound⟩ := get_rewritten hget
    rw [resolve_rewrite] at htarget
    by_cases hschema : isSchemaValue found = true
    · rw [if_pos hschema] at h
      cases h
      refine ⟨htarget, old, ?_⟩
      have hisSchema : isSchemaValue old = true := by
        rw [hfound, isSchemaValue_rewrite] at hschema
        exact hschema
      refine bind_eq_ok.mpr ⟨tokens, hparsed, bind_eq_ok.mpr ⟨place, htarget, ?_⟩⟩
      simp only [hold, if_pos hisSchema]
    · rw [if_neg hschema] at h
      cases h

/-- The target of a `$ref` becomes a node. -/
theorem adds_followReference {id : ℕ} {texts : Place → Option String}
    (hroot : graph.root = rewrite texts document) {old : Members} (hold : get document node.place = some (.obj old))
    (h : graph.followReference id node
      (rewriteMembers (fun q => seals objects (node.place ++ q)) old) = .ok next) :
    Adds document (RefEdge document node.place) graph next := by
  have hlookup : (rewriteMembers (fun q => seals objects (node.place ++ q)) old).lookup "$ref" =
      (old.lookup "$ref").map (rewrite (below (fun q => seals objects (node.place ++ q))
        (.key "$ref"))) := rewriteMembers_lookup "$ref" old
  unfold SchemaGraph.followReference at h
  split at h
  · next hnone =>
    cases h
    rw [hnone, eq_comm, Option.map_eq_none_iff] at hlookup
    refine Adds.none.congr fun p => ?_
    simp [RefEdge, hold, hlookup]
  · next reference hsome =>
    obtain ⟨value, hvalue, heq⟩ := lookup_rewritten hsome
    have href : old.lookup "$ref" = some (.str reference) := by
      cases value with
      | str text =>
        have hnone : below (fun q => seals objects (node.place ++ q)) (.key "$ref") [] = none :=
          seals_other (by decide)
        rw [rewrite, hnone] at heq
        rw [hvalue]
        exact congrArg some heq
      | _ => cases heq
    obtain ⟨⟨target, place, tokens⟩, hresolve, h⟩ := bind_eq_ok.mp h
    obtain ⟨⟨index, middle⟩, hadd, h⟩ := bind_eq_ok.mp h
    cases h
    rw [mapError_eq_ok, hroot] at hresolve
    obtain ⟨hleads, value', hresolve'⟩ := resolve_rewritten hresolve
    have hadds := (adds_addNode hleads hadd).edit id (fun node => { node with ref := some index })
      fun node => ⟨rfl, rfl, rfl⟩
    refine hadds.congr fun p => ?_
    constructor
    · rintro rfl
      exact ⟨old, reference, value', tokens, hold, href, hresolve'⟩
    · rintro ⟨members, other, found, others, hmembers, hother, hfound⟩
      rw [hold] at hmembers
      cases hmembers
      rw [href] at hother
      cases hother
      rw [hresolve'] at hfound
      cases hfound
      rfl
  · cases h

/-- What is below an object of the walk is led to by its tokens. -/
theorem leads_members (hleads : resolveTokens document node.tokens = .ok node.place)
    {old : Members} (hold : get document node.place = some (.obj old))
    (texts : Place → Option String) : Leads document node (rewriteMembers texts old) := by
  intro path value hget
  have hrewrite : get (rewrite texts (.obj old)) path = some value := by
    rw [rewrite]
    exact hget
  obtain ⟨found, hfound, -⟩ := get_rewritten hrewrite
  rw [resolve_append hleads hold, resolve_tokensOf hfound]
  rfl

/-- **One node**: its `$schema` is sealed, and what its edges lead to are nodes. -/
theorem inspectNode_ok {setting : Setting} {index : ℕ} (hd : distinct document = true)
    (hlocated : Located document graph) (hroot : graph.root = rewrite (seals objects) document)
    (hnode : graph.nodes[index]? = some node) (h : graph.inspectNode setting index = .ok next) :
    Located document next ∧
      Grows { graph with root := rewrite (seals fun q => objects q ∨ q = node.place) document }
        next (Edge document node.place) := by
  have hleads := hlocated.leads node (List.mem_of_getElem? hnode)
  unfold SchemaGraph.inspectNode at h
  simp only [hnode] at h
  split at h
  · next members hget =>
    have hgetdoc := hget
    rw [hroot] at hgetdoc
    obtain ⟨old, hold, rfl⟩ := get_rewritten_obj hgetdoc
    obtain ⟨_, -, h⟩ := bind_eq_ok.mp h
    obtain ⟨declared, hdeclare, h⟩ := bind_eq_ok.mp h
    obtain ⟨followed, hfollow, h⟩ := bind_eq_ok.mp h
    obtain ⟨work, -, h⟩ := bind_eq_ok.mp h
    rw [mapError_eq_ok] at h
    have hdeclared := declareSchema_ok hd hroot hget hdeclare
    have hlocated' : Located document declared := by
      rw [hdeclared]
      exact ⟨hlocated.pointer, hlocated.leads, hlocated.bounded⟩
    have hroot' : declared.root = rewrite (seals fun q => objects q ∨ q = node.place) document := by
      rw [hdeclared]
    have href := adds_followReference hroot' hold hfollow
    have hbeside : Adds document (RefEdge document node.place) declared
        { followed with numericWork := work } := href.beside rfl rfl rfl
    have hchildren := adds_collectGrammarChildren
      (leads_members hleads hold fun q => seals objects (node.place ++ q)) h
    have hall : Adds document (Edge document node.place) declared next := by
      refine (hbeside.trans hchildren).congr fun p => ?_
      constructor
      · rintro (href | ⟨path, hpath, rfl⟩)
        · exact .inr href
        · exact .inl ⟨old, path, hold, grammarChild_rewrite.mp hpath, rfl⟩
      · rintro (⟨others, path, hothers, hpath, rfl⟩ | href)
        · rw [hold] at hothers
          cases hothers
          exact .inr ⟨path, grammarChild_rewrite.mpr hpath, rfl⟩
        · exact .inl href
    rw [hdeclared] at hall
    rw [hdeclared] at hlocated'
    exact hall hlocated'
  · next hnot =>
    cases h
    have hobj : ∀ members, get document node.place ≠ some (.obj members) := by
      intro members hmembers
      refine hnot (rewriteMembers (fun q => seals objects (node.place ++ q)) members) ?_
      rw [hroot, get_rewrite, hmembers]
      rfl
    have hnone : ∀ s, get document (node.place ++ [.key "$schema"]) ≠ some (.str s) := by
      intro s hs
      rw [get_append] at hs
      obtain ⟨value, hvalue, hs⟩ := Option.bind_eq_some_iff.mp hs
      cases value with
      | obj members => exact hobj members hvalue
      | _ => cases hs
    have hnoedge : ∀ p, ¬ Edge document node.place p := by
      rintro p (⟨members, path, hmembers, -, -⟩ | ⟨members, reference, value, tokens, hmembers, -, -⟩)
      · exact hobj members hmembers
      · exact hobj members hmembers
    refine ⟨hlocated, ?_, rfl, ⟨[], by simp [places], by simp⟩, fun p hp => absurd hp (hnoedge p)⟩
    rw [hroot]
    exact (seals_irrelevant hd hnone).symm

/-- The walk before the node with an index: the nodes up to there are sealed and their edges lead
to nodes. -/
structure Walked (document : Value) (index : ℕ) (graph : SchemaGraph) : Prop where
  located : Located document graph
  root : graph.root = rewrite (seals fun p => p ∈ (places graph).take index) document
  reach : index ≤ (places graph).length
  first : [] ∈ places graph
  sound : ∀ p ∈ places graph, Reached document p
  closed : ∀ p ∈ (places graph).take index, ∀ q, Edge document p q → q ∈ places graph

theorem walked_inspectNode {setting : Setting} {index : ℕ} (hd : distinct document = true)
    (hwalked : Walked document index graph) (hindex : index < graph.nodes.length)
    (h : graph.inspectNode setting index = .ok next) : Walked document (index + 1) next := by
  have hnode : graph.nodes[index]? = some graph.nodes[index] := List.getElem?_eq_getElem hindex
  obtain ⟨hlocated, hgrows⟩ := inspectNode_ok hd hwalked.located hwalked.root hnode h
  obtain ⟨added, hadded, hnew⟩ := hgrows.more
  have hplaces : places next = places graph ++ added := hadded
  have hplace : (places graph)[index]? = some graph.nodes[index].place := by
    rw [places, List.getElem?_map, hnode]
    rfl
  have hlength : index < (places graph).length := by
    rw [places, List.length_map]
    exact hindex
  have hmem : graph.nodes[index].place ∈ places graph := List.mem_of_getElem? hplace
  have htake : (places next).take (index + 1) =
      (places graph).take index ++ [graph.nodes[index].place] := by
    rw [hplaces, List.take_append_of_le_length (by omega), List.take_add_one, hplace]
    rfl
  refine ⟨hlocated, ?_, ?_, hgrows.subset hwalked.first, ?_, ?_⟩
  · rw [hgrows.root, htake]
    simp only [List.mem_append, List.mem_singleton]
  · rw [hplaces, List.length_append]
    omega
  · intro p hp
    rw [hplaces] at hp
    rcases List.mem_append.mp hp with hp | hp
    · exact hwalked.sound p hp
    · exact (hwalked.sound _ hmem).tail (hnew p hp)
  · intro p hp q hedge
    rw [htake] at hp
    rcases List.mem_append.mp hp with hp | hp
    · exact hgrows.subset (hwalked.closed p hp q hedge)
    · rw [List.mem_singleton] at hp
      rw [hp] at hedge
      exact hgrows.covers q hedge

theorem limits_inspectNode {setting : Setting} {index : ℕ} (hd : distinct document = true)
    (hwalked : Walked document index graph) (hindex : index < graph.nodes.length)
    (h : graph.inspectNode setting index = .ok next) : next.limits = graph.limits := by
  have hnode : graph.nodes[index]? = some graph.nodes[index] := List.getElem?_eq_getElem hindex
  obtain ⟨-, hgrows⟩ := inspectNode_ok hd hwalked.located hwalked.root hnode h
  exact hgrows.limits

/-- The rule of the walk: it goes on until every node is inspected, so what every node keeps holds at
its end. -/
theorem inspectAll_run {setting : Setting} {P : ℕ → SchemaGraph → Prop} (hd : distinct document = true)
    (hwalked : ∀ {index graph}, P index graph → Walked document index graph)
    (hstep : ∀ {index graph next}, P index graph → index < graph.nodes.length →
      graph.inspectNode setting index = .ok next → P (index + 1) next) (rounds : ℕ) :
    ∀ {index : ℕ} {graph next : SchemaGraph}, P index graph →
      graph.limits.maxSchemaNodes ≤ index + rounds →
      graph.inspectAll setting rounds index = .ok next →
        P (places next).length next ∧ next.limits = graph.limits := by
  induction rounds with
  | zero =>
    intro index graph next hp hrounds h
    cases h
    have hbound := (hwalked hp).located.bounded
    have hreach := (hwalked hp).reach
    have hlength : (places graph).length = graph.nodes.length := List.length_map _
    have hindex : index = (places graph).length := by omega
    rw [← hindex]
    exact ⟨hp, rfl⟩
  | succ rounds ih =>
    intro index graph next hp hrounds h
    unfold SchemaGraph.inspectAll at h
    by_cases hindex : index < graph.nodes.length
    · rw [if_pos hindex] at h
      obtain ⟨middle, hmiddle, h⟩ := bind_eq_ok.mp h
      have hlimits := limits_inspectNode hd (hwalked hp) hindex hmiddle
      obtain ⟨hnext, hsame⟩ := ih (hstep hp hindex hmiddle) (by rw [hlimits]; omega) h
      exact ⟨hnext, hsame.trans hlimits⟩
    · rw [if_neg hindex] at h
      cases h
      have hreach := (hwalked hp).reach
      have hlength : (places graph).length = graph.nodes.length := List.length_map _
      have hend : index = (places graph).length := by omega
      rw [← hend]
      exact ⟨hp, rfl⟩

/-- At its end the nodes are exactly what is reached. -/
theorem Walked.places_iff (h : Walked document (places graph).length graph) (p : Place) :
    p ∈ places graph ↔ Reached document p := by
  constructor
  · exact h.sound p
  · intro hreached
    induction hreached with
    | refl => exact h.first
    | tail _ hedge ih =>
      have hclosed := h.closed _ (by rwa [List.take_length]) _ hedge
      exact hclosed

theorem Walked.root_eq (h : Walked document (places graph).length graph) :
    graph.root = rewrite (seals (Reached document)) document := by
  have heq : (fun p => p ∈ (places graph).take (places graph).length) = Reached document := by
    funext p
    rw [List.take_length]
    exact propext (h.places_iff p)
  rw [h.root, heq]

end Walk

end Modary.Schema.Walk
