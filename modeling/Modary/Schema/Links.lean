import Modary.Schema.Walk

/-! # The edges of the schema graph

What the walk enters in the nodes: under each node the children that the grammar gives it, by the
list they are entered in, the target of its reference, and for each child the first of its
parents. -/

namespace Modary.Schema.Links

open Modary.Lib.GoText Modary.Lib.JsonValue Modary.Lib.JsonPlace Modary.Lib.JsonPointer
open Modary.Schema.Profile Modary.Schema.Graph Modary.Schema.Walk

/-! ### The children of an object -/

/-- The schemas of the keywords with one schema. -/
def singleChildren (members : Members) (keyword : String) : List (Place × Value) :=
  match members.lookup keyword with
  | none => []
  | some value => [([Step.key keyword], value)]

/-- The schemas of the keywords with a list of schemas. -/
def listChildren (members : Members) (keyword : String) : List (Place × Value) :=
  match members.lookup keyword with
  | some (.arr items) => SchemaGraph.listed keyword items
  | _ => []

/-- The schemas of `items`. -/
def itemsChildren (members : Members) : List (Place × Value) :=
  match members.lookup "items" with
  | none => []
  | some (.arr items) => SchemaGraph.listed "items" items
  | some value => if isSchemaValue value then [([Step.key "items"], value)] else []

/-- The schemas of the keywords with an object of schemas. -/
def mapChildren (members : Members) (keyword : String) : List (Place × Value) :=
  match members.lookup keyword with
  | some (.obj children) => SchemaGraph.named keyword (SchemaGraph.sortedMembers children)
  | _ => []

/-- The schemas of `dependencies`. -/
def dependencyChildren (members : Members) : List (Place × Value) :=
  match members.lookup "dependencies" with
  | some (.obj children) => SchemaGraph.named "dependencies"
      ((SchemaGraph.sortedMembers children).filter fun child => isSchemaValue child.2)
  | _ => []

/-- The children that an object of the grammar has, in the order of the walk. -/
def grammarChildren (members : Members) : List (Place × Value) :=
  SchemaGraph.singles.flatMap (singleChildren members) ++
    SchemaGraph.lists.flatMap (listChildren members) ++ itemsChildren members ++
    SchemaGraph.maps.flatMap (mapChildren members) ++ dependencyChildren members

/-- The list that a child is entered in besides the grammar. -/
def edgeOfPath : Place → SchemaGraph.Edge
  | [.key keyword] => SchemaGraph.edgeOf keyword
  | .key keyword :: _ =>
    if keyword ∈ SchemaGraph.lists ∨ keyword = "dependencies" then .same else .plain
  | _ => .plain

/-- A child is entered. -/
def enter (parent : ℕ) (base : SchemaNode) (graph : SchemaGraph) (child : Place × Value) :
    Except Refusal SchemaGraph :=
  graph.addGrammarChild parent base (edgeOfPath child.1) child.1 child.2

section Collect

variable {parent : ℕ} {base : SchemaNode} {members : Members} {graph next : SchemaGraph}
  {keyword : String}

theorem foldlM_append_ok {α : Type} {f : SchemaGraph → α → Except Refusal SchemaGraph}
    {l l' : List α} {middle : SchemaGraph} (h : l.foldlM f graph = .ok middle)
    (h' : l'.foldlM f middle = .ok next) : (l ++ l').foldlM f graph = .ok next := by
  rw [List.foldlM_append, h]
  exact h'

/-- Children that pass their check are entered. -/
theorem enter_of_addChildren {edge : SchemaGraph.Edge} {children : List (Place × Value)}
    (hedge : ∀ child ∈ children, edgeOfPath child.1 = edge)
    (h : graph.addChildren parent base edge children = .ok next) :
    children.foldlM (enter parent base) graph = .ok next := by
  unfold SchemaGraph.addChildren at h
  induction children generalizing graph with
  | nil => exact h
  | cons child children ih =>
    rw [List.foldlM_cons] at h ⊢
    obtain ⟨middle, hfirst, hrest⟩ := bind_eq_ok.mp h
    obtain ⟨_, -, hfirst⟩ := bind_eq_ok.mp hfirst
    refine bind_eq_ok.mpr ⟨middle, ?_, ih (fun c hc => hedge c (List.mem_cons_of_mem _ hc)) hrest⟩
    rw [enter, hedge child List.mem_cons_self]
    exact hfirst

theorem enter_of_collectSingle
    (h : graph.collectSingle parent base members keyword = .ok next) :
    (singleChildren members keyword).foldlM (enter parent base) graph = .ok next := by
  unfold SchemaGraph.collectSingle at h
  split at h
  · next hnone =>
    unfold singleChildren
    rw [hnone]
    exact h
  · next value hsome =>
    unfold singleChildren
    rw [hsome]
    refine enter_of_addChildren ?_ h
    intro child hchild
    rw [List.mem_singleton] at hchild
    rw [hchild]
    rfl

theorem edge_listed (hkeyword : keyword ∈ SchemaGraph.lists) {items : List Value} :
    ∀ child ∈ SchemaGraph.listed keyword items, edgeOfPath child.1 = .same := by
  intro child hchild
  obtain ⟨_, -, rfl⟩ := List.mem_map.mp hchild
  exact if_pos (.inl hkeyword)

theorem enter_of_collectList (hkeyword : keyword ∈ SchemaGraph.lists)
    (h : graph.collectList parent base members keyword = .ok next) :
    (listChildren members keyword).foldlM (enter parent base) graph = .ok next := by
  unfold SchemaGraph.collectList at h
  split at h
  · next hnone =>
    unfold listChildren
    rw [hnone]
    exact h
  · next children hsome =>
    unfold listChildren
    rw [hsome]
    obtain ⟨_, -, h⟩ := bind_eq_ok.mp h
    obtain ⟨_, -, h⟩ := bind_eq_ok.mp h
    exact enter_of_addChildren (edge_listed hkeyword) h
  · cases h

theorem enter_of_collectItems (h : graph.collectItems parent base members = .ok next) :
    (itemsChildren members).foldlM (enter parent base) graph = .ok next := by
  unfold SchemaGraph.collectItems at h
  split at h
  · next hnone =>
    unfold itemsChildren
    rw [hnone]
    exact h
  · next children hsome =>
    unfold itemsChildren
    rw [hsome]
    obtain ⟨_, -, h⟩ := bind_eq_ok.mp h
    obtain ⟨_, -, h⟩ := bind_eq_ok.mp h
    refine enter_of_addChildren ?_ h
    intro child hchild
    obtain ⟨_, -, rfl⟩ := List.mem_map.mp hchild
    rfl
  · next value hvalue hsome =>
    obtain ⟨_, hschema, h⟩ := bind_eq_ok.mp h
    have hisSchema : isSchemaValue value = true := by simpa using refuseIf_eq_ok.mp hschema
    have hchildren : itemsChildren members = [([Step.key "items"], value)] := by
      unfold itemsChildren
      rw [hsome]
      cases value with
      | arr items => exact absurd rfl (hvalue items)
      | _ => exact if_pos hisSchema
    rw [hchildren]
    refine enter_of_addChildren ?_ h
    intro child hchild
    rw [List.mem_singleton] at hchild
    rw [hchild]
    rfl

theorem enter_of_collectMap (hkeyword : keyword ∈ SchemaGraph.maps)
    (h : graph.collectMap parent base members keyword = .ok next) :
    (mapChildren members keyword).foldlM (enter parent base) graph = .ok next := by
  unfold SchemaGraph.collectMap at h
  split at h
  · next hnone =>
    unfold mapChildren
    rw [hnone]
    exact h
  · next children hsome =>
    unfold mapChildren
    rw [hsome]
    obtain ⟨_, -, h⟩ := bind_eq_ok.mp h
    refine enter_of_addChildren ?_ h
    intro child hchild
    obtain ⟨_, -, rfl⟩ := List.mem_map.mp hchild
    refine if_neg ?_
    rintro (hlist | hdependencies)
    · have hnone : ∀ k ∈ SchemaGraph.maps, k ∉ SchemaGraph.lists := by decide
      exact hnone keyword hkeyword hlist
    · have hnone : ∀ k ∈ SchemaGraph.maps, k ≠ "dependencies" := by decide
      exact hnone keyword hkeyword hdependencies
  · cases h

theorem enter_of_dependencies {dependencies : Members}
    (h : dependencies.foldlM (SchemaGraph.collectDependency parent base) graph = .ok next) :
    (SchemaGraph.named "dependencies" (dependencies.filter fun child => isSchemaValue child.2)).foldlM
      (enter parent base) graph = .ok next := by
  induction dependencies generalizing graph with
  | nil => exact h
  | cons dependency dependencies ih =>
    rw [List.foldlM_cons] at h
    obtain ⟨middle, hfirst, hrest⟩ := bind_eq_ok.mp h
    have hrest := ih hrest
    unfold SchemaGraph.collectDependency at hfirst
    by_cases hschema : isSchemaValue dependency.2 = true
    · rw [if_pos hschema] at hfirst
      rw [List.filter_cons, if_pos hschema]
      have hone := enter_of_addChildren (fun child hchild => by
        rw [SchemaGraph.named, List.map_singleton, List.mem_singleton] at hchild
        rw [hchild]
        rfl) hfirst
      exact foldlM_append_ok hone hrest
    · rw [if_neg hschema] at hfirst
      rw [List.filter_cons, if_neg hschema]
      have hsame : middle = graph := by
        split at hfirst
        · obtain ⟨_, -, hfirst⟩ := bind_eq_ok.mp hfirst
          obtain ⟨_, -, hfirst⟩ := bind_eq_ok.mp hfirst
          exact (Except.ok.inj hfirst).symm
        · cases hfirst
      rw [← hsame]
      exact hrest

theorem enter_of_collectDependencies (h : graph.collectDependencies parent base members = .ok next) :
    (dependencyChildren members).foldlM (enter parent base) graph = .ok next := by
  unfold SchemaGraph.collectDependencies at h
  split at h
  · next hnone =>
    unfold dependencyChildren
    rw [hnone]
    exact h
  · next children hsome =>
    unfold dependencyChildren
    rw [hsome]
    obtain ⟨_, -, h⟩ := bind_eq_ok.mp h
    exact enter_of_dependencies h
  · cases h

/-- One keyword after the other. -/
theorem enter_of_keywords {keywords : List String} {children : String → List (Place × Value)}
    {f : SchemaGraph → String → Except Refusal SchemaGraph}
    (hstep : ∀ keyword ∈ keywords, ∀ graph next, f graph keyword = .ok next →
      (children keyword).foldlM (enter parent base) graph = .ok next)
    (h : keywords.foldlM f graph = .ok next) :
    (keywords.flatMap children).foldlM (enter parent base) graph = .ok next := by
  induction keywords generalizing graph with
  | nil => exact h
  | cons keyword keywords ih =>
    rw [List.foldlM_cons] at h
    obtain ⟨middle, hfirst, hrest⟩ := bind_eq_ok.mp h
    exact foldlM_append_ok (hstep keyword List.mem_cons_self graph middle hfirst)
      (ih (fun k hk => hstep k (List.mem_cons_of_mem _ hk)) hrest)

/-- **The grammar children of an object are entered one after the other.** -/
theorem enter_of_collectGrammarChildren
    (h : graph.collectGrammarChildren parent base members = .ok next) :
    (grammarChildren members).foldlM (enter parent base) graph = .ok next := by
  obtain ⟨g₁, h₁, h⟩ := bind_eq_ok.mp h
  obtain ⟨g₂, h₂, h⟩ := bind_eq_ok.mp h
  obtain ⟨g₃, h₃, h⟩ := bind_eq_ok.mp h
  obtain ⟨g₄, h₄, h₅⟩ := bind_eq_ok.mp h
  have hsingles := enter_of_keywords (f := SchemaGraph.collectSingle parent base members)
    (fun _ _ _ _ => enter_of_collectSingle) h₁
  have hlists := enter_of_keywords (f := SchemaGraph.collectList parent base members)
    (fun _ hk _ _ => enter_of_collectList hk) h₂
  have hitems := enter_of_collectItems h₃
  have hmaps := enter_of_keywords (f := SchemaGraph.collectMap parent base members)
    (fun _ hk _ _ => enter_of_collectMap hk) h₄
  have hdependencies := enter_of_collectDependencies h₅
  exact foldlM_append_ok (foldlM_append_ok (foldlM_append_ok (foldlM_append_ok hsingles hlists)
    hitems) hmaps) hdependencies

theorem mem_singleChildren {path : Place} :
    (∃ value, (path, value) ∈ singleChildren members keyword) ↔ SinglePath members keyword path := by
  unfold singleChildren SinglePath
  cases members.lookup keyword with
  | none => simp
  | some value => simp

theorem mem_listChildren {path : Place} :
    (∃ value, (path, value) ∈ listChildren members keyword) ↔ ListPath members keyword path := by
  unfold listChildren ListPath
  split
  · next items hitems =>
    have hlisted := @mem_listed keyword items path
    constructor
    · rintro ⟨value, hvalue⟩
      obtain ⟨i, hi, hpath⟩ := hlisted.mp ⟨_, hvalue, rfl⟩
      exact ⟨items, i, hitems, hi, hpath⟩
    · rintro ⟨others, i, hothers, hi, hpath⟩
      rw [hitems] at hothers
      cases hothers
      obtain ⟨child, hchild, rfl⟩ := hlisted.mpr ⟨i, hi, hpath⟩
      exact ⟨child.2, hchild⟩
  · next hnot =>
    constructor
    · rintro ⟨value, hvalue⟩
      cases hvalue
    · rintro ⟨items, i, hitems, -⟩
      exact absurd hitems (hnot items)

theorem mem_itemsChildren {path : Place} :
    (∃ value, (path, value) ∈ itemsChildren members) ↔ ItemsPath members path := by
  have hlist := @mem_listChildren members "items" path
  unfold listChildren at hlist
  unfold itemsChildren ItemsPath
  rw [← hlist]
  cases members.lookup "items" with
  | none => simp
  | some value =>
    cases value with
    | arr items => simp [isSchemaValue]
    | obj inner => simp [isSchemaValue]
    | bool b => simp [isSchemaValue]
    | _ => simp [isSchemaValue]

theorem mem_mapChildren {path : Place} :
    (∃ value, (path, value) ∈ mapChildren members keyword) ↔ MapPath members keyword path := by
  unfold mapChildren MapPath
  split
  · next children hchildren =>
    constructor
    · rintro ⟨value, hvalue⟩
      obtain ⟨member, hmember, heq⟩ := List.mem_map.mp hvalue
      cases heq
      exact ⟨children, member.1, hchildren,
        List.mem_map_of_mem (mem_sortedMembers.mp hmember), rfl⟩
    · rintro ⟨others, name, hothers, hname, rfl⟩
      rw [hchildren] at hothers
      cases hothers
      obtain ⟨member, hmember, rfl⟩ := List.mem_map.mp hname
      exact ⟨member.2, List.mem_map.mpr ⟨member, mem_sortedMembers.mpr hmember, rfl⟩⟩
  · next hnot =>
    constructor
    · rintro ⟨value, hvalue⟩
      cases hvalue
    · rintro ⟨children, name, hchildren, -⟩
      exact absurd hchildren (hnot children)

theorem mem_dependencyChildren {path : Place} :
    (∃ value, (path, value) ∈ dependencyChildren members) ↔ DependencyPath members path := by
  unfold dependencyChildren DependencyPath
  split
  · next children hchildren =>
    constructor
    · rintro ⟨value, hvalue⟩
      obtain ⟨member, hmember, heq⟩ := List.mem_map.mp hvalue
      cases heq
      obtain ⟨hmember, hschema⟩ := List.mem_filter.mp hmember
      exact ⟨children, hchildren, member, mem_sortedMembers.mp hmember, hschema, rfl⟩
    · rintro ⟨others, hothers, member, hmember, hschema, rfl⟩
      rw [hchildren] at hothers
      cases hothers
      have hmem : member ∈ (SchemaGraph.sortedMembers children).filter
          (fun child => isSchemaValue child.2) :=
        List.mem_filter.mpr ⟨mem_sortedMembers.mpr hmember, hschema⟩
      exact ⟨member.2, List.mem_map.mpr ⟨member, hmem, rfl⟩⟩
  · next hnot =>
    constructor
    · rintro ⟨value, hvalue⟩
      cases hvalue
    · rintro ⟨children, hchildren, -⟩
      exact absurd hchildren (hnot children)

/-- These children are what the grammar makes schemas. -/
theorem mem_grammarChildren {path : Place} :
    (∃ value, (path, value) ∈ grammarChildren members) ↔ GrammarChild members path := by
  have hflat : ∀ (keywords : List String) (children : String → List (Place × Value)),
      (∃ value, (path, value) ∈ keywords.flatMap children) ↔
        ∃ keyword ∈ keywords, ∃ value, (path, value) ∈ children keyword := by
    intro keywords children
    simp only [List.mem_flatMap]
    constructor
    · rintro ⟨value, keyword, hkeyword, hvalue⟩
      exact ⟨keyword, hkeyword, value, hvalue⟩
    · rintro ⟨keyword, hkeyword, value, hvalue⟩
      exact ⟨value, keyword, hkeyword, hvalue⟩
  unfold grammarChildren
  simp only [List.mem_append, exists_or, hflat, mem_singleChildren, mem_listChildren,
    mem_itemsChildren, mem_mapChildren, mem_dependencyChildren, grammarChild_iff, or_assoc]

end Collect

/-! ### The lists of a node -/

/-- The node with this number has these tokens. -/
def HasTokens (graph : SchemaGraph) (id : ℕ) (tokens : List Bytes) : Prop :=
  ∃ node, graph.nodes[id]? = some node ∧ node.tokens = tokens

/-- The list of a node that is kept for an edge; every child is in the first one. -/
def children (node : SchemaNode) : SchemaGraph.Edge → List ℕ
  | .plain => node.grammar
  | .same => node.same
  | .branch => node.branches

/-- The child at a path is entered in a list. -/
def Picks (edge : SchemaGraph.Edge) (path : Place) : Prop := edge = .plain ∨ edgeOfPath path = edge

/-- The edges of a graph are those of the paths that each node has, and the references those to the
tokens that each node refers to. -/
structure Linked (paths : ℕ → Place → Prop) (refs : ℕ → Option (List Bytes)) (graph : SchemaGraph) :
    Prop where
  pointer : ∀ node ∈ graph.nodes, node.pointer = pointerKey node.tokens
  unique : (graph.nodes.map SchemaNode.tokens).Nodup
  fresh : ∀ node ∈ graph.nodes, node.primary = false
  within : ∀ id path, paths id path → id < graph.nodes.length
  total : ∀ id node path, graph.nodes[id]? = some node → paths id path →
    ∃ c, HasTokens graph c (node.tokens ++ tokensOf path)
  child : ∀ id node, graph.nodes[id]? = some node → ∀ edge c, c ∈ children node edge ↔
    ∃ path, paths id path ∧ Picks edge path ∧ HasTokens graph c (node.tokens ++ tokensOf path)
  nodup : ∀ node ∈ graph.nodes, ∀ edge, (children node edge).Nodup
  target : ∀ id node tokens, graph.nodes[id]? = some node → refs id = some tokens →
    ∃ t, node.ref = some t ∧ HasTokens graph t tokens
  noTarget : ∀ id node, graph.nodes[id]? = some node → refs id = none → node.ref = none
  parents : ∀ entry ∈ graph.grammarParent, ∃ node, graph.nodes[entry.2]? = some node ∧
    entry.1 ∈ node.grammar

section Linked

variable {paths : ℕ → Place → Prop} {refs : ℕ → Option (List Bytes)} {graph next : SchemaGraph}

theorem HasTokens.eq (hunique : (graph.nodes.map SchemaNode.tokens).Nodup) {a b : ℕ}
    {tokens : List Bytes} (ha : HasTokens graph a tokens) (hb : HasTokens graph b tokens) : a = b := by
  obtain ⟨node, hnode, rfl⟩ := ha
  obtain ⟨other, hother, heq⟩ := hb
  have hnode' : (graph.nodes.map SchemaNode.tokens)[a]? = some node.tokens := by
    rw [List.getElem?_map, hnode]
    rfl
  have hother' : (graph.nodes.map SchemaNode.tokens)[b]? = some node.tokens := by
    rw [List.getElem?_map, hother, ← heq]
    rfl
  have hlt := (List.getElem?_eq_some_iff.mp hnode').1
  exact (List.getElem?_inj hlt hunique).mp (hnode'.trans hother'.symm)

/-- A new node. -/
def newNode (tokens : List Bytes) (place : Place) (depth : ℕ) : SchemaNode :=
  ⟨pointerKey tokens, tokens, place, depth, [], none, false, [], []⟩

/-- What `addNode` does: nothing for tokens that a node has, or one more node. -/
theorem addNode_cases {value : Value} {place : Place} {tokens : List Bytes} {depth id : ℕ}
    (hpointer : ∀ node ∈ graph.nodes, node.pointer = pointerKey node.tokens)
    (h : graph.addNode value place tokens depth = .ok (id, next)) :
    (next = graph ∧ HasTokens graph id tokens) ∨
    (id = graph.nodes.length ∧ (∀ c, ¬ HasTokens graph c tokens) ∧
      next = { graph with nodes := graph.nodes ++ [newNode tokens place depth] }) := by
  obtain ⟨_, -, h⟩ := bind_eq_ok.mp h
  obtain ⟨_, -, h⟩ := bind_eq_ok.mp h
  cases hfind : graph.byPointer (pointerKey tokens) with
  | some existing =>
    simp only [hfind] at h
    cases h
    obtain ⟨hlt, hkey, -⟩ := List.findIdx?_eq_some_iff_getElem.mp hfind
    have hkey := of_decide_eq_true hkey
    rw [hpointer _ (List.getElem_mem hlt)] at hkey
    exact .inl ⟨rfl, _, List.getElem?_eq_getElem hlt, pointerKey_inj hkey⟩
  | none =>
    simp only [hfind] at h
    obtain ⟨_, -, h⟩ := bind_eq_ok.mp h
    cases h
    refine .inr ⟨rfl, ?_, rfl⟩
    rintro c ⟨node, hnode, rfl⟩
    have hmem := List.mem_of_getElem? hnode
    have hnone := List.findIdx?_eq_none_iff.mp hfind node hmem
    rw [hpointer node hmem] at hnone
    simp at hnone

theorem hasTokens_append {node : SchemaNode} {c : ℕ} {tokens : List Bytes} :
    HasTokens { graph with nodes := graph.nodes ++ [node] } c tokens ↔
      HasTokens graph c tokens ∨ (c = graph.nodes.length ∧ node.tokens = tokens) := by
  unfold HasTokens
  dsimp only
  rcases Nat.lt_trichotomy c graph.nodes.length with hlt | rfl | hgt
  · rw [List.getElem?_append_left hlt]
    simp [hlt.ne]
  · rw [List.getElem?_append_right le_rfl, Nat.sub_self]
    simp
  · rw [List.getElem?_append_right hgt.le, List.getElem?_eq_none (by simp; omega),
      List.getElem?_eq_none (by omega)]
    simp [hgt.ne']

/-- A node without edges is added. -/
theorem Linked.append (h : Linked paths refs graph) {tokens : List Bytes}
    (hnew : ∀ c, ¬ HasTokens graph c tokens) (hrefs : refs graph.nodes.length = none) (place : Place)
    (depth : ℕ) :
    Linked paths refs { graph with nodes := graph.nodes ++ [newNode tokens place depth] } := by
  have hcases : ∀ {id : ℕ} {node : SchemaNode},
      (graph.nodes ++ [newNode tokens place depth])[id]? = some node →
        graph.nodes[id]? = some node ∨
          (id = graph.nodes.length ∧ node = newNode tokens place depth) := by
    intro id node hnode
    rcases Nat.lt_or_ge id graph.nodes.length with hlt | hge
    · rw [List.getElem?_append_left hlt] at hnode
      exact .inl hnode
    · rw [List.getElem?_append_right hge] at hnode
      have hzero : id - graph.nodes.length = 0 := by
        have hbound := (List.getElem?_eq_some_iff.mp hnode).1
        simp only [List.length_singleton] at hbound
        omega
      rw [hzero] at hnode
      cases hnode
      exact .inr ⟨by omega, rfl⟩
  have hmem : ∀ node ∈ graph.nodes ++ [newNode tokens place depth],
      node ∈ graph.nodes ∨ node = newNode tokens place depth := by
    intro node hnode
    simpa using hnode
  have hfree : ∀ path, ¬ paths graph.nodes.length path := fun path hpath =>
    lt_irrefl _ (h.within _ path hpath)
  refine ⟨?_, ?_, ?_, ?_, ?_, ?_, ?_, ?_, ?_, ?_⟩
  · intro node hnode
    rcases hmem node hnode with hnode | rfl
    · exact h.pointer node hnode
    · rfl
  · rw [List.map_append, List.map_singleton, List.nodup_append]
    refine ⟨h.unique, List.nodup_singleton _, ?_⟩
    rintro a ha b hb rfl
    rw [List.mem_singleton] at hb
    obtain ⟨node, hnode, rfl⟩ := List.mem_map.mp ha
    obtain ⟨c, hc⟩ := List.getElem?_of_mem hnode
    exact hnew c ⟨node, hc, hb⟩
  · intro node hnode
    rcases hmem node hnode with hnode | rfl
    · exact h.fresh node hnode
    · rfl
  · intro id path hpath
    have hlt := h.within id path hpath
    rw [List.length_append]
    omega
  · intro id node path hnode hpath
    rcases hcases hnode with hnode | ⟨rfl, rfl⟩
    · obtain ⟨c, hc⟩ := h.total id node path hnode hpath
      exact ⟨c, hasTokens_append.mpr (.inl hc)⟩
    · exact absurd hpath (hfree path)
  · intro id node hnode edge c
    rcases hcases hnode with hnode | ⟨rfl, rfl⟩
    · rw [h.child id node hnode edge c]
      constructor
      · rintro ⟨path, hpath, hpicks, hc⟩
        exact ⟨path, hpath, hpicks, hasTokens_append.mpr (.inl hc)⟩
      · rintro ⟨path, hpath, hpicks, hc⟩
        rcases hasTokens_append.mp hc with hc | ⟨-, heq⟩
        · exact ⟨path, hpath, hpicks, hc⟩
        · obtain ⟨c', hc'⟩ := h.total id node path hnode hpath
          rw [← heq] at hc'
          exact absurd hc' (hnew c')
    · constructor
      · intro hc
        cases edge <;> cases hc
      · rintro ⟨path, hpath, -⟩
        exact absurd hpath (hfree path)
  · intro node hnode edge
    rcases hmem node hnode with hnode | rfl
    · exact h.nodup node hnode edge
    · cases edge <;> exact List.nodup_nil
  · intro id node others hnode hothers
    rcases hcases hnode with hnode | ⟨rfl, rfl⟩
    · obtain ⟨t, ht, htokens⟩ := h.target id node others hnode hothers
      exact ⟨t, ht, hasTokens_append.mpr (.inl htokens)⟩
    · rw [hrefs] at hothers
      cases hothers
  · intro id node hnode hnone
    rcases hcases hnode with hnode | ⟨rfl, rfl⟩
    · exact h.noTarget id node hnode hnone
    · rfl
  · intro entry hentry
    obtain ⟨node, hnode, hin⟩ := h.parents entry hentry
    refine ⟨node, ?_, hin⟩
    have hlt := (List.getElem?_eq_some_iff.mp hnode).1
    dsimp only
    rw [List.getElem?_append_left hlt, hnode]

/-- After `addNode` there is a node with the tokens, and the others are as they were. -/
theorem Linked.addNode (h : Linked paths refs graph) (hrefs : ∀ id, graph.nodes.length ≤ id →
    refs id = none) {value : Value} {place : Place} {tokens : List Bytes} {depth id : ℕ}
    (hadd : graph.addNode value place tokens depth = .ok (id, next)) :
    Linked paths refs next ∧ HasTokens next id tokens ∧
      (∀ c others, HasTokens graph c others → HasTokens next c others) ∧
        graph.nodes.length ≤ next.nodes.length := by
  rcases addNode_cases h.pointer hadd with ⟨rfl, htokens⟩ | ⟨rfl, hnew, rfl⟩
  · exact ⟨h, htokens, fun _ _ hc => hc, le_rfl⟩
  · refine ⟨h.append hnew (hrefs _ le_rfl) place depth, ?_, fun _ _ hc => ?_, ?_⟩
    · exact hasTokens_append.mpr (.inr ⟨rfl, rfl⟩)
    · exact hasTokens_append.mpr (.inl hc)
    · dsimp only
      rw [List.length_append]
      omega

theorem getElem?_edit {id : ℕ} {f : SchemaNode → SchemaNode} (i : ℕ) :
    (graph.edit id f).nodes[i]? = if id = i then graph.nodes[i]?.map f else graph.nodes[i]? := by
  change (graph.nodes.modify id f)[i]? = _
  rw [List.getElem?_modify]
  by_cases h : id = i
  · simp [h]
  · simp [h]

/-- A change of edges leaves the tokens. -/
theorem hasTokens_edit {id : ℕ} {f : SchemaNode → SchemaNode}
    (hf : ∀ node, (f node).tokens = node.tokens) {c : ℕ} {tokens : List Bytes} :
    HasTokens (graph.edit id f) c tokens ↔ HasTokens graph c tokens := by
  unfold HasTokens
  rw [getElem?_edit]
  by_cases h : id = c
  · rw [if_pos h]
    cases graph.nodes[c]? with
    | none => simp
    | some node => simp [hf]
  · rw [if_neg h]

theorem mem_appendUniqueNode {nodes : List ℕ} {c x : ℕ} :
    x ∈ appendUniqueNode nodes c ↔ x ∈ nodes ∨ x = c := by
  unfold appendUniqueNode
  split_ifs with h
  · constructor
    · exact Or.inl
    · rintro (hx | rfl)
      · exact hx
      · exact h
  · simp

theorem nodup_appendUniqueNode {nodes : List ℕ} (h : nodes.Nodup) (c : ℕ) :
    (appendUniqueNode nodes c).Nodup := by
  unfold appendUniqueNode
  split_ifs with hc
  · exact h
  · rw [List.nodup_append]
    refine ⟨h, List.nodup_singleton _, ?_⟩
    rintro a ha b hb rfl
    rw [List.mem_singleton] at hb
    exact hc (hb ▸ ha)

/-- The lists of a node with one more child. -/
def entered (edge : SchemaGraph.Edge) (c : ℕ) (node : SchemaNode) : SchemaNode :=
  edge.add c { node with grammar := appendUniqueNode node.grammar c }

theorem mem_children_entered {edge kind : SchemaGraph.Edge} {node : SchemaNode} {c x : ℕ} :
    x ∈ children (entered edge c node) kind ↔
      x ∈ children node kind ∨ (x = c ∧ (kind = .plain ∨ edge = kind)) := by
  cases edge <;> cases kind <;>
    simp [entered, children, SchemaGraph.Edge.add, mem_appendUniqueNode]

theorem mem_grammar_entered {edge : SchemaGraph.Edge} {node : SchemaNode} {c x : ℕ} :
    x ∈ (entered edge c node).grammar ↔ x ∈ node.grammar ∨ x = c := by
  have h := @mem_children_entered edge .plain node c x
  simpa [children] using h

theorem nodup_children_entered {edge kind : SchemaGraph.Edge} {node : SchemaNode} {c : ℕ}
    (h : ∀ kind, (children node kind).Nodup) : (children (entered edge c node) kind).Nodup := by
  have hplain := h .plain
  have hsame := h .same
  have hbranch := h .branch
  cases edge <;> cases kind <;>
    first
    | exact nodup_appendUniqueNode hplain c
    | exact nodup_appendUniqueNode hsame c
    | exact nodup_appendUniqueNode hbranch c
    | exact hsame
    | exact hbranch

theorem entered_core (edge : SchemaGraph.Edge) (c : ℕ) (node : SchemaNode) :
    (entered edge c node).tokens = node.tokens ∧ (entered edge c node).pointer = node.pointer ∧
      (entered edge c node).primary = node.primary ∧ (entered edge c node).ref = node.ref ∧
        (entered edge c node).place = node.place := by
  cases edge <;> exact ⟨rfl, rfl, rfl, rfl, rfl⟩

/-- A node of an edited graph, and what it was. -/
theorem exists_of_edit {id i : ℕ} {f : SchemaNode → SchemaNode} {node : SchemaNode}
    (h : (graph.edit id f).nodes[i]? = some node) :
    ∃ old, graph.nodes[i]? = some old ∧ node = if id = i then f old else old := by
  rw [getElem?_edit] at h
  by_cases hi : id = i
  · rw [if_pos hi, Option.map_eq_some_iff] at h
    obtain ⟨old, hold, rfl⟩ := h
    exact ⟨old, hold, (if_pos hi).symm⟩
  · rw [if_neg hi] at h
    exact ⟨node, h, (if_neg hi).symm⟩

theorem edit_of_getElem? {id i : ℕ} {f : SchemaNode → SchemaNode} {old : SchemaNode}
    (h : graph.nodes[i]? = some old) :
    (graph.edit id f).nodes[i]? = some (if id = i then f old else old) := by
  rw [getElem?_edit, h]
  by_cases hi : id = i
  · rw [if_pos hi, if_pos hi]
    rfl
  · rw [if_neg hi, if_neg hi]

theorem tokens_edit {id : ℕ} {f : SchemaNode → SchemaNode}
    (hf : ∀ node, (f node).tokens = node.tokens) :
    (graph.edit id f).nodes.map SchemaNode.tokens = graph.nodes.map SchemaNode.tokens :=
  map_modify hf _ _

/-- **A child is entered** under its parent. -/
theorem Linked.enter (h : Linked paths refs graph) {parent c : ℕ} {tokens : List Bytes}
    {path : Place} (hparent : HasTokens graph parent tokens)
    (hchild : HasTokens graph c (tokens ++ tokensOf path)) {entries : List (ℕ × ℕ)}
    (hentries : ∀ entry ∈ entries, entry ∈ graph.grammarParent ∨ entry = (c, parent)) :
    Linked (fun id q => paths id q ∨ (id = parent ∧ q = path)) refs
      { graph.edit parent (entered (edgeOfPath path) c) with grammarParent := entries } := by
  have hf : ∀ node, (entered (edgeOfPath path) c node).tokens = node.tokens := fun node =>
    (entered_core _ c node).1
  have hhas : ∀ {x : ℕ} {others : List Bytes}, HasTokens
      { graph.edit parent (entered (edgeOfPath path) c) with grammarParent := entries } x others ↔
        HasTokens graph x others := hasTokens_edit hf
  obtain ⟨pnode, hpnode, rfl⟩ := hparent
  have hlength : (graph.edit parent (entered (edgeOfPath path) c)).nodes.length =
      graph.nodes.length := List.length_modify _ _ _
  have hmem : ∀ node ∈ (graph.edit parent (entered (edgeOfPath path) c)).nodes,
      ∃ i old, graph.nodes[i]? = some old ∧ node = if parent = i then
        entered (edgeOfPath path) c old else old := by
    intro node hnode
    obtain ⟨i, hi⟩ := List.getElem?_of_mem hnode
    obtain ⟨old, hold, heq⟩ := exists_of_edit hi
    exact ⟨i, old, hold, heq⟩
  have hcore : ∀ {i : ℕ} {old : SchemaNode}, (if parent = i then entered (edgeOfPath path) c old
      else old).tokens = old.tokens ∧ (if parent = i then entered (edgeOfPath path) c old
      else old).ref = old.ref := by
    intro i old
    by_cases hi : parent = i
    · rw [if_pos hi]
      exact ⟨(entered_core _ c old).1, (entered_core _ c old).2.2.2.1⟩
    · rw [if_neg hi]
      exact ⟨rfl, rfl⟩
  refine ⟨?_, ?_, ?_, ?_, ?_, ?_, ?_, ?_, ?_, ?_⟩
  · intro node hnode
    obtain ⟨i, old, hold, rfl⟩ := hmem node hnode
    have hpointer := h.pointer old (List.mem_of_getElem? hold)
    by_cases hi : parent = i
    · rw [if_pos hi, (entered_core _ c old).2.1, hf]
      exact hpointer
    · rw [if_neg hi]
      exact hpointer
  · have htokens : (graph.edit parent (entered (edgeOfPath path) c)).nodes.map SchemaNode.tokens =
        graph.nodes.map SchemaNode.tokens := tokens_edit hf
    change ((graph.edit parent (entered (edgeOfPath path) c)).nodes.map SchemaNode.tokens).Nodup
    rw [htokens]
    exact h.unique
  · intro node hnode
    obtain ⟨i, old, hold, rfl⟩ := hmem node hnode
    have hfresh := h.fresh old (List.mem_of_getElem? hold)
    by_cases hi : parent = i
    · rw [if_pos hi, (entered_core _ c old).2.2.1]
      exact hfresh
    · rw [if_neg hi]
      exact hfresh
  · intro id q hq
    change id < (graph.edit parent (entered (edgeOfPath path) c)).nodes.length
    rw [hlength]
    rcases hq with hq | ⟨rfl, -⟩
    · exact h.within id q hq
    · exact (List.getElem?_eq_some_iff.mp hpnode).1
  · intro id node q hnode hq
    obtain ⟨old, hold, rfl⟩ := exists_of_edit hnode
    rw [hcore.1]
    simp only [hhas]
    rcases hq with hq | ⟨rfl, rfl⟩
    · exact h.total id old q hold hq
    · rw [hpnode] at hold
      cases hold
      exact ⟨c, hchild⟩
  · intro id node hnode edge x
    obtain ⟨old, hold, rfl⟩ := exists_of_edit hnode
    have hlists := h.child id old hold edge x
    rw [hcore.1]
    simp only [hhas]
    by_cases hid : parent = id
    · subst hid
      rw [hpnode] at hold
      cases hold
      rw [if_pos rfl, mem_children_entered, hlists]
      constructor
      · rintro (⟨q, hq, hpicks, hx⟩ | ⟨rfl, hpicks⟩)
        · exact ⟨q, .inl hq, hpicks, hx⟩
        · exact ⟨path, .inr ⟨rfl, rfl⟩, hpicks, hchild⟩
      · rintro ⟨q, hq | ⟨-, rfl⟩, hpicks, hx⟩
        · exact .inl ⟨q, hq, hpicks, hx⟩
        · exact .inr ⟨HasTokens.eq h.unique hx hchild, hpicks⟩
    · rw [if_neg hid, hlists]
      constructor
      · rintro ⟨q, hq, hpicks, hx⟩
        exact ⟨q, .inl hq, hpicks, hx⟩
      · rintro ⟨q, hq | ⟨rfl, -⟩, hpicks, hx⟩
        · exact ⟨q, hq, hpicks, hx⟩
        · exact absurd rfl hid
  · intro node hnode edge
    obtain ⟨i, old, hold, rfl⟩ := hmem node hnode
    have hnodup := h.nodup old (List.mem_of_getElem? hold)
    by_cases hi : parent = i
    · rw [if_pos hi]
      exact nodup_children_entered hnodup
    · rw [if_neg hi]
      exact hnodup edge
  · intro id node others hnode hothers
    obtain ⟨old, hold, rfl⟩ := exists_of_edit hnode
    obtain ⟨t, ht, htokens⟩ := h.target id old others hold hothers
    exact ⟨t, hcore.2.trans ht, hhas.mpr htokens⟩
  · intro id node hnode hnone
    obtain ⟨old, hold, rfl⟩ := exists_of_edit hnode
    exact hcore.2.trans (h.noTarget id old hold hnone)
  · intro entry hentry
    rcases hentries entry hentry with hentry | rfl
    · obtain ⟨old, hold, hin⟩ := h.parents entry hentry
      refine ⟨_, edit_of_getElem? hold, ?_⟩
      by_cases hi : parent = entry.2
      · rw [if_pos hi]
        exact mem_grammar_entered.mpr (.inl hin)
      · rw [if_neg hi]
        exact hin
    · refine ⟨_, edit_of_getElem? hpnode, ?_⟩
      rw [if_pos rfl]
      exact mem_grammar_entered.mpr (.inr rfl)

/-- **The target of a reference is set.** -/
theorem Linked.setRef (h : Linked paths refs graph) (id : ℕ) {t : ℕ} {tokens : List Bytes}
    (htarget : HasTokens graph t tokens) :
    Linked paths (fun i => if i = id then some tokens else refs i)
      (graph.edit id fun node => { node with ref := some t }) := by
  have hhas : ∀ {x : ℕ} {others : List Bytes},
      HasTokens (graph.edit id fun node => { node with ref := some t }) x others ↔
        HasTokens graph x others :=
    hasTokens_edit (f := fun node => { node with ref := some t }) fun _ => rfl
  have hlength : (graph.edit id fun node => { node with ref := some t }).nodes.length =
      graph.nodes.length := List.length_modify _ _ _
  have hcore : ∀ {i : ℕ} {node : SchemaNode},
      (graph.edit id fun node => { node with ref := some t }).nodes[i]? = some node →
        ∃ old, graph.nodes[i]? = some old ∧ node.tokens = old.tokens ∧ node.pointer = old.pointer ∧
          node.primary = old.primary ∧ (∀ edge, children node edge = children old edge) ∧
          node.ref = if i = id then some t else old.ref := by
    intro i node hnode
    obtain ⟨old, hold, rfl⟩ := exists_of_edit hnode
    refine ⟨old, hold, ?_⟩
    by_cases hi : id = i
    · rw [if_pos hi, if_pos hi.symm]
      exact ⟨rfl, rfl, rfl, fun edge => by cases edge <;> rfl, rfl⟩
    · rw [if_neg hi, if_neg (Ne.symm hi)]
      exact ⟨rfl, rfl, rfl, fun edge => rfl, rfl⟩
  have hmem : ∀ node ∈ (graph.edit id fun node => { node with ref := some t }).nodes,
      ∃ old ∈ graph.nodes, node.tokens = old.tokens ∧ node.pointer = old.pointer ∧
        node.primary = old.primary ∧ ∀ edge, children node edge = children old edge := by
    intro node hnode
    obtain ⟨i, hi⟩ := List.getElem?_of_mem hnode
    obtain ⟨old, hold, htokens, hpointer, hprimary, hchildren, -⟩ := hcore hi
    exact ⟨old, List.mem_of_getElem? hold, htokens, hpointer, hprimary, hchildren⟩
  refine ⟨?_, ?_, ?_, ?_, ?_, ?_, ?_, ?_, ?_, ?_⟩
  · intro node hnode
    obtain ⟨old, hold, htokens, hpointer, -⟩ := hmem node hnode
    rw [htokens, hpointer]
    exact h.pointer old hold
  · have htokens : (graph.edit id fun node => { node with ref := some t }).nodes.map
        SchemaNode.tokens = graph.nodes.map SchemaNode.tokens := tokens_edit fun _ => rfl
    rw [htokens]
    exact h.unique
  · intro node hnode
    obtain ⟨old, hold, -, -, hprimary, -⟩ := hmem node hnode
    rw [hprimary]
    exact h.fresh old hold
  · intro i path hpath
    rw [hlength]
    exact h.within i path hpath
  · intro i node path hnode hpath
    obtain ⟨old, hold, htokens, -⟩ := hcore hnode
    rw [htokens]
    simp only [hhas]
    exact h.total i old path hold hpath
  · intro i node hnode edge x
    obtain ⟨old, hold, htokens, -, -, hchildren, -⟩ := hcore hnode
    rw [hchildren, htokens]
    simp only [hhas]
    exact h.child i old hold edge x
  · intro node hnode edge
    obtain ⟨old, hold, -, -, -, hchildren⟩ := hmem node hnode
    rw [hchildren]
    exact h.nodup old hold edge
  · intro i node others hnode hothers
    obtain ⟨old, hold, -, -, -, -, href⟩ := hcore hnode
    rw [href]
    simp only [hhas]
    by_cases hi : i = id
    · rw [if_pos hi] at hothers ⊢
      cases hothers
      exact ⟨t, rfl, htarget⟩
    · rw [if_neg hi] at hothers ⊢
      exact h.target i old others hold hothers
  · intro i node hnode hnone
    obtain ⟨old, hold, -, -, -, -, href⟩ := hcore hnode
    rw [href]
    by_cases hi : i = id
    · rw [if_pos hi] at hnone
      cases hnone
    · rw [if_neg hi] at hnone ⊢
      exact h.noTarget i old hold hnone
  · intro entry hentry
    obtain ⟨old, hold, hin⟩ := h.parents entry hentry
    refine ⟨_, edit_of_getElem? hold, ?_⟩
    by_cases hi : id = entry.2
    · rw [if_pos hi]
      exact hin
    · rw [if_neg hi]
      exact hin

/-- Nodes have only become more. -/
structure More (graph next : SchemaGraph) : Prop where
  tokens : ∀ {c : ℕ} {others : List Bytes}, HasTokens graph c others → HasTokens next c others
  length : graph.nodes.length ≤ next.nodes.length

theorem More.trans {last : SchemaGraph} (h : More graph next) (h' : More next last) :
    More graph last :=
  ⟨fun hc => h'.tokens (h.tokens hc), h.length.trans h'.length⟩

/-- What is neither a node nor the parent of one may change. -/
theorem Linked.beside (h : Linked paths refs graph) (other : SchemaGraph)
    (hnodes : other.nodes = graph.nodes) (hparents : other.grammarParent = graph.grammarParent) :
    Linked paths refs other := by
  have hhas : ∀ {c : ℕ} {tokens : List Bytes}, HasTokens other c tokens ↔ HasTokens graph c tokens := by
    intro c tokens
    unfold HasTokens
    rw [hnodes]
  refine ⟨?_, ?_, ?_, ?_, ?_, ?_, ?_, ?_, ?_, ?_⟩ <;> simp only [hnodes, hparents, hhas]
  · exact h.pointer
  · exact h.unique
  · exact h.fresh
  · exact h.within
  · exact h.total
  · exact h.child
  · exact h.nodup
  · exact h.target
  · exact h.noTarget
  · exact h.parents

/-- The same paths and references, said in another way. -/
theorem Linked.congr (h : Linked paths refs graph) {paths' : ℕ → Place → Prop}
    {refs' : ℕ → Option (List Bytes)} (hpaths : ∀ id path, paths id path ↔ paths' id path)
    (hrefs : ∀ id, refs id = refs' id) : Linked paths' refs' graph := by
  have heq : paths = paths' := funext fun id => funext fun path => propext (hpaths id path)
  rw [← heq, ← funext hrefs]
  exact h

theorem linked_enter (h : Linked paths refs graph)
    (hrefs : ∀ id, graph.nodes.length ≤ id → refs id = none) {parent : ℕ} {base : SchemaNode}
    {child : Place × Value} (hparent : HasTokens graph parent base.tokens)
    (hstep : enter parent base graph child = .ok next) :
    Linked (fun id q => paths id q ∨ (id = parent ∧ q = child.1)) refs next ∧ More graph next := by
  obtain ⟨⟨c, middle⟩, hadd, hstep⟩ := bind_eq_ok.mp hstep
  obtain ⟨hmiddle, hchild, hmore, hlength⟩ := h.addNode hrefs hadd
  have hlast : ∃ entries, (∀ entry ∈ entries, entry ∈ middle.grammarParent ∨ entry = (c, parent)) ∧
      next = { middle.edit parent (entered (edgeOfPath child.1) c) with grammarParent := entries } := by
    dsimp only at hstep
    split at hstep
    · cases hstep
      exact ⟨middle.grammarParent, fun entry hentry => .inl hentry, rfl⟩
    · cases hstep
      refine ⟨(c, parent) :: middle.grammarParent, fun entry hentry => ?_, rfl⟩
      rcases List.mem_cons.mp hentry with rfl | hentry
      · exact .inr rfl
      · exact .inl hentry
  obtain ⟨entries, hentries, rfl⟩ := hlast
  refine ⟨hmiddle.enter (hmore parent base.tokens hparent) hchild hentries, ?_, ?_⟩
  · intro x others hx
    exact (hasTokens_edit fun node => (entered_core _ c node).1).mpr (hmore x others hx)
  · change graph.nodes.length ≤ (middle.edit parent _).nodes.length
    rw [SchemaGraph.edit, List.length_modify]
    exact hlength

/-- The children of a node are entered, one after the other. -/
theorem linked_enterAll {parent : ℕ} {base : SchemaNode} (l : List (Place × Value)) :
    ∀ {paths : ℕ → Place → Prop} {graph : SchemaGraph}, Linked paths refs graph →
      (∀ id, graph.nodes.length ≤ id → refs id = none) → HasTokens graph parent base.tokens →
        l.foldlM (Links.enter parent base) graph = .ok next →
          Linked (fun id q => paths id q ∨ (id = parent ∧ ∃ child ∈ l, q = child.1)) refs next ∧
            More graph next := by
  induction l with
  | nil =>
    intro paths graph h _ _ hfold
    cases hfold
    exact ⟨h.congr (fun id q => by simp) fun _ => rfl, fun hc => hc, le_rfl⟩
  | cons child l ih =>
    intro paths graph h hrefs hparent hfold
    rw [List.foldlM_cons] at hfold
    obtain ⟨middle, hfirst, hrest⟩ := bind_eq_ok.mp hfold
    obtain ⟨hmiddle, hmore⟩ := linked_enter h hrefs hparent hfirst
    obtain ⟨hlast, hmore'⟩ := ih hmiddle (fun id hid => hrefs id (hmore.length.trans hid))
      (hmore.tokens hparent) hrest
    refine ⟨hlast.congr (fun id q => ?_) fun _ => rfl, hmore.trans hmore'⟩
    simp only [List.mem_cons, exists_eq_or_imp, and_or_left, or_assoc]

/-- The tokens of the reference of an object. -/
def referenceTokens (members : Members) : Option (List Bytes) :=
  match members.lookup "$ref" with
  | some (.str reference) => (parseLocalPointer reference).toOption
  | _ => none

/-- The `$ref` of an object is followed. -/
theorem linked_followReference (h : Linked paths refs graph)
    (hrefs : ∀ id, graph.nodes.length ≤ id → refs id = none) {id : ℕ} {node : SchemaNode}
    {members : Members} (hnone : refs id = none)
    (hstep : graph.followReference id node members = .ok next) :
    Linked paths (fun i => if i = id then referenceTokens members else refs i) next ∧
      More graph next := by
  unfold SchemaGraph.followReference at hstep
  split at hstep
  · next hlookup =>
    cases hstep
    refine ⟨h.congr (fun _ _ => Iff.rfl) fun i => ?_, fun hc => hc, le_rfl⟩
    by_cases hi : i = id
    · rw [if_pos hi, referenceTokens, hlookup, hi, hnone]
    · rw [if_neg hi]
  · next reference hlookup =>
    obtain ⟨⟨value, place, tokens⟩, hresolve, hstep⟩ := bind_eq_ok.mp hstep
    obtain ⟨⟨target, middle⟩, hadd, hstep⟩ := bind_eq_ok.mp hstep
    cases hstep
    obtain ⟨hmiddle, htarget, hmore, hlength⟩ := h.addNode hrefs hadd
    have htokens : referenceTokens members = some tokens := by
      rw [mapError_eq_ok] at hresolve
      obtain ⟨parsed, hparsed, hresolve⟩ := bind_eq_ok.mp hresolve
      obtain ⟨found, -, hresolve⟩ := bind_eq_ok.mp hresolve
      have hsame : parsed = tokens := by
        split at hresolve
        · split_ifs at hresolve
          cases hresolve
          rfl
        · cases hresolve
      rw [referenceTokens, hlookup]
      dsimp only
      rw [hparsed, hsame]
      rfl
    refine ⟨(hmiddle.setRef id htarget).congr (fun _ _ => Iff.rfl) fun i => ?_, ?_, ?_⟩
    · rw [htokens]
    · intro x others hx
      exact (hasTokens_edit (f := fun node => { node with ref := some target })
        fun _ => rfl).mpr (hmore x others hx)
    · rw [SchemaGraph.edit, List.length_modify]
      exact hlength
  · cases hstep

end Linked

end Modary.Schema.Links
