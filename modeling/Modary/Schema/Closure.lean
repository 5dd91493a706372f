import Modary.Lib.Rfc6901
import Modary.Schema.Frame
import Modary.Schema.Links

/-! # The closure of a schema document

What a prepared graph holds: its nodes are closed under the grammar and under references, and each
is below a value that the metaschema was asked about. They are the locations of the document one for
one, and every reference is a pointer of the standard, where no index in a reference has a sign. -/

namespace Modary.Schema.Closure

open Modary.Lib.GoText Modary.Lib.JsonValue Modary.Lib.JsonPlace Modary.Lib.JsonPointer
open Modary.Lib.Rfc6901 Modary.Schema.Profile Modary.Schema.Graph Modary.Schema.Walk
open Modary.Schema.Links Modary.Schema.Frame

variable {document : Value} {setting : Setting} {graph next : SchemaGraph}

/-! ### One node -/

/-- What the inspection of an object does: the `$schema`, the `$ref` and the children. -/
theorem inspectNode_object {index : ℕ} {node : SchemaNode} {members : Members}
    (hnode : graph.nodes[index]? = some node) (hget : get graph.root node.place = some (.obj members))
    (h : graph.inspectNode setting index = .ok next) : ∃ declared followed work,
      graph.declareSchema node members = .ok declared ∧
        declared.followReference index node members = .ok followed ∧
        (grammarChildren members).foldlM (enter index node) { followed with numericWork := work } =
          .ok next := by
  unfold SchemaGraph.inspectNode at h
  simp only [hnode, hget] at h
  obtain ⟨_, -, h⟩ := bind_eq_ok.mp h
  obtain ⟨declared, hdeclare, h⟩ := bind_eq_ok.mp h
  obtain ⟨followed, hfollow, h⟩ := bind_eq_ok.mp h
  obtain ⟨work, -, h⟩ := bind_eq_ok.mp h
  rw [mapError_eq_ok] at h
  exact ⟨declared, followed, work, hdeclare, hfollow, enter_of_collectGrammarChildren h⟩

/-- A value that is no object has nothing to inspect. -/
theorem inspectNode_other {index : ℕ} {node : SchemaNode}
    (hnode : graph.nodes[index]? = some node)
    (hget : ∀ members, get graph.root node.place ≠ some (.obj members))
    (h : graph.inspectNode setting index = .ok next) : next = graph := by
  unfold SchemaGraph.inspectNode at h
  simp only [hnode] at h
  exact (Except.ok.inj h).symm

/-! ### Nodes that keep a property -/

/-- The tokens and the place of every node are as they should. -/
def Kept (good : List Bytes → Place → Prop) (graph : SchemaGraph) : Prop :=
  ∀ node ∈ graph.nodes, good node.tokens node.place

section Kept

variable {good : List Bytes → Place → Prop}

theorem Kept.addNode (h : Kept good graph) {value : Value} {place : Place} {tokens : List Bytes}
    {depth id : ℕ} (hgood : good tokens place)
    (hadd : graph.addNode value place tokens depth = .ok (id, next)) : Kept good next := by
  obtain ⟨_, -, hadd⟩ := bind_eq_ok.mp hadd
  obtain ⟨_, -, hadd⟩ := bind_eq_ok.mp hadd
  split at hadd
  · cases hadd
    exact h
  · obtain ⟨_, -, hadd⟩ := bind_eq_ok.mp hadd
    cases hadd
    intro node hnode
    rcases List.mem_append.mp hnode with hnode | hnode
    · exact h node hnode
    · rw [List.mem_singleton] at hnode
      rw [hnode]
      exact hgood

theorem Kept.edit (h : Kept good graph) (id : ℕ) {f : SchemaNode → SchemaNode}
    (hf : ∀ node, (f node).tokens = node.tokens ∧ (f node).place = node.place) :
    Kept good (graph.edit id f) := by
  intro node hnode
  obtain ⟨i, hi⟩ := List.getElem?_of_mem hnode
  obtain ⟨old, hold, rfl⟩ := exists_of_edit hi
  have hgood := h old (List.mem_of_getElem? hold)
  by_cases hid : id = i
  · rw [if_pos hid, (hf old).1, (hf old).2]
    exact hgood
  · rw [if_neg hid]
    exact hgood

theorem Kept.enter (h : Kept good graph) {parent : ℕ} {base : SchemaNode} {child : Place × Value}
    (hgood : good (base.tokens ++ tokensOf child.1) (base.place ++ child.1))
    (hstep : Links.enter parent base graph child = .ok next) : Kept good next := by
  obtain ⟨⟨c, middle⟩, hadd, hstep⟩ := bind_eq_ok.mp hstep
  have hedit := (h.addNode hgood hadd).edit parent (f := entered (edgeOfPath child.1) c)
    fun node => ⟨(entered_core _ c node).1, (entered_core _ c node).2.2.2.2⟩
  dsimp only at hstep
  split at hstep
  · cases hstep
    exact hedit
  · cases hstep
    exact hedit

theorem Kept.enterAll {parent : ℕ} {base : SchemaNode}
    (hgood : ∀ path, good (base.tokens ++ tokensOf path) (base.place ++ path))
    (l : List (Place × Value)) : ∀ {graph : SchemaGraph}, Kept good graph →
      l.foldlM (Links.enter parent base) graph = .ok next → Kept good next := by
  induction l with
  | nil =>
    intro graph h hfold
    cases hfold
    exact h
  | cons child l ih =>
    intro graph h hfold
    rw [List.foldlM_cons] at hfold
    obtain ⟨middle, hfirst, hrest⟩ := bind_eq_ok.mp hfold
    exact ih (h.enter (hgood child.1) hfirst) hrest

theorem Kept.followReference (h : Kept good graph) {id : ℕ} {node : SchemaNode} {members : Members}
    (hgood : ∀ reference value place tokens, members.lookup "$ref" = some (.str reference) →
      SchemaGraph.resolveLocalReference graph.root reference = .ok (value, place, tokens) →
        good tokens place)
    (hstep : graph.followReference id node members = .ok next) : Kept good next := by
  unfold SchemaGraph.followReference at hstep
  split at hstep
  · cases hstep
    exact h
  · next reference hlookup =>
    obtain ⟨⟨value, place, tokens⟩, hresolve, hstep⟩ := bind_eq_ok.mp hstep
    obtain ⟨⟨target, middle⟩, hadd, hstep⟩ := bind_eq_ok.mp hstep
    cases hstep
    rw [mapError_eq_ok] at hresolve
    exact (h.addNode (hgood reference value place tokens hlookup hresolve) hadd).edit id
      fun node => ⟨rfl, rfl⟩
  · cases hstep

end Kept

/-! ### The walk -/

/-- The members of the object at a place. -/
def objectAt (document : Value) (place : Place) : Option Members :=
  match get document place with
  | some (.obj members) => some members
  | _ => none

/-- The paths of the first nodes. -/
def pathsTo (document : Value) (places : List Place) (index id : ℕ) (path : Place) : Prop :=
  id < index ∧ ∃ place members, places[id]? = some place ∧
    get document place = some (.obj members) ∧ GrammarChild members path

/-- The references of the first nodes. -/
def refsTo (document : Value) (places : List Place) (index id : ℕ) : Option (List Bytes) :=
  if id < index then (places[id]?.bind (objectAt document)).bind referenceTokens else none

/-- No reference from a location of the graph leads to an array with a signed index behind. -/
def Unsigned (document : Value) : Prop :=
  ∀ place members reference tokens, Reached document place →
    get document place = some (.obj members) → members.lookup "$ref" = some (.str reference) →
    parseLocalPointer reference = .ok tokens → ¬ SignedIndex document tokens

/-- The walk before the node with an index, with the edges of the nodes up to there. -/
structure Tracked (document : Value) (index : ℕ) (graph : SchemaGraph) : Prop where
  walked : Walked document index graph
  root : (places graph)[0]? = some []
  linked : Linked (pathsTo document (places graph) index) (refsTo document (places graph) index) graph
  followed : ∀ place ∈ (places graph).take index, ∀ members value,
    get document place = some (.obj members) → members.lookup "$ref" = some value →
    ∃ reference found target tokens, value = .str reference ∧
      SchemaGraph.resolveLocalReference document reference = .ok (found, target, tokens)
  canonical : Unsigned document → Kept (fun tokens place => tokens = tokensOf place) graph

section Walk

variable {index : ℕ}

theorem objectAt_eq_some {place : Place} {members : Members} :
    objectAt document place = some members ↔ get document place = some (.obj members) := by
  unfold objectAt
  split
  · next others h =>
    rw [h]
    simp
  · next hnot =>
    constructor
    · intro h
      cases h
    · intro h
      exact absurd h (hnot members)

/-- The reference of an object is no text that is rewritten. -/
theorem ref_rewritten {objects : Place → Prop} {place : Place} {old : Members} {value : Value}
    (h : (rewriteMembers (fun q => seals objects (place ++ q)) old).lookup "$ref" = some value) :
    ∃ before, old.lookup "$ref" = some before ∧
      ((∃ reference, value = .str reference) ∨ (∃ reference, before = .str reference) →
        before = value) := by
  obtain ⟨before, hbefore, heq⟩ := lookup_rewritten h
  refine ⟨before, hbefore, ?_⟩
  cases before with
  | str text =>
    intro _
    have hnone : below (fun q => seals objects (place ++ q)) (.key "$ref") [] = none :=
      seals_other (by decide)
    rw [rewrite, hnone] at heq
    exact heq
  | _ =>
    rintro (⟨reference, rfl⟩ | ⟨reference, hreference⟩)
    · cases heq
    · cases hreference

theorem referenceTokens_rewrite {objects : Place → Prop} {place : Place} {old : Members} :
    referenceTokens (rewriteMembers (fun q => seals objects (place ++ q)) old) =
      referenceTokens old := by
  unfold referenceTokens
  rw [rewriteMembers_lookup]
  cases hlookup : old.lookup "$ref" with
  | none => rfl
  | some value =>
    cases value with
    | str text =>
      have hnone : below (fun q => seals objects (place ++ q)) (.key "$ref") [] = none :=
        seals_other (by decide)
      rw [Option.map_some, rewrite, hnone]
      rfl
    | _ => rfl

/-- The paths and the references of nodes that were there before are as they were. -/
theorem pathsTo_append {before added : List Place} (h : index ≤ before.length) (id : ℕ)
    (path : Place) : pathsTo document (before ++ added) index id path ↔
      pathsTo document before index id path := by
  unfold pathsTo
  refine and_congr_right fun hid => ?_
  rw [List.getElem?_append_left (by omega)]

theorem refsTo_append {before added : List Place} (h : index ≤ before.length) (id : ℕ) :
    refsTo document (before ++ added) index id = refsTo document before index id := by
  unfold refsTo
  by_cases hid : id < index
  · rw [if_pos hid, if_pos hid, List.getElem?_append_left (by omega)]
  · rw [if_neg hid, if_neg hid]

/-- One node more: the paths and the reference of its object. -/
theorem pathsTo_succ {before : List Place} {place : Place} (hplace : before[index]? = some place)
    (id : ℕ) (path : Place) : pathsTo document before (index + 1) id path ↔
      pathsTo document before index id path ∨ (id = index ∧ ∃ members,
        objectAt document place = some members ∧ GrammarChild members path) := by
  unfold pathsTo
  simp only [objectAt_eq_some]
  constructor
  · rintro ⟨hid, other, members, hother, hget, hchild⟩
    rcases Nat.lt_or_ge id index with hlt | hge
    · exact .inl ⟨hlt, other, members, hother, hget, hchild⟩
    · have heq : id = index := by omega
      subst heq
      rw [hplace] at hother
      cases hother
      exact .inr ⟨rfl, members, hget, hchild⟩
  · rintro (⟨hid, h⟩ | ⟨rfl, members, hget, hchild⟩)
    · exact ⟨by omega, h⟩
    · exact ⟨by omega, place, members, hplace, hget, hchild⟩

theorem refsTo_succ {before : List Place} {place : Place} (hplace : before[index]? = some place)
    (id : ℕ) : refsTo document before (index + 1) id =
      if id = index then (objectAt document place).bind referenceTokens
      else refsTo document before index id := by
  unfold refsTo
  by_cases hid : id = index
  · rw [if_pos hid, if_pos (by omega), hid, hplace]
    rfl
  · rw [if_neg hid]
    by_cases hlt : id < index
    · rw [if_pos hlt, if_pos (by omega)]
    · rw [if_neg hlt, if_neg (by omega)]

/-- What the walk does at an object of the document: its members are as they were, except for
`$schema`. -/
theorem inspected (hd : distinct document = true) (hwalked : Walked document index graph)
    {node : SchemaNode} (hnode : graph.nodes[index]? = some node) {old : Members}
    (hold : get document node.place = some (.obj old))
    (h : graph.inspectNode setting index = .ok next) : ∃ objects texts followed work,
      SchemaGraph.followReference { graph with root := rewrite texts document } index node
          (rewriteMembers (fun q => seals objects (node.place ++ q)) old) = .ok followed ∧
        (grammarChildren (rewriteMembers (fun q => seals objects (node.place ++ q)) old)).foldlM
          (enter index node) { followed with numericWork := work } = .ok next := by
  have hget : get graph.root node.place = some (.obj (rewriteMembers
      (fun q => seals (fun p => p ∈ (places graph).take index) (node.place ++ q)) old)) := by
    rw [hwalked.root, get_rewrite, hold]
    rfl
  obtain ⟨declared, followed, work, hdeclare, hfollow, henter⟩ := inspectNode_object hnode hget h
  rw [declareSchema_ok hd hwalked.root hget hdeclare] at hfollow
  exact ⟨_, _, followed, work, hfollow, henter⟩

/-- **One node is linked**: to the children of its object, and to the target of its reference. -/
theorem linked_inspectNode (hd : distinct document = true) (hwalked : Walked document index graph)
    (hlinked : Linked (pathsTo document (places graph) index) (refsTo document (places graph) index)
      graph) (hindex : index < graph.nodes.length)
    (h : graph.inspectNode setting index = .ok next) :
    Linked (pathsTo document (places next) (index + 1)) (refsTo document (places next) (index + 1))
      next := by
  have hnode : graph.nodes[index]? = some graph.nodes[index] := List.getElem?_eq_getElem hindex
  obtain ⟨-, hgrows⟩ := inspectNode_ok hd hwalked.located hwalked.root hnode h
  obtain ⟨added, hadded, -⟩ := hgrows.more
  have hplaces : places next = places graph ++ added := hadded
  have hlength : (places graph).length = graph.nodes.length := List.length_map _
  have hplace : (places graph)[index]? = some graph.nodes[index].place := by
    rw [places, List.getElem?_map, hnode]
    rfl
  have hpathsTo : ∀ id path, pathsTo document (places next) (index + 1) id path ↔
      pathsTo document (places graph) index id path ∨ (id = index ∧ ∃ members,
        objectAt document graph.nodes[index].place = some members ∧ GrammarChild members path) := by
    intro id path
    rw [hplaces, pathsTo_append (by omega), pathsTo_succ hplace]
  have hrefsTo : ∀ id, refsTo document (places next) (index + 1) id =
      if id = index then (objectAt document graph.nodes[index].place).bind referenceTokens
      else refsTo document (places graph) index id := by
    intro id
    rw [hplaces, refsTo_append (by omega), refsTo_succ hplace]
  have hnone : refsTo document (places graph) index index = none := if_neg (lt_irrefl _)
  cases hobject : objectAt document graph.nodes[index].place with
  | some old =>
    have hold := objectAt_eq_some.mp hobject
    obtain ⟨objects, texts, followed, work, hfollow, henter⟩ := inspected hd hwalked hnode hold h
    have hdeclared := hlinked.beside { graph with root := rewrite texts document } rfl rfl
    have hrefs : ∀ id, graph.nodes.length ≤ id →
        refsTo document (places graph) index id = none := fun id hid => if_neg (by omega)
    obtain ⟨hfollowed, hmore⟩ := linked_followReference hdeclared hrefs hnone hfollow
    have hself : HasTokens { graph with root := rewrite texts document } index
        graph.nodes[index].tokens := ⟨_, hnode, rfl⟩
    have hbefore : ∀ id, followed.nodes.length ≤ id → (if id = index then referenceTokens
        (rewriteMembers (fun q => seals objects (graph.nodes[index].place ++ q)) old)
        else refsTo document (places graph) index id) = none := by
      intro id hid
      have hmoreLength : graph.nodes.length ≤ followed.nodes.length := hmore.length
      rw [if_neg (by omega)]
      exact hrefs id (by omega)
    obtain ⟨hlast, -⟩ := linked_enterAll _
      (hfollowed.beside { followed with numericWork := work } rfl rfl) hbefore
      (hmore.tokens hself) henter
    refine hlast.congr (fun id path => ?_) fun id => ?_
    · rw [hpathsTo]
      refine or_congr_right (and_congr_right fun _ => ?_)
      have hchildren : (∃ child ∈ grammarChildren (rewriteMembers
          (fun q => seals objects (graph.nodes[index].place ++ q)) old), path = child.1) ↔
            GrammarChild old path := by
        rw [← grammarChild_rewrite, ← mem_grammarChildren]
        constructor
        · rintro ⟨child, hchild, rfl⟩
          exact ⟨child.2, hchild⟩
        · rintro ⟨value, hvalue⟩
          exact ⟨(path, value), hvalue, rfl⟩
      rw [hchildren]
      simp [hobject]
    · rw [hrefsTo, referenceTokens_rewrite, hobject]
      rfl
  | none =>
    have hobj : ∀ members, get document graph.nodes[index].place ≠ some (.obj members) := by
      intro members hmembers
      rw [objectAt_eq_some.mpr hmembers] at hobject
      cases hobject
    have hother : ∀ members, get graph.root graph.nodes[index].place ≠ some (.obj members) := by
      intro members hmembers
      rw [hwalked.root] at hmembers
      obtain ⟨old, hold, -⟩ := get_rewritten_obj hmembers
      exact hobj old hold
    have hsame := inspectNode_other hnode hother h
    have hkept : Linked (pathsTo document (places graph) index)
        (refsTo document (places graph) index) next := by
      rw [hsame]
      exact hlinked
    refine hkept.congr (fun id path => ?_) fun id => ?_
    · rw [hpathsTo, hobject]
      simp
    · rw [hrefsTo, hobject]
      by_cases hid : id = index
      · rw [if_pos hid, hid, hnone]
        rfl
      · rw [if_neg hid]

/-- A reference that is inspected is a string, and is resolved. -/
theorem followed_inspectNode (hd : distinct document = true) (hwalked : Walked document index graph)
    {node : SchemaNode} (hnode : graph.nodes[index]? = some node)
    (h : graph.inspectNode setting index = .ok next) {members : Members} {value : Value}
    (hold : get document node.place = some (.obj members))
    (hvalue : members.lookup "$ref" = some value) :
    ∃ reference found target tokens, value = .str reference ∧
      SchemaGraph.resolveLocalReference document reference = .ok (found, target, tokens) := by
  obtain ⟨objects, texts, followed, work, hfollow, -⟩ := inspected hd hwalked hnode hold h
  have hlookup := lookup_rewrite_some (fun q => seals objects (node.place ++ q)) hvalue
  unfold SchemaGraph.followReference at hfollow
  split at hfollow
  · next hnone =>
    rw [hlookup] at hnone
    cases hnone
  · next reference hreference =>
    obtain ⟨before, hbefore, hsame⟩ := ref_rewritten hreference
    rw [hvalue] at hbefore
    cases hbefore
    obtain ⟨⟨found, target, tokens⟩, hresolve, -⟩ := bind_eq_ok.mp hfollow
    rw [mapError_eq_ok] at hresolve
    obtain ⟨-, old, hresolve⟩ := resolve_rewritten hresolve
    exact ⟨reference, old, target, tokens, hsame (.inl ⟨reference, rfl⟩), hresolve⟩
  · cases hfollow

/-- Without signed indices the tokens of a node are those of its place. -/
theorem canonical_inspectNode (hd : distinct document = true) (hwalked : Walked document index graph)
    (hunsigned : Unsigned document)
    (hcanonical : Kept (fun tokens place => tokens = tokensOf place) graph) {node : SchemaNode}
    (hnode : graph.nodes[index]? = some node) (h : graph.inspectNode setting index = .ok next) :
    Kept (fun tokens place => tokens = tokensOf place) next := by
  have hmem := List.mem_of_getElem? hnode
  cases hobject : objectAt document node.place with
  | some old =>
    have hold := objectAt_eq_some.mp hobject
    have hreached := hwalked.sound node.place (List.mem_map_of_mem hmem)
    obtain ⟨objects, texts, followed, work, hfollow, henter⟩ := inspected hd hwalked hnode hold h
    have hdeclared : Kept (fun tokens place => tokens = tokensOf place)
        { graph with root := rewrite texts document } := hcanonical
    have hfollowed : Kept (fun tokens place => tokens = tokensOf place) followed :=
      hdeclared.followReference
      (fun reference value place tokens hlookup hresolve => by
        obtain ⟨before, hbefore, hsame⟩ := ref_rewritten hlookup
        rw [hsame (.inl ⟨reference, rfl⟩)] at hbefore
        obtain ⟨hleads, found, hresolve⟩ := resolve_rewritten hresolve
        obtain ⟨parsed, hparsed, hrest⟩ := bind_eq_ok.mp hresolve
        have htokens : parsed = tokens := by
          obtain ⟨target, -, hrest⟩ := bind_eq_ok.mp hrest
          split at hrest
          · split_ifs at hrest
            cases hrest
            rfl
          · cases hrest
        rw [htokens] at hparsed
        have hsigned := hunsigned node.place old reference tokens hreached hold hbefore hparsed
        exact (evaluates_of_resolve hleads hsigned).tokens_eq) hfollow
    have hbase : Kept (fun tokens place => tokens = tokensOf place)
        { followed with numericWork := work } := hfollowed
    refine Kept.enterAll (fun path => ?_) _ hbase henter
    rw [hcanonical node hmem, tokensOf, tokensOf, tokensOf, List.map_append]
  | none =>
    have hother : ∀ members, get graph.root node.place ≠ some (.obj members) := by
      intro members hmembers
      rw [hwalked.root] at hmembers
      obtain ⟨old, hold, -⟩ := get_rewritten_obj hmembers
      rw [objectAt_eq_some.mpr hold] at hobject
      cases hobject
    rw [inspectNode_other hnode hother h]
    exact hcanonical

/-- **One node of the walk.** -/
theorem tracked_inspectNode (hd : distinct document = true) (htracked : Tracked document index graph)
    (hindex : index < graph.nodes.length) (h : graph.inspectNode setting index = .ok next) :
    Tracked document (index + 1) next := by
  have hnode : graph.nodes[index]? = some graph.nodes[index] := List.getElem?_eq_getElem hindex
  have hwalked := htracked.walked
  obtain ⟨-, hgrows⟩ := inspectNode_ok hd hwalked.located hwalked.root hnode h
  obtain ⟨added, hadded, -⟩ := hgrows.more
  have hplaces : places next = places graph ++ added := hadded
  have hplace : (places graph)[index]? = some graph.nodes[index].place := by
    rw [places, List.getElem?_map, hnode]
    rfl
  have hlength : (places graph).length = graph.nodes.length := List.length_map _
  have hroot : (places next)[0]? = some [] := by
    rw [hplaces, List.getElem?_append_left (by omega)]
    exact htracked.root
  refine ⟨walked_inspectNode hd hwalked hindex h, hroot, linked_inspectNode hd hwalked
    htracked.linked hindex h, ?_, fun hunsigned => canonical_inspectNode hd hwalked hunsigned
      (htracked.canonical hunsigned) hnode h⟩
  intro place hmem members value hold hvalue
  rw [hplaces, List.take_append_of_le_length (by omega), List.take_add_one, hplace] at hmem
  rcases List.mem_append.mp hmem with hmem | hmem
  · exact htracked.followed place hmem members value hold hvalue
  · simp only [Option.toList_some, List.mem_singleton] at hmem
    rw [hmem] at hold
    exact followed_inspectNode hd hwalked hnode h hold hvalue

end Walk

/-! ### Primary nodes -/

/-- A node before any is marked. -/
def unmark (node : SchemaNode) : SchemaNode := { node with primary := false }

/-- Marking changes nothing else. -/
theorem unmark_markLoop (rounds : ℕ) : ∀ (stack : List ℕ) (nodes : List SchemaNode),
    (SchemaGraph.markLoop rounds stack nodes).map unmark = nodes.map unmark := by
  induction rounds with
  | zero =>
    intro stack nodes
    rfl
  | succ rounds ih =>
    intro stack nodes
    cases stack with
    | nil => rfl
    | cons id stack =>
      unfold SchemaGraph.markLoop
      split
      · exact ih stack nodes
      · next node hnode =>
        by_cases hprimary : node.primary = true
        · rw [if_pos hprimary]
          exact ih stack nodes
        · have hmark : ∀ node : SchemaNode, unmark { node with primary := true } = unmark node :=
            fun _ => rfl
          rw [if_neg hprimary, ih]
          exact map_modify hmark _ _

/-- What is marked is reached, if the stack is. -/
theorem marked_markLoop {R : ℕ → Prop} {below : ℕ → List ℕ}
    (hR : ∀ id, R id → ∀ c ∈ below id, R c) (rounds : ℕ) :
    ∀ (stack : List ℕ) (nodes : List SchemaNode),
      (∀ id node, nodes[id]? = some node → node.grammar = below id ∧ (node.primary = true → R id)) →
      (∀ id ∈ stack, R id) → ∀ id node,
        (SchemaGraph.markLoop rounds stack nodes)[id]? = some node → node.primary = true → R id := by
  induction rounds with
  | zero =>
    intro stack nodes hnodes _ id node hnode
    exact (hnodes id node hnode).2
  | succ rounds ih =>
    intro stack nodes hnodes hstack
    cases stack with
    | nil =>
      intro id node hnode
      exact (hnodes id node hnode).2
    | cons top stack =>
      have hrest : ∀ id ∈ stack, R id := fun id hid => hstack id (List.mem_cons_of_mem _ hid)
      have htop := hstack top List.mem_cons_self
      unfold SchemaGraph.markLoop
      split
      · exact ih stack nodes hnodes hrest
      · next node hnode =>
        by_cases hprimary : node.primary = true
        · rw [if_pos hprimary]
          exact ih stack nodes hnodes hrest
        · rw [if_neg hprimary]
          refine ih _ _ ?_ ?_
          · intro id other hother
            rw [List.getElem?_modify] at hother
            obtain ⟨old, hold, rfl⟩ := Option.map_eq_some_iff.mp hother
            by_cases hid : top = id
            · subst hid
              rw [if_pos rfl]
              exact ⟨(hnodes top old hold).1, fun _ => htop⟩
            · rw [if_neg hid]
              exact hnodes id old hold
          · intro id hid
            rcases List.mem_append.mp hid with hid | hid
            · refine hR top htop id ?_
              rw [← (hnodes top node hnode).1]
              exact List.mem_reverse.mp hid
            · exact hrest id hid

/-! ### The whole preparation -/

/-- What is prepared before the costs are looked at. -/
def built (setting : Setting) (limits : CompileLimits) (document : Value) :
    Except Refusal SchemaGraph := do
  refuseIf (limits.valid = false) (.message "JSON Schema compile limits must be positive")
  let frozen ← cloneJSON document
  refuseIf (isSchemaValue frozen = false)
    (.message "JSON Schema root must be an object or boolean")
  let (_, graph) ← SchemaGraph.addNode ⟨frozen, limits, [], [], 0, false⟩ frozen [] [] 1
  let graph ← graph.inspectAll setting limits.maxSchemaNodes 0
  requireLimit "numeric compile work" graph.markPrimaryNodes.numericWork
    limits.maxNumericCompileWorkUnits
  graph.markPrimaryNodes.validateMetaschema setting

/-- A graph that is built, from the walk that it was. -/
structure Built (setting : Setting) (limits : CompileLimits) (document : Document)
    (walk graph : SchemaGraph) : Prop where
  tracked : Tracked document.1 (places walk).length walk
  limits_eq : walk.limits = limits
  marked : graph = { walk.markPrimaryNodes with metaschemaValid := true }
  validated : setting.metaschema graph.metaRoots = .valid

section Whole

variable {limits : CompileLimits} {document : Document} {walk : SchemaGraph}

theorem prepareWithLimits_eq (setting : Setting) (limits : CompileLimits) (document : Value) :
    prepareWithLimits setting limits document = (do
      let graph ← built setting limits document
      graph.checkSameInstanceExpansion
      .ok graph) := by
  simp only [prepareWithLimits, built, bind_assoc]

/-- The walk starts at the root. -/
theorem tracked_first {id : ℕ} {first : SchemaGraph}
    (h : SchemaGraph.addNode ⟨document.1, limits, [], [], 0, false⟩ document.1 [] [] 1 =
      .ok (id, first)) : Tracked document.1 0 first ∧ first.limits = limits := by
  obtain ⟨hwalked, hlimits⟩ := walked_first h
  have hempty : Linked (pathsTo document.1 (places first) 0) (refsTo document.1 (places first) 0)
      ⟨document.1, limits, [], [], 0, false⟩ := by
    refine ⟨by simp, by simp, by simp, ?_, by simp, by simp, by simp, by simp, by simp, by simp⟩
    rintro id path ⟨hid, -⟩
    exact absurd hid (Nat.not_lt_zero _)
  have hnone : ∀ id, refsTo document.1 (places first) 0 id = none := fun id =>
    if_neg (Nat.not_lt_zero _)
  obtain ⟨hlinked, -⟩ := hempty.addNode (fun id _ => hnone id) h
  have hroot : (places first)[0]? = some [] := by
    rcases addNode_cases (by simp) h with ⟨-, node, hnode, -⟩ | ⟨-, -, rfl⟩
    · cases hnode
    · rfl
  refine ⟨⟨hwalked, hroot, hlinked, by simp, fun _ => ?_⟩, hlimits⟩
  have hkept : Kept (fun tokens place => tokens = tokensOf place)
      ⟨document.1, limits, [], [], 0, false⟩ := by simp [Kept]
  exact hkept.addNode rfl h

theorem built_ok (h : built setting limits document.1 = .ok graph) :
    ∃ walk, Built setting limits document walk graph := by
  obtain ⟨_, -, h⟩ := bind_eq_ok.mp h
  obtain ⟨frozen, hclone, h⟩ := bind_eq_ok.mp h
  obtain ⟨_, -, h⟩ := bind_eq_ok.mp h
  obtain ⟨⟨id, first⟩, hfirst, h⟩ := bind_eq_ok.mp h
  obtain ⟨walk, hwalk, h⟩ := bind_eq_ok.mp h
  obtain ⟨_, -, h⟩ := bind_eq_ok.mp h
  rw [(cloneJSON_ok hclone).1] at hfirst
  obtain ⟨hstart, hlimits⟩ := tracked_first hfirst
  obtain ⟨htracked, hsame⟩ := inspectAll_run document.2 Tracked.walked
    (tracked_inspectNode document.2) limits.maxSchemaNodes hstart (by rw [hlimits]; omega) hwalk
  unfold SchemaGraph.validateMetaschema at h
  split at h
  · next hvalidated =>
    cases h
    exact ⟨walk, htracked, hsame.trans hlimits, rfl, hvalidated⟩
  · cases h
  · cases h

theorem built_of_prepare (h : prepareWithLimits setting limits document.1 = .ok graph) :
    ∃ walk, Built setting limits document walk graph := by
  rw [prepareWithLimits_eq] at h
  obtain ⟨other, hbuilt, h⟩ := bind_eq_ok.mp h
  obtain ⟨_, -, h⟩ := bind_eq_ok.mp h
  cases h
  exact built_ok hbuilt

theorem eq_of_unmark {node old : SchemaNode} (h : unmark old = unmark node) :
    node = { old with primary := node.primary } := by
  cases node
  cases old
  simp only [unmark, SchemaNode.mk.injEq] at h ⊢
  obtain ⟨rfl, rfl, rfl, rfl, rfl, rfl, -, rfl, rfl⟩ := h
  exact ⟨rfl, rfl, rfl, rfl, rfl, rfl, trivial, rfl, rfl⟩

theorem Built.unmarked (h : Built setting limits document walk graph) :
    graph.nodes.map unmark = walk.nodes.map unmark := by
  rw [h.marked]
  exact unmark_markLoop _ _ _

/-- A node is what it was in the walk, but for the mark. -/
theorem Built.node (h : Built setting limits document walk graph) {id : ℕ} {node : SchemaNode}
    (hnode : graph.nodes[id]? = some node) :
    ∃ old, walk.nodes[id]? = some old ∧ node = { old with primary := node.primary } := by
  have hget : (walk.nodes.map unmark)[id]? = some (unmark node) := by
    rw [← h.unmarked, List.getElem?_map, hnode]
    rfl
  rw [List.getElem?_map, Option.map_eq_some_iff] at hget
  obtain ⟨old, hold, heq⟩ := hget
  exact ⟨old, hold, eq_of_unmark heq⟩

theorem Built.was (h : Built setting limits document walk graph) {id : ℕ} {old : SchemaNode}
    (hold : walk.nodes[id]? = some old) :
    ∃ node, graph.nodes[id]? = some node ∧ node = { old with primary := node.primary } := by
  have hget : (graph.nodes.map unmark)[id]? = some (unmark old) := by
    rw [h.unmarked, List.getElem?_map, hold]
    rfl
  rw [List.getElem?_map, Option.map_eq_some_iff] at hget
  obtain ⟨node, hnode, heq⟩ := hget
  exact ⟨node, hnode, eq_of_unmark heq.symm⟩

theorem Built.places_eq (h : Built setting limits document walk graph) :
    places graph = places walk := by
  have hplaces := congrArg (List.map SchemaNode.place) h.unmarked
  rw [List.map_map, List.map_map] at hplaces
  exact hplaces

/-- The tokens of a node lead to its place. -/
theorem Built.place_of_tokens (h : Built setting limits document walk graph) {c : ℕ}
    {tokens : List Bytes} {place : Place} (htokens : HasTokens walk c tokens)
    (hleads : resolveTokens document.1 tokens = .ok place) : (places graph)[c]? = some place := by
  obtain ⟨node, hnode, rfl⟩ := htokens
  have hplace := h.tracked.walked.located.leads node (List.mem_of_getElem? hnode)
  rw [hleads] at hplace
  rw [h.places_eq, places, List.getElem?_map, hnode, Except.ok.inj hplace]
  rfl

/-- A child of the grammar is there. -/
theorem found_of_grammarChild {members : Members} {path : Place} (h : GrammarChild members path) :
    ∃ found, get (.obj members) path = some found := by
  cases h with
  | single _ h => exact ⟨_, (get_key _ _).trans h⟩
  | listed _ h hi => exact ⟨_, get_two h (List.getElem?_eq_getElem hi)⟩
  | tuple h hi => exact ⟨_, get_two h (List.getElem?_eq_getElem hi)⟩
  | items h _ => exact ⟨_, (get_key _ _).trans h⟩
  | named _ h hname =>
    obtain ⟨value, hvalue⟩ := exists_lookup hname
    exact ⟨value, get_two h hvalue⟩
  | dependency h hmem _ =>
    obtain ⟨value, hvalue⟩ := exists_lookup (List.mem_map_of_mem hmem)
    exact ⟨value, get_two h hvalue⟩

/-- The place of a node in the walk. -/
theorem Built.place_of_node (h : Built setting limits document walk graph) {id : ℕ}
    {old : SchemaNode} (hold : walk.nodes[id]? = some old) :
    (places walk)[id]? = some old.place ∧ resolveTokens document.1 old.tokens = .ok old.place := by
  refine ⟨?_, h.tracked.walked.located.leads old (List.mem_of_getElem? hold)⟩
  rw [places, List.getElem?_map, hold]
  rfl

/-- **The grammar children of a node** are the nodes at the locations that its grammar has. -/
theorem Built.grammar (h : Built setting limits document walk graph) {id : ℕ} {node : SchemaNode}
    (hnode : graph.nodes[id]? = some node) (edge : SchemaGraph.Edge) (c : ℕ) :
    c ∈ children node edge ↔ ∃ members path, get document.1 node.place = some (.obj members) ∧
      GrammarChild members path ∧ Picks edge path ∧
        HasTokens walk c (node.tokens ++ tokensOf path) := by
  obtain ⟨old, hold, heq⟩ := h.node hnode
  have hplace := (h.place_of_node hold).1
  have hlt : id < (places walk).length := (List.getElem?_eq_some_iff.mp hplace).1
  have hchildren : children node edge = children old edge := by
    rw [heq]
    cases edge <;> rfl
  have hnodePlace : node.place = old.place := by rw [heq]
  have htokens : node.tokens = old.tokens := by rw [heq]
  rw [hchildren, h.tracked.linked.child id old hold edge c, hnodePlace, htokens]
  constructor
  · rintro ⟨path, ⟨-, place, members, hplace', hget, hchild⟩, hpicks, hc⟩
    rw [hplace] at hplace'
    cases hplace'
    exact ⟨members, path, hget, hchild, hpicks, hc⟩
  · rintro ⟨members, path, hget, hchild, hpicks, hc⟩
    exact ⟨path, ⟨hlt, _, members, hplace, hget, hchild⟩, hpicks, hc⟩

/-- The tokens of a child lead below the place of its parent. -/
theorem Built.below (h : Built setting limits document walk graph) {id : ℕ} {node : SchemaNode}
    (hnode : graph.nodes[id]? = some node) {members : Members} {path : Place}
    (hget : get document.1 node.place = some (.obj members)) (hchild : GrammarChild members path) :
    resolveTokens document.1 (node.tokens ++ tokensOf path) = .ok (node.place ++ path) := by
  obtain ⟨old, hold, heq⟩ := h.node hnode
  have hleads := (h.place_of_node hold).2
  obtain ⟨found, hfound⟩ := found_of_grammarChild hchild
  have hnodePlace : node.place = old.place := by rw [heq]
  have htokens : node.tokens = old.tokens := by rw [heq]
  rw [hnodePlace] at hget
  rw [htokens, hnodePlace, resolve_append hleads hget, resolve_tokensOf hfound]
  rfl

/-- The children in a list of a node are the nodes at the locations that its grammar has there. -/
theorem Built.edge_places (h : Built setting limits document walk graph) {id : ℕ}
    {node : SchemaNode} (hnode : graph.nodes[id]? = some node) (edge : SchemaGraph.Edge)
    (place : Place) : (∃ members path, get document.1 node.place = some (.obj members) ∧
      GrammarChild members path ∧ Picks edge path ∧ place = node.place ++ path) ↔
        ∃ c ∈ children node edge, (places graph)[c]? = some place := by
  have hgrammar := h.grammar hnode edge
  constructor
  · rintro ⟨members, path, hget, hchild, hpicks, rfl⟩
    obtain ⟨old, hold, heq⟩ := h.node hnode
    have hplace := (h.place_of_node hold).1
    have hlt : id < (places walk).length := (List.getElem?_eq_some_iff.mp hplace).1
    have hnodePlace : node.place = old.place := by rw [heq]
    have htokens : node.tokens = old.tokens := by rw [heq]
    have hget' := hget
    rw [hnodePlace] at hget'
    obtain ⟨c, hc⟩ := h.tracked.linked.total id old path hold
      ⟨hlt, _, members, hplace, hget', hchild⟩
    rw [← htokens] at hc
    refine ⟨c, (hgrammar c).mpr ⟨members, path, hget, hchild, hpicks, hc⟩, ?_⟩
    exact h.place_of_tokens hc (h.below hnode hget hchild)
  · rintro ⟨c, hc, hplace⟩
    obtain ⟨members, path, hget, hchild, hpicks, htokens⟩ := (hgrammar c).mp hc
    have hother := h.place_of_tokens htokens (h.below hnode hget hchild)
    rw [hplace] at hother
    exact ⟨members, path, hget, hchild, hpicks, Option.some.inj hother⟩

theorem Built.grammar_edge (h : Built setting limits document walk graph) {id : ℕ}
    {node : SchemaNode} (hnode : graph.nodes[id]? = some node) (place : Place) :
    GrammarEdge document.1 node.place place ↔
      ∃ c ∈ node.grammar, (places graph)[c]? = some place := by
  refine Iff.trans ?_ (h.edge_places hnode .plain place)
  constructor
  · rintro ⟨members, path, hget, hchild, heq⟩
    exact ⟨members, path, hget, hchild, .inl rfl, heq⟩
  · rintro ⟨members, path, hget, hchild, -, heq⟩
    exact ⟨members, path, hget, hchild, heq⟩

/-- The children of a node are at different locations. -/
theorem Built.child_inj (h : Built setting limits document walk graph) {id : ℕ}
    {node : SchemaNode} (hnode : graph.nodes[id]? = some node) {edge : SchemaGraph.Edge} {c c' : ℕ}
    (hc : c ∈ children node edge) (hc' : c' ∈ children node edge) {place : Place}
    (hplace : (places graph)[c]? = some place) (hplace' : (places graph)[c']? = some place) :
    c = c' := by
  obtain ⟨members, path, hget, hchild, -, htokens⟩ := (h.grammar hnode edge c).mp hc
  obtain ⟨others, path', hget', hchild', -, htokens'⟩ := (h.grammar hnode edge c').mp hc'
  have hsame := h.place_of_tokens htokens (h.below hnode hget hchild)
  have hsame' := h.place_of_tokens htokens' (h.below hnode hget' hchild')
  rw [hplace] at hsame
  rw [hplace'] at hsame'
  have hpath : path = path' :=
    List.append_cancel_left ((Option.some.inj hsame).symm.trans (Option.some.inj hsame'))
  rw [← hpath] at htokens'
  exact HasTokens.eq h.tracked.linked.unique htokens htokens'

/-- **The reference of a node** is a string that is resolved, and its target a node. -/
theorem Built.reference (h : Built setting limits document walk graph) {id : ℕ} {node : SchemaNode}
    (hnode : graph.nodes[id]? = some node) {members : Members} {value : Value}
    (hget : get document.1 node.place = some (.obj members))
    (hvalue : members.lookup "$ref" = some value) :
    ∃ reference tokens place t, value = .str reference ∧ parseLocalPointer reference = .ok tokens ∧
      resolveTokens document.1 tokens = .ok place ∧ RefEdge document.1 node.place place ∧
        node.ref = some t ∧ (places graph)[t]? = some place := by
  obtain ⟨old, hold, heq⟩ := h.node hnode
  have hplace := (h.place_of_node hold).1
  have hlt : id < (places walk).length := (List.getElem?_eq_some_iff.mp hplace).1
  have hnodePlace : node.place = old.place := by rw [heq]
  have href : node.ref = old.ref := by rw [heq]
  rw [hnodePlace] at hget
  have hmem : old.place ∈ (places walk).take (places walk).length := by
    rw [List.take_length]
    exact List.mem_of_getElem? hplace
  obtain ⟨reference, found, target, tokens, rfl, hresolve⟩ :=
    h.tracked.followed old.place hmem members value hget hvalue
  have hedge : RefEdge document.1 node.place target := by
    rw [hnodePlace]
    exact ⟨members, reference, found, tokens, hget, hvalue, hresolve⟩
  obtain ⟨parsed, hparsed, hresolve⟩ := bind_eq_ok.mp hresolve
  obtain ⟨place, hleads, hresolve⟩ := bind_eq_ok.mp hresolve
  have htarget : place = target := by
    split at hresolve
    · split_ifs at hresolve
      cases hresolve
      rfl
    · cases hresolve
  rw [← htarget] at hedge
  have hrefs : refsTo document.1 (places walk) (places walk).length id = some parsed := by
    rw [refsTo, if_pos hlt, hplace, Option.bind_some, objectAt_eq_some.mpr hget, Option.bind_some,
      referenceTokens, hvalue]
    dsimp only
    rw [hparsed]
    rfl
  obtain ⟨t, ht, htokens⟩ := h.tracked.linked.target id old parsed hold hrefs
  exact ⟨reference, parsed, place, t, rfl, hparsed, hleads, hedge, href.trans ht,
    h.place_of_tokens htokens hleads⟩

/-- What is primary is below the root. -/
theorem Built.primary (h : Built setting limits document walk graph) {id : ℕ} {node : SchemaNode}
    (hnode : graph.nodes[id]? = some node) (hprimary : node.primary = true) :
    Structural document.1 node.place := by
  have hplace : ∀ {id : ℕ} {node : SchemaNode}, graph.nodes[id]? = some node →
      (places graph)[id]? = some node.place := by
    intro id node hnode
    rw [places, List.getElem?_map, hnode]
    rfl
  let R : ℕ → Prop := fun id => ∀ place, (places graph)[id]? = some place →
    Structural document.1 place
  let below : ℕ → List ℕ := fun id => (graph.nodes[id]?.map SchemaNode.grammar).getD []
  have hR : ∀ id, R id → ∀ c ∈ below id, R c := by
    intro id hid c hc place hcplace
    cases hparent : graph.nodes[id]? with
    | none => simp [below, hparent] at hc
    | some parent =>
      have hmem : c ∈ parent.grammar := by simpa [below, hparent] using hc
      exact (hid parent.place (hplace hparent)).tail
        ((h.grammar_edge hparent place).mpr ⟨c, hmem, hcplace⟩)
  have hnodes : ∀ id old, walk.nodes[id]? = some old →
      old.grammar = below id ∧ (old.primary = true → R id) := by
    intro id old hold
    obtain ⟨node, hnode, heq⟩ := h.was hold
    refine ⟨?_, fun hmarked => ?_⟩
    · simp only [below, hnode, Option.map_some, Option.getD_some]
      rw [heq]
    · rw [h.tracked.linked.fresh old (List.mem_of_getElem? hold)] at hmarked
      cases hmarked
  have hstack : ∀ id ∈ [0], R id := by
    intro id hid place hget
    rw [List.mem_singleton] at hid
    rw [hid, h.places_eq, h.tracked.root] at hget
    cases hget
    exact .refl
  have hmarked : graph.nodes = SchemaGraph.markLoop
      (1 + (walk.nodes.map fun node => node.grammar.length).sum) [0] walk.nodes := by
    rw [h.marked]
    rfl
  have hnode' := hnode
  rw [hmarked] at hnode'
  exact marked_markLoop hR _ _ _ hnodes hstack id node hnode' hprimary node.place (hplace hnode)

/-- **Every node is below a value that is validated**: the root, or one in `metaRoots`. -/
theorem Built.covered (h : Built setting limits document walk graph) {id : ℕ} {node : SchemaNode}
    (hnode : graph.nodes[id]? = some node) :
    ∃ root value, root ∈ places graph ∧ get graph.root root = some value ∧
      value ∈ graph.metaRoots ∧ Relation.ReflTransGen (GrammarEdge document.1) root node.place := by
  -- Up the first parents, whose tokens are fewer, to one that is primary or a meta root.
  induction hsize : node.tokens.length using Nat.strong_induction_on generalizing id node with
  | h size ih =>
  obtain ⟨old, hold, heq⟩ := h.node hnode
  have hplace : node.place ∈ places graph := List.mem_map_of_mem (List.mem_of_getElem? hnode)
  by_cases hprimary : node.primary = true
  · refine ⟨[], graph.root, ?_, rfl, List.mem_cons_self, h.primary hnode hprimary⟩
    rw [h.places_eq]
    exact List.mem_of_getElem? h.tracked.root
  by_cases hmeta : graph.metaRoot id node = true
  · have hleads := (h.place_of_node hold).2
    obtain ⟨found, hfound⟩ := get_of_resolve hleads
    have hnodePlace : node.place = old.place := by rw [heq]
    have hget : get graph.root node.place = some (rewrite (fun q => seals (fun p => p ∈
        (places walk).take (places walk).length) (node.place ++ q)) found) := by
      have hroot : graph.root = walk.root := by rw [h.marked]; rfl
      rw [hroot, h.tracked.walked.root, get_rewrite, hnodePlace, hfound]
      rfl
    refine ⟨node.place, _, hplace, hget, List.mem_cons_of_mem _ ?_, .refl⟩
    refine List.mem_filterMap.mpr ⟨(node, id), List.mem_filter.mpr ⟨?_, hmeta⟩, hget⟩
    exact List.mem_zipIdx_iff_getElem?.mpr hnode
  · have hparent : ∃ parent, graph.grammarParent.lookup id = some parent := by
      cases hlookup : graph.grammarParent.lookup id with
      | some parent => exact ⟨parent, rfl⟩
      | none =>
        refine absurd ?_ hmeta
        rw [SchemaGraph.metaRoot, hlookup]
        simpa using hprimary
    obtain ⟨parent, hparent⟩ := hparent
    have hentry : (id, parent) ∈ walk.grammarParent := by
      have hsame : graph.grammarParent = walk.grammarParent := by rw [h.marked]; rfl
      rw [← hsame]
      obtain ⟨before, after, hsplit, -⟩ := List.lookup_eq_some_iff.mp hparent
      rw [hsplit]
      exact List.mem_append_right before List.mem_cons_self
    obtain ⟨pold, hpold, hmem⟩ := h.tracked.linked.parents _ hentry
    obtain ⟨pnode, hpnode, hpeq⟩ := h.was hpold
    have hgrammar : id ∈ children pnode .plain := by
      rw [hpeq]
      exact hmem
    obtain ⟨members, path, hget, hchild, -, other, hother, htokens⟩ := (h.grammar hpnode .plain id).mp
      hgrammar
    rw [hold] at hother
    cases hother
    have hnodeTokens : node.tokens = pnode.tokens ++ tokensOf path := by
      rw [heq]
      exact htokens
    have hshorter : pnode.tokens.length < size := by
      rw [← hsize, hnodeTokens, List.length_append]
      cases hchild <;> simp [tokensOf]
    obtain ⟨root, value, hroot, hvalue, hin, hpath⟩ := ih _ hshorter hpnode rfl
    refine ⟨root, value, hroot, hvalue, hin, hpath.tail ⟨members, path, hget, hchild, ?_⟩⟩
    have hleads := (h.place_of_node hold).2
    have hbelow := h.below hpnode hget hchild
    rw [← hnodeTokens] at hbelow
    have hnodePlace : node.place = old.place := by rw [heq]
    have hsameTokens : node.tokens = old.tokens := by rw [heq]
    rw [hsameTokens, hleads] at hbelow
    rw [hnodePlace]
    exact Except.ok.inj hbelow

/-- What a prepared graph is to be: the locations of the document one for one, closed under the
grammar and under references, which are pointers of the standard, and each below a value that the
metaschema was asked about. -/
structure WellFormed (setting : Setting) (limits : CompileLimits) (document : Document)
    (graph : SchemaGraph) : Prop where
  grammar : ∀ (id : ℕ) (node : SchemaNode), graph.nodes[id]? = some node → ∀ place,
    GrammarEdge document.1 node.place place ↔ ∃ c ∈ node.grammar, (places graph)[c]? = some place
  reference : ∀ (id : ℕ) (node : SchemaNode) members value, graph.nodes[id]? = some node →
    get document.1 node.place = some (.obj members) → members.lookup "$ref" = some value →
    ∃ reference place t, value = .str reference ∧ Locates document.1 reference place ∧
      node.ref = some t ∧ (places graph)[t]? = some place
  single : (places graph).Nodup
  validated : setting.metaschema graph.metaRoots = .valid
  covered : ∀ place ∈ places graph, ∃ root value, root ∈ places graph ∧
    get graph.root root = some value ∧ value ∈ graph.metaRoots ∧
      Relation.ReflTransGen (GrammarEdge document.1) root place
  bounded : graph.nodes.length ≤ limits.maxSchemaNodes

/-- A pointer that the standard evaluates is located by its reference. -/
theorem locates_of_resolve {reference : String} {tokens : List Bytes} {place : Place}
    (hparse : parseLocalPointer reference = .ok tokens)
    (hleads : resolveTokens document.1 tokens = .ok place)
    (hsigned : ¬ SignedIndex document.1 tokens) : Locates document.1 reference place := by
  obtain ⟨fragment, hbytes, hfragment⟩ := parseLocalPointer_ok hparse
  exact ⟨fragment, tokens, hbytes, hfragment, evaluates_of_resolve hleads hsigned⟩

/-- Without signed indices no two nodes have one place. -/
theorem Built.single (h : Built setting limits document walk graph)
    (hunsigned : Unsigned document.1) : (places graph).Nodup := by
  have hcanonical := h.tracked.canonical hunsigned
  have htokens : walk.nodes.map SchemaNode.tokens = (places walk).map tokensOf := by
    rw [places, List.map_map]
    exact List.map_congr_left fun node hnode => hcanonical node hnode
  have hunique := h.tracked.linked.unique
  rw [htokens] at hunique
  rw [h.places_eq]
  exact hunique.of_map

/-- The nodes of a prepared graph are at the locations that are reached. -/
theorem mem_places_iff (h : prepareWithLimits setting limits document.1 = .ok graph)
    (place : Place) : place ∈ places graph ↔ Reached document.1 place := by
  obtain ⟨walk, hbuilt⟩ := built_of_prepare h
  rw [hbuilt.places_eq]
  exact hbuilt.tracked.walked.places_iff place

/-- Where no token of a reference has a sign, no reference has a signed index. -/
theorem unsigned_of_tokens (h : prepareWithLimits setting limits document.1 = .ok graph)
    (hsigns : ∀ place ∈ places graph, ∀ tokens,
      (objectAt document.1 place).bind referenceTokens = some tokens →
        ∀ token ∈ tokens, ¬ Signed token) : Unsigned document.1 := by
  intro place members reference tokens hplace hget hlookup hparse hsigned
  obtain ⟨before, token, after, target, items, hsplit, -, -, hsign⟩ := hsigned
  have htokens : referenceTokens members = some tokens := by
    rw [referenceTokens, hlookup]
    show (parseLocalPointer reference).toOption = some tokens
    rw [hparse]
    rfl
  have hobject : (objectAt document.1 place).bind referenceTokens = some tokens := by
    rw [objectAt_eq_some.mpr hget]
    exact htokens
  have hmem : token ∈ tokens := by
    rw [hsplit]
    simp
  exact hsigns place ((mem_places_iff h place).mpr hplace) tokens hobject token hmem hsign

/-- **The closure is well formed, when and only when no reference has a signed index.** -/
theorem prepared_wellFormed_iff (h : prepareWithLimits setting limits document.1 = .ok graph) :
    WellFormed setting limits document graph ↔ Unsigned document.1 := by
  obtain ⟨walk, hbuilt⟩ := built_of_prepare h
  have hnode : ∀ place ∈ places graph, ∃ (id : ℕ) (node : SchemaNode),
      graph.nodes[id]? = some node ∧ node.place = place := by
    intro place hplace
    obtain ⟨node, hmem, rfl⟩ := List.mem_map.mp hplace
    obtain ⟨id, hid⟩ := List.getElem?_of_mem hmem
    exact ⟨id, node, hid, rfl⟩
  have hreached := mem_places_iff h
  constructor
  · intro hformed place members reference tokens hplace hget hlookup hparse
    obtain ⟨id, node, hid, rfl⟩ := hnode place ((hreached place).mpr hplace)
    obtain ⟨text, target, t, heq, hlocates, -⟩ :=
      hformed.reference id node members _ hid hget hlookup
    cases heq
    exact (evaluates_of_locates hparse hlocates).not_signed
  · intro hunsigned
    refine ⟨fun id node hid => hbuilt.grammar_edge hid, ?_, hbuilt.single hunsigned,
      hbuilt.validated, ?_, ?_⟩
    · intro id node members value hid hget hvalue
      obtain ⟨reference, tokens, place, t, rfl, hparse, hleads, -, ht, hplace⟩ :=
        hbuilt.reference hid hget hvalue
      have hmem : node.place ∈ places graph := List.mem_map_of_mem (List.mem_of_getElem? hid)
      have hsigned := hunsigned node.place members reference tokens ((hreached _).mp hmem) hget
        hvalue hparse
      exact ⟨reference, place, t, rfl, locates_of_resolve hparse hleads hsigned, ht, hplace⟩
    · intro place hplace
      obtain ⟨id, node, hid, rfl⟩ := hnode place hplace
      exact hbuilt.covered hid
    · have hlength : graph.nodes.length = walk.nodes.length := by
        have hmap := congrArg List.length hbuilt.places_eq
        rwa [places, places, List.length_map, List.length_map] at hmap
      rw [hlength, ← hbuilt.limits_eq]
      exact hbuilt.tracked.walked.located.bounded

end Whole

/-- A document with children of several keywords, and references along which it contains itself. -/
def branching : Document :=
  ⟨.obj [("allOf", .arr [.obj [("$ref", .str "#/definitions/a")]]),
    ("definitions", .obj [("a", .obj [("properties", .obj [("x", .obj [("$ref", .str "#")])])])]),
    ("if", .obj [("type", .str "string")]),
    ("then", .obj [("$ref", .str "#/allOf/0")])], by decide +kernel⟩

/-- Its nodes, in the order in which they are found. -/
def branchingPlaces : List Place :=
  [[], [.key "if"], [.key "then"], [.key "allOf", .index 0], [.key "definitions", .key "a"],
    [.key "definitions", .key "a", .key "properties", .key "x"]]

theorem node_of_lists {graph : SchemaGraph} {id : ℕ} {place : Place} {grammar : List ℕ}
    {ref : Option ℕ} (hplace : (places graph)[id]? = some place)
    (hgrammar : (graph.nodes.map SchemaNode.grammar)[id]? = some grammar)
    (href : (graph.nodes.map SchemaNode.ref)[id]? = some ref) :
    ∃ node, graph.nodes[id]? = some node ∧ node.place = place ∧ node.grammar = grammar ∧
      node.ref = ref := by
  rw [places, List.getElem?_map, Option.map_eq_some_iff] at hplace
  obtain ⟨node, hnode, rfl⟩ := hplace
  rw [List.getElem?_map, hnode] at hgrammar href
  exact ⟨node, hnode, rfl, Option.some.inj hgrammar, Option.some.inj href⟩

/-- `prepared_wellFormed_iff` at a document with references: no token has a sign, so the closure is
well formed. Its root has four children, and a reference with an index leads to one of them. -/
theorem prepared_wellFormed_branching : ∃ graph,
    prepareWithLimits lenient defaultCompileLimits branching.1 = .ok graph ∧
      places graph = branchingPlaces ∧ Unsigned branching.1 ∧
      WellFormed lenient defaultCompileLimits branching graph ∧
      GrammarEdge branching.1 [] [.key "definitions", .key "a"] ∧
      (∃ node t, graph.nodes[2]? = some node ∧ node.ref = some t ∧
        Locates branching.1 "#/allOf/0" [.key "allOf", .index 0] ∧
          (places graph)[t]? = some [.key "allOf", .index 0]) := by
  have haccepted : ((prepareWithLimits lenient defaultCompileLimits branching.1).toOption.map
      fun graph => (places graph, graph.nodes.map SchemaNode.grammar, graph.nodes.map SchemaNode.ref))
      = some (branchingPlaces, [[1, 2, 3, 4], [], [], [], [5], []],
        [none, none, some 3, some 4, none, some 0]) := by
    decide +kernel
  have hsigns : ∀ place ∈ branchingPlaces, ∀ tokens,
      (objectAt branching.1 place).bind referenceTokens = some tokens →
        ∀ token ∈ tokens, token.head? ≠ some '+'.toUInt8 ∧ token.head? ≠ some '-'.toUInt8 := by
    decide +kernel
  cases hprepare : prepareWithLimits lenient defaultCompileLimits branching.1 with
  | error err =>
    rw [hprepare] at haccepted
    cases haccepted
  | ok graph =>
    rw [hprepare] at haccepted
    obtain ⟨hplaces, hgrammar, hrefs⟩ : places graph = branchingPlaces ∧
        graph.nodes.map SchemaNode.grammar = [[1, 2, 3, 4], [], [], [], [5], []] ∧
        graph.nodes.map SchemaNode.ref = [none, none, some 3, some 4, none, some 0] := by
      have hpair := Option.some.inj haccepted
      exact ⟨congrArg Prod.fst hpair, congrArg (Prod.fst ∘ Prod.snd) hpair,
        congrArg (Prod.snd ∘ Prod.snd) hpair⟩
    have hunsigned : Unsigned branching.1 := by
      refine unsigned_of_tokens hprepare ?_
      rw [hplaces]
      intro place hplace tokens htokens token htoken hsign
      obtain ⟨hplus, hminus⟩ := hsigns place hplace tokens htokens token htoken
      exact hsign.elim hplus hminus
    have hformed := (prepared_wellFormed_iff hprepare).mpr hunsigned
    refine ⟨graph, rfl, hplaces, hunsigned, hformed, ?_, ?_⟩
    · have hplace : (places graph)[0]? = some [] := by rw [hplaces]; rfl
      have hchildren : (graph.nodes.map SchemaNode.grammar)[0]? = some [1, 2, 3, 4] := by
        rw [hgrammar]
        rfl
      obtain ⟨root, hroot, hplace, hchildren, -⟩ := node_of_lists hplace hchildren
        (by rw [hrefs]; rfl)
      have hedge := (hformed.grammar 0 root hroot [.key "definitions", .key "a"]).mpr
        ⟨4, by rw [hchildren]; decide, by rw [hplaces]; rfl⟩
      rwa [hplace] at hedge
    · have hplace : (places graph)[2]? = some [.key "then"] := by rw [hplaces]; rfl
      have href : (graph.nodes.map SchemaNode.ref)[2]? = some (some 3) := by rw [hrefs]; rfl
      obtain ⟨node, hnode, hplace, -, href⟩ := node_of_lists hplace (by rw [hgrammar]; rfl) href
      obtain ⟨reference, place, t, heq, hlocates, ht, hat⟩ := hformed.reference 2 node
        [("$ref", .str "#/allOf/0")] (.str "#/allOf/0") hnode (by rw [hplace]; rfl) (by rfl)
      cases heq
      have hthird : t = 3 := Option.some.inj (ht.symm.trans href)
      have htarget : place = [.key "allOf", .index 0] := by
        rw [hthird, hplaces] at hat
        exact (Option.some.inj hat).symm
      rw [htarget] at hlocates hat
      exact ⟨node, t, hnode, ht, hlocates, hat⟩

/-- A document with a signed index in its reference. -/
def aliased : Document :=
  ⟨.obj [("allOf", .arr [.obj [("type", .str "string")]]),
    ("properties", .obj [("a", .obj [("$ref", .str "#/allOf/+0")])])], by decide +kernel⟩

/-- **One location has two nodes**: a reference takes an index with a sign, which is no pointer of
the standard. -/
theorem aliased_twice : ∃ graph, prepareWithLimits lenient defaultCompileLimits aliased.1 = .ok graph ∧
    ¬ (places graph).Nodup ∧
      ¬ ∃ place, Locates aliased.1 "#/allOf/+0" place := by
  have htwice : (prepareWithLimits lenient defaultCompileLimits aliased.1).toOption.map
      (fun graph => decide (places graph).Nodup) = some false := by
    decide +kernel
  have hparse : parseLocalPointer "#/allOf/+0" = .ok [bytes "allOf", bytes "+0"] := by
    decide +kernel
  have hsigned : SignedIndex aliased.1 [bytes "allOf", bytes "+0"] := by
    refine ⟨[bytes "allOf"], bytes "+0", [], [.key "allOf"], [.obj [("type", .str "string")]], rfl,
      ?_, rfl, .inl (by decide +kernel)⟩
    rfl
  cases hprepare : prepareWithLimits lenient defaultCompileLimits aliased.1 with
  | error err =>
    rw [hprepare] at htwice
    cases htwice
  | ok graph =>
    rw [hprepare] at htwice
    refine ⟨graph, rfl, ?_, ?_⟩
    · exact of_decide_eq_false (Option.some.inj htwice)
    · rintro ⟨place, hplace⟩
      exact (evaluates_of_locates hparse hplace).not_signed hsigned

end Modary.Schema.Closure
