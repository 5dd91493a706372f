import Modary.Lib.Sorting
import Modary.Schema.Profile

/-! # The schema graph

`jsonschema.PrepareWithLimits`: one node for each location of a Draft 7 document that is reached by
grammar or by a local reference. A Go value of the document is a pointer into it; a node keeps the
place where its value is, and the document is the state that the walk changes. -/

namespace Modary.Schema.Graph

open Modary.Lib.GoText Modary.Lib.JsonValue Modary.Lib.JsonPlace
open Modary.Lib.JsonPointer Modary.Schema.Profile

/-- `schemaNode`. -/
structure SchemaNode where
  pointer : Bytes
  tokens : List Bytes
  place : Place
  depth : ℕ
  grammar : List ℕ := []
  ref : Option ℕ := none
  primary : Bool := false
  same : List ℕ := []
  branches : List ℕ := []

/-- `SchemaGraph`. -/
structure SchemaGraph where
  root : Value
  limits : CompileLimits
  nodes : List SchemaNode := []
  grammarParent : List (ℕ × ℕ) := []
  numericWork : ℕ := 0
  metaschemaValid : Bool := false

/-- `appendUniqueNode`. -/
def appendUniqueNode (nodes : List ℕ) (candidate : ℕ) : List ℕ :=
  if candidate ∈ nodes then nodes else nodes ++ [candidate]

namespace SchemaGraph

/-- The map `byPointer`. -/
def byPointer (graph : SchemaGraph) (pointer : Bytes) : Option ℕ :=
  graph.nodes.findIdx? fun node => node.pointer = pointer

/-- A change of the edges of one node. -/
def edit (graph : SchemaGraph) (id : ℕ) (f : SchemaNode → SchemaNode) : SchemaGraph :=
  { graph with nodes := graph.nodes.modify id f }

/-- `addNode`. -/
def addNode (graph : SchemaGraph) (value : Value) (place : Place) (tokens : List Bytes)
    (depth : ℕ) : Except Refusal (ℕ × SchemaGraph) := do
  refuseIf (isSchemaValue value = false)
    (.located (pointerKey tokens) (.message "must be an object or boolean"))
  requireLimit "schema nesting depth" depth maxSchemaNestingDepth
  match graph.byPointer (pointerKey tokens) with
  | some existing => .ok (existing, graph)
  | none =>
    refuseIf (graph.limits.maxSchemaNodes ≤ graph.nodes.length)
      (.limit "schema nodes" graph.limits.maxSchemaNodes)
    let node : SchemaNode := ⟨pointerKey tokens, tokens, place, depth, [], none, false, [], []⟩
    .ok (graph.nodes.length, { graph with nodes := graph.nodes ++ [node] })

/-- The lists of edges that a grammar child is entered in besides the grammar. -/
inductive Edge
  | plain
  | same
  | branch

/-- The edges of a node with one more child. -/
def Edge.add (edge : Edge) (child : ℕ) (node : SchemaNode) : SchemaNode :=
  match edge with
  | .plain => node
  | .same => { node with same := appendUniqueNode node.same child }
  | .branch => { node with branches := appendUniqueNode node.branches child }

/-- `addGrammarChild`, and the edge to the child. -/
def addGrammarChild (graph : SchemaGraph) (parent : ℕ) (base : SchemaNode) (edge : Edge)
    (path : Place) (value : Value) : Except Refusal SchemaGraph := do
  let (child, graph) ← graph.addNode value (base.place ++ path) (base.tokens ++ tokensOf path)
    (base.depth + 1)
  let graph := graph.edit parent fun node =>
    edge.add child { node with grammar := appendUniqueNode node.grammar child }
  if graph.grammarParent.any fun entry => entry.1 = child then .ok graph
  else .ok { graph with grammarParent := (child, parent) :: graph.grammarParent }

/-- Children one after the other; each has to be a schema. -/
def addChildren (graph : SchemaGraph) (parent : ℕ) (base : SchemaNode) (edge : Edge)
    (children : List (Place × Value)) : Except Refusal SchemaGraph :=
  children.foldlM (fun graph child => do
    refuseIf (isSchemaValue child.2 = false)
      (.located (keyOf (tokensOf child.1)) (.message "must be an object or boolean"))
    graph.addGrammarChild parent base edge child.1 child.2) graph

/-- `sortedKeys`, with the values. -/
def sortedMembers (members : Members) : Members := Lib.Sorting.sortOn Prod.fst members

def singles : List String :=
  ["additionalItems", "additionalProperties", "contains", "else", "if", "not", "propertyNames",
    "then"]

def lists : List String := ["allOf", "anyOf", "oneOf"]

def maps : List String := ["definitions", "properties", "patternProperties"]

/-- The edge for a keyword with one schema. -/
def edgeOf (keyword : String) : Edge :=
  if keyword ∈ ["not", "if"] then .same
  else if keyword ∈ ["then", "else"] then .branch
  else .plain

/-- The items of an array of schemas. -/
def listed (keyword : String) (items : List Value) : List (Place × Value) :=
  items.zipIdx.map fun item => ([.key keyword, .index item.2], item.1)

/-- The members of an object of schemas. -/
def named (keyword : String) (members : Members) : List (Place × Value) :=
  members.map fun member => ([.key keyword, .key member.1], member.2)

section Collect

variable (parent : ℕ) (base : SchemaNode) (members : Members)

/-- One of the keywords with one schema. -/
def collectSingle (graph : SchemaGraph) (keyword : String) : Except Refusal SchemaGraph :=
  match members.lookup keyword with
  | none => .ok graph
  | some value => graph.addChildren parent base (edgeOf keyword) [([.key keyword], value)]

/-- One of the keywords with a list of schemas. -/
def collectList (graph : SchemaGraph) (keyword : String) : Except Refusal SchemaGraph :=
  match members.lookup keyword with
  | none => .ok graph
  | some (.arr children) => do
    refuseIf (children = []) (.message (keyword ++ " must be a non-empty array of schemas"))
    requireCollectionLimit graph.limits keyword children.length
    graph.addChildren parent base .same (listed keyword children)
  | some _ => .error (.message (keyword ++ " must be a non-empty array of schemas"))

def collectItems (graph : SchemaGraph) : Except Refusal SchemaGraph :=
  match members.lookup "items" with
  | none => .ok graph
  | some (.arr children) => do
    refuseIf (children = []) (.message "items tuple must be non-empty")
    requireCollectionLimit graph.limits "tuple" children.length
    graph.addChildren parent base .plain (listed "items" children)
  | some value => do
    refuseIf (isSchemaValue value = false)
      (.message "items must be a schema or non-empty array of schemas")
    graph.addChildren parent base .plain [([.key "items"], value)]

/-- One of the keywords with an object of schemas. -/
def collectMap (graph : SchemaGraph) (keyword : String) : Except Refusal SchemaGraph :=
  match members.lookup keyword with
  | none => .ok graph
  | some (.obj children) => do
    requireCollectionLimit graph.limits keyword children.length
    graph.addChildren parent base .plain (named keyword (sortedMembers children))
  | some _ => .error (.message (keyword ++ " must be an object of schemas"))

/-- One dependency: a schema, or the names of properties. -/
def collectDependency (graph : SchemaGraph) (dependency : String × Value) :
    Except Refusal SchemaGraph :=
  if isSchemaValue dependency.2 then
    graph.addChildren parent base .same (named "dependencies" [dependency])
  else
    match dependency.2 with
    | .arr names => do
      requireCollectionLimit graph.limits "dependency names" names.length
      requireUniqueStrings "dependency names" [] names
      .ok graph
    | _ => .error (.quoted "must be a schema or string array" dependency.1)

def collectDependencies (graph : SchemaGraph) : Except Refusal SchemaGraph :=
  match members.lookup "dependencies" with
  | none => .ok graph
  | some (.obj dependencies) => do
    requireCollectionLimit graph.limits "dependencies" dependencies.length
    (sortedMembers dependencies).foldlM (collectDependency parent base) graph
  | some _ => .error (.message "dependencies must be an object")

/-- `collectGrammarChildren`. -/
def collectGrammarChildren (graph : SchemaGraph) : Except Refusal SchemaGraph := do
  let graph ← singles.foldlM (collectSingle parent base members) graph
  let graph ← lists.foldlM (collectList parent base members) graph
  let graph ← collectItems parent base members graph
  let graph ← maps.foldlM (collectMap parent base members) graph
  collectDependencies parent base members graph

end Collect

/-! ### One node -/

/-- The `$schema` of an object: it has to name Draft 7, and is overwritten in the document. -/
def declareSchema (graph : SchemaGraph) (node : SchemaNode) (members : Members) :
    Except Refusal SchemaGraph :=
  match members.lookup "$schema" with
  | none => .ok graph
  | some (.str declaration) =>
    if isDraft7URI declaration then
      .ok { graph with
        root := set (.str canonicalDraft7URI) (node.place ++ [.key "$schema"]) graph.root }
    else .error (.located node.pointer (.quoted "declares unsupported $schema" declaration))
  | some _ => .error (.located node.pointer (.message "declares unsupported $schema"))

/-- `resolveLocalReference`. -/
def resolveLocalReference (document : Value) (reference : String) :
    Except PointerError (Value × Place × List Bytes) := do
  let tokens ← parseLocalPointer reference
  let place ← resolveTokens document tokens
  match get document place with
  | some value => if isSchemaValue value then .ok (value, place, tokens) else .error .notSchema
  | none => .error .notSchema

/-- The `$ref` of an object: its target becomes a node. -/
def followReference (graph : SchemaGraph) (id : ℕ) (node : SchemaNode) (members : Members) :
    Except Refusal SchemaGraph :=
  match members.lookup "$ref" with
  | none => .ok graph
  | some (.str reference) => do
    let (value, place, tokens) ← (resolveLocalReference graph.root reference).mapError
      fun err => .located node.pointer (.reference reference err)
    let (target, graph) ← graph.addNode value place tokens (node.depth + 1)
    .ok (graph.edit id fun node => { node with ref := some target })
  | some _ => .error (.located node.pointer (.message "$ref must be a string"))

/-- `inspectNode` on an object. No check after the assignment to `$schema` reads it. -/
def inspectObject (setting : Setting) (graph : SchemaGraph) (id : ℕ) (node : SchemaNode)
    (members : Members) : Except Refusal SchemaGraph := do
  ["id", "$id"].forM fun keyword =>
    refuseIf ((members.lookup keyword).isSome = true)
      (.located node.pointer (.quoted "contains prohibited" keyword))
  let graph ← graph.declareSchema node members
  let graph ← graph.followReference id node members
  let work ← (inspectCollectionsAndLiterals setting graph.limits members graph.numericWork).mapError
    (.located node.pointer)
  (collectGrammarChildren id node members { graph with numericWork := work }).mapError
    (.located node.pointer)

/-- `inspectNode`. -/
def inspectNode (setting : Setting) (graph : SchemaGraph) (id : ℕ) : Except Refusal SchemaGraph :=
  match graph.nodes[id]? with
  | none => .ok graph
  | some node =>
    match get graph.root node.place with
    | some (.obj members) => inspectObject setting graph id node members
    | _ => .ok graph

/-- The loop over the nodes, which it adds to. It has no more rounds than there may be nodes. -/
def inspectAll (setting : Setting) : ℕ → ℕ → SchemaGraph → Except Refusal SchemaGraph
  | 0, _, graph => .ok graph
  | rounds + 1, index, graph =>
    if index < graph.nodes.length then do
      let graph ← graph.inspectNode setting index
      inspectAll setting rounds (index + 1) graph
    else .ok graph

/-! ### The whole graph -/

/-- The loop of `markPrimaryNodes`, with the top of the stack first. -/
def markLoop : ℕ → List ℕ → List SchemaNode → List SchemaNode
  | 0, _, nodes => nodes
  | _ + 1, [], nodes => nodes
  | rounds + 1, id :: stack, nodes =>
    match nodes[id]? with
    | none => markLoop rounds stack nodes
    | some node =>
      if node.primary then markLoop rounds stack nodes
      else markLoop rounds (node.grammar.reverse ++ stack)
        (nodes.modify id fun node => { node with primary := true })

/-- `markPrimaryNodes`. A node is expanded once, so the pushes are at most the grammar edges. -/
def markPrimaryNodes (graph : SchemaGraph) : SchemaGraph :=
  let edges := (graph.nodes.map fun node => node.grammar.length).sum
  { graph with nodes := markLoop (1 + edges) [0] graph.nodes }

/-- A node that is entered in `metaRoots`: it is reached by reference only, and so is no node that
has it as a grammar child. -/
def metaRoot (graph : SchemaGraph) (id : ℕ) (node : SchemaNode) : Bool :=
  !node.primary &&
    match graph.grammarParent.lookup id with
    | none => true
    | some parent => (graph.nodes[parent]?).any fun node => node.primary

/-- The field `metaRoots`: the values as they are after the walk. -/
def metaRoots (graph : SchemaGraph) : List Value :=
  graph.root :: (graph.nodes.zipIdx.filter fun entry => graph.metaRoot entry.2 entry.1).filterMap
    fun entry => get graph.root entry.1.place

/-- `validateMetaschema`. -/
def validateMetaschema (setting : Setting) (graph : SchemaGraph) : Except Refusal SchemaGraph :=
  match setting.metaschema graph.metaRoots with
  | .valid => .ok { graph with metaschemaValid := true }
  | .invalid => .error (.message "JSON Schema does not satisfy the Draft 7 metaschema")
  | .stopped texts => .error (.engine "validate Draft 7 metaschema: " texts)

/-- `boundedAdd`. -/
def boundedAdd (left right limit : ℕ) : ℕ :=
  if limit < left ∨ limit - left < right then limit + 1 else left + right

/-- A node with the keyword `if`. -/
def conditional (graph : SchemaGraph) (node : SchemaNode) : Bool :=
  match get graph.root node.place with
  | some (.obj members) => (members.lookup "if").isSome
  | _ => false

/-- The function `cost` of `checkSameInstanceExpansion`: `active` are the nodes it is called for,
`memo` those it is done with. Calls nest no deeper than there are nodes. -/
def cost (graph : SchemaGraph) : ℕ → List ℕ → ℕ → List (ℕ × ℕ) → Except Refusal (ℕ × List (ℕ × ℕ))
  | 0, _, _, _ => .error (.message "JSON Schema contains a zero-progress local $ref cycle")
  | rounds + 1, active, id, memo => do
    let limit := graph.limits.maxSameInstanceSchemaVisits
    refuseIf (id ∈ active) (.message "JSON Schema contains a zero-progress local $ref cycle")
    match memo.lookup id, graph.nodes[id]? with
    | some total, _ => .ok (total, memo)
    | none, none => .ok (1, memo)
    | none, some node =>
      let (total, memo) ←
        match node.ref with
        | some target => do
          let (nested, memo) ← graph.cost rounds (id :: active) target memo
          .ok (boundedAdd 1 nested limit, memo)
        | none => do
          let (total, memo) ← node.same.foldlM (fun (total, memo) child => do
            let (nested, memo) ← graph.cost rounds (id :: active) child memo
            .ok (boundedAdd total nested limit, memo)) (1, memo)
          if graph.conditional node then do
            let (most, memo) ← node.branches.foldlM (fun (most, memo) child => do
              let (nested, memo) ← graph.cost rounds (id :: active) child memo
              .ok (max nested most, memo)) (0, memo)
            .ok (boundedAdd total most limit, memo)
          else .ok (total, memo)
      requireLimit "same-instance schema visits" total limit
      .ok (total, (id, total) :: memo)

/-- `checkSameInstanceExpansion`. -/
def checkSameInstanceExpansion (graph : SchemaGraph) : Except Refusal Unit := do
  let _ ← (List.range graph.nodes.length).foldlM (fun memo id => do
    let (_, memo) ← graph.cost (graph.nodes.length + 1) [] id memo
    .ok memo) []
  .ok ()

/-- `RootClone`; where it panics there is no value. -/
def rootClone (graph : SchemaGraph) : Option Value := (cloneJSON graph.root).toOption

end SchemaGraph

/-- `PrepareWithLimits`. -/
def prepareWithLimits (setting : Setting) (limits : CompileLimits) (document : Value) :
    Except Refusal SchemaGraph := do
  refuseIf (limits.valid = false) (.message "JSON Schema compile limits must be positive")
  let frozen ← cloneJSON document
  refuseIf (isSchemaValue frozen = false)
    (.message "JSON Schema root must be an object or boolean")
  let graph : SchemaGraph := ⟨frozen, limits, [], [], 0, false⟩
  let (_, graph) ← graph.addNode frozen [] [] 1
  let graph ← graph.inspectAll setting limits.maxSchemaNodes 0
  let graph := graph.markPrimaryNodes
  requireLimit "numeric compile work" graph.numericWork limits.maxNumericCompileWorkUnits
  let graph ← graph.validateMetaschema setting
  graph.checkSameInstanceExpansion
  .ok graph

/-- `Prepare`. -/
def prepare (setting : Setting) (document : Value) : Except Refusal SchemaGraph :=
  prepareWithLimits setting defaultCompileLimits document

end Modary.Schema.Graph
