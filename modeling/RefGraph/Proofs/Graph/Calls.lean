import RefGraph.Proofs.Graph.Consistency

/-!
# Graphs after any sequence of calls

Nodes and edges may be offered in any order: twice, before their ends, with both ends the same. What
a graph shows afterwards is determined by the calls and their answers alone.

* `Graph.run`: a sequence of calls with its answers.
* `Graph.Represents`: what can be seen of a graph after calls and answers.
* `Graph.represents_run`: every sequence of calls leads to such a graph.
-/

namespace RefGraph

namespace Graph

/-- A call that may change a graph. -/
inductive Call where
  | node (n : GraphNode)
  | edge (k : EdgeKey) (location : Option Location)

/-- The answer to a call: whether a node was added, or the identifier of a new edge. -/
inductive Answer where
  | node (added : Bool)
  | edge (id : Option String)

/-- The answer to a call, and the graph after it. -/
def call (g : Graph) : Call → Answer × Graph
  | .node n => (.node (g.insertNode n).1, (g.insertNode n).2)
  | .edge k location => (.edge (g.insertEdge k location).1, (g.insertEdge k location).2)

/-- Calls one after the other, each with its answer, and the graph after them. -/
def run (g : Graph) : List Call → List (Call × Answer) × Graph
  | [] => ([], g)
  | c :: cs => ((c, (g.call c).1) :: ((g.call c).2.run cs).1, ((g.call c).2.run cs).2)

/-- The node that a call offers. -/
def offeredNode? : Call × Answer → Option GraphNode
  | (.node n, _) => some n
  | (.edge _ _, _) => none

/-- The edge of a call that was answered with an identifier. -/
def addedEdge? : Call × Answer → Option GraphEdge
  | (.edge k location, .edge (some id)) =>
    some { id, source := k.source, target := k.target, kind := k.kind, statement := k.statement
           location }
  | _ => none

/-- What can be seen of a graph after calls and their answers. -/
structure Represents (protocol : List (Call × Answer)) (g : Graph) : Prop where
  nodup_ids : g.ids.Nodup
  /-- The first node that was offered for each identifier, in the order of these offers. -/
  nodes_eq : g.nodes.toList = firstsBy GraphNode.id (protocol.filterMap offeredNode?)
  nodup_edgeKeys : g.edgeKeys.Nodup
  ends_mem_ids : ∀ e ∈ g.edges.toList, e.source ∈ g.ids ∧ e.target ∈ g.ids
  edge_id : ∀ e ∈ g.edges.toList, e.id = e.key.id
  /-- The edges whose calls were answered with an identifier, in the order of these calls. -/
  edges_eq : g.edges.toList = protocol.filterMap addedEdge?
  index_eq_some_iff : ∀ (id : String) (i : Nat),
    g.index[id]? = some i ↔ ∃ n : GraphNode, g.nodes[i]? = some n ∧ n.id = id
  contains_keys_iff : ∀ k, g.keys.contains k = true ↔ k ∈ g.edgeKeys
  node?_eq : ∀ id, g.node? id = g.nodes.toList.find? fun n => n.id = id
  contains_eq : ∀ id, g.contains id = g.nodes.toList.any fun n => n.id = id
  edgesFrom_eq : ∀ id, g.edgesFrom id = (g.edges.toList.filter fun e => e.source = id).reverse
  hasEdge_eq : ∀ source target kind, g.hasEdge source target kind =
    g.edges.toList.any fun e => e.source = source && e.target = target && e.kind = kind
  insertNode_eq_false_iff : ∀ n, (g.insertNode n).1 = false ↔ n.id ∈ g.ids
  insertNode_refused : ∀ n, (g.insertNode n).1 = false → (g.insertNode n).2 = g
  insertEdge_eq_none_iff : ∀ k location, (g.insertEdge k location).1 = none ↔
    k.source ∉ g.ids ∨ k.target ∉ g.ids ∨ k ∈ g.edgeKeys
  insertEdge_refused : ∀ k location, (g.insertEdge k location).1 = none →
    (g.insertEdge k location).2 = g

variable {g : Graph}

/-! ## One call -/

/-- Every call keeps a graph consistent. -/
theorem Consistent.call (hg : g.Consistent) (c : Call) : (g.call c).2.Consistent := by
  cases c with
  | node n => exact hg.insertNode n
  | edge k location => exact hg.insertEdge k location

/-- A call keeps a node that is offered for a new identifier. -/
theorem nodes_call (hg : g.Consistent) (c : Call) :
    (g.call c).2.nodes.toList = firstsBy GraphNode.id
      (g.nodes.toList ++ [(c, (g.call c).1)].filterMap offeredNode?) := by
  cases c with
  | node n => exact nodes_insertNode hg n
  | edge k location =>
    rw [List.filterMap_cons_none rfl, List.filterMap_nil, List.append_nil,
      firstsBy_eq_self hg.nodup_ids]
    exact congrArg Array.toList (nodes_insertEdge k location)

/-- A call adds the edge whose identifier is its answer. -/
theorem edges_call (hg : g.Consistent) (c : Call) :
    (g.call c).2.edges.toList =
      g.edges.toList ++ [(c, (g.call c).1)].filterMap addedEdge? := by
  cases c with
  | node n =>
    rw [List.filterMap_cons_none rfl, List.filterMap_nil, List.append_nil]
    exact congrArg Array.toList (edges_insertNode n)
  | edge k location =>
    show (g.insertEdge k location).2.edges.toList = _
    rw [edges_insertEdge hg]
    cases h : (g.insertEdge k location).1 with
    | none => simp only [Graph.call, h]; rfl
    | some id => simp only [Graph.call, h]; rfl

/-! ## Any number of calls -/

/-- All calls together keep a graph consistent. -/
theorem Consistent.run (hg : g.Consistent) (cs : List Call) : (g.run cs).2.Consistent := by
  induction cs generalizing g with
  | nil => exact hg
  | cons c cs ih => exact ih (hg.call c)

/-- After all calls the nodes are the first ones of each identifier that was offered. -/
theorem nodes_run (hg : g.Consistent) (cs : List Call) :
    (g.run cs).2.nodes.toList = firstsBy GraphNode.id
      (g.nodes.toList ++ (g.run cs).1.filterMap offeredNode?) := by
  induction cs generalizing g with
  | nil =>
    show g.nodes.toList = firstsBy GraphNode.id (g.nodes.toList ++ [])
    rw [List.append_nil, firstsBy_eq_self hg.nodup_ids]
  | cons c cs ih =>
    show (((g.call c).2.run cs).2).nodes.toList = firstsBy GraphNode.id (g.nodes.toList ++
      ([(c, (g.call c).1)] ++ ((g.call c).2.run cs).1).filterMap offeredNode?)
    -- What the first call keeps may be joined with the later offers before or after thinning out.
    rw [ih (hg.call c), nodes_call hg, firstsBy_append_left, List.filterMap_append,
      List.append_assoc]

/-- After all calls the edges are those that were added, in order. -/
theorem edges_run (hg : g.Consistent) (cs : List Call) :
    (g.run cs).2.edges.toList = g.edges.toList ++ (g.run cs).1.filterMap addedEdge? := by
  induction cs generalizing g with
  | nil => exact (List.append_nil _).symm
  | cons c cs ih =>
    show (((g.call c).2.run cs).2).edges.toList = g.edges.toList ++
      ([(c, (g.call c).1)] ++ ((g.call c).2.run cs).1).filterMap addedEdge?
    rw [ih (hg.call c), edges_call hg, List.filterMap_append, List.append_assoc]

/-- **Every sequence of calls.** A graph that calls have led to shows what the calls and their
answers determine, and looking things up agrees with searching all nodes and edges. -/
theorem represents_run (cs : List Call) : Represents (empty.run cs).1 (empty.run cs).2 := by
  have hg : (empty.run cs).2.Consistent := Consistent.empty.run cs
  exact {
    nodup_ids := hg.nodup_ids
    nodes_eq := nodes_run Consistent.empty cs
    nodup_edgeKeys := hg.nodup_edgeKeys
    ends_mem_ids := hg.ends_mem_ids
    edge_id := hg.edge_id
    edges_eq := edges_run Consistent.empty cs
    index_eq_some_iff := hg.index_eq_some_iff
    contains_keys_iff := hg.contains_keys_iff
    node?_eq := hg.node?_eq_find?
    contains_eq := hg.contains_eq_any
    edgesFrom_eq := hg.edgesFrom_eq
    hasEdge_eq := hg.hasEdge_eq_any
    insertNode_eq_false_iff := insertNode_eq_false_iff hg
    insertNode_refused := fun n => insertNode_of_refused
    insertEdge_eq_none_iff := fun k location => by
      rw [Graph.insertEdge_eq_none_iff hg, not_admits_iff]
    insertEdge_refused := fun k location => insertEdge_of_refused hg }

end Graph

end RefGraph
