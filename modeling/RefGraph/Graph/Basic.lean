import RefGraph.Graph.EdgeId
import Std.Data.HashMap
import Std.Data.HashSet

/-!
# Building graphs

A graph under construction holds each node once by its identifier and each edge once by its key.
Nodes and edges stay in the order in which they were added. An index leads from identifiers to
nodes, each node has the chain of the edges that leave it, and the keys of the edges are kept as a
set.

* `Graph.insertNode`, `Graph.insertEdge`: add unless it is there; an edge needs both its ends.
* `Graph.node?`, `Graph.edgesFrom`, `Graph.hasEdge`: look things up.
* `Graph.toData`: the finished graph.
-/

namespace RefGraph

open Std (HashMap HashSet)

/-- A graph under construction. `outgoing` has a chain of positions in `edges` for each node, the
latest edge first. -/
structure Graph where
  nodes : Array GraphNode := #[]
  edges : Array GraphEdge := #[]
  outgoing : Array (List Nat) := #[]
  index : HashMap String Nat := {}
  keys : HashSet EdgeKey := {}
deriving Inhabited

namespace Graph

/-- The graph without nodes. -/
def empty : Graph := {}

/-- The node of an identifier. -/
def node? (g : Graph) (id : String) : Option GraphNode := g.index[id]?.bind fun i => g.nodes[i]?

/-- Whether there is a node of an identifier. -/
def contains (g : Graph) (id : String) : Bool := g.index.contains id

/-- Adds a node unless there is one of the same identifier. The answer is whether it was added. -/
def insertNode (g : Graph) (n : GraphNode) : Bool × Graph :=
  if g.contains n.id then (false, g)
  else
    (true, { g with
      nodes := g.nodes.push n
      outgoing := g.outgoing.push []
      index := g.index.insert n.id g.nodes.size })

/-- The graph after a node was offered. -/
def addNode (g : Graph) (n : GraphNode) : Graph := (g.insertNode n).2

/-- The edge of a key. -/
def edgeOf (k : EdgeKey) (location : Option Location) : GraphEdge :=
  { id := k.id, source := k.source, target := k.target, kind := k.kind, statement := k.statement
    location }

/-- Adds an edge if both its ends are there and no edge of its key is. The answer is the identifier
of the new edge. -/
def insertEdge (g : Graph) (k : EdgeKey) (location : Option Location) : Option String × Graph :=
  match g.index[k.source]?, g.index[k.target]? with
  | some source, some _ =>
    if g.keys.contains k then (none, g)
    else
      (some k.id, { g with
        edges := g.edges.push (edgeOf k location)
        outgoing := g.outgoing.modify source (g.edges.size :: ·)
        keys := g.keys.insert k })
  | _, _ => (none, g)

/-- The graph after an edge was offered. -/
def addEdge (g : Graph) (k : EdgeKey) (location : Option Location) : Graph :=
  (g.insertEdge k location).2

/-- The identifier of the edge that `addEdge` adds, if it adds one. -/
def newEdgeId? (g : Graph) (k : EdgeKey) : Option String := (g.insertEdge k none).1

/-- The edges that leave a node, the latest one first: those on the chain of the node. -/
def edgesFrom (g : Graph) (source : String) : List GraphEdge :=
  match g.index[source]? with
  | some i => (g.outgoing[i]?.getD []).filterMap fun j => g.edges[j]?
  | none => []

/-- Whether an edge of a kind leads from one node to another. -/
def hasEdge (g : Graph) (source target : String) (kind : EdgeKind) : Bool :=
  (g.edgesFrom source).any fun e => e.target = target && e.kind = kind

/-- The sizes of a graph in words. -/
def describe (g : Graph) : String :=
  "Graph \x7b node_count: " ++ toString g.nodes.size ++ ", edge_count: " ++
    toString g.edges.size ++ " \x7d"

/-- The finished graph. -/
def toData (g : Graph) (root : String) (totalFiles ignoredCount externalCount : Nat) :
    GraphData :=
  { root, nodes := g.nodes.toList, edges := g.edges.toList, totalFiles, ignoredCount
    externalCount }

end Graph

end RefGraph
