import RefGraph.Graph.Model
import RefGraph.Json.Record

/-!
# Snapshots

A graph is kept as a JSON document. What is absent is left out of the document, and what a scan
would write reads back as the same graph.

* `GraphData.toJson`: the document of a graph.
* `GraphData.ofJson?`: the graph of a document.
-/

namespace RefGraph

/-! ## Writing -/

/-- A member that is left out if it is absent. -/
def optionalMember {α : Type} (name : String) (write : α → Json) : Option α → List (String × Json)
  | none => []
  | some x => [(name, write x)]

/-- A place in a file as a document. -/
def Location.json (l : Location) : Json :=
  .object [("line", .natural l.line), ("column", .natural l.column)]

/-- A node as a document. -/
def GraphNode.json (n : GraphNode) : Json :=
  .object <|
    [("id", .text n.id), ("label", .text n.label), ("kind", .text n.kind.word),
        ("ignored", .boolean n.ignored)] ++
      optionalMember "symbol_kind" (fun k => .text k.word) n.symbolKind ++
      optionalMember "parent" .text n.parent ++
      optionalMember "display_name" .text n.displayName

/-- An edge as a document. -/
def GraphEdge.json (e : GraphEdge) : Json :=
  .object <|
    [("id", .text e.id), ("source", .text e.source), ("target", .text e.target),
        ("kind", .text e.kind.word)] ++
      optionalMember "statement" .text e.statement ++
      optionalMember "location" Location.json e.location

namespace GraphData

/-- A graph as a document. -/
def json (d : GraphData) : Json :=
  .object
    [("root", .text d.root), ("nodes", .array (d.nodes.map GraphNode.json)),
      ("edges", .array (d.edges.map GraphEdge.json)), ("total_files", .natural d.totalFiles),
      ("ignored_count", .natural d.ignoredCount), ("external_count", .natural d.externalCount)]

/-- The document of a graph. -/
def toJson (d : GraphData) : String := String.ofList (d.json.render 0)

end GraphData

/-! ## Reading -/

open Json

/-- Reads a text that is expected. -/
def readString : Reader String := readText "a string"

/-- Reads a number of files or references. -/
def readCount : Reader Nat := readNatural maxWord "usize"

/-- Reads a line or a column. -/
def readPlace : Reader Nat := readNatural 4294967295 "u32"

/-- A place in a file while it is read. -/
structure LocationDraft where
  line : Option Nat := none
  column : Option Nat := none

/-- How a place in a file is read. -/
def locationShape : RecordShape LocationDraft Location where
  name := "Location"
  start := {}
  fields :=
    [.of "line" true LocationDraft.line (fun s x => { s with line := some x }) readPlace,
      .of "column" true LocationDraft.column (fun s x => { s with column := some x }) readPlace]
  finish s := s.line.bind fun line => s.column.map fun column => ⟨line, column⟩

/-- A node while it is read. -/
structure NodeDraft where
  id : Option String := none
  label : Option String := none
  kind : Option NodeKind := none
  ignored : Option Bool := none
  symbolKind : Option (Option SymbolKind) := none
  parent : Option (Option String) := none
  displayName : Option (Option String) := none

/-- How a node is read. -/
def nodeShape : RecordShape NodeDraft GraphNode where
  name := "GraphNode"
  start := {}
  fields :=
    [.of "id" true NodeDraft.id (fun s x => { s with id := some x }) readString,
      .of "label" true NodeDraft.label (fun s x => { s with label := some x }) readString,
      .of "kind" true NodeDraft.kind (fun s x => { s with kind := some x })
        (readWord (NodeKind.all.map fun k => (k.word, k))),
      .of "ignored" false NodeDraft.ignored (fun s x => { s with ignored := some x }) readBoolean,
      .of "symbol_kind" false NodeDraft.symbolKind (fun s x => { s with symbolKind := some x })
        (readOptional (readWord (SymbolKind.all.map fun k => (k.word, k)))),
      .of "parent" false NodeDraft.parent (fun s x => { s with parent := some x })
        (readOptional readString),
      .of "display_name" false NodeDraft.displayName (fun s x => { s with displayName := some x })
        (readOptional readString)]
  finish s :=
    s.id.bind fun id => s.label.bind fun label => s.kind.map fun kind =>
      { id
        label
        kind
        ignored := s.ignored.getD false
        symbolKind := s.symbolKind.join
        parent := s.parent.join
        displayName := s.displayName.join }

/-- An edge while it is read. -/
structure EdgeDraft where
  id : Option String := none
  source : Option String := none
  target : Option String := none
  kind : Option EdgeKind := none
  statement : Option (Option String) := none
  location : Option (Option Location) := none

/-- How an edge is read. -/
def edgeShape : RecordShape EdgeDraft GraphEdge where
  name := "GraphEdge"
  start := {}
  fields :=
    [.of "id" true EdgeDraft.id (fun s x => { s with id := some x }) readString,
      .of "source" true EdgeDraft.source (fun s x => { s with source := some x }) readString,
      .of "target" true EdgeDraft.target (fun s x => { s with target := some x }) readString,
      .of "kind" true EdgeDraft.kind (fun s x => { s with kind := some x })
        (readWord (EdgeKind.all.map fun k => (k.word, k))),
      .of "statement" false EdgeDraft.statement (fun s x => { s with statement := some x })
        (readOptional readString),
      .of "location" false EdgeDraft.location (fun s x => { s with location := some x })
        (readOptional locationShape.read)]
  finish s :=
    s.id.bind fun id => s.source.bind fun source => s.target.bind fun target =>
      s.kind.map fun kind =>
        { id, source, target, kind, statement := s.statement.join, location := s.location.join }

/-- A graph while it is read. -/
structure GraphDraft where
  root : Option String := none
  nodes : Option (List GraphNode) := none
  edges : Option (List GraphEdge) := none
  totalFiles : Option Nat := none
  ignoredCount : Option Nat := none
  externalCount : Option Nat := none

/-- How a graph is read. -/
def graphShape : RecordShape GraphDraft GraphData where
  name := "GraphData"
  start := {}
  fields :=
    [.of "root" true GraphDraft.root (fun s x => { s with root := some x }) readString,
      .of "nodes" true GraphDraft.nodes (fun s x => { s with nodes := some x })
        (readList nodeShape.read),
      .of "edges" true GraphDraft.edges (fun s x => { s with edges := some x })
        (readList edgeShape.read),
      .of "total_files" true GraphDraft.totalFiles (fun s x => { s with totalFiles := some x })
        readCount,
      .of "ignored_count" true GraphDraft.ignoredCount
        (fun s x => { s with ignoredCount := some x }) readCount,
      .of "external_count" true GraphDraft.externalCount
        (fun s x => { s with externalCount := some x }) readCount]
  finish s :=
    s.root.bind fun root => s.nodes.bind fun nodes => s.edges.bind fun edges =>
      s.totalFiles.bind fun totalFiles => s.ignoredCount.bind fun ignoredCount =>
        s.externalCount.map fun externalCount =>
          { root, nodes, edges, totalFiles, ignoredCount, externalCount }

/-- The graph of a document, behind which only white space may follow. -/
def GraphData.ofJson? (text : String) : Except ReadError GraphData :=
  match graphShape.read text.toList with
  | .error e => .error e
  | .ok (d, rest) => if skipBlank rest = [] then .ok d else .error .malformed

end RefGraph
