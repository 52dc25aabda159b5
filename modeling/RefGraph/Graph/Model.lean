import RefGraph.Path

/-!
# Nodes and edges

The things that a graph of references is made of, and the words for their kinds.

* `SourceKind`: scripts and stylesheets, told apart by extension.
* `GraphNode`, `GraphEdge`, `GraphData`: the finished graph.
-/

namespace RefGraph

/-- The kind of a source file that is analysed. -/
inductive SourceKind where
  | script
  | style
deriving DecidableEq, Repr, Inhabited

/-- The extensions of scripts, in the order in which they are tried. -/
def scriptExtensions : List String := ["ts", "tsx", "js", "jsx", "mjs", "cjs"]

/-- The extensions of stylesheets, in the order in which they are tried. -/
def styleExtensions : List String := ["css", "scss", "sass"]

/-- The kind of a source file by its extension; none if it is not analysed. -/
def SourceKind.ofPath? (p : Path) : Option SourceKind :=
  match p.extension? with
  | none => none
  | some e =>
    if e ∈ scriptExtensions then some .script
    else if e ∈ styleExtensions then some .style
    else none

/-- What a node of the graph stands for: a file that is a route, another script, a stylesheet, all
that lies outside, or something that a file exports. -/
inductive NodeKind where
  | route
  | code
  | style
  | external
  | symbol
deriving DecidableEq, Repr, Inhabited

/-- The word for a kind of node. -/
def NodeKind.word : NodeKind → String
  | .route => "route"
  | .code => "module"
  | .style => "style"
  | .external => "external"
  | .symbol => "symbol"

/-- The kinds of nodes. -/
def NodeKind.all : List NodeKind := [.route, .code, .style, .external, .symbol]

/-- How one file refers to another. -/
inductive EdgeKind where
  | static
  | dynamic
  | style
  | external
  | contains
deriving DecidableEq, Hashable, Repr, Inhabited

/-- The word for a kind of edge. -/
def EdgeKind.word : EdgeKind → String
  | .static => "static"
  | .dynamic => "dynamic"
  | .style => "style"
  | .external => "external"
  | .contains => "contains"

/-- The kinds of edges. -/
def EdgeKind.all : List EdgeKind := [.static, .dynamic, .style, .external, .contains]

/-- What kind of thing an exported name is; `.exported` if nothing more is known. -/
inductive SymbolKind where
  | function
  | classLike
  | interface
  | typeAlias
  | enumeration
  | constant
  | letBinding
  | varBinding
  | exported
deriving DecidableEq, Repr, Inhabited

/-- The word for a kind of exported name. -/
def SymbolKind.word : SymbolKind → String
  | .function => "function"
  | .classLike => "class"
  | .interface => "interface"
  | .typeAlias => "type"
  | .enumeration => "enum"
  | .constant => "const"
  | .letBinding => "let"
  | .varBinding => "var"
  | .exported => "export"

/-- The kinds of exported names. -/
def SymbolKind.all : List SymbolKind :=
  [.function, .classLike, .interface, .typeAlias, .enumeration, .constant, .letBinding,
    .varBinding, .exported]

/-- Whether the graph has one node per file, or also one per exported name. -/
inductive Granularity where
  | file
  | symbol
deriving DecidableEq, Repr, Inhabited

/-- The word for a granularity. -/
def Granularity.word : Granularity → String
  | .file => "file"
  | .symbol => "symbol"

/-- The granularities. -/
def Granularity.all : List Granularity := [.file, .symbol]

/-- The granularity that a word stands for. -/
def Granularity.ofWord? (word : String) : Option Granularity :=
  Granularity.all.find? fun g => g.word = word

/-- The message about a word that stands for no granularity. -/
def Granularity.unknownMessage (word : String) : String :=
  "unknown granularity '" ++ word ++ "', expected 'file' or 'symbol'"

/-- Reads a word for a granularity, or says what is wrong with it. -/
def Granularity.read (word : String) : Except String Granularity :=
  match Granularity.ofWord? word with
  | some g => .ok g
  | none => .error (Granularity.unknownMessage word)

/-- A place in a file: the line, counted from 1, and the bytes before it on that line. -/
structure Location where
  line : Nat
  column : Nat
deriving DecidableEq, Repr, Inhabited

/-! ## Identifiers of nodes -/

/-- The node for everything outside the tree. -/
def externalId : String := "__external__"

/-- The node of a name that a file exports. -/
def symbolId (file name : String) : String := file ++ "::" ++ name

/-- The part of a text behind its last slash. -/
def lastSegment (text : String) : String :=
  String.ofList (text.toList.reverse.takeWhile (· ≠ '/')).reverse

/-- A node of the graph. -/
structure GraphNode where
  id : String
  label : String
  kind : NodeKind
  ignored : Bool := false
  symbolKind : Option SymbolKind := none
  parent : Option String := none
  displayName : Option String := none
deriving DecidableEq, Repr, Inhabited

namespace GraphNode

/-- The node of a file, labelled with its name. -/
def file (id : String) (kind : NodeKind) (ignored : Bool) : GraphNode :=
  { id, label := lastSegment id, kind, ignored }

/-- The node for everything outside the tree. -/
def external : GraphNode :=
  { id := externalId, label := "External", kind := .external }

/-- The node of a name that a file exports, labelled with the name behind a default export if it
has one. -/
def symbol (parent name : String) (symbolKind : SymbolKind) (displayName : Option String) :
    GraphNode :=
  { id := symbolId parent name
    label := displayName.getD name
    kind := .symbol
    symbolKind := some symbolKind
    parent := some parent
    displayName }

end GraphNode

/-- What tells edges apart. -/
structure EdgeKey where
  source : String
  target : String
  kind : EdgeKind
  statement : Option String
deriving DecidableEq, Hashable, Repr, Inhabited

/-- An edge of the graph. -/
structure GraphEdge where
  id : String
  source : String
  target : String
  kind : EdgeKind
  statement : Option String := none
  location : Option Location := none
deriving DecidableEq, Repr, Inhabited

/-- The key of an edge. -/
def GraphEdge.key (e : GraphEdge) : EdgeKey := ⟨e.source, e.target, e.kind, e.statement⟩

/-- A finished graph: its nodes and edges in order, the number of files that are not ignored, of
ignored entries, and of references to the outside. -/
structure GraphData where
  root : String
  nodes : List GraphNode
  edges : List GraphEdge
  totalFiles : Nat
  ignoredCount : Nat
  externalCount : Nat
deriving DecidableEq, Repr, Inhabited

namespace GraphData

/-- The node of an identifier. -/
def node? (d : GraphData) (id : String) : Option GraphNode :=
  d.nodes.find? fun n => n.id = id

/-- The edges that leave a node, in order. -/
def edgesFrom (d : GraphData) (source : String) : List GraphEdge :=
  d.edges.filter fun e => e.source = source

end GraphData

end RefGraph
