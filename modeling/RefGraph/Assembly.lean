import RefGraph.Glob
import RefGraph.Graph.Basic
import RefGraph.Options
import RefGraph.Reference
import RefGraph.Walk

/-!
# Assembling a graph

The files of a walk become nodes, and what was found in them becomes edges: a resolved reference
leads to a file, or to the exported names that it imports; one to the outside is counted, and if
that is asked for leads to a single node for everything outside.

* `nodeKind`: the kind of node that a file becomes.
* `assemble`: the graph of a walk and of what was found in its files.
-/

namespace RefGraph

/-- A reference with the file that it leads to, given by its path from the root; none for the
outside. -/
structure ResolvedDependency where
  dependency : Dependency
  target : Option String
deriving DecidableEq, Repr, Inhabited

/-- What one file adds to the graph. -/
structure FileFindings where
  relative : String
  kind : SourceKind
  dependencies : List ResolvedDependency := []
  symbols : List ExportedSymbol := []
deriving DecidableEq, Repr, Inhabited

/-- The globs of the patterns that are well formed. -/
def routeGlobs (patterns : List String) : List Glob :=
  patterns.filterMap fun p => (Glob.parse? false p.toList).toOption

/-- The kind of node that a file becomes. -/
def nodeKind (routes : List Glob) (relative : String) : NodeKind :=
  if routes.any fun g => g.matchesText relative then .route
  else if SourceKind.ofPath? ⟨relative⟩ = some .style then .style
  else .code

/-- What assembling needs of the options. -/
structure AssemblyRules where
  routes : List Glob
  includeExternal : Bool
  granularity : Granularity

/-- The rules of given options. -/
def AssemblyRules.ofOptions (o : Options) : AssemblyRules :=
  ⟨routeGlobs o.routePatterns, o.includeExternal, o.granularity⟩

namespace Graph

/-- Adds the files of a walk. -/
def addWalk (routes : List Glob) (g : Graph) (files : List WalkedFile) : Graph :=
  files.foldl (fun g f => g.addNode (.file f.relative (nodeKind routes f.relative) f.ignored)) g

/-- Adds an exported name of a file and the edge from the file to it. -/
def addSymbol (file : String) (g : Graph) (s : ExportedSymbol) : Graph :=
  (g.addNode (.symbol file s.name s.kind s.displayName)).addEdge
    ⟨file, symbolId file s.name, .contains, none⟩ none

/-- Adds the exported names of files. -/
def addSymbols (g : Graph) (files : List FileFindings) : Graph :=
  files.foldl (fun g f => f.symbols.foldl (addSymbol f.relative) g) g

/-- Adds a reference to the outside. -/
def addExternal (source : String) (g : Graph) (d : Dependency) : Graph :=
  (g.addNode .external).addEdge ⟨source, externalId, .external, d.statement⟩ d.location

/-- The exported names that a reference imports by name and that are in the graph. -/
def importedSymbols (g : Graph) (target : String) (d : Dependency) : List String :=
  (d.bindings.filter fun b =>
      b.kind ≠ .namespace && g.contains (symbolId target b.imported)).map fun b =>
    symbolId target b.imported

/-- Where a reference from one file to another leads: to the exported names that it imports, if
the graph has them and both files are scripts, otherwise to the file. -/
def referenceTargets (rules : AssemblyRules) (g : Graph) (kind : SourceKind) (target : String)
    (d : Dependency) : List String :=
  let symbols :=
    if rules.granularity = .symbol ∧ kind = .script ∧
        SourceKind.ofPath? ⟨target⟩ = some .script then
      g.importedSymbols target d
    else []
  if symbols = [] then [target] else symbols

/-- The kind of an edge to a file: a stylesheet makes it a style edge. -/
def edgeKindTo (target : String) (kind : EdgeKind) : EdgeKind :=
  if SourceKind.ofPath? ⟨target⟩ = some .style then .style else kind

/-- Adds a reference from one file to another. A file that was not walked becomes a node. -/
def addInternal (rules : AssemblyRules) (file : FileFindings) (target : String) (g : Graph)
    (d : Dependency) : Graph :=
  let g := g.addNode (.file target (nodeKind rules.routes target) false)
  (g.referenceTargets rules file.kind target d).foldl (fun g t =>
    g.addEdge ⟨file.relative, t, edgeKindTo target d.kind, d.statement⟩ d.location) g

/-- Adds a reference. -/
def addReference (rules : AssemblyRules) (file : FileFindings) (g : Graph)
    (r : ResolvedDependency) : Graph :=
  match r.target with
  | some target => addInternal rules file target g r.dependency
  | none => if rules.includeExternal then addExternal file.relative g r.dependency else g

/-- Adds the references of files. -/
def addReferences (rules : AssemblyRules) (g : Graph) (files : List FileFindings) : Graph :=
  files.foldl (fun g f => f.dependencies.foldl (addReference rules f) g) g

end Graph

/-- The number of references to the outside. -/
def externalReferences (files : List FileFindings) : Nat :=
  (files.flatMap FileFindings.dependencies).countP fun r => r.target.isNone

/-- The graph of a walk and of what was found in its files. -/
def assemble (o : Options) (root : String) (w : Walk) (files : List FileFindings) : GraphData :=
  let rules := AssemblyRules.ofOptions o
  let walked := Graph.empty.addWalk rules.routes w.files.toList
  let withSymbols := if o.granularity = .symbol then walked.addSymbols files else walked
  (withSymbols.addReferences rules files).toData root w.totalFiles w.ignoredCount
    (externalReferences files)

end RefGraph
