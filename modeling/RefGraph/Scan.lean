import RefGraph.Assembly
import RefGraph.Extraction
import RefGraph.Resolution

/-!
# Scanning a tree

A scan walks a tree, analyses the files that are not ignored, resolves their references, and
assembles the graph. A file that cannot be read or is malformed adds nothing; only an unusable root
or too many files make a scan fail.

* `scan`: the graph of the tree below a root.
-/

namespace RefGraph

/-- A reference with the file below the root that it leads to. -/
def resolveDependency (fs : FileSystem) (root : Path) (aliases : List String) (fromFile : Path)
    (d : Dependency) : ResolvedDependency :=
  ⟨d, (resolve? fs root aliases fromFile d.specifier).bind root.relativeTo?⟩

/-- What is found in a file; nothing if it cannot be read or is malformed. -/
def findingsIn (fs : FileSystem) (path : Path) (withSymbols : Bool) : Findings :=
  match fs.read path with
  | .error _ => {}
  | .ok text => ((analyse? path text withSymbols).toOption).getD {}

/-- What a walked file adds to the graph. -/
def fileFindings (fs : FileSystem) (root : Path) (o : Options) (f : WalkedFile) : FileFindings :=
  let found := findingsIn fs f.path (o.granularity = .symbol)
  { relative := f.relative
    kind := f.kind
    dependencies := found.dependencies.map (resolveDependency fs root o.aliases f.path)
    symbols := found.symbols }

/-- The graph of the tree below a root. -/
def scan (fs : FileSystem) (o : Options) (root : Path) : Except ScanError GraphData :=
  if fs.isDir root then
    match fs.list root with
    | .error e => .error (.unusableRoot root e.message)
    | .ok _ =>
      (walk fs root o.maxFiles).map fun w =>
        assemble o root.text w (w.candidates.map (fileFindings fs root o))
  else .error (.unusableRoot root "not a directory")

end RefGraph
