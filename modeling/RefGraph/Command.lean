import RefGraph.Command.Arguments
import RefGraph.Disk.Scan
import RefGraph.RepositoryRoot
import RefGraph.Snapshot.Store

/-!
# Commands

A command is carried out on a disk. It prints something, or fails with a message, and may write a
snapshot.

* `runCommand`: what a command does.
-/

namespace RefGraph

/-- The outcome of a command: its exit code, what it prints, and the message if it fails. -/
structure Outcome where
  code : Nat := 0
  output : String := ""
  message : Option String := none
deriving DecidableEq, Repr, Inhabited

namespace Outcome

/-- A command that has printed something. -/
def printed (output : String) : Outcome := { output }

/-- A command that has failed. -/
def failed (message : String) : Outcome := { code := 1, message := some ("Error: " ++ message) }

/-- A command that was not understood, or that was a call for help. -/
def ofUsage : UsageError → Outcome
  | .invalid => { code := 2 }
  | .helpWanted => {}

end Outcome

/-- The version of the program. -/
def versionLine : String := "modgraph v0.1.0\n"

/-- Options with what the command line puts in their place. -/
def Overrides.apply (v : Overrides) (o : Options) : Options :=
  { o with
    maxFiles := v.maxFiles.getD o.maxFiles
    includeExternal := v.includeExternal || o.includeExternal
    granularity := v.granularity.getD o.granularity }

/-- A root without links, and the options that hold there. -/
def openRoot (d : Disk) (root : Path) (v : Overrides) : Except String (Path × Options) :=
  match d.canonical root with
  | .error _ => .error ("Cannot open " ++ root.text)
  | .ok root =>
    match Options.load? d.fileSystem root with
    | .error e => .error (e.fileMessage (Options.fileIn root))
    | .ok o => .ok (root, v.apply o)

/-- The graph below a root, with the options that hold there. -/
def extractGraph (d : Disk) (root : Path) (v : Overrides) : Except String GraphData :=
  match openRoot d root v with
  | .error message => .error message
  | .ok (root, o) => (d.scan o root).mapError ScanError.message

/-- A graph in a few lines. -/
def GraphData.summary (g : GraphData) : String :=
  let count (kind : NodeKind) : String := toString (g.nodes.countP fun n => n.kind = kind)
  "root: " ++ g.root ++ "\nnodes: " ++ toString g.nodes.length ++ " (" ++ count .route ++
    " route, " ++ count .code ++ " module, " ++ count .style ++ " style, " ++ count .symbol ++
    " symbol)\nedges: " ++ toString g.edges.length ++ "\nfiles: " ++ toString g.totalFiles ++
    "\nignored: " ++ toString g.ignoredCount ++ "\nexternal: " ++ toString g.externalCount ++ "\n"

/-- What a request does to a disk, and its outcome. Watching prints nothing: it ends when it is
stopped, or at once if its root or the options there cannot be read. -/
def Request.run (r : Request) (d : Disk) : Disk × Outcome :=
  match r.task with
  | .extract overrides output =>
    match extractGraph d r.root overrides, output with
    | .error message, _ => (d, .failed message)
    | .ok g, none => (d, .printed (g.toJson ++ "\n"))
    | .ok g, some path =>
      match g.save d path with
      | (d, none) => (d, {})
      | (d, some e) => (d, .failed e.message)
  | .watch overrides _ =>
    match openRoot d r.root overrides with
    | .error message => (d, .failed message)
    | .ok _ => (d, {})
  | .root start =>
    let start := start.getD r.root
    match findRoot? d start with
    | some root => (d, .printed (root.text ++ "\n"))
    | none => (d, .failed ("No repository root found above " ++ start.text))
  | .summary snapshot =>
    match GraphData.load d snapshot with
    | .ok g => (d, .printed g.summary)
    | .error e => (d, .failed e.message)
  | .version => (d, .printed versionLine)

/-- What a command line does to a disk, and its outcome. -/
def runCommand (d : Disk) (args : List String) : Disk × Outcome :=
  match Request.ofArguments? args with
  | .error e => (d, .ofUsage e)
  | .ok r => r.run d

end RefGraph
