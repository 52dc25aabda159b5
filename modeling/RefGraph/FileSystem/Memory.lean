import RefGraph.FileSystem

/-!
# A file system in memory

Files are added with their text, directories by themselves or as parents of what is added. Paths are
compared by their components, and an entry keeps the path under which it was first added.

* `Memory.addFile`, `Memory.addDir`: build a tree.
* `Memory.fileSystem`: the tree as a file system.
-/

namespace RefGraph

/-- A tree in memory: its files with their texts and its directories, each in the order of their
paths. -/
structure Memory where
  files : List (Path × String) := []
  dirs : List Path := []
deriving Repr, Inhabited

namespace Memory

/-- Adds a directory to a list that is ordered by path, unless it is there. -/
def insertDir (p : Path) : List Path → List Path
  | [] => [p]
  | q :: qs =>
    match p.order q with
    | .lt => p :: q :: qs
    | .eq => q :: qs
    | .gt => q :: insertDir p qs

/-- Adds a file to a list that is ordered by path. A file that is there gets the new text. -/
def insertFile (p : Path) (text : String) : List (Path × String) → List (Path × String)
  | [] => [(p, text)]
  | (q, old) :: rest =>
    match p.order q with
    | .lt => (p, text) :: (q, old) :: rest
    | .eq => (q, text) :: rest
    | .gt => (q, old) :: insertFile p text rest

/-- Adds the parents of a path, except for the empty one. -/
def addAncestors (m : Memory) (p : Path) : Memory :=
  { m with dirs :=
      (p.ancestors.takeWhile fun q => q.text ≠ "").foldl (fun dirs q => insertDir q dirs) m.dirs }

/-- Adds a file with its text. -/
def addFile (m : Memory) (p : Path) (text : String) : Memory :=
  let m := m.addAncestors p
  { m with files := insertFile p text m.files }

/-- Adds a directory. -/
def addDir (m : Memory) (p : Path) : Memory :=
  let m := m.addAncestors p
  { m with dirs := insertDir p m.dirs }

/-- Whether a path is a directory. -/
def isDir (m : Memory) (p : Path) : Bool := m.dirs.any p.equals

/-- Whether a path is a file. -/
def isFile (m : Memory) (p : Path) : Bool := m.files.any fun (q, _) => p.equals q

/-- The text of a file. -/
def read (m : Memory) (p : Path) : Except FileError String :=
  match m.files.find? fun (q, _) => p.equals q with
  | some (_, text) => .ok text
  | none => .error (.noSuchFile p)

/-- The entry for a path, if its parent is the given directory. -/
def entryIn? (dir : Path) (isDir : Bool) (p : Path) : Option Entry :=
  match p.parent?, p.fileName? with
  | some parent, some name => if parent.equals dir then some ⟨p, name, isDir⟩ else none
  | _, _ => none

/-- The children of a directory: directories first, each group in the order of paths. -/
def list (m : Memory) (dir : Path) : Except FileError (List Entry) :=
  if m.isDir dir then
    .ok (m.dirs.filterMap (entryIn? dir true) ++
      m.files.filterMap fun (p, _) => entryIn? dir false p)
  else .error (.noSuchDirectory dir)

/-- The greatest number of components in the path of a directory. -/
def depth (m : Memory) : Nat := (m.dirs.map fun p => p.components.length).foldl max 0

/-- A tree in memory as a file system. A directory in another one has one component more. -/
def fileSystem (m : Memory) : FileSystem where
  list := m.list
  read := m.read
  isDir := m.isDir
  isFile := m.isFile
  depth := m.depth

/-- The tree with the given files and directories. -/
def ofEntries (files : List (Path × String)) (dirs : List Path) : Memory :=
  dirs.foldl addDir (files.foldl (fun m (p, text) => m.addFile p text) {})

end Memory

end RefGraph
