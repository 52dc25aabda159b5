import RefGraph.FileSystem
import RefGraph.Utf8

/-!
# Disks

A disk is a tree of files, directories, and symbolic links. A path is followed name by name from the
root or from a current directory; a link on the way is replaced by its target, and no path may lead
over more than forty links.

* `Disk.locate`: where a path leads.
* `Disk.canonical`: the path without links to the same place.
* `Disk.fileSystem`: a disk as a file system.
-/

namespace RefGraph

/-- What a name on a disk stands for. -/
inductive DiskNode where
  | file (bytes : List UInt8)
  | link (target : String)
  | directory (entries : List (String × DiskNode))
deriving Repr, Inhabited

namespace DiskNode

/-- Whether a node is a directory. -/
def isDirectory : DiskNode → Bool
  | directory _ => true
  | _ => false

/-- The node of a name in a directory. -/
def child? (n : DiskNode) (name : String) : Option DiskNode :=
  match n with
  | directory entries => (entries.find? fun e => e.1 = name).map Prod.snd
  | _ => none

/-- The node that names lead to, one directory after the other. -/
def at? : List String → DiskNode → Option DiskNode
  | [], n => some n
  | name :: names, n => (n.child? name).bind (at? names)

/-- A directory with a new node for a name, or with none. -/
def withChild (n : DiskNode) (name : String) (new : Option DiskNode) : DiskNode :=
  match n, new with
  | directory entries, none => directory (entries.filter fun e => e.1 ≠ name)
  | directory entries, some x =>
    if entries.any fun e => e.1 = name then
      directory (entries.map fun e => if e.1 = name then (name, x) else e)
    else directory (entries ++ [(name, x)])
  | n, _ => n

/-- A tree with a new node, or with none, for a name in the directory that names lead to. -/
def put : List String → String → Option DiskNode → DiskNode → DiskNode
  | [], name, new, n => n.withChild name new
  | d :: ds, name, new, n =>
    match n.child? d with
    | some inner => n.withChild d (some (put ds name new inner))
    | none => n

mutual

/-- How many directories are nested at most. -/
def height : DiskNode → Nat
  | directory entries => heightOfEntries entries + 1
  | _ => 0

/-- How many directories are nested at most in one of several nodes. -/
def heightOfEntries : List (String × DiskNode) → Nat
  | [] => 0
  | (_, n) :: es => max n.height (heightOfEntries es)

end

end DiskNode

/-- A disk: what is in its root, and the names that lead to the current directory. -/
structure Disk where
  root : DiskNode := .directory []
  current : List String := []
deriving Repr, Inhabited

/-- Where a path leads: to a node, which is no link, or to a name that a directory does not have and
more names behind it. -/
inductive Disk.Place where
  | node (names : List String)
  | absent (directory : List String) (name : String) (rest : List String)
deriving DecidableEq, Repr, Inhabited

namespace Disk

/-- How far names lead without a link: to a place, or to a link with more names behind it. -/
inductive Reached where
  | place (p : Place)
  | link (directory : List String) (target : String) (rest : List String)
deriving DecidableEq, Repr, Inhabited

/-- Follows names from a directory up to the first link. An empty name and `.` stay where they are,
but only in a directory; `..` leads to the directory above, in the root to itself. -/
def advance (root : DiskNode) : List String → List String → Except FileError Reached
  | here, [] => .ok (.place (.node here))
  | here, name :: names =>
    match root.at? here with
    | some (.directory entries) =>
      if name = "" ∨ name = "." then advance root here names
      else if name = ".." then advance root here.dropLast names
      else
        match (DiskNode.directory entries).child? name with
        | none => .ok (.place (.absent here name names))
        | some (.link target) => .ok (.link here target names)
        | some _ => advance root (here ++ [name]) names
    | _ => .error .notADirectory

/-- The names in a path; an empty one before and behind each slash at its ends. -/
def namesOf (text : String) : List String := (splitAtChar '/' text.toList).map String.ofList

/-- The directory where a path begins. -/
def startOf (here : List String) (text : String) : List String :=
  if text.toList.head? = some '/' then [] else here

/-- Follows names from a directory over at most `fuel` links. -/
def follow (root : DiskNode) : Nat → List String → List String → Except FileError Place
  | fuel, here, names =>
    match advance root here names with
    | .error e => .error e
    | .ok (.place p) => .ok p
    | .ok (.link directory target rest) =>
      match fuel with
      | 0 => .error .tooManyLinks
      | fuel + 1 => follow root fuel (startOf directory target) (namesOf target ++ rest)

/-- The number of links that a path may lead over. -/
def maxLinks : Nat := 40

/-- Where a path leads. -/
def place (d : Disk) (p : Path) : Except FileError Place :=
  if p.text = "" then .error .notFound
  else follow d.root maxLinks (startOf d.current p.text) (namesOf p.text)

/-- The names that lead to the node of a path without links. -/
def locate (d : Disk) (p : Path) : Except FileError (List String) :=
  match d.place p with
  | .error e => .error e
  | .ok (.node names) => .ok names
  | .ok (.absent _ _ _) => .error .notFound

/-- The node of a path. -/
def node (d : Disk) (p : Path) : Except FileError DiskNode :=
  match d.locate p with
  | .error e => .error e
  | .ok names => ((d.root.at? names).map Except.ok).getD (.error .notFound)

/-- Whether a path leads to anything. -/
def hasNode (d : Disk) (p : Path) : Bool := (d.locate p).toOption.isSome

/-- The absolute path of names. -/
def pathOf (names : List String) : Path := ⟨"/" ++ String.intercalate "/" names⟩

/-- The absolute path without links to the same place. -/
def canonical (d : Disk) (p : Path) : Except FileError Path := (d.locate p).map pathOf

/-- Whether a path leads to a directory. -/
def isDir (d : Disk) (p : Path) : Bool := (d.node p).toOption.any DiskNode.isDirectory

/-- Whether a path leads to a file. -/
def isFile (d : Disk) (p : Path) : Bool :=
  match d.node p with
  | .ok (.file _) => true
  | _ => false

/-- The bytes of a file. -/
def bytes (d : Disk) (p : Path) : Except FileError (List UInt8) :=
  match d.node p with
  | .error e => .error e
  | .ok (.file bytes) => .ok bytes
  | .ok _ => .error .isADirectory

/-- The text of a file, whatever its bytes are. -/
def read (d : Disk) (p : Path) : Except FileError String :=
  (d.bytes p).map fun bs => String.ofList (Utf8.decodeLossy bs)

/-- The text of a file, whose bytes have to be UTF-8. -/
def readText (d : Disk) (p : Path) : Except FileError String :=
  match d.bytes p with
  | .error e => .error e
  | .ok bs =>
    match Utf8.decode? bs with
    | some cs => .ok (String.ofList cs)
    | none => .error .invalidUtf8

/-- The entry for a name in a directory. Links to directories are left out, so that no chain of
directories leads back to where it began. -/
def entryOf? (d : Disk) (dir : Path) : String × DiskNode → Option Entry
  | (name, n) =>
    let path := dir.join ⟨name⟩
    match n with
    | .link _ => if d.isDir path then none else some ⟨path, name, false⟩
    | n => some ⟨path, name, n.isDirectory⟩

/-- The entries of a directory. -/
def list (d : Disk) (dir : Path) : Except FileError (List Entry) :=
  match d.node dir with
  | .error e => .error e
  | .ok (.directory entries) => .ok (entries.filterMap (d.entryOf? dir))
  | .ok _ => .error .notADirectory

/-- A disk as a file system. -/
def fileSystem (d : Disk) : FileSystem where
  list := d.list
  read := d.read
  isDir := d.isDir
  isFile := d.isFile
  depth := d.root.height

end Disk

end RefGraph
