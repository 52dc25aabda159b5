import RefGraph.FileSystem
import RefGraph.Graph.Model
import RefGraph.Ignore

/-!
# Walking a tree

A walk lists each directory by name, goes into the directories that are not ignored, and collects
the files that can be analysed. An ignore file speaks of its own directory and of all below. The
walk stops as soon as it finds more files than it may.

* `walk`: the walk of a tree.
* `Walk.candidates`: the files that are to be analysed.
-/

namespace RefGraph

/-- Why a scan failed. -/
inductive ScanError where
  | unusableRoot (path : Path) (reason : String)
  | tooManyFiles (limit : Nat)
deriving DecidableEq, Repr, Inhabited

/-- The text of an error. -/
def ScanError.message : ScanError → String
  | unusableRoot path reason => "cannot scan " ++ path.text ++ ": " ++ reason
  | tooManyFiles limit =>
    "too many files: the scan exceeded the limit of " ++ toString limit ++ " files"

/-- A file that a walk found and that can be analysed. `relative` is its path from the root. -/
structure WalkedFile where
  path : Path
  relative : String
  kind : SourceKind
  ignored : Bool
deriving DecidableEq, Repr, Inhabited

/-- What a walk found: the files that can be analysed, ignored or not, the number of all files that
are not ignored, and the number of ignored entries. -/
structure Walk where
  files : Array WalkedFile := #[]
  totalFiles : Nat := 0
  ignoredCount : Nat := 0
deriving Repr, Inhabited

namespace Walk

/-- The files that are to be analysed. -/
def candidates (w : Walk) : List WalkedFile := w.files.toList.filter fun f => !f.ignored

/-- Adds a file if it can be analysed. -/
def addFile (w : Walk) (e : Entry) (relative : String) (ignored : Bool) : Walk :=
  match SourceKind.ofPath? e.path with
  | none => w
  | some kind => { w with files := w.files.push ⟨e.path, relative, kind, ignored⟩ }

/-- Counts an ignored entry; a file is kept with a mark. -/
def addIgnored (w : Walk) (e : Entry) (relative : String) : Walk :=
  let w := { w with ignoredCount := w.ignoredCount + 1 }
  if e.isDir then w else w.addFile e relative true

/-- Counts a file that is not ignored, if the limit allows it. -/
def addCounted (limit : Nat) (w : Walk) (e : Entry) (relative : String) : Except ScanError Walk :=
  if limit < w.totalFiles + 1 then .error (.tooManyFiles limit)
  else .ok ({ w with totalFiles := w.totalFiles + 1 }.addFile e relative false)

end Walk

/-- The path of an entry from the root, given that of its directory. -/
def relativeName (dir name : String) : String := if dir = "" then name else dir ++ "/" ++ name

/-- Entries in the order of their names. -/
def sortEntries (entries : List Entry) : List Entry :=
  entries.mergeSort fun a b => !decide (b.name < a.name)

/-- The rules in force in a directory with given entries: a readable ignore file adds to those of
its parent. -/
def rulesIn (fs : FileSystem) (dir : String) (inherited : IgnoreRules) (entries : List Entry) :
    IgnoreRules :=
  match entries.find? fun e => !e.isDir && e.name == ignoreFileName with
  | none => inherited
  | some e =>
    match fs.read e.path with
    | .ok content => inherited.enter dir content
    | .error _ => inherited

/-- Walks a directory and at most `fuel` levels of directories. One that cannot be listed counts as
empty. -/
def walkDir (fs : FileSystem) (limit : Nat) :
    Nat → Path → String → IgnoreRules → Walk → Except ScanError Walk
  | 0, _, _, _, w => .ok w
  | fuel + 1, dir, relative, inherited, w =>
    match fs.list dir with
    | .error _ => .ok w
    | .ok listed =>
      let entries := sortEntries listed
      let rules := rulesIn fs relative inherited entries
      entries.foldlM (fun w e =>
        let name := relativeName relative e.name
        if rules.ignores name e.isDir then .ok (w.addIgnored e name)
        else if e.isDir then walkDir fs limit fuel e.path name rules w
        else w.addCounted limit e name) w

/-- The walk of a tree with at most `limit` files that are not ignored. -/
def walk (fs : FileSystem) (root : Path) (limit : Nat) : Except ScanError Walk :=
  walkDir fs limit (fs.depth + 1) root "" IgnoreRules.builtin {}

end RefGraph
