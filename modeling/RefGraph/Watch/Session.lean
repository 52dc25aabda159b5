import RefGraph.Disk.Changes
import RefGraph.Watch.State

/-!
# Watching a disk

The roots that are watched are directories of a disk. What is changed on the disk is heard by the
watchers of the roots around it.

* `Watch.Session`: a disk and its watchers.
* `Watch.Session.subscribe`: a subscription to a path.
* `Watch.Session.write` and others: changes of the disk.
-/

namespace RefGraph.Watch

/-- A disk and its watchers, which can be started only while they are driven by something. -/
structure Session where
  disk : Disk
  state : State := {}
  driven : Bool := true
deriving Inhabited

/-- Why a path cannot be watched. -/
inductive WatchError where
  | unreachable (path : Path) (e : FileError)
  | notDriven
deriving DecidableEq, Repr, Inhabited

/-- The text of an error. -/
def WatchError.message : WatchError → String
  | unreachable path e => "cannot watch " ++ path.text ++ ": " ++ e.message
  | notDriven => "watching requires a running tokio runtime"

/-- The paths of all nodes of a tree, given the names that lead to it. -/
def pathsWithin : List String → DiskNode → List Path
  | names, .directory entries => Disk.pathOf names :: ofEntries names entries
  | names, _ => [Disk.pathOf names]
where
  /-- The paths of all nodes of the trees in a directory. -/
  ofEntries : List String → List (String × DiskNode) → List Path
    | _, [] => []
    | names, (name, n) :: entries => pathsWithin (names ++ [name]) n ++ ofEntries names entries

namespace Session

/-- Subscribes to a path. -/
def subscribe (s : Session) (p : Path) : Except WatchError (Session × Subscription) :=
  match s.disk.canonical p with
  | .error e => .error (.unreachable p e)
  | .ok root =>
    if s.driven then
      match s.state.subscribe root true with
      | (state, some sub) => .ok ({ s with state }, sub)
      | (_, none) => .error .notDriven
    else .error .notDriven

/-- Ends a subscription. -/
def release (s : Session) (sub : Subscription) : Session :=
  { s with state := s.state.release sub }

/-- The root that is meant by a path: where it leads, or if that is nowhere the path itself. -/
def rootOf (s : Session) (p : Path) : Path := (s.disk.canonical p).toOption.getD p

/-- The roots that are watched, in the order of their texts. -/
def roots (s : Session) : List Path :=
  (s.state.roots.map Prod.fst).mergeSort fun a b => !decide (b.text < a.text)

/-- Lets the watchers of the roots around a path hear what happened to it. -/
def tell (kind : EventKind) (s : Session) (p : Path) : Session :=
  let around := s.state.roots.filter fun r => (r.1.below? p).isSome
  { s with state := around.foldl (fun state r => state.hear r.1 ⟨kind, [p]⟩) s.state }

/-- Those of several paths that lead nowhere. -/
def missing (s : Session) (paths : List Path) : List Path :=
  paths.filter fun p => !s.disk.hasNode p

/-- Creates a directory and those above it that are missing. -/
def makeDir (s : Session) (p : Path) : Session × Bool :=
  let fresh := s.missing (p :: p.ancestors)
  let (disk, failure) := s.disk.createDirs p
  let s := { s with disk }
  ((fresh.filterMap fun q => (disk.canonical q).toOption).foldl (tell .create) s, failure.isNone)

/-- Writes a file and creates the directories above it that are missing. -/
def write (s : Session) (p : Path) (bytes : List UInt8) : Session × Option FileError :=
  let s := match p.parent? with
    | some parent => (s.makeDir parent).1
    | none => s
  let kind := if s.disk.hasNode p then EventKind.modify else .create
  match s.disk.write p bytes with
  | .error e => (s, some e)
  | .ok disk => (tell kind { s with disk } (s.rootOf p), none)

/-- Removes what a path leads to. -/
def remove (s : Session) (p : Path) : Session × Bool :=
  match s.disk.namesAt? p with
  | none => (s, false)
  | some names =>
    let gone := ((s.disk.root.at? names).map (pathsWithin names)).getD []
    match s.disk.remove p with
    | .error _ => (s, false)
    | .ok disk => (gone.foldl (tell .remove) { s with disk }, true)

/-- Renames what a path leads to. -/
def rename (s : Session) (p q : Path) : Session × Bool :=
  match s.disk.rename p q with
  | .error _ => (s, false)
  | .ok disk =>
    let before := (s.disk.namesAt? p).toList
    let after := (disk.namesAt? q).toList
    ((before ++ after).foldl (fun s names => tell .modify s (Disk.pathOf names)) { s with disk },
      true)

end Session

end RefGraph.Watch
