import RefGraph.Disk.Changes
import RefGraph.Snapshot

/-!
# Snapshots on a disk

* `GraphData.save`: writes a snapshot, and creates the directory for it.
* `GraphData.load`: reads a snapshot.
-/

namespace RefGraph

/-- Why a snapshot was not kept or read. -/
inductive StoreError where
  | creating (path : Path)
  | writing (path : Path)
  | reading (path : Path)
  | parsing (path : Path)
deriving DecidableEq, Repr, Inhabited

/-- The text of an error. -/
def StoreError.message : StoreError → String
  | creating path => "creating " ++ path.text
  | writing path => "writing " ++ path.text
  | reading path => "reading " ++ path.text
  | parsing path => "parsing " ++ path.text

namespace GraphData

/-- Creates the directory for a file, if it is missing. -/
def makeDirectory (d : Disk) (p : Path) : Disk × Option StoreError :=
  match p.parent? with
  | none => (d, none)
  | some parent =>
    if parent.text = "" ∨ d.hasNode parent then (d, none)
    else
      match d.createDirs parent with
      | (d, none) => (d, none)
      | (d, some _) => (d, some (.creating parent))

/-- Writes the snapshot of a graph to a file. -/
def save (g : GraphData) (d : Disk) (p : Path) : Disk × Option StoreError :=
  match makeDirectory d p with
  | (d, some e) => (d, some e)
  | (d, none) =>
    match d.write p (Utf8.encode g.toJson.toList) with
    | .ok d => (d, none)
    | .error _ => (d, some (.writing p))

/-- The graph of a snapshot in a file. -/
def load (d : Disk) (p : Path) : Except StoreError GraphData :=
  match d.readText p with
  | .error _ => .error (.reading p)
  | .ok text =>
    match ofJson? text with
    | .ok g => .ok g
    | .error _ => .error (.parsing p)

end GraphData

end RefGraph
