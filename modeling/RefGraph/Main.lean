import RefGraph.Command

/-!
# The program

The program reads from the real disk what its request is about, carries the request out on that, and
keeps the file that was written.

* `main`: the program.
-/

namespace RefGraph

/-- What an entry of a real directory stands for; nothing is known of a directory yet. -/
def readEntry (e : IO.FS.DirEntry) : IO DiskNode := do
  match (← e.path.symlinkMetadata).type with
  | .dir => return .directory []
  | .symlink => return .link (← IO.FS.realPath e.path).toString
  | _ => return .file (← IO.FS.readBinFile e.path).toList

/-- What an entry of a real directory stands for, with all that is below it. -/
partial def readTree (e : IO.FS.DirEntry) : IO DiskNode := do
  match ← readEntry e with
  | .directory _ =>
    let entries ← e.path.readDir
    return .directory (← entries.toList.mapM fun e => return (e.fileName, ← readTree e))
  | n => return n

/-- The entry for a name in a real directory. -/
def entryAt (directory : List String) (name : String) : IO.FS.DirEntry :=
  ⟨(Disk.pathOf directory).text, name⟩

/-- A disk on which a path leads to where it leads on the real one. Where that has nothing either,
the disk stays as it is. -/
partial def readTo (d : Disk) (p : Path) : IO Disk := do
  match d.place p with
  | .ok (.absent directory name _) =>
    match ← (readEntry (entryAt directory name)).toBaseIO with
    | .ok n => readTo (d.put directory name (some n)) p
    | .error _ => return d
  | _ => return d

/-- A disk on which all is below a path that is below it on the real one. -/
def readBelow (d : Disk) (p : Path) : IO Disk := do
  let d ← readTo d p
  match (d.locate p).toOption.bind fun names => names.getLast?.map fun name => (names, name) with
  | none => return d
  | some (names, name) =>
    return d.put names.dropLast name (some (← readTree (entryAt names.dropLast name)))

/-- As much of the real disk as a request is about. -/
def Request.readDisk (r : Request) : IO Disk := do
  let here : Path := ⟨(← IO.currentDir).toString⟩
  let d ← readTo { current := (Disk.namesOf here.text).drop 1 } here
  match r.task with
  | .extract _ output => (output.toList).foldlM readTo (← readBelow d r.root)
  | .watch _ _ => readBelow d r.root
  | .root start =>
    let start := start.getD r.root
    let d ← readTo d start
    (directoriesAbove d start).foldlM (fun d dir => readTo d (dir.join rootMarker)) d
  | .summary snapshot => readTo d snapshot
  | .version => return d

/-- Keeps the file that a request has written. -/
def Request.keep (r : Request) (d : Disk) : IO Unit := do
  match r.task with
  | .extract _ (some output) =>
    match d.bytes output with
    | .ok bytes =>
      for parent in output.parent? do
        if parent.text ≠ "" then IO.FS.createDirAll parent.text
      IO.FS.writeBinFile output.text ⟨bytes.toArray⟩
    | .error _ => return
  | _ => return

/-- Carries out a request on the real disk. -/
def Request.perform (r : Request) : IO Outcome := do
  let (d, outcome) := r.run (← r.readDisk)
  if outcome.code = 0 then r.keep d
  return outcome

end RefGraph

open RefGraph in
/-- The program: the outcome of a command line is printed, and its code is that of the program. -/
def main (args : List String) : IO UInt32 := do
  let outcome ← match Request.ofArguments? args with
    | .error e => pure (Outcome.ofUsage e)
    | .ok r => r.perform
  IO.print outcome.output
  for message in outcome.message do IO.eprintln message
  return UInt32.ofNat outcome.code
