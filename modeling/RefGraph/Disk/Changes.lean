import RefGraph.Disk

/-!
# Changes of disks

Files and directories are created, removed, and renamed. A change gives back the disk and, where
others may want to know, the places that it touched.

* `Disk.createDir`, `Disk.createDirs`: new directories.
* `Disk.write`: a new file, or new bytes for one.
* `Disk.addLink`, `Disk.remove`, `Disk.rename`: links, removal, and renaming.
-/

namespace RefGraph.Disk

/-- The names in a path up to the last one that says something, and that one. -/
def lastName? (p : Path) : Option (List String × String) :=
  let names := ((namesOf p.text).reverse.dropWhile (· = "")).reverse
  names.getLast?.bind fun last =>
    if last = "." ∨ last = ".." then none else some (names.dropLast, last)

/-- The directory that holds the last name of a path, which need not be there, and that name. -/
def holder (d : Disk) (p : Path) : Except FileError (List String × String) :=
  match lastName? p with
  | none => if d.hasNode p then .error .alreadyExists else .error .notFound
  | some (names, last) =>
    match follow d.root maxLinks (startOf d.current p.text) names with
    | .error e => .error e
    | .ok (.absent _ _ _) => .error .notFound
    | .ok (.node names) =>
      if (d.root.at? names).any DiskNode.isDirectory then .ok (names, last)
      else .error .notADirectory

/-- A disk with a new node, or with none, for a name in a directory. -/
def put (d : Disk) (directory : List String) (name : String) (new : Option DiskNode) : Disk :=
  { d with root := d.root.put directory name new }

/-- The node of a name in a directory. -/
def nodeIn? (d : Disk) (directory : List String) (name : String) : Option DiskNode :=
  (d.root.at? directory).bind fun n => n.child? name

/-- Adds a node where there is none. -/
def addNode (d : Disk) (p : Path) (new : DiskNode) : Except FileError Disk :=
  (d.holder p).bind fun (directory, name) =>
    if (d.nodeIn? directory name).isSome then .error .alreadyExists
    else .ok (d.put directory name (some new))

/-- Creates a directory. -/
def createDir (d : Disk) (p : Path) : Except FileError Disk := d.addNode p (.directory [])

/-- Creates a link. -/
def addLink (d : Disk) (p : Path) (target : String) : Except FileError Disk :=
  d.addNode p (.link target)

/-- Creates a directory, and before it those above that are missing, at most `fuel` of them. What
was created stays, also if something fails later. -/
def createDirsUpTo : Nat → Disk → Path → Disk × Option FileError
  | 0, d, _ => (d, some .notFound)
  | fuel + 1, d, p =>
    if p.text = "" then (d, none)
    else
      match d.createDir p with
      | .ok d => (d, none)
      | .error e =>
        if e = .notFound then
          match p.parent? with
          | none => (d, some e)
          | some parent =>
            match createDirsUpTo fuel d parent with
            | (d, some e) => (d, some e)
            | (d, none) =>
              match d.createDir p with
              | .ok d => (d, none)
              | .error e => if d.isDir p then (d, none) else (d, some e)
        else if d.isDir p then (d, none)
        else (d, some e)

/-- Creates a directory, and before it those above that are missing. -/
def createDirs (d : Disk) (p : Path) : Disk × Option FileError :=
  createDirsUpTo (p.text.length + 1) d p

/-- Writes the bytes of a file, which is created if it is missing; also where a link leads. -/
def write (d : Disk) (p : Path) (bytes : List UInt8) : Except FileError Disk :=
  match d.place p with
  | .error e => .error e
  | .ok (.absent directory name []) => .ok (d.put directory name (some (.file bytes)))
  | .ok (.absent _ _ rest) =>
    if rest.all (· = "") then .error .isADirectory else .error .notFound
  | .ok (.node names) =>
    match d.root.at? names, names.getLast? with
    | some (.file _), some name => .ok (d.put names.dropLast name (some (.file bytes)))
    | _, _ => .error .isADirectory

/-- The names that lead to a path, of which the last is not followed, if it is there. -/
def namesAt? (d : Disk) (p : Path) : Option (List String) :=
  (d.holder p).toOption.bind fun (directory, name) =>
    if (d.nodeIn? directory name).isSome then some (directory ++ [name]) else none

/-- Removes a file, a link, or a directory with all that is in it. -/
def remove (d : Disk) (p : Path) : Except FileError Disk :=
  (d.holder p).bind fun (directory, name) =>
    if (d.nodeIn? directory name).isSome then .ok (d.put directory name none)
    else .error .notFound

/-- Whether a node may take the place of another one. -/
def mayReplace (new : DiskNode) : Option DiskNode → Bool
  | none => true
  | some (.directory entries) => new.isDirectory && entries.isEmpty
  | some _ => !new.isDirectory

/-- Renames a node. It takes the place of a file, or a directory that of an empty one, but none is
moved into itself. -/
def rename (d : Disk) (p q : Path) : Except FileError Disk :=
  (d.holder p).bind fun (directory, name) =>
    match d.nodeIn? directory name with
    | none => .error .notFound
    | some n =>
      (d.holder q).bind fun (directory', name') =>
        if directory ++ [name] = directory' ++ [name'] then .ok d
        else if (directory ++ [name]).isPrefixOf directory' then .error .notADirectory
        else if mayReplace n (d.nodeIn? directory' name') then
          .ok ((d.put directory name none).put directory' name' (some n))
        else .error .alreadyExists

/-- A disk that has been filled as far as it could be: directories, files with their bytes, and
links, each with the directories above. -/
def ofEntries (d : Disk) (dirs : List Path) (files : List (Path × List UInt8))
    (links : List (Path × String)) : Disk :=
  let withParent (d : Disk) (p : Path) : Disk :=
    match p.parent? with
    | some parent => (d.createDirs parent).1
    | none => d
  let d := dirs.foldl (fun d p => (d.createDirs p).1) d
  let d := files.foldl (fun d (p, bytes) =>
    let d := withParent d p
    (d.write p bytes).toOption.getD d) d
  links.foldl (fun d (p, target) =>
    let d := withParent d p
    (d.addLink p target).toOption.getD d) d

end RefGraph.Disk
