import RefGraph.Disk

/-!
# Roots of repositories

A directory is the root of a repository if it holds a directory named `.git`.

* `findRoot?`: the nearest such directory at or above a path.
-/

namespace RefGraph

/-- The name of the directory that marks the root of a repository. -/
def rootMarker : Path := ⟨".git"⟩

/-- The directories at or above a path, nearest first. One that leads nowhere is taken as it is
written. -/
def directoriesAbove (d : Disk) (start : Path) : List Path :=
  let start := (d.canonical start).toOption.getD start
  if d.isDir start then start :: start.ancestors else start.ancestors

/-- The nearest directory at or above a path that is the root of a repository. -/
def findRoot? (d : Disk) (start : Path) : Option Path :=
  (directoriesAbove d start).find? fun dir => d.isDir (dir.join rootMarker)

end RefGraph
