import RefGraph.Path

/-!
# Changes that matter

A watcher hears of everything that happens below its root. A change matters if something is created,
modified, or removed, and not only inside of directories whose contents never matter.

* `Watch.isNoise`: whether a path never matters.
* `Watch.Event.isChange`: whether an event is a change that matters.
-/

namespace RefGraph.Watch

/-- What happened. -/
inductive EventKind where
  | create
  | modify
  | remove
  | access
  | other
deriving DecidableEq, Repr, Inhabited

/-- Something that happened to some paths. -/
structure Event where
  kind : EventKind
  paths : List Path
deriving DecidableEq, Repr, Inhabited

/-- The directories whose contents never matter. -/
def noiseNames : List String := [".git", "node_modules"]

/-- Whether a path leads through such a directory below the root. -/
def isNoise (root p : Path) : Bool :=
  ((root.below? p).getD p.components).any fun c => noiseNames.contains c.text

/-- Whether an event of a kind can be a change. -/
def EventKind.isChange : EventKind → Bool
  | create | modify | remove => true
  | access | other => false

/-- Whether an event is a change that matters to the watcher of a root. -/
def Event.isChange (root : Path) (e : Event) : Bool :=
  e.kind.isChange && e.paths.any fun p => !isNoise root p

end RefGraph.Watch
