import RefGraph.Text

/-!
# Paths

Paths are texts with slashes between names. A path is printed as it was written, but it is compared
by its components: repeated slashes, a slash at the end, and the component `.` anywhere but at the
beginning make no difference.

* `Path.components`: what a path is made of; `Path.equals` and `Path.order` compare by it.
* `Path.join`, `Path.parent?`, `Path.fileName?`, `Path.extension?`: the parts of a path.
* `Path.below?`, `Path.relativeTo?`: what is left of a path behind another one.
* `Path.folded`: a path without `.` and `..`.
-/

namespace RefGraph

/-- A path as it is written. -/
structure Path where
  text : String
deriving DecidableEq, Hashable, Repr, Inhabited

/-- A component of a path: the slash at its beginning, a `.` at its beginning, a `..`, or a
name. -/
inductive Component where
  | root
  | current
  | parent
  | name (s : String)
deriving DecidableEq, Hashable, Repr, Inhabited

namespace Component

/-- A component as it is written. -/
def text : Component → String
  | root => "/"
  | current => "."
  | parent => ".."
  | name s => s

/-- The order of components: slash, `.`, `..`, and then names by their characters. -/
def order : Component → Component → Ordering
  | root, root => .eq
  | root, _ => .lt
  | _, root => .gt
  | current, current => .eq
  | current, _ => .lt
  | _, current => .gt
  | parent, parent => .eq
  | parent, _ => .lt
  | _, parent => .gt
  | name s, name t => compare s t

/-- The component that stands between two slashes, if there is one; a `.` there is none. -/
def ofSegment? (segment : List Char) : Option Component :=
  if segment = [] ∨ segment = ['.'] then none
  else if segment = ['.', '.'] then some parent
  else some (name (String.ofList segment))

end Component

namespace Path

/-- Whether a path begins with a slash. -/
def isAbsolute (p : Path) : Bool := p.text.toList.head? == some '/'

/-- The components of a text. -/
def componentsOfChars (cs : List Char) : List Component :=
  let inner := (splitAtChar '/' cs).filterMap Component.ofSegment?
  if cs.head? = some '/' then .root :: inner
  else if (splitAtChar '/' cs).head? = some ['.'] then .current :: inner
  else inner

/-- The components of a path. -/
def components (p : Path) : List Component := componentsOfChars p.text.toList

/-- Whether two paths have the same components. -/
def equals (p q : Path) : Bool := p.components == q.components

/-- The order of lists of components: by the first component in which they differ. -/
def orderComponents : List Component → List Component → Ordering
  | [], [] => .eq
  | [], _ :: _ => .lt
  | _ :: _, [] => .gt
  | a :: as, b :: bs => (a.order b).then (orderComponents as bs)

/-- The order of paths, component by component. -/
def order (p q : Path) : Ordering := orderComponents p.components q.components

/-- A path behind another one; an absolute one replaces it. -/
def join (p q : Path) : Path :=
  if q.isAbsolute then q
  else if p.text.toList = [] ∨ p.text.toList.getLast? = some '/' then ⟨p.text ++ q.text⟩
  else ⟨p.text ++ "/" ++ q.text⟩

/-- Removes from the end of a text, written backwards, slashes and `.` between slashes, but not the
slash or the `.` at the beginning of the text. -/
def trimReversed : List Char → List Char
  | ['/'] => ['/']
  | '/' :: cs => trimReversed cs
  | ['.', '/'] => ['/']
  | '.' :: '/' :: cs => trimReversed cs
  | cs => cs

/-- The path without its last component, if that is not the slash at its beginning. -/
def parent? (p : Path) : Option Path :=
  match p.components.getLast? with
  | none | some .root => none
  | some _ =>
    let rest := (trimReversed p.text.toList.reverse).dropWhile (· ≠ '/')
    some ⟨String.ofList (trimReversed rest).reverse⟩

/-- The parents of a path, nearest first, as long as there are any; at most `fuel` of them. -/
def ancestorsUpTo : Nat → Path → List Path
  | 0, _ => []
  | fuel + 1, p =>
    match p.parent? with
    | none => []
    | some q => q :: ancestorsUpTo fuel q

/-- The parents of a path, nearest first. -/
def ancestors (p : Path) : List Path := ancestorsUpTo p.text.length p

/-- The last component of a path, if it is a name. -/
def fileName? (p : Path) : Option String :=
  match p.components.getLast? with
  | some (.name s) => some s
  | _ => none

/-- What follows the last dot of a name, if something precedes that dot. -/
def extensionOfName? (name : String) : Option String :=
  let back := name.toList.reverse
  let ext := back.takeWhile (· ≠ '.')
  let rest := back.drop (ext.length + 1)
  if ext.length = back.length ∨ rest = [] then none else some (String.ofList ext.reverse)

/-- The extension of the last component of a path. -/
def extension? (p : Path) : Option String := p.fileName?.bind extensionOfName?

/-- The components of a path behind those of another one. -/
def below? (base p : Path) : Option (List Component) :=
  if base.components.isPrefixOf p.components then
    some (p.components.drop base.components.length)
  else none

/-- A path relative to another one, with slashes between its components. -/
def relativeTo? (base p : Path) : Option String :=
  match base.below? p with
  | none | some [] => none
  | some cs => some (String.intercalate "/" (cs.map Component.text))

/-! ## Folding -/

/-- The names that are left when each `..` takes away the name before it. -/
def foldNames (cs : List Component) : List String :=
  (cs.foldl (fun names c =>
    match c with
    | .root | .current => names
    | .parent => names.drop 1
    | .name s => s :: names) []).reverse

/-- The path of the given names, absolute or not. -/
def ofNames (absolute : Bool) (names : List String) : Path :=
  ⟨(if absolute then "/" else "") ++ String.intercalate "/" names⟩

/-- A path without `.` and `..`: each `..` takes away the name before it, if there is one. -/
def folded (p : Path) : Path := ofNames p.isAbsolute (foldNames p.components)

end Path

end RefGraph
