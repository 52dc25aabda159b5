import RefGraph.FileSystem
import RefGraph.Graph.Model
import RefGraph.Reference

/-!
# Resolving specifiers

A specifier that begins with an alias or a slash is a path from the root, one that begins with a dot
a path from the directory of the file that holds it. Any other one names something outside. The path
is folded, and the first file that is found under it, or under it with an extension, or as the index
of the directory under it, is what the specifier refers to, if it lies below the root.

* `resolve?`: the file that a specifier refers to; none for something outside.
-/

namespace RefGraph

/-- The extensions that are tried, in order. -/
def triedExtensions : List String := scriptExtensions ++ styleExtensions

/-- A path with an extension behind it. -/
def withExtension (p : Path) (ext : String) : Path := ⟨p.text ++ "." ++ ext⟩

/-- The index file of a directory for an extension. -/
def indexFile (p : Path) (ext : String) : Path := p.join ⟨"index." ++ ext⟩

/-- A path without an extension that can be analysed is tried with such extensions. -/
def withExtensions (p : Path) : List Path :=
  if (SourceKind.ofPath? p).isSome then [] else triedExtensions.map (withExtension p)

/-- The file under a path: the path itself, the path with an extension, or the index of the
directory. -/
def fileUnder? (fs : FileSystem) (p : Path) : Option Path :=
  ((p :: withExtensions p).find? fs.isFile).orElse fun _ =>
    if fs.isDir p then (triedExtensions.map (indexFile p)).find? fs.isFile else none

/-- A specifier without what follows a question mark or a number sign. -/
def withoutQuery (specifier : List Char) : List Char :=
  specifier.takeWhile fun c => c != '?' && c != '#'

/-- The rest of a specifier behind the first alias that it begins with. -/
def behindAlias? (aliases : List String) (specifier : List Char) : Option (List Char) :=
  aliases.findSome? fun a => dropBeginning? a.toList specifier

/-- The path that a specifier means, if it does not name something outside. -/
def candidate? (root : Path) (aliases : List String) (fromFile : Path) (specifier : List Char) :
    Option Path :=
  match behindAlias? aliases specifier with
  | some rest => some (root.join ⟨String.ofList rest⟩)
  | none =>
    match specifier with
    | '/' :: rest => some (root.join ⟨String.ofList rest⟩)
    | '.' :: rest => some ((fromFile.parent?.getD root).join ⟨String.ofList ('.' :: rest)⟩)
    | _ => none

/-- The file below the root that a specifier refers to. -/
def resolve? (fs : FileSystem) (root : Path) (aliases : List String) (fromFile : Path)
    (specifier : String) : Option Path :=
  if isRemote specifier.toList then none
  else
    match candidate? root aliases fromFile (withoutQuery specifier.toList) with
    | none => none
    | some p => (fileUnder? fs p.folded).filter fun hit => (root.below? hit).isSome

end RefGraph
