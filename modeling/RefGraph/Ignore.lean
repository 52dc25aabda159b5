import RefGraph.Glob
import RefGraph.Reference

/-!
# Ignore rules

An ignore file names what is left out of a scan, one pattern per line. The patterns of all ignore
files on the way to a directory are kept as one list of lines that speak of paths from the root of
the scan; the last one that matches a path decides.

* `IgnoreLine.parse?`: the meaning of a single line.
* `rootedLine?`: a line of an ignore file, rewritten to speak of paths from the root.
* `IgnoreRules`: the lines in force, `enter` for a directory with an ignore file, and `ignores`.
-/

namespace RefGraph

/-- The meaning of a line of an ignore file: a glob, whether it takes back earlier lines, and
whether it speaks of directories only. -/
structure IgnoreLine where
  glob : Glob
  negated : Bool
  dirsOnly : Bool
deriving Repr, Inhabited

namespace IgnoreLine

/-- A line without the white space at its end, unless that is escaped. -/
def trimmed (line : List Char) : List Char :=
  if ['\\', ' '].isSuffixOf line then line else trimEndChars line

/-- The glob of a line without its marks. One that names no directory is found in all of them, and
one that ends in `/**` needs something inside. -/
def globText (rooted : Bool) (cs : List Char) : List Char :=
  let everywhere :=
    if !rooted && !cs.contains '/' && !("**/".toList.isPrefixOf cs || cs == "**".toList) then
      "**/".toList ++ cs
    else cs
  if "/**".toList.isSuffixOf everywhere then everywhere ++ "/*".toList else everywhere

/-- The meaning of a line. There is none for comments, empty lines and malformed globs. -/
def parse? (line : String) : Option IgnoreLine :=
  if line.toList.head? = some '#' then none
  else
    let cs := trimmed line.toList
    if cs = [] then none
    else
      let (negated, rooted, cs) :=
        if "\\!".toList.isPrefixOf cs || "\\#".toList.isPrefixOf cs then (false, false, cs.drop 1)
        else
          let (negated, cs) := match dropBeginning? ['!'] cs with
            | some rest => (true, rest)
            | none => (false, cs)
          match dropBeginning? ['/'] cs with
          | some rest => (negated, true, rest)
          | none => (negated, false, cs)
      let (dirsOnly, cs) := match dropEnding? ['/'] cs with
        | some rest => (true, (dropEnding? ['\\'] rest).getD rest)
        | none => (false, cs)
      match Glob.parse? true (globText rooted cs) with
      | .ok glob => some { glob, negated, dirsOnly }
      | .error _ => none

/-- Whether a line speaks of a path. -/
def speaksOf (l : IgnoreLine) (path : String) (isDir : Bool) : Bool :=
  (!l.dirsOnly || isDir) && l.glob.matchesText path

end IgnoreLine

/-- What a list of lines says about a path. -/
inductive Verdict where
  | none
  | ignore
  | whitelist
deriving DecidableEq, Repr, Inhabited

/-- A path without a `./` at its beginning. -/
def withoutDotSlash (path : String) : String :=
  match dropBeginning? ['.', '/'] path.toList with
  | some rest => String.ofList rest
  | none => path

/-- The verdict of the last line that speaks of a path. -/
def verdictOf (lines : List IgnoreLine) (path : String) (isDir : Bool) : Verdict :=
  match lines.reverse.find? fun l => l.speaksOf (withoutDotSlash path) isDir with
  | none => .none
  | some l => if l.negated then .whitelist else .ignore

/-! ## Lines from the root -/

/-- A text without the slashes at its ends. -/
def trimSlashes (cs : List Char) : List Char :=
  ((cs.dropWhile (· == '/')).reverse.dropWhile (· == '/')).reverse

/-- A line of the ignore file of a directory, rewritten to speak of paths from the root. There is
none for blank lines and comments. -/
def rootedLine? (dir line : String) : Option String :=
  let cs := trimEndChars line.toList
  if cs = [] ∨ cs.head? = some '#' then none
  else
    let (negated, cs) := match dropBeginning? ['!'] cs with
      | some rest => (true, rest)
      | none => (false, cs)
    let (dirsOnly, cs) := match dropEnding? ['/'] cs with
      | some rest => (true, rest)
      | none => (false, cs)
    let (anchored, cs) := match dropBeginning? ['/'] cs with
      | some rest => (true, rest)
      | none => (cs.contains '/', cs)
    if cs = [] then none
    else
      let dir := trimSlashes dir.toList
      let here := if dir = [] then [] else '/' :: dir
      let body :=
        if anchored then here ++ '/' :: cs
        else if dir = [] then "**/".toList ++ cs
        else here ++ "/**/".toList ++ cs
      some (String.ofList
        ((if negated then ['!'] else []) ++ body ++ (if dirsOnly then ['/'] else [])))

/-! ## The rules in force -/

/-- What is always ignored. -/
def builtinLines : List String :=
  [".git/", "node_modules/", ".pnpm-store/", ".cache/", "dist/", "build/", ".next/", ".DS_Store",
    "Thumbs.db"]

/-- The name of ignore files. -/
def ignoreFileName : String := ".gitignore"

/-- The lines of a text. A carriage return before a line break belongs to the break. -/
def linesOf (text : List Char) : List (List Char) :=
  let withoutReturn (line : List Char) : List Char := (dropEnding? ['\r'] line).getD line
  go withoutReturn [] text
where
  /-- The lines of what is left, behind the beginning of a line written backwards. -/
  go (ended : List Char → List Char) (line : List Char) : List Char → List (List Char)
    | [] => if line = [] then [] else [line.reverse]
    | c :: cs => if c = '\n' then ended line.reverse :: go ended [] cs else go ended (c :: line) cs

/-- The rules in force in a directory: lines that speak of paths from the root, in order, with
their meaning. -/
structure IgnoreRules where
  patterns : List String
  lines : List IgnoreLine
deriving Repr, Inhabited

namespace IgnoreRules

/-- The rules of given lines. -/
def ofPatterns (patterns : List String) : IgnoreRules :=
  { patterns, lines := patterns.filterMap IgnoreLine.parse? }

/-- The rules that hold everywhere. -/
def builtin : IgnoreRules := ofPatterns (builtinLines.filterMap (rootedLine? ""))

/-- The rules in force in a directory with an ignore file, given those of its parent. -/
def enter (r : IgnoreRules) (dir content : String) : IgnoreRules :=
  let added := (linesOf content.toList).filterMap fun line => rootedLine? dir (String.ofList line)
  { patterns := r.patterns ++ added
    lines := r.lines ++ added.filterMap IgnoreLine.parse? }

/-- Whether a path from the root is ignored. -/
def ignores (r : IgnoreRules) (path : String) (isDir : Bool) : Bool :=
  verdictOf r.lines path isDir = .ignore

end IgnoreRules

end RefGraph
