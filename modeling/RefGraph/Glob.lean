/-!
# Globs

A glob is read into tokens, and tokens are matched against the bytes of a path. A star and a
question mark stand for bytes other than a slash; `**` between slashes stands for any number of
directories.

* `Glob.parse?`: the tokens of a pattern, if it is well formed.
* `Glob.matchesBytes`: whether a path is matched as a whole.
-/

namespace RefGraph

/-- A part of a glob. A class lists the ranges of characters that it holds. -/
inductive Glob.Token where
  | literal (c : Char)
  | any
  | star
  | leadingDirs
  | trailingDirs
  | innerDirs
  | charClass (negated : Bool) (ranges : List (Char × Char))
  | alternatives (choices : List (List Glob.Token))
deriving Repr, Inhabited

/-- A glob: its parts in order. -/
structure Glob where
  tokens : List Glob.Token
deriving Repr, Inhabited

namespace Glob

/-- Why a pattern is no glob. -/
inductive PatternError where
  | unopenedAlternatives
  | unclosedAlternatives
  | unclosedClass
  | invalidRange (first last : Char)
  | danglingEscape
deriving DecidableEq, Repr, Inhabited

/-! ## Reading classes -/

/-- A class while it is read. -/
structure ClassState where
  ranges : List (Char × Char) := []
  inRange : Bool := false

/-- Extends the last range up to a character. -/
def extendRange (c : Char) : List (Char × Char) → Except PatternError (List (Char × Char))
  | (a, _) :: rest => if c < a then .error (.invalidRange a c) else .ok ((a, c) :: rest)
  | [] => .ok []

/-- Reads the rest of a class up to its bracket. The ranges come last first. None means that the
class is not closed. -/
def readClass (first : Bool) (s : ClassState) :
    List Char → Except PatternError (Option (List (Char × Char) × List Char))
  | [] => .ok none
  | c :: cs =>
    if c = ']' ∧ !first then
      .ok (some (if s.inRange then ('-', '-') :: s.ranges else s.ranges, cs))
    else if c = '-' ∧ !first ∧ !s.inRange then readClass false { s with inRange := true } cs
    else if s.inRange then
      match extendRange c s.ranges with
      | .error e => .error e
      | .ok ranges => readClass false { ranges } cs
    else readClass false { ranges := (c, c) :: s.ranges } cs

/-- A class behind its opening bracket. -/
def readWholeClass (cs : List Char) : Except PatternError (Option (Token × List Char)) :=
  let (negated, body) := match cs with
    | '!' :: rest => (true, rest)
    | '^' :: rest => (true, rest)
    | rest => (false, rest)
  (readClass true {} body).map fun found =>
    found.map fun (ranges, rest) => (.charClass negated ranges.reverse, rest)

/-! ## Reading patterns -/

/-- A branch of alternatives that is being read: its tokens and the finished branches before it,
last first. -/
structure Branch where
  tokens : List Token := []
  finished : List (List Token) := []

/-- A pattern while it is read: the branches that are open, innermost first, the tokens outside of
all, last first, the character before, and whether a bracket was found to open no class. -/
structure ReadState where
  outer : List Token := []
  branches : List Branch := []
  previous : Option Char := none
  openBracket : Bool := false

namespace ReadState

/-- The tokens of the innermost branch, last first. -/
def current (s : ReadState) : List Token :=
  match s.branches with
  | [] => s.outer
  | b :: _ => b.tokens

/-- Replaces the tokens of the innermost branch. -/
def setCurrent (s : ReadState) (tokens : List Token) : ReadState :=
  match s.branches with
  | [] => { s with outer := tokens }
  | b :: bs => { s with branches := { b with tokens } :: bs }

/-- Adds a token to the innermost branch. -/
def push (s : ReadState) (t : Token) : ReadState := s.setCurrent (t :: s.current)

/-- Remembers the character before the next one. -/
def after (s : ReadState) (c : Char) : ReadState := { s with previous := some c }

/-- Puts `**` behind a slash in the place of that slash, unless it joins another `**`. -/
def pushDirs (s : ReadState) (t : Token) : ReadState :=
  match s.current with
  | .leadingDirs :: _ => s
  | .trailingDirs :: _ => s
  | _ :: rest => s.setCurrent (t :: rest)
  | [] => s

end ReadState

/-- What two stars in a row mean, given what follows them: the new state and the number of
characters taken behind them. -/
def readStars (s : ReadState) (cs : List Char) : ReadState × Nat :=
  let plain := ((s.push .star).push .star).after '*'
  if s.current.isEmpty then
    match cs with
    | [] => ((s.push .leadingDirs).after '*', 0)
    | c :: _ => if c = '/' then ((s.push .leadingDirs).after '/', 1) else (plain, 0)
  else if s.previous ≠ some '/' ∧
      (s.branches.isEmpty ∨ (s.previous ≠ some ',' ∧ s.previous ≠ some '{')) then (plain, 0)
  else
    match cs with
    | [] => ((s.pushDirs .trailingDirs).after '*', 0)
    | c :: _ =>
      if !s.branches.isEmpty ∧ (c = ',' ∨ c = '}') then ((s.pushDirs .trailingDirs).after '*', 0)
      else if c = '/' then ((s.pushDirs .innerDirs).after '/', 1)
      else (plain, 0)

/-- Reads a pattern character by character; `fuel` bounds their number. An unclosed bracket is an
error, or if `lenient` is set a character like others. -/
def readFrom (lenient : Bool) :
    Nat → ReadState → List Char → Except PatternError ReadState
  | 0, s, _ => .ok s
  | _, s, [] => .ok s
  | fuel + 1, s, c :: cs =>
    if c = '?' then readFrom lenient fuel ((s.push .any).after c) cs
    else if c = '*' then
      match cs with
      | '*' :: rest =>
        let (s, taken) := readStars s rest
        readFrom lenient fuel s (rest.drop taken)
      | _ => readFrom lenient fuel ((s.push .star).after c) cs
    else if c = '[' ∧ !s.openBracket then
      match readWholeClass cs with
      | .error e => .error e
      | .ok (some (t, rest)) => readFrom lenient fuel ((s.push t).after ']') rest
      | .ok none =>
        if lenient then
          readFrom lenient fuel { (s.push (.literal c)).after c with openBracket := true } cs
        else .error .unclosedClass
    else if c = '{' then readFrom lenient fuel { s.after c with branches := {} :: s.branches } cs
    else if c = '}' then
      match s.branches with
      | [] => .error .unopenedAlternatives
      | b :: bs =>
        let choices := (b.tokens.reverse :: b.finished).reverse
        readFrom lenient fuel
          (({ s with branches := bs }.push (.alternatives choices)).after c) cs
    else if c = ',' then
      match s.branches with
      | [] => readFrom lenient fuel ((s.push (.literal c)).after c) cs
      | b :: bs =>
        readFrom lenient fuel
          { s.after c with
            branches := { finished := b.tokens.reverse :: b.finished } :: bs } cs
    else if c = '\\' then
      match cs with
      | [] => .error .danglingEscape
      | d :: rest => readFrom lenient fuel ((s.push (.literal d)).after d) rest
    else readFrom lenient fuel ((s.push (.literal c)).after c) cs

/-- The glob of a pattern. -/
def parse? (lenient : Bool) (pattern : List Char) : Except PatternError Glob :=
  match readFrom lenient pattern.length {} pattern with
  | .error e => .error e
  | .ok s => if s.branches.isEmpty then .ok ⟨s.outer.reverse⟩ else .error .unclosedAlternatives

/-! ## Matching -/

/-- The byte of a slash. -/
def slash : UInt8 := 47

/-- The bytes of a character. -/
def bytesOf (c : Char) : List UInt8 := (String.ofList [c]).toUTF8.toList

/-- The ranges of bytes of a range of characters: a class holds bytes, and a character of several
bytes stands for each of them. -/
def byteRanges (range : Char × Char) : List (UInt8 × UInt8) :=
  let (a, b) := range
  if a = b then (bytesOf a).map fun x => (x, x)
  else
    let first := bytesOf a
    let last := bytesOf b
    (first.dropLast.map fun x => (x, x)) ++
      [(first.getLastD 0, last.headD 0)] ++ ((last.drop 1).map fun x => (x, x))

/-- Whether a class holds a byte. -/
def classHolds (negated : Bool) (ranges : List (Char × Char)) (x : UInt8) : Bool :=
  ((ranges.flatMap byteRanges).any fun (a, b) => a ≤ x && x ≤ b) != negated

/-- What may be left of a text behind any number of bytes other than a slash. -/
def restsOfStar : List UInt8 → List (List UInt8)
  | [] => [[]]
  | x :: xs => if x = slash then [x :: xs] else (x :: xs) :: restsOfStar xs

/-- What is left of a text behind each of its slashes. -/
def restsBehindSlash : List UInt8 → List (List UInt8)
  | [] => []
  | x :: xs => if x = slash then xs :: restsBehindSlash xs else restsBehindSlash xs

/-- All that may be left of a text. -/
def allRests : List UInt8 → List (List UInt8)
  | [] => [[]]
  | x :: xs => (x :: xs) :: allRests xs

/-- What is left of a text behind given bytes, if it begins with them. -/
def restBehind : List UInt8 → List UInt8 → List (List UInt8)
  | [], xs => [xs]
  | _ :: _, [] => []
  | y :: ys, x :: xs => if x = y then restBehind ys xs else []

mutual

/-- Whether a token stands for nothing: alternatives of which none is left. -/
def Token.isVoid : Token → Bool
  | .alternatives choices => choicesAreVoid choices
  | _ => false

/-- Whether all tokens stand for nothing. -/
def tokensAreVoid : List Token → Bool
  | [] => true
  | t :: ts => t.isVoid && tokensAreVoid ts

/-- Whether all choices stand for nothing. -/
def choicesAreVoid : List (List Token) → Bool
  | [] => true
  | ts :: tss => tokensAreVoid ts && choicesAreVoid tss

end

mutual

/-- What may be left of a text behind a token. Choices that stand for nothing are left out. -/
def Token.rests : Token → List UInt8 → List (List UInt8)
  | .literal c, xs => restBehind (bytesOf c) xs
  | .any, x :: xs => if x = slash then [] else [xs]
  | .any, [] => []
  | .star, xs => restsOfStar xs
  | .leadingDirs, xs => xs :: restsBehindSlash xs
  | .trailingDirs, x :: xs => if x = slash then allRests xs else []
  | .trailingDirs, [] => []
  | .innerDirs, x :: xs => if x = slash then xs :: restsBehindSlash xs else []
  | .innerDirs, [] => []
  | .charClass negated ranges, x :: xs => if classHolds negated ranges x then [xs] else []
  | .charClass _ _, [] => []
  | .alternatives choices, xs =>
    if choicesAreVoid choices then [xs] else restsOfChoices choices xs

/-- What may be left of a text behind several tokens. -/
def restsOfTokens : List Token → List UInt8 → List (List UInt8)
  | [], xs => [xs]
  | t :: ts, xs => ((t.rests xs).flatMap (restsOfTokens ts)).eraseDups

/-- What may be left of a text behind one of several choices. -/
def restsOfChoices : List (List Token) → List UInt8 → List (List UInt8)
  | [], _ => []
  | ts :: tss, xs =>
    (if tokensAreVoid ts then [] else restsOfTokens ts xs) ++ restsOfChoices tss xs

end

/-- Whether a glob matches the bytes of a path as a whole. The glob `**` matches every path. -/
def matchesBytes (g : Glob) (path : List UInt8) : Bool :=
  match g.tokens with
  | [.leadingDirs] => true
  | ts => (restsOfTokens ts path).contains []

/-- Whether a glob matches a path. -/
def matchesText (g : Glob) (path : String) : Bool := g.matchesBytes path.toUTF8.toList

end Glob

end RefGraph
