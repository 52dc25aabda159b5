import RefGraph.Script.Lexeme

/-!
# Tokens that depend on their context

Some tokens are not described by a pattern: the semicolon that a line end stands for, the question
mark of a conditional expression, the text between the parts of a template, the text between
elements, and the comments of the markup language. Whether one is found depends on the tokens that
the grammar allows at the place.

* `Contextual.scan?`: the token of this kind at the beginning of a text.
-/

namespace RefGraph.Script.Contextual

open Lexeme

/-- What the grammar allows at a place, as far as it matters here. -/
structure Allowed where
  lex : LexClass → Bool
  logicalOr : Bool

/-- A token that was found: its class, the number of characters before it and its length. -/
structure Found where
  token : LexClass
  skipped : Nat
  length : Nat

/-- Whether a text goes on: it ends at a NUL character. -/
def next? : List Char → Option Char
  | [] => none
  | c :: _ => if c == '\x00' then none else some c

/-! ## Blanks and comments -/

/-- How a run of blanks and comments ends: at a single slash, behind a comment on one line, or
elsewhere. -/
inductive BlankEnd where
  | slash
  | oneLineComment
  | done
deriving DecidableEq

/-- A run of blanks and comments: how it ends, what follows, and whether there was a comment. -/
structure BlankRun where
  ending : BlankEnd
  rest : List Char
  comment : Bool

/-- Where a run of blanks and comments is. -/
inductive BlankPlace where
  | between
  | lineComment
  | blockComment
deriving DecidableEq

/-- Goes over blanks and comments. Unless all are taken, a block comment ends the run when no
further comment follows at once; `lines` tells whether a line ended inside a block comment. -/
def blankRun (all : Bool) : BlankPlace → (lines comment : Bool) → List Char → BlankRun
  | .between, _, comment, [] => ⟨.done, [], comment⟩
  | .between, lines, comment, '/' :: '/' :: cs => blankRun all .lineComment lines comment cs
  | .between, lines, comment, '/' :: '*' :: cs => blankRun all .blockComment lines comment cs
  | .between, lines, comment, c :: cs =>
    if c == '/' then ⟨.slash, cs, comment⟩
    else if isSpace c then blankRun all .between lines comment cs
    else ⟨.done, c :: cs, comment⟩
  | .lineComment, _, _, [] => ⟨.done, [], true⟩
  | .lineComment, lines, comment, c :: cs =>
    if c == '\n' then blankRun all .between lines true cs
    else if isLineEnd c || c == '\x00' then ⟨.done, c :: cs, true⟩
    else blankRun all .lineComment lines comment cs
  | .blockComment, _, comment, [] => ⟨.done, [], comment⟩
  | .blockComment, lines, _, '*' :: '/' :: cs =>
    if cs.head? != some '/' && !all then ⟨if lines then .done else .oneLineComment, cs, true⟩
    else blankRun all .between lines true cs
  | .blockComment, lines, comment, c :: cs =>
    if c == '\x00' then ⟨.done, c :: cs, comment⟩
    else blankRun all .blockComment (lines || isLineEnd c) comment cs

/-! ## Semicolons -/

/-- Whether a semicolon is missing, whether a comment was met on the way, and where the search
ended. -/
structure Missing where
  missing : Bool
  comment : Bool
  rest : List Char

/-- Whether a word at the beginning is exactly `in` or `instanceof`, so that the line goes on. -/
def continuesWithIn (cs : List Char) : Bool :=
  let word := cs.take (run Char.isAlpha cs)
  word == "in".toList || word == "instanceof".toList

/-- Whether a semicolon is missing before what follows a line end. -/
def missingBeforeLine (typed : Bool) (allowed : Allowed) (cs : List Char) : Bool :=
  match next? cs with
  | none => true
  | some c =>
    if "`,;*%><=?^|&/:".toList.contains c then false
    else if c == '.' then !typed && ((cs.drop 1).head?.map Char.isDigit).getD false
    else if c == '{' then !(typed && allowed.lex .signatureSemicolon)
    else if c == '(' || c == '[' then typed && !allowed.logicalOr
    else if c == '+' || c == '-' then (cs.drop 1).head? == some c
    else if c == '!' then (cs.drop 1).head? != some '='
    else !continuesWithIn cs

/-- Goes over blanks and comments if the text begins with a slash. The search for a semicolon may
end there. -/
def passComment (allowed : Allowed) (comment : Bool) (cs : List Char) :
    Missing ⊕ (Bool × List Char) :=
  if next? cs == some '/' then
    let blank := blankRun false .between false false cs
    let comment := comment || blank.comment
    if blank.ending == .slash then .inl ⟨false, comment, blank.rest⟩
    else if blank.ending == .done && !allowed.logicalOr &&
        next? blank.rest != some ',' && next? blank.rest != some '=' then
      .inl ⟨true, comment, blank.rest⟩
    else .inr (comment, blank.rest)
  else .inr (comment, cs)

/-- Looks for the end of the line, a closing brace or the end of the text. -/
def missingSemicolon (typed : Bool) (allowed : Allowed) : Nat → Bool → List Char → Missing
  | 0, comment, cs => ⟨false, comment, cs⟩
  | fuel + 1, comment, cs =>
    match passComment allowed comment cs with
    | .inl answer => answer
    | .inr (comment, cs) =>
      match next? cs with
      | none => ⟨true, comment, cs⟩
      | some c =>
        if c == '}' then
          let rest := (cs.drop 1).dropWhile isSpace
          if typed && next? rest == some ':' then ⟨allowed.logicalOr, comment, rest⟩
          else ⟨true, comment, rest⟩
        else if isLineEnd c then
          let blank := blankRun true .between false false (cs.drop 1)
          let comment := comment || blank.comment
          if blank.ending == .slash then ⟨false, comment, blank.rest⟩
          else ⟨missingBeforeLine typed allowed blank.rest, comment, blank.rest⟩
        else if isSpace c then missingSemicolon typed allowed fuel comment (cs.drop 1)
        else ⟨false, comment, cs⟩

/-! ## The other tokens -/

/-- The question mark of a conditional expression, which is none of `??`, `?.` and the marks of
optional parameters. -/
def ternaryMark (cs : List Char) : Option Found :=
  let n := run isSpace cs
  match cs.drop n with
  | '?' :: rest =>
    let found : Found := ⟨.ternaryMark, n, 1⟩
    if next? rest == some '?' then none
    else
      let after := rest.dropWhile isSpace
      match next? after with
      | some c =>
        if c == ':' || c == ')' || c == ',' then none
        else if c == '.' then
          if ((after.drop 1).head?.map Char.isDigit).getD false then some found else none
        else some found
      | none => some found
  | _ => none

/-- The length of template text up to a backquote, an escape or a substitution. -/
def templateText : List Char → Option Nat
  | [] => none
  | '$' :: '{' :: _ => some 0
  | c :: cs =>
    if c == '`' || c == '\\' then some 0
    else if c == '\x00' then none
    else (templateText cs).map (· + 1)

/-- Text between elements: its length, and whether it is more than blanks around line ends. -/
def elementText : (afterLine seen : Bool) → List Char → Nat × Bool
  | _, seen, [] => (0, seen)
  | afterLine, seen, c :: cs =>
    if "<>\x7b\x7d&\x00".toList.contains c then (0, seen)
    else
      let (n, seen) :=
        if c == '\n' then elementText true seen cs
        else elementText (afterLine && isSpace c) (seen || !(afterLine && isSpace c)) cs
      (n + 1, seen)

/-- A comment of the markup language: from its opening, or from its closing, to the line end. -/
def htmlComment (cs : List Char) : Option Found :=
  let n := run (fun c => isSpace c || isLineEnd c) cs
  let toLineEnd (opening : Nat) : Option Found :=
    some ⟨.htmlComment, n,
      opening + run (fun c => !(isLineEnd c || c == '\x00')) (cs.drop (n + opening))⟩
  match cs.drop n with
  | '<' :: '!' :: '-' :: '-' :: _ => toLineEnd 4
  | '-' :: '-' :: '>' :: _ => toLineEnd 3
  | _ => none

/-- The contextual token at the beginning of a text behind the text of an element. -/
def scanAfterText? (typed : Bool) (allowed : Allowed) (cs : List Char) : Option Found :=
  if allowed.lex .automaticSemicolon || typed && allowed.lex .signatureSemicolon then
    let answer := missingSemicolon typed allowed (cs.length + 1) false cs
    if answer.missing then some ⟨.automaticSemicolon, 0, 0⟩
    else if !answer.comment && allowed.lex .ternaryMark && next? answer.rest == some '?' then
      (ternaryMark answer.rest).map fun found =>
        { found with skipped := found.skipped + (cs.length - answer.rest.length) }
    else none
  else if allowed.lex .ternaryMark then ternaryMark cs
  else if allowed.lex .htmlComment && !allowed.logicalOr && !allowed.lex .escape &&
      !allowed.lex .regexBody then htmlComment cs
  else none

/-- The contextual token at the beginning of a text, in a typed or an untyped dialect. -/
def scan? (typed : Bool) (allowed : Allowed) (cs : List Char) : Option Found :=
  if allowed.lex .templateFragment then
    if allowed.lex .automaticSemicolon then none
    else ((templateText cs).bind positive).map fun n => ⟨.templateFragment, 0, n⟩
  else if allowed.lex .markupText then
    let (n, seen) := elementText false false cs
    if seen then some ⟨.markupText, 0, n⟩
    else
      (scanAfterText? typed allowed (cs.drop n)).map fun found =>
        { found with skipped := found.skipped + n }
  else scanAfterText? typed allowed cs

end RefGraph.Script.Contextual
