import RefGraph.Reference
import RefGraph.Style.Comments

/-!
# Imports of stylesheets

An import statement is `@import`, white space, and the rest up to a semicolon or the end of the
line. It holds specifiers with commas between them: quoted, inside `url(...)`, or plain words. What
follows the last specifier is left alone.

* `Style.imports`: the references of a stylesheet.
-/

namespace RefGraph.Style

/-- The word that begins an import statement. -/
def importWord : List Char := ['@', 'i', 'm', 'p', 'o', 'r', 't']

/-- The number of characters at the beginning that have a property. -/
def countWhile (p : Char → Bool) (cs : List Char) : Nat := (cs.takeWhile p).length

/-- The length of the import statement at the beginning of a text, if there is one. -/
def statementLength? (cs : List Char) : Option Nat :=
  if importWord.isPrefixOf cs then
    let rest := cs.drop importWord.length
    let white := countWhile isWhite rest
    let body := countWhile (fun c => c != ';' && c != '\n') (rest.drop white)
    let semicolon := if (rest.drop (white + body)).head? = some ';' then 1 else 0
    if white = 0 then none else some (importWord.length + white + body + semicolon)
  else none

/-- The import statements of a text with the places where they begin, where `skip` more characters
belong to a statement that was found. -/
def statementsFrom : (skip place : Nat) → List Char → List (Nat × List Char)
  | _, _, [] => []
  | skip + 1, place, _ :: cs => statementsFrom skip (place + 1) cs
  | 0, place, c :: cs =>
    match statementLength? (c :: cs) with
    | some n => (place, (c :: cs).take n) :: statementsFrom (n - 1) (place + 1) cs
    | none => statementsFrom 0 (place + 1) cs

/-- The import statements of a text with the places where they begin. -/
def statements (text : List Char) : List (Nat × List Char) := statementsFrom 0 0 text

/-- What is in quotes at the beginning of a text, and what follows the closing quote. -/
def quotedText? : List Char → Option (List Char × List Char)
  | [] => none
  | q :: cs =>
    if q = '"' ∨ q = '\'' then
      let inner := cs.takeWhile (· != q)
      match cs.dropWhile (· != q) with
      | _ :: rest => if inner = [] then none else some (inner, rest)
      | [] => none
    else none

/-- Whether a character may belong to a plain word. -/
def isWordChar (c : Char) : Bool :=
  !(c == '"' || c == '\'' || isWhite c || c == ';' || c == ',' || c == ')')

/-- What is in quotes, or the plain word, at the beginning of a text, and what follows. -/
def itemText? (cs : List Char) : Option (List Char × List Char) :=
  (quotedText? cs).orElse fun _ =>
    let word := cs.takeWhile isWordChar
    if word = [] then none else some (word, cs.dropWhile isWordChar)

/-- What is left of a text behind `url(` and white space, if it begins with that. -/
def afterUrl? : List Char → Option (List Char)
  | 'u' :: 'r' :: 'l' :: '(' :: cs => some (cs.dropWhile isWhite)
  | _ => none

/-- A text without white space and a closing parenthesis at its beginning. -/
def dropClosing (cs : List Char) : List Char :=
  match cs.dropWhile isWhite with
  | ')' :: rest => rest
  | rest => rest

/-- The first specifier of a text and what follows it. -/
def specifier? (cs : List Char) : Option (List Char × List Char) :=
  let start := cs.dropWhile isWhite
  (((afterUrl? start).bind itemText?).orElse fun _ => itemText? start).map fun (item, rest) =>
    (item, dropClosing rest)

/-- What follows a comma at the beginning of a text, white space before it left out. -/
def afterComma? (cs : List Char) : Option (List Char) :=
  match cs.dropWhile isWhite with
  | ',' :: rest => some rest
  | _ => none

/-- At most `fuel` specifiers of a text, with commas between them. -/
def specifiersUpTo : Nat → List Char → List (List Char)
  | 0, _ => []
  | fuel + 1, cs =>
    match specifier? cs with
    | none => []
    | some (item, rest) =>
      item ::
        match afterComma? rest with
        | none => []
        | some next => specifiersUpTo fuel next

/-- The specifiers of a text, with commas between them. -/
def specifiers (cs : List Char) : List (List Char) := specifiersUpTo cs.length cs

/-- The line and column of a place of a text. -/
def locate (text : List Char) (place : Nat) : Location :=
  let before := text.take place
  { line := before.count '\n' + 1, column := columnOf before }

/-- The references of an import statement. -/
def statementImports (text : List Char) (place : Nat) (statement : List Char) :
    List Dependency :=
  ((specifiers (statement.drop importWord.length)).filter fun s => !isRemote s).map fun s =>
    { specifier := String.ofList s
      kind := .style
      statement := some (shownStatement (String.ofList statement))
      location := some (locate text place) }

/-- The references of a stylesheet. -/
def imports (lineComments : Bool) (source : List Char) : List Dependency :=
  let text := blankComments lineComments source
  (statements text).flatMap fun (place, statement) => statementImports text place statement

end RefGraph.Style
