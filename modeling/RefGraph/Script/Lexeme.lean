import RefGraph.Script.Rule

/-!
# Lexemes

For every lexical class that is described by a pattern, the length of the longest lexeme of that
class at the beginning of a text. A NUL character ends every lexeme.

* `LexClass.lexeme?`: the length of the lexeme, if there is one.
* `LexClass.attached?`: the classes that admit no blanks before the lexeme.
-/

namespace RefGraph.Script

namespace Lexeme

/-- The blanks between tokens. -/
def isBlank (c : Char) : Bool :=
  c == ' ' || ('\t' ≤ c && c ≤ '\r') || c == '\u00a0' || c == '\u1680' ||
    ('\u2000' ≤ c && c ≤ '\u200b') || c == '\u2028' || c == '\u2029' || c == '\u202f' ||
    c == '\u205f' || c == '\u2060' || c == '\u3000' || c == '\ufeff'

/-- The ASCII blanks. -/
def isSpace (c : Char) : Bool := c == ' ' || ('\t' ≤ c && c ≤ '\r')

/-- The characters that end a line. -/
def isLineEnd (c : Char) : Bool := c == '\n' || c == '\u2028' || c == '\u2029'

/-- Hexadecimal digits. -/
def isHexDigit (c : Char) : Bool :=
  c.isDigit || ('a' ≤ c && c ≤ 'f') || ('A' ≤ c && c ≤ 'F')

/-- The number of characters at the beginning that have a property. -/
def run (p : Char → Bool) : List Char → Nat
  | [] => 0
  | c :: cs => if p c then run p cs + 1 else 0

/-- A length of at least one. -/
def positive : Nat → Option Nat
  | 0 => none
  | n + 1 => some (n + 1)

/-! ## Names -/

/-- The characters that no name contains, apart from digits at its beginning. -/
def isPunctuation (c : Char) : Bool :=
  c < ' ' || isBlank c || ":;`\"'@#.,|^&<=>+-*/\\%?!~()[]\x7b\x7d".toList.contains c

/-- The length of what follows the backslash of an escaped character of a name. -/
def nameEscape : List Char → Nat
  | 'u' :: '{' :: cs =>
    let n := run isHexDigit cs
    if 0 < n && (cs.drop n).head? == some '}' then n + 3 else 0
  | 'u' :: cs => if 4 ≤ run isHexDigit (cs.take 4) then 5 else 0
  | _ => 0

/-- The length of a name, where `escaped` more characters belong to an escape that has begun and
`inside` tells whether digits are allowed. -/
def nameLength (inside : Bool) : Nat → List Char → Nat
  | _, [] => 0
  | escaped + 1, _ :: cs => nameLength true escaped cs + 1
  | 0, c :: cs =>
    if c == '\\' then
      match nameEscape cs with
      | 0 => 0
      | n + 1 => nameLength true (n + 1) cs + 1
    else if isPunctuation c || (!inside && c.isDigit) then 0
    else nameLength true 0 cs + 1

/-- An identifier. -/
def identifier (cs : List Char) : Option Nat := positive (nameLength false 0 cs)

/-- A private name: `#` and a name. -/
def privateName : List Char → Option Nat
  | '#' :: cs => (identifier cs).map (· + 1)
  | _ => none

/-- The letters of a dashed name. -/
def isDashedNameChar (c : Char) : Bool := c.isAlphanum || c == '_' || c == '$'

/-- A name with at least one dash. -/
def dashedName (cs : List Char) : Option Nat :=
  let n := run isDashedNameChar cs
  if n = 0 || (cs.head?.map Char.isDigit).getD false then none
  else
    match cs.drop n with
    | '-' :: rest => some (n + 1 + run (fun c => isDashedNameChar c || c == '-') rest)
    | _ => none

/-! ## Numbers -/

/-- Further digits, where one underscore may precede each. -/
def moreDigits (p : Char → Bool) : List Char → Nat
  | '_' :: c :: cs => if p c then moreDigits p cs + 2 else 0
  | c :: cs => if p c then moreDigits p cs + 1 else 0
  | [] => 0

/-- Digits with single underscores between. -/
def digits (p : Char → Bool) : List Char → Nat
  | c :: cs => if p c then moreDigits p cs + 1 else 0
  | [] => 0

/-- An exponent. -/
def exponent : List Char → Nat
  | e :: cs =>
    if e == 'e' || e == 'E' then
      match cs with
      | s :: ds =>
        if s == '+' || s == '-' then
          match digits Char.isDigit ds with
          | 0 => 0
          | n + 1 => n + 3
        else
          match digits Char.isDigit cs with
          | 0 => 0
          | n + 1 => n + 2
      | [] => 0
    else 0
  | [] => 0

/-- The digits that may stand before a point or an exponent. -/
def integerPart : List Char → Nat
  | '0' :: c :: cs => if '1' ≤ c && c ≤ '9' then digits Char.isDigit (c :: cs) + 1 else 1
  | cs => digits Char.isDigit cs

/-- A number with a prefix letter that tells its base. -/
def based (lower upper : Char) (p : Char → Bool) : List Char → Nat
  | '0' :: b :: cs =>
    if b == lower || b == upper then
      match digits p cs with
      | 0 => 0
      | n + 1 => n + 3
    else 0
  | _ => 0

/-- The lengths of the whole numbers at the beginning, in every base. -/
def wholeNumbers (cs : List Char) : List Nat :=
  [based 'x' 'X' isHexDigit cs, based 'b' 'B' (fun c => c == '0' || c == '1') cs,
    based 'o' 'O' (fun c => '0' ≤ c && c ≤ '7') cs, digits Char.isDigit cs]

/-- The length of a decimal number with a point or an exponent. -/
def decimal (cs : List Char) : Nat :=
  match cs with
  | '.' :: ds =>
    match digits Char.isDigit ds with
    | 0 => 0
    | n + 1 => n + 2 + exponent (ds.drop (n + 1))
  | _ =>
    match integerPart cs with
    | 0 => 0
    | n + 1 =>
      match cs.drop (n + 1) with
      | '.' :: ds =>
        let k := digits Char.isDigit ds
        n + 2 + k + exponent (ds.drop k)
      | rest =>
        match exponent rest with
        | 0 => 0
        | k + 1 => n + 1 + k + 1

/-- A number. -/
def number (cs : List Char) : Option Nat :=
  let whole := wholeNumbers cs
  let big := whole.map fun n =>
    if 0 < n && (cs.drop n).head? == some 'n' then n + 1 else 0
  positive ((decimal cs :: whole ++ big).foldl max 0)

/-! ## Strings, comments and regular expressions -/

/-- An escape sequence of a string. -/
def escape : List Char → Option Nat
  | '\\' :: c :: cs =>
    if c == '\x00' then none
    else if c == 'x' then if run isHexDigit (cs.take 2) = 2 then some 4 else none
    else if c == 'u' then (positive (nameEscape (c :: cs))).map (· + 1)
    else if '0' ≤ c && c ≤ '7' then
      some (2 + run (fun d => '0' ≤ d && d ≤ '7') (cs.take 2))
    else if (c == '\r' || c == '?') && (cs.head?.map isLineEnd).getD false then some 3
    else some 2
  | _ => none

/-- What is left of a block comment, up to its end. -/
def blockComment : List Char → Option Nat
  | [] => none
  | '*' :: '/' :: _ => some 2
  | c :: cs => if c == '\x00' then none else (blockComment cs).map (· + 1)

/-- A comment. -/
def comment : List Char → Option Nat
  | '/' :: '/' :: cs =>
    some (2 + run (fun c => !(c == '\r' || isLineEnd c || c == '\x00')) cs)
  | '/' :: '*' :: cs => (blockComment cs).map (· + 2)
  | _ => none

/-- What is left of a character class, up to its closing bracket. -/
def characterClass : List Char → Option Nat
  | ']' :: _ => some 1
  | '\\' :: c :: cs =>
    if c == '\n' || c == '\x00' then none else (characterClass cs).map (· + 2)
  | c :: cs =>
    if c == '\\' || c == '\n' || c == '\x00' then none else (characterClass cs).map (· + 1)
  | [] => none

/-- The length of a regular expression up to the slash that closes it, where `taken` more
characters belong to a class or an escape that has begun. -/
def regexLength : Nat → List Char → Nat
  | _, [] => 0
  | taken + 1, _ :: cs => regexLength taken cs + 1
  | 0, c :: cs =>
    if c == '/' || c == '\n' || c == '\x00' then 0
    else if c == '[' then
      match characterClass cs with
      | none => 0
      | some n => regexLength n cs + 1
    else if c == '\\' then
      match cs with
      | d :: _ => if d == '\n' || d == '\x00' then 0 else regexLength 1 cs + 1
      | [] => 0
    else regexLength 0 cs + 1

/-- The word `static` and the word `get`, where a line ends after them. -/
def staticGetter (cs : List Char) : Option Nat :=
  match cs with
  | 's' :: 't' :: 'a' :: 't' :: 'i' :: 'c' :: rest =>
    let n := run isSpace rest
    match rest.drop n with
    | 'g' :: 'e' :: 't' :: rest' =>
      let blanks := rest'.take (run isSpace rest')
      let upToLine := (blanks.reverse.dropWhile (· != '\n')).length
      if n = 0 || upToLine = 0 then none else some (6 + n + 3 + upToLine)
    | _ => none
  | _ => none

/-! ## Markup -/

/-- A reference to a character, by number or by name. -/
def characterReference : List Char → Option Nat
  | '&' :: '#' :: x :: cs =>
    let (before, n, most) :=
      if x == 'x' || x == 'X' then (3, run isHexDigit cs, 6)
      else (2, run Char.isDigit (x :: cs), 5)
    let rest := if before = 3 then cs else x :: cs
    if 0 < n && n ≤ most && (rest.drop n).head? == some ';' then some (before + n + 1) else none
  | '&' :: cs =>
    let n := run Char.isAlpha cs
    if 0 < n && n ≤ 30 && (cs.drop n).head? == some ';' then some (n + 2) else none
  | _ => none

/-- The length of the text of an attribute value up to a quote or a character reference. -/
def attributeText (quote : Char) : List Char → Nat
  | '&' :: c :: cs =>
    if c == '#' || c.isAlpha || c == '\x00' then 0 else attributeText quote cs + 2
  | c :: cs =>
    if c == quote || c == '&' || c == '\x00' then 0 else attributeText quote cs + 1
  | [] => 0

/-- The length of the text of a string up to a quote, an escape or the end of the line. -/
def stringText (quote : Char) : List Char → Nat :=
  run fun c => !(c == quote || c == '\\' || c == '\r' || c == '\n' || c == '\x00')

end Lexeme

open Lexeme in
/-- The length of the longest lexeme of a class at the beginning of a text. The classes that depend
on their context have none. -/
def LexClass.lexeme? (c : LexClass) (cs : List Char) : Option Nat :=
  match c with
  | .hashBang =>
    match cs with
    | '#' :: '!' :: rest => some (2 + run (fun c => !(c == '\n' || c == '\x00')) rest)
    | _ => none
  | .identifier => Lexeme.identifier cs
  | .privateName => Lexeme.privateName cs
  | .number => Lexeme.number cs
  | .doubleFragment => positive (stringText '"' cs)
  | .singleFragment => positive (stringText '\'' cs)
  | .escape => Lexeme.escape cs
  | .comment => Lexeme.comment cs
  | .regexBody => positive (regexLength 0 cs)
  | .regexClose => if cs.head? == some '/' then some 1 else none
  | .regexFlags => positive (run (fun c => 'a' ≤ c && c ≤ 'z') cs)
  | .staticGetter => Lexeme.staticGetter cs
  | .dashedName => Lexeme.dashedName cs
  | .characterReference => Lexeme.characterReference cs
  | .doubleMarkupFragment => positive (attributeText '"' cs)
  | .singleMarkupFragment => positive (attributeText '\'' cs)
  | .automaticSemicolon | .signatureSemicolon | .templateFragment | .ternaryMark | .htmlComment
  | .markupText => none

/-- The classes whose lexemes follow the last token without blanks, each with the rank by which it
goes before other lexemes at the same place. -/
def LexClass.attached? : LexClass → Option Int
  | .doubleFragment | .singleFragment | .regexClose | .doubleMarkupFragment
  | .singleMarkupFragment => some 1
  | .escape | .regexFlags => some 0
  | .regexBody => some (-1)
  | _ => none

end RefGraph.Script
