/-!
# JSON documents

The documents that are written: no null, and no numbers but natural ones. A document is written over
several lines, and what is inside something else is indented by two spaces.

* `Json.render`: a document as text.
* `Json.quotedText`: a text as it is written in a document.
-/

namespace RefGraph

/-- A document. The members of an object keep their order. -/
inductive Json where
  | boolean (b : Bool)
  | natural (n : Nat)
  | text (s : String)
  | array (items : List Json)
  | object (members : List (String × Json))
deriving Repr, Inhabited

namespace Json

/-- The character behind a backslash that stands for a character, if there is one. -/
def shortEscape? (c : Char) : Option Char :=
  if c = '"' then some '"'
  else if c = '\\' then some '\\'
  else if c = '\x08' then some 'b'
  else if c = '\x0c' then some 'f'
  else if c = '\n' then some 'n'
  else if c = '\r' then some 'r'
  else if c = '\t' then some 't'
  else none

/-- The hexadecimal digit of a number below sixteen. -/
def hexDigit (n : Nat) : Char :=
  if n < 10 then Char.ofNat ('0'.toNat + n) else Char.ofNat ('a'.toNat + (n - 10))

/-- A character as it is written in a text. -/
def escapedChar (c : Char) : List Char :=
  match shortEscape? c with
  | some e => ['\\', e]
  | none =>
    if c < ' ' then ['\\', 'u', '0', '0', hexDigit (c.toNat / 16), hexDigit (c.toNat % 16)]
    else [c]

/-- A text as it is written in a document. -/
def quotedText (s : String) : List Char := '"' :: s.toList.flatMap escapedChar ++ ['"']

/-- A line break and the indentation of the next line. -/
def lineBreak (indent : Nat) : List Char := '\n' :: List.replicate (2 * indent) ' '

mutual

/-- A document as it is written at a depth of indentation. -/
def render (indent : Nat) : Json → List Char
  | boolean b => if b then ['t', 'r', 'u', 'e'] else ['f', 'a', 'l', 's', 'e']
  | natural n => Nat.toDigits 10 n
  | text s => quotedText s
  | array [] => ['[', ']']
  | array (x :: xs) =>
    '[' :: lineBreak (indent + 1) ++ render (indent + 1) x ++ renderItems (indent + 1) xs ++
      lineBreak indent ++ [']']
  | object [] => ['{', '}']
  | object ((name, x) :: ms) =>
    '{' :: lineBreak (indent + 1) ++ quotedText name ++ ':' :: ' ' :: render (indent + 1) x ++
      renderMembers (indent + 1) ms ++ lineBreak indent ++ ['}']

/-- Further items of an array. -/
def renderItems (indent : Nat) : List Json → List Char
  | [] => []
  | x :: xs => ',' :: lineBreak indent ++ render indent x ++ renderItems indent xs

/-- Further members of an object. -/
def renderMembers (indent : Nat) : List (String × Json) → List Char
  | [] => []
  | (name, x) :: ms =>
    ',' :: lineBreak indent ++ quotedText name ++ ':' :: ' ' :: render indent x ++
      renderMembers indent ms

end

end Json

end RefGraph
