import RefGraph.Toml.Scalar

/-!
# TOML documents

A document is read line by line: keys with values go into the table of the last header. A table that
is finished goes to its place in the document.

* `Toml.parse?`: the entries of a document, if it is well formed.
-/

namespace RefGraph.Toml

/-- How deep arrays and tables in braces may be nested, and how many parts a key may have. -/
def maxNesting : Nat := 79

/-! ## Layout -/

/-- What follows a comment behind its mark. -/
def afterComment (cs : List Char) : List Char := cs.dropWhile isVisible

/-- What follows white space, comments, and line breaks; `fuel` bounds their number. -/
def skipLayoutUpTo : Nat → List Char → List Char
  | 0, cs => cs
  | fuel + 1, cs =>
    match skipBlank cs with
    | '#' :: rest => skipLayoutUpTo fuel (afterComment rest)
    | rest =>
      match afterBreak? rest with
      | some rest => skipLayoutUpTo fuel rest
      | none => rest

/-- What follows white space, comments, and line breaks. -/
def skipLayout (cs : List Char) : List Char := skipLayoutUpTo (cs.length + 1) cs

/-- What follows the end of a line, before which a comment may stand. -/
def afterLine? (cs : List Char) : Option (List Char) :=
  let rest := match skipBlank cs with
    | '#' :: rest => afterComment rest
    | rest => rest
  if rest = [] then some [] else afterBreak? rest

/-! ## Keys -/

/-- Whether a character may stand in a key without quotes. -/
def isKeyChar (c : Char) : Bool :=
  ('a' ≤ c && c ≤ 'z') || ('A' ≤ c && c ≤ 'Z') || c.isDigit || c == '-' || c == '_'

/-- Reads a part of a key. -/
def readKeyPart? (cs : List Char) : Option (String × List Char) :=
  match cs with
  | '"' :: rest => readLineText? '"' true (rest.length + 1) [] rest
  | '\'' :: rest => readLineText? '\'' false (rest.length + 1) [] rest
  | rest =>
    let word := rest.takeWhile isKeyChar
    if word = [] then none else some (String.ofList word, rest.dropWhile isKeyChar)

/-- Reads at most `fuel` parts of a key with dots between them. -/
def readKeyUpTo? : Nat → Reader (List String)
  | 0, _ => none
  | fuel + 1, cs =>
    (readKeyPart? (skipBlank cs)).bind fun (part, rest) =>
      match skipBlank rest with
      | '.' :: rest => (readKeyUpTo? fuel rest).map fun (parts, rest) => (part :: parts, rest)
      | rest => some ([part], rest)

/-- Reads a key and the white space around it. -/
def readKey? (cs : List Char) : Option (List String × List Char) := readKeyUpTo? maxNesting cs

/-- Reads a key, the equals sign, and a value. -/
def readPair? (read : Reader Value) (cs : List Char) :
    Option ((List String × Value) × List Char) := do
  let (key, rest) ← readKey? cs
  let rest ← readChar? '=' rest
  let (v, rest) ← read (skipBlank rest)
  return ((key, v), rest)

/-- Adds the value of a key to a table. -/
def insertKey (key : List String) (v : Value) (origin : Origin) (es : Entries) : Option Entries :=
  key.getLast?.bind fun last => insertAt key.dropLast last v origin es

/-! ## Values -/

/-- Reads the items of an array behind its bracket; those read so far come last first. -/
def readItems? (read : Reader Value) : Nat → List Value → Reader (List Value)
  | 0, _, _ => none
  | fuel + 1, items, cs =>
    match skipLayout cs with
    | ']' :: rest => some (items.reverse, rest)
    | rest =>
      (read rest).bind fun (v, rest) =>
        match skipLayout rest with
        | ',' :: rest => readItems? read fuel (v :: items) rest
        | ']' :: rest => some ((v :: items).reverse, rest)
        | _ => none

/-- Reads the entries of a table in braces, at least one, and the brace that closes it. -/
def readBraced? (read : Reader Value) : Nat → Entries → Reader Entries
  | 0, _, _ => none
  | fuel + 1, es, cs =>
    (readPair? read cs).bind fun ((key, v), rest) =>
      (insertKey key v .inline es).bind fun es =>
        match skipBlank rest with
        | ',' :: rest => readBraced? read fuel es rest
        | '}' :: rest => some (es, rest)
        | _ => none

/-- Reads a value, in which others are nested at most `depth` levels deep. -/
def readValue? : Nat → Reader Value
  | depth, cs =>
    match cs with
    | [] => none
    | c :: rest =>
      if c = '"' ∨ c = '\'' then (readText? cs).map fun (s, rest) => (.text s, rest)
      else if c = 't' then
        (dropBeginning? ['r', 'u', 'e'] rest).map fun rest => (.boolean true, rest)
      else if c = 'f' then
        (dropBeginning? ['a', 'l', 's', 'e'] rest).map fun rest => (.boolean false, rest)
      else
        match depth with
        | 0 => if c = '[' ∨ c = '{' then none else readPlain? cs
        | depth + 1 =>
          if c = '[' then
            (readItems? (readValue? depth) (rest.length + 1) [] rest).map fun (items, rest) =>
              (.array items, rest)
          else if c = '{' then
            match skipBlank rest with
            | '}' :: rest => some (.table .inline [], rest)
            | rest =>
              (readBraced? (readValue? depth) (rest.length + 1) [] rest).map fun (es, rest) =>
                (.table .inline es, rest)
          else readPlain? cs
where
  /-- Reads a number, a date, or a time. -/
  readPlain? (cs : List Char) : Option (Value × List Char) :=
    (readMoment? cs).orElse fun _ => readNumber? cs

/-! ## Documents -/

/-- A document while it is read: what is finished, and the table of the last header with its key and
whether it is one of several. -/
structure Draft where
  finished : Entries := []
  current : Entries := []
  header : List String := []
  repeated : Bool := false

namespace Draft

/-- Puts the table of the last header in its place. -/
def finish (d : Draft) : Option Entries :=
  match d.header.getLast? with
  | none => some d.current
  | some key =>
    (updateAt .implied (fun _ es =>
      match es.find? key with
      | none =>
        let v := if d.repeated then .tables [d.current] else .table .header d.current
        some (es ++ [(key, v)], ())
      | some (.tables items) =>
        if d.repeated then some (es.replace key (.tables (items ++ [d.current])), ()) else none
      | some (.table origin _) =>
        if !d.repeated ∧ (origin = .implied ∨ origin = .dotted) then
          some (es.replace key (.table .header d.current), ())
        else none
      | some _ => none) d.header.dropLast .header d.finished).map Prod.fst

/-- Begins the table of a header. One that is there already only as a part of other headers is taken
up again. -/
def beginTable (d : Draft) (header : List String) : Option Draft :=
  d.finish.bind fun finished =>
    header.getLast?.bind fun key =>
      (updateAt .implied (fun _ es =>
        match es.find? key with
        | none => some (es, [])
        | some (.table .implied inner) => some (es.without key, inner)
        | some _ => none) header.dropLast .header finished).map fun (finished, current) =>
          { finished, current, header, repeated := false }

/-- Begins one of several tables of a header. -/
def beginRepeated (d : Draft) (header : List String) : Option Draft :=
  d.finish.bind fun finished =>
    header.getLast?.bind fun key =>
      (updateAt .implied (fun _ es =>
        match es.find? key with
        | none => some (es ++ [(key, .tables [])], ())
        | some (.tables _) => some (es, ())
        | some _ => none) header.dropLast .header finished).map fun (finished, _) =>
          { finished, current := [], header, repeated := true }

end Draft

/-- Reads a header and begins its table. -/
def readHeader? (d : Draft) (cs : List Char) : Option (Draft × List Char) :=
  match cs with
  | '[' :: '[' :: rest => do
    let (key, rest) ← readKey? rest
    let rest ← readChar? ']' rest
    let rest ← readChar? ']' rest
    let rest ← afterLine? rest
    let d ← d.beginRepeated key
    return (d, rest)
  | '[' :: rest => do
    let (key, rest) ← readKey? rest
    let rest ← readChar? ']' rest
    let rest ← afterLine? rest
    let d ← d.beginTable key
    return (d, rest)
  | _ => none

/-- Reads a key with its value. -/
def readAssignment? (d : Draft) (cs : List Char) : Option (Draft × List Char) := do
  let ((key, v), rest) ← readPair? (readValue? maxNesting) cs
  let rest ← afterLine? rest
  let current ← insertKey key v .header d.current
  return ({ d with current }, rest)

/-- Reads what is left of a document; `fuel` bounds the number of its lines. -/
def readLines? : Nat → Draft → List Char → Option Draft
  | 0, _, _ => none
  | fuel + 1, d, cs =>
    match skipBlank cs with
    | [] => some d
    | c :: rest =>
      if c = '#' ∨ c = '\n' ∨ c = '\r' then
        (afterLine? (c :: rest)).bind fun rest => readLines? fuel d rest
      else if c = '[' then
        (readHeader? d (c :: rest)).bind fun (d, rest) => readLines? fuel d rest
      else (readAssignment? d (c :: rest)).bind fun (d, rest) => readLines? fuel d rest

/-- The entries of a document. A mark of byte order at its beginning is left out. -/
def parse? (text : String) : Option Entries :=
  let cs := match text.toList with
    | '\ufeff' :: rest => rest
    | cs => cs
  (readLines? (cs.length + 1) {} cs).bind Draft.finish

end RefGraph.Toml
