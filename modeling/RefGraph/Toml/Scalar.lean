import RefGraph.Decimal
import RefGraph.Text
import RefGraph.Toml.Value

/-!
# TOML texts, numbers, and dates

Readers take what they read from the beginning of a text and give back what is left, or nothing if
the text is malformed.

* `Toml.readText?`: a text in one of the four kinds of quotes.
* `Toml.readNumber?`: a whole number or one with a fraction.
* `Toml.readMoment?`: a date, a time, or both.
-/

namespace RefGraph.Toml

/-- Readers of values of a kind. -/
abbrev Reader (α : Type) := List Char → Option (α × List Char)

/-- White space within a line. -/
def isBlank (c : Char) : Bool := c == ' ' || c == '\t'

/-- A text without the white space at its beginning. -/
def skipBlank (cs : List Char) : List Char := cs.dropWhile isBlank

/-- What follows the line break at the beginning of a text, if there is one. -/
def afterBreak? : List Char → Option (List Char)
  | '\n' :: cs => some cs
  | '\r' :: '\n' :: cs => some cs
  | _ => none

/-- Whether a character may stand in texts and comments: all but controls. -/
def isVisible (c : Char) : Bool := c == '\t' || (' ' ≤ c && c != '\x7f')

/-! ## Texts -/

/-- The character with a hexadecimal number. -/
def charOfHex? (digits : List Char) : Option Char :=
  (digits.foldlM (fun n c => (hexValue? c).map fun d => 16 * n + d) 0).bind fun n =>
    if n < 0xD800 ∨ (0xDFFF < n ∧ n < 0x110000) then some (Char.ofNat n) else none

/-- The character that a letter behind a backslash stands for. -/
def unescape? (c : Char) : Option Char :=
  if c = '"' ∨ c = '\\' then some c
  else if c = 'b' then some '\x08'
  else if c = 'f' then some '\x0c'
  else if c = 'n' then some '\n'
  else if c = 'r' then some '\r'
  else if c = 't' then some '\t'
  else none

/-- Reads an escaped character behind its backslash. -/
def readEscape? : Reader Char
  | [] => none
  | c :: cs =>
    if c = 'u' then
      if cs.length < 4 then none else (charOfHex? (cs.take 4)).map fun x => (x, cs.drop 4)
    else if c = 'U' then
      if cs.length < 8 then none else (charOfHex? (cs.take 8)).map fun x => (x, cs.drop 8)
    else (unescape? c).map fun x => (x, cs)

/-- What follows an escaped line break, of which the backslash was read, and all white space and
line breaks behind it. -/
def afterEscapedBreak? (cs : List Char) : Option (List Char) :=
  (afterBreak? (skipBlank cs)).map (skipLines cs.length)
where
  /-- A text without the white space and line breaks at its beginning. -/
  skipLines : Nat → List Char → List Char
    | 0, cs => cs
    | fuel + 1, cs =>
      match afterBreak? (skipBlank cs) with
      | some rest => skipLines fuel rest
      | none => skipBlank cs

/-- Reads a text on one line behind its first quote; what was read comes last first. -/
def readLineText? (quote : Char) (escapes : Bool) : Nat → List Char → Reader String
  | 0, _, _ => none
  | _, _, [] => none
  | fuel + 1, read, c :: cs =>
    if c = quote then some (String.ofList read.reverse, cs)
    else if escapes ∧ c = '\\' then
      (readEscape? cs).bind fun (x, rest) => readLineText? quote escapes fuel (x :: read) rest
    else if isVisible c then readLineText? quote escapes fuel (c :: read) cs
    else none

/-- Reads a text on several lines behind its first three quotes. Up to two quotes in a row belong to
the text, also before the three that end it. -/
def readLinesText? (quote : Char) (escapes : Bool) : Nat → List Char → Reader String
  | 0, _, _ => none
  | _, _, [] => none
  | fuel + 1, read, c :: cs =>
    if c = quote then
      let count := ((c :: cs).takeWhile (· == quote)).length
      let inner := if count < 3 then count else min (count - 3) 2
      let read := List.replicate inner quote ++ read
      if count < 3 then readLinesText? quote escapes fuel read ((c :: cs).drop count)
      else some (String.ofList read.reverse, (c :: cs).drop (inner + 3))
    else if escapes ∧ c = '\\' then
      match afterEscapedBreak? cs with
      | some rest => readLinesText? quote escapes fuel read rest
      | none =>
        (readEscape? cs).bind fun (x, rest) => readLinesText? quote escapes fuel (x :: read) rest
    else
      match afterBreak? (c :: cs) with
      | some rest => readLinesText? quote escapes fuel ('\n' :: read) rest
      | none => if isVisible c then readLinesText? quote escapes fuel (c :: read) cs else none

/-- Reads a text behind its first quote. -/
def readQuoted? (quote : Char) (escapes : Bool) (cs : List Char) : Option (String × List Char) :=
  if [quote, quote].isPrefixOf cs then
    let body := cs.drop 2
    readLinesText? quote escapes (body.length + 1) [] ((afterBreak? body).getD body)
  else readLineText? quote escapes (cs.length + 1) [] cs

/-- Reads a text. -/
def readText? : Reader String
  | '"' :: cs => readQuoted? '"' true cs
  | '\'' :: cs => readQuoted? '\'' false cs
  | _ => none

/-! ## Numbers -/

/-- Reads the digits of a number, at least one, with single underscores between them. -/
def readDigits? (isDigit : Char → Bool) : Reader (List Char)
  | [] => none
  | c :: cs => if isDigit c then some (more c cs) else none
where
  /-- The digits from a given one on. -/
  more (first : Char) : List Char → List Char × List Char
    | '_' :: c :: cs =>
      if isDigit c then
        let (ds, rest) := more c cs
        (first :: ds, rest)
      else ([first], '_' :: c :: cs)
    | c :: cs =>
      if isDigit c then
        let (ds, rest) := more c cs
        (first :: ds, rest)
      else ([first], c :: cs)
    | [] => ([first], [])

/-- The value of digits to a base. -/
def digitsValue (base : Nat) (ds : List Char) : Nat :=
  ds.foldl (fun n c => base * n + (hexValue? c).getD 0) 0

/-- Reads the sign of a number: whether it is negative. -/
def readSign : List Char → Bool × List Char
  | '+' :: cs => (false, cs)
  | '-' :: cs => (true, cs)
  | cs => (false, cs)

/-- Reads the digits before the point: none of them, or a zero alone, or no zero at first. -/
def readWhole? (cs : List Char) : Option (List Char × List Char) :=
  match cs with
  | '0' :: rest => some (['0'], rest)
  | rest => readDigits? Char.isDigit rest

/-- Reads an exponent, if there is one. -/
def readExponent? (cs : List Char) : Option (Option Int × List Char) :=
  match cs with
  | 'e' :: rest | 'E' :: rest =>
    let (negative, rest) := readSign rest
    (readDigits? Char.isDigit rest).map fun (ds, rest) =>
      let n : Int := digitsValue 10 ds
      (some (if negative then -n else n), rest)
  | rest => some (none, rest)

/-- The number `digits * 10 ^ e`; none if it is too large. -/
def float? (digits : Nat) (e : Int) : Option Float :=
  let places : Int := (Nat.toDigits 10 digits).length + e
  if digits = 0 ∨ places < -400 then some 0
  else if 400 < places then none
  else
    let x := Float.ofScientific digits (e < 0) e.natAbs
    if x.isInf then none else some x

/-- A number with a fraction or an exponent. One that is too large is malformed unless it is
negative. -/
def decimalValue? (negative : Bool) (digits : Nat) (e : Int) : Option Value :=
  match float? digits e with
  | none => if negative then some (.decimal "-inf") else none
  | some x =>
    (Decimal.ofFloat? (if negative then -x else x)).map fun d => .decimal d.positional

/-- Reads a number with a fraction or an exponent. -/
def readDecimal? (cs : List Char) : Option (Value × List Char) :=
  let (negative, cs) := readSign cs
  (readWhole? cs).bind fun (whole, rest) =>
    match rest with
    | '.' :: rest =>
      (readDigits? Char.isDigit rest).bind fun (fraction, rest) =>
        (readExponent? rest).bind fun (e?, rest) =>
          (decimalValue? negative (digitsValue 10 (whole ++ fraction))
            (e?.getD 0 - fraction.length)).map fun v => (v, rest)
    | rest =>
      (readExponent? rest).bind fun (e?, rest) =>
        e?.bind fun e => (decimalValue? negative (digitsValue 10 whole) e).map fun v => (v, rest)

/-- Reads an infinite number or one that is none. -/
def readSpecial? (cs : List Char) : Option (Value × List Char) :=
  let (negative, cs) := readSign cs
  match cs with
  | 'i' :: 'n' :: 'f' :: rest => some (.decimal (if negative then "-inf" else "inf"), rest)
  | 'n' :: 'a' :: 'n' :: rest => some (.decimal "NaN", rest)
  | _ => none

/-- The least whole number of 64 bits. -/
def leastInteger : Int := -9223372036854775808

/-- A whole number of 64 bits. -/
def integerValue? (n : Int) : Option Value :=
  if leastInteger ≤ n ∧ n < -leastInteger then some (.integer n) else none

/-- Reads digits to a base. -/
def readBased? (base : Nat) (cs : List Char) : Option (Value × List Char) :=
  let isDigit (c : Char) : Bool := (hexValue? c).any (· < base)
  (readDigits? isDigit cs).bind fun (ds, rest) =>
    (integerValue? (digitsValue base ds)).map fun v => (v, rest)

/-- Reads a whole number. -/
def readInteger? (cs : List Char) : Option (Value × List Char) :=
  match cs with
  | '0' :: 'x' :: rest => readBased? 16 rest
  | '0' :: 'o' :: rest => readBased? 8 rest
  | '0' :: 'b' :: rest => readBased? 2 rest
  | cs =>
    let (negative, cs) := readSign cs
    (readWhole? cs).bind fun (ds, rest) =>
      let n : Int := digitsValue 10 ds
      (integerValue? (if negative then -n else n)).map fun v => (v, rest)

/-- Reads a number. -/
def readNumber? (cs : List Char) : Option (Value × List Char) :=
  ((readSpecial? cs).orElse fun _ => readDecimal? cs).orElse fun _ => readInteger? cs

/-! ## Dates and times -/

/-- Reads a number of so many digits between two bounds. -/
def readPart? (digits low high : Nat) (cs : List Char) : Option (Nat × List Char) :=
  let ds := cs.take digits
  let n := digitsValue 10 ds
  if ds.length = digits ∧ ds.all Char.isDigit ∧ low ≤ n ∧ n ≤ high then some (n, cs.drop digits)
  else none

/-- Reads a given character. -/
def readChar? (expected : Char) : List Char → Option (List Char)
  | [] => none
  | c :: cs => if c = expected then some cs else none

/-- The number of days of a month. -/
def daysOf (year month : Nat) : Nat :=
  if month = 2 then
    if year % 4 = 0 ∧ (year % 100 ≠ 0 ∨ year % 400 = 0) then 29 else 28
  else if month ∈ [4, 6, 9, 11] then 30
  else 31

/-- What follows a date. -/
def afterDate? (cs : List Char) : Option (List Char) := do
  let (year, cs) ← readPart? 4 0 9999 cs
  let cs ← readChar? '-' cs
  let (month, cs) ← readPart? 2 1 12 cs
  let cs ← readChar? '-' cs
  let (_, cs) ← readPart? 2 1 (daysOf year month) cs
  return cs

/-- What follows the fraction of a second, if there is one. -/
def afterFraction : List Char → List Char
  | '.' :: c :: cs => if c.isDigit then cs.dropWhile Char.isDigit else '.' :: c :: cs
  | cs => cs

/-- What follows a time. -/
def afterTime? (cs : List Char) : Option (List Char) := do
  let (_, cs) ← readPart? 2 0 23 cs
  let cs ← readChar? ':' cs
  let (_, cs) ← readPart? 2 0 59 cs
  let cs ← readChar? ':' cs
  let (_, cs) ← readPart? 2 0 60 cs
  return afterFraction cs

/-- What follows an offset from universal time. -/
def afterOffset? (cs : List Char) : Option (List Char) :=
  match cs with
  | 'Z' :: rest | 'z' :: rest => some rest
  | '+' :: rest | '-' :: rest => do
    let (_, rest) ← readPart? 2 0 23 rest
    let rest ← readChar? ':' rest
    let (_, rest) ← readPart? 2 0 59 rest
    return rest
  | _ => none

/-- What follows the time and the offset behind a date, if they are there. -/
def afterClock (cs : List Char) : List Char :=
  match cs with
  | 'T' :: rest | 't' :: rest | ' ' :: rest =>
    match afterTime? rest with
    | some rest => (afterOffset? rest).getD rest
    | none => cs
  | _ => cs

/-- Reads a date, a time, or both. -/
def readMoment? (cs : List Char) : Option (Value × List Char) :=
  (((afterDate? cs).map afterClock).orElse fun _ => afterTime? cs).map fun rest => (.moment, rest)

end RefGraph.Toml
