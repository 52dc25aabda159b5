import RefGraph.Decimal
import RefGraph.Json.Value
import RefGraph.Mismatch
import RefGraph.Text

/-!
# Reading JSON

A document is read from left to right, and the first thing that is wrong with it is reported: it is
malformed, it ends too early, or it does not hold what is expected. Readers take a text and give
back what they read and what is left.

* `Json.readText`, `Json.readNatural`, `Json.readBoolean`, `Json.readWord`: simple values.
* `Json.readOptional`, `Json.readList`: values that may be null, and arrays.
* `Json.skipValue`: any value at all, whose meaning does not matter.
-/

namespace RefGraph.Json

/-- What is wrong with a document. -/
inductive ReadError where
  | malformed
  | endsEarly
  | mismatch (m : Mismatch)
deriving DecidableEq, Repr, Inhabited

/-- A reader takes a value from the beginning of a text. -/
abbrev Reader (α : Type) := List Char → Except ReadError (α × List Char)

/-- White space between the parts of a document. -/
def isBlank (c : Char) : Bool := c == ' ' || c == '\n' || c == '\t' || c == '\r'

/-- A text without the white space at its beginning. -/
def skipBlank (cs : List Char) : List Char := cs.dropWhile isBlank

/-- The rest of a word of which some characters were read. -/
def expectChars : List Char → List Char → Except ReadError (List Char)
  | [], cs => .ok cs
  | _ :: _, [] => .error .endsEarly
  | e :: es, c :: cs => if c = e then expectChars es cs else .error .malformed

/-! ## Texts -/

/-- Where in a text the reader is: between characters, behind a backslash, in a number of so many
more digits, or where the second half of a pair has to begin. -/
inductive TextState where
  | plain
  | escape
  | hex (left : Nat) (value : Nat) (firstHalf : Option Nat)
  | secondBackslash (firstHalf : Nat)
  | secondLetter (firstHalf : Nat)

/-- The character that a letter behind a backslash stands for. -/
def unescape? (c : Char) : Option Char :=
  if c = '"' ∨ c = '\\' ∨ c = '/' then some c
  else if c = 'b' then some '\x08'
  else if c = 'f' then some '\x0c'
  else if c = 'n' then some '\n'
  else if c = 'r' then some '\r'
  else if c = 't' then some '\t'
  else none

/-- What a finished number of four digits means: a character, or the first half of a pair. -/
def finishHex (value : Nat) : Option Nat → Except ReadError (Char ⊕ Nat)
  | none =>
    if 0xDC00 ≤ value ∧ value ≤ 0xDFFF then .error .malformed
    else if 0xD800 ≤ value ∧ value ≤ 0xDBFF then .ok (.inr value)
    else .ok (.inl (Char.ofNat value))
  | some first =>
    if 0xDC00 ≤ value ∧ value ≤ 0xDFFF then
      .ok (.inl (Char.ofNat (0x10000 + (first - 0xD800) * 1024 + (value - 0xDC00))))
    else .error .malformed

/-- The bytes of the first four characters. -/
def leadingBytes (cs : List Char) : Nat := utf8Length (cs.take 4)

/-- Reads a text behind its first quote; the characters read so far come last first. The digits of a
number are looked at only if there are enough bytes for all of them. If `paired` is not set, halves
of pairs may stand alone, and such characters are left out. -/
def readTextFrom (paired : Bool) : TextState → List Char → Reader String
  | _, _, [] => .error .endsEarly
  | .plain, read, c :: cs =>
    if c = '"' then .ok (String.ofList read.reverse, cs)
    else if c = '\\' then readTextFrom paired .escape read cs
    else if c < ' ' then .error .malformed
    else readTextFrom paired .plain (c :: read) cs
  | .escape, read, c :: cs =>
    if c = 'u' then readTextFrom paired (.hex 4 0 none) read cs
    else
      match unescape? c with
      | some d => readTextFrom paired .plain (d :: read) cs
      | none => .error .malformed
  | .hex left value firstHalf, read, c :: cs =>
    match hexValue? c with
    | none => if leadingBytes (c :: cs) < left then .error .endsEarly else .error .malformed
    | some d =>
      let value := 16 * value + d
      if 1 < left then readTextFrom paired (.hex (left - 1) value firstHalf) read cs
      else if !paired then readTextFrom paired .plain read cs
      else
        match finishHex value firstHalf with
        | .error e => .error e
        | .ok (.inl d) => readTextFrom paired .plain (d :: read) cs
        | .ok (.inr first) => readTextFrom paired (.secondBackslash first) read cs
  | .secondBackslash first, read, c :: cs =>
    if c = '\\' then readTextFrom paired (.secondLetter first) read cs else .error .malformed
  | .secondLetter first, read, c :: cs =>
    if c = 'u' then readTextFrom paired (.hex 4 0 (some first)) read cs else .error .malformed

/-! ## Numbers -/

/-- A number in a document: a natural or a negative whole one, or one that is shown as a decimal. -/
inductive Number where
  | natural (n : Nat)
  | negative (n : Nat)
  | decimal (shown : String)
deriving DecidableEq, Repr, Inhabited

/-- What a number is found to be. -/
def Number.found : Number → Found
  | natural n => .integer n
  | negative n => .integer (-(n : Int))
  | decimal shown => .decimal shown

/-- The greatest number of 64 bits. -/
def maxWord : Nat := 18446744073709551615

/-- The value of a digit. -/
def digitValue (c : Char) : Nat := c.toNat - '0'.toNat

/-- Appends digits to a number as long as it fits into 64 bits: the number, how many digits were
appended, and what is left. -/
def absorbDigits (n : Nat) : List Char → Nat × Nat × List Char
  | [] => (n, 0, [])
  | c :: cs =>
    if c.isDigit ∧ 10 * n + digitValue c ≤ maxWord then
      let (m, count, rest) := absorbDigits (10 * n + digitValue c) cs
      (m, count + 1, rest)
    else (n, 0, c :: cs)

/-- Whether a text begins with a digit. -/
def beginsWithDigit (cs : List Char) : Bool := cs.head?.any Char.isDigit

/-- A number times a power of ten; none if it is too large. Very small numbers are scaled in
steps. -/
def scaled? : Nat → Float → Int → Option Float
  | 0, x, _ => some x
  | fuel + 1, x, e =>
    if e.natAbs ≤ 308 then
      let power := Float.ofScientific 1 false e.natAbs
      if e < 0 then some (x / power)
      else if (x * power).isInf then none
      else some (x * power)
    else if x == 0 then some x
    else if 0 ≤ e then none
    else scaled? fuel (x / 1e308) (e + 308)

/-- The number `n * 10 ^ e` as it is shown. -/
def decimalNumber (negative : Bool) (n : Nat) (e : Int) : Except ReadError Number :=
  match scaled? 4 (Float.ofNat n) e with
  | none => .error .malformed
  | some x =>
    match Decimal.ofFloat? (if negative then -x else x) with
    | none => .error .malformed
    | some d => .ok (.decimal d.scientific)

/-- The greatest exponent that is read. -/
def maxExponent : Nat := 2147483647

/-- The value of digits. -/
def digitsValue (cs : List Char) : Nat := cs.foldl (fun n c => 10 * n + digitValue c) 0

/-- Reads the exponent of a number behind its letter. -/
def readExponent (negative : Bool) (n : Nat) (e : Int) (cs : List Char) :
    Except ReadError (Number × List Char) :=
  let (down, cs) := match cs with
    | '+' :: rest => (false, rest)
    | '-' :: rest => (true, rest)
    | rest => (false, rest)
  if cs = [] then .error .endsEarly
  else if !beginsWithDigit cs then .error .malformed
  else
    let value := digitsValue (cs.takeWhile Char.isDigit)
    let rest := cs.dropWhile Char.isDigit
    if maxExponent < value ∧ n ≠ 0 ∧ !down then .error .malformed
    else
      let exponent : Int :=
        if maxExponent < value then -700 else if down then e - value else e + value
      (decimalNumber negative n exponent).map fun number => (number, rest)

/-- Reads what may follow the digits of a number with a fraction. -/
def readMaybeExponent (negative : Bool) (n : Nat) (e : Int) (cs : List Char) :
    Except ReadError (Number × List Char) :=
  match cs with
  | 'e' :: rest | 'E' :: rest => readExponent negative n e rest
  | rest => (decimalNumber negative n e).map fun number => (number, rest)

/-- Reads the fraction of a number behind its point. Digits that no longer fit are left out. -/
def readFraction (negative : Bool) (n : Nat) (e : Int) (cs : List Char) :
    Except ReadError (Number × List Char) :=
  let (m, count, rest) := absorbDigits n cs
  if beginsWithDigit rest then
    readMaybeExponent negative m (e - count) (rest.dropWhile Char.isDigit)
  else if count = 0 then if rest = [] then .error .endsEarly else .error .malformed
  else readMaybeExponent negative m (e - count) rest

/-- The number of 64-bit words that begin with a zero bit. -/
def halfWords : Nat := UInt64.size / 2

/-- A whole number. Zero with a sign and numbers below the least one of 64 bits are decimals. -/
def wholeNumber (negative : Bool) (n : Nat) : Except ReadError Number :=
  if !negative then .ok (.natural n)
  else if n = 0 ∨ halfWords < n then decimalNumber true n 0
  else .ok (.negative n)

/-- Reads a number behind its sign. -/
def readNumber (negative : Bool) (cs : List Char) : Except ReadError (Number × List Char) :=
  match cs with
  | [] => .error .endsEarly
  | c :: rest =>
    if !c.isDigit ∨ (c = '0' ∧ beginsWithDigit rest) then .error .malformed
    else
      let (n, _, rest) := absorbDigits 0 cs
      let more := (rest.takeWhile Char.isDigit).length
      match rest.drop more with
      | '.' :: rest => readFraction negative n more rest
      | 'e' :: rest | 'E' :: rest => readExponent negative n more rest
      | rest =>
        (if more = 0 then wholeNumber negative n else decimalNumber negative n more).map
          fun number => (number, rest)

/-! ## Values in the wrong place -/

/-- The error for a value that stands in the place of something else; its text is read as far as
it tells what it is. -/
def wrongValue (expected : String) : List Char → ReadError
  | [] => .malformed
  | c :: cs =>
    let wrong (found : Found) : ReadError := .mismatch (.type found expected)
    let word (rest : String) (found : Found) : ReadError :=
      match expectChars rest.toList cs with
      | .ok _ => wrong found
      | .error e => e
    let number (read : Except ReadError (Number × List Char)) : ReadError :=
      match read with
      | .ok (n, _) => wrong n.found
      | .error e => e
    if c = 'n' then word "ull" .null
    else if c = 't' then word "rue" (.boolean true)
    else if c = 'f' then word "alse" (.boolean false)
    else if c = '-' then number (readNumber true cs)
    else if c.isDigit then number (readNumber false (c :: cs))
    else if c = '"' then
      match readTextFrom true .plain [] cs with
      | .ok (s, _) => wrong (.text s)
      | .error e => e
    else if c = '[' then wrong .sequence
    else if c = '{' then wrong .mapping
    else .malformed

/-! ## Simple values -/

/-- Reads a text. -/
def readText (expected : String) : Reader String := fun cs =>
  match skipBlank cs with
  | [] => .error .endsEarly
  | '"' :: rest => readTextFrom true .plain [] rest
  | rest => .error (wrongValue expected rest)

/-- Reads a boolean. -/
def readBoolean : Reader Bool := fun cs =>
  match skipBlank cs with
  | [] => .error .endsEarly
  | 't' :: rest => (expectChars "rue".toList rest).map fun rest => (true, rest)
  | 'f' :: rest => (expectChars "alse".toList rest).map fun rest => (false, rest)
  | rest => .error (wrongValue "a boolean" rest)

/-- A number as a natural number up to a limit. -/
def naturalOf (limit : Nat) (expected : String) : Number → Except ReadError Nat
  | .natural n =>
    if n ≤ limit then .ok n else .error (.mismatch (.value (.integer n) expected))
  | .negative n => .error (.mismatch (.value (.integer (-(n : Int))) expected))
  | .decimal shown => .error (.mismatch (.type (.decimal shown) expected))

/-- Reads a natural number up to a limit. -/
def readNatural (limit : Nat) (expected : String) : Reader Nat := fun cs =>
  match skipBlank cs with
  | [] => .error .endsEarly
  | c :: rest =>
    let read : Except ReadError (Number × List Char) :=
      if c = '-' then readNumber true rest
      else if c.isDigit then readNumber false (c :: rest)
      else .error (wrongValue expected (c :: rest))
    match read with
    | .error e => .error e
    | .ok (number, rest) => (naturalOf limit expected number).map fun n => (n, rest)

/-- Reads a value or null. -/
def readOptional {α : Type} (read : Reader α) : Reader (Option α) := fun cs =>
  match skipBlank cs with
  | 'n' :: rest => (expectChars "ull".toList rest).map fun rest => (none, rest)
  | rest => (read rest).map fun (x, rest) => (some x, rest)

/-- Reads what separates items: whether there is another one before the closing bracket. -/
def readNext (first : Bool) (cs : List Char) : Except ReadError (Bool × List Char) :=
  match skipBlank cs with
  | [] => .error .endsEarly
  | ']' :: rest => .ok (false, ']' :: rest)
  | c :: rest =>
    if first then .ok (true, c :: rest)
    else if c = ',' then
      match skipBlank rest with
      | [] => .error .endsEarly
      | ']' :: _ => .error .malformed
      | rest => .ok (true, rest)
    else .error .malformed

/-- Reads the bracket that closes an array. -/
def readClose (cs : List Char) : Except ReadError (List Char) :=
  match skipBlank cs with
  | [] => .error .endsEarly
  | ']' :: rest => .ok rest
  | _ => .error .malformed

/-- Reads the items of an array, at most `fuel` of them; those read so far come last first. -/
def readItems {α : Type} (read : Reader α) : Nat → Bool → List α → Reader (List α)
  | 0, _, items, cs => .ok (items.reverse, cs)
  | fuel + 1, first, items, cs =>
    match readNext first cs with
    | .error e => .error e
    | .ok (false, rest) => .ok (items.reverse, rest)
    | .ok (true, rest) =>
      match read rest with
      | .error e => .error e
      | .ok (x, rest) => readItems read fuel false (x :: items) rest

/-- Reads an array. -/
def readList {α : Type} (read : Reader α) : Reader (List α) := fun cs =>
  match skipBlank cs with
  | [] => .error .endsEarly
  | '[' :: rest =>
    match readItems read rest.length true [] rest with
    | .error e => .error e
    | .ok (items, rest) => (readClose rest).map fun rest => (items, rest)
  | rest => .error (wrongValue "a sequence" rest)

/-! ## Values that do not matter -/

/-- The digits of a number that does not matter, at least one. -/
def skipDigits (cs : List Char) : Except ReadError (List Char) :=
  if beginsWithDigit cs then .ok (cs.dropWhile Char.isDigit) else .error .malformed

/-- The exponent of a number that does not matter, if there is one. -/
def skipExponent (cs : List Char) : Except ReadError (List Char) :=
  match cs with
  | 'e' :: rest | 'E' :: rest =>
    match rest with
    | '+' :: rest | '-' :: rest => skipDigits rest
    | rest => skipDigits rest
  | rest => .ok rest

/-- A number that does not matter, behind its sign. -/
def skipNumber (cs : List Char) : Except ReadError (List Char) :=
  let whole : Except ReadError (List Char) := match cs with
    | '0' :: rest => if beginsWithDigit rest then .error .malformed else .ok rest
    | rest => skipDigits rest
  match whole with
  | .error e => .error e
  | .ok ('.' :: rest) => (skipDigits rest).bind skipExponent
  | .ok rest => skipExponent rest

/-- A text that does not matter, behind its first quote. -/
def skipText (cs : List Char) : Except ReadError (List Char) :=
  (readTextFrom false .plain [] cs).map Prod.snd

/-- The name of a member that does not matter, and the colon behind it. -/
def skipName (cs : List Char) : Except ReadError (List Char) :=
  match skipBlank cs with
  | [] => .error .endsEarly
  | '"' :: rest =>
    match skipText rest with
    | .error e => .error e
    | .ok rest =>
      match skipBlank rest with
      | [] => .error .endsEarly
      | ':' :: rest => .ok rest
      | _ => .error .malformed
  | _ => .error .malformed

mutual

/-- Any value. Each step takes at least one character, so that `fuel` need not be more than the
length of the text. -/
def skipValueUpTo : Nat → List Char → Except ReadError (List Char)
  | 0, _ => .error .endsEarly
  | fuel + 1, cs =>
    match skipBlank cs with
    | [] => .error .endsEarly
    | c :: rest =>
      if c = 'n' then expectChars "ull".toList rest
      else if c = 't' then expectChars "rue".toList rest
      else if c = 'f' then expectChars "alse".toList rest
      else if c = '-' then skipNumber rest
      else if c.isDigit then skipNumber (c :: rest)
      else if c = '"' then skipText rest
      else if c = '[' then
        match skipBlank rest with
        | ']' :: rest => .ok rest
        | rest => skipItemsUpTo fuel rest
      else if c = '{' then
        match skipBlank rest with
        | '}' :: rest => .ok rest
        | rest => skipMembersUpTo fuel rest
      else .error .malformed

/-- The items of an array, at least one, and its closing bracket. -/
def skipItemsUpTo : Nat → List Char → Except ReadError (List Char)
  | 0, _ => .error .endsEarly
  | fuel + 1, cs =>
    match skipValueUpTo fuel cs with
    | .error e => .error e
    | .ok rest =>
      match skipBlank rest with
      | [] => .error .endsEarly
      | c :: rest =>
        if c = ']' then .ok rest
        else if c = ',' then skipItemsUpTo fuel rest
        else .error .malformed

/-- The members of an object, at least one, and its closing brace. -/
def skipMembersUpTo : Nat → List Char → Except ReadError (List Char)
  | 0, _ => .error .endsEarly
  | fuel + 1, cs =>
    match skipName cs with
    | .error e => .error e
    | .ok rest =>
      match skipValueUpTo fuel rest with
      | .error e => .error e
      | .ok rest =>
        match skipBlank rest with
        | [] => .error .endsEarly
        | c :: rest =>
          if c = '}' then .ok rest
          else if c = ',' then skipMembersUpTo fuel rest
          else .error .malformed

end

/-- Any value. -/
def skipValue (cs : List Char) : Except ReadError (List Char) :=
  skipValueUpTo (2 * cs.length + 1) cs

/-! ## Words -/

/-- The value that a word stands for. -/
def valueOfWord {α : Type} (words : List (String × α)) (word : String) : Except ReadError α :=
  match words.find? fun (w, _) => w = word with
  | some (_, x) => .ok x
  | none => .error (.mismatch (.unknownWord word (words.map Prod.fst)))

/-- Reads null in the place of what a word brings with it. -/
def readNull (cs : List Char) : Except ReadError (List Char) :=
  match skipBlank cs with
  | [] => .error .endsEarly
  | 'n' :: rest => expectChars "ull".toList rest
  | rest => .error (wrongValue "unit" rest)

/-- Reads a word as the only member of an object, behind its brace; the member is null. -/
def readWordMember {α : Type} (words : List (String × α)) : Reader α := fun cs =>
  match readText "variant identifier" cs with
  | .error e => .error e
  | .ok (word, rest) =>
    match valueOfWord words word with
    | .error e => .error e
    | .ok x =>
      match skipBlank rest with
      | [] => .error .endsEarly
      | ':' :: rest =>
        match readNull rest with
        | .error e => .error e
        | .ok rest =>
          match skipBlank rest with
          | [] => .error .endsEarly
          | '}' :: rest => .ok (x, rest)
          | _ => .error .malformed
      | _ => .error .malformed

/-- Reads one of several words. -/
def readWord {α : Type} (words : List (String × α)) : Reader α := fun cs =>
  match skipBlank cs with
  | [] => .error .endsEarly
  | '{' :: rest => readWordMember words rest
  | '"' :: rest =>
    match readTextFrom true .plain [] rest with
    | .error e => .error e
    | .ok (word, rest) => (valueOfWord words word).map fun x => (x, rest)
  | _ => .error .malformed

end RefGraph.Json
