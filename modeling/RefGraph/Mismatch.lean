import RefGraph.Quoted

/-!
# What does not fit

A well-formed document may still not be what is expected. The first thing that does not fit is
reported.

* `Found`: what stands in the place of something else.
* `Mismatch`: what does not fit, with its text `Mismatch.message`.
-/

namespace RefGraph

/-- What stands in the place of something else. A decimal is kept as it is shown. -/
inductive Found where
  | null
  | boolean (b : Bool)
  | integer (n : Int)
  | decimal (shown : String)
  | text (s : String)
  | sequence
  | mapping
deriving DecidableEq, Repr, Inhabited

/-- The words for what is found. -/
def Found.words : Found → String
  | null => "null"
  | boolean b => "boolean `" ++ (if b then "true" else "false") ++ "`"
  | integer n => "integer `" ++ toString n ++ "`"
  | decimal shown => "floating point `" ++ shown ++ "`"
  | text s => "string " ++ quoted s
  | sequence => "sequence"
  | mapping => "map"

/-- What does not fit. -/
inductive Mismatch where
  | type (found : Found) (expected : String)
  | value (found : Found) (expected : String)
  | length (count : Nat) (expected : String)
  | missingField (name : String)
  | repeatedField (name : String)
  | unknownWord (word : String) (known : List String)
  | noWord
  | wordWithoutTable (found : String)
  | wordWithContent
  | emptyTable
  | severalWords
deriving DecidableEq, Repr, Inhabited

/-- Words to choose from. -/
def choiceOf : List String → String
  | [] => "there are no variants"
  | [w] => "expected `" ++ w ++ "`"
  | [v, w] => "expected `" ++ v ++ "` or `" ++ w ++ "`"
  | ws => "expected one of " ++ String.intercalate ", " (ws.map fun w => "`" ++ w ++ "`")

/-- The text of what does not fit. -/
def Mismatch.message : Mismatch → String
  | type found expected => "invalid type: " ++ found.words ++ ", expected " ++ expected
  | value found expected => "invalid value: " ++ found.words ++ ", expected " ++ expected
  | length count expected => "invalid length " ++ toString count ++ ", expected " ++ expected
  | missingField name => "missing field `" ++ name ++ "`"
  | repeatedField name => "duplicate field `" ++ name ++ "`"
  | unknownWord word known => "unknown variant `" ++ word ++ "`, " ++ choiceOf known
  | noWord => "wanted string or table"
  | wordWithoutTable found => "expected table, found " ++ found
  | wordWithContent => "expected empty table"
  | emptyTable => "wanted exactly 1 element, found 0 elements"
  | severalWords => "wanted exactly 1 element, more than 1 element"

end RefGraph
