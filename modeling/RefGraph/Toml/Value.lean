/-!
# TOML values

What a TOML document holds. A table remembers how it came about, because that decides whether it may
still grow.

* `Toml.Value`: values.
* `Toml.updateAt`: changes the table that a dotted key leads to.
-/

namespace RefGraph.Toml

/-- How a table came about: written in braces, under a header, only as a part of a header, or only
as a part of a dotted key. -/
inductive Origin where
  | inline
  | header
  | implied
  | dotted
deriving DecidableEq, Repr, Inhabited

/-- A value. A number with a fraction is kept as it is shown, and of a date or a time only that it
is one. The entries of a table keep their order. -/
inductive Value where
  | text (s : String)
  | integer (n : Int)
  | decimal (shown : String)
  | boolean (b : Bool)
  | moment
  | array (items : List Value)
  | table (origin : Origin) (entries : List (String × Value))
  | tables (items : List (List (String × Value)))
deriving Repr, Inhabited

/-- The entries of a table. -/
abbrev Entries := List (String × Value)

namespace Value

/-- The word for what a value is. -/
def word : Value → String
  | text _ => "string"
  | integer _ => "integer"
  | decimal _ => "float"
  | boolean _ => "boolean"
  | moment => "datetime"
  | array _ => "array"
  | table .inline _ => "inline table"
  | table _ _ => "table"
  | tables _ => "array of tables"

end Value

namespace Entries

/-- The value of a key. -/
def find? (es : Entries) (key : String) : Option Value :=
  (List.find? (fun e : String × Value => e.1 = key) es).map Prod.snd

/-- Gives a key, which is there, a new value. -/
def replace (es : Entries) (key : String) (v : Value) : Entries :=
  es.map fun e => if e.1 = key then (key, v) else e

/-- Takes a key out. -/
def without (es : Entries) (key : String) : Entries := es.filter fun e => e.1 ≠ key

end Entries

/-- Changes the table that a path leads to, and gives back what the change gives back. Tables on the
way that are not there come about as `made`. No path leads into a value or a table in braces, and a
dotted key leads into no table with a header. In an array of tables, a path goes on in the last. -/
def updateAt {α : Type} (made : Origin) (change : Origin → Entries → Option (Entries × α)) :
    List String → Origin → Entries → Option (Entries × α)
  | [], origin, es => change origin es
  | key :: path, _, es =>
    match es.find? key with
    | none =>
      (updateAt made change path made []).map fun (inner, x) =>
        (es ++ [(key, .table made inner)], x)
    | some (.table origin inner) =>
      if origin = .inline ∨ (made = .dotted ∧ origin = .header) then none
      else
        (updateAt made change path origin inner).map fun (inner, x) =>
          (es.replace key (.table origin inner), x)
    | some (.tables items) =>
      match items.getLast? with
      | none => none
      | some last =>
        (updateAt made change path .header last).map fun (inner, x) =>
          (es.replace key (.tables (items.dropLast ++ [inner])), x)
    | some _ => none

/-- Adds the value of a dotted key to a table. A table with a header is not entered by dotted keys,
and a table of dotted keys by nothing else. -/
def insertAt (path : List String) (key : String) (v : Value) (origin : Origin) (es : Entries) :
    Option Entries :=
  (updateAt .dotted (fun origin es =>
    if (origin = .dotted) = (path = []) ∨ (es.find? key).isSome then none
    else some (es ++ [(key, v)], ())) path origin es).map Prod.fst

end RefGraph.Toml
