import RefGraph.Json.Reading

/-!
# Reading records

A record is read from an object, whose members may come in any order and among members that do not
matter, or from an array of its fields in order. Reading fills in a draft, which is then made into
the record.

* `Json.Field`: a field of a draft.
* `Json.RecordShape.read`: reads a record.
-/

namespace RefGraph.Json

/-- A field of a draft: its name, whether it has to be there, whether it has been read, and how it
is read. -/
structure Field (σ : Type) where
  name : String
  needed : Bool
  isGiven : σ → Bool
  read : σ → Reader σ

/-- A field whose value is put into a draft by `set`. -/
def Field.of {σ α : Type} (name : String) (needed : Bool) (get : σ → Option α)
    (set : σ → α → σ) (read : Reader α) : Field σ :=
  { name
    needed
    isGiven := fun s => (get s).isSome
    read := fun s cs => (read cs).map fun (x, rest) => (set s x, rest) }

/-- How a record is read: its name, its fields in order, the draft to begin with, and the record
that a draft is made into, if it has all that is needed. -/
structure RecordShape (σ α : Type) where
  name : String
  fields : List (Field σ)
  start : σ
  finish : σ → Option α

namespace RecordShape

variable {σ α : Type}

/-- The words for what is expected. -/
def expected (r : RecordShape σ α) : String := "struct " ++ r.name

/-- The words for an array of all fields. -/
def expectedLength (r : RecordShape σ α) : String :=
  r.expected ++ " with " ++ toString r.fields.length ++ " elements"

/-- The first field that has to be there and is not. -/
def missing? (fields : List (Field σ)) (s : σ) : Option String :=
  (fields.find? fun f => f.needed && !f.isGiven s).map Field.name

/-- Reads what stands before the next member: whether there is another one before the closing
brace. -/
def readNextMember (first : Bool) (cs : List Char) : Except ReadError (Bool × List Char) :=
  match skipBlank cs with
  | [] => .error .endsEarly
  | '}' :: rest => .ok (false, rest)
  | c :: rest =>
    if first then if c = '"' then .ok (true, rest) else .error .malformed
    else if c = ',' then
      match skipBlank rest with
      | [] => .error .endsEarly
      | '"' :: rest => .ok (true, rest)
      | _ => .error .malformed
    else .error .malformed

/-- Reads the colon behind the name of a member. -/
def readColon (cs : List Char) : Except ReadError (List Char) :=
  match skipBlank cs with
  | [] => .error .endsEarly
  | ':' :: rest => .ok rest
  | _ => .error .malformed

/-- Reads the value of a member; one that is no field does not matter. -/
def readMember (fields : List (Field σ)) (name : String) (s : σ) (cs : List Char) :
    Except ReadError (σ × List Char) :=
  match fields.find? fun f => f.name = name with
  | none => (readColon cs).bind fun rest => (skipValue rest).map fun rest => (s, rest)
  | some f =>
    if f.isGiven s then .error (.mismatch (.repeatedField name))
    else (readColon cs).bind fun rest => f.read s rest

/-- Reads the members of an object, at most `fuel` of them, and its closing brace. -/
def readMembers (fields : List (Field σ)) : Nat → Bool → σ → Reader σ
  | 0, _, _, _ => .error .endsEarly
  | fuel + 1, first, s, cs =>
    match readNextMember first cs with
    | .error e => .error e
    | .ok (false, rest) => .ok (s, rest)
    | .ok (true, rest) =>
      match readTextFrom true .plain [] rest with
      | .error e => .error e
      | .ok (name, rest) =>
        match readMember fields name s rest with
        | .error e => .error e
        | .ok (s, rest) => readMembers fields fuel false s rest

/-- Reads fields in order, as long as there are items, and tells how many were read. -/
def readPositions : List (Field σ) → Bool → σ → List Char → Except ReadError (σ × Nat × List Char)
  | [], _, s, cs => .ok (s, 0, cs)
  | f :: fs, first, s, cs =>
    match readNext first cs with
    | .error e => .error e
    | .ok (false, rest) => .ok (s, 0, rest)
    | .ok (true, rest) =>
      match f.read s rest with
      | .error e => .error e
      | .ok (s, rest) => (readPositions fs false s rest).map fun (s, n, rest) => (s, n + 1, rest)

/-- The record that a draft is made into; `whatIfNot` tells what does not fit. -/
def finished (r : RecordShape σ α) (s : σ) (whatIfNot : Mismatch) : Except ReadError α :=
  match r.finish s with
  | some x => .ok x
  | none => .error (.mismatch whatIfNot)

/-- Reads a record. -/
def read (r : RecordShape σ α) : Reader α := fun cs =>
  match skipBlank cs with
  | [] => .error .endsEarly
  | '{' :: rest =>
    match readMembers r.fields (rest.length + 1) true r.start rest with
    | .error e => .error e
    | .ok (s, rest) =>
      (r.finished s (.missingField ((missing? r.fields s).getD ""))).map fun x => (x, rest)
  | '[' :: rest =>
    match readPositions r.fields true r.start rest with
    | .error e => .error e
    | .ok (s, n, rest) =>
      match r.finished s (.length n r.expectedLength) with
      | .error e => .error e
      | .ok x => (readClose rest).map fun rest => (x, rest)
  | rest => .error (wrongValue r.expected rest)

end RecordShape

end RefGraph.Json
