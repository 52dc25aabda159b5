/-!
# Bytes as text

Bytes are read as UTF-8. Where they are none, a replacement character stands for the bytes up to the
first one that cannot follow.

* `Utf8.decodeLossy`: the characters of any bytes.
* `Utf8.decode?`: the characters of bytes that are UTF-8.
-/

namespace RefGraph.Utf8

/-- The beginning of a character: the value of its bits so far, how many bytes are missing, and
between which bounds the next one has to lie. -/
structure Partial where
  value : Nat
  missing : Nat
  low : Nat
  high : Nat
deriving DecidableEq, Repr, Inhabited

/-- What the first byte of a character begins: a whole character, a part of one, or none. -/
def first? (b : Nat) : Option (Char ⊕ Partial) :=
  if b < 0x80 then some (.inl (Char.ofNat b))
  else if b < 0xC2 then none
  else if b < 0xE0 then some (.inr ⟨b - 0xC0, 1, 0x80, 0xBF⟩)
  else if b < 0xF0 then
    some (.inr ⟨b - 0xE0, 2, if b = 0xE0 then 0xA0 else 0x80, if b = 0xED then 0x9F else 0xBF⟩)
  else if b < 0xF5 then
    some (.inr ⟨b - 0xF0, 3, if b = 0xF0 then 0x90 else 0x80, if b = 0xF4 then 0x8F else 0xBF⟩)
  else none

/-- What a byte makes of the beginning of a character. -/
def Partial.next? (p : Partial) (b : Nat) : Option (Char ⊕ Partial) :=
  if p.low ≤ b ∧ b ≤ p.high then
    let value := p.value * 64 + (b - 0x80)
    if p.missing = 1 then some (.inl (Char.ofNat value))
    else some (.inr ⟨value, p.missing - 1, 0x80, 0xBF⟩)
  else none

/-- What stands for bytes that are no character. -/
def replacement : Char := '\ufffd'

/-- The characters of bytes behind the beginning of a character, if there is one. A byte that cannot
follow ends it and is looked at again as a first byte. -/
def decodeFrom : Option Partial → List UInt8 → List Char
  | none, [] => []
  | some _, [] => [replacement]
  | begun, b :: bs =>
    let fresh (before : List Char) : List Char :=
      match first? b.toNat with
      | none => before ++ replacement :: decodeFrom none bs
      | some (.inl c) => before ++ c :: decodeFrom none bs
      | some (.inr p) => before ++ decodeFrom (some p) bs
    match begun with
    | none => fresh []
    | some p =>
      match p.next? b.toNat with
      | none => fresh [replacement]
      | some (.inl c) => c :: decodeFrom none bs
      | some (.inr q) => decodeFrom (some q) bs

/-- The characters of any bytes. -/
def decodeLossy (bs : List UInt8) : List Char := decodeFrom none bs

/-- The bytes of characters. -/
def encode (cs : List Char) : List UInt8 := (String.ofList cs).toUTF8.toList

/-- The characters of bytes that are UTF-8: those whose bytes they are. -/
def decode? (bs : List UInt8) : Option (List Char) :=
  let cs := decodeLossy bs
  if encode cs = bs then some cs else none

end RefGraph.Utf8
