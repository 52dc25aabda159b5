import RefGraph.Graph.Model
import RefGraph.Graph.Digest

/-!
# Identifiers of edges

An edge is identified by its key: its ends, its kind and its statement. The key is written as bytes
so that no two keys have the same bytes, and the identifier is the beginning of their digest.

* `EdgeKey.encode`: the bytes of a key.
* `EdgeKey.id`: the identifier.
-/

namespace RefGraph

/-- The lowest bytes of a number, lowest first. -/
def littleEndian : Nat → Nat → List UInt8
  | 0, _ => []
  | count + 1, n => n.toUInt8 :: littleEndian count (n / 256)

/-- As many bytes as were asked for. -/
theorem length_littleEndian (count n : Nat) : (littleEndian count n).length = count := by
  induction count generalizing n with
  | zero => rfl
  | succ count ih => simp [littleEndian, ih]

/-- The bytes of a text. -/
def textBytes (text : String) : List UInt8 := text.toUTF8.toList

/-- A part of a key as bytes: a mark, and for a part that is there its length and its text. -/
def encodeField : Option String → List UInt8
  | none => [0]
  | some text => 1 :: littleEndian 8 (textBytes text).length ++ textBytes text

namespace EdgeKey

/-- The bytes of a key: those of its four parts one after the other. -/
def encode (k : EdgeKey) : List UInt8 :=
  encodeField (some k.source) ++ encodeField (some k.target) ++ encodeField (some k.kind.word) ++
    encodeField k.statement

/-- The identifier of an edge: the first sixteen digits of the digest of its key. -/
def id (k : EdgeKey) : String := String.ofList ((Digest.hex k.encode).take 16)

end EdgeKey

end RefGraph
