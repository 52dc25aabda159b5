/-!
# The BLAKE3 digest

The text is cut into chunks of 1024 bytes, the chunks into blocks of 64 bytes. Blocks are mixed into
a chaining value one after the other, and the chaining values of chunks are mixed two by two, where
the left one of two parts covers the largest power of two of chunks that leaves some for the right.

* `Digest.words`: the first eight words of the digest.
-/

namespace RefGraph.Digest

/-- The value with which every chunk begins. -/
def initial : List UInt32 :=
  [0x6A09E667, 0xBB67AE85, 0x3C6EF372, 0xA54FF53A, 0x510E527F, 0x9B05688C, 0x1F83D9AB, 0x5BE0CD19]

/-- How the words of a block are permuted from round to round. -/
def permutation : List Nat := [2, 6, 3, 10, 7, 0, 4, 13, 1, 11, 12, 5, 9, 14, 15, 8]

/-- The flag of the first block of a chunk. -/
def chunkStart : UInt32 := 1

/-- The flag of the last block of a chunk. -/
def chunkEnd : UInt32 := 2

/-- The flag of a block that joins two parts. -/
def parentFlag : UInt32 := 4

/-- The flag of the last mixing of all. -/
def rootFlag : UInt32 := 8

/-- Rotates a word to the right. -/
def rotateRight (x n : UInt32) : UInt32 := (x >>> n) ||| (x <<< (32 - n))

/-- Mixes two words into four places of the state. -/
def mix (v : Array UInt32) (a b c d : Nat) (x y : UInt32) : Array UInt32 :=
  let at' (v : Array UInt32) (i : Nat) : UInt32 := v.getD i 0
  let v := v.setIfInBounds a (at' v a + at' v b + x)
  let v := v.setIfInBounds d (rotateRight (at' v d ^^^ at' v a) 16)
  let v := v.setIfInBounds c (at' v c + at' v d)
  let v := v.setIfInBounds b (rotateRight (at' v b ^^^ at' v c) 12)
  let v := v.setIfInBounds a (at' v a + at' v b + y)
  let v := v.setIfInBounds d (rotateRight (at' v d ^^^ at' v a) 8)
  let v := v.setIfInBounds c (at' v c + at' v d)
  v.setIfInBounds b (rotateRight (at' v b ^^^ at' v c) 7)

/-- The places that are mixed in one round: the columns and then the diagonals. -/
def places : List (Nat × Nat × Nat × Nat) :=
  [(0, 4, 8, 12), (1, 5, 9, 13), (2, 6, 10, 14), (3, 7, 11, 15),
    (0, 5, 10, 15), (1, 6, 11, 12), (2, 7, 8, 13), (3, 4, 9, 14)]

/-- One round: mixes the words of a block into the state. -/
def round (v : Array UInt32) (block : Array UInt32) : Array UInt32 :=
  places.zipIdx.foldl (fun v ((a, b, c, d), i) =>
    mix v a b c d (block.getD (2 * i) 0) (block.getD (2 * i + 1) 0)) v

/-- Rounds that permute the block between them. -/
def rounds : Nat → Array UInt32 → Array UInt32 → Array UInt32
  | 0, v, _ => v
  | n + 1, v, block =>
    rounds n (round v block) (permutation.map (block.getD · 0)).toArray

/-- Mixes a block of words into a chaining value. -/
def compress (chaining : List UInt32) (block : Array UInt32) (counter : UInt64)
    (length flags : UInt32) : List UInt32 :=
  let v : List UInt32 :=
    chaining ++ initial.take 4 ++
      [counter.toUInt32, (counter >>> 32).toUInt32, length, flags]
  let v := rounds 7 v.toArray block
  (List.range 8).map fun i => v.getD i 0 ^^^ v.getD (i + 8) 0

/-- Four bytes as a word, lowest byte first. -/
def wordOf (bytes : List UInt8) : UInt32 :=
  bytes.foldr (fun b w => (w <<< 8) ||| b.toUInt32) 0

/-- The words of a block of bytes, with zeros at its end. -/
def blockWords (bytes : List UInt8) : Array UInt32 :=
  ((List.range 16).map fun i => wordOf ((bytes.drop (4 * i)).take 4)).toArray

/-- A last mixing that has not been done, so that it can be marked as the root. -/
structure Output where
  chaining : List UInt32
  block : Array UInt32
  counter : UInt64
  length : UInt32
  flags : UInt32

/-- The chaining value that an output gives. -/
def Output.value (o : Output) : List UInt32 :=
  compress o.chaining o.block o.counter o.length o.flags

/-- Mixes the blocks of a chunk, up to its last one. -/
def chunkOutput (counter : UInt64) :
    Nat → UInt32 → List UInt32 → List UInt8 → Output
  | 0, flags, chaining, bytes =>
    ⟨chaining, blockWords bytes, counter, bytes.length.toUInt32, flags ||| chunkEnd⟩
  | more + 1, flags, chaining, bytes =>
    if bytes.length ≤ 64 then
      ⟨chaining, blockWords bytes, counter, bytes.length.toUInt32, flags ||| chunkEnd⟩
    else
      chunkOutput counter more 0
        (compress chaining (blockWords (bytes.take 64)) counter 64 flags) (bytes.drop 64)

/-- The largest power of two, up to a bound, that is smaller than a number. -/
def powerBelow (n : Nat) : Nat → Nat → Nat
  | 0, p => p
  | steps + 1, p => if 2 * p < n then powerBelow n steps (2 * p) else p

/-- The last mixing of a text of at most `2 ^ depth` chunks, whose first chunk has the given
number. -/
def treeOutput : Nat → UInt64 → List UInt8 → Output
  | 0, counter, bytes => chunkOutput counter 15 chunkStart initial bytes
  | depth + 1, counter, bytes =>
    let chunks := (bytes.length + 1023) / 1024
    if chunks ≤ 1 then chunkOutput counter 15 chunkStart initial bytes
    else
      let left := powerBelow chunks chunks 1
      let l := treeOutput depth counter (bytes.take (1024 * left))
      let r := treeOutput depth (counter + left.toUInt64) (bytes.drop (1024 * left))
      ⟨initial, (l.value ++ r.value).toArray, 0, 64, parentFlag⟩

/-- The first eight words of the digest of a text. -/
def words (bytes : List UInt8) : List UInt32 :=
  let o := treeOutput bytes.length 0 bytes
  Output.value { o with flags := o.flags ||| rootFlag }

/-- A digit of a hexadecimal number. -/
def hexDigit (n : Nat) : Char := "0123456789abcdef".toList.getD n '0'

/-- The bytes of a word, lowest byte first, with two digits each. -/
def wordHex (w : UInt32) : List Char :=
  (List.range 4).flatMap fun i =>
    let byte := (w.toNat >>> (8 * i)) % 256
    [hexDigit (byte / 16), hexDigit (byte % 16)]

/-- The digest as digits. -/
def hex (bytes : List UInt8) : List Char := (words bytes).flatMap wordHex

end RefGraph.Digest
