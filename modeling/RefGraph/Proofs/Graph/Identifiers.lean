import RefGraph.Proofs.Graph.Calls
import RefGraph.Proofs.Utf8
import Mathlib.Algebra.Group.Nat.Defs

/-!
# Identifiers tell edges apart

The bytes of a key are read off again part by part: a mark says whether a part is there, and its
length says where it ends. So a key is known from its bytes, whatever its texts hold, and two edges
can only have one identifier if the digests of different bytes begin alike.

* `littleEndian_inj`, `encodeField_append_inj`: numbers and parts are known from their bytes.
* `EdgeKey.encode_inj`: so are keys.
* `Digest.start`: the part of a digest that an identifier shows.
* `EdgeKey.id_eq_id_iff`: identifiers show this part and nothing else.
* `Graph.identifies_run`: the edges of a graph after any calls.
-/

namespace RefGraph

/-! ## Numbers and texts as bytes -/

/-- A number that has room in some bytes is known from them. -/
theorem littleEndian_inj {count n m : Nat} (hn : n < 256 ^ count) (hm : m < 256 ^ count)
    (h : littleEndian count n = littleEndian count m) : n = m := by
  induction count generalizing n m with
  | zero => omega
  | succ count ih =>
    obtain ⟨hfirst, hrest⟩ := List.cons.inj h
    have hlow : n % 256 = m % 256 := congrArg UInt8.toNat hfirst
    have hhigh : n / 256 = m / 256 := by
      rw [Nat.pow_succ] at hn hm
      exact ih (Nat.div_lt_of_lt_mul (by omega)) (Nat.div_lt_of_lt_mul (by omega)) hrest
    omega

theorem textBytes_eq (text : String) : textBytes text = Utf8.encode text.toList := by
  rw [textBytes, Utf8.encode, String.ofList_toList]

/-- A text has as many bytes as its size says. -/
theorem length_textBytes (text : String) : (textBytes text).length = text.utf8ByteSize := by
  rw [textBytes, toList_byteArray, Array.length_toList]
  rfl

/-- Texts with the same bytes are the same. -/
theorem textBytes_inj {s t : String} (h : textBytes s = textBytes t) : s = t := by
  rw [textBytes_eq, textBytes_eq] at h
  have hread := Utf8.decode?_encode s.toList
  rw [h, Utf8.decode?_encode] at hread
  exact (String.toList_inj.1 (Option.some.inj hread)).symm

/-! ## Parts of keys -/

/-- The length of a text has room in eight bytes. -/
def IsShort (text : String) : Prop := text.utf8ByteSize < 2 ^ 64

instance (text : String) : Decidable (IsShort text) := inferInstanceAs (Decidable (_ < _))

/-- **A part is known from its bytes, and so is where it ends.** -/
theorem encodeField_append_inj {a b : Option String} {xs ys : List UInt8}
    (ha : ∀ text ∈ a, IsShort text) (hb : ∀ text ∈ b, IsShort text)
    (h : encodeField a ++ xs = encodeField b ++ ys) : a = b ∧ xs = ys := by
  cases a with
  | none =>
    cases b with
    | none => exact ⟨rfl, (List.cons.inj h).2⟩
    | some t => exact absurd (List.cons.inj h).1 (by decide)
  | some s =>
    cases b with
    | none => exact absurd (List.cons.inj h).1 (by decide)
    | some t =>
      simp only [encodeField, List.cons_append, List.append_assoc, List.cons.injEq, true_and] at h
      obtain ⟨hlengths, hrest⟩ := List.append_inj h (by simp only [length_littleEndian])
      -- The lengths say where the texts end.
      have hlength : (textBytes s).length = (textBytes t).length := by
        refine littleEndian_inj ?_ ?_ hlengths
        · rw [length_textBytes]
          exact ha s rfl
        · rw [length_textBytes]
          exact hb t rfl
      obtain ⟨htexts, hbehind⟩ := List.append_inj hrest hlength
      exact ⟨congrArg some (textBytes_inj htexts), hbehind⟩

theorem EdgeKind.isShort_word (kind : EdgeKind) : IsShort kind.word := by
  cases kind <;> decide

/-- Kinds of edges with the same word are the same. -/
theorem EdgeKind.word_inj {kind kind' : EdgeKind} (h : kind.word = kind'.word) : kind = kind' := by
  revert h
  cases kind <;> cases kind' <;> decide

namespace EdgeKey

/-- The texts of a key are short. -/
structure HasShortTexts (k : EdgeKey) : Prop where
  source : IsShort k.source
  target : IsShort k.target
  statement : ∀ text ∈ k.statement, IsShort text

/-- **A key is known from its bytes.** -/
theorem encode_inj {k k' : EdgeKey} (hk : k.HasShortTexts) (hk' : k'.HasShortTexts)
    (h : k.encode = k'.encode) : k = k' := by
  have hone {text : String} (htext : IsShort text) : ∀ t ∈ some text, IsShort t := by
    rintro t ⟨⟩
    exact htext
  simp only [encode, List.append_assoc] at h
  obtain ⟨hsource, h⟩ := encodeField_append_inj (hone hk.source) (hone hk'.source) h
  obtain ⟨htarget, h⟩ := encodeField_append_inj (hone hk.target) (hone hk'.target) h
  obtain ⟨hword, h⟩ :=
    encodeField_append_inj (hone k.kind.isShort_word) (hone k'.kind.isShort_word) h
  rw [← List.append_nil (encodeField k.statement),
    ← List.append_nil (encodeField k'.statement)] at h
  obtain ⟨hstatement, -⟩ := encodeField_append_inj hk.statement hk'.statement h
  cases k
  cases k'
  obtain rfl := Option.some.inj hsource
  obtain rfl := Option.some.inj htarget
  obtain rfl := EdgeKind.word_inj (Option.some.inj hword)
  obtain rfl := hstatement
  rfl

end EdgeKey

/-! ## Digits -/

namespace Digest

/-- The first two words of a digest: 64 bits. -/
def start (bytes : List UInt8) : List UInt32 := (words bytes).take 2

theorem hexDigit_inj {n m : Nat} (hn : n < 16) (hm : m < 16) (h : hexDigit n = hexDigit m) :
    n = m := by
  have hall : ∀ i j : Fin 16, hexDigit i = hexDigit j → i = j := by decide
  exact congrArg Fin.val (hall ⟨n, hn⟩ ⟨m, hm⟩ h)

/-- The two digits of a byte. -/
def byteHex (n : Nat) : List Char := [hexDigit (n / 16), hexDigit (n % 16)]

/-- Different bytes are written with different digits. -/
theorem byteHex_inj {n m : Nat} (hn : n < 256) (hm : m < 256) (h : byteHex n = byteHex m) :
    n = m := by
  simp only [byteHex, List.cons.injEq, and_true] at h
  have hhigh := hexDigit_inj (by omega) (by omega) h.1
  have hlow := hexDigit_inj (by omega) (by omega) h.2
  omega

/-- Things are known from what is written for them one after the other, if the same number of digits
is written for each of them. -/
theorem eq_of_flatMap_eq {α : Type} {f : α → List Char} {n : Nat} (hf : ∀ x, (f x).length = n)
    {xs ys : List α} (hlength : xs.length = ys.length)
    (hinj : ∀ x ∈ xs, ∀ y ∈ ys, f x = f y → x = y) (h : xs.flatMap f = ys.flatMap f) : xs = ys := by
  induction xs generalizing ys with
  | nil => exact (List.length_eq_zero_iff.1 hlength.symm).symm
  | cons x xs ih =>
    cases ys with
    | nil => cases hlength
    | cons y ys =>
      rw [List.flatMap_cons, List.flatMap_cons] at h
      obtain ⟨hfirst, hrest⟩ := List.append_inj h ((hf x).trans (hf y).symm)
      rw [hinj x List.mem_cons_self y List.mem_cons_self hfirst,
        ih (Nat.succ.inj hlength) (fun x hx y hy =>
          hinj x (List.mem_cons_of_mem _ hx) y (List.mem_cons_of_mem _ hy)) hrest]

/-- The bytes of a word, lowest first. -/
def bytesOfWord (w : UInt32) : List Nat := (List.range 4).map fun i => (w.toNat >>> (8 * i)) % 256

/-- A word is written byte by byte. -/
theorem wordHex_eq (w : UInt32) : wordHex w = (bytesOfWord w).flatMap byteHex := by
  rw [bytesOfWord, List.flatMap_map]
  rfl

theorem length_wordHex (w : UInt32) : (wordHex w).length = 8 := rfl

/-- Different words have different bytes. -/
theorem bytesOfWord_inj {v w : UInt32} (h : bytesOfWord v = bytesOfWord w) : v = w := by
  simp only [bytesOfWord, List.map_inj_left, List.mem_range, Nat.shiftRight_eq_div_pow] at h
  have h₀ := h 0 (by omega)
  have h₁ := h 1 (by omega)
  have h₂ := h 2 (by omega)
  have h₃ := h 3 (by omega)
  have hv := v.toNat_lt
  have hw := w.toNat_lt
  exact UInt32.toNat_inj.1 (by omega)

/-- A word is known from its digits. -/
theorem wordHex_inj {v w : UInt32} (h : wordHex v = wordHex w) : v = w := by
  have hbyte {u : UInt32} : ∀ n ∈ bytesOfWord u, n < 256 := by
    intro n hn
    obtain ⟨i, -, rfl⟩ := List.mem_map.1 hn
    exact Nat.mod_lt _ (by omega)
  have hlength : ∀ n, (byteHex n).length = 2 := fun _ => rfl
  rw [wordHex_eq, wordHex_eq] at h
  exact bytesOfWord_inj (eq_of_flatMap_eq hlength rfl
    (fun n hn m hm => byteHex_inj (hbyte n hn) (hbyte m hm)) h)

/-- A digest has eight words. -/
theorem length_words (bytes : List UInt8) : (words bytes).length = 8 := by
  simp only [words, Output.value, compress, List.length_map, List.length_range]

/-- The first sixteen digits of a digest show its first two words. -/
theorem take_hex (bytes : List UInt8) : (hex bytes).take 16 = (start bytes).flatMap wordHex := by
  obtain ⟨a, b, rest, hwords⟩ : ∃ a b rest, words bytes = a :: b :: rest := by
    have hlength := length_words bytes
    match hw : words bytes with
    | [] | [_] => simp [hw] at hlength
    | a :: b :: rest => exact ⟨a, b, rest, rfl⟩
  have hsixteen : (wordHex a ++ wordHex b).length = 16 := by
    rw [List.length_append, length_wordHex, length_wordHex]
  rw [hex, start, hwords, List.flatMap_cons, List.flatMap_cons, ← List.append_assoc,
    ← hsixteen, List.take_left]
  simp

end Digest

/-- **An identifier shows the first 64 bits of the digest of the key and nothing else.** -/
theorem EdgeKey.id_eq_id_iff {k k' : EdgeKey} :
    k.id = k'.id ↔ Digest.start k.encode = Digest.start k'.encode := by
  have hlength : (Digest.start k.encode).length = (Digest.start k'.encode).length := by
    simp only [Digest.start, List.length_take, Digest.length_words]
  rw [EdgeKey.id, EdgeKey.id, Digest.take_hex, Digest.take_hex, String.ofList_inj]
  constructor
  · exact Digest.eq_of_flatMap_eq Digest.length_wordHex hlength fun v _ w _ => Digest.wordHex_inj
  · intro h
    rw [h]

/-! ## Edges of graphs -/

namespace Graph

/-- No two edges of a graph have keys whose bytes are different, but whose digests begin alike. -/
def CollisionFree (g : Graph) : Prop :=
  ∀ k ∈ g.edgeKeys, ∀ k' ∈ g.edgeKeys,
    Digest.start k.encode = Digest.start k'.encode → k.encode = k'.encode

/-- **Identifiers tell edges apart.** Keys with short texts have the same bytes only if they are the
same. So after any calls, where each edge has the identifier of its key, no two edges have one
identifier, unless the digests of their keys begin alike by accident. -/
theorem identifies_run :
    (∀ k k' : EdgeKey, k.HasShortTexts → k'.HasShortTexts → (k.encode = k'.encode ↔ k = k')) ∧
      ∀ cs : List Call, (∀ e ∈ (empty.run cs).2.edges.toList, e.id = e.key.id) ∧
        ((∀ k ∈ (empty.run cs).2.edgeKeys, k.HasShortTexts) → (empty.run cs).2.CollisionFree →
          ((empty.run cs).2.edges.toList.map GraphEdge.id).Nodup) := by
  refine ⟨fun k k' hk hk' => ⟨EdgeKey.encode_inj hk hk', congrArg EdgeKey.encode⟩, fun cs => ?_⟩
  have hg : (empty.run cs).2.Consistent := Consistent.empty.run cs
  refine ⟨hg.edge_id, fun hshort hfree => ?_⟩
  have hids : (empty.run cs).2.edges.toList.map GraphEdge.id =
      (empty.run cs).2.edgeKeys.map EdgeKey.id := by
    rw [edgeKeys, List.map_map]
    exact List.map_congr_left hg.edge_id
  rw [hids]
  refine hg.nodup_edgeKeys.map_on fun k hk k' hk' hid => ?_
  have hbytes := hfree k hk k' hk' (EdgeKey.id_eq_id_iff.1 hid)
  exact EdgeKey.encode_inj (hshort k hk) (hshort k' hk') hbytes

/-- A key without a statement. -/
def bareKey : EdgeKey := ⟨"a.ts", "b.ts", .static, none⟩

/-- The same key with an empty statement. -/
def emptyKey : EdgeKey := ⟨"a.ts", "b.ts", .static, some ""⟩

/-- Two files, and edges of these keys between them. -/
def bareAndEmpty : List Call :=
  [.node (.file "a.ts" .code false), .node (.file "b.ts" .code false), .edge bareKey none,
    .edge emptyKey none]

theorem edges_bareAndEmpty :
    (empty.run bareAndEmpty).2.edges.toList = [edgeOf bareKey none, edgeOf emptyKey none] := by
  simp [bareAndEmpty, run, call, insertNode, insertEdge, contains, empty, GraphNode.file, bareKey,
    emptyKey]

/-- The digests of the two edges differ. -/
theorem collisionFree_bareAndEmpty : (empty.run bareAndEmpty).2.CollisionFree := by
  have hne : Digest.start bareKey.encode ≠ Digest.start emptyKey.encode := by
    simp only [EdgeKey.encode, encodeField, textBytes, toList_toUTF8]
    decide +kernel
  simp [CollisionFree, edgeKeys, edges_bareAndEmpty, hne, hne.symm]

/-- An absent statement and an empty one give two identifiers. -/
theorem identifies_run_bareAndEmpty : bareKey.HasShortTexts ∧ emptyKey.HasShortTexts ∧
    bareKey.encode ≠ emptyKey.encode ∧ (empty.run bareAndEmpty).2.CollisionFree ∧
    ((empty.run bareAndEmpty).2.edges.toList.map GraphEdge.id).Nodup := by
  have hbare : bareKey.HasShortTexts := ⟨by decide, by decide, by simp [bareKey]⟩
  have hempty : emptyKey.HasShortTexts := ⟨by decide, by decide, by simp [emptyKey]; decide⟩
  have hshort : ∀ k ∈ (empty.run bareAndEmpty).2.edgeKeys, k.HasShortTexts := by
    simp [edgeKeys, edges_bareAndEmpty, hbare, hempty]
  obtain ⟨hencode, hrun⟩ := identifies_run
  refine ⟨hbare, hempty, fun h => ?_, collisionFree_bareAndEmpty,
    (hrun bareAndEmpty).2 hshort collisionFree_bareAndEmpty⟩
  exact absurd ((hencode bareKey emptyKey hbare hempty).1 h) (by decide)

end Graph

end RefGraph
