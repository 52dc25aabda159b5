import RefGraph.Utf8

/-!
# Bytes and the characters they stand for

What is written as bytes is read back as it was, and nothing else begins with the same bytes.

* `Utf8.decodeFrom_utf8EncodeChar`: the bytes of one character.
* `Utf8.decode?_encode`: the bytes of a text are read as that text.
* `Utf8.isPrefix_of_encode_append`: texts begin alike where their bytes do.
* `Utf8.exists_of_encode_eq`: texts are split where their bytes are.
-/

namespace RefGraph

/-! ## The bytes of texts -/

theorem toList_loop (b : ByteArray) (i : Nat) (r : List UInt8) :
    ByteArray.toList.loop b i r = r.reverse ++ b.data.toList.drop i := by
  induction i, r using ByteArray.toList.loop.induct b with
  | case1 i r hlt ih =>
    have hi : i < b.data.toList.length := by simpa using hlt
    have hget : b.get! i = b.data.toList[i] := by
      rw [ByteArray.get!, Array.getElem_toList]
      exact getElem!_pos b.data i (by simpa using hlt)
    rw [ByteArray.toList.loop, if_pos hlt, ih, List.drop_eq_getElem_cons hi, hget,
      List.reverse_cons, List.append_assoc, List.singleton_append]
  | case2 i r hge =>
    have hlen : b.data.toList.length ≤ i := by simpa using hge
    rw [ByteArray.toList.loop, if_neg hge, List.drop_eq_nil_of_le hlen, List.append_nil]

/-- The bytes of an array, one after the other. -/
theorem toList_byteArray (bs : ByteArray) : bs.toList = bs.data.toList := by
  rw [ByteArray.toList, toList_loop, List.reverse_nil, List.nil_append, List.drop_zero]

/-- The bytes of a text are those of its characters. -/
theorem toList_toUTF8 (s : String) : s.toUTF8.toList = s.toList.flatMap String.utf8EncodeChar := by
  rw [toList_byteArray]
  show s.toByteArray.data.toList = _
  rw [← String.utf8Encode_toList, List.utf8Encode, List.toList_data_toByteArray]

namespace Utf8

/-- Characters are encoded one by one. -/
theorem encode_eq (cs : List Char) : encode cs = cs.flatMap String.utf8EncodeChar := by
  rw [encode, toList_toUTF8, String.toList_ofList]

@[simp] theorem encode_nil : encode [] = [] := by
  rw [encode_eq, List.flatMap_nil]

theorem encode_cons (c : Char) (cs : List Char) :
    encode (c :: cs) = String.utf8EncodeChar c ++ encode cs := by
  rw [encode_eq, encode_eq, List.flatMap_cons]

theorem encode_append (cs ds : List Char) : encode (cs ++ ds) = encode cs ++ encode ds := by
  rw [encode_eq, encode_eq, encode_eq, List.flatMap_append]

/-! ## Reading one byte -/

/-- The number that a byte was made of. -/
theorem toNat_byte {n : Nat} (hn : n < 256) : (UInt8.ofNat n).toNat = n :=
  UInt8.toNat_ofNat_of_lt' hn

/-- Between characters, a byte begins the next one or is replaced. -/
theorem decodeFrom_none_cons (b : UInt8) (bs : List UInt8) :
    decodeFrom none (b :: bs) =
      match first? b.toNat with
      | none => replacement :: decodeFrom none bs
      | some (.inl c) => c :: decodeFrom none bs
      | some (.inr p) => decodeFrom (some p) bs := by
  rw [decodeFrom]
  rfl

/-- Inside a character, a byte that may follow finishes it or goes on. -/
theorem decodeFrom_some_cons {p : Partial} {b : UInt8} {next : Char ⊕ Partial} (bs : List UInt8)
    (h : p.next? b.toNat = some next) :
    decodeFrom (some p) (b :: bs) =
      match next with
      | .inl c => c :: decodeFrom none bs
      | .inr q => decodeFrom (some q) bs := by
  rw [decodeFrom]
  simp only [h]
  cases next <;> rfl

/-- A byte that continues a character adds six bits, and the last one finishes the character. -/
theorem Partial.next?_continuation {value missing low high n : Nat} (hlow : low ≤ n + 128)
    (hhigh : n + 128 ≤ high) (hn : n < 64) :
    Partial.next? ⟨value, missing, low, high⟩ (UInt8.ofNat (n + 128)).toNat =
      if missing = 1 then some (.inl (Char.ofNat (value * 64 + n)))
      else some (.inr ⟨value * 64 + n, missing - 1, 0x80, 0xBF⟩) := by
  have hbyte : (UInt8.ofNat (n + 128)).toNat = n + 128 := toNat_byte (by omega)
  rw [hbyte, Partial.next?, if_pos ⟨hlow, hhigh⟩, Nat.add_sub_cancel]

/-! ## Reading characters

The first byte of a character with the number `v` says how many follow and between which bounds the
next one lies. Each that follows adds six bits of `v`. -/

section

variable {v : Nat}

/-- The first of two bytes has the upper bits of eleven. -/
theorem first?_of_two (hlow : 0x80 ≤ v) (hhigh : v < 0x800) :
    first? (UInt8.ofNat (v / 64 % 32 + 192)).toNat = some (.inr ⟨v / 64, 1, 0x80, 0xBF⟩) := by
  have hvalue : v / 64 % 32 + 192 - 0xC0 = v / 64 := by omega
  rw [toNat_byte (by omega), first?, if_neg (by omega), if_neg (by omega),
    if_pos (by omega), hvalue]

/-- The first of three bytes has the upper bits of sixteen. The smallest and the largest numbers
bound the next byte. -/
theorem first?_of_three (hlow : 0x800 ≤ v) (hhigh : v < 0x10000) :
    first? (UInt8.ofNat (v / 4096 % 16 + 224)).toNat =
      some (.inr ⟨v / 4096, 2, if v / 4096 = 0 then 0xA0 else 0x80,
        if v / 4096 = 13 then 0x9F else 0xBF⟩) := by
  have hvalue : v / 4096 % 16 + 224 - 0xE0 = v / 4096 := by omega
  have hfirst : v / 4096 % 16 + 224 = 0xE0 ↔ v / 4096 = 0 := by omega
  have hlast : v / 4096 % 16 + 224 = 0xED ↔ v / 4096 = 13 := by omega
  rw [toNat_byte (by omega), first?, if_neg (by omega), if_neg (by omega),
    if_neg (by omega), if_pos (by omega), hvalue]
  simp only [hfirst, hlast]

/-- The first of four bytes has the upper bits of twenty-one, with bounds of the same kind. -/
theorem first?_of_four (hlow : 0x10000 ≤ v) (hhigh : v < 0x110000) :
    first? (UInt8.ofNat (v / 262144 % 8 + 240)).toNat =
      some (.inr ⟨v / 262144, 3, if v / 262144 = 0 then 0x90 else 0x80,
        if v / 262144 = 4 then 0x8F else 0xBF⟩) := by
  have hvalue : v / 262144 % 8 + 240 - 0xF0 = v / 262144 := by omega
  have hfirst : v / 262144 % 8 + 240 = 0xF0 ↔ v / 262144 = 0 := by omega
  have hlast : v / 262144 % 8 + 240 = 0xF4 ↔ v / 262144 = 4 := by omega
  rw [toNat_byte (by omega), first?, if_neg (by omega), if_neg (by omega),
    if_neg (by omega), if_neg (by omega), if_pos (by omega), hvalue]
  simp only [hfirst, hlast]

/-- The last byte finishes the character. -/
theorem decodeFrom_last (v : Nat) (bs : List UInt8) :
    decodeFrom (some ⟨v / 64, 1, 0x80, 0xBF⟩) (UInt8.ofNat (v % 64 + 128) :: bs) =
      Char.ofNat v :: decodeFrom none bs := by
  have hnext : Partial.next? ⟨v / 64, 1, 0x80, 0xBF⟩ (UInt8.ofNat (v % 64 + 128)).toNat =
      some (.inl (Char.ofNat v)) := by
    rw [Partial.next?_continuation (by omega) (by omega) (by omega), if_pos rfl, Nat.div_add_mod']
  exact decodeFrom_some_cons bs hnext

/-- The last two bytes, the first of which lies between the bounds. -/
theorem decodeFrom_lastTwo {low high : Nat} (hlow : low ≤ v / 64 % 64 + 128)
    (hhigh : v / 64 % 64 + 128 ≤ high) (bs : List UInt8) :
    decodeFrom (some ⟨v / 4096, 2, low, high⟩)
      (UInt8.ofNat (v / 64 % 64 + 128) :: UInt8.ofNat (v % 64 + 128) :: bs) =
      Char.ofNat v :: decodeFrom none bs := by
  have hnext : Partial.next? ⟨v / 4096, 2, low, high⟩ (UInt8.ofNat (v / 64 % 64 + 128)).toNat =
      some (.inr ⟨v / 64, 1, 0x80, 0xBF⟩) := by
    have hvalue : v / 4096 * 64 + v / 64 % 64 = v / 64 := by omega
    rw [Partial.next?_continuation hlow hhigh (by omega), if_neg (by omega), hvalue]
  exact (decodeFrom_some_cons _ hnext).trans (decodeFrom_last v bs)

/-- The last three bytes, the first of which lies between the bounds. -/
theorem decodeFrom_lastThree {low high : Nat} (hlow : low ≤ v / 4096 % 64 + 128)
    (hhigh : v / 4096 % 64 + 128 ≤ high) (bs : List UInt8) :
    decodeFrom (some ⟨v / 262144, 3, low, high⟩)
      (UInt8.ofNat (v / 4096 % 64 + 128) :: UInt8.ofNat (v / 64 % 64 + 128) ::
        UInt8.ofNat (v % 64 + 128) :: bs) =
      Char.ofNat v :: decodeFrom none bs := by
  have hnext : Partial.next? ⟨v / 262144, 3, low, high⟩
      (UInt8.ofNat (v / 4096 % 64 + 128)).toNat = some (.inr ⟨v / 4096, 2, 0x80, 0xBF⟩) := by
    have hvalue : v / 262144 * 64 + v / 4096 % 64 = v / 4096 := by omega
    rw [Partial.next?_continuation hlow hhigh (by omega), if_neg (by omega), hvalue]
  exact (decodeFrom_some_cons _ hnext).trans (decodeFrom_lastTwo (by omega) (by omega) bs)

end

/-- The bytes of a character are read as that character. The cases are the numbers of its bytes. -/
theorem decodeFrom_utf8EncodeChar (c : Char) (bs : List UInt8) :
    decodeFrom none (String.utf8EncodeChar c ++ bs) = c :: decodeFrom none bs := by
  obtain ⟨v, hv⟩ : ∃ v, c.val.toNat = v := ⟨_, rfl⟩
  have hvalid : v < 0xD800 ∨ 0xDFFF < v ∧ v < 0x110000 := hv ▸ c.valid
  have hc : Char.ofNat v = c := hv ▸ Char.ofNat_toNat c
  rw [String.utf8EncodeChar.eq_1, hv, ← hc]
  split
  · have hfirst : first? (UInt8.ofNat v).toNat = some (.inl (Char.ofNat v)) := by
      rw [toNat_byte (by omega), first?, if_pos (by omega)]
    rw [List.singleton_append, decodeFrom_none_cons, hfirst]
  split
  · rw [List.cons_append, List.singleton_append, decodeFrom_none_cons,
      first?_of_two (by omega) (by omega)]
    exact decodeFrom_last v bs
  split
  · rw [List.cons_append, List.cons_append, List.singleton_append, decodeFrom_none_cons,
      first?_of_three (by omega) (by omega)]
    exact decodeFrom_lastTwo (by split <;> omega) (by split <;> omega) bs
  · rw [List.cons_append, List.cons_append, List.cons_append, List.singleton_append,
      decodeFrom_none_cons, first?_of_four (by omega) (by omega)]
    exact decodeFrom_lastThree (by split <;> omega) (by split <;> omega) bs

/-- Characters are read off the beginning of their bytes. -/
theorem decodeLossy_encode_append (cs : List Char) (bs : List UInt8) :
    decodeLossy (encode cs ++ bs) = cs ++ decodeLossy bs := by
  rw [encode_eq]
  induction cs with
  | nil => rfl
  | cons c cs ih =>
    rw [List.flatMap_cons, List.append_assoc, decodeLossy, decodeFrom_utf8EncodeChar]
    exact congrArg (c :: ·) ih

/-- **The bytes of characters are read as these characters.** -/
theorem decode?_encode (cs : List Char) : decode? (encode cs) = some cs := by
  have hread : decodeLossy (encode cs) = cs := by
    simpa [decodeLossy, decodeFrom] using decodeLossy_encode_append cs []
  rw [decode?, hread]
  exact if_pos rfl

/-- Where bytes begin like those of characters, so do the characters. -/
theorem isPrefix_of_encode_append {cs ds : List Char} {bs : List UInt8}
    (h : encode cs ++ bs = encode ds) : cs <+: ds := by
  have hread := congrArg decodeLossy h
  rw [decodeLossy_encode_append, ← List.append_nil (encode ds), decodeLossy_encode_append] at hread
  exact ⟨decodeLossy bs, by simpa [decodeLossy, decodeFrom] using hread⟩

/-- A byte of the first half is that of one character, which has no other: the bytes of a character
that has several are all beyond the first half. -/
theorem utf8EncodeChar_of_mem {c : Char} {b : UInt8} (hb : b.toNat < 128)
    (h : b ∈ String.utf8EncodeChar c) : c = Char.ofNat b.toNat ∧ String.utf8EncodeChar c = [b] := by
  have hvalue : ∀ n, n < 256 → b = UInt8.ofNat n → b.toNat = n := by
    rintro n hn rfl
    exact toNat_byte hn
  rw [String.utf8EncodeChar.eq_1] at h ⊢
  split at h
  · rename_i hone
    rw [if_pos hone]
    have hbyte := List.mem_singleton.1 h
    have hc := hvalue _ (by omega) hbyte
    exact ⟨by rw [hc]; exact (Char.ofNat_toNat c).symm, by rw [hbyte]⟩
  · exfalso
    split at h
    · simp only [List.mem_cons, List.not_mem_nil, or_false] at h
      rcases h with h | h <;> exact absurd (hvalue _ (by omega) h) (by omega)
    split at h
    · simp only [List.mem_cons, List.not_mem_nil, or_false] at h
      rcases h with h | h | h <;> exact absurd (hvalue _ (by omega) h) (by omega)
    · simp only [List.mem_cons, List.not_mem_nil, or_false] at h
      rcases h with h | h | h | h <;> exact absurd (hvalue _ (by omega) h) (by omega)

theorem toNat_ofNat_of_lt {c : Char} (hc : c.toNat < 128) :
    (UInt8.ofNat c.toNat).toNat = c.toNat :=
  toNat_byte (by omega)

theorem utf8EncodeChar_of_lt {c : Char} (hc : c.toNat < 128) :
    String.utf8EncodeChar c = [UInt8.ofNat c.toNat] := by
  have hone : c.val.toNat ≤ 127 := Nat.le_of_lt_succ hc
  rw [String.utf8EncodeChar.eq_1, if_pos hone]
  rfl

theorem encode_cons_of_lt {c : Char} (hc : c.toNat < 128) (cs : List Char) :
    encode (c :: cs) = UInt8.ofNat c.toNat :: encode cs := by
  rw [encode_cons, utf8EncodeChar_of_lt hc]
  rfl

/-- No byte of another character is the byte of one that has no other. -/
theorem eq_of_mem_utf8EncodeChar {c d : Char} (hd : d.toNat < 128)
    (h : UInt8.ofNat d.toNat ∈ String.utf8EncodeChar c) : c = d := by
  have hc := (utf8EncodeChar_of_mem (by rwa [toNat_ofNat_of_lt hd]) h).1
  rwa [toNat_ofNat_of_lt hd, Char.ofNat_toNat] at hc

/-- The bytes behind the first one of a character are all beyond the first half. -/
theorem le_of_mem_tail {c : Char} {b x : UInt8} {bs : List UInt8}
    (h : String.utf8EncodeChar c = b :: bs) (hx : x ∈ bs) : 128 ≤ x.toNat := by
  refine Nat.not_lt.1 fun hlt => ?_
  have hone := (utf8EncodeChar_of_mem hlt (h ▸ List.mem_cons_of_mem b hx)).2
  rw [h] at hone
  rw [(List.cons.inj hone).2] at hx
  cases hx

/-- The byte of a slash is in no other character. -/
theorem eq_slash_of_mem_utf8EncodeChar {c : Char} (h : 47 ∈ String.utf8EncodeChar c) : c = '/' :=
  @eq_of_mem_utf8EncodeChar c '/' (by decide) h

/-- **A text is split where its bytes are split at a byte of the first half.** The induction is on
the text: the byte is that of its first character, or lies behind it. -/
theorem exists_of_encode_eq {cs : List Char} {bs bs' : List UInt8} {b : UInt8}
    (hb : b.toNat < 128) (h : encode cs = bs ++ b :: bs') :
    ∃ before behind, cs = before ++ Char.ofNat b.toNat :: behind ∧ encode before = bs ∧
      encode behind = bs' := by
  induction cs generalizing bs with
  | nil =>
    exact absurd (encode_nil.symm.trans h).symm (by simp)
  | cons c cs ih =>
    rw [encode_cons, List.append_eq_append_iff] at h
    rcases h with ⟨as, rfl, hcs⟩ | ⟨as, hc, hbehind⟩
    · obtain ⟨before, behind, rfl, rfl, rfl⟩ := ih hcs
      exact ⟨c :: before, behind, rfl, encode_cons c before, rfl⟩
    · -- The byte is among those of the first character, unless nothing of them is left.
      cases as with
      | nil =>
        rw [List.nil_append] at hbehind
        obtain ⟨before, behind, rfl, hbefore, rfl⟩ :=
          ih (hbehind.symm.trans (List.nil_append _).symm)
        refine ⟨c :: before, behind, rfl, ?_, rfl⟩
        rw [encode_cons, hbefore, hc, List.append_nil, List.append_nil]
      | cons a as =>
        obtain ⟨rfl, hbs'⟩ := List.cons.inj hbehind
        have hmem : b ∈ String.utf8EncodeChar c := by simp [hc]
        obtain ⟨hbyte, hone⟩ := utf8EncodeChar_of_mem hb hmem
        rw [hone] at hc
        obtain ⟨rfl, rfl⟩ : bs = [] ∧ as = [] := by
          cases bs with
          | nil => simpa using hc
          | cons x bs => simp at hc
        exact ⟨[], cs, by rw [hbyte]; rfl, encode_nil, hbs'.symm⟩

/-- A character of one byte begins a text where its byte does. -/
theorem head?_encode_iff {cs : List Char} {d : Char} {b : UInt8}
    (hd : String.utf8EncodeChar d = [b]) : (encode cs).head? = some b ↔ cs.head? = some d := by
  have hone : encode [d] = [b] := by rw [encode_eq, List.flatMap_singleton, hd]
  constructor
  · intro h
    obtain ⟨bs, hbs⟩ := List.head?_eq_some_iff.1 h
    have hbegins : encode [d] ++ bs = encode cs := by
      rw [hone, hbs]
      rfl
    obtain ⟨rest, rfl⟩ := isPrefix_of_encode_append hbegins
    rfl
  · intro h
    obtain ⟨rest, rfl⟩ := List.head?_eq_some_iff.1 h
    rw [encode_cons, hd]
    rfl

/-- A pattern that begins with a character of one byte is found where its bytes are. -/
theorem encode_isInfix_iff {pattern cs : List Char} {c : Char} (hc : c.toNat < 128) :
    encode (c :: pattern) <:+: encode cs ↔ c :: pattern <:+: cs := by
  constructor
  · rintro ⟨as, bs, hsplit⟩
    rw [encode_cons_of_lt hc, List.append_assoc] at hsplit
    obtain ⟨before, behind, rfl, -, hbehind⟩ :=
      exists_of_encode_eq (by rwa [toNat_ofNat_of_lt hc]) hsplit.symm
    obtain ⟨rest, rfl⟩ := isPrefix_of_encode_append hbehind.symm
    rw [toNat_ofNat_of_lt hc, Char.ofNat_toNat]
    exact ⟨before, rest, by simp⟩
  · rintro ⟨before, behind, rfl⟩
    rw [encode_append, encode_append]
    exact ⟨_, _, rfl⟩

/-- The first byte of a character continues none. -/
theorem head?_utf8EncodeChar {c : Char} {b : UInt8} (h : (String.utf8EncodeChar c).head? = some b) :
    b.toNat < 0x80 ∨ 0xC0 ≤ b.toNat := by
  have hvalue : ∀ n, n < 256 → UInt8.ofNat n = b → b.toNat = n := by
    rintro n hn rfl
    exact toNat_byte hn
  rw [String.utf8EncodeChar.eq_1] at h
  split at h
  · rename_i hone
    have hb := hvalue _ (by omega) (Option.some.inj h)
    omega
  · right
    split at h
    · have hb := hvalue _ (by omega) (Option.some.inj h)
      omega
    split at h
    · have hb := hvalue _ (by omega) (Option.some.inj h)
      omega
    · have hb := hvalue _ (by omega) (Option.some.inj h)
      omega

/-- Different texts have different bytes. -/
theorem encode_inj {cs ds : List Char} (h : encode cs = encode ds) : cs = ds :=
  Option.some.inj (by rw [← decode?_encode, h, decode?_encode])

/-- A text has a character of one byte if its bytes have that byte. -/
theorem mem_encode_iff {cs : List Char} {d : Char} (hd : d.toNat < 128) :
    UInt8.ofNat d.toNat ∈ encode cs ↔ d ∈ cs := by
  rw [encode_eq, List.mem_flatMap]
  constructor
  · rintro ⟨c, hc, hmem⟩
    exact eq_of_mem_utf8EncodeChar hd hmem ▸ hc
  · exact fun h => ⟨d, h, by rw [utf8EncodeChar_of_lt hd]; exact List.mem_singleton_self _⟩

/-- The byte of a slash is in an encoded text just if a slash is in the text. -/
theorem slash_mem_encode_iff {cs : List Char} : 47 ∈ encode cs ↔ '/' ∈ cs :=
  @mem_encode_iff cs '/' (by decide)

end Utf8

end RefGraph
