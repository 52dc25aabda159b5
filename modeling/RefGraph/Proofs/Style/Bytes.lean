import RefGraph.Proofs.Style.Blanked

/-!
# Blanking bytes

Comments can be found without reading characters. A scanner goes through the bytes of a text, skips
the byte behind a backslash in quotes, whatever character it belongs to, and looks for the end of a
comment in what is left of the text. It cuts the text only where a character begins, and it finds
the same comments.

* `searched?`: what is left of a text, unless it is cut inside a character.
* `blankBytes`: the scanner of bytes.
* `blanksAlike`: it never cuts inside a character, and its bytes are those of the blanked text.
* `blankComments_exact`: what blanking comments does, byte by byte.
-/

namespace RefGraph.Style

/-! ## Searching bytes -/

/-- The place of the first occurrence of a pattern. -/
def placeOf? (pattern : List UInt8) : List UInt8 → Option Nat
  | [] => if pattern = [] then some 0 else none
  | b :: bs => if pattern.isPrefixOf (b :: bs) then some 0 else (placeOf? pattern bs).map (· + 1)

/-- What is left of a text; none if it begins inside a character. -/
def searched? (bs : List UInt8) : Option (List UInt8) :=
  if bs.head?.all fun b => b < 0x80 || 0xC0 ≤ b then some bs else none

/-! ## The scanner -/

/-- Blanks the comments of bytes, outside of quotes or behind the given quotation mark; none if the
text is cut inside a character. -/
def blankBytes (lineComments : Bool) : Option UInt8 → List UInt8 → Option (List UInt8)
  | _, [] => some []
  | some q, b :: bs =>
    if b = 92 then (blankBytes lineComments (some q) (bs.drop 1)).map (b :: bs.take 1 ++ ·)
    else if b = q ∨ b = 10 then (blankBytes lineComments none bs).map (b :: ·)
    else (blankBytes lineComments (some q) bs).map (b :: ·)
  | none, b :: bs =>
    if b = 34 ∨ b = 39 then (blankBytes lineComments (some b) bs).map (b :: ·)
    else if b = 47 ∧ bs.head? = some 42 then
      -- the comment ends behind the first `*/` that follows, or with the text
      match searched? (bs.drop 1) with
      | none => none
      | some inside =>
        let more := ((placeOf? [42, 47] inside).map (· + 3)).getD bs.length
        (blankBytes lineComments none (bs.drop more)).map ((b :: bs.take more).map blankByte ++ ·)
    else if b = 47 ∧ bs.head? = some 47 ∧ lineComments then
      -- the comment ends before the first line break, or with the text
      match searched? (b :: bs) with
      | none => none
      | some line =>
        let more := ((placeOf? [10] line).map (· - 1)).getD bs.length
        (blankBytes lineComments none (bs.drop more)).map ((b :: bs.take more).map blankByte ++ ·)
    else (blankBytes lineComments none bs).map (b :: ·)
termination_by _ bs => bs.length

/-! ## Occurrences -/

variable {lineComments : Bool}

theorem append_dropLast_isPrefix {α : Type} (as pattern bs : List α) :
    as ++ pattern.dropLast <+: as ++ (pattern ++ bs) := by
  rw [List.prefix_append_right_inj]
  exact (List.dropLast_prefix pattern).trans (List.prefix_append pattern bs)

/-- A pattern that occurs occurs for the first time. -/
theorem exists_first_occurrence {α : Type} {pattern xs : List α} (hne : pattern ≠ [])
    (h : pattern <:+: xs) :
    ∃ as bs, xs = as ++ (pattern ++ bs) ∧ ¬ pattern <:+: as ++ pattern.dropLast := by
  induction xs with
  | nil => exact absurd (List.infix_nil.1 h) hne
  | cons x xs ih =>
    by_cases hbegins : pattern <+: x :: xs
    · obtain ⟨bs, hbs⟩ := hbegins
      refine ⟨[], bs, hbs.symm, fun hwithin => ?_⟩
      have hlength := hwithin.length_le
      rw [List.nil_append, List.length_dropLast] at hlength
      have := List.length_pos_iff.2 hne
      omega
    · obtain ⟨as, bs, rfl, hfirst⟩ := ih ((List.infix_cons_iff.1 h).resolve_left hbegins)
      refine ⟨x :: as, bs, rfl, fun hwithin => ?_⟩
      rcases List.infix_cons_iff.1 hwithin with hstart | hwithin
      · exact hbegins (hstart.trans (append_dropLast_isPrefix (x :: as) pattern bs))
      · exact hfirst hwithin

variable {pattern xs as : List UInt8}

theorem placeOf?_eq_none (h : ¬ pattern <:+: xs) : placeOf? pattern xs = none := by
  induction xs with
  | nil =>
    rw [placeOf?, if_neg]
    rintro rfl
    exact h (List.infix_refl _)
  | cons x xs ih =>
    rw [List.infix_cons_iff, not_or] at h
    rw [placeOf?, if_neg (mt List.isPrefixOf_iff_prefix.1 h.1), ih h.2]
    rfl

/-- The first occurrence is found. -/
theorem placeOf?_eq_some (hne : pattern ≠ []) (h : ¬ pattern <:+: as ++ pattern.dropLast)
    (bs : List UInt8) : placeOf? pattern (as ++ (pattern ++ bs)) = some as.length := by
  induction as with
  | nil =>
    obtain ⟨p, rest, rfl⟩ := List.exists_cons_of_ne_nil hne
    rw [List.nil_append, List.cons_append, placeOf?, if_pos]
    · rfl
    · exact List.isPrefixOf_iff_prefix.2 ⟨bs, rfl⟩
  | cons a as ih =>
    rw [List.cons_append, List.infix_cons_iff, not_or] at h
    rw [List.cons_append, placeOf?, if_neg, ih h.2]
    · rfl
    intro hbegins
    -- The pattern would already begin where less of the text is there.
    refine h.1 (List.prefix_of_prefix_length_le (List.isPrefixOf_iff_prefix.1 hbegins)
      (append_dropLast_isPrefix (a :: as) pattern bs) ?_)
    rw [List.length_cons, List.length_append, List.length_dropLast]
    omega

/-- A text is cut where a character begins. -/
theorem searched?_encode (cs : List Char) : searched? (Utf8.encode cs) = some (Utf8.encode cs) := by
  rw [searched?, if_pos]
  cases cs with
  | nil => rw [Utf8.encode_nil]; rfl
  | cons c cs =>
    obtain ⟨b, bs, hb⟩ := List.exists_cons_of_ne_nil (String.utf8EncodeChar_ne_nil (c := c))
    have hfirst : b.toNat < 0x80 ∨ 0xC0 ≤ b.toNat := Utf8.head?_utf8EncodeChar (by rw [hb]; rfl)
    rw [Utf8.encode_cons, hb, List.cons_append, List.head?_cons, Option.all_some, Bool.or_eq_true,
      decide_eq_true_eq, decide_eq_true_eq, UInt8.lt_iff_toNat_lt, UInt8.le_iff_toNat_le]
    exact hfirst

/-! ## Bytes that are passed by -/

section

variable {bs : List UInt8} {q : UInt8}

/-- Bytes in code that open neither a string literal nor a comment are kept. -/
theorem blankBytes_append_none (h : ∀ b ∈ as, b ≠ 34 ∧ b ≠ 39 ∧ b ≠ 47) (bs : List UInt8) :
    blankBytes lineComments none (as ++ bs) = (blankBytes lineComments none bs).map (as ++ ·) := by
  induction as with
  | nil => exact (Option.map_id' ..).symm
  | cons a as ih =>
    obtain ⟨⟨hdouble, hsingle, hslash⟩, has⟩ := List.forall_mem_cons.1 h
    rw [List.cons_append, blankBytes, if_neg (not_or.2 ⟨hdouble, hsingle⟩),
      if_neg fun he => hslash he.1, if_neg fun he => hslash he.1, ih has, Option.map_map]
    rfl

/-- Bytes in quotes up to a backslash, the end of the line or the closing quotation mark are
kept. -/
theorem blankBytes_append_some (h : ∀ b ∈ as, b ≠ 92 ∧ b ≠ q ∧ b ≠ 10) (bs : List UInt8) :
    blankBytes lineComments (some q) (as ++ bs) =
      (blankBytes lineComments (some q) bs).map (as ++ ·) := by
  induction as with
  | nil => exact (Option.map_id' ..).symm
  | cons a as ih =>
    obtain ⟨⟨hescape, hclose⟩, has⟩ := List.forall_mem_cons.1 h
    rw [List.cons_append, blankBytes, if_neg hescape, if_neg (not_or.2 hclose), ih has,
      Option.map_map]
    rfl

/-! ## Comments in bytes -/

/-- A block comment is blanked up to the first `*/`. -/
theorem blankBytes_closedBlock
    (hcut : searched? (as ++ ([42, 47] ++ bs)) = some (as ++ ([42, 47] ++ bs)))
    (hfirst : ¬ [42, 47] <:+: as ++ [42]) :
    blankBytes lineComments none (47 :: 42 :: (as ++ ([42, 47] ++ bs))) =
      (blankBytes lineComments none bs).map
        ((47 :: 42 :: (as ++ [42, 47])).map blankByte ++ ·) := by
  have hmore : placeOf? [42, 47] (as ++ ([42, 47] ++ bs)) = some as.length :=
    placeOf?_eq_some (by simp) hfirst bs
  rw [blankBytes, if_neg (by decide), if_pos ⟨rfl, rfl⟩]
  simp only [List.drop_one, List.tail_cons, hcut, hmore, Option.map_some, Option.getD_some]
  have hsplit : 42 :: (as ++ ([42, 47] ++ bs)) = (42 :: (as ++ [42, 47])) ++ bs := by simp
  have hlength : (42 :: (as ++ [42, 47])).length = as.length + 3 := by simp
  rw [hsplit, List.take_left' hlength, List.drop_left' hlength]

/-- One that is not closed is blanked up to the end. -/
theorem blankBytes_openBlock (hcut : searched? xs = some xs) (h : ¬ [42, 47] <:+: xs) :
    blankBytes lineComments none (47 :: 42 :: xs) = some ((47 :: 42 :: xs).map blankByte) := by
  rw [blankBytes, if_neg (by decide), if_pos ⟨rfl, rfl⟩]
  simp only [List.drop_one, List.tail_cons, hcut, placeOf?_eq_none h, Option.map_none,
    Option.getD_none]
  rw [List.take_length, List.drop_length, blankBytes, Option.map_some, List.append_nil]

/-- A comment to the end of the line is blanked up to the line break. -/
theorem blankBytes_closedLine (hcut : searched? (47 :: 47 :: (as ++ 10 :: bs)) =
      some (47 :: 47 :: (as ++ 10 :: bs))) (hbreak : 10 ∉ as) :
    blankBytes true none (47 :: 47 :: (as ++ 10 :: bs)) =
      (blankBytes true none (10 :: bs)).map ((47 :: 47 :: as).map blankByte ++ ·) := by
  have hfirst : ¬ [10] <:+: (47 :: 47 :: as) ++ [10].dropLast := by
    rw [List.singleton_infix_iff]
    simp [hbreak]
  have hmore : placeOf? [10] (47 :: 47 :: (as ++ 10 :: bs)) = some (47 :: 47 :: as).length :=
    placeOf?_eq_some (by simp) hfirst bs
  rw [blankBytes, if_neg (by decide), if_neg (by simp), if_pos ⟨rfl, rfl, rfl⟩]
  simp only [hcut, hmore, Option.map_some, Option.getD_some]
  have hsplit : 47 :: (as ++ 10 :: bs) = (47 :: as) ++ 10 :: bs := rfl
  have hlength : (47 :: as).length = (47 :: 47 :: as).length - 1 := rfl
  rw [hsplit, List.take_left' hlength, List.drop_left' hlength]

/-- On the last line it is blanked up to the end. -/
theorem blankBytes_openLine (hcut : searched? (47 :: 47 :: xs) = some (47 :: 47 :: xs))
    (hbreak : 10 ∉ xs) :
    blankBytes true none (47 :: 47 :: xs) = some ((47 :: 47 :: xs).map blankByte) := by
  have hnone : ¬ [10] <:+: 47 :: 47 :: xs := by
    rw [List.singleton_infix_iff]
    simp [hbreak]
  rw [blankBytes, if_neg (by decide), if_neg (by simp), if_pos ⟨rfl, rfl, rfl⟩]
  simp only [hcut, placeOf?_eq_none hnone, Option.map_none, Option.getD_none]
  rw [List.take_length, List.drop_length, blankBytes, Option.map_some, List.append_nil]

end

/-! ## Comments in characters and in bytes -/

variable {cs : List Char} {c : Char}

/-- What is known of a text: its bytes are blanked as its characters are. -/
def BlanksAlike (lineComments : Bool) (cs : List Char) : Prop :=
  blankBytes lineComments none (Utf8.encode cs) =
    some (Utf8.encode (blankFrom lineComments .code cs))

/-- The end of a block comment occurs in the bytes just where it does in the characters. -/
theorem isInfix_encode_iff : [42, 47] <:+: Utf8.encode cs ↔ ['*', '/'] <:+: cs := by
  have hpattern : Utf8.encode ['*', '/'] = [42, 47] := by
    rw [Utf8.encode_eq]
    rfl
  rw [← hpattern]
  exact Utf8.encode_isInfix_iff (by decide)

/-- A block comment ends where it does in bytes. -/
theorem blanksAlike_block (ih : ∀ ds, ds.length < cs.length → BlanksAlike lineComments ds) :
    BlanksAlike lineComments ('/' :: '*' :: cs) := by
  have hencode (ds : List Char) : Utf8.encode ('/' :: '*' :: ds) = 47 :: 42 :: Utf8.encode ds := by
    rw [Utf8.encode_cons_of_lt (by decide), Utf8.encode_cons_of_lt (by decide)]
    rfl
  rw [BlanksAlike, hencode]
  by_cases hclosed : ['*', '/'] <:+: cs
  · obtain ⟨inside, rest, rfl, hfirst⟩ := exists_first_occurrence (by simp) hclosed
    have hbytes : Utf8.encode (inside ++ (['*', '/'] ++ rest)) =
        Utf8.encode inside ++ ([42, 47] ++ Utf8.encode rest) := by
      rw [Utf8.encode_append, Utf8.encode_append, Utf8.encode_eq ['*', '/']]
      rfl
    have hend : Utf8.encode (inside ++ ['*', '/']) = Utf8.encode inside ++ [42, 47] := by
      rw [Utf8.encode_append, Utf8.encode_eq ['*', '/']]
      rfl
    -- The first end in bytes is the first end in characters: both bytes are characters of ASCII.
    have hfirstByte : ¬ [42, 47] <:+: Utf8.encode inside ++ [42] := by
      have hstar : Utf8.encode (inside ++ ['*']) = Utf8.encode inside ++ [42] := by
        rw [Utf8.encode_append, Utf8.encode_eq ['*']]
        rfl
      rw [← hstar]
      exact mt isInfix_encode_iff.1 hfirst
    have hcut := searched?_encode (inside ++ (['*', '/'] ++ rest))
    rw [hbytes] at hcut ⊢
    rw [blankBytes_closedBlock hcut hfirstByte, ih rest (by simp; omega), Option.map_some,
      ← hend, ← hencode, ← encode_flatMap_blankChar, ← Utf8.encode_append]
    exact congrArg (some ∘ Utf8.encode) (blankFrom_closedBlock hfirst rest).symm
  · rw [blankBytes_openBlock (searched?_encode cs) (mt isInfix_encode_iff.1 hclosed), ← hencode,
      ← encode_flatMap_blankChar, blankFrom_openBlock hclosed]

/-- So does one to the end of the line. -/
theorem blanksAlike_line (ih : ∀ ds, ds.length ≤ cs.length → BlanksAlike true ds) :
    BlanksAlike true ('/' :: '/' :: cs) := by
  have hencode (ds : List Char) : Utf8.encode ('/' :: '/' :: ds) = 47 :: 47 :: Utf8.encode ds := by
    rw [Utf8.encode_cons_of_lt (by decide), Utf8.encode_cons_of_lt (by decide)]
    rfl
  have hbreak (ds : List Char) : 10 ∉ Utf8.encode ds ↔ '\n' ∉ ds :=
    not_congr (@Utf8.mem_encode_iff ds '\n' (by decide))
  have hcut := searched?_encode ('/' :: '/' :: cs)
  rw [BlanksAlike]
  rw [hencode] at hcut ⊢
  -- The line break stays, hence the scanner goes on at it and not behind it.
  by_cases hclosed : '\n' ∈ cs
  · obtain ⟨inside, rest, rfl, hinside⟩ := List.eq_append_cons_of_mem hclosed
    have hbytes : Utf8.encode (inside ++ '\n' :: rest) =
        Utf8.encode inside ++ 10 :: Utf8.encode rest := by
      rw [Utf8.encode_append, Utf8.encode_cons_of_lt (by decide)]
      rfl
    have hrest : Utf8.encode ('\n' :: rest) = 10 :: Utf8.encode rest :=
      Utf8.encode_cons_of_lt (by decide) rest
    rw [hbytes] at hcut ⊢
    rw [blankBytes_closedLine hcut ((hbreak inside).2 hinside), ← hrest, ih _ (by simp),
      Option.map_some, ← hencode, ← encode_flatMap_blankChar, ← Utf8.encode_append,
      blankFrom_closedLine hinside]
  · rw [blankBytes_openLine hcut ((hbreak cs).2 hclosed), ← hencode, ← encode_flatMap_blankChar,
      blankFrom_openLine hclosed]

/-! ## The scanner of bytes -/

/-- The same is known of a text behind a quotation mark. -/
def BlanksQuotedAlike (lineComments : Bool) (q : Char) (cs : List Char) : Prop :=
  blankBytes lineComments (some (UInt8.ofNat q.toNat)) (Utf8.encode cs) =
    some (Utf8.encode (blankFrom lineComments (.quoted q) cs))

/-- A quotation mark opens quotes. -/
theorem blanksAlike_quote (hquote : IsQuote c) (hrest : BlanksQuotedAlike lineComments c cs) :
    BlanksAlike lineComments (c :: cs) := by
  have hlt : c.toNat < 128 := by
    rcases hquote with rfl | rfl <;> decide
  have hbyte : UInt8.ofNat c.toNat = 34 ∨ UInt8.ofNat c.toNat = 39 :=
    hquote.imp (fun h => by rw [h]; rfl) (fun h => by rw [h]; rfl)
  rw [BlanksQuotedAlike] at hrest
  rw [BlanksAlike, Utf8.encode_cons_of_lt hlt, blankBytes, if_pos hbyte, hrest, blankFrom_cons,
    step_code_of_quote hquote, if_neg Bool.false_ne_true, List.singleton_append,
    Utf8.encode_cons_of_lt hlt]
  rfl

/-- A slash that opens no comment is passed: the bytes behind it open none either. -/
theorem blankBytes_slash (hcomment : ¬ OpensComment lineComments ('/' :: cs)) :
    blankBytes lineComments none (Utf8.encode ('/' :: cs)) =
      (blankBytes lineComments none (Utf8.encode cs)).map (47 :: ·) := by
  have hstar : (Utf8.encode cs).head? ≠ some 42 := by
    intro hhead
    obtain ⟨ds, rfl⟩ := List.head?_eq_some_iff.1 ((@Utf8.head?_encode_iff cs '*' 42 rfl).1 hhead)
    exact hcomment (.inl ⟨ds, rfl⟩)
  have hline : ¬ ((Utf8.encode cs).head? = some 47 ∧ lineComments = true) := by
    rintro ⟨hhead, hlines⟩
    obtain ⟨ds, rfl⟩ := List.head?_eq_some_iff.1 ((@Utf8.head?_encode_iff cs '/' 47 rfl).1 hhead)
    exact hcomment (.inr ⟨hlines, ds, rfl⟩)
  rw [Utf8.encode_cons_of_lt (by decide)]
  show blankBytes lineComments none (47 :: Utf8.encode cs) = _
  rw [blankBytes, if_neg (by decide), if_neg fun he => hstar he.2, if_neg fun he => hline he.2]

/-- A character that opens neither quotes nor a comment is passed. -/
theorem blanksAlike_code (hquote : ¬ IsQuote c)
    (hcomment : ¬ OpensComment lineComments (c :: cs)) (hrest : BlanksAlike lineComments cs) :
    BlanksAlike lineComments (c :: cs) := by
  rw [BlanksAlike] at hrest
  rw [BlanksAlike, blankFrom_cons, step_code_of_outside hquote hcomment,
    if_neg Bool.false_ne_true, List.singleton_append, Utf8.encode_cons c (blankFrom _ _ cs)]
  by_cases hslash : c = '/'
  · rw [hslash] at hcomment ⊢
    rw [blankBytes_slash hcomment, hrest]
    rfl
  · -- None of its bytes is one at which the scanner stops.
    have hpassed : ∀ b ∈ String.utf8EncodeChar c, b ≠ 34 ∧ b ≠ 39 ∧ b ≠ 47 := by
      refine fun b hb => ⟨?_, ?_, ?_⟩
      · rintro rfl
        exact hquote (.inl (@Utf8.eq_of_mem_utf8EncodeChar c '"' (by decide) hb))
      · rintro rfl
        exact hquote (.inr (@Utf8.eq_of_mem_utf8EncodeChar c '\'' (by decide) hb))
      · rintro rfl
        exact hslash (Utf8.eq_slash_of_mem_utf8EncodeChar hb)
    rw [Utf8.encode_cons, blankBytes_append_none hpassed, hrest]
    rfl

/-- A character outside of quotes: a quotation mark, the beginning of a comment, or another one. -/
theorem blanksAlike_cons (ih : ∀ ds, ds.length ≤ cs.length → BlanksAlike lineComments ds ∧
      ∀ q, IsQuote q → BlanksQuotedAlike lineComments q ds) :
    BlanksAlike lineComments (c :: cs) := by
  by_cases hquote : IsQuote c
  · exact blanksAlike_quote hquote ((ih cs (Nat.le_refl _)).2 c hquote)
  by_cases hcomment : OpensComment lineComments (c :: cs)
  · rcases hcomment with ⟨ds, hds⟩ | ⟨rfl, ds, hds⟩
    · obtain ⟨rfl, rfl⟩ := List.cons.inj hds
      exact blanksAlike_block fun es hes => (ih es (Nat.le_succ_of_le hes.le)).1
    · obtain ⟨rfl, rfl⟩ := List.cons.inj hds
      exact blanksAlike_line fun es hes => (ih es (Nat.le_succ_of_le hes)).1
  · exact blanksAlike_code hquote hcomment (ih cs (Nat.le_refl _)).1

/-- A backslash in quotes and the character behind it. The scanner skips the first byte of that
character, and stops at none of the others. -/
theorem blanksQuotedAlike_escape {q : Char} (hq : q.toNat < 128)
    (ih : ∀ ds, ds.length ≤ cs.length → BlanksQuotedAlike lineComments q ds) :
    BlanksQuotedAlike lineComments q ('\\' :: cs) := by
  have hencode (es : List Char) : Utf8.encode ('\\' :: es) = 92 :: Utf8.encode es :=
    Utf8.encode_cons_of_lt (by decide) es
  rw [BlanksQuotedAlike, hencode, blankBytes, if_pos rfl]
  cases cs with
  | nil =>
    rw [Utf8.encode_nil, List.drop_nil, blankBytes, Utf8.encode_eq]
    rfl
  | cons d ds =>
    obtain ⟨b, more, hd⟩ := List.exists_cons_of_ne_nil (String.utf8EncodeChar_ne_nil (c := d))
    -- The bytes behind the first of a character are high, so none of them is a mark.
    have hpassed : ∀ x ∈ more, x ≠ 92 ∧ x ≠ UInt8.ofNat q.toNat ∧ x ≠ 10 := by
      intro x hx
      have hhigh := Utf8.le_of_mem_tail hd hx
      refine ⟨?_, ?_, ?_⟩
      · rintro rfl
        exact absurd hhigh (by decide)
      · rintro rfl
        rw [Utf8.toNat_ofNat_of_lt hq] at hhigh
        omega
      · rintro rfl
        exact absurd hhigh (by decide)
    have hrest := ih ds (Nat.le_succ _)
    rw [BlanksQuotedAlike] at hrest
    have hblank : blankFrom lineComments (.quoted q) ('\\' :: d :: ds) =
        '\\' :: d :: blankFrom lineComments (.quoted q) ds := rfl
    have hbytes (es : List Char) : Utf8.encode (d :: es) = b :: (more ++ Utf8.encode es) := by
      rw [Utf8.encode_cons, hd, List.cons_append]
    rw [hblank, hencode, hbytes, hbytes, List.drop_one, List.tail_cons,
      blankBytes_append_some hpassed, hrest]
    rfl

/-- Only a backslash has the byte of one. -/
theorem ne_backslash_of_mem (hc : c ≠ '\\') {b : UInt8} (hb : b ∈ String.utf8EncodeChar c) :
    b ≠ 92 := by
  rintro rfl
  exact hc (@Utf8.eq_of_mem_utf8EncodeChar c '\\' (by decide) hb)

/-- Quotes end with their quotation mark or with the line. -/
theorem blanksQuotedAlike_close {q : Char} (hq : IsQuote q) (hclose : c = q ∨ c = '\n')
    (hrest : BlanksAlike lineComments cs) : BlanksQuotedAlike lineComments q (c :: cs) := by
  obtain ⟨hlt, hescape⟩ : c.toNat < 128 ∧ c ≠ '\\' := by
    rcases hclose with rfl | rfl
    · rcases hq with rfl | rfl <;> decide
    · decide
  have hbyte : UInt8.ofNat c.toNat = UInt8.ofNat q.toNat ∨ UInt8.ofNat c.toNat = 10 :=
    hclose.imp (fun h => by rw [h]) (fun h => by rw [h]; rfl)
  have hmem : UInt8.ofNat c.toNat ∈ String.utf8EncodeChar c := by
    rw [Utf8.utf8EncodeChar_of_lt hlt]
    exact List.mem_singleton_self _
  rw [BlanksAlike] at hrest
  rw [BlanksQuotedAlike, Utf8.encode_cons_of_lt hlt, blankBytes,
    if_neg (ne_backslash_of_mem hescape hmem), if_pos hbyte, hrest, blankFrom_cons,
    step_quoted_close hq hclose, if_neg Bool.false_ne_true, List.singleton_append,
    Utf8.encode_cons_of_lt hlt]
  rfl

/-- Any other character but a backslash is passed. -/
theorem blanksQuotedAlike_inside {q : Char} (hq : IsQuote q) (hescape : c ≠ '\\')
    (hclose : ¬ (c = q ∨ c = '\n')) (hrest : BlanksQuotedAlike lineComments q cs) :
    BlanksQuotedAlike lineComments q (c :: cs) := by
  have hlt : q.toNat < 128 := by
    rcases hq with rfl | rfl <;> decide
  have hpassed : ∀ b ∈ String.utf8EncodeChar c,
      b ≠ 92 ∧ b ≠ UInt8.ofNat q.toNat ∧ b ≠ 10 := by
    refine fun b hb => ⟨ne_backslash_of_mem hescape hb, ?_, ?_⟩
    · rintro rfl
      exact hclose (.inl (Utf8.eq_of_mem_utf8EncodeChar hlt hb))
    · rintro rfl
      exact hclose (.inr (@Utf8.eq_of_mem_utf8EncodeChar c '\n' (by decide) hb))
  rw [BlanksQuotedAlike] at hrest
  rw [BlanksQuotedAlike, Utf8.encode_cons, blankBytes_append_some hpassed, hrest, blankFrom_cons,
    step_quoted ⟨hescape, not_or.1 hclose⟩, if_neg Bool.false_ne_true, List.singleton_append,
    Utf8.encode_cons]
  rfl

/-- A character in quotes: a backslash, the end of the quotes, or another one. -/
theorem blanksQuotedAlike_cons {q : Char} (hq : IsQuote q)
    (ih : ∀ ds, ds.length ≤ cs.length → BlanksAlike lineComments ds ∧
      BlanksQuotedAlike lineComments q ds) :
    BlanksQuotedAlike lineComments q (c :: cs) := by
  obtain ⟨hcode, hquoted⟩ := ih cs (Nat.le_refl _)
  by_cases hescape : c = '\\'
  · have hlt : q.toNat < 128 := by
      rcases hq with rfl | rfl <;> decide
    rw [hescape]
    exact blanksQuotedAlike_escape hlt fun ds hds => (ih ds hds).2
  by_cases hclose : c = q ∨ c = '\n'
  · exact blanksQuotedAlike_close hq hclose hcode
  · exact blanksQuotedAlike_inside hq hescape hclose hquoted

/-- **The scanner of bytes finds the same comments.** The induction is on the length of the text. -/
theorem blanksAlike (lineComments : Bool) (cs : List Char) : BlanksAlike lineComments cs ∧
    ∀ q, IsQuote q → BlanksQuotedAlike lineComments q cs := by
  induction hlength : cs.length using Nat.strong_induction_on generalizing cs with
  | _ n ih =>
    subst hlength
    cases cs with
    | nil =>
      refine ⟨?_, fun q _ => ?_⟩
      · rw [BlanksAlike, blankFrom, Utf8.encode_nil, blankBytes]
      · rw [BlanksQuotedAlike, blankFrom, Utf8.encode_nil, blankBytes]
    | cons c cs =>
      have hshorter (ds : List Char) (hds : ds.length ≤ cs.length) :=
        ih ds.length (Nat.lt_succ_of_le hds) ds rfl
      exact ⟨blanksAlike_cons hshorter, fun q hq => blanksQuotedAlike_cons hq fun ds hds =>
        ⟨(hshorter ds hds).1, (hshorter ds hds).2 q hq⟩⟩

/-- **What blanking comments does, byte by byte.** For every text the scanner of bytes, which never
cuts a text inside a character, ends up with the bytes of the blanked text, so that they are read as
that text. There are as many of them as before. Each is the one that was there, but those of
comments are spaces unless they are line breaks; a comment is told apart without the scanner.
Blanking twice is blanking once. -/
theorem blankComments_exact (lineComments : Bool) (source : List Char) :
    ∃ bytes, blankBytes lineComments none (Utf8.encode source) = some bytes ∧
      Utf8.decode? bytes = some (blankComments lineComments source) ∧
      bytes.length = (Utf8.encode source).length ∧
      (∀ (i : Nat) b, (Utf8.encode source)[i]? = some b →
        bytes[i]? = some b ∨ b ≠ 10 ∧ bytes[i]? = some 32) ∧
      (∀ before c rest, source = before ++ c :: rest →
        ∀ (i : Nat) b, (String.utf8EncodeChar c)[i]? = some b →
          bytes[(Utf8.encode before).length + i]? =
            some (if InComment lineComments before (c :: rest) ∧ b ≠ 10 then 32 else b)) ∧
      blankComments lineComments (blankComments lineComments source) =
        blankComments lineComments source := by
  have hexact : ∀ before c rest, source = before ++ c :: rest →
      ∀ (i : Nat) b, (String.utf8EncodeChar c)[i]? = some b →
        (Utf8.encode (blankComments lineComments source))[(Utf8.encode before).length + i]? =
          some (if InComment lineComments before (c :: rest) ∧ b ≠ 10 then 32 else b) := by
    rintro before c rest rfl i b hb
    rw [getElem?_encode_blankComments before c rest hb]
    by_cases hcomment : InComment lineComments before (c :: rest)
    · by_cases hbreak : b = 10 <;> simp [hcomment, hbreak, blankByte]
    · simp [hcomment]
  refine ⟨_, (blanksAlike lineComments source).1, Utf8.decode?_encode _, ?_,
    fun i b hb => ?_, hexact, blankComments_blankComments lineComments source⟩
  · rw [length_encode, length_encode, utf8Length_blankFrom]
  · obtain ⟨before, c, rest, j, hsource, rfl, hj⟩ := exists_char_of_getElem? hb
    have hbyte := hexact before c rest hsource j b hj
    split at hbyte
    · rename_i hblank
      exact .inr ⟨hblank.2, hbyte⟩
    · exact .inl hbyte

end RefGraph.Style
