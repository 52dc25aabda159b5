import RefGraph.Proofs.Style.Places
import RefGraph.Proofs.Utf8

/-!
# What blanking changes

Blanking changes the bytes of comments and nothing else: each of them turns into a space but for the
line breaks. What is left has no comments, so that blanking it again changes nothing.

* `InComment`: a character belongs to a comment.
* `step_eq_true_iff`: these are the characters that the scanner blanks.
* `getElem?_encode_blankComments`: byte by byte, what blanking makes of a text.
* `blankComments_blankComments`: blanking a text twice.
-/

namespace RefGraph.Style

variable {lineComments : Bool} {place : Place} {before rest cs part source : List Char} {c : Char}

/-! ## Characters in comments -/

/-- The text behind `before` begins with a character of a comment. The comment begins behind
`start`, outside of other comments and of string literals, and has not ended with its `part` up to
there: a block comment ends with the first `*/` behind its opening, one to the end of the line
before the line break. -/
def InComment (lineComments : Bool) (before rest : List Char) : Prop :=
  ∃ start part, before = start ++ part ∧ Outside lineComments start (part ++ rest) ∧
    ((['/', '*'] <+: part ++ rest ∧ ¬ ['*', '/'] <:+: part.drop 2) ∨
      (lineComments = true ∧ ['/', '/'] <+: part ++ rest ∧ '\n' ∉ part ++ rest.head?.toList))

/-- In a part of a block comment without `*/` the scanner stays in the comment; at the end of that
part it may be at the `*` of its closing. -/
theorem step_block_cases (h : ¬ ['*', '/'] <:+: c :: cs) (rest : List Char) :
    Place.block.step lineComments c (cs ++ rest).head? = (.block, true) ∨
      cs = [] ∧ Place.block.step lineComments c (cs ++ rest).head? = (.closing, true) := by
  rw [Place.step]
  split
  · rename_i hclose
    obtain ⟨rfl, hnext⟩ := hclose
    cases cs with
    | nil => exact .inr ⟨rfl, rfl⟩
    | cons d cs =>
      obtain rfl : d = '/' := Option.some.inj hnext
      exact absurd ⟨[], cs, rfl⟩ h
  · exact .inl rfl

/-- Without its end in between, a block comment goes on, at most before the slash that closes it. -/
theorem placeBehind_block_cases (h : ¬ ['*', '/'] <:+: cs) (rest : List Char) :
    placeBehind lineComments .block cs rest = .block ∨
      placeBehind lineComments .block cs rest = .closing := by
  induction cs with
  | nil => exact .inl rfl
  | cons c cs ih =>
    rw [placeBehind]
    have hstep := @step_block_cases lineComments cs c h rest
    rcases hstep with hstep | ⟨rfl, hstep⟩
    · rw [hstep]
      exact ih fun hwithin => h (hwithin.trans (List.suffix_cons c cs).isInfix)
    · rw [hstep]
      exact .inr rfl

/-- In a block comment everything is blanked. -/
theorem step_block_snd (c : Char) (next : Option Char) :
    (Place.block.step lineComments c next).2 = true := by
  rw [Place.step]
  split <;> rfl

/-- The scanner takes a character of a comment for one. -/
theorem InComment.step_eq_true (h : InComment lineComments before (c :: rest)) :
    ((placeBehind lineComments .code before (c :: rest)).step lineComments c rest.head?).2 =
      true := by
  obtain ⟨start, part, rfl, hstart, hkind⟩ := h
  rw [placeBehind_append, hstart.placeBehind_eq]
  rcases hkind with ⟨⟨more, hmore⟩, hinside⟩ | ⟨rfl, ⟨more, hmore⟩, hbreak⟩
  · -- The two characters of the opening belong to the comment.
    rcases part with _ | ⟨a, _ | ⟨b, inside⟩⟩
    · obtain ⟨rfl, rfl⟩ := List.cons.inj hmore
      rfl
    · obtain ⟨rfl, hstar⟩ := List.cons.inj hmore
      obtain ⟨rfl, rfl⟩ := List.cons.inj hstar
      rfl
    · obtain ⟨rfl, hstar⟩ := List.cons.inj hmore
      obtain ⟨rfl, rfl⟩ := List.cons.inj hstar
      -- Behind the opening a slash is the end of the comment only where the star before it is.
      have hplace : placeBehind lineComments .code ('/' :: '*' :: inside) (c :: rest) =
          placeBehind lineComments .block inside (c :: rest) := rfl
      have hcases : placeBehind lineComments .block inside (c :: rest) = .block ∨
          placeBehind lineComments .block inside (c :: rest) = .closing :=
        placeBehind_block_cases hinside (c :: rest)
      rw [hplace]
      rcases hcases with hblock | hclosing
      · rw [hblock, step_block_snd]
      · rw [hclosing]
        rfl
  · rw [List.head?_cons, Option.toList_some, List.mem_append, not_or, List.mem_singleton] at hbreak
    have hline : (Place.line.step true c rest.head?).2 = true := by
      rw [Place.step, if_neg (Ne.symm hbreak.2)]
    cases part with
    | nil =>
      obtain ⟨rfl, rfl⟩ := List.cons.inj hmore
      rfl
    | cons a inside =>
      obtain ⟨rfl, hslash⟩ := List.cons.inj hmore
      have hnext : (inside ++ c :: rest).head? = some '/' := (congrArg List.head? hslash).symm
      have hopening : Place.code.step true '/' (inside ++ c :: rest).head? = (.line, true) := by
        rw [hnext]
        rfl
      rw [placeBehind, hopening, placeBehind_line (not_or.1 (mt List.mem_cons.2 hbreak.1)).2, hline]

/-- Outside of comments a character is blanked only if it opens one. -/
theorem inComment_of_code (hmeans : Place.code.Means lineComments before (c :: rest))
    (h : (Place.code.step lineComments c rest.head?).2 = true) :
    InComment lineComments before (c :: rest) := by
  refine ⟨before, [], (List.append_nil before).symm, hmeans, ?_⟩
  by_cases hquote : IsQuote c
  · rw [step_code_of_quote hquote] at h
    cases h
  by_cases hcomment : OpensComment lineComments (c :: rest)
  · rcases hcomment with hblock | ⟨hlines, hline⟩
    · exact .inl ⟨hblock, by simp⟩
    · refine .inr ⟨hlines, hline, ?_⟩
      obtain ⟨rfl, -⟩ := List.cons_prefix_cons.1 hline
      simp
  · rw [step_code_of_outside hquote hcomment] at h
    cases h

/-- In a comment to the end of the line all is blanked but the line break. -/
theorem inComment_of_line (hmeans : Place.line.Means lineComments before (c :: rest))
    (h : (Place.line.step lineComments c rest.head?).2 = true) :
    InComment lineComments before (c :: rest) := by
  obtain ⟨hlines, start, inside, rfl, hstart, hinside, hhead⟩ := hmeans
  have hc : c ≠ '\n' := by
    rintro rfl
    cases h
  obtain ⟨more, hmore⟩ := List.head?_eq_some_iff.1 hhead
  refine ⟨start, '/' :: inside, rfl, hstart, .inr ⟨hlines, ⟨more, ?_⟩, ?_⟩⟩
  · show '/' :: '/' :: more = '/' :: (inside ++ c :: rest)
    rw [hmore]
  · simp [hinside, Ne.symm hc]

/-- No character of a string literal is blanked. -/
theorem step_quoted_snd (q c : Char) (next : Option Char) :
    ((Place.quoted q).step lineComments c next).2 = false := by
  rw [Place.step]
  split
  · rfl
  · split <;> rfl

/-- **The scanner blanks exactly the characters of comments.** -/
theorem step_eq_true_iff :
    ((placeBehind lineComments .code before (c :: rest)).step lineComments c rest.head?).2 = true ↔
      InComment lineComments before (c :: rest) := by
  refine ⟨fun h => ?_, InComment.step_eq_true⟩
  have hmeans := means_placeBehind lineComments before (c :: rest)
  -- In each place the scanner blanks, the place itself says which comment this is.
  cases hplace : placeBehind lineComments .code before (c :: rest) with
  | code =>
    rw [hplace] at h hmeans
    exact inComment_of_code hmeans h
  | quoted q =>
    rw [hplace, step_quoted_snd] at h
    cases h
  | escaped q =>
    rw [hplace] at h
    cases h
  | opening =>
    rw [hplace] at hmeans
    obtain ⟨hstar, start, rfl, hstart⟩ := hmeans
    obtain rfl : c = '*' := Option.some.inj hstar
    exact ⟨start, ['/'], rfl, hstart, .inl ⟨⟨rest, rfl⟩, by simp⟩⟩
  | block =>
    rw [hplace] at hmeans
    obtain ⟨start, inside, rfl, hstart, hfirst⟩ := hmeans
    refine ⟨start, '/' :: '*' :: inside, rfl, hstart, .inl ⟨⟨_, rfl⟩, fun hwithin => hfirst ?_⟩⟩
    exact hwithin.trans (List.prefix_append ..).isInfix
  | closing =>
    rw [hplace] at hmeans
    obtain ⟨-, start, inside, rfl, hstart, hfirst⟩ := hmeans
    refine ⟨start, '/' :: '*' :: (inside ++ ['*']), rfl, ?_, .inl ⟨⟨_, rfl⟩, hfirst⟩⟩
    simpa using hstart
  | line =>
    rw [hplace] at h hmeans
    exact inComment_of_line hmeans h

instance : Decidable (InComment lineComments before (c :: rest)) :=
  decidable_of_iff _ step_eq_true_iff

/-! ## Blanked bytes -/

/-- What blanking makes of a byte: a space, but for a line break. -/
def blankByte (b : UInt8) : UInt8 := if b = 10 then b else 32

theorem map_blankByte {bs : List UInt8} (h : 10 ∉ bs) :
    bs.map blankByte = List.replicate bs.length 32 := by
  rw [List.eq_replicate_iff]
  refine ⟨List.length_map _, fun b hb => ?_⟩
  obtain ⟨a, ha, rfl⟩ := List.mem_map.1 hb
  exact if_neg fun he : a = 10 => h (he ▸ ha)

theorem blankChar_ne_nil (c : Char) : blankChar c ≠ [] := by
  intro h
  have hlength := utf8Length_blankChar c
  rw [h] at hlength
  exact absurd hlength.symm (Nat.pos_iff_ne_zero.1 c.utf8Size_pos)

/-- A character is blanked byte by byte. -/
theorem encode_blankChar (c : Char) :
    Utf8.encode (blankChar c) = (String.utf8EncodeChar c).map blankByte := by
  by_cases hc : c = '\n'
  · rw [hc, Utf8.encode_eq]
    rfl
  · have hbreak : 10 ∉ String.utf8EncodeChar c := fun hmem =>
      hc (@Utf8.eq_of_mem_utf8EncodeChar c '\n' (by decide) hmem)
    have hspace : String.utf8EncodeChar ' ' = [32] := rfl
    rw [blankChar_of_ne hc, map_blankByte hbreak, String.length_utf8EncodeChar, Utf8.encode_eq,
      List.flatMap_replicate, hspace, List.flatten_replicate_singleton]

/-- Blanking characters blanks their bytes one by one. -/
theorem encode_flatMap_blankChar (cs : List Char) :
    Utf8.encode (cs.flatMap blankChar) = (Utf8.encode cs).map blankByte := by
  induction cs with
  | nil => rw [List.flatMap_nil, Utf8.encode_nil, List.map_nil]
  | cons c cs ih =>
    rw [List.flatMap_cons, Utf8.encode_append, Utf8.encode_cons, encode_blankChar, ih,
      List.map_append]

theorem length_encode (cs : List Char) : (Utf8.encode cs).length = utf8Length cs := by
  induction cs with
  | nil => rw [Utf8.encode_nil]; rfl
  | cons c cs ih =>
    rw [Utf8.encode_cons, List.length_append, String.length_utf8EncodeChar, ih, utf8Length]

/-- The bytes of a text are those of its characters. -/
theorem exists_char_of_getElem? {i : Nat} {b : UInt8} (h : (Utf8.encode source)[i]? = some b) :
    ∃ before c rest j, source = before ++ c :: rest ∧ i = (Utf8.encode before).length + j ∧
      (String.utf8EncodeChar c)[j]? = some b := by
  induction source generalizing i with
  | nil => simp at h
  | cons c cs ih =>
    rw [Utf8.encode_cons, List.getElem?_append] at h
    split at h
    · exact ⟨[], c, cs, i, rfl, by simp, h⟩
    · rename_i hlt
      obtain ⟨before, d, rest, j, rfl, hj, hd⟩ := ih h
      refine ⟨c :: before, d, rest, j, rfl, ?_, hd⟩
      rw [Utf8.encode_cons, List.length_append]
      omega

/-- **Byte by byte, what blanking makes of a text.** -/
theorem getElem?_encode_blankComments (before : List Char) (c : Char) (rest : List Char) {j : Nat}
    {b : UInt8} (h : (String.utf8EncodeChar c)[j]? = some b) :
    (Utf8.encode (blankComments lineComments (before ++ c :: rest)))[
        (Utf8.encode before).length + j]? =
      some (if InComment lineComments before (c :: rest) then blankByte b else b) := by
  have hbefore : (Utf8.encode (blankPart lineComments .code before (c :: rest))).length =
      (Utf8.encode before).length := by
    rw [length_encode, length_encode, utf8Length_blankPart]
  rw [blankComments, blankFrom_append, Utf8.encode_append, ← hbefore,
    List.getElem?_append_right (Nat.le_add_right ..), Nat.add_sub_cancel_left, blankFrom_cons,
    Utf8.encode_append]
  have hlength := (List.getElem?_eq_some_iff.1 h).1
  by_cases hcomment : InComment lineComments before (c :: rest)
  · rw [if_pos (step_eq_true_iff.2 hcomment), if_pos hcomment, encode_blankChar,
      List.getElem?_append_left (by simpa using hlength), List.getElem?_map, h]
    rfl
  · rw [if_neg (mt step_eq_true_iff.1 hcomment), if_neg hcomment, Utf8.encode_eq [c],
      List.flatMap_singleton, List.getElem?_append_left hlength, h]

/-! ## Whole comments -/

/-- All of a block comment is blanked. -/
theorem blankPart_block (h : ¬ ['*', '/'] <:+: cs) (rest : List Char) :
    blankPart lineComments .block cs rest = cs.flatMap blankChar := by
  induction cs with
  | nil => rfl
  | cons c cs ih =>
    have hstep := @step_block_cases lineComments cs c h rest
    rcases hstep with hstep | ⟨rfl, hstep⟩
    · rw [blankPart_cons, hstep, List.flatMap_cons,
        ih fun hwithin => h (hwithin.trans (List.suffix_cons c cs).isInfix)]
      rfl
    · rw [blankPart_cons, hstep]
      rfl

/-- All of a comment to the end of the line is blanked. -/
theorem blankPart_line (h : '\n' ∉ cs) (rest : List Char) :
    blankPart lineComments .line cs rest = cs.flatMap blankChar := by
  induction cs with
  | nil => rfl
  | cons c cs ih =>
    rw [List.mem_cons, not_or] at h
    rw [blankPart_cons, Place.step, if_neg (Ne.symm h.1), List.flatMap_cons, ih h.2]
    rfl

/-- A block comment that is closed. -/
theorem blankFrom_closedBlock {inside : List Char} (h : ¬ ['*', '/'] <:+: inside ++ ['*'])
    (rest : List Char) :
    blankFrom lineComments .code ('/' :: '*' :: (inside ++ '*' :: '/' :: rest)) =
      ('/' :: '*' :: (inside ++ ['*', '/'])).flatMap blankChar ++
        blankFrom lineComments .code rest := by
  have hopen : blankFrom lineComments .code ('/' :: '*' :: (inside ++ '*' :: '/' :: rest)) =
      ' ' :: ' ' :: blankFrom lineComments .block (inside ++ ['*'] ++ '/' :: rest) := by
    rw [List.append_assoc]
    rfl
  have hplace : placeBehind lineComments .block (inside ++ ['*']) ('/' :: rest) = .closing := by
    rw [placeBehind_append, List.singleton_append, placeBehind_block h]
    rfl
  rw [hopen, blankFrom_append, blankPart_block h, hplace]
  simp only [List.flatMap_cons, List.flatMap_append, List.append_assoc]
  rfl

theorem infix_concat_star_iff : ['*', '/'] <:+: cs ++ ['*'] ↔ ['*', '/'] <:+: cs := by
  rw [List.infix_concat_iff, or_iff_right]
  rintro ⟨init, hinit⟩
  have hlast : init ++ ['*'] ++ ['/'] = cs ++ ['*'] := by
    rw [← hinit, List.append_assoc]
    rfl
  exact absurd (List.append_inj' hlast rfl).2 (by decide)

theorem flatMap_blankChar (h : '\n' ∉ cs) :
    cs.flatMap blankChar = List.replicate (utf8Length cs) ' ' := by
  induction cs with
  | nil => rfl
  | cons c cs ih =>
    rw [List.mem_cons, not_or] at h
    rw [List.flatMap_cons, blankChar_of_ne (Ne.symm h.1), ih h.2, List.replicate_append_replicate,
      utf8Length]

/-- **A block comment on one line turns into spaces**, one for each of its bytes. -/
theorem blankFrom_comment (hclose : ¬ ['*', '/'] <:+: cs) (hbreak : '\n' ∉ cs) :
    blankFrom lineComments .code (commentText cs ++ rest) =
      List.replicate (utf8Length (commentText cs)) ' ' ++ blankFrom lineComments .code rest := by
  have hline : '\n' ∉ commentText cs := by
    simp [commentText, hbreak]
  have htext : commentText cs ++ rest = '/' :: '*' :: (cs ++ '*' :: '/' :: rest) := by
    simp [commentText]
  rw [htext, blankFrom_closedBlock (mt infix_concat_star_iff.1 hclose), ← flatMap_blankChar hline]
  rfl

/-- A block comment that is not closed. -/
theorem blankFrom_openBlock (h : ¬ ['*', '/'] <:+: cs) :
    blankFrom lineComments .code ('/' :: '*' :: cs) = ('/' :: '*' :: cs).flatMap blankChar := by
  have hopen : blankFrom lineComments .code ('/' :: '*' :: cs) =
      ' ' :: ' ' :: blankFrom lineComments .block (cs ++ []) := by
    rw [List.append_nil]
    rfl
  rw [hopen, blankFrom_append, blankPart_block h]
  simp only [blankFrom, List.append_nil]
  rfl

/-- A comment to the end of the line. -/
theorem blankFrom_closedLine {inside : List Char} (h : '\n' ∉ inside) (rest : List Char) :
    blankFrom true .code ('/' :: '/' :: (inside ++ '\n' :: rest)) =
      ('/' :: '/' :: inside).flatMap blankChar ++ blankFrom true .code ('\n' :: rest) := by
  have hopen : blankFrom true .code ('/' :: '/' :: (inside ++ '\n' :: rest)) =
      ' ' :: ' ' :: blankFrom true .line (inside ++ '\n' :: rest) := rfl
  rw [hopen, blankFrom_append, blankPart_line h, placeBehind_line h]
  rfl

/-- A comment to the end of the text. -/
theorem blankFrom_openLine (h : '\n' ∉ cs) :
    blankFrom true .code ('/' :: '/' :: cs) = ('/' :: '/' :: cs).flatMap blankChar := by
  have hopen : blankFrom true .code ('/' :: '/' :: cs) =
      ' ' :: ' ' :: blankFrom true .line (cs ++ []) := by
    rw [List.append_nil]
    rfl
  rw [hopen, blankFrom_append, blankPart_line h]
  simp only [blankFrom, List.append_nil]
  rfl

/-! ## Blanking twice -/

/-- Where the scanner is in the blanked text: the same place, but outside of comments. -/
def Place.blanked : Place → Place
  | .quoted q => .quoted q
  | .escaped q => .escaped q
  | .code | .opening | .block | .closing | .line => .code

/-- A character of a comment leads from code or a comment to code or a comment. -/
theorem blanked_of_step {next : Option Char} (h : (place.step lineComments c next).2 = true) :
    place.blanked = .code ∧ (place.step lineComments c next).1.blanked = .code := by
  cases place with
  | code =>
    refine ⟨rfl, ?_⟩
    rw [Place.step] at h ⊢
    split
    · rename_i hquote
      rw [if_pos hquote] at h
      cases h
    · split
      · rfl
      · split <;> rfl
  | quoted q =>
    rw [Place.step] at h
    split at h
    · cases h
    · split at h <;> cases h
  | escaped q => cases h
  | opening | closing => exact ⟨rfl, rfl⟩
  | block =>
    refine ⟨rfl, ?_⟩
    rw [Place.step]
    split <;> rfl
  | line =>
    refine ⟨rfl, ?_⟩
    rw [Place.step]
    split <;> rfl

/-- A blanked text begins as the text does, or with a blank. -/
theorem head?_blankFrom (place : Place) (cs : List Char) :
    (blankFrom lineComments place cs).head? = cs.head? ∨
      ∃ d, (blankFrom lineComments place cs).head? = some d ∧ (d = ' ' ∨ d = '\n') := by
  cases cs with
  | nil => exact .inl rfl
  | cons c cs =>
    rw [blankFrom_cons]
    split
    · obtain ⟨d, ds, hd⟩ := List.exists_cons_of_ne_nil (blankChar_ne_nil c)
      rw [hd]
      exact .inr ⟨d, rfl, eq_of_mem_blankChar (hd ▸ List.mem_cons_self)⟩
    · exact .inl rfl

/-- No comment begins in the blanked text where none begins in the text. -/
theorem not_opensComment_blankFrom (h : ¬ OpensComment lineComments (c :: cs)) (place : Place) :
    ¬ OpensComment lineComments (c :: blankFrom lineComments place cs) := by
  have hopens : ∀ d, d ≠ ' ' ∧ d ≠ '\n' → ['/', d] <+: c :: blankFrom lineComments place cs →
      ['/', d] <+: c :: cs := by
    intro d hd hbegins
    obtain ⟨hslash, more, hmore⟩ := List.cons_prefix_cons.1 hbegins
    refine List.cons_prefix_cons.2 ⟨hslash, ?_⟩
    rcases @head?_blankFrom lineComments place cs with hhead | ⟨e, hhead, he⟩
    · rw [← hmore] at hhead
      obtain ⟨rest, rfl⟩ := List.head?_eq_some_iff.1 hhead.symm
      exact ⟨rest, rfl⟩
    · rw [← hmore] at hhead
      obtain rfl : d = e := Option.some.inj hhead
      exact absurd he (not_or.2 hd)
  rintro (hblock | ⟨hlines, hline⟩)
  · exact h (.inl (hopens '*' (by decide) hblock))
  · exact h (.inr ⟨hlines, hopens '/' (by decide) hline⟩)

/-- A character outside of comments leads on as it did. -/
theorem step_blanked (h : (place.step lineComments c cs.head?).2 = false) (place' : Place) :
    place.blanked.step lineComments c (blankFrom lineComments place' cs).head? =
      ((place.step lineComments c cs.head?).1.blanked, false) := by
  cases place with
  | code =>
    by_cases hquote : IsQuote c
    · rw [Place.blanked, step_code_of_quote hquote, step_code_of_quote hquote]
      rfl
    -- A character that opens a comment would be blanked itself.
    have hcomment : ¬ OpensComment lineComments (c :: cs) := by
      rintro (⟨more, hmore⟩ | ⟨rfl, more, hmore⟩)
      · obtain ⟨rfl, rfl⟩ := List.cons.inj hmore
        cases h
      · obtain ⟨rfl, rfl⟩ := List.cons.inj hmore
        cases h
    rw [Place.blanked, step_code_of_outside hquote (not_opensComment_blankFrom hcomment place'),
      step_code_of_outside hquote hcomment]
    rfl
  | quoted q =>
    rw [Place.blanked, Place.step, Place.step]
    split
    · rfl
    · split <;> rfl
  | escaped q => rfl
  | opening | closing => cases h
  | block =>
    rw [step_block_snd] at h
    cases h
  | line =>
    rw [Place.step] at h
    split at h
    · rename_i hc
      rw [hc]
      rfl
    · cases h

/-- A blanked text is blanked once more from the same place, or from code. The induction is on the
text. -/
theorem blankFrom_blankFrom (place : Place) (cs : List Char) :
    blankFrom lineComments place.blanked (blankFrom lineComments place cs) =
      blankFrom lineComments place cs := by
  induction cs generalizing place with
  | nil => rfl
  | cons c cs ih =>
    have hrest := ih (place.step lineComments c cs.head?).1
    rw [blankFrom_cons]
    cases hstep : (place.step lineComments c cs.head?).2 with
    | true =>
      obtain ⟨hplace, hnext⟩ := blanked_of_step hstep
      have hplain : ∀ d, d ≠ ' ' ∧ d ≠ '\n' → d ∉ blankChar c := fun d hd hmem =>
        absurd (eq_of_mem_blankChar hmem) (not_or.2 hd)
      rw [hnext] at hrest
      rw [if_pos rfl, hplace, blankFrom_plain (hplain _ (by decide)) (hplain _ (by decide))
        (hplain _ (by decide)), hrest]
    | false =>
      rw [if_neg Bool.false_ne_true, List.singleton_append, blankFrom_cons, step_blanked hstep,
        hrest]
      rfl

/-- **What is left has no comments.** -/
theorem blankComments_blankComments (lineComments : Bool) (source : List Char) :
    blankComments lineComments (blankComments lineComments source) =
      blankComments lineComments source :=
  blankFrom_blankFrom .code source

end RefGraph.Style
