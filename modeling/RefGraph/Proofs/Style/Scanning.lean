import RefGraph.Proofs.Style.Blanking

/-!
# Comments and string literals

Which parts of a stylesheet are comments and string literals is said without the scanner that tells
them apart character by character: a text is a sequence of stretches, each of which is a string
literal, a comment, or a single character. Between two stretches one is outside of both.

* `InsideQuotes`, `Outside`, `InLiteral`: string literals, places between stretches, and places in a
  string literal.
* `placeBehind`: where the scanner is behind a part of a text.
* `Place.Means`: what the scanner knows about the text before it; `Place.Means.step`: it still knows
  it behind the next character.
* `outside_iff`, `inLiteral_iff`: the scanner is in its places for code and for quotes exactly
  outside and in a string literal.
-/

namespace RefGraph.Style

variable {lineComments : Bool} {before rest cs part : List Char}

/-! ## Stretches -/

/-- The two quotation marks. -/
def IsQuote (q : Char) : Prop := q = '"' ∨ q = '\''

instance (q : Char) : Decidable (IsQuote q) := inferInstanceAs (Decidable (_ ∨ _))

/-- What can stand in a string literal before its end: a backslash with the character behind it, and
all other characters but the quotation mark of the literal and a line break. -/
inductive InsideQuotes (q : Char) : List Char → Prop
  | nil : InsideQuotes q []
  | char {c : Char} {cs : List Char} (hc : c ≠ '\\' ∧ c ≠ q ∧ c ≠ '\n') (h : InsideQuotes q cs) :
      InsideQuotes q (c :: cs)
  | escape (c : Char) {cs : List Char} (h : InsideQuotes q cs) : InsideQuotes q ('\\' :: c :: cs)

/-- A comment begins with the text: a block comment, or one to the end of the line if there are
such. -/
def OpensComment (lineComments : Bool) (text : List Char) : Prop :=
  ['/', '*'] <+: text ∨ (lineComments = true ∧ ['/', '/'] <+: text)

/-- The place of a text between `before` and `rest` lies outside of comments and string literals.
The text before it consists of string literals up to their closing quotation mark or the end of the
line, block comments up to the first `*/`, comments up to the end of the line, and other
characters. -/
inductive Outside (lineComments : Bool) : (before rest : List Char) → Prop
  | start (rest : List Char) : Outside lineComments [] rest
  | char {before rest : List Char} {c : Char} (h : Outside lineComments before (c :: rest))
      (hquote : ¬ IsQuote c) (hcomment : ¬ OpensComment lineComments (c :: rest)) :
      Outside lineComments (before ++ [c]) rest
  | literal {before inside rest : List Char} {q close : Char}
      (h : Outside lineComments before (q :: (inside ++ close :: rest))) (hq : IsQuote q)
      (hinside : InsideQuotes q inside) (hclose : close = q ∨ close = '\n') :
      Outside lineComments (before ++ q :: (inside ++ [close])) rest
  | block {before inside rest : List Char}
      (h : Outside lineComments before ('/' :: '*' :: (inside ++ '*' :: '/' :: rest)))
      (hfirst : ¬ ['*', '/'] <:+: inside ++ ['*']) :
      Outside lineComments (before ++ '/' :: '*' :: (inside ++ ['*', '/'])) rest
  | line {before inside rest : List Char} (hline : lineComments = true)
      (h : Outside lineComments before ('/' :: '/' :: (inside ++ '\n' :: rest)))
      (hinside : '\n' ∉ inside) :
      Outside lineComments (before ++ '/' :: '/' :: (inside ++ ['\n'])) rest

/-- The place of a text between `before` and `rest` lies in a string literal. The last character
before it may be a backslash. -/
def InLiteral (lineComments : Bool) (before rest : List Char) : Prop :=
  ∃ start q inside, before = start ++ q :: inside ∧
    Outside lineComments start (q :: (inside ++ rest)) ∧
    IsQuote q ∧ (InsideQuotes q inside ∨ ∃ init, inside = init ++ ['\\'] ∧ InsideQuotes q init)

theorem InsideQuotes.append {q : Char} {as bs : List Char} (has : InsideQuotes q as)
    (hbs : InsideQuotes q bs) : InsideQuotes q (as ++ bs) := by
  induction has with
  | nil => exact hbs
  | char hc _ ih => exact .char hc ih
  | escape c _ ih => exact .escape c ih

/-- Without a backslash it is enough that the literal does not end. -/
theorem InsideQuotes.of_notMem {q : Char} (hquote : q ∉ cs) (hbackslash : '\\' ∉ cs)
    (hbreak : '\n' ∉ cs) : InsideQuotes q cs := by
  induction cs with
  | nil => exact .nil
  | cons c cs ih =>
    rw [List.mem_cons, not_or] at hquote hbackslash hbreak
    exact .char ⟨Ne.symm hbackslash.1, Ne.symm hquote.1, Ne.symm hbreak.1⟩
      (ih hquote.2 hbackslash.2 hbreak.2)

/-! ## The scanner -/

/-- Where the scanner is behind a part of a text, given what follows the part. -/
def placeBehind (lineComments : Bool) : Place → (part rest : List Char) → Place
  | place, [], _ => place
  | place, c :: cs, rest =>
    placeBehind lineComments (place.step lineComments c (cs ++ rest).head?).1 cs rest

/-- The scanner goes on where it was. -/
theorem placeBehind_append (place : Place) (as bs rest : List Char) :
    placeBehind lineComments place (as ++ bs) rest =
      placeBehind lineComments (placeBehind lineComments place as (bs ++ rest)) bs rest := by
  induction as generalizing place with
  | nil => rfl
  | cons a as ih => rw [List.cons_append, placeBehind, placeBehind, ih, List.append_assoc]

/-- A character that opens neither a string literal nor a comment stays in code. -/
theorem step_code_of_outside {c : Char} (hquote : ¬ IsQuote c)
    (hcomment : ¬ OpensComment lineComments (c :: rest)) :
    Place.code.step lineComments c rest.head? = (.code, false) := by
  unfold Place.step
  dsimp only
  rw [if_neg (show ¬ (c = '"' ∨ c = '\'') from hquote), if_neg, if_neg]
  · rintro ⟨rfl, hnext, hline⟩
    obtain ⟨more, rfl⟩ := List.head?_eq_some_iff.1 hnext
    exact hcomment (.inr ⟨hline, more, rfl⟩)
  · rintro ⟨rfl, hnext⟩
    obtain ⟨more, rfl⟩ := List.head?_eq_some_iff.1 hnext
    exact hcomment (.inl ⟨more, rfl⟩)

/-- A quotation mark opens a string literal. -/
theorem step_code_of_quote {q : Char} (hq : IsQuote q) (next : Option Char) :
    Place.code.step lineComments q next = (.quoted q, false) := by
  unfold Place.step
  exact if_pos hq

/-- Any other character in quotes stays there. -/
theorem step_quoted {q c : Char} (hc : c ≠ '\\' ∧ c ≠ q ∧ c ≠ '\n') (next : Option Char) :
    (Place.quoted q).step lineComments c next = (.quoted q, false) := by
  unfold Place.step
  dsimp only
  rw [if_neg hc.1, if_neg (not_or.2 hc.2)]

/-- The closing quotation mark or the end of the line ends a string literal. -/
theorem step_quoted_close {q c : Char} (hq : IsQuote q) (hc : c = q ∨ c = '\n')
    (next : Option Char) : (Place.quoted q).step lineComments c next = (.code, false) := by
  have hescape : c ≠ '\\' := by
    rcases hc with rfl | rfl
    · rcases hq with rfl | rfl <;> decide
    · decide
  unfold Place.step
  dsimp only
  rw [if_neg hescape, if_pos hc]

theorem placeBehind_insideQuotes {q : Char} (h : InsideQuotes q cs) (rest : List Char) :
    placeBehind lineComments (.quoted q) cs rest = .quoted q := by
  induction h with
  | nil => rfl
  | char hc _ ih => rw [placeBehind, step_quoted hc, ih]
  | escape c _ ih => exact ih

/-- A block comment goes on as long as its end has not come. -/
theorem placeBehind_block (h : ¬ ['*', '/'] <:+: cs ++ ['*']) (rest : List Char) :
    placeBehind lineComments .block cs ('*' :: rest) = .block := by
  induction cs with
  | nil => rfl
  | cons c cs ih =>
    have hstep : Place.block.step lineComments c (cs ++ '*' :: rest).head? = (.block, true) := by
      unfold Place.step
      dsimp only
      apply if_neg
      rintro ⟨rfl, hnext⟩
      cases cs with
      | nil => exact absurd (Option.some.inj hnext) (by decide)
      | cons d cs =>
        obtain rfl : d = '/' := Option.some.inj hnext
        exact h ⟨[], cs ++ ['*'], rfl⟩
    rw [placeBehind, hstep]
    exact ih fun hwithin => h (hwithin.trans (List.suffix_cons c _).isInfix)

/-- A comment to the end of the line goes on to its end. -/
theorem placeBehind_line (h : '\n' ∉ cs) (rest : List Char) :
    placeBehind lineComments .line cs rest = .line := by
  induction cs with
  | nil => rfl
  | cons c cs ih =>
    rw [List.mem_cons, not_or] at h
    have hstep : ∀ next, Place.line.step lineComments c next = (.line, true) := by
      intro next
      unfold Place.step
      exact if_neg (Ne.symm h.1)
    rw [placeBehind, hstep, ih h.2]

/-- Outside of comments and string literals the scanner is in its place for code. -/
theorem Outside.placeBehind_eq (h : Outside lineComments before rest) :
    placeBehind lineComments .code before rest = .code := by
  -- Each part that `Outside` adds is passed from code back to code.
  induction h with
  | start rest => rfl
  | char h hquote hcomment ih =>
    rw [placeBehind_append, List.singleton_append, ih, placeBehind, List.nil_append,
      step_code_of_outside hquote hcomment]
    rfl
  | literal h hq hinside hclose ih =>
    rw [placeBehind_append, List.cons_append, List.append_assoc, List.singleton_append, ih,
      placeBehind, step_code_of_quote hq, placeBehind_append, placeBehind_insideQuotes hinside,
      placeBehind, step_quoted_close hq hclose]
    rfl
  | @block before inside rest h hfirst ih =>
    have hopen : placeBehind lineComments .code ('/' :: '*' :: (inside ++ ['*', '/'])) rest =
        placeBehind lineComments .block (inside ++ ['*', '/']) rest := rfl
    rw [placeBehind_append, List.cons_append, List.cons_append, List.append_assoc,
      List.cons_append, List.singleton_append, ih, hopen, placeBehind_append, List.cons_append,
      placeBehind_block hfirst]
    rfl
  | @line before inside rest hline h hinside ih =>
    have hopen : placeBehind lineComments .code ('/' :: '/' :: (inside ++ ['\n'])) rest =
        placeBehind lineComments .line (inside ++ ['\n']) rest := by
      rw [hline]
      rfl
    rw [placeBehind_append, List.cons_append, List.cons_append, List.append_assoc,
      List.singleton_append, ih, hopen, placeBehind_append, placeBehind_line hinside]
    rfl

/-! ## What the scanner knows -/

/-- What the place of the scanner says about the text before it. -/
def Place.Means (lineComments : Bool) : Place → (before rest : List Char) → Prop
  | .code, before, rest => Outside lineComments before rest
  | .quoted q, before, rest => ∃ start inside, before = start ++ q :: inside ∧
      Outside lineComments start (q :: (inside ++ rest)) ∧ IsQuote q ∧ InsideQuotes q inside
  | .escaped q, before, rest => ∃ start inside, before = start ++ q :: (inside ++ ['\\']) ∧
      Outside lineComments start (q :: (inside ++ '\\' :: rest)) ∧ IsQuote q ∧ InsideQuotes q inside
  | .opening, before, rest => rest.head? = some '*' ∧
      ∃ start, before = start ++ ['/'] ∧ Outside lineComments start ('/' :: rest)
  | .block, before, rest => ∃ start inside, before = start ++ '/' :: '*' :: inside ∧
      Outside lineComments start ('/' :: '*' :: (inside ++ rest)) ∧
      ¬ ['*', '/'] <:+: inside ++ rest.head?.toList
  | .closing, before, rest => rest.head? = some '/' ∧
      ∃ start inside, before = start ++ '/' :: '*' :: (inside ++ ['*']) ∧
        Outside lineComments start ('/' :: '*' :: (inside ++ '*' :: rest)) ∧
        ¬ ['*', '/'] <:+: inside ++ ['*']
  | .line, before, rest => lineComments = true ∧
      ∃ start inside, before = start ++ '/' :: inside ∧
        Outside lineComments start ('/' :: (inside ++ rest)) ∧ '\n' ∉ inside ∧
        (inside ++ rest).head? = some '/'

variable {c : Char}

theorem infix_concat_head? {as : List Char} (h : ¬ ['*', '/'] <:+: as ++ [c])
    (hnext : ¬ (c = '*' ∧ rest.head? = some '/')) :
    ¬ ['*', '/'] <:+: as ++ [c] ++ rest.head?.toList := by
  cases hrest : rest.head? with
  | none => rwa [Option.toList_none, List.append_nil]
  | some d =>
    rw [Option.toList_some, List.infix_concat_iff, not_or]
    refine ⟨fun hsuffix => hnext ?_, h⟩
    obtain ⟨init, hinit⟩ := hsuffix
    have hlast : init ++ ['*'] ++ ['/'] = as ++ [c] ++ [d] := by
      rw [← hinit, List.append_assoc]
      rfl
    obtain ⟨hbefore, hd⟩ := List.append_inj' hlast rfl
    obtain ⟨-, hc⟩ := List.append_inj' hbefore rfl
    exact ⟨(List.cons.inj hc).1.symm, by rw [hrest, ← (List.cons.inj hd).1]⟩

/-! ### The places

Behind the next character the scanner still knows what stands before it. What it knew decides which
stretch goes on, begins or ends there. -/

namespace Place.Means

/-- Outside, a quotation mark or the first character of a comment opens a stretch, and any other
character is one. -/
theorem step_code (h : code.Means lineComments before (c :: rest)) :
    (code.step lineComments c rest.head?).1.Means lineComments (before ++ [c]) rest := by
  unfold Place.step
  dsimp only
  split
  · rename_i hquote
    exact ⟨before, [], rfl, h, hquote, .nil⟩
  rename_i hquote
  split
  · rename_i hopen
    obtain ⟨rfl, hnext⟩ := hopen
    exact ⟨hnext, before, rfl, h⟩
  rename_i hblock
  split
  · rename_i hopen
    obtain ⟨rfl, hnext, hline⟩ := hopen
    exact ⟨hline, before, [], rfl, h, List.not_mem_nil, hnext⟩
  · rename_i hline
    refine Outside.char h hquote ?_
    rintro (⟨more, hmore⟩ | ⟨hlines, more, hmore⟩)
    · obtain ⟨rfl, rfl⟩ := List.cons.inj hmore
      exact hblock ⟨rfl, rfl⟩
    · obtain ⟨rfl, rfl⟩ := List.cons.inj hmore
      exact hline ⟨rfl, rfl, hlines⟩

/-- A string literal goes on until its quotation mark or the end of the line. -/
theorem step_quoted {q : Char} (h : (quoted q).Means lineComments before (c :: rest)) :
    ((quoted q).step lineComments c rest.head?).1.Means lineComments (before ++ [c]) rest := by
  obtain ⟨start, inside, rfl, hstart, hq, hinside⟩ := h
  unfold Place.step
  dsimp only
  split
  · rename_i hc
    subst hc
    exact ⟨start, inside, by simp, hstart, hq, hinside⟩
  rename_i hescape
  split
  · rename_i hclose
    rw [List.append_assoc, List.cons_append]
    exact Outside.literal hstart hq hinside hclose
  · rename_i hclose
    exact ⟨start, inside ++ [c], by simp, by simpa using hstart, hq,
      hinside.append (.char ⟨hescape, not_or.1 hclose⟩ .nil)⟩

/-- Any character behind a backslash belongs to the string literal. -/
theorem step_escaped {q : Char} (h : (escaped q).Means lineComments before (c :: rest)) :
    ((escaped q).step lineComments c rest.head?).1.Means lineComments (before ++ [c]) rest := by
  obtain ⟨start, inside, rfl, hstart, hq, hinside⟩ := h
  exact ⟨start, inside ++ ['\\', c], by simp, by simpa using hstart, hq,
    hinside.append (.escape c .nil)⟩

/-- The star that opens a block comment cannot close it. -/
theorem step_opening (h : opening.Means lineComments before (c :: rest)) :
    (opening.step lineComments c rest.head?).1.Means lineComments (before ++ [c]) rest := by
  obtain ⟨hc, start, rfl, hstart⟩ := h
  obtain rfl : c = '*' := Option.some.inj hc
  refine ⟨start, [], by simp, hstart, fun hwithin => ?_⟩
  -- at most one character follows
  have hlength := hwithin.length_le
  cases hrest : rest.head? <;> simp [hrest] at hlength

/-- A block comment goes on until its first `*/`. -/
theorem step_block (h : block.Means lineComments before (c :: rest)) :
    (block.step lineComments c rest.head?).1.Means lineComments (before ++ [c]) rest := by
  obtain ⟨start, inside, rfl, hstart, hfirst⟩ := h
  unfold Place.step
  dsimp only
  split
  · rename_i hclose
    obtain ⟨rfl, hnext⟩ := hclose
    exact ⟨hnext, start, inside, by simp, hstart, hfirst⟩
  · rename_i hnext
    exact ⟨start, inside ++ [c], by simp, by simpa using hstart, infix_concat_head? hfirst hnext⟩

/-- Behind the slash that closes a block comment one is outside again. -/
theorem step_closing (h : closing.Means lineComments before (c :: rest)) :
    (closing.step lineComments c rest.head?).1.Means lineComments (before ++ [c]) rest := by
  obtain ⟨hc, start, inside, rfl, hstart, hfirst⟩ := h
  obtain rfl : c = '/' := Option.some.inj hc
  have hbehind : start ++ '/' :: '*' :: (inside ++ ['*']) ++ ['/'] =
      start ++ '/' :: '*' :: (inside ++ ['*', '/']) := by simp
  rw [hbehind]
  exact Outside.block hstart hfirst

/-- A comment to the end of the line goes on until there. -/
theorem step_line (h : line.Means lineComments before (c :: rest)) :
    (line.step lineComments c rest.head?).1.Means lineComments (before ++ [c]) rest := by
  obtain ⟨hline, start, inside, rfl, hstart, hinside, hhead⟩ := h
  unfold Place.step
  dsimp only
  split
  · rename_i hc
    subst hc
    -- the line break is not the second slash, so that one is there already
    cases inside with
    | nil => exact absurd (Option.some.inj hhead) (by decide)
    | cons d inside =>
      obtain rfl : d = '/' := Option.some.inj hhead
      rw [List.append_assoc, List.cons_append, List.cons_append]
      exact Outside.line hline hstart (not_or.1 (mt List.mem_cons.2 hinside)).2
  · rename_i hc
    refine ⟨hline, start, inside ++ [c], by simp, by simpa using hstart, ?_, by simpa using hhead⟩
    rw [List.mem_append, List.mem_singleton, not_or]
    exact ⟨hinside, Ne.symm hc⟩

/-- **Behind the next character the scanner still knows what stands before it.** -/
theorem step {place : Place} (h : place.Means lineComments before (c :: rest)) :
    (place.step lineComments c rest.head?).1.Means lineComments (before ++ [c]) rest := by
  cases place with
  | code => exact h.step_code
  | quoted q => exact h.step_quoted
  | escaped q => exact h.step_escaped
  | opening => exact h.step_opening
  | block => exact h.step_block
  | closing => exact h.step_closing
  | line => exact h.step_line

end Place.Means

/-- The scanner keeps to the meaning of its place all along a text. -/
theorem Place.Means.placeBehind {place : Place}
    (h : place.Means lineComments before (part ++ rest)) :
    (placeBehind lineComments place part rest).Means lineComments (before ++ part) rest := by
  induction part generalizing place before with
  | nil =>
    rw [List.append_nil]
    exact h
  | cons c part ih =>
    rw [List.append_cons]
    exact ih h.step

/-- **The place of the scanner means what it says**, wherever it is in a stylesheet. -/
theorem means_placeBehind (lineComments : Bool) (before rest : List Char) :
    (placeBehind lineComments .code before rest).Means lineComments before rest := by
  have hstart : Place.code.Means lineComments [] (before ++ rest) := Outside.start _
  exact hstart.placeBehind

/-- **The scanner is in its place for code exactly outside of comments and string literals.** -/
theorem outside_iff :
    Outside lineComments before rest ↔ placeBehind lineComments .code before rest = .code := by
  constructor
  · exact Outside.placeBehind_eq
  · intro h
    have hmeans := means_placeBehind lineComments before rest
    rwa [h] at hmeans

instance : Decidable (Outside lineComments before rest) := decidable_of_iff _ outside_iff.symm

/-- The places of the scanner between quotation marks. -/
def Place.inQuotes : Place → Bool
  | .quoted _ | .escaped _ => true
  | _ => false

/-- **The scanner is between quotation marks exactly in string literals.** -/
theorem inLiteral_iff : InLiteral lineComments before rest ↔
    (placeBehind lineComments .code before rest).inQuotes = true := by
  constructor
  · rintro ⟨start, q, inside, rfl, hstart, hq, hinside⟩
    rw [placeBehind_append, List.cons_append, hstart.placeBehind_eq, placeBehind,
      step_code_of_quote hq]
    rcases hinside with hinside | ⟨init, rfl, hinit⟩
    · rw [placeBehind_insideQuotes hinside]
      rfl
    · rw [placeBehind_append, placeBehind_insideQuotes hinit]
      rfl
  · intro h
    -- Each place says how the text before it was read; two of them are between quotation marks.
    have hmeans := means_placeBehind lineComments before rest
    cases hplace : placeBehind lineComments .code before rest with
    | quoted q =>
      rw [hplace] at hmeans
      obtain ⟨start, inside, rfl, hstart, hq, hinside⟩ := hmeans
      exact ⟨start, q, inside, rfl, hstart, hq, .inl hinside⟩
    | escaped q =>
      rw [hplace] at hmeans
      obtain ⟨start, inside, rfl, hstart, hq, hinside⟩ := hmeans
      refine ⟨start, q, inside ++ ['\\'], rfl, ?_, hq, .inr ⟨inside, rfl, hinside⟩⟩
      rwa [List.append_assoc, List.singleton_append]
    | code | opening | block | closing | line =>
      rw [hplace] at h
      cases h

end RefGraph.Style
