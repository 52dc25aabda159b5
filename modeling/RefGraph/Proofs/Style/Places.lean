import RefGraph.Proofs.Style.Scanning
import RefGraph.Proofs.Style.Statements
import Mathlib.Algebra.Group.Nat.Defs
import Mathlib.Data.List.Induction

/-!
# Places of import statements

Import statements are looked for in a text in which comments are blanked, but the places that are
reported belong to the stylesheet itself. Blanking keeps the bytes of each character and all line
breaks, and a character that is neither a space nor a line break is left only where it stands in the
stylesheet.

* `blankPart`: a part of a stylesheet with its comments blanked.
* `exists_split_of_blankFrom`: a character that is left stands in the stylesheet, outside of
  comments.
* `locate_blankPart`: a place has the same line and column before and after blanking.
* `PointsBehind`: what a line and a column stand for; `eq_of_columnOf_eq`: only one place has them.
* `isFound_of_mem_statements`: what is found stands in the stylesheet, outside of comments.
* `imports_located`: all references of a statement point to it.
-/

namespace RefGraph.Style

variable {lineComments : Bool} {place : Place} {source before rest cs part text : List Char}

/-! ## Bytes, line breaks and columns -/

theorem utf8Length_pos {c : Char} (cs : List Char) : 0 < utf8Length (c :: cs) :=
  Nat.add_pos_left c.utf8Size_pos _

/-- A beginning of a text is known by its number of bytes. -/
theorem eq_of_utf8Length_eq {as bs : List Char} (has : as <+: text) (hbs : bs <+: text)
    (h : utf8Length as = utf8Length bs) : as = bs := by
  have hnil : ∀ {as more : List Char}, utf8Length as = utf8Length (as ++ more) → more = [] := by
    intro as more hmore
    rw [utf8Length_append] at hmore
    cases more with
    | nil => rfl
    | cons c more =>
      have := utf8Length_pos (c := c) more
      omega
  rcases List.prefix_or_prefix_of_prefix has hbs with ⟨more, rfl⟩ | ⟨more, rfl⟩
  · rw [hnil h, List.append_nil]
  · rw [hnil h.symm, List.append_nil]

/-- A line break begins a new line, every other character takes its bytes. -/
theorem columnOf_concat (cs : List Char) (c : Char) :
    columnOf (cs ++ [c]) = if c = '\n' then 0 else columnOf cs + c.utf8Size := by
  unfold columnOf
  rw [List.reverse_concat, List.takeWhile_cons]
  by_cases hc : c = '\n'
  · rw [if_pos hc, if_neg (by simpa using hc)]
    rfl
  · rw [if_neg hc, if_pos (by simpa using hc), utf8Length, Nat.add_comm]

/-- On one line the columns are those of the bytes. -/
theorem columnOf_append (h : '\n' ∉ cs) (before : List Char) :
    columnOf (before ++ cs) = columnOf before + utf8Length cs := by
  induction cs generalizing before with
  | nil => rw [List.append_nil]; rfl
  | cons c cs ih =>
    rw [List.mem_cons, not_or] at h
    rw [List.append_cons, ih h.2, columnOf_concat, if_neg (Ne.symm h.1), utf8Length, Nat.add_assoc]

theorem columnOf_le (cs : List Char) : columnOf cs ≤ utf8Length cs := by
  induction cs using List.reverseRecOn with
  | nil => exact Nat.le_refl _
  | append_singleton cs c ih =>
    rw [columnOf_concat, utf8Length_append]
    split
    · exact Nat.zero_le _
    · exact Nat.add_le_add ih (Nat.le_of_eq (Nat.add_zero _).symm)

theorem count_lineBreak_le (cs : List Char) : cs.count '\n' ≤ utf8Length cs := by
  induction cs with
  | nil => exact Nat.le_refl _
  | cons c cs ih =>
    have := c.utf8Size_pos
    rw [List.count_cons, utf8Length]
    split <;> omega

/-- **Two places of a text in the same line and column are the same.** -/
theorem eq_of_columnOf_eq {as bs : List Char} (has : as <+: text) (hbs : bs <+: text)
    (hline : as.count '\n' = bs.count '\n') (hcolumn : columnOf as = columnOf bs) : as = bs := by
  have hnil : ∀ {as more : List Char}, as.count '\n' = (as ++ more).count '\n' →
      columnOf as = columnOf (as ++ more) → more = [] := by
    intro as more hline hcolumn
    have hbreak : '\n' ∉ more := by
      rw [List.count_append] at hline
      exact List.count_eq_zero.1 (by omega)
    rw [columnOf_append hbreak] at hcolumn
    cases more with
    | nil => rfl
    | cons c more =>
      have := utf8Length_pos (c := c) more
      omega
  rcases List.prefix_or_prefix_of_prefix has hbs with ⟨more, rfl⟩ | ⟨more, rfl⟩
  · rw [hnil hline hcolumn, List.append_nil]
  · rw [hnil hline.symm hcolumn.symm, List.append_nil]

/-! ## Blanked parts -/

/-- A part of a text with its comments blanked, given what follows the part. -/
def blankPart (lineComments : Bool) : Place → (part rest : List Char) → List Char
  | _, [], _ => []
  | place, c :: cs, rest =>
    let (next, isComment) := place.step lineComments c (cs ++ rest).head?
    (if isComment then blankChar c else [c]) ++ blankPart lineComments next cs rest

theorem blankPart_cons (place : Place) (c : Char) (cs rest : List Char) :
    blankPart lineComments place (c :: cs) rest =
      (if (place.step lineComments c (cs ++ rest).head?).2 then blankChar c else [c]) ++
        blankPart lineComments (place.step lineComments c (cs ++ rest).head?).1 cs rest := rfl

/-- The parts of a text are blanked one after the other. -/
theorem blankFrom_append (place : Place) (part rest : List Char) :
    blankFrom lineComments place (part ++ rest) = blankPart lineComments place part rest ++
      blankFrom lineComments (placeBehind lineComments place part rest) rest := by
  induction part generalizing place with
  | nil => rfl
  | cons c cs ih =>
    rw [List.cons_append, blankFrom_cons, ih, blankPart_cons, List.append_assoc]
    rfl

/-- Blanks are spaces and line breaks. -/
theorem eq_of_mem_blankChar {c d : Char} (h : d ∈ blankChar c) : d = ' ' ∨ d = '\n' := by
  unfold blankChar at h
  split at h
  · rename_i hc
    exact .inr ((List.mem_singleton.1 h).trans hc)
  · exact .inl (List.eq_of_mem_replicate h)

theorem count_blankChar (c : Char) : (blankChar c).count '\n' = [c].count '\n' := by
  unfold blankChar
  split
  · rfl
  · rename_i hc
    rw [List.count_replicate, if_neg (by decide), List.count_singleton, if_neg (by simpa using hc)]

/-- Blanking a character does not move what follows on the line. -/
theorem columnOf_append_blankChar (before : List Char) (c : Char) :
    columnOf (before ++ blankChar c) = columnOf (before ++ [c]) := by
  by_cases hc : c = '\n'
  · rw [blankChar, if_pos hc]
  · have hspaces : '\n' ∉ blankChar c := by
      rw [blankChar_of_ne hc]
      intro hmem
      exact absurd (List.eq_of_mem_replicate hmem) (by decide)
    rw [columnOf_append hspaces, utf8Length_blankChar, columnOf_concat, if_neg hc]

/-- Blanked parts are as long as before, in bytes. -/
theorem utf8Length_blankPart (lineComments : Bool) (place : Place) (part rest : List Char) :
    utf8Length (blankPart lineComments place part rest) = utf8Length part := by
  induction part generalizing place with
  | nil => rfl
  | cons c cs ih =>
    rw [blankPart_cons, utf8Length_append, ih, utf8Length]
    split
    · rw [utf8Length_blankChar]
    · rfl

/-- Blanked parts have as many lines as before. -/
theorem count_blankPart (place : Place) (part rest : List Char) :
    (blankPart lineComments place part rest).count '\n' = part.count '\n' := by
  induction part generalizing place with
  | nil => rfl
  | cons c cs ih =>
    have hcons : c :: cs = [c] ++ cs := rfl
    rw [blankPart_cons, List.count_append, ih, hcons, List.count_append]
    split
    · rw [count_blankChar]
    · rfl

/-- Blanking a part does not move what follows on the line. -/
theorem columnOf_append_blankPart (place : Place) (part rest : List Char) {as bs : List Char}
    (h : columnOf as = columnOf bs) :
    columnOf (as ++ blankPart lineComments place part rest) = columnOf (bs ++ part) := by
  induction part generalizing place as bs with
  | nil => simpa [blankPart] using h
  | cons c cs ih =>
    have hone : ∀ piece, piece = blankChar c ∨ piece = [c] →
        columnOf (as ++ piece) = columnOf (bs ++ [c]) := by
      rintro piece (rfl | rfl)
      · rw [columnOf_append_blankChar, columnOf_concat, columnOf_concat, h]
      · rw [columnOf_concat, columnOf_concat, h]
    rw [blankPart_cons, ← List.append_assoc, List.append_cons]
    apply ih
    apply hone
    split
    · exact .inl rfl
    · exact .inr rfl

/-- **A place has the same line and column before and after blanking.** -/
theorem locate_blankPart (before rest tail : List Char) :
    locate (blankPart lineComments .code before rest ++ tail)
        (blankPart lineComments .code before rest).length =
      ⟨before.count '\n' + 1, columnOf before⟩ := by
  have hcolumn : columnOf ([] ++ blankPart lineComments .code before rest) =
      columnOf ([] ++ before) := columnOf_append_blankPart .code before rest rfl
  rw [List.nil_append, List.nil_append] at hcolumn
  unfold locate
  rw [List.take_left]
  dsimp only
  rw [count_blankPart, hcolumn]

/-! ## What is left -/

/-- A character that stands for no character of a comment. -/
def IsVisible (c : Char) : Prop := c ≠ ' ' ∧ c ≠ '\n'

instance (c : Char) : Decidable (IsVisible c) := inferInstanceAs (Decidable (_ ∧ _))

/-- **A character that is left stands in the stylesheet**, and the scanner does not find it in a
comment. -/
theorem exists_split_of_blankFrom {c : Char} (hc : IsVisible c) {as bs : List Char}
    (h : blankFrom lineComments place source = as ++ c :: bs) :
    ∃ before rest, source = before ++ c :: rest ∧
      as = blankPart lineComments place before (c :: rest) ∧
      ((placeBehind lineComments place before (c :: rest)).step lineComments c rest.head?).2 =
        false := by
  induction source generalizing place as with
  | nil => cases as <;> cases h
  | cons d ds ih =>
    rw [blankFrom_cons] at h
    cases hcomment : (place.step lineComments d ds.head?).2 with
    | true =>
      rw [hcomment, if_pos rfl] at h
      -- the character is behind those that stand for `d`
      rcases List.append_eq_append_iff.1 h with ⟨more, rfl, hmore⟩ | ⟨more, hd, hmore⟩
      · obtain ⟨before, rest, rfl, rfl, hstep⟩ := ih hmore
        refine ⟨d :: before, rest, rfl, ?_, hstep⟩
        rw [blankPart_cons, hcomment]
        rfl
      · cases more with
        | nil =>
          rw [List.append_nil] at hd
          obtain ⟨before, rest, rfl, hnil, hstep⟩ := ih (hmore.symm.trans (List.nil_append _).symm)
          refine ⟨d :: before, rest, rfl, ?_, hstep⟩
          rw [blankPart_cons, hcomment, if_pos rfl, ← hd, ← hnil, List.append_nil]
        | cons e more =>
          obtain ⟨rfl, -⟩ := List.cons.inj hmore
          have hmem : c ∈ blankChar d := hd ▸ List.mem_append_right _ List.mem_cons_self
          rcases eq_of_mem_blankChar hmem with rfl | rfl
          · exact absurd rfl hc.1
          · exact absurd rfl hc.2
    | false =>
      rw [hcomment, if_neg Bool.false_ne_true, List.singleton_append] at h
      cases as with
      | nil =>
        obtain ⟨rfl, -⟩ := List.cons.inj h
        exact ⟨[], ds, rfl, rfl, hcomment⟩
      | cons a as =>
        obtain ⟨rfl, hrest⟩ := List.cons.inj h
        obtain ⟨before, rest, rfl, rfl, hstep⟩ := ih hrest
        refine ⟨d :: before, rest, rfl, ?_, hstep⟩
        rw [blankPart_cons, hcomment]
        rfl

/-- What is left at the beginning is the first character of the stylesheet. -/
theorem exists_cons_of_blankFrom {c : Char} (hc : IsVisible c) {tail : List Char}
    (h : blankFrom lineComments place source = c :: tail) :
    ∃ rest, source = c :: rest ∧ (place.step lineComments c rest.head?).2 = false ∧
      tail = blankFrom lineComments (place.step lineComments c rest.head?).1 rest := by
  obtain ⟨before, rest, rfl, hnil, hstep⟩ :=
    exists_split_of_blankFrom hc (h.trans (List.nil_append _).symm)
  have hbefore : before = [] := by
    have hlength := utf8Length_blankPart lineComments place before (c :: rest)
    rw [← hnil] at hlength
    exact eq_of_utf8Length_eq (List.prefix_refl before) List.nil_prefix hlength.symm
  subst hbefore
  rw [placeBehind] at hstep
  rw [List.nil_append, blankFrom_cons, hstep, if_neg Bool.false_ne_true] at h
  exact ⟨rest, rfl, hstep, (List.cons.inj h).2.symm⟩

/-- A word that is left stands in the stylesheet. -/
theorem exists_eq_append_of_blankFrom {word tail : List Char} (hword : ∀ c ∈ word, IsVisible c)
    (h : blankFrom lineComments place source = word ++ tail) : ∃ rest, source = word ++ rest := by
  induction word generalizing place source with
  | nil => exact ⟨source, rfl⟩
  | cons c word ih =>
    obtain ⟨hc, hword⟩ := List.forall_mem_cons.1 hword
    obtain ⟨rest, rfl, -, htail⟩ := exists_cons_of_blankFrom hc h
    obtain ⟨more, rfl⟩ := ih hword htail.symm
    exact ⟨more, rfl⟩

/-- What the scanner does not find in a comment is outside of comments. -/
theorem outside_or_inLiteral {c : Char} (hc : IsVisible c)
    (h : ((placeBehind lineComments .code before (c :: rest)).step lineComments c rest.head?).2 =
      false) :
    Outside lineComments before (c :: rest) ∨ InLiteral lineComments before (c :: rest) := by
  rw [outside_iff, inLiteral_iff]
  cases hplace : placeBehind lineComments .code before (c :: rest) with
  | code => exact .inl rfl
  | quoted q => exact .inr rfl
  | escaped q => exact .inr rfl
  | opening =>
    rw [hplace] at h
    cases h
  | block =>
    rw [hplace, Place.step] at h
    split at h <;> cases h
  | closing =>
    rw [hplace] at h
    cases h
  | line =>
    rw [hplace, Place.step, if_neg hc.2] at h
    cases h

/-! ## Statements -/

/-- An import statement with `rest` behind it: `@import`, white space, and what follows up to a
semicolon or the end of the line. -/
def IsStatement (statement rest : List Char) : Prop :=
  ∃ white body closing, statement = importWord ++ (white ++ (body ++ closing)) ∧ white ≠ [] ∧
    (∀ c ∈ white, isWhite c = true) ∧ (∀ c ∈ body, c ≠ ';' ∧ c ≠ '\n') ∧ Closes closing rest

theorem IsStatement.importWord_prefix {statement : List Char} (h : IsStatement statement rest) :
    importWord <+: statement := by
  obtain ⟨white, body, closing, rfl, -⟩ := h
  exact List.prefix_append ..

theorem drop_countWhile (p : Char → Bool) (cs : List Char) :
    cs.drop (countWhile p cs) = cs.dropWhile p := by
  calc cs.drop (cs.takeWhile p).length
      = (cs.takeWhile p ++ cs.dropWhile p).drop (cs.takeWhile p).length := by
        rw [List.takeWhile_append_dropWhile]
    _ = cs.dropWhile p := List.drop_left ..

/-- Up to a semicolon or a line break, and with the semicolon. -/
theorem exists_closing (cs : List Char) : ∃ closing tail,
    cs.dropWhile (fun c => c != ';' && c != '\n') = closing ++ tail ∧ Closes closing tail ∧
      closing.length =
        if (cs.dropWhile (fun c => c != ';' && c != '\n')).head? = some ';' then 1 else 0 := by
  cases hcs : cs.dropWhile (fun c => c != ';' && c != '\n') with
  | nil => exact ⟨[], [], rfl, .textEnd, rfl⟩
  | cons c tail =>
    have hc : (c != ';' && c != '\n') = false := by
      have := List.head?_dropWhile_not (fun c => c != ';' && c != '\n') cs
      rw [hcs] at this
      exact this
    by_cases hsemicolon : c = ';'
    · subst hsemicolon
      exact ⟨[';'], tail, rfl, .semicolon tail, rfl⟩
    · have hbreak : c = '\n' := by simpa [hsemicolon] using hc
      subst hbreak
      exact ⟨[], '\n' :: tail, rfl, .lineEnd tail, rfl⟩

/-- An import statement stands at the beginning of a text. -/
theorem exists_of_statementLength? {n : Nat} (h : statementLength? cs = some n) :
    ∃ statement tail,
      cs = statement ++ tail ∧ n = statement.length ∧ IsStatement statement tail := by
  unfold statementLength? at h
  split at h
  · rename_i hword
    obtain ⟨more, rfl⟩ := List.isPrefixOf_iff_prefix.1 hword
    dsimp only at h
    -- The length counts the word, the white space, the body and what closes it, in this order.
    rw [List.drop_left, ← List.drop_drop, drop_countWhile, drop_countWhile] at h
    split at h
    · cases h
    rename_i hwhite
    obtain ⟨closing, tail, htail, hcloses, hlength⟩ := exists_closing (more.dropWhile isWhite)
    rw [← hlength] at h
    refine ⟨importWord ++ (more.takeWhile isWhite ++
      ((more.dropWhile isWhite).takeWhile (fun c => c != ';' && c != '\n') ++ closing)), tail,
      ?_, ?_, _, _, closing, rfl, ?_, ?_, ?_, hcloses⟩
    · rw [List.append_assoc, List.append_assoc, List.append_assoc, ← htail,
        List.takeWhile_append_dropWhile, List.takeWhile_append_dropWhile]
    · rw [← Option.some.inj h, List.length_append, List.length_append, List.length_append,
        Nat.add_assoc, Nat.add_assoc]
      rfl
    · exact fun hnil => hwhite (congrArg List.length hnil)
    · exact fun c hc => List.mem_takeWhile_imp hc
    · intro c hc
      simpa using List.mem_takeWhile_imp hc
  · cases h

/-- A statement that is found is part of the text, and its place is where it begins. -/
theorem exists_of_mem_statementsFrom {skip place p : Nat} {statement : List Char}
    (h : (p, statement) ∈ statementsFrom skip place cs) :
    ∃ as bs, cs = as ++ (statement ++ bs) ∧ p = place + as.length ∧ IsStatement statement bs := by
  induction cs generalizing skip place with
  | nil => cases skip <;> cases h
  | cons c cs ih =>
    -- What is found behind the first character is found one place later.
    have hmore : ∀ skip, (p, statement) ∈ statementsFrom skip (place + 1) cs →
        ∃ as bs, c :: cs = as ++ (statement ++ bs) ∧ p = place + as.length ∧
          IsStatement statement bs := by
      intro skip hmem
      obtain ⟨as, bs, rfl, rfl, hword⟩ := ih hmem
      refine ⟨c :: as, bs, rfl, ?_, hword⟩
      rw [List.length_cons]
      omega
    cases skip with
    | succ skip => exact hmore skip h
    | zero =>
      rw [statementsFrom] at h
      split at h
      · rename_i n hn
        rcases List.mem_cons.1 h with heq | hmem
        · obtain ⟨found, tail, htext, rfl, hfound⟩ := exists_of_statementLength? hn
          rw [htext, List.take_left] at heq
          obtain ⟨rfl, rfl⟩ := Prod.mk.inj heq
          exact ⟨[], tail, htext, rfl, hfound⟩
        · exact hmore _ hmem
      · exact hmore _ h

/-- Statements are found from left to right. -/
theorem pairwise_statementsFrom (skip place : Nat) (cs : List Char) :
    (statementsFrom skip place cs).Pairwise (fun a b => a.1 < b.1) ∧
      ∀ found ∈ statementsFrom skip place cs, place ≤ found.1 := by
  induction cs generalizing skip place with
  | nil => cases skip <;> exact ⟨.nil, fun _ h => absurd h List.not_mem_nil⟩
  | cons c cs ih =>
    have hlater : ∀ skip, ∀ found ∈ statementsFrom skip (place + 1) cs, place < found.1 :=
      fun skip found hmem => (ih skip (place + 1)).2 found hmem
    cases skip with
    | succ skip => exact ⟨(ih skip _).1, fun found hmem => (hlater skip found hmem).le⟩
    | zero =>
      rw [statementsFrom]
      split
      · refine ⟨List.pairwise_cons.2 ⟨hlater _, (ih _ _).1⟩, fun found hmem => ?_⟩
        rcases List.mem_cons.1 hmem with rfl | hmem
        · exact Nat.le_refl _
        · exact (hlater _ found hmem).le
      · exact ⟨(ih _ _).1, fun found hmem => (hlater _ found hmem).le⟩

/-- An import statement of a stylesheet: the stylesheet goes on behind `before` with `@import`,
outside of all comments, and once its comments are blanked it goes on there with the text of the
statement. -/
structure IsFound (lineComments : Bool) (source before rest statement : List Char) : Prop where
  source_eq : source = before ++ rest
  word : importWord <+: rest
  outside : Outside lineComments before rest ∨ InLiteral lineComments before rest
  blanked : ∃ init tail, blankComments lineComments source = init ++ (statement ++ tail) ∧
    utf8Length init = utf8Length before ∧ IsStatement statement tail

/-- **What is found stands in the stylesheet**, outside of comments, in the same line and column. -/
theorem isFound_of_mem_statements {p : Nat} {statement : List Char}
    (h : (p, statement) ∈ statements (blankComments lineComments source)) :
    ∃ before rest, IsFound lineComments source before rest statement ∧
      utf8Length ((blankComments lineComments source).take p) = utf8Length before ∧
      locate (blankComments lineComments source) p = ⟨before.count '\n' + 1, columnOf before⟩ := by
  obtain ⟨as, bs, htext, hp, hstatement⟩ := exists_of_mem_statementsFrom h
  rw [Nat.zero_add] at hp
  obtain ⟨more, rfl⟩ := hstatement.importWord_prefix
  have hvisible : ∀ c ∈ importWord, IsVisible c := by decide
  have hword : importWord ++ more ++ bs = '@' :: (importWord.tail ++ more ++ bs) := rfl
  have hblank := htext
  rw [hword] at hblank
  obtain ⟨before, rest, rfl, rfl, hstep⟩ := exists_split_of_blankFrom (by decide) hblank
  -- the rest of the word stands behind the `@`
  have hrest := htext
  rw [blankComments, blankFrom_append, List.append_cancel_left_eq, List.append_assoc] at hrest
  obtain ⟨behind, hbehind⟩ := exists_eq_append_of_blankFrom hvisible hrest
  refine ⟨before, '@' :: rest, ⟨rfl, ⟨behind, hbehind.symm⟩, outside_or_inLiteral (by decide) hstep,
    _, bs, htext, utf8Length_blankPart .., hstatement⟩, ?_, ?_⟩
  · rw [htext, hp, List.take_left, utf8Length_blankPart]
  · rw [htext, hp, locate_blankPart]

/-! ## References -/

/-- A line and a column stand for the place of a text behind `before`, and for no other place. -/
structure PointsBehind (location : Location) (text before : List Char) : Prop where
  isPrefix : before <+: text
  line : location.line = before.count '\n' + 1
  column : location.column = columnOf before
  unique : ∀ other, other <+: text → location.line = other.count '\n' + 1 →
    location.column = columnOf other → other = before

/-- The line and the column behind a text stand for the place behind it. -/
theorem pointsBehind {before rest : List Char} :
    PointsBehind ⟨before.count '\n' + 1, columnOf before⟩ (before ++ rest) before where
  isPrefix := List.prefix_append ..
  line := rfl
  column := rfl
  unique _ hother hline hcolumn :=
    eq_of_columnOf_eq hother (List.prefix_append ..) (Nat.succ.inj hline).symm hcolumn.symm

/-- The specifiers of a statement that are reported. -/
def reportedSpecifiers (statement : List Char) : List (List Char) :=
  (specifiers (statement.drop importWord.length)).filter fun s => !isRemote s

/-- A statement refers to its specifiers that are not remote. -/
theorem specifier_statementImports (text : List Char) (place : Nat) (statement : List Char) :
    (statementImports text place statement).map Dependency.specifier =
      (reportedSpecifiers statement).map String.ofList := by
  rw [statementImports, List.map_map]
  rfl

/-- All references of a statement show its text and point to where it begins in the stylesheet. In a
text of less than `2 ^ 32` bytes, lines and columns have 32 bits. -/
structure PointsTo (source before statement : List Char) (d : Dependency) : Prop where
  statement : d.statement = some (shownStatement (String.ofList statement))
  location : ∃ l, d.location = some l ∧ PointsBehind l source before ∧ l.line < 2 ^ 32 ∧
    l.column < 2 ^ 32

/-- The references of a statement that is located rightly point to where it begins. -/
theorem pointsTo_of_mem_statementImports {p : Nat} {statement : List Char}
    (hsource : source = before ++ rest) (hword : importWord <+: rest)
    (hlength : utf8Length source < 2 ^ 32)
    (hlocate : locate text p = ⟨before.count '\n' + 1, columnOf before⟩) {d : Dependency}
    (hd : d ∈ statementImports text p statement) : PointsTo source before statement d := by
  obtain ⟨s, -, rfl⟩ := List.mem_map.1 hd
  obtain ⟨more, rfl⟩ := hword
  rw [hsource, utf8Length_append, utf8Length_append] at hlength
  have hbytes : utf8Length importWord = 7 := by decide
  have hline := count_lineBreak_le before
  have hcolumn := columnOf_le before
  refine ⟨rfl, _, rfl, ?_⟩
  rw [hlocate, hsource]
  refine ⟨pointsBehind, ?_, ?_⟩
  · show before.count '\n' + 1 < 2 ^ 32
    omega
  · show columnOf before < 2 ^ 32
    omega

/-- A later statement begins more bytes behind the beginning of the text. -/
theorem utf8Length_take_lt {p p' : Nat} {statement : List Char} (hlt : p < p')
    (h : (p', statement) ∈ statements text) :
    utf8Length (text.take p) < utf8Length (text.take p') := by
  obtain ⟨as, bs, htext, hplace, -⟩ := exists_of_mem_statementsFrom h
  have hle : p' ≤ text.length := by
    rw [htext, List.length_append, hplace]
    omega
  obtain ⟨more, hmore⟩ : text.take p <+: text.take p' := List.take_prefix_take_left hlt.le
  cases more with
  | nil =>
    have hlengths := congrArg List.length hmore
    rw [List.append_nil, List.length_take, List.length_take] at hlengths
    omega
  | cons c more =>
    rw [← hmore, utf8Length_append]
    exact Nat.lt_add_of_pos_right (utf8Length_pos more)

/-- **The references of a stylesheet point to its import statements.** They come in groups, one for
each statement and in their order. Those of a group have the specifiers of the statement, and share
its text and the place in the stylesheet where `@import` stands, outside of all comments. -/
theorem imports_located (lineComments : Bool) {source : List Char}
    (hlength : utf8Length source < 2 ^ 32) :
    ∃ groups : List (Nat × List Dependency),
      imports lineComments source = groups.flatMap Prod.snd ∧
      (groups.map Prod.fst).Pairwise (· < ·) ∧
      ∀ group ∈ groups, ∃ before rest statement,
        IsFound lineComments source before rest statement ∧ group.1 = utf8Length before ∧
        group.2.map Dependency.specifier = (reportedSpecifiers statement).map String.ofList ∧
        ∀ d ∈ group.2, PointsTo source before statement d := by
  let text := blankComments lineComments source
  refine ⟨(statements text).map fun found =>
    (utf8Length (text.take found.1), statementImports text found.1 found.2), ?_, ?_, ?_⟩
  · rw [List.flatMap_map]
    rfl
  · rw [List.map_map, List.pairwise_map]
    exact (pairwise_statementsFrom 0 0 text).1.imp_of_mem fun _ hb hlt => utf8Length_take_lt hlt hb
  · intro group hgroup
    obtain ⟨⟨p, statement⟩, hfound, rfl⟩ := List.mem_map.1 hgroup
    obtain ⟨before, rest, hisFound, hbytes, hlocate⟩ := isFound_of_mem_statements hfound
    exact ⟨before, rest, statement, hisFound, hbytes, specifier_statementImports .., fun d hd =>
      pointsTo_of_mem_statementImports hisFound.source_eq hisFound.word hlength hlocate hd⟩

/-- Statements behind a comment with a letter of two bytes and a line break, the first with a
comment in it. -/
def commentedSheet : List Char := "/* é\n */@import 'a',/**/'b';\n@import 'c';".toList

/-- The statements behind the comment are found where they stand in the stylesheet, in bytes. -/
theorem imports_located_commentedSheet :
    utf8Length commentedSheet < 2 ^ 32 ∧
      (imports false commentedSheet).map (fun d => (d.specifier, d.location)) =
        [("a", some ⟨2, 3⟩), ("b", some ⟨2, 3⟩), ("c", some ⟨3, 0⟩)] ∧
      ∀ d ∈ imports false commentedSheet, ∃ before rest statement,
        IsFound false commentedSheet before rest statement ∧
          PointsTo commentedSheet before statement d := by
  have hlength : utf8Length commentedSheet < 2 ^ 32 := by decide
  refine ⟨hlength, by decide, fun d hd => ?_⟩
  obtain ⟨groups, hgroups, -, hall⟩ := imports_located false hlength
  rw [hgroups] at hd
  obtain ⟨group, hgroup, hd⟩ := List.mem_flatMap.1 hd
  obtain ⟨before, rest, statement, hfound, -, -, hpoints⟩ := hall group hgroup
  exact ⟨before, rest, statement, hfound, hpoints d hd⟩

end RefGraph.Style
