import RefGraph.Proofs.Style.Written
import RefGraph.Proofs.Style.Blanking

/-!
# Import statements as they are written

An import statement is written as `@import`, white space, a list of items and a text on media. If no
semicolon and no line break stands in the list or in the text behind it, and no comment opens there,
then blanking leaves the statement as it is, and the reader finds it from its `@` to the semicolon
or to the end of the line.

* `Item.FitsLine`, `Statement`, `Statement.IsWritten`: statements that are found as a whole.
* `blankFrom_statement`: blanking leaves them.
* `statementsFrom_statement`: they are found, and the search goes on behind them.
* `statementImports_statement`: they refer to the contents of their items.
-/

namespace RefGraph.Style

variable {lineComments : Bool} {cs rest tail : List Char}

/-! ## Items on one line -/

/-- An item that stands on one line, in which no statement ends and no comment opens. -/
structure Item.FitsLine (i : Item) : Prop where
  semicolon : ';' ∉ i.content
  lineBreak : '\n' ∉ i.content
  backslash : i.quote ≠ none → '\\' ∉ i.content
  comment : i.quote = none → ¬ ['/', '*'] <:+: i.content ∧ ¬ ['/', '/'] <:+: i.content
  urlBreak : ∀ w ∈ i.url, '\n' ∉ w.1 ++ w.2

instance (i : Item) : Decidable i.FitsLine :=
  decidable_of_iff (';' ∉ i.content ∧ '\n' ∉ i.content ∧ (i.quote ≠ none → '\\' ∉ i.content) ∧
      (i.quote = none → ¬ ['/', '*'] <:+: i.content ∧ ¬ ['/', '/'] <:+: i.content) ∧
      ∀ w ∈ i.url, '\n' ∉ w.1 ++ w.2)
    ⟨fun ⟨semicolon, lineBreak, backslash, comment, urlBreak⟩ =>
      ⟨semicolon, lineBreak, backslash, comment, urlBreak⟩,
    fun h => ⟨h.semicolon, h.lineBreak, h.backslash, h.comment, h.urlBreak⟩⟩

theorem notMem_of_isWhite {white : List Char} (h : ∀ c ∈ white, isWhite c = true) {c : Char}
    (hc : isWhite c = false) : c ∉ white := by
  intro hmem
  rw [h c hmem] at hc
  cases hc

/-- White space stays as it is. -/
theorem blankFrom_white {white : List Char} (h : ∀ c ∈ white, isWhite c = true) :
    blankFrom lineComments .code (white ++ rest) = white ++ blankFrom lineComments .code rest :=
  blankFrom_plain (notMem_of_isWhite h (by decide)) (notMem_of_isWhite h (by decide))
    (notMem_of_isWhite h (by decide))

theorem blankFrom_inner {i : Item} (hi : i.FitsLine)
    (hstop : i.quote = none → ∀ c ∈ tail.head?, isWordChar c = false) :
    blankFrom lineComments .code (i.inner ++ tail) =
      i.inner ++ blankFrom lineComments .code tail := by
  unfold Item.inner
  split
  · rename_i q hq
    obtain ⟨hquote, hcontent⟩ := i.quoted q hq
    exact blankFrom_quote hquote hcontent (hi.backslash (by simp [hq])) hi.lineBreak
  · rename_i hq
    have hword := i.plain hq
    obtain ⟨hblock, hline⟩ := hi.comment hq
    apply blankFrom_code
    apply opensNone_of_infix _ _ hblock hline
    · -- what ends a word is no part of an opening
      intro c hc
      have hc := hstop hq c hc
      constructor
      · rintro rfl
        exact absurd hc (by decide)
      · rintro rfl
        exact absurd hc (by decide)
    · exact fun hmem => (isWordChar_iff.1 (hword _ hmem)).1 rfl
    · exact fun hmem => (isWordChar_iff.1 (hword _ hmem)).2.1 rfl

/-- An item is kept. -/
theorem blankFrom_item {i : Item} (hi : i.FitsLine) (hstop : i.StopsAt tail) :
    blankFrom lineComments .code (i.text ++ tail) =
      i.text ++ blankFrom lineComments .code tail := by
  unfold Item.text
  cases hurl : i.url with
  | none => exact blankFrom_inner hi fun hq => hstop hq hurl
  | some w =>
    obtain ⟨before, after⟩ := w
    obtain ⟨hbefore, hafter⟩ := List.forall_mem_append.1 (i.white _ hurl)
    have hinner : blankFrom lineComments .code (i.inner ++ (after ++ ([')'] ++ tail))) =
        i.inner ++ blankFrom lineComments .code (after ++ ([')'] ++ tail)) :=
      blankFrom_inner hi fun _ => stop_of_white hafter (by decide)
    simp only [List.append_assoc]
    rw [blankFrom_plain (by decide) (by decide) (by decide), blankFrom_white hbefore, hinner,
      blankFrom_white hafter, blankFrom_plain (by decide) (by decide) (by decide)]

/-- An item on one line holds neither a semicolon nor a line break. -/
theorem Item.FitsLine.notMem_text {i : Item} (hi : i.FitsLine) : ';' ∉ i.text ∧ '\n' ∉ i.text := by
  have hinner : ';' ∉ i.inner ∧ '\n' ∉ i.inner := by
    unfold Item.inner
    split
    · rename_i q hq
      have hne : q ≠ ';' ∧ q ≠ '\n' := by
        rcases (i.quoted q hq).1 with rfl | rfl <;> decide
      simp [hi.semicolon, hi.lineBreak, Ne.symm hne.1, Ne.symm hne.2]
    · exact ⟨hi.semicolon, hi.lineBreak⟩
  unfold Item.text
  split
  · rename_i before after hurl
    have hsemicolon : ';' ∉ before ++ after := notMem_of_isWhite (i.white _ hurl) (by decide)
    have hbreak : '\n' ∉ before ++ after := hi.urlBreak _ hurl
    rw [List.mem_append, not_or] at hsemicolon hbreak
    simp [hinner, hsemicolon, hbreak]
  · exact hinner

/-! ## Lists on one line -/

section ItemList

variable {list : ItemList}

/-- A list on one line stays as it is. -/
theorem blankFrom_list (hitems : ∀ i ∈ list.items, i.FitsLine) (hstop : list.last.StopsAt tail) :
    blankFrom lineComments .code (list.text ++ tail) =
      list.text ++ blankFrom lineComments .code tail := by
  induction list with
  | one item => exact blankFrom_item (hitems item List.mem_cons_self) hstop
  | more item before after hgap others ih =>
    obtain ⟨hbefore, hafter⟩ := List.forall_mem_append.1 hgap
    have htext : ∀ rest, (ItemList.more item before after hgap others).text ++ rest =
        item.text ++ (before ++ ([','] ++ (after ++ (others.text ++ rest)))) := by
      simp [ItemList.text]
    have hitem : item.StopsAt (before ++ ([','] ++ (after ++ (others.text ++ tail)))) :=
      stopsAt_comma item hbefore
    rw [htext, htext, blankFrom_item (hitems item List.mem_cons_self) hitem,
      blankFrom_white hbefore, blankFrom_plain (by decide) (by decide) (by decide),
      blankFrom_white hafter,
      ih (fun i hi => hitems i (List.mem_cons_of_mem _ hi)) hstop]

/-- A list on one line holds neither a semicolon nor a line break. -/
theorem notMem_text (hitems : ∀ i ∈ list.items, i.FitsLine)
    (hgaps : ∀ gap ∈ list.gaps, '\n' ∉ gap) :
    ';' ∉ list.text ∧ '\n' ∉ list.text := by
  induction list with
  | one item => exact (hitems item List.mem_cons_self).notMem_text
  | more item before after hgap others ih =>
    have hitem := (hitems item List.mem_cons_self).notMem_text
    have hothers := ih (fun i hi => hitems i (List.mem_cons_of_mem _ hi)) fun gap h =>
      hgaps gap (List.mem_cons_of_mem _ (List.mem_cons_of_mem _ h))
    have hbefore : '\n' ∉ before := hgaps before List.mem_cons_self
    have hafter : '\n' ∉ after := hgaps after (List.mem_cons_of_mem _ List.mem_cons_self)
    have hsemicolon : ';' ∉ before ++ after := notMem_of_isWhite hgap (by decide)
    rw [List.mem_append, not_or] at hsemicolon
    simp [ItemList.text, hitem, hothers, hbefore, hafter, hsemicolon]

end ItemList

/-! ## Statements -/

/-- An import statement less the semicolon behind it: the white space behind `@import`, the list of
items, and what stands behind it. -/
structure Statement where
  blank : List Char
  list : ItemList
  media : List Char

/-- How a statement is written. -/
def Statement.text (s : Statement) : List Char :=
  importWord ++ (s.blank ++ (s.list.text ++ s.media))

/-- A statement that is found as a whole: its list stands on one line, and the text behind the list
holds no quotation mark, no slash and no end of a statement, and continues the list neither with a
comma nor with a parenthesis. -/
structure Statement.IsWritten (s : Statement) : Prop where
  nonempty : s.blank ≠ []
  white : ∀ c ∈ s.blank, isWhite c = true
  items : ∀ i ∈ s.list.items, i.FitsLine
  gaps : ∀ gap ∈ s.list.gaps, '\n' ∉ gap
  media : ∀ c ∈ s.media, c ≠ '"' ∧ c ≠ '\'' ∧ c ≠ ';' ∧ c ≠ '/' ∧ c ≠ '\n'
  ends : EndsList s.media
  stops : s.list.last.StopsAt s.media

instance (s : Statement) : Decidable s.IsWritten :=
  decidable_of_iff (s.blank ≠ [] ∧ (∀ c ∈ s.blank, isWhite c = true) ∧
      (∀ i ∈ s.list.items, i.FitsLine) ∧ (∀ gap ∈ s.list.gaps, '\n' ∉ gap) ∧
      (∀ c ∈ s.media, c ≠ '"' ∧ c ≠ '\'' ∧ c ≠ ';' ∧ c ≠ '/' ∧ c ≠ '\n') ∧
      EndsList s.media ∧ s.list.last.StopsAt s.media)
    ⟨fun ⟨nonempty, white, items, gaps, media, ends, stops⟩ =>
      ⟨nonempty, white, items, gaps, media, ends, stops⟩,
    fun h => ⟨h.nonempty, h.white, h.items, h.gaps, h.media, h.ends, h.stops⟩⟩

namespace Statement.IsWritten

variable {s : Statement}

/-- What ends a statement ends its last word. -/
theorem stopsAt (h : s.IsWritten) (hrest : ∀ c ∈ rest.head?, isWordChar c = false) :
    s.list.last.StopsAt (s.media ++ rest) := by
  intro hquote hurl c hc
  cases hmedia : s.media with
  | nil =>
    rw [hmedia, List.nil_append] at hc
    exact hrest c hc
  | cons d media =>
    rw [hmedia] at hc
    exact h.stops hquote hurl c (by rw [hmedia]; exact hc)

/-- The body of a statement that is written does not end it. -/
theorem notMem_body (h : s.IsWritten) : ∀ c ∈ s.list.text ++ s.media, c ≠ ';' ∧ c ≠ '\n' := by
  obtain ⟨hsemicolon, hbreak⟩ := notMem_text h.items h.gaps
  intro c hc
  rcases List.mem_append.1 hc with hc | hc
  · constructor
    · rintro rfl
      exact hsemicolon hc
    · rintro rfl
      exact hbreak hc
  · obtain ⟨-, -, hsemicolon, -, hbreak⟩ := h.media c hc
    exact ⟨hsemicolon, hbreak⟩

end Statement.IsWritten

section Statement

variable {s : Statement}

/-- **Blanking leaves a statement as it is.** -/
theorem blankFrom_statement (h : s.IsWritten) (hrest : ∀ c ∈ rest.head?, isWordChar c = false) :
    blankFrom lineComments .code (s.text ++ rest) =
      s.text ++ blankFrom lineComments .code rest := by
  have hmedia : blankFrom lineComments .code (s.media ++ rest) =
      s.media ++ blankFrom lineComments .code rest :=
    blankFrom_plain (fun hc => (h.media _ hc).1 rfl) (fun hc => (h.media _ hc).2.1 rfl)
      (fun hc => (h.media _ hc).2.2.2.1 rfl)
  simp only [Statement.text, List.append_assoc]
  rw [blankFrom_plain (by decide) (by decide) (by decide), blankFrom_white h.white,
    blankFrom_list h.items (h.stopsAt hrest), hmedia]

/-- How a statement is closed: with a semicolon, or without one at the end of the line or of the
text. -/
inductive Closes : (closing rest : List Char) → Prop where
  | semicolon (rest : List Char) : Closes [';'] rest
  | lineEnd (rest : List Char) : Closes [] ('\n' :: rest)
  | textEnd : Closes [] []

/-- A statement ends with a semicolon, or at the end of the line. -/
theorem Closes.head {closing : List Char} (h : Closes closing rest) :
    ∀ c ∈ (closing ++ rest).head?, c = ';' ∨ c = '\n' := by
  intro c hc
  cases h with
  | semicolon => exact .inl (Option.some.inj hc).symm
  | lineEnd => exact .inr (Option.some.inj hc).symm
  | textEnd => cases hc

theorem Closes.head_closing {closing : List Char} (h : Closes closing rest) :
    ∀ c ∈ closing.head?, c = ';' := by
  intro c hc
  cases h with
  | semicolon => exact (Option.some.inj hc).symm
  | lineEnd => cases hc
  | textEnd => cases hc

/-- A statement reaches up to the semicolon or the end of the line. -/
theorem statementLength?_statement (h : s.IsWritten) {closing : List Char}
    (hclosing : Closes closing rest) :
    statementLength? (s.text ++ closing ++ rest) = some (s.text ++ closing).length := by
  have hbody : ∀ c ∈ s.list.text ++ s.media, (c != ';' && c != '\n') = true := by
    intro c hc
    simpa using h.notMem_body c hc
  have hend : ∀ c ∈ (closing ++ rest).head?, (c != ';' && c != '\n') = false := by
    intro c hc
    rcases hclosing.head c hc with rfl | rfl <;> decide
  have htext : s.text ++ closing ++ rest =
      importWord ++ (s.blank ++ (s.list.text ++ s.media ++ (closing ++ rest))) := by
    simp only [Statement.text, List.append_assoc]
  -- The three parts of the length: the white space, the body, and the semicolon if there is one.
  have hwhite : countWhile isWhite (s.blank ++ (s.list.text ++ s.media ++ (closing ++ rest))) =
      s.blank.length := by
    obtain ⟨c, hc, hstop⟩ := exists_head_textOfList s.list
    unfold countWhile
    rw [takeWhile_append_of_stop h.white]
    intro d hd
    rw [List.append_assoc, List.head?_append, Option.mem_def.1 hc] at hd
    rw [← Option.some.inj hd, hstop]
  have hcount : countWhile (fun c => c != ';' && c != '\n')
      (s.list.text ++ s.media ++ (closing ++ rest)) = (s.list.text ++ s.media).length := by
    unfold countWhile
    rw [takeWhile_append_of_stop hbody hend]
  have hdrop : (s.blank ++ (s.list.text ++ s.media ++ (closing ++ rest))).drop
      (s.blank.length + (s.list.text ++ s.media).length) = closing ++ rest := by
    rw [← List.append_assoc, ← List.length_append, List.drop_left]
  have hsemicolon : (if (closing ++ rest).head? = some ';' then 1 else 0) = closing.length := by
    cases hclosing with
    | semicolon => rfl
    | lineEnd => rfl
    | textEnd => rfl
  have hne : s.blank.length ≠ 0 := fun hzero => h.nonempty (List.length_eq_zero_iff.1 hzero)
  rw [htext]
  unfold statementLength?
  rw [if_pos (List.isPrefixOf_iff_prefix.2 (List.prefix_append ..)), List.drop_left]
  dsimp only
  rw [hwhite, List.drop_left, hcount, hdrop, hsemicolon, if_neg hne, Statement.text]
  simp only [List.length_append, Nat.add_assoc]

/-- Characters of a statement that was read are skipped. -/
theorem statementsFrom_skip (cs rest : List Char) (place : Nat) :
    statementsFrom cs.length place (cs ++ rest) = statementsFrom 0 (place + cs.length) rest := by
  induction cs generalizing place with
  | nil => rfl
  | cons c cs ih =>
    rw [List.length_cons, List.cons_append, statementsFrom, ih, Nat.add_assoc, Nat.add_comm 1]

/-- Where no `@` stands, no statement begins. -/
theorem statementsFrom_append (h : '@' ∉ cs) (place : Nat) :
    statementsFrom 0 place (cs ++ rest) = statementsFrom 0 (place + cs.length) rest := by
  induction cs generalizing place with
  | nil => rfl
  | cons c cs ih =>
    rw [List.mem_cons, not_or] at h
    have hnone : statementLength? (c :: (cs ++ rest)) = none := by
      unfold statementLength?
      rw [if_neg]
      intro hword
      obtain ⟨more, hmore⟩ := List.isPrefixOf_iff_prefix.1 hword
      exact h.1 (List.cons.inj hmore).1
    rw [List.cons_append, statementsFrom, hnone]
    dsimp only
    rw [ih h.2, List.length_cons, Nat.add_assoc, Nat.add_comm 1]

/-- **A statement is found**, and the search goes on behind it. -/
theorem statementsFrom_statement (h : s.IsWritten) {closing : List Char}
    (hclosing : Closes closing rest) (place : Nat) :
    statementsFrom 0 place (s.text ++ closing ++ rest) =
      (place, s.text ++ closing) ::
        statementsFrom 0 (place + (s.text ++ closing).length) rest := by
  have hlength := statementLength?_statement h hclosing
  obtain ⟨c, cs, hcs⟩ : ∃ c cs, s.text ++ closing = c :: cs := ⟨_, _, rfl⟩
  rw [hcs] at hlength ⊢
  rw [List.cons_append] at hlength ⊢
  rw [statementsFrom, hlength]
  dsimp only
  rw [← List.cons_append, List.take_left, List.length_cons, Nat.add_sub_cancel, statementsFrom_skip,
    Nat.add_assoc, Nat.add_comm 1]

/-- The reference to the content of an item of a statement that begins at a given place. -/
def Item.dependency (statement : List Char) (location : Location) (i : Item) : Dependency :=
  { specifier := String.ofList i.content
    kind := .style
    statement := some (shownStatement (String.ofList statement))
    location := some location }

/-- The items of a list whose contents are no addresses on the network. -/
def ItemList.localItems (list : ItemList) : List Item :=
  list.items.filter fun i => !isRemote i.content

theorem ItemList.localItems_eq {list : ItemList}
    (h : ∀ i ∈ list.items, isRemote i.content = false) : list.localItems = list.items := by
  apply List.filter_eq_self.2
  intro i hi
  rw [h i hi]
  rfl

/-- **A statement refers to the contents of its items**, addresses on the network left out. -/
theorem statementImports_statement (h : s.IsWritten) {closing : List Char}
    (hclosing : Closes closing rest) (text : List Char) (place : Nat) :
    statementImports text place (s.text ++ closing) =
      s.list.localItems.map (Item.dependency (s.text ++ closing) (locate text place)) := by
  have hdrop : (s.text ++ closing).drop importWord.length =
      s.blank ++ (s.list.text ++ (s.media ++ closing)) := by
    rw [Statement.text, List.append_assoc, List.drop_left]
    simp only [List.append_assoc]
  have hstop : s.list.last.StopsAt (s.media ++ closing) := by
    apply h.stopsAt
    intro c hc
    rw [hclosing.head_closing c hc]
    decide
  -- No further item stands behind the list: the media text and the closing begin with no comma.
  have hends : EndsList (s.media ++ closing) := by
    intro c hc
    rw [List.dropWhile_append] at hc
    split at hc
    · -- nothing but white space stands before the end
      have hclosed : ∀ d ∈ (closing.dropWhile isWhite).head?, d = ';' := by
        intro d hd
        cases hclosing with
        | semicolon => exact (Option.some.inj hd).symm
        | lineEnd => cases hd
        | textEnd => cases hd
      rw [hclosed c hc]
      decide
    · rename_i hne
      rw [List.isEmpty_iff] at hne
      obtain ⟨d, ds, hds⟩ := List.exists_cons_of_ne_nil hne
      apply h.ends c
      rw [hds] at hc ⊢
      exact hc
  unfold statementImports
  rw [hdrop, specifiers_text h.white hstop hends, List.filter_map, List.map_map]
  rfl

end Statement

end RefGraph.Style
