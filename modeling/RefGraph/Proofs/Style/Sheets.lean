import RefGraph.Proofs.Style.Blanked
import RefGraph.Proofs.Style.Statements

/-!
# Stylesheets of import statements

The references of a stylesheet are the contents of the items of its statements, in the order in
which they are written. Two kinds of stylesheets are looked at, whether or not comments to the end
of the line are known: one statement with any white space in it, and lines each of which is a
statement, a block comment or white space.

The white space behind `@import` and behind the list may hold line breaks. Around the commas it may
not: a statement ends at the end of the line on which its list begins, unless a semicolon ends it
before. Without white space behind `@import` there is no statement.

* `imports_statement`, `imports_list`: the references of one statement.
* `imports_brokenList`: a line break behind a comma, or no white space behind `@import`.
* `Line`, `sheet`: lines, and the stylesheet that they make.
* `flatMap_statementsFrom_sheet`: the statements of its lines are found one after the other.
* `imports_sheet`, `imports_lines`: its references, with and without addresses on the network.
-/

namespace RefGraph.Style

variable {lineComments : Bool}

/-! ## One statement -/

section Alone

variable {after white : List Char} {list : ItemList}

/-- Behind a list the statement ends at the first line break, or else at the semicolon. -/
theorem exists_closes (hafter : ∀ c ∈ after, isWhite c = true) :
    ∃ media closing rest, after ++ [';'] = media ++ closing ++ rest ∧
      (∀ c ∈ media, isWhite c = true ∧ c ≠ '\n') ∧ Closes closing rest ∧
      ∀ c ∈ closing ++ rest, isWhite c = true ∨ c = ';' := by
  induction after with
  | nil =>
    refine ⟨[], [';'], [], rfl, fun c hc => absurd hc List.not_mem_nil, .semicolon [], ?_⟩
    intro c hc
    exact .inr (List.mem_singleton.1 hc)
  | cons c after ih =>
    obtain ⟨media, closing, rest, htext, hmedia, hclosing, hrest⟩ :=
      ih fun d hd => hafter d (List.mem_cons_of_mem _ hd)
    -- The first line break closes the statement, whatever stands behind it.
    by_cases hc : c = '\n'
    · subst hc
      refine ⟨[], [], '\n' :: (after ++ [';']), rfl, fun d hd => absurd hd List.not_mem_nil,
        .lineEnd _, ?_⟩
      intro d hd
      rcases List.mem_cons.1 hd with rfl | hd
      · exact .inl (hafter _ List.mem_cons_self)
      · rcases List.mem_append.1 hd with hd | hd
        · exact .inl (hafter d (List.mem_cons_of_mem _ hd))
        · exact .inr (List.mem_singleton.1 hd)
    · refine ⟨c :: media, closing, rest, ?_, ?_, hclosing, hrest⟩
      · rw [List.cons_append, htext]
        rfl
      · intro d hd
        rcases List.mem_cons.1 hd with rfl | hd
        · exact ⟨hafter d List.mem_cons_self, hc⟩
        · exact hmedia d hd

/-- A list with nothing but white space around it makes a statement. -/
theorem isWritten_of_white (hne : white ≠ []) (hwhite : ∀ c ∈ white, isWhite c = true)
    (hitems : ∀ i ∈ list.items, i.FitsLine) (hgaps : ∀ gap ∈ list.gaps, '\n' ∉ gap)
    {media : List Char} (hmedia : ∀ c ∈ media, isWhite c = true ∧ c ≠ '\n') :
    Statement.IsWritten ⟨white, list, media⟩ := by
  refine ⟨hne, hwhite, hitems, hgaps, ?_, ?_, ?_⟩
  · intro c hc
    obtain ⟨hcwhite, hcbreak⟩ := hmedia c hc
    refine ⟨?_, ?_, ?_, ?_, hcbreak⟩ <;> rintro rfl <;> exact absurd hcwhite (by decide)
  · -- all of it is white space, so that nothing comes behind
    intro c hc
    rw [List.dropWhile_eq_nil_iff.2 fun d hd => (hmedia d hd).1] at hc
    cases hc
  · intro _ _ c hc
    rw [isWordChar, (hmedia c (List.mem_of_mem_head? hc)).1]
    simp

/-- A statement alone in a stylesheet refers to the contents of its items. -/
theorem imports_statement {s : Statement} (hs : s.IsWritten) {closing rest : List Char}
    (hclosing : Closes closing rest)
    (hrest : ∀ c ∈ closing ++ rest, isWhite c = true ∨ c = ';') (lineComments : Bool) :
    imports lineComments (s.text ++ (closing ++ rest)) =
      s.list.localItems.map (Item.dependency (s.text ++ closing) ⟨1, 0⟩) := by
  have hstays : ∀ c ∈ closing ++ rest, c ≠ '"' ∧ c ≠ '\'' ∧ c ≠ '/' ∧ c ≠ '@' := by
    intro c hc
    rcases hrest c hc with hcwhite | rfl
    · refine ⟨?_, ?_, ?_, ?_⟩ <;> rintro rfl <;> exact absurd hcwhite (by decide)
    · decide
  have hstop : ∀ c ∈ (closing ++ rest).head?, isWordChar c = false := by
    intro c hc
    rcases hclosing.head c hc with rfl | rfl <;> decide
  have hend : blankFrom lineComments .code (closing ++ rest ++ []) = closing ++ rest ++ [] :=
    blankFrom_plain (fun hc => (hstays _ hc).1 rfl) (fun hc => (hstays _ hc).2.1 rfl)
      (fun hc => (hstays _ hc).2.2.1 rfl)
  have hnone : statementsFrom 0 (0 + (s.text ++ closing).length) (rest ++ []) = [] :=
    statementsFrom_append (fun hc => (hstays _ (List.mem_append_right _ hc)).2.2.2 rfl) _
  rw [List.append_nil] at hend hnone
  rw [imports, blankComments, blankFrom_statement hs hstop, hend, ← List.append_assoc]
  dsimp only
  rw [statements, statementsFrom_statement hs hclosing, hnone, List.flatMap_cons, List.flatMap_nil,
    List.append_nil, statementImports_statement hs hclosing]
  rfl

/-- The import of a stylesheet and of one whose name begins with `http`. -/
def importedSheets : ItemList :=
  .more { content := ['a'] } [] [' '] (by decide)
    (.one { content := ['h', 't', 't', 'p', 'd'], quote := some '\'' })

/-- That import as a statement. -/
def importedSheetsText : List Char := importWord ++ ([' '] ++ (importedSheets.text ++ [';']))

/-- Of the two only the first one is found. -/
example : (imports false importedSheetsText).map (·.specifier) = ["a"] := by decide

/-- **The items of a list are found in their order**, whatever white space stands around the commas
and behind the list, unless a line break stands at a comma. -/
theorem imports_list (lineComments : Bool) (hne : white ≠ [])
    (hwhite : ∀ c ∈ white, isWhite c = true) (hafter : ∀ c ∈ after, isWhite c = true)
    (hitems : ∀ i ∈ list.items, i.FitsLine ∧ isRemote i.content = false)
    (hgaps : ∀ gap ∈ list.gaps, '\n' ∉ gap) :
    (imports lineComments (importWord ++ (white ++ (list.text ++ (after ++ [';']))))).map
      (·.specifier) = list.items.map fun i => String.ofList i.content := by
  obtain ⟨media, closing, rest, hafterText, hmedia, hclosing, hrest⟩ := exists_closes hafter
  have hs := isWritten_of_white hne hwhite (fun i hi => (hitems i hi).1) hgaps hmedia
  have hsource : importWord ++ (white ++ (list.text ++ (after ++ [';']))) =
      Statement.text ⟨white, list, media⟩ ++ (closing ++ rest) := by
    rw [hafterText]
    simp only [Statement.text, List.append_assoc]
  rw [hsource, imports_statement hs hclosing hrest, List.map_map]
  dsimp only
  rw [ItemList.localItems_eq fun i hi => (hitems i hi).2]
  rfl

/-- `'a'` and `"b//c"`, with a tabulator before the comma between them. -/
def tabbedList : ItemList :=
  .more { content := ['a'], quote := some '\'' } ['\t'] [' ', ' '] (by decide)
    (.one { content := ['b', '/', '/', 'c'], quote := some '"' })

/-- Its items are found behind a line break, the last one before a semicolon on the next line. -/
theorem imports_list_tabbed :
    ((∀ i ∈ tabbedList.items, i.FitsLine ∧ isRemote i.content = false) ∧
        ∀ gap ∈ tabbedList.gaps, '\n' ∉ gap) ∧
      (imports true (importWord ++ (['\n', ' '] ++ (tabbedList.text ++ (['\n'] ++ [';']))))).map
        (·.specifier) = ["a", "b//c"] := by
  have hitems : ∀ i ∈ tabbedList.items, i.FitsLine ∧ isRemote i.content = false := by decide
  have hgaps : ∀ gap ∈ tabbedList.gaps, '\n' ∉ gap := by decide
  refine ⟨⟨hitems, hgaps⟩, ?_⟩
  rw [imports_list true (by decide) (by decide) (by decide) hitems hgaps]
  decide

/-- `'a'` and `'b'` on lines of their own. -/
def brokenList : ItemList :=
  .more { content := ['a'], quote := some '\'' } [] ['\n'] (by decide)
    (.one { content := ['b'], quote := some '\'' })

/-- Of a list with a line break behind a comma only the items before it are found, and of a list
right behind `@import` none. -/
theorem imports_brokenList :
    (imports true (importWord ++ ([' '] ++ (brokenList.text ++ [';'])))).map (·.specifier) ≠
        brokenList.items.map (fun i => String.ofList i.content) ∧
      (imports true (importWord ++ ([] ++ (tabbedList.text ++ [';'])))).map (·.specifier) ≠
        tabbedList.items.map (fun i => String.ofList i.content) := by
  decide

end Alone

/-! ## Lines -/

/-- A line of a stylesheet: a block comment, a statement with its semicolon, or white space. -/
inductive Line where
  | comment (inside : List Char)
  | statement (s : Statement)
  | blank (white : List Char)

/-- How a line is written. -/
def Line.text : Line → List Char
  | comment inside => commentText inside
  | statement s => s.text ++ [';']
  | blank white => white

/-- A line that holds what it is made for, and no line break. -/
inductive Line.IsWritten : Line → Prop where
  | comment {inside : List Char} (unclosed : ¬ ['*', '/'] <:+: inside) (lineBreak : '\n' ∉ inside) :
      IsWritten (.comment inside)
  | statement {s : Statement} (written : s.IsWritten) (lineBreak : '\n' ∉ s.blank) :
      IsWritten (.statement s)
  | blank {white : List Char} (isBlank : ∀ c ∈ white, isWhite c = true) (lineBreak : '\n' ∉ white) :
      IsWritten (.blank white)

instance : (line : Line) → Decidable line.IsWritten
  | .comment inside =>
    decidable_of_iff (¬ ['*', '/'] <:+: inside ∧ '\n' ∉ inside)
      ⟨fun h => .comment h.1 h.2, fun h => by cases h; constructor <;> assumption⟩
  | .statement s =>
    decidable_of_iff (s.IsWritten ∧ '\n' ∉ s.blank)
      ⟨fun h => .statement h.1 h.2, fun h => by cases h; constructor <;> assumption⟩
  | .blank white =>
    decidable_of_iff ((∀ c ∈ white, isWhite c = true) ∧ '\n' ∉ white)
      ⟨fun h => .blank h.1 h.2, fun h => by cases h; constructor <;> assumption⟩

/-- The items of a line. -/
def Line.items : Line → List Item
  | comment _ => []
  | statement s => s.list.items
  | blank _ => []

/-- The references of the line of a given number, where it begins with its statement. -/
def Line.dependencies (number : Nat) (line : Line) : List Dependency :=
  line.items.map (Item.dependency line.text ⟨number, 0⟩)

/-- The stylesheet that lines make, with line breaks between them. -/
def sheet (lines : List Line) : List Char := List.intercalate ['\n'] (lines.map Line.text)

/-! ### Blanking -/

/-- What is left of a line when comments are blanked. -/
def Line.blanked : Line → List Char
  | comment inside => List.replicate (utf8Length (commentText inside)) ' '
  | statement s => s.text ++ [';']
  | blank white => white

/-- A line that is written is blanked by itself. -/
theorem blankFrom_line {line : Line} (h : line.IsWritten) (rest : List Char) :
    blankFrom lineComments .code (line.text ++ rest) =
      line.blanked ++ blankFrom lineComments .code rest := by
  cases h with
  | comment unclosed lineBreak => exact blankFrom_comment unclosed lineBreak
  | statement written lineBreak =>
    rw [Line.text, Line.blanked, List.append_assoc, blankFrom_statement written,
      blankFrom_plain (by decide) (by decide) (by decide), List.append_assoc]
    intro c hc
    rw [← Option.some.inj hc]
    decide
  | blank isBlank lineBreak => exact blankFrom_white isBlank

/-- The lines of a stylesheet are blanked one by one. -/
theorem blankFrom_sheet {lines : List Line} (h : ∀ line ∈ lines, line.IsWritten) :
    blankFrom lineComments .code (sheet lines) =
      List.intercalate ['\n'] (lines.map Line.blanked) := by
  unfold sheet
  induction lines with
  | nil => rfl
  | cons line lines ih =>
    have hline := h line List.mem_cons_self
    cases lines with
    | nil =>
      have hone : blankFrom lineComments .code (line.text ++ []) = _ := blankFrom_line hline []
      rw [List.append_nil] at hone
      rw [List.map_singleton, List.map_singleton, List.intercalate_singleton,
        List.intercalate_singleton, hone]
      exact List.append_nil _
    | cons next lines =>
      rw [List.map_cons, List.map_cons, List.intercalate_cons_cons, List.append_assoc,
        blankFrom_line hline, blankFrom_plain (by decide) (by decide) (by decide), ← List.map_cons,
        ih fun l hl => h l (List.mem_cons_of_mem _ hl)]
      rw [List.map_cons, List.map_cons, List.map_cons, List.intercalate_cons_cons,
        List.append_assoc]

/-! ### Places -/

theorem lineBreak_notMem_blanked {line : Line} (h : line.IsWritten) : '\n' ∉ line.blanked := by
  cases h with
  | comment unclosed lineBreak =>
    intro hmem
    exact absurd (List.eq_of_mem_replicate hmem) (by decide)
  | @statement s written lineBreak =>
    intro hmem
    rcases List.mem_append.1 hmem with hmem | hmem
    · rcases List.mem_append.1 hmem with hmem | hmem
      · exact absurd hmem (by decide)
      · rcases List.mem_append.1 hmem with hmem | hmem
        · exact lineBreak hmem
        · exact (written.notMem_body _ hmem).2 rfl
    · exact absurd hmem (by decide)
  | blank isBlank lineBreak => exact lineBreak

/-- The place behind some lines is at the beginning of the line after them. -/
theorem locate_append {before : List Char} (h : columnOf before = 0) (rest : List Char) :
    locate (before ++ rest) before.length = ⟨before.count '\n' + 1, 0⟩ := by
  unfold locate
  rw [List.take_left]
  dsimp only
  rw [h]

theorem columnOf_concat_lineBreak (cs : List Char) : columnOf (cs ++ ['\n']) = 0 := by
  unfold columnOf
  rw [List.reverse_concat, List.takeWhile_cons_of_neg (by decide)]
  rfl

/-! ### Statements -/

/-- The references of a line, addresses on the network left out. -/
def Line.localDependencies (number : Nat) : Line → List Dependency
  | comment _ => []
  | statement s => s.list.localItems.map (Item.dependency (s.text ++ [';']) ⟨number, 0⟩)
  | blank _ => []

/-- Behind a line the search goes on, and of the line itself the statement has been found, if it
holds one. -/
theorem flatMap_statementsFrom_line {line : Line} (h : line.IsWritten) {before : List Char}
    (hbefore : columnOf before = 0) (rest all : List Char) :
    (statementsFrom 0 before.length (line.blanked ++ rest)).flatMap
        (fun found => statementImports (before ++ all) found.1 found.2) =
      line.localDependencies (before.count '\n' + 1) ++
        (statementsFrom 0 (before ++ line.blanked).length rest).flatMap
          (fun found => statementImports (before ++ all) found.1 found.2) := by
  rw [List.length_append]
  cases h with
  | comment unclosed lineBreak =>
    rw [Line.blanked, statementsFrom_append, Line.localDependencies, List.nil_append]
    intro hmem
    exact absurd (List.eq_of_mem_replicate hmem) (by decide)
  | statement written lineBreak =>
    rw [Line.blanked, statementsFrom_statement written (.semicolon rest), List.flatMap_cons,
      statementImports_statement written (.semicolon rest), locate_append hbefore]
    rfl
  | blank isBlank lineBreak =>
    rw [Line.blanked, statementsFrom_append, Line.localDependencies, List.nil_append]
    exact notMem_of_isWhite isBlank (by decide)

/-- **The statements of the lines are found one after the other**, each at the beginning of its
line. The induction is on the lines that are left; `before` is the text of the ones before them. -/
theorem flatMap_statementsFrom_sheet {lines : List Line} (h : ∀ line ∈ lines, line.IsWritten)
    (before : List Char) (hbefore : columnOf before = 0) :
    (statementsFrom 0 before.length (List.intercalate ['\n'] (lines.map Line.blanked))).flatMap
        (fun found => statementImports
          (before ++ List.intercalate ['\n'] (lines.map Line.blanked)) found.1 found.2) =
      (lines.zipIdx (before.count '\n' + 1)).flatMap fun line =>
        line.1.localDependencies line.2 := by
  induction lines generalizing before with
  | nil => rfl
  | cons line lines ih =>
    have hline := h line List.mem_cons_self
    cases lines with
    | nil =>
      have hone := flatMap_statementsFrom_line hline hbefore [] line.blanked
      rw [List.append_nil] at hone
      rw [List.map_singleton, List.intercalate_singleton, hone]
      rfl
    | cons next lines =>
      have hcount : (before ++ line.blanked ++ ['\n']).count '\n' = before.count '\n' + 1 := by
        rw [List.count_append, List.count_append,
          List.count_eq_zero.2 (lineBreak_notMem_blanked hline)]
        rfl
      have hskip : ∀ rest, statementsFrom 0 (before ++ line.blanked).length (['\n'] ++ rest) =
          statementsFrom 0 (before ++ line.blanked ++ ['\n']).length rest := by
        intro rest
        rw [statementsFrom_append (by decide), ← List.length_append]
      -- The other lines begin behind this one and its line break, in column zero again.
      have hothers := ih (fun l hl => h l (List.mem_cons_of_mem _ hl))
        (before ++ line.blanked ++ ['\n']) (columnOf_concat_lineBreak _)
      rw [hcount] at hothers
      rw [List.map_cons, List.map_cons, List.intercalate_cons_cons, ← List.map_cons,
        List.append_assoc, flatMap_statementsFrom_line hline hbefore, hskip, List.zipIdx_cons,
        List.flatMap_cons, ← hothers]
      simp only [List.append_assoc]

/-- **The references of a stylesheet** are the contents of the items of its lines, less addresses on
the network. -/
theorem imports_sheet {lines : List Line} (h : ∀ line ∈ lines, line.IsWritten) :
    imports lineComments (sheet lines) =
      (lines.zipIdx 1).flatMap fun line => line.1.localDependencies line.2 := by
  have hall := flatMap_statementsFrom_sheet h [] rfl
  unfold imports
  rw [blankComments, blankFrom_sheet h]
  exact hall

theorem localDependencies_eq {line : Line} (h : ∀ i ∈ line.items, isRemote i.content = false)
    (number : Nat) : line.localDependencies number = line.dependencies number := by
  cases line with
  | comment inside => rfl
  | statement s =>
    rw [Line.localDependencies, ItemList.localItems_eq h]
    rfl
  | blank white => rfl

/-- **The references of a stylesheet are exactly the contents of the items of its lines**, in their
order, each with the number of its line and column 0. -/
theorem imports_lines (lineComments : Bool) {lines : List Line}
    (h : ∀ line ∈ lines, line.IsWritten ∧ ∀ i ∈ line.items, isRemote i.content = false) :
    imports lineComments (sheet lines) =
      (lines.zipIdx 1).flatMap fun line => line.1.dependencies line.2 := by
  rw [imports_sheet fun line hline => (h line hline).1]
  apply List.flatMap_congr
  intro line hline
  exact localDependencies_eq (h line.1 (List.fst_mem_of_mem_zipIdx hline)).2 line.2

/-- A statement with three items, one of which looks as if a comment began in it. -/
def threeItems : Statement :=
  { blank := [' ', '\t']
    list := .more { content := "a/*b".toList, quote := some '"' } [] [' '] (by decide)
      (.more { content := "u)'rl(".toList, quote := some '"', url := some ([], []) } ['\t'] []
        (by decide) (.one { content := "./c//".toList, quote := some '\'', url := some ([], []) }))
    media := " print, screen".toList }

/-- That statement behind a comment that holds another one. -/
def threeItemsSheet : List Line :=
  [.comment (importWord ++ [' ', '\'', 'x', '\'', ';']), .statement threeItems,
    .statement ⟨[' '], .one { content := "d/e".toList, url := some ([], []) }, "screen".toList⟩,
    .blank []]

/-- The comment is skipped, and the items of both statements are found with their lines. -/
theorem imports_lines_threeItems :
    (∀ line ∈ threeItemsSheet, line.IsWritten ∧ ∀ i ∈ line.items, isRemote i.content = false) ∧
      (imports false (sheet threeItemsSheet)).map (fun d => (d.specifier, d.location)) =
        [("a/*b", some ⟨2, 0⟩), ("u)'rl(", some ⟨2, 0⟩), ("./c//", some ⟨2, 0⟩),
          ("d/e", some ⟨3, 0⟩)] := by
  have h : ∀ line ∈ threeItemsSheet,
      line.IsWritten ∧ ∀ i ∈ line.items, isRemote i.content = false := by decide
  refine ⟨h, ?_⟩
  rw [imports_lines false h]
  decide

end RefGraph.Style
