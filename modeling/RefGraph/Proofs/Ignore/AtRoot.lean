import RefGraph.Proofs.Ignore.Layers
import RefGraph.Proofs.Ignore.Moved

/-!
# Ignore files at the root

A line of the ignore file of the root is rewritten like all others, and then read again. This does
not change what it says: the marks that are taken off are put on again, and a name that may be found
anywhere gets the `**` that it would get when it is read. Escapes at the beginning are left to the
second reading.

* `IgnoreLine.Same`: two lines say the same.
* `IgnoreLine.parse?_unrooted`: the meaning of a line that does not begin with a slash.
* `LineParts.below_cases`: how a line and what is left of it behind its marks are related.
* `LosesSpace`: lines with an escaped space at the end, which are set apart.
* `verdictOf_atRoot`: a rewritten line comes to the verdict of the line itself.
-/

namespace RefGraph

/-! ## Escapes -/

/-- An escape before a character that means nothing else makes no difference at the start of a
pattern, and behind directories there. -/
theorem Glob.parse?_escape {lenient : Bool} {c : Char} (hc : c ∉ marks) (hclose : c ≠ '}')
    (cs : List Char) : parse? lenient ('\\' :: c :: cs) = parse? lenient (c :: cs) ∧
      parse? lenient ("**/".toList ++ '\\' :: c :: cs) =
        parse? lenient ("**/".toList ++ c :: cs) := by
  have hdirs : ∀ rest, readFrom lenient ("**/".toList ++ rest).length {} ("**/".toList ++ rest) =
      readFrom lenient rest.length ⟨[.leadingDirs], [], some '/', false⟩ rest := by
    intro rest
    refine (readFrom_succ lenient _ {} '*' ('*' :: '/' :: rest)).trans ?_
    have hlength : rest.length ≤ ('*' :: '/' :: rest).length := by simp; omega
    exact readFrom_congr_fuel hlength (Nat.le_refl _)
  rw [parse?_eq, parse?_eq, parse?_eq, parse?_eq, hdirs, hdirs, readFrom_escape hc hclose,
    readFrom_escape hc hclose]
  exact ⟨rfl, rfl⟩

/-- A text ends as what stands behind a character of it, if that is not in the ending. -/
theorem isSuffix_append_cons_iff {ending cs : List Char} {c : Char} (hc : c ∉ ending)
    (before : List Char) : ending <:+ before ++ c :: cs ↔ ending <:+ cs := by
  have hbehind : c :: cs <:+ before ++ c :: cs := List.suffix_append ..
  constructor
  · intro h
    rcases Nat.lt_or_ge cs.length ending.length with hlength | hlength
    · have hcons := List.suffix_of_suffix_length_le hbehind h hlength
      exact absurd (hcons.subset List.mem_cons_self) hc
    · exact List.suffix_of_suffix_length_le h ((List.suffix_cons c cs).trans hbehind) hlength
  · exact fun h => h.trans ((List.suffix_cons c cs).trans hbehind)

/-- A character before a text leaves its end as it is. -/
theorem dropEnding?_cons {c d : Char} {cs : List Char} (h : cs ≠ [] ∨ d ≠ c) :
    dropEnding? [c] (d :: cs) = (dropEnding? [c] cs).map (d :: ·) :=
  @dropEnding?_append [] cs c d h

theorem dropBeginning?_eq_none {c : Char} {cs : List Char} (h : cs.head? ≠ some c) :
    dropBeginning? [c] cs = none := by
  refine dropBeginning?_eq_none_iff.2 ?_
  rintro ⟨rest, rfl⟩
  exact h rfl

namespace IgnoreLine

/-! ## Reading a line -/

/-- A name that may be found anywhere is read like one in any directories, but for `**`. -/
theorem globText_false (cs : List Char) : globText false cs =
    if '/' ∈ cs ∨ cs = ['*', '*'] then globText true cs
    else globText true ("**/".toList ++ cs) := by
  by_cases hslash : '/' ∈ cs
  · rw [if_pos (.inl hslash)]
    simp [globText, hslash]
  · have hdirs : "**/".toList.isPrefixOf cs = false := Bool.eq_false_iff.2 fun h =>
      hslash ((List.isPrefixOf_iff_prefix.1 h).subset (by decide))
    by_cases hstars : cs = ['*', '*']
    · rw [if_pos (.inr hstars), hstars]
      rfl
    · have hanywhere : (!false && !cs.contains '/' &&
          !("**/".toList.isPrefixOf cs || cs == "**".toList)) = true := by
        rw [hdirs]
        simp [hslash, hstars]
      rw [if_neg (by simp [hslash, hstars]), globText, if_pos hanywhere]
      rfl

/-- A character that is neither a slash nor a backslash is not split off with the end. -/
theorem exists_splitEnd_eq {c : Char} (hslash : c ≠ '/') (hescape : c ≠ '\\') (cs : List Char) :
    ∃ rest, (splitEnd (c :: cs)).2 = c :: rest := by
  rw [splitEnd, dropEnding?_cons (.inr hslash)]
  cases dropEnding? ['/'] cs with
  | none => exact ⟨cs, rfl⟩
  | some rest =>
    dsimp only [Option.map]
    rw [dropEnding?_cons (.inr hescape)]
    cases dropEnding? ['\\'] rest with
    | none => exact ⟨rest, rfl⟩
    | some rest' => exact ⟨rest', rfl⟩

/-- The end of a line is the same behind one more character, if something else is before it. -/
theorem splitEnd_cons {c : Char} (hslash : c ≠ '/') (d : Char) (cs : List Char) :
    splitEnd (d :: c :: cs) = ((splitEnd (c :: cs)).1, d :: (splitEnd (c :: cs)).2) :=
  @splitEnd_append_cons [] (c :: cs) d (List.cons_ne_nil c cs)
    (.inr fun he => hslash (List.cons.inj he).1)

/-- The characters at the beginning of a line that mean something there unless they are escaped. -/
def leadingMarks : List Char := ['!', '#']

/-- The marks at the beginning of a line mean nothing but themselves in a glob. -/
theorem plain_of_mem_leadingMarks : ∀ c ∈ leadingMarks,
    c ∉ Glob.marks ∧ c ≠ '}' ∧ c ∉ "/**".toList ∧ c ≠ '/' ∧ c ≠ '\\' := by
  intro c hc
  rcases List.mem_pair.1 hc with rfl | rfl
  · decide
  · decide

/-- What is put behind a text does not depend on what is before a character in it. -/
theorem exists_globText_eq {c : Char} (hc : c ∉ "/**".toList) (cs : List Char) :
    ∃ rest, ∀ before, globText true (before ++ c :: cs) = before ++ c :: rest := by
  by_cases hsuffix : "/**".toList <:+ cs
  · refine ⟨cs ++ "/*".toList, fun before => ?_⟩
    rw [globText_true, if_pos ((isSuffix_append_cons_iff hc before).2 hsuffix), List.append_assoc,
      List.cons_append]
  · refine ⟨cs, fun before => ?_⟩
    rw [globText_true, if_neg (mt (isSuffix_append_cons_iff hc before).1 hsuffix)]

/-- A text with an escape before its first character is read as a glob like the text without it, if
that character means nothing else there. -/
theorem parse?_globText_escape {c : Char} (hc : c ∈ leadingMarks) (cs : List Char) :
    Glob.parse? true (globText false ('\\' :: c :: cs)) =
      Glob.parse? true (globText false (c :: cs)) := by
  obtain ⟨hmarks, hclose, hstars, hslash, -⟩ := plain_of_mem_leadingMarks c hc
  obtain ⟨rest, hglob⟩ := exists_globText_eq hstars cs
  obtain ⟨hstart, hdirs⟩ := @Glob.parse?_escape true c hmarks hclose rest
  have hne : c :: cs ≠ ['*', '*'] := fun he => hstars (by simp [(List.cons.inj he).1])
  rw [globText_false, globText_false]
  by_cases h : '/' ∈ cs
  · rw [if_pos (.inl (by simp [h])), if_pos (.inl (by simp [h]))]
    exact (congrArg _ (hglob ['\\'])).trans (hstart.trans (congrArg _ (hglob [])).symm)
  · rw [if_neg (by simp [h, hslash.symm]), if_neg (by simp [h, hslash.symm, hne])]
    exact (congrArg _ (hglob "**/\\".toList)).trans
      (hdirs.trans (congrArg _ (hglob "**/".toList)).symm)

/-- A mark means the same with and without a backslash before it. -/
theorem ofBody_escape (negated : Bool) {c : Char} (hc : c ∈ leadingMarks) (cs : List Char) :
    ofBody negated false ('\\' :: c :: cs) = ofBody negated false (c :: cs) := by
  obtain ⟨-, -, -, hslash, hescape⟩ := plain_of_mem_leadingMarks c hc
  obtain ⟨rest, hrest⟩ := exists_splitEnd_eq hslash hescape cs
  rw [ofBody_eq, ofBody_eq, splitEnd_cons hslash, hrest, parse?_globText_escape hc]

/-- Takes the marks at the beginning of a line off: whether it takes back earlier lines, and whether
it speaks of paths from the root. An escape keeps the character behind it from being a mark. -/
def takeMarks (cs : List Char) : Bool × Bool × List Char :=
  if "\\!".toList.isPrefixOf cs || "\\#".toList.isPrefixOf cs then (false, false, cs.drop 1)
  else
    match dropBeginning? ['/'] (LineParts.takeNegation cs).2 with
    | some rest => ((LineParts.takeNegation cs).1, true, rest)
    | none => ((LineParts.takeNegation cs).1, false, (LineParts.takeNegation cs).2)

/-- A line without white space at its end that is no comment is read behind its marks. -/
theorem parse?_eq {cs : List Char} {c : Char} (hlast : cs.getLast? = some c)
    (hc : isWhite c = false) (hcomment : cs.head? ≠ some '#') :
    parse? (String.ofList cs) =
      ofBody (takeMarks cs).1 (takeMarks cs).2.1 (takeMarks cs).2.2 := by
  have hne : cs ≠ [] := by
    rintro rfl
    cases hlast
  rw [parse?, String.toList_ofList, if_neg hcomment, trimmed_eq_self hlast hc]
  dsimp only
  rw [if_neg hne]
  rfl

/-- The meaning of a line with no slash at its beginning. An escape there makes no difference. -/
theorem parse?_unrooted {negated : Bool} {cs : List Char} {c : Char} (hlast : cs.getLast? = some c)
    (hc : isWhite c = false) (hslash : cs.head? ≠ some '/')
    (hmarks : negated = false → ∀ mark ∈ leadingMarks, cs.head? ≠ some mark) :
    parse? (String.ofList ((if negated then ['!'] else []) ++ cs)) = ofBody negated false cs := by
  have hunrooted := dropBeginning?_eq_none hslash
  cases negated with
  | true =>
    have hends : ('!' :: cs).getLast? = some c := by
      rw [List.getLast?_cons, hlast, Option.getD_some]
    have htaken : LineParts.takeNegation ('!' :: cs) = (true, cs) := rfl
    have htakeMarks : takeMarks ('!' :: cs) = (true, false, cs) := by
      rw [takeMarks, if_neg (by simp), htaken, hunrooted]
    rw [if_pos rfl, List.singleton_append, parse?_eq hends hc (by simp), htakeMarks]
  | false =>
    have hnot : cs.head? ≠ some '!' := hmarks rfl '!' (by decide)
    have hcomment : cs.head? ≠ some '#' := hmarks rfl '#' (by decide)
    rw [if_neg Bool.false_ne_true, List.nil_append, parse?_eq hlast hc hcomment, takeMarks]
    split
    · -- A backslash before a mark is taken off, and the pattern that is left means the same.
      rename_i hescaped
      rw [Bool.or_eq_true, List.isPrefixOf_iff_prefix, List.isPrefixOf_iff_prefix] at hescaped
      obtain ⟨mark, hmark, rest, rfl⟩ :
          ∃ mark ∈ leadingMarks, ∃ rest, cs = '\\' :: mark :: rest := by
        rcases hescaped with ⟨rest, rfl⟩ | ⟨rest, rfl⟩
        · exact ⟨'!', by decide, rest, rfl⟩
        · exact ⟨'#', by decide, rest, rfl⟩
      exact (ofBody_escape false hmark rest).symm
    · have htaken : LineParts.takeNegation cs = (false, cs) := by
        rw [LineParts.takeNegation, dropBeginning?_eq_none hnot]
      rw [htaken, hunrooted]

/-! ## Lines that say the same -/

/-- Two lines say the same of all paths. -/
structure Same (l' l : IgnoreLine) : Prop where
  negated : l'.negated = l.negated
  speaksOf : ∀ path isDir, l'.speaksOf path isDir = l.speaksOf path isDir

theorem rel_same_refl (line : Option IgnoreLine) : Option.Rel Same line line := by
  cases line with
  | none => exact .none
  | some l => exact .some ⟨rfl, fun _ _ => rfl⟩

end IgnoreLine

/-- Lines that say the same come to the same verdict. -/
theorem verdictOf_congr {line' line : Option IgnoreLine}
    (h : Option.Rel IgnoreLine.Same line' line) (path : String) (isDir : Bool) :
    verdictOf line'.toList path isDir = verdictOf line.toList path isDir := by
  cases h with
  | none => rfl
  | some h =>
    rw [Option.toList_some, Option.toList_some, verdictOf_singleton, verdictOf_singleton,
      h.speaksOf, IgnoreLine.verdict, IgnoreLine.verdict, h.negated]

/-- The globs `**/**/*` and `**` match everything. -/
theorem Glob.matchesText_dirs_star (path : String) :
    (⟨[.leadingDirs, .star]⟩ : Glob).matchesText path =
      (⟨[.leadingDirs]⟩ : Glob).matchesText path := by
  have hne : [Token.leadingDirs, .star] ≠ [.leadingDirs] := by simp
  rw [show (⟨[.leadingDirs]⟩ : Glob).matchesText path = true from rfl, matchesText_iff hne]
  obtain ⟨ys, hys, hstar⟩ := exists_nil_mem_restsOfStar path.toUTF8.toList
  exact mem_restsOfTokens_cons_iff.2 ⟨ys, hys, mem_restsOfTokens_cons_iff.2
    ⟨[], hstar, List.mem_cons_self⟩⟩

/-- **A name that may be found anywhere says the same behind directories**, and a line that names
directories says the same from the root. -/
theorem IgnoreLine.rel_ofBody (negated : Bool) {cs : List Char} (hne : cs ≠ []) :
    Option.Rel Same
      (ofBody negated true (if '/' ∈ (splitEnd cs).2 then cs else "**".toList ++ '/' :: cs))
      (ofBody negated false cs) := by
  rw [ofBody_eq, ofBody_eq, globText_false]
  by_cases hslash : '/' ∈ (splitEnd cs).2
  · rw [if_pos hslash, if_pos (.inl hslash)]
    exact rel_same_refl _
  · rw [if_neg hslash, splitEnd_append hne]
    by_cases hstars : (splitEnd cs).2 = ['*', '*']
    · -- Behind directories `**` needs something inside, but there is always something.
      rw [if_pos (.inr hstars), hstars]
      exact .some ⟨rfl, fun path isDir => congrArg (_ && ·) (Glob.matchesText_dirs_star path)⟩
    · rw [if_neg (by simp [hslash, hstars])]
      exact rel_same_refl _

/-! ## Lines and their parts -/

namespace LineParts

/-- Without the mark at its end a line names directories if its glob does. -/
theorem slash_mem_splitEnd_iff (cs : List Char) :
    '/' ∈ (IgnoreLine.splitEnd cs).2 ↔ '/' ∈ (takeEnding cs).2 := by
  rw [IgnoreLine.splitEnd, takeEnding]
  cases dropEnding? ['/'] cs with
  | none => rfl
  | some rest =>
    dsimp only
    cases hescape : dropEnding? ['\\'] rest with
    | none => rfl
    | some rest' =>
      rw [dropEnding?_eq_some_iff.1 hescape]
      simp

theorem takeNegation_of_fst_eq_false {cs : List Char} (h : (takeNegation cs).1 = false) :
    (takeNegation cs).2 = cs ∧ cs.head? ≠ some '!' := by
  rw [takeNegation] at h ⊢
  split at h
  · cases h
  · rename_i hnone
    refine ⟨rfl, fun hhead => ?_⟩
    obtain ⟨rest, rfl⟩ := List.head?_eq_some_iff.1 hhead
    cases hnone

/-- Behind a slash stands what is left without it. The mark at the end is taken off first, so the
slash may be all that is left. -/
theorem takeAnchor_of_slash {rest : List Char}
    (hcore : (takeAnchor (takeEnding ('/' :: rest)).2).2 ≠ []) :
    (takeAnchor (takeEnding ('/' :: rest)).2).1 = true ∧
      rest = (takeAnchor (takeEnding ('/' :: rest)).2).2 ++
        if (takeEnding ('/' :: rest)).1 then ['/'] else [] := by
  have hending := takeEnding_eq ('/' :: rest)
  generalize takeEnding ('/' :: rest) = ending at *
  obtain ⟨dirsOnly, _ | ⟨c, core⟩⟩ := ending
  · exact absurd rfl hcore
  · obtain ⟨rfl, hrest⟩ := List.cons.inj hending
    exact ⟨rfl, hrest⟩

/-- A line without a slash at its beginning is anchored by one inside. -/
theorem takeAnchor_of_ne {cs : List Char} (hslash : cs.head? ≠ some '/') :
    takeAnchor (takeEnding cs).2 = ((takeEnding cs).2.contains '/', (takeEnding cs).2) := by
  have hcore : (takeEnding cs).2.head? ≠ some '/' := by
    intro hhead
    obtain ⟨rest, hrest⟩ := List.head?_eq_some_iff.1 hhead
    rw [takeEnding_eq cs, hrest] at hslash
    exact hslash rfl
  rw [takeAnchor, dropBeginning?_eq_none hcore]

variable {line : String} {x : LineParts}

/-- **A line is made of its first mark and what it says**, or what it says without the `**` that it
gets when it is rewritten. -/
theorem below_cases (h : of? line = some x) : ∃ cs, trimEndChars line.toList = x.mark ++ cs ∧
    cs ≠ [] ∧ (x.negated = false → ∀ mark ∈ IgnoreLine.leadingMarks, cs.head? ≠ some mark) ∧
    (cs = '/' :: x.below ∨ cs.head? ≠ some '/' ∧
      x.below = if '/' ∈ (IgnoreLine.splitEnd cs).2 then cs else "**".toList ++ '/' :: cs) := by
  rw [of?] at h
  dsimp only at h
  split_ifs at h with hblank hcore
  obtain rfl := Option.some.inj h
  generalize trimEndChars line.toList = text at *
  rw [not_or] at hblank
  have hne : (takeNegation text).2 ≠ [] := fun he => hcore (by rw [he]; rfl)
  refine ⟨(takeNegation text).2, takeNegation_eq text, hne, ?_, ?_⟩
  · intro hnegated
    obtain ⟨htext, hnot⟩ := takeNegation_of_fst_eq_false hnegated
    rw [htext]
    exact List.forall_mem_cons.2 ⟨hnot, List.forall_mem_singleton.2 hblank.2⟩
  -- From here on only what the mark leaves matters.
  generalize (takeNegation text).2 = cs at *
  by_cases hslash : cs.head? = some '/'
  · obtain ⟨rest, rfl⟩ := List.head?_eq_some_iff.1 hslash
    obtain ⟨hanchored, hrest⟩ := takeAnchor_of_slash hcore
    left
    rw [below, hanchored, if_pos rfl, List.nil_append, ← hrest]
  · refine .inr ⟨hslash, ?_⟩
    have hmem := slash_mem_splitEnd_iff cs
    rw [below, takeAnchor_of_ne hslash]
    dsimp only
    rw [← takeEnding_eq cs]
    by_cases hdirs : '/' ∈ (IgnoreLine.splitEnd cs).2
    · rw [if_pos hdirs, if_pos (by simpa using hmem.1 hdirs), List.nil_append]
    · rw [if_neg hdirs, if_neg (by simpa using mt hmem.2 hdirs)]
      rfl

/-- A line of which something is left without its marks is no `!`. -/
theorem ne_bang_of_eq_some (h : of? line = some x) : trimEndChars line.toList ≠ ['!'] := by
  obtain ⟨cs, htext, hne, hmarks, -⟩ := below_cases h
  rw [htext, mark]
  cases hnegated : x.negated with
  | true => simpa using hne
  | false =>
    intro he
    have hcs : cs = ['!'] := he
    exact hmarks hnegated '!' (by decide) (by rw [hcs]; rfl)

theorem eq_of_takeAnchor_eq_nil {cs : List Char} (h : (takeAnchor cs).2 = []) :
    cs = [] ∨ cs = ['/'] := by
  rw [takeAnchor] at h
  split at h
  · rename_i rest hrest
    right
    rw [dropBeginning?_eq_some_iff.1 hrest, show rest = [] from h, List.append_nil]
  · exact .inl h

/-- A line that has no parts is blank or a comment, or nothing but marks. -/
theorem bare_of_eq_none (h : of? line = none) : trimEndChars line.toList = [] ∨
    (trimEndChars line.toList).head? = some '#' ∨
    trimEndChars line.toList ∈ ["!", "/", "//", "!/", "!//"].map String.toList := by
  rw [of?] at h
  dsimp only at h
  split_ifs at h with hblank hcore
  · exact hblank.imp_right .inl
  · have htext := takeNegation_eq (trimEndChars line.toList)
    have hending := takeEnding_eq (takeNegation (trimEndChars line.toList)).2
    rw [htext, hending]
    generalize (takeNegation (trimEndChars line.toList)).1 = negated
    generalize takeEnding (takeNegation (trimEndChars line.toList)).2 = ending at hcore
    obtain ⟨dirsOnly, rest⟩ := ending
    rcases eq_of_takeAnchor_eq_nil hcore with rfl | rfl <;> revert negated dirsOnly <;> decide

end LineParts

/-! ## White space at the end -/

/-- A line, but for a comment, that ends with a space that is escaped. The space is taken off all
the same when the line is rewritten. -/
def LosesSpace (line : String) : Prop :=
  ['\\', ' '] <:+ line.toList ∧ ¬ IsComment line.toList

instance (line : String) : Decidable (LosesSpace line) :=
  inferInstanceAs (Decidable (_ ∧ line.toList.head? ≠ some '#'))

/-- Other lines are read without the white space at their end, as they are rewritten. -/
theorem IgnoreLine.parse?_trimEndChars {line : String} (h : ¬ LosesSpace line) :
    parse? (String.ofList (trimEndChars line.toList)) = parse? line := by
  by_cases hcomment : line.toList.head? = some '#'
  · obtain ⟨cs, hcs⟩ := List.head?_eq_some_iff.1 hcomment
    have htrimmed : (trimEndChars line.toList).head? = some '#' :=
      hcs ▸ head?_trimEndChars (by decide) cs
    rw [parse?, parse?, String.toList_ofList, if_pos hcomment, if_pos htrimmed]
  · have hspace : ¬ ['\\', ' '] <:+ line.toList := fun hs => h ⟨hs, hcomment⟩
    have hline : trimmed line.toList = trimEndChars line.toList := by
      rw [trimmed, if_neg (by rwa [List.isSuffixOf_iff_suffix])]
    have htrimmed : trimmed (trimEndChars line.toList) = trimEndChars line.toList := by
      by_cases hnil : trimEndChars line.toList = []
      · rw [hnil]
        rfl
      · obtain ⟨c, hlast, hc⟩ := exists_getLast?_eq hnil (List.suffix_refl _)
        exact trimmed_eq_self hlast hc
    have hhead : (trimEndChars line.toList).head? ≠ some '#' := by
      intro hhead
      obtain ⟨cs, hcs⟩ := List.head?_eq_some_iff.1 hhead
      obtain ⟨white, hwhite⟩ := trimEndChars_prefix line.toList
      rw [hcs] at hwhite
      exact hcomment (hwhite ▸ rfl)
    rw [parse?, parse?, String.toList_ofList, if_neg hcomment, if_neg hhead, hline, htrimmed]

/-! ## At the root -/

/-- Lines of slashes, of which nothing is left without their marks. -/
def bareSlashes : List String := ["/", "//", "!/", "!//"]

theorem lines_ofPatterns_toList (pattern : Option String) :
    (IgnoreRules.ofPatterns pattern.toList).lines = (pattern.bind IgnoreLine.parse?).toList := by
  cases pattern with
  | none => rfl
  | some text =>
    rw [IgnoreRules.ofPatterns, Option.toList_some, Option.bind_some, List.filterMap_cons]
    cases IgnoreLine.parse? text <;> rfl

/-- A glob of no tokens matches the empty path only. -/
theorem Glob.matchesText_empty {path : String} (h : path ≠ "") :
    (⟨[]⟩ : Glob).matchesText path = false := by
  have htokens : ([] : List Token) ≠ [.leadingDirs] := by simp
  rw [← Bool.not_eq_true, matchesText_iff htokens, restsOfTokens, List.mem_singleton,
    toList_toUTF8, eq_comm, List.flatMap_eq_nil_iff]
  intro hbytes
  obtain ⟨c, cs, hcs⟩ := List.exists_cons_of_ne_nil (mt String.toList_eq_nil_iff.1 h)
  exact String.utf8EncodeChar_ne_nil (hbytes c (by rw [hcs]; exact List.mem_cons_self))

/-- By themselves lines of slashes say nothing of other paths than the empty one. -/
theorem verdictOf_bareSlashes {text : List Char} (h : text ∈ bareSlashes.map String.toList)
    {path : String} (hpath : withoutDotSlash path ≠ "") (isDir : Bool) :
    verdictOf (IgnoreLine.parse? (String.ofList text)).toList path isDir = .none := by
  obtain ⟨l, hl, hglob⟩ : ∃ l, IgnoreLine.parse? (String.ofList text) = some l ∧ l.glob = ⟨[]⟩ := by
    obtain ⟨line, hline, rfl⟩ := List.mem_map.1 h
    simp only [bareSlashes, List.mem_cons, List.not_mem_nil, or_false] at hline
    rcases hline with rfl | rfl | rfl | rfl
    · exact ⟨_, rfl, rfl⟩
    · exact ⟨_, rfl, rfl⟩
    · exact ⟨_, rfl, rfl⟩
    · exact ⟨_, rfl, rfl⟩
  rw [hl, Option.toList_some, verdictOf_singleton, IgnoreLine.speaksOf, hglob,
    Glob.matchesText_empty hpath, Bool.and_false, if_neg Bool.false_ne_true]

/-- A line that is left out when it is rewritten says nothing by itself, unless it is a `!`. -/
theorem verdictOf_of_eq_none {line path : String} (h : LineParts.of? line = none)
    (hbang : trimEndChars line.toList ≠ ['!'])
    (hpath : trimEndChars line.toList ∈ bareSlashes.map String.toList → withoutDotSlash path ≠ "")
    (isDir : Bool) :
    verdictOf (IgnoreLine.parse? (String.ofList (trimEndChars line.toList))).toList path isDir =
      .none := by
  rcases LineParts.bare_of_eq_none h with hblank | hcomment | hbare
  · rw [hblank]
    rfl
  · have hread : IgnoreLine.parse? (String.ofList (trimEndChars line.toList)) = none := by
      rw [IgnoreLine.parse?, String.toList_ofList, if_pos hcomment]
    rw [hread]
    rfl
  · rcases List.mem_cons.1 hbare with hmark | hslashes
    · exact absurd hmark hbang
    · exact verdictOf_bareSlashes hslashes (hpath hslashes) isDir

/-- A line with parts says by itself what it says when it is rewritten at the root. -/
theorem rel_parse?_atRoot {line : String} {x : LineParts} (h : LineParts.of? line = some x) :
    Option.Rel IgnoreLine.Same (IgnoreLine.parse? (String.ofList (x.rooted [])))
      (IgnoreLine.parse? (String.ofList (trimEndChars line.toList))) := by
  obtain ⟨c, hlast, hc⟩ := LineParts.exists_getLast?_below h
  obtain ⟨cs, htext, hne, hmarks, hbelow⟩ := LineParts.below_cases h
  rw [LineParts.parse?_rooted_nil h, htext, LineParts.mark]
  rcases hbelow with rfl | ⟨hslash, hbelow⟩
  · rw [IgnoreLine.parse?_rooted x.negated hlast hc]
    exact IgnoreLine.rel_same_refl _
  · obtain ⟨d, hlast', hd⟩ := exists_getLast?_eq hne ⟨x.mark, htext.symm⟩
    rw [IgnoreLine.parse?_unrooted hlast' hd hslash hmarks, hbelow]
    exact IgnoreLine.rel_ofBody x.negated hne

/-- **A line that is rewritten at the root comes to the verdict of the line itself**, if it does not
lose a space. A `!` with nothing behind it is left out, though by itself it takes back everything;
lines of slashes are left out as well, and they speak of the empty path only. -/
theorem verdictOf_atRoot {line path : String} (hspace : ¬ LosesSpace line)
    (hpath : trimEndChars line.toList ∈ bareSlashes.map String.toList → withoutDotSlash path ≠ "")
    (isDir : Bool) :
    verdictOf (IgnoreRules.ofPatterns (rootedLine? "" line).toList).lines path isDir =
      if trimEndChars line.toList = ['!'] then .none
      else verdictOf (IgnoreRules.ofPatterns [line]).lines path isDir := by
  have hroot : trimSlashes "".toList = [] := rfl
  have hline : (IgnoreRules.ofPatterns [line]).lines =
      (IgnoreLine.parse? (String.ofList (trimEndChars line.toList))).toList := by
    rw [IgnoreLine.parse?_trimEndChars hspace]
    exact lines_ofPatterns_toList (some line)
  rw [hline, lines_ofPatterns_toList, rootedLine?_eq, hroot]
  cases hx : LineParts.of? line with
  | none =>
    rw [Option.map_none, Option.bind_none]
    split
    · rfl
    · rename_i hbang
      exact (verdictOf_of_eq_none hx hbang hpath isDir).symm
  | some x =>
    rw [if_neg (LineParts.ne_bang_of_eq_some hx), Option.map_some, Option.bind_some]
    exact verdictOf_congr (rel_parse?_atRoot hx) path isDir

/-- A line with an escape at its beginning and white space at its end. -/
theorem verdictOf_atRoot_escape :
    ¬ LosesSpace "\\#*.ts " ∧
      (trimEndChars "\\#*.ts ".toList ∈ bareSlashes.map String.toList →
        withoutDotSlash "./lib/#a.ts" ≠ "") ∧
      verdictOf (IgnoreRules.ofPatterns (rootedLine? "" "\\#*.ts ").toList).lines "./lib/#a.ts"
          false =
        if trimEndChars "\\#*.ts ".toList = ['!'] then .none
        else verdictOf (IgnoreRules.ofPatterns ["\\#*.ts "]).lines "./lib/#a.ts" false :=
  ⟨by decide, by decide, verdictOf_atRoot (by decide) (by decide) false⟩

/-- A `!` with nothing behind it is left out, but by itself it takes back everything. -/
theorem verdictOf_atRoot_bang :
    ¬ ∀ (line path : String) (isDir : Bool), path ≠ "" →
      verdictOf (IgnoreRules.ofPatterns (rootedLine? "" line).toList).lines path isDir =
        verdictOf (IgnoreRules.ofPatterns [line]).lines path isDir := by
  intro h
  have hrewritten : verdictOf (IgnoreRules.ofPatterns (rootedLine? "" "!").toList).lines "a" false =
      .none := by decide +kernel
  have hitself : verdictOf (IgnoreRules.ofPatterns ["!"]).lines "a" false = .whitelist := by
    decide +kernel
  have hsame := h "!" "a" false (by decide)
  rw [hrewritten, hitself] at hsame
  cases hsame

end RefGraph
