import RefGraph.Ignore
import RefGraph.Proofs.Glob.Confined

/-!
# Lines of nested ignore files

The ignore file of a directory is rewritten line by line to speak of paths from the root: each line
begins with the path of the directory and a slash, and so does its glob. What is written behind them
is the same in all directories.

* `IgnoreLine.parse?_rooted`: the meaning of a line that begins with a slash.
* `IgnoreLine.splitEnd_append`, `IgnoreLine.globText_append`: a line is read from its end, whatever
  it begins with.
* `LineParts`: what a line consists of, and what of it does not depend on the directory.
* `rootedLine?_eq`: a line is rewritten part by part.
* `exists_rootedLine?_eq`: the lines of an ignore file begin with the path of its directory.
-/

namespace RefGraph

/-! ## Lines that begin with a slash -/

/-- Takes the mark of lines that speak of directories only off a line, with an escape before it. -/
def IgnoreLine.splitEnd (cs : List Char) : Bool × List Char :=
  match dropEnding? ['/'] cs with
  | some rest => (true, (dropEnding? ['\\'] rest).getD rest)
  | none => (false, cs)

/-- The meaning of a line behind its marks. If it is `rooted` it speaks of paths from the root. -/
def IgnoreLine.ofBody (negated rooted : Bool) (cs : List Char) : Option IgnoreLine :=
  match Glob.parse? true (globText rooted (splitEnd cs).2) with
  | .ok glob => some { glob, negated, dirsOnly := (splitEnd cs).1 }
  | .error _ => none

/-- It is that of its glob, if there is one. -/
theorem IgnoreLine.ofBody_eq (negated rooted : Bool) (cs : List Char) : ofBody negated rooted cs =
    (Glob.parse? true (globText rooted (splitEnd cs).2)).toOption.map
      fun glob => { glob, negated, dirsOnly := (splitEnd cs).1 } := by
  rw [ofBody]
  cases Glob.parse? true (globText rooted (splitEnd cs).2) with
  | error e => rfl
  | ok glob => rfl

theorem IgnoreLine.trimmed_eq_self {cs : List Char} {c : Char} (hlast : cs.getLast? = some c)
    (hc : isWhite c = false) : trimmed cs = cs := by
  rw [trimmed, trimEndChars_eq_self hlast hc]
  exact ite_self _

/-- A line with a slash at its beginning and no white space at its end. -/
theorem IgnoreLine.parse?_rooted (negated : Bool) {cs : List Char} {c : Char}
    (hlast : cs.getLast? = some c) (hc : isWhite c = false) :
    parse? (String.ofList ((if negated then ['!'] else []) ++ '/' :: cs)) =
      ofBody negated true cs := by
  have hends : ((if negated then ['!'] else []) ++ '/' :: cs).getLast? = some c := by
    simp [List.getLast?_append, List.getLast?_cons, hlast]
  rw [parse?, String.toList_ofList, trimmed_eq_self hends hc]
  cases negated
  · rfl
  · rfl

/-- Behind a character the end of a text is the same whatever is before it. -/
theorem dropEnding?_append {pre cs : List Char} {c d : Char} (h : cs ≠ [] ∨ d ≠ c) :
    dropEnding? [c] (pre ++ d :: cs) = (dropEnding? [c] cs).map fun rest => pre ++ d :: rest := by
  ext rest
  rw [Option.map_eq_some_iff, dropEnding?_eq_some_iff]
  simp only [dropEnding?_eq_some_iff]
  rcases List.eq_nil_or_concat' cs with rfl | ⟨as, a, rfl⟩
  · simp [h.resolve_left (fun hne => hne rfl)]
  · constructor
    · intro heq
      rw [← List.cons_append, ← List.append_assoc] at heq
      obtain ⟨hrest, hlast⟩ := List.append_inj' heq rfl
      exact ⟨as, by rw [hlast], hrest⟩
    · rintro ⟨rest', heq, rfl⟩
      rw [heq, List.append_assoc, List.cons_append]

namespace IgnoreLine

/-- What stands before a text makes no difference to the end that is split off, unless it escapes
that end. -/
theorem splitEnd_append_cons {pre cs : List Char} {d : Char} (hne : cs ≠ [])
    (h : d ≠ '\\' ∨ cs ≠ ['/']) :
    splitEnd (pre ++ d :: cs) = ((splitEnd cs).1, pre ++ d :: (splitEnd cs).2) := by
  rw [splitEnd, splitEnd, dropEnding?_append (.inl hne)]
  cases hend : dropEnding? ['/'] cs with
  | none => rfl
  | some rest =>
    have hrest : rest ≠ [] ∨ d ≠ '\\' := by
      refine h.symm.imp_left fun hcs hnil => hcs ?_
      rw [dropEnding?_eq_some_iff.1 hend, hnil, List.nil_append]
    dsimp only [Option.map]
    rw [dropEnding?_append hrest]
    cases dropEnding? ['\\'] rest with
    | none => rfl
    | some rest' => rfl

/-- A directory before a line makes no difference to its end. -/
theorem splitEnd_append {pre cs : List Char} (h : cs ≠ []) :
    splitEnd (pre ++ '/' :: cs) = ((splitEnd cs).1, pre ++ '/' :: (splitEnd cs).2) :=
  splitEnd_append_cons h (.inl (by decide))

/-- A rooted line is its own glob, but for one that ends with everything below. -/
theorem globText_true (cs : List Char) :
    globText true cs = if "/**".toList <:+ cs then cs ++ "/*".toList else cs := by
  simp only [globText, Bool.not_true, Bool.false_and, Bool.false_eq_true, if_false,
    List.isSuffixOf_iff_suffix]

/-- A line below a directory ends with everything below if it does by itself, or is two stars. -/
theorem isSuffix_append_iff {pre cs : List Char} :
    "/**".toList <:+ pre ++ '/' :: cs ↔ cs = ['*', '*'] ∨ "/**".toList <:+ cs := by
  rw [← List.reverse_prefix, ← @List.reverse_prefix _ _ cs, ← @List.reverse_inj _ cs,
    List.reverse_append, List.reverse_cons, List.append_assoc]
  rcases cs.reverse with _ | ⟨a, _ | ⟨b, _ | ⟨c, rest⟩⟩⟩
  · simp
  · simp
  · simp [eq_comm]
  · simp

/-- A text is read as a glob by its end, but `**` needs something inside only behind a slash. -/
theorem globText_append (pre cs : List Char) :
    globText true (pre ++ '/' :: cs) =
      pre ++ '/' :: if cs = ['*', '*'] then "**/*".toList else globText true cs := by
  simp only [globText_true, isSuffix_append_iff]
  by_cases hstars : cs = ['*', '*']
  · rw [if_pos (.inl hstars), if_pos hstars, hstars, List.append_assoc]
    rfl
  · simp only [hstars, false_or, if_false]
    split
    · rw [List.append_assoc, List.cons_append]
    · rfl

/-- The glob of a line begins like the line. -/
theorem exists_glob_eq {negated : Bool} {dir body : List Char} {l : IgnoreLine}
    (hbody : body ≠ []) (h : ofBody negated true (dir ++ '/' :: body) = some l) :
    ∃ rest, Glob.parse? true (dir ++ '/' :: rest) = .ok l.glob := by
  rw [ofBody, splitEnd_append hbody] at h
  simp only [globText_append] at h
  split at h
  · rename_i g hg
    exact ⟨_, by rw [hg, ← Option.some.inj h]⟩
  · cases h

end IgnoreLine

/-! ## Parts of a line -/

/-- The parts of a line: whether it takes back earlier ones, whether it speaks of directories only,
whether it speaks of its own directory only, and what is left of it without its marks. -/
structure LineParts where
  negated : Bool
  dirsOnly : Bool
  anchored : Bool
  core : List Char

namespace LineParts

/-- Takes the mark of lines that take back earlier ones off a line. -/
def takeNegation (cs : List Char) : Bool × List Char :=
  match dropBeginning? ['!'] cs with
  | some rest => (true, rest)
  | none => (false, cs)

/-- Takes the mark of lines that speak of directories only off a line. -/
def takeEnding (cs : List Char) : Bool × List Char :=
  match dropEnding? ['/'] cs with
  | some rest => (true, rest)
  | none => (false, cs)

/-- Takes a slash off the beginning of a line. -/
def takeAnchor (cs : List Char) : Bool × List Char :=
  match dropBeginning? ['/'] cs with
  | some rest => (true, rest)
  | none => (cs.contains '/', cs)

/-- The parts of a line. There are none of blank lines and comments. -/
def of? (line : String) : Option LineParts :=
  let cs := trimEndChars line.toList
  if cs = [] ∨ cs.head? = some '#' then none
  else
    let negation := takeNegation cs
    let ending := takeEnding negation.2
    let anchor := takeAnchor ending.2
    if anchor.2 = [] then none else some ⟨negation.1, ending.1, anchor.1, anchor.2⟩

/-- The mark of a line that takes back earlier ones. -/
def mark (x : LineParts) : List Char := if x.negated then ['!'] else []

/-- What a line says of the paths below its directory. -/
def below (x : LineParts) : List Char :=
  (if x.anchored then [] else "**/".toList) ++ (x.core ++ if x.dirsOnly then ['/'] else [])

/-- The line, rewritten to speak of paths from the root. -/
def rooted (x : LineParts) (dir : List Char) : List Char :=
  let here := if dir = [] then [] else '/' :: dir
  let body :=
    if x.anchored then here ++ '/' :: x.core
    else if dir = [] then "**/".toList ++ x.core
    else here ++ "/**/".toList ++ x.core
  x.mark ++ body ++ (if x.dirsOnly then ['/'] else [])

/-- At the root a line is its mark and what it says, behind a slash if it is anchored. -/
theorem rooted_nil (x : LineParts) :
    x.rooted [] = x.mark ++ if x.anchored then '/' :: x.below else x.below := by
  rw [rooted, below]
  cases x.anchored <;> simp

/-- Elsewhere a line is anchored in its directory. -/
theorem rooted_of_ne_nil (x : LineParts) {dir : List Char} (hdir : dir ≠ []) :
    x.rooted dir = x.mark ++ '/' :: (dir ++ '/' :: x.below) := by
  rw [rooted, below]
  cases x.anchored <;> simp [hdir]

end LineParts

/-- A line is rewritten part by part. -/
theorem rootedLine?_eq (dir line : String) :
    rootedLine? dir line = (LineParts.of? line).map fun x =>
      String.ofList (x.rooted (trimSlashes dir.toList)) := by
  unfold rootedLine? LineParts.of?
  by_cases hblank : trimEndChars line.toList = [] ∨ (trimEndChars line.toList).head? = some '#'
  · rw [if_pos hblank, if_pos hblank]
    rfl
  · rw [if_neg hblank, if_neg hblank, apply_ite (Option.map _)]
    rfl

namespace LineParts

theorem takeNegation_eq (cs : List Char) :
    cs = (if (takeNegation cs).1 then ['!'] else []) ++ (takeNegation cs).2 := by
  unfold takeNegation
  split
  · rename_i hbegin
    exact dropBeginning?_eq_some_iff.1 hbegin
  · rfl

theorem takeEnding_eq (cs : List Char) :
    cs = (takeEnding cs).2 ++ if (takeEnding cs).1 then ['/'] else [] := by
  unfold takeEnding
  split
  · rename_i hend
    exact dropEnding?_eq_some_iff.1 hend
  · exact (List.append_nil cs).symm

theorem takeAnchor_eq (cs : List Char) : ∃ anchor, cs = anchor ++ (takeAnchor cs).2 := by
  unfold takeAnchor
  split
  · rename_i hbegin
    exact ⟨['/'], dropBeginning?_eq_some_iff.1 hbegin⟩
  · exact ⟨[], rfl⟩

variable {line : String} {x : LineParts}

/-- A line without white space at its end is put together from its parts. -/
theorem exists_line_eq (h : of? line = some x) :
    x.core ≠ [] ∧ ∃ anchor, trimEndChars line.toList =
      x.mark ++ (anchor ++ (x.core ++ if x.dirsOnly then ['/'] else [])) := by
  rw [of?] at h
  dsimp only at h
  split_ifs at h with _ hcore
  obtain ⟨anchor, hanchor⟩ :=
    takeAnchor_eq (takeEnding (takeNegation (trimEndChars line.toList)).2).2
  have hending := takeEnding_eq (takeNegation (trimEndChars line.toList)).2
  have hnegation := takeNegation_eq (trimEndChars line.toList)
  obtain rfl := Option.some.inj h
  refine ⟨hcore, anchor, ?_⟩
  rw [mark, ← List.append_assoc anchor, ← hanchor, ← hending]
  exact hnegation

/-- What a line says ends as the line does, and so not with white space. -/
theorem exists_getLast?_below (h : of? line = some x) :
    ∃ c, x.below.getLast? = some c ∧ isWhite c = false := by
  obtain ⟨hcore, anchor, hline⟩ := exists_line_eq h
  have hsuffix : (x.core ++ if x.dirsOnly then ['/'] else []) <:+ trimEndChars line.toList :=
    ⟨x.mark ++ anchor, by rw [hline, List.append_assoc]⟩
  obtain ⟨c, hlast, hc⟩ := exists_getLast?_eq (by simp [hcore]) hsuffix
  refine ⟨c, ?_, hc⟩
  rw [below, List.getLast?_append, hlast]
  rfl

end LineParts

/-- A line of an ignore file in a directory speaks of that directory. -/
theorem exists_rootedLine?_eq {dir line l : String} (hdir : trimSlashes dir.toList = dir.toList)
    (hne : dir ≠ "") (h : rootedLine? dir line = some l) :
    ∃ (negated : Bool) (body : List Char) (c : Char), body.getLast? = some c ∧ isWhite c = false ∧
      l = String.ofList
        ((if negated then ['!'] else []) ++ '/' :: (dir.toList ++ '/' :: body)) := by
  rw [rootedLine?_eq, Option.map_eq_some_iff] at h
  obtain ⟨x, hx, rfl⟩ := h
  obtain ⟨c, hlast, hc⟩ := LineParts.exists_getLast?_below hx
  refine ⟨x.negated, x.below, c, hlast, hc, ?_⟩
  rw [hdir, x.rooted_of_ne_nil fun he => hne (String.toList_eq_nil_iff.1 he)]
  rfl

end RefGraph
