import RefGraph.Proofs.Ignore.Lines
import Mathlib.Data.List.Induction

/-!
# Ignore files on top of one another

The rules of a directory are made anew from all patterns that were read on the way there, and
patterns that cannot be read are left out. So the last pattern of the file of the directory that
speaks of a path decides, and if there is none the rules of the parent do. These are not changed
when the file is read: they are a value of their own.

* `contributed`: the patterns that an ignore file adds.
* `Decides`: the last pattern that speaks of a path.
* `contributed_append`: what is read line by line is read of two files at once.
* `IgnoreRules.Reached`: rules that come of ignore files that were read one after the other.
* `Layered`: what an ignore file does to the rules it is read on top of.
* `layered_of_reached`: it does so to all that can be reached.
-/

namespace RefGraph

/-! ## Lines -/

/-- The pattern that a line of the ignore file of a directory becomes. -/
def patternOf? (dir : String) (line : List Char) : Option String :=
  rootedLine? dir (String.ofList line)

/-- White space at the end of a line makes no difference. -/
theorem patternOf?_append {white : List Char} (h : ∀ c ∈ white, isWhite c = true) (dir : String)
    (line : List Char) : patternOf? dir (line ++ white) = patternOf? dir line := by
  rw [patternOf?, patternOf?, rootedLine?_eq, rootedLine?_eq, LineParts.of?, LineParts.of?,
    String.toList_ofList, String.toList_ofList, trimEndChars_append h]

/-- A line with nothing but white space. -/
def IsBlank (line : List Char) : Prop := ∀ c ∈ line, isWhite c = true

/-- A line that begins with a number sign. -/
def IsComment (line : List Char) : Prop := line.head? = some '#'

/-- A blank line gives no pattern. -/
theorem patternOf?_of_isBlank {line : List Char} (h : IsBlank line) (dir : String) :
    patternOf? dir line = none :=
  patternOf?_append h dir []

/-- A comment gives no pattern. -/
theorem patternOf?_of_isComment {line : List Char} (h : IsComment line) (dir : String) :
    patternOf? dir line = none := by
  obtain ⟨cs, rfl⟩ := List.head?_eq_some_iff.1 h
  rw [patternOf?, rootedLine?, String.toList_ofList,
    if_pos (.inr (head?_trimEndChars (by decide) cs))]

/-! ## The patterns of a file -/

/-- The patterns that the ignore file of a directory adds. -/
def contributed (dir content : String) : List String :=
  (linesOf content.toList).filterMap (patternOf? dir)

section Lines

variable {β : Type} {f : List Char → Option β} {ended : List Char → List Char} {white : List Char}

/-- A line goes on to the next line break. -/
theorem go_append_break (hwhite : '\n' ∉ white) (line bs : List Char) :
    linesOf.go ended line (white ++ '\n' :: bs) =
      ended (line.reverse ++ white) :: linesOf.go ended [] bs := by
  induction white generalizing line with
  | nil => rw [List.nil_append, linesOf.go, if_pos rfl, List.append_nil]
  | cons c white ih =>
    rw [List.mem_cons, not_or] at hwhite
    rw [List.cons_append, linesOf.go, if_neg (Ne.symm hwhite.1), ih hwhite.2, List.reverse_cons,
      List.append_assoc]
    rfl

/-- What is read of each line is read of two texts with a line break between them, if an empty line
and white space at the end of a line make no difference. -/
theorem filterMap_go_append (hended : ∀ line, f (ended line) = f line)
    (htrimmed : ∀ line, f (line ++ white) = f line) (hnil : f [] = none) (hwhite : '\n' ∉ white)
    (line as bs : List Char) :
    (linesOf.go ended line (as ++ (white ++ '\n' :: bs))).filterMap f =
      (linesOf.go ended line as).filterMap f ++ (linesOf.go ended [] bs).filterMap f := by
  induction as generalizing line with
  | nil =>
    rw [List.nil_append, go_append_break hwhite, List.filterMap_cons, hended, htrimmed, linesOf.go]
    by_cases hline : line = []
    · rw [if_pos hline, hline, List.reverse_nil, hnil]
      rfl
    · rw [if_neg hline, List.filterMap_cons]
      cases f line.reverse <;> rfl
  | cons a as ih =>
    rw [List.cons_append, linesOf.go, linesOf.go]
    split
    · rw [List.filterMap_cons, List.filterMap_cons, ih]
      cases f (ended line.reverse) <;> rfl
    · exact ih _

end Lines

/-- How a line ends. -/
def lineBreaks : List String := ["\n", "\r\n"]

/-- **The patterns of two files are those of the two with a line break between them.** -/
theorem contributed_append {lineBreak : String} (h : lineBreak ∈ lineBreaks)
    (dir content content' : String) : contributed dir (content ++ lineBreak ++ content') =
      contributed dir content ++ contributed dir content' := by
  have hreturn : ∀ c ∈ ['\r'], isWhite c = true := List.forall_mem_singleton.2 rfl
  obtain ⟨white, hbreak, hwhite, hnewline⟩ : ∃ white : List Char,
      lineBreak.toList = white ++ ['\n'] ∧ (∀ c ∈ white, isWhite c = true) ∧ '\n' ∉ white := by
    rcases List.mem_pair.1 h with rfl | rfl
    · exact ⟨[], rfl, List.forall_mem_nil _, List.not_mem_nil⟩
    · exact ⟨['\r'], rfl, hreturn, by decide⟩
  have htext : (content ++ lineBreak ++ content').toList =
      content.toList ++ (white ++ '\n' :: content'.toList) := by
    rw [String.toList_append, String.toList_append, hbreak, List.append_assoc, List.append_assoc]
    rfl
  rw [contributed, htext]
  refine filterMap_go_append (fun line => ?_) (patternOf?_append hwhite dir) rfl hnewline [] _ _
  cases hend : dropEnding? ['\r'] line with
  | none => rfl
  | some rest => exact dropEnding?_eq_some_iff.1 hend ▸ (patternOf?_append hreturn dir rest).symm

/-! ## Verdicts -/

/-- A pattern that can be read speaks of a path. -/
def SpeaksOf (path : String) (isDir : Bool) (pattern : String) : Prop :=
  ∃ l ∈ IgnoreLine.parse? pattern, l.speaksOf (withoutDotSlash path) isDir = true

instance (path : String) (isDir : Bool) (pattern : String) :
    Decidable (SpeaksOf path isDir pattern) :=
  inferInstanceAs (Decidable (∃ l ∈ IgnoreLine.parse? pattern, _))

/-- The last one of some patterns that speaks of a path, by its meaning. -/
inductive Decides (path : String) (isDir : Bool) : List String → IgnoreLine → Prop where
  | intro {before after : List String} {pattern : String} {l : IgnoreLine}
      (meaning : IgnoreLine.parse? pattern = some l)
      (speaks : l.speaksOf (withoutDotSlash path) isDir = true)
      (last : ∀ later ∈ after, ¬ SpeaksOf path isDir later) :
      Decides path isDir (before ++ pattern :: after) l

/-- What a line says about a path of which it speaks. -/
def IgnoreLine.verdict (l : IgnoreLine) : Verdict := if l.negated then .whitelist else .ignore

section Verdicts

variable {path : String} {isDir : Bool}

/-- Later lines come first, and earlier ones are asked if they say nothing. -/
theorem verdictOf_append (earlier later : List IgnoreLine) :
    verdictOf (earlier ++ later) path isDir =
      if verdictOf later path isDir = .none then verdictOf earlier path isDir
      else verdictOf later path isDir := by
  rw [verdictOf, verdictOf, verdictOf, List.reverse_append, List.find?_append]
  cases later.reverse.find? fun l => l.speaksOf (withoutDotSlash path) isDir with
  | none => rfl
  | some l => cases hl : l.negated <;> simp [hl]

theorem verdictOf_singleton (l : IgnoreLine) : verdictOf [l] path isDir =
    if l.speaksOf (withoutDotSlash path) isDir then l.verdict else .none := by
  rw [verdictOf, List.reverse_singleton, List.find?_singleton]
  cases l.speaksOf (withoutDotSlash path) isDir with
  | false => rfl
  | true => rfl

/-- Nothing is decided just if no pattern speaks of the path. -/
theorem verdictOf_eq_none_iff {patterns : List String} :
    verdictOf (patterns.filterMap IgnoreLine.parse?) path isDir = .none ↔
      ∀ pattern ∈ patterns, ¬ SpeaksOf path isDir pattern := by
  rw [verdictOf]
  constructor
  · intro h pattern hpattern ⟨l, hl, hspeaks⟩
    split at h
    · rename_i hnone
      exact List.find?_eq_none.1 hnone l
        (List.mem_reverse.2 (List.mem_filterMap.2 ⟨pattern, hpattern, hl⟩)) hspeaks
    · split at h <;> cases h
  · intro h
    rw [List.find?_eq_none.2]
    intro l hl hspeaks
    obtain ⟨pattern, hpattern, hmeaning⟩ := List.mem_filterMap.1 (List.mem_reverse.1 hl)
    exact h pattern hpattern ⟨l, hmeaning, hspeaks⟩

/-- **The last pattern that speaks of a path decides**, whatever cannot be read stands between. -/
theorem verdictOf_of_decides {patterns : List String} {l : IgnoreLine}
    (h : Decides path isDir patterns l) :
    verdictOf (patterns.filterMap IgnoreLine.parse?) path isDir = l.verdict := by
  obtain ⟨meaning, speaks, last⟩ := h
  rename_i before after pattern
  have hlater := verdictOf_eq_none_iff.2 last
  have hlines : (before ++ pattern :: after).filterMap IgnoreLine.parse? =
      before.filterMap IgnoreLine.parse? ++ [l] ++ after.filterMap IgnoreLine.parse? := by
    rw [List.filterMap_append, List.filterMap_cons_some meaning, List.append_assoc]
    rfl
  have hne : l.verdict ≠ .none := by
    rw [IgnoreLine.verdict]
    split <;> exact nofun
  rw [hlines, verdictOf_append, if_pos hlater, verdictOf_append, verdictOf_singleton,
    if_pos speaks, if_neg hne]

/-- Among patterns of which one speaks of a path there is a last one that does. -/
theorem exists_decides {patterns : List String}
    (h : ∃ pattern ∈ patterns, SpeaksOf path isDir pattern) :
    ∃ l, Decides path isDir patterns l := by
  induction patterns using List.reverseRecOn with
  | nil =>
    obtain ⟨pattern, hpattern, -⟩ := h
    cases hpattern
  | append_singleton patterns pattern ih =>
    by_cases hlast : SpeaksOf path isDir pattern
    · obtain ⟨l, hmeaning, hspeaks⟩ := hlast
      exact ⟨l, .intro hmeaning hspeaks fun later hlater => absurd hlater List.not_mem_nil⟩
    · obtain ⟨l, hl⟩ := ih <| by
        obtain ⟨other, hother, hspeaks⟩ := h
        rcases List.mem_append.1 hother with hmem | hmem
        · exact ⟨other, hmem, hspeaks⟩
        · exact absurd (List.mem_singleton.1 hmem ▸ hspeaks) hlast
      obtain ⟨meaning, speaks, last⟩ := hl
      refine ⟨l, ?_⟩
      rw [List.append_assoc, List.cons_append]
      refine .intro meaning speaks fun later hlater => ?_
      rcases List.mem_append.1 hlater with hlater | hlater
      · exact last later hlater
      · rwa [List.mem_singleton.1 hlater]

end Verdicts

/-! ## Rules -/

/-- Rules that come of reading ignore files one after the other. -/
inductive IgnoreRules.Reached : IgnoreRules → Prop where
  | builtin : Reached IgnoreRules.builtin
  | enter {r : IgnoreRules} (h : Reached r) (dir content : String) : Reached (r.enter dir content)

/-- A line that is rewritten to a pattern that cannot be read. -/
def IsMalformed (dir : String) (line : List Char) : Prop :=
  ∃ pattern, patternOf? dir line = some pattern ∧ IgnoreLine.parse? pattern = none

/-- What the ignore files of a directory do to the rules that they are read on top of. -/
structure Layered (r : IgnoreRules) (dir : String) : Prop where
  /-- The rules are made anew from all patterns, if there are any new ones. -/
  rebuilt : ∀ content, r.enter dir content =
    if contributed dir content = [] then r
    else .ofPatterns (r.patterns ++ contributed dir content)
  /-- If a new pattern speaks of a path, the last one that does so decides. -/
  decided : ∀ content path isDir, (∃ p ∈ contributed dir content, SpeaksOf path isDir p) →
    ((r.enter dir content).ignores path isDir = true ↔
      ∃ l, Decides path isDir (contributed dir content) l ∧ l.negated = false)
  /-- Otherwise the verdict is that of the rules before. -/
  inherited : ∀ content path isDir, (∀ p ∈ contributed dir content, ¬ SpeaksOf path isDir p) →
    (r.enter dir content).ignores path isDir = r.ignores path isDir
  /-- Without a line that is blank or a comment the rules are the same. -/
  silent : ∀ content content' before line after, linesOf content.toList = before ++ line :: after →
    linesOf content'.toList = before ++ after → IsBlank line ∨ IsComment line →
    r.enter dir content = r.enter dir content'
  /-- Without a line that cannot be read all verdicts are the same. -/
  malformed : ∀ content content' before line after,
    linesOf content.toList = before ++ line :: after →
    linesOf content'.toList = before ++ after → IsMalformed dir line → ∀ path isDir,
    (r.enter dir content).ignores path isDir = (r.enter dir content').ignores path isDir
  /-- A file that is read after another one is read with it at once. -/
  joined : ∀ content content' lineBreak, lineBreak ∈ lineBreaks →
    (r.enter dir content).enter dir content' = r.enter dir (content ++ lineBreak ++ content')

/-- Entering a directory puts its patterns behind those from above. -/
theorem IgnoreRules.enter_eq (r : IgnoreRules) (dir content : String) : r.enter dir content =
    ⟨r.patterns ++ contributed dir content,
      r.lines ++ (contributed dir content).filterMap IgnoreLine.parse?⟩ :=
  rfl

variable {r : IgnoreRules} {dir : String}

/-- **Rules that are reached are made of their patterns**, in the order in which they were read. -/
theorem IgnoreRules.Reached.eq_ofPatterns (h : Reached r) :
    r = .ofPatterns r.patterns := by
  induction h with
  | builtin => rfl
  | @enter r h dir content ih =>
    have hlines : r.lines = r.patterns.filterMap IgnoreLine.parse? := congrArg IgnoreRules.lines ih
    rw [enter_eq, ofPatterns, hlines, List.filterMap_append]

theorem ignores_enter_of_decides {content path : String} {isDir : Bool} {l : IgnoreLine}
    (h : Decides path isDir (contributed dir content) l) :
    (r.enter dir content).ignores path isDir = !l.negated := by
  have hadded := verdictOf_of_decides h
  cases hl : l.negated <;>
    simp [IgnoreRules.ignores, IgnoreRules.enter_eq, verdictOf_append, hadded, IgnoreLine.verdict,
      hl]

/-- A line that becomes no pattern adds none. -/
theorem contributed_eq_of_silent {content content' : String} {before after : List (List Char)}
    {line : List Char} (hcontent : linesOf content.toList = before ++ line :: after)
    (hcontent' : linesOf content'.toList = before ++ after)
    (hline : patternOf? dir line = none) :
    contributed dir content = contributed dir content' := by
  rw [contributed, contributed, hcontent, hcontent', List.filterMap_append, List.filterMap_append,
    List.filterMap_cons_none hline]

/-- A line that becomes a pattern that cannot be read adds nothing that could decide. -/
theorem parse?_contributed_of_isMalformed {content content' : String}
    {before after : List (List Char)} {line : List Char}
    (hcontent : linesOf content.toList = before ++ line :: after)
    (hcontent' : linesOf content'.toList = before ++ after) (hline : IsMalformed dir line) :
    (contributed dir content).filterMap IgnoreLine.parse? =
      (contributed dir content').filterMap IgnoreLine.parse? := by
  obtain ⟨pattern, hpattern, hmeaning⟩ := hline
  rw [contributed, contributed, hcontent, hcontent', List.filterMap_append, List.filterMap_append,
    List.filterMap_cons_some hpattern, List.filterMap_append, List.filterMap_append,
    List.filterMap_cons_none hmeaning]

/-- **An ignore file is read on top of all rules that can be reached as a layer.** -/
theorem layered_of_reached (h : r.Reached) (dir : String) : Layered r dir where
  rebuilt content := by
    split
    · rename_i hnil
      rw [IgnoreRules.enter_eq, hnil, List.filterMap_nil, List.append_nil, List.append_nil]
    · -- What is reached is built from all of its patterns anew.
      exact (h.enter dir content).eq_ofPatterns
  decided content path isDir hspeaks := by
    constructor
    · intro hignored
      obtain ⟨l, hl⟩ := exists_decides hspeaks
      rw [ignores_enter_of_decides hl, Bool.not_eq_true'] at hignored
      exact ⟨l, hl, hignored⟩
    · rintro ⟨l, hl, hnegated⟩
      rw [ignores_enter_of_decides hl, hnegated, Bool.not_false]
  inherited content path isDir hnone := by
    rw [IgnoreRules.ignores, IgnoreRules.enter_eq, verdictOf_append,
      if_pos (verdictOf_eq_none_iff.2 hnone)]
    rfl
  silent content content' before line after hcontent hcontent' hline := by
    -- Neither a blank line nor a comment contributes a pattern.
    have hnone : patternOf? dir line = none :=
      hline.elim (patternOf?_of_isBlank · dir) (patternOf?_of_isComment · dir)
    rw [IgnoreRules.enter_eq, IgnoreRules.enter_eq,
      contributed_eq_of_silent hcontent hcontent' hnone]
  malformed content content' before line after hcontent hcontent' hline path isDir := by
    rw [IgnoreRules.ignores, IgnoreRules.ignores, IgnoreRules.enter_eq, IgnoreRules.enter_eq,
      parse?_contributed_of_isMalformed hcontent hcontent' hline]
  joined content content' lineBreak hbreak := by
    rw [IgnoreRules.enter_eq, IgnoreRules.enter_eq, IgnoreRules.enter_eq,
      contributed_append hbreak, List.filterMap_append, List.append_assoc, List.append_assoc]

/-- A directory takes back what the root ignores. A line that opens a brace and does not close it
cannot be read, in the ignore file of the root as in that of the directory, and does not matter. -/
theorem layered_of_reached_logs :
    (IgnoreRules.builtin.enter "" "*.log\n\x7ba\n").Reached ∧
      Layered (IgnoreRules.builtin.enter "" "*.log\n\x7ba\n") "app" ∧
      IsMalformed "" "\x7ba".toList ∧ IsMalformed "app" "\x7ba".toList ∧
      (∀ path isDir,
        ((IgnoreRules.builtin.enter "" "*.log\n\x7ba\n").enter "app" "!a.log\n\x7ba\n").ignores
            path isDir =
          ((IgnoreRules.builtin.enter "" "*.log\n\x7ba\n").enter "app" "!a.log\n").ignores
            path isDir) ∧
      ((IgnoreRules.builtin.enter "" "*.log\n\x7ba\n").enter "app" "!a.log\n\x7ba\n").ignores
        "app/a.log" false = false ∧
      ((IgnoreRules.builtin.enter "" "*.log\n\x7ba\n").enter "app" "!a.log\n\x7ba\n").ignores
        "app/b.log" false = true := by
  have hreached : (IgnoreRules.builtin.enter "" "*.log\n\x7ba\n").Reached := .enter .builtin _ _
  have hlayered := layered_of_reached hreached "app"
  have hmalformed : IsMalformed "app" "\x7ba".toList := ⟨_, rfl, by decide +kernel⟩
  exact ⟨hreached, hlayered, ⟨_, rfl, by decide +kernel⟩, hmalformed,
    hlayered.malformed _ _ ["!a.log".toList] _ [] (by decide +kernel) (by decide +kernel)
      hmalformed,
    by decide +kernel, by decide +kernel⟩

end RefGraph
