import RefGraph.Proofs.Glob.Nested
import RefGraph.Proofs.Ignore.Subtree
import RefGraph.Proofs.Scan.Alike

/-!
# Ignore files that are moved with their directories

The ignore file of a directory says of what lies below that directory what it would say at the root,
if no name on the way there means anything else in a glob. Its lines are compared one by one: what
is written behind the directory is the line as it stands at the root, and the globs of both say the
same. Lines that leave nothing but `**/` are set apart: at the root they speak of everything, and
elsewhere of nothing.

* `IgnoreLine.SameBelow`: two lines say the same, one of what lies below a directory.
* `LeavesDirs`: the lines that are set apart.
* `rel_rootedLine?`: all other lines say the same below a directory.
* `speaksOf_of_leavesDirs`: these do not.
* `ignores_enter_moved`: an ignore file says below its directory what it says at the root.
* `ignores_enter_bareDirs`: a file with a line that is set apart need not.
-/

namespace RefGraph

/-! ## Lines at the root -/

namespace IgnoreLine

/-- A line that names directories before its last name is read like one with a slash at its
beginning. -/
theorem parse?_dirs (negated : Bool) {cs : List Char} {c : Char} (hne : cs ≠ [])
    (hlast : cs.getLast? = some c) (hc : isWhite c = false) :
    parse? (String.ofList ((if negated then ['!'] else []) ++ ("**".toList ++ '/' :: cs))) =
      ofBody negated true ("**".toList ++ '/' :: cs) := by
  have hends : ((if negated then ['!'] else []) ++ ("**".toList ++ '/' :: cs)).getLast? =
      some c := by
    simp [List.getLast?_append, List.getLast?_cons, hlast]
  have hglob : globText false (splitEnd ("**".toList ++ '/' :: cs)).2 =
      globText true (splitEnd ("**".toList ++ '/' :: cs)).2 := by
    rw [splitEnd_append hne]
    simp [globText]
  rw [ofBody, ← hglob, parse?, String.toList_ofList, trimmed_eq_self hends hc]
  cases negated
  · rfl
  · rfl

end IgnoreLine

/-! ## Lines of an ignore file -/

/-- A line of which nothing but `**/` is left, without its marks and without an escape at its
end. -/
def LeavesDirs (line : String) : Prop :=
  ∃ x ∈ LineParts.of? line, Glob.IsBareDirs (IgnoreLine.splitEnd x.below).2

instance (line : String) : Decidable (LeavesDirs line) :=
  inferInstanceAs (Decidable (∃ x ∈ LineParts.of? line, _))

namespace LineParts

variable {line : String} {x : LineParts}

theorem below_ne_nil (h : of? line = some x) : x.below ≠ [] := by
  obtain ⟨c, hlast, -⟩ := exists_getLast?_below h
  intro he
  rw [he] at hlast
  cases hlast

/-- What a line says at the root does not depend on a slash at its beginning. -/
theorem parse?_rooted_nil (h : of? line = some x) :
    IgnoreLine.parse? (String.ofList (x.rooted [])) = IgnoreLine.ofBody x.negated true x.below := by
  obtain ⟨c, hlast, hc⟩ := exists_getLast?_below h
  rw [rooted_nil, mark]
  cases hanchored : x.anchored with
  | true =>
    rw [if_pos rfl]
    exact IgnoreLine.parse?_rooted x.negated hlast hc
  | false =>
    obtain ⟨hcore, -⟩ := exists_line_eq h
    have hbelow : x.below =
        "**".toList ++ '/' :: (x.core ++ if x.dirsOnly then ['/'] else []) := by
      rw [below, hanchored]
      rfl
    have hend : x.core ++ (if x.dirsOnly then ['/'] else []) ≠ [] := by simp [hcore]
    rw [if_neg Bool.false_ne_true, hbelow]
    refine IgnoreLine.parse?_dirs x.negated hend (c := c) ?_ hc
    rwa [hbelow, ← List.singleton_append, ← List.append_assoc,
      List.getLast?_append_of_ne_nil _ hend] at hlast

theorem parse?_rooted_dir (h : of? line = some x) {dir : List Char} (hdir : dir ≠ []) :
    IgnoreLine.parse? (String.ofList (x.rooted dir)) =
      IgnoreLine.ofBody x.negated true (dir ++ '/' :: x.below) := by
  obtain ⟨c, hlast, hc⟩ := exists_getLast?_below h
  rw [rooted_of_ne_nil x hdir]
  refine IgnoreLine.parse?_rooted x.negated (c := c) ?_ hc
  rw [List.getLast?_append, List.getLast?_cons, hlast]
  rfl

end LineParts

/-- A pattern of nothing but `**/` is read as it stands. -/
theorem globText_bareDirs {cs : List Char} (h : Glob.IsBareDirs cs) :
    IgnoreLine.globText true cs = cs := by
  have hlast := h.getLast?_eq
  rw [IgnoreLine.globText_true]
  refine if_neg ?_
  rintro ⟨before, rfl⟩
  rw [List.getLast?_append] at hlast
  cases hlast

/-! ## Lines below a directory -/

namespace IgnoreLine

/-- Two lines say the same: the first of the paths below a directory, the second of the paths from
there on. -/
structure SameBelow (dir : String) (l' l : IgnoreLine) : Prop where
  glob : Glob.SameBelow dir l'.glob l.glob
  negated : l'.negated = l.negated
  dirsOnly : l'.dirsOnly = l.dirsOnly

/-- Lines that are the same below a directory speak of the same paths there. -/
theorem SameBelow.speaksOf_eq {dir : String} {l' l : IgnoreLine} (h : SameBelow dir l' l)
    (p : String) (isDir : Bool) : l'.speaksOf (dir ++ "/" ++ p) isDir = l.speaksOf p isDir := by
  rw [speaksOf, speaksOf, h.glob p, h.dirsOnly]

end IgnoreLine

/-- The path of a directory, without slashes at its ends, that means nothing but itself in a
glob. -/
structure IsPlainDir (dir : String) : Prop where
  ne_empty : dir ≠ ""
  trimSlashes_eq : trimSlashes dir.toList = dir.toList
  literal : Glob.IsLiteral dir.toList
  brace_notMem : '}' ∉ dir.toList

theorem IsPlainDir.toList_ne_nil {dir : String} (h : IsPlainDir dir) : dir.toList ≠ [] :=
  fun he => h.ne_empty (String.toList_eq_nil_iff.1 he)

section Lines

variable {dir : String} (hdir : IsPlainDir dir)
include hdir

namespace IgnoreLine

/-- Globs of lines say the same below a directory, unless they are nothing but `**/`. -/
theorem rel_parse?_globText {cs : List Char} (h : ¬ Glob.IsBareDirs cs) :
    Option.Rel (Glob.SameBelow dir)
      (Glob.parse? true (globText true (dir.toList ++ '/' :: cs))).toOption
      (Glob.parse? true (globText true cs)).toOption := by
  rw [globText_append]
  by_cases hstars : cs = ['*', '*']
  · rw [if_pos hstars, hstars]
    exact Glob.rel_parse?_any hdir.literal hdir.brace_notMem true
  · rw [if_neg hstars, globText_true]
    split
    · -- What ends in `/*` ends neither in `**` nor in a slash.
      have hends (before : List Char) : before ++ ['*', '*'] ≠ cs ++ "/*".toList :=
        fun he => absurd (List.append_inj_right' he rfl) (by decide)
      refine Glob.rel_parse?_below hdir.literal hdir.brace_notMem true ?_ ?_ ?_
      · exact fun he => hends [] he.symm
      · rintro ⟨before, hbefore⟩
        exact hends (before ++ ['/']) (by rw [← hbefore, List.append_assoc]; rfl)
      · intro hbare
        have hslash := hbare.getLast?_eq
        rw [List.getLast?_append] at hslash
        cases hslash
    · rename_i hsuffix
      exact Glob.rel_parse?_below hdir.literal hdir.brace_notMem true hstars hsuffix h

/-- A line that is moved into a directory means the same below it. -/
theorem rel_ofBody_below (negated : Bool) {cs : List Char} (hne : cs ≠ [])
    (h : ¬ Glob.IsBareDirs (splitEnd cs).2) :
    Option.Rel (SameBelow dir) (ofBody negated true (dir.toList ++ '/' :: cs))
      (ofBody negated true cs) := by
  rw [ofBody_eq, ofBody_eq, splitEnd_append hne]
  exact rel_optionMap (rel_parse?_globText hdir h) fun _ _ hglob => ⟨hglob, rfl, rfl⟩

end IgnoreLine

/-- A line of an ignore file says below its directory what it says at the root. -/
theorem rel_rootedLine? {line : String} (h : ¬ LeavesDirs line) :
    Option.Rel (IgnoreLine.SameBelow dir) ((rootedLine? dir line).bind IgnoreLine.parse?)
      ((rootedLine? "" line).bind IgnoreLine.parse?) := by
  have hroot : trimSlashes "".toList = [] := rfl
  rw [rootedLine?_eq, rootedLine?_eq, hdir.trimSlashes_eq, hroot]
  cases hx : LineParts.of? line with
  | none => exact .none
  | some x =>
    rw [Option.map_some, Option.map_some, Option.bind_some, Option.bind_some,
      LineParts.parse?_rooted_nil hx, LineParts.parse?_rooted_dir hx hdir.toList_ne_nil]
    exact IgnoreLine.rel_ofBody_below hdir x.negated (LineParts.below_ne_nil hx)
      fun hbare => h ⟨x, hx, hbare⟩

/-- The lines that are set apart speak of all directories at the root, and elsewhere of nothing. -/
theorem speaksOf_of_leavesDirs {line : String} (h : LeavesDirs line) :
    ∃ l' l, (rootedLine? dir line).bind IgnoreLine.parse? = some l' ∧
      (rootedLine? "" line).bind IgnoreLine.parse? = some l ∧
      (∀ p, l.speaksOf p true = true) ∧
      ∀ p c isDir, p.toList.getLast? = some c → c ≠ '/' →
        l'.speaksOf (dir ++ "/" ++ p) isDir = false := by
  obtain ⟨x, hx, hbare⟩ := h
  have hroot : trimSlashes "".toList = [] := rfl
  have hstars : (IgnoreLine.splitEnd x.below).2 ≠ ['*', '*'] := by
    intro he
    have hlast := hbare.getLast?_eq
    rw [he] at hlast
    cases hlast
  obtain ⟨hbelow, htop⟩ := Glob.parse?_bareDirs hdir.literal hdir.brace_notMem true hbare
  rw [rootedLine?_eq, rootedLine?_eq, hdir.trimSlashes_eq, hroot, Option.mem_def.1 hx,
    Option.map_some, Option.map_some, Option.bind_some, Option.bind_some,
    LineParts.parse?_rooted_nil hx, LineParts.parse?_rooted_dir hx hdir.toList_ne_nil,
    IgnoreLine.ofBody_eq, IgnoreLine.ofBody_eq,
    IgnoreLine.splitEnd_append (LineParts.below_ne_nil hx), IgnoreLine.globText_append,
    if_neg hstars, globText_bareDirs hbare, hbelow, htop]
  refine ⟨_, _, rfl, rfl, fun p => ?_, fun p c isDir hlast hc => ?_⟩
  · rw [IgnoreLine.speaksOf, Bool.or_true, Bool.true_and]
    rfl
  · rw [IgnoreLine.speaksOf, Glob.matchesText_dirs_eq_false hlast hc, Bool.and_false]

/-- Rules that say the same below a directory still do so once they take in an ignore file. -/
theorem forall₂_enter {content : String}
    (h : ∀ line ∈ linesOf content.toList, ¬ LeavesDirs (String.ofList line))
    {r' r : IgnoreRules} (hr : List.Forall₂ (IgnoreLine.SameBelow dir) r'.lines r.lines) :
    List.Forall₂ (IgnoreLine.SameBelow dir) (r'.enter dir content).lines
      (r.enter "" content).lines := by
  refine List.rel_append hr ?_
  rw [List.filterMap_filterMap, List.filterMap_filterMap]
  have hlines : List.Forall₂ (fun line' line => line' = line ∧ ¬ LeavesDirs (String.ofList line))
      (linesOf content.toList) (linesOf content.toList) :=
    List.forall₂_same.2 fun line hline => ⟨rfl, h line hline⟩
  refine List.rel_filterMap ?_ hlines
  rintro _ line ⟨rfl, hline⟩
  exact rel_rootedLine? hdir hline

end Lines

/-! ## Rules -/

/-- The names that are always ignored. -/
def builtinNames : List String :=
  [".git", "node_modules", ".pnpm-store", ".cache", "dist", "build", ".next", ".DS_Store",
    "Thumbs.db"]

/-- The builtin rules ignore their names in every directory. -/
theorem builtin_tokens : IgnoreRules.builtin.lines.map (fun l => l.glob.tokens) =
    builtinNames.map fun name => .leadingDirs :: Glob.literals name.toList := rfl

/-- What is always ignored is so below any directory. -/
theorem sameBelow_builtin {dir : String} {l : IgnoreLine} (h : l ∈ IgnoreRules.builtin.lines) :
    l.SameBelow dir l := by
  have htokens := List.mem_map_of_mem (f := fun l : IgnoreLine => l.glob.tokens) h
  rw [builtin_tokens] at htokens
  obtain ⟨name, hname, htokens⟩ := List.mem_map.1 htokens
  have hnames : ∀ name ∈ builtinNames, name.toList ≠ [] ∧ '/' ∉ name.toList := by decide
  obtain ⟨hne, hslash⟩ := hnames name hname
  refine ⟨?_, rfl, rfl⟩
  have hglob : l.glob = ⟨.leadingDirs :: Glob.literals name.toList⟩ := by rw [htokens]
  rw [hglob]
  exact Glob.sameBelow_name hne hslash

/-- Lines that say the same below a directory come to the same verdict there. -/
theorem verdictOf_below {dir : String} {lines' lines : List IgnoreLine}
    (h : List.Forall₂ (IgnoreLine.SameBelow dir) lines' lines) {p : String}
    (hp : withoutDotSlash (dir ++ "/" ++ withoutDotSlash p) = dir ++ "/" ++ withoutDotSlash p)
    (isDir : Bool) :
    verdictOf lines' (dir ++ "/" ++ withoutDotSlash p) isDir = verdictOf lines p isDir := by
  have hfind := rel_find? (List.forall₂_reverse_iff.2 h)
    (p := fun l => l.speaksOf (dir ++ "/" ++ withoutDotSlash p) isDir)
    (q := fun l => l.speaksOf (withoutDotSlash p) isDir)
    fun l' l hl => hl.speaksOf_eq (withoutDotSlash p) isDir
  rw [verdictOf, verdictOf, hp]
  generalize List.find? _ lines'.reverse = found' at hfind
  generalize List.find? _ lines.reverse = found at hfind
  cases hfind with
  | none => rfl
  | some hl =>
    dsimp only
    rw [hl.negated]

/-- The path along names that mean nothing but themselves. -/
theorem isPlainDir_pathAlong {dir : List String} (hne : dir ≠ [])
    (h : ∀ name ∈ dir, IsFileName name ∧ Glob.IsLiteral name.toList ∧ '}' ∉ name.toList) :
    IsPlainDir (pathAlong dir) where
  ne_empty := pathAlong_ne_empty hne fun name hname => (h name hname).1
  trimSlashes_eq := trimSlashes_pathAlong hne fun name hname => (h name hname).1
  literal := isLiteral_pathAlong fun name hname => (h name hname).2.1
  brace_notMem hmem :=
    forall_mem_pathAlong (P := fun c => c ≠ '}') (by decide)
      (fun name hname c hc he => (h name hname).2.2 (he ▸ hc)) _ hmem rfl

/-- A path below a directory does not begin with a dot and a slash. -/
theorem withoutDotSlash_below {dir : List String} (hne : dir ≠ [])
    (hdir : ∀ name ∈ dir, IsFileName name) (hdot : "." ∉ dir) (p : String) :
    withoutDotSlash (pathAlong dir ++ "/" ++ p) = pathAlong dir ++ "/" ++ p := by
  have hsplit : Disk.namesOf (pathAlong dir ++ "/" ++ p) = dir ++ Disk.namesOf p := by
    rw [Disk.namesOf, String.toList_append, String.toList_append, List.append_assoc]
    show (splitAtChar '/' ((pathAlong dir).toList ++ '/' :: p.toList)).map _ = _
    rw [splitAtChar_append, List.map_append]
    exact congrArg (· ++ _) (namesOf_pathAlong hne hdir)
  refine withoutDotSlash_eq_self fun hhead => hdot ?_
  rw [hsplit, List.head?_append_of_ne_nil _ hne] at hhead
  exact List.mem_of_mem_head? hhead

/-- **An ignore file says of what lies below its directory what it says at the root of the paths
from there**, if no name that leads to the directory means anything else in a glob and no line of
the file leaves nothing but `**/`. At the root a `./` before a path is not read. -/
theorem ignores_enter_moved {dir : List String} (hne : dir ≠ [])
    (hdir : ∀ name ∈ dir, IsFileName name ∧ Glob.IsLiteral name.toList ∧ '}' ∉ name.toList)
    (hdot : "." ∉ dir) {content : String}
    (hcontent : ∀ line ∈ linesOf content.toList, ¬ LeavesDirs (String.ofList line)) (p : String)
    (isDir : Bool) :
    (IgnoreRules.builtin.enter (pathAlong dir) content).ignores
        (pathAlong dir ++ "/" ++ withoutDotSlash p) isDir =
      (IgnoreRules.builtin.enter "" content).ignores p isDir := by
  have hbuiltin : List.Forall₂ (IgnoreLine.SameBelow (pathAlong dir)) IgnoreRules.builtin.lines
      IgnoreRules.builtin.lines := List.forall₂_same.2 fun l hl => sameBelow_builtin hl
  have hlines := forall₂_enter (isPlainDir_pathAlong hne hdir) hcontent hbuiltin
  have hdots := withoutDotSlash_below hne (fun name hname => (hdir name hname).1) hdot
  rw [IgnoreRules.ignores, IgnoreRules.ignores,
    verdictOf_below hlines (hdots _)]

/-- The ignore file of `app/lib` says the same of `gen/x.ts` in that directory as one at the root
says of `gen/x.ts`, with lines that take back others, choices, classes and directories. -/
theorem ignores_enter_moved_lib :
    (∀ line ∈ linesOf "# made\n**\n!*.{ts,css}\n**/gen/**\n/[a-f]?/\n".toList,
      ¬ LeavesDirs (String.ofList line)) ∧
    (IgnoreRules.builtin.enter (pathAlong ["app", "lib"])
        "# made\n**\n!*.{ts,css}\n**/gen/**\n/[a-f]?/\n").ignores
        (pathAlong ["app", "lib"] ++ "/" ++ withoutDotSlash "gen/x.ts") false =
      (IgnoreRules.builtin.enter "" "# made\n**\n!*.{ts,css}\n**/gen/**\n/[a-f]?/\n").ignores
        "gen/x.ts" false :=
  ⟨by decide +kernel,
    ignores_enter_moved (by decide) (by decide) (by decide) (by decide +kernel) _ _⟩

/-- A line that leaves nothing but `**/` says something else at the root: there it speaks of all
directories, and below a directory of none. -/
theorem ignores_enter_bareDirs :
    ¬ ∀ (dir : List String) (content p : String) (isDir : Bool), dir ≠ [] →
      (∀ name ∈ dir, IsFileName name ∧ Glob.IsLiteral name.toList ∧ '}' ∉ name.toList) →
      "." ∉ dir → p ≠ "" → withoutDotSlash p = p →
      (IgnoreRules.builtin.enter (pathAlong dir) content).ignores (pathAlong dir ++ "/" ++ p)
          isDir =
        (IgnoreRules.builtin.enter "" content).ignores p isDir := by
  intro h
  have hsame :=
    h ["d"] "**//\n" "x" true (by decide) (by decide) (by decide) (by decide) (by decide)
  have hbelow : (IgnoreRules.builtin.enter (pathAlong ["d"]) "**//\n").ignores
      (pathAlong ["d"] ++ "/" ++ "x") true = false := by decide +kernel
  have hroot : (IgnoreRules.builtin.enter "" "**//\n").ignores "x" true = true := by
    decide +kernel
  rw [hbelow, hroot] at hsame
  exact absurd hsame (by decide)

end RefGraph
