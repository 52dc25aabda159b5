import RefGraph.Proofs.Ignore.Lines
import RefGraph.Proofs.Walk.Visits

/-!
# Ignore files and their subtrees

The ignore file of a directory changes the verdict only on what lies below that directory, if no
name on the way to the directory has a character that means something else in a glob. Without that
condition it may reach further: the names are put into the glob as they are, and `[id]` matches `i`.

* `LiesBelow`: what lies below a directory, by the names that lead there.
* `ignores_enter_of_not_liesBelow`: the verdict on anything else stays as it was.
* `ignores_enter_brackets`: it need not for a directory called `[id]`.
-/

namespace RefGraph

/-! ## Paths of directories -/

theorem trimSlashes_eq_self {cs : List Char} (hhead : cs.head? ≠ some '/')
    (hlast : cs.getLast? ≠ some '/') : trimSlashes cs = cs := by
  have hdrop : ∀ ds : List Char, ds.head? ≠ some '/' → ds.dropWhile (· == '/') = ds := by
    intro ds hds
    cases ds with
    | nil => rfl
    | cons d ds => exact List.dropWhile_cons_of_neg (by simpa using hds)
  rw [trimSlashes, hdrop cs hhead, hdrop cs.reverse (by rwa [List.head?_reverse]),
    List.reverse_reverse]

/-- The path along names has no slash at its ends. -/
theorem trimSlashes_pathAlong {names : List String} (hne : names ≠ [])
    (h : ∀ name ∈ names, IsFileName name) :
    trimSlashes (pathAlong names).toList = (pathAlong names).toList := by
  have hnames := namesOf_pathAlong hne h
  have hempty : "" ∉ Disk.namesOf (pathAlong names) := by
    rw [hnames]
    exact fun he => (h "" he).1 rfl
  refine trimSlashes_eq_self (fun hhead => hempty ?_) (fun hlast => hempty ?_)
  · obtain ⟨rest, hrest⟩ := List.head?_eq_some_iff.1 hhead
    rw [Disk.namesOf, hrest, splitAtChar, if_pos rfl]
    exact List.mem_cons_self ..
  · obtain ⟨rest, hrest⟩ := List.getLast?_eq_some_iff.1 hlast
    rw [Disk.namesOf, hrest, splitAtChar_append, List.map_append]
    exact List.mem_append_right _ (List.mem_singleton.2 rfl)

/-- A path along names consists of slashes and the characters of the names. -/
theorem forall_mem_pathAlong {P : Char → Prop} {names : List String} (hslash : P '/')
    (h : ∀ name ∈ names, ∀ c ∈ name.toList, P c) : ∀ c ∈ (pathAlong names).toList, P c := by
  induction names using List.reverseRecOn with
  | nil => exact fun c hc => absurd hc List.not_mem_nil
  | append_singleton names name ih =>
    have hname := h name (by simp)
    have hnames := ih fun n hn => h n (List.mem_append_left _ hn)
    rw [pathAlong_concat, relativeName]
    split
    · exact hname
    · intro c hc
      simp only [String.toList_append, List.mem_append] at hc
      rcases hc with (hc | hc) | hc
      · exact hnames c hc
      · rwa [List.mem_singleton.1 hc]
      · exact hname c hc

theorem isLiteral_pathAlong {names : List String}
    (h : ∀ name ∈ names, Glob.IsLiteral name.toList) : Glob.IsLiteral (pathAlong names).toList :=
  forall_mem_pathAlong (by decide) h

/-- Names lead to something below a directory. -/
def LiesBelow (dir names : List String) : Prop := ∃ more, more ≠ [] ∧ names = dir ++ more

instance (dir names : List String) : Decidable (LiesBelow dir names) :=
  decidable_of_iff (dir <+: names ∧ dir ≠ names) (by
    constructor
    · rintro ⟨⟨more, rfl⟩, hne⟩
      exact ⟨more, fun hmore => hne (by rw [hmore, List.append_nil]), rfl⟩
    · rintro ⟨more, hmore, rfl⟩
      exact ⟨List.prefix_append .., fun he => hmore (List.self_eq_append_right.1 he)⟩)

/-- A path that begins with that of a directory and a slash lies below the directory. -/
theorem liesBelow_of_isPrefix {dir names : List String} (hne : dir ≠ [])
    (hdir : ∀ name ∈ dir, IsFileName name) (hnames : ∀ name ∈ names, IsFileName name)
    (h : (pathAlong dir).toList ++ ['/'] <+: (pathAlong names).toList) : LiesBelow dir names := by
  obtain ⟨rest, hrest⟩ := h
  have hnamesne : names ≠ [] := by
    rintro rfl
    simp [pathAlong] at hrest
  refine ⟨(splitAtChar '/' rest).map String.ofList, by simp [splitAtChar_ne_nil], ?_⟩
  rw [← namesOf_pathAlong hnamesne hnames, ← namesOf_pathAlong hne hdir, Disk.namesOf, Disk.namesOf,
    ← hrest, List.append_assoc, List.singleton_append, splitAtChar_append, List.map_append]

/-! ## The rules of a directory -/

/-- A line of the ignore file of a directory does not speak of what does not lie below it. -/
theorem speaksOf_eq_false {dir names : List String} {line text : String} {l : IgnoreLine}
    (hne : dir ≠ []) (hdir : ∀ name ∈ dir, IsFileName name ∧ Glob.IsLiteral name.toList)
    (hnames : ∀ name ∈ names, IsFileName name) (hbelow : ¬ LiesBelow dir names)
    (hline : rootedLine? (pathAlong dir) line = some text) (hl : IgnoreLine.parse? text = some l)
    (isDir : Bool) : l.speaksOf (pathAlong names) isDir = false := by
  have hdirnames : ∀ name ∈ dir, IsFileName name := fun name hname => (hdir name hname).1
  obtain ⟨negated, body, c, hlast, hc, rfl⟩ :=
    exists_rootedLine?_eq (trimSlashes_pathAlong hne hdirnames) (pathAlong_ne_empty hne hdirnames)
      hline
  have hbody : body ≠ [] := by
    rintro rfl
    cases hlast
  rw [IgnoreLine.parse?_rooted negated (c := c) (by simp [hlast, List.getLast?_cons]) hc] at hl
  obtain ⟨rest, hglob⟩ := IgnoreLine.exists_glob_eq hbody hl
  refine eq_false_of_ne_true fun hspeaks => hbelow ?_
  have hmatches : l.glob.matchesText (pathAlong names) = true := by
    rw [IgnoreLine.speaksOf, Bool.and_eq_true] at hspeaks
    exact hspeaks.2
  exact liesBelow_of_isPrefix hne hdirnames hnames (Glob.isPrefix_of_matchesText
    (isLiteral_pathAlong fun name hname => (hdir name hname).2) hglob hmatches)

/-- A path whose first name is no dot does not begin with a dot and a slash. -/
theorem withoutDotSlash_eq_self {path : String} (h : (Disk.namesOf path).head? ≠ some ".") :
    withoutDotSlash path = path := by
  rw [withoutDotSlash]
  split
  · rename_i rest hbegin
    refine absurd ?_ h
    rw [Disk.namesOf, dropBeginning?_eq_some_iff.1 hbegin]
    rfl
  · rfl

/-- A path along names of files does not begin with `./`. -/
theorem withoutDotSlash_pathAlong {names : List String}
    (h : ∀ name ∈ names, IsFileName name ∧ name ≠ ".") :
    withoutDotSlash (pathAlong names) = pathAlong names := by
  by_cases hne : names = []
  · rw [hne]
    rfl
  · refine withoutDotSlash_eq_self fun hhead => ?_
    rw [namesOf_pathAlong hne fun name hname => (h name hname).1] at hhead
    exact (h "." (List.mem_of_mem_head? hhead)).2 rfl

/-- **The ignore file of a directory says nothing of what does not lie below that directory**, as
long as the names that lead to the directory mean nothing else in a glob. -/
theorem ignores_enter_of_not_liesBelow (r : IgnoreRules) (content : String) (isDir : Bool)
    {dir names : List String} (hne : dir ≠ [])
    (hdir : ∀ name ∈ dir, IsFileName name ∧ Glob.IsLiteral name.toList)
    (hnames : ∀ name ∈ names, IsFileName name ∧ name ≠ ".") (hbelow : ¬ LiesBelow dir names) :
    (r.enter (pathAlong dir) content).ignores (pathAlong names) isDir =
      r.ignores (pathAlong names) isDir := by
  -- The lines of the file are asked first, as they come last, and none of them has an opinion.
  have hadded : ∀ l ∈ (((linesOf content.toList).filterMap fun line =>
      rootedLine? (pathAlong dir) (String.ofList line)).filterMap IgnoreLine.parse?).reverse,
      ¬ l.speaksOf (pathAlong names) isDir = true := by
    intro l hl
    obtain ⟨text, htext, hparse⟩ := List.mem_filterMap.1 (List.mem_reverse.1 hl)
    obtain ⟨line, -, hline⟩ := List.mem_filterMap.1 htext
    rw [speaksOf_eq_false hne hdir (fun name hname => (hnames name hname).1) hbelow hline hparse]
    exact Bool.false_ne_true
  rw [IgnoreRules.ignores, IgnoreRules.ignores, verdictOf, verdictOf,
    withoutDotSlash_pathAlong hnames, IgnoreRules.enter, List.reverse_append, List.find?_append,
    List.find?_eq_none.2 hadded, Option.none_or]

/-- The rules of `app/lib` say nothing of `app/[id]/secret.ts`. -/
theorem ignores_enter_of_not_liesBelow_lib :
    ¬ LiesBelow ["app", "lib"] ["app", "[id]", "secret.ts"] ∧
      (IgnoreRules.builtin.enter (pathAlong ["app", "lib"])
          "!a\n**/{secret.ts,x/../y}\n[^/]*\n").ignores
        (pathAlong ["app", "[id]", "secret.ts"]) false =
      IgnoreRules.builtin.ignores (pathAlong ["app", "[id]", "secret.ts"]) false :=
  ⟨by decide, ignores_enter_of_not_liesBelow _ _ _ (by decide) (by decide) (by decide) (by decide)⟩

/-- The same does not hold of all directories: the rules of `app/[id]` may ignore
`app/i/secret.ts`. -/
theorem ignores_enter_brackets :
    ¬ ∀ (r : IgnoreRules) (content : String) (isDir : Bool) (dir names : List String), dir ≠ [] →
      (∀ name ∈ dir, IsFileName name) → (∀ name ∈ names, IsFileName name ∧ name ≠ ".") →
      ¬ LiesBelow dir names →
      (r.enter (pathAlong dir) content).ignores (pathAlong names) isDir =
        r.ignores (pathAlong names) isDir := by
  intro h
  have hsame := h IgnoreRules.builtin "secret.ts" false ["app", "[id]"] ["app", "i", "secret.ts"]
    (by decide) (by decide) (by decide) (by decide)
  have hignored : (IgnoreRules.builtin.enter (pathAlong ["app", "[id]"]) "secret.ts").ignores
      (pathAlong ["app", "i", "secret.ts"]) false = true := by decide +kernel
  have hkept : IgnoreRules.builtin.ignores (pathAlong ["app", "i", "secret.ts"]) false = false := by
    decide +kernel
  rw [hignored, hkept] at hsame
  exact absurd hsame (by decide)

end RefGraph
