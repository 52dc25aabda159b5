import RefGraph.Proofs.Scan.Probes
import RefGraph.Proofs.Walk.Meaning
import RefGraph.Scan

/-!
# Scans are confined to their root

What a scan gives depends on the tree below its root and on hardly anything else. References are
looked for outside of the root as well, but what is found there counts as nothing. There is one
exception: a reference that means the root itself is first looked for beside the root, as a file
that is called like the root with an extension.

* `visitsIn_congr`: a walk visits the same in two file systems that show the same below a root.
* `resolve?_congr`: a reference leads to the same file below the root in both, or to none.
* `scan_congr`: a scan gives the same in both, if they have the same files beside the root.
* `scan_beside_root`: it may not if they have not.
-/

namespace RefGraph

open FileSystem

variable {fs fs' : FileSystem} {root : Path}

/-! ## The walk -/

theorem FileSystem.AgreeBelow.entries (h : AgreeBelow root fs fs') {dir : Path}
    (hdir : root.Holds dir) : fs.entries dir = fs'.entries dir :=
  entries_congr (h.list dir hdir)

/-- The ignore file of a directory is read from below the root. -/
theorem rulesIn_congr (h : AgreeBelow root fs fs') {relative : String} {above : IgnoreRules}
    {es : List Entry} (hes : ∀ e ∈ es, root.Holds e.path) :
    rulesIn fs relative above es = rulesIn fs' relative above es := by
  rw [rulesIn, rulesIn]
  split
  · rfl
  · rename_i e he
    rw [h.read e.path (hes e (List.mem_of_find?_eq_some he))]

/-- A walk visits the same, whatever bounds on chains of directories it works with. -/
theorem visitsIn_congr (h : AgreeBelow root fs fs') (hlists : fs.ListsChildren root)
    {fuel fuel' : Nat} {dir : Path} (hdir : root.Holds dir) (hends : fs.EndsWithin fuel dir)
    (hends' : fs'.EndsWithin fuel' dir) (names : List String) (above : IgnoreRules) :
    visitsIn fs fuel dir names above = visitsIn fs' fuel' dir names above := by
  induction fuel generalizing fuel' dir names above with
  | zero => exact absurd hends id
  | succ fuel ih =>
    cases fuel' with
    | zero => exact absurd hends' id
    | succ fuel' =>
      have hchild : ∀ e ∈ sortEntries (fs.entries dir), root.Holds e.path := fun e he =>
        hdir.concat (hlists dir hdir e (mem_sortEntries.1 he))
      rw [visitsIn_succ, visitsIn_succ, ← h.entries hdir, rulesIn_congr h hchild]
      refine List.flatMap_congr fun e he => ?_
      rw [visitsOf, visitsOf]
      have hmem := mem_sortEntries.1 he
      cases hd : e.isDir with
      | false => rfl
      | true =>
        rw [ih (hchild e he) (hends e hmem hd) (hends' e (h.entries hdir ▸ hmem) hd)]

/-- File systems that agree below a root are walked alike from there. -/
theorem walk_congr (h : AgreeBelow root fs fs') (hlists : fs.ListsChildren root)
    (hbound : fs.IsBounded root) (hbound' : fs'.IsBounded root) (limit : Nat) :
    walk fs root limit = walk fs' root limit := by
  have hvisits : visits fs root = visits fs' root :=
    visitsIn_congr h hlists root.holds_self hbound hbound' [] IgnoreRules.builtin
  rw [walk_eq, walk_eq, hvisits]

/-- All files that a walk keeps lie below the root. -/
theorem holds_of_mem_candidates (hlists : fs.ListsChildren root) {limit : Nat} {w : Walk}
    (hw : walk fs root limit = .ok w) {f : WalkedFile} (hf : f ∈ w.candidates) :
    root.Holds f.path := by
  obtain ⟨v, hv, hfile⟩ := exists_visit_of_mem_files hw (List.mem_filter.1 hf).1
  rw [(Visit.walkedFile?_eq_some_iff.1 hfile).2.2.1]
  exact ⟨v.names, components_of_mem_visits hlists hv⟩

/-! ## References -/

theorem Path.Holds.isAbsolute {p : Path} (h : root.Holds p) (hroot : root.isAbsolute = true) :
    p.isAbsolute = true := by
  obtain ⟨names, hnames⟩ := h
  rw [Path.isAbsolute_iff_mem, hnames]
  exact List.mem_append_left _ (Path.isAbsolute_iff_mem.1 hroot)

/-- From an absolute root and an absolute file, candidates are absolute. -/
theorem isAbsolute_of_candidate? {aliases : List String} {fromFile p : Path} {specifier : List Char}
    (hroot : root.isAbsolute = true) (hfile : fromFile.isAbsolute = true)
    (h : candidate? root aliases fromFile specifier = some p) : p.isAbsolute = true := by
  unfold candidate? at h
  split at h
  · rw [← Option.some.inj h]
    exact Path.isAbsolute_join hroot _
  split at h
  · rw [← Option.some.inj h]
    exact Path.isAbsolute_join hroot _
  · rw [← Option.some.inj h]
    refine Path.isAbsolute_join ?_ _
    cases hparent : fromFile.parent? with
    | none => exact hroot
    | some parent => exact Path.isAbsolute_parent? hfile hparent
  · cases h

/-- A reference leads to the same file below the root, or to none. -/
theorem resolve?_congr (h : AgreeBelow root fs fs') (hroot : root.isAbsolute = true)
    (hparent : Component.parent ∉ root.components)
    (hbeside : ∀ q ∈ withExtensions root.folded, fs.isFile q = fs'.isFile q)
    {fromFile : Path} (hfile : root.Holds fromFile) (aliases : List String) (specifier : String) :
    (resolve? fs root aliases fromFile specifier).bind root.relativeTo? =
      (resolve? fs' root aliases fromFile specifier).bind root.relativeTo? := by
  obtain ⟨rootNames, hcomponents⟩ := Path.exists_components_eq hroot hparent
  rw [resolve?, resolve?]
  split
  · rfl
  split
  · rfl
  rename_i p hp
  have habsolute := isAbsolute_of_candidate? hroot (hfile.isAbsolute hroot) hp
  obtain ⟨names, hfolded, hnames⟩ := Path.exists_folded_eq habsolute
  rw [hfolded]
  -- What is tried lies below the root or beside it as soon as the reference leads into the root.
  by_cases hinside : rootNames <+: names
  · have hprobes : ∀ q ∈ probes (Path.ofNames true names), fs.isFile q = fs'.isFile q := by
      intro q hq
      by_cases hsame : rootNames = names
      · -- The reference means the root, and extensions lead beside it.
        have hroot' : Path.ofNames true names = root.folded := by
          rw [Path.folded, hroot, hcomponents, Path.foldNames_map_name, hsame]
        rw [probes, List.mem_append, List.mem_cons] at hq
        rcases hq with (rfl | hq) | hq
        · exact h.isFile _ (holds_ofNames hcomponents hnames hinside)
        · exact hbeside q (hroot' ▸ hq)
        · obtain ⟨ext, hext, rfl⟩ := List.mem_map.1 hq
          exact h.isFile _ (holds_indexFile hcomponents hnames hinside hext)
      · exact h.isFile q (holds_of_mem_probes hcomponents hnames hinside hsame hq)
    rw [fileUnder?_congr (h.isDir _ (holds_ofNames hcomponents hnames hinside)) hprobes]
  · -- Whatever is found outside is left out in the end.
    have hnone : ∀ fs : FileSystem, (((fileUnder? fs (Path.ofNames true names)).filter
        fun hit => (root.below? hit).isSome).bind root.relativeTo?) = none := by
      intro fs
      rw [Option.bind_eq_none_iff]
      intro hit hhit
      exact relativeTo?_of_mem_probes hcomponents hnames hinside
        (mem_probes_of_fileUnder? (Option.filter_eq_some_iff.1 hhit).1)
    rw [hnone fs, hnone fs']

/-- What is found in a file is the same. -/
theorem fileFindings_congr (h : AgreeBelow root fs fs') (hroot : root.isAbsolute = true)
    (hparent : Component.parent ∉ root.components)
    (hbeside : ∀ q ∈ withExtensions root.folded, fs.isFile q = fs'.isFile q)
    {f : WalkedFile} (hf : root.Holds f.path) (o : Options) :
    fileFindings fs root o f = fileFindings fs' root o f := by
  have hfound : findingsIn fs f.path = findingsIn fs' f.path := by
    funext withSymbols
    rw [findingsIn, findingsIn, h.read f.path hf]
  have hresolve : resolveDependency fs root o.aliases f.path =
      resolveDependency fs' root o.aliases f.path := by
    funext d
    rw [resolveDependency, resolveDependency,
      resolve?_congr h hroot hparent hbeside hf o.aliases d.specifier]
  rw [fileFindings, fileFindings, hfound, hresolve]

/-- **A scan gives the same for all that may be outside of its root**, but for files beside the root
that are called like the root with an extension. -/
theorem scan_congr (h : AgreeBelow root fs fs') (hroot : root.isAbsolute = true)
    (hparent : Component.parent ∉ root.components)
    (hbeside : ∀ q ∈ withExtensions root.folded, fs.isFile q = fs'.isFile q)
    (hlists : fs.ListsChildren root) (hbound : fs.IsBounded root) (hbound' : fs'.IsBounded root)
    (o : Options) : scan fs o root = scan fs' o root := by
  have hwalk := walk_congr h hlists hbound hbound' o.maxFiles
  rw [scan, scan, h.isDir root root.holds_self, h.list root root.holds_self, ← hwalk]
  split
  · split
    · rfl
    · cases hw : walk fs root o.maxFiles with
      | error e => rfl
      | ok w =>
        have hfindings : w.candidates.map (fileFindings fs root o) =
            w.candidates.map (fileFindings fs' root o) := List.map_congr_left fun f hf =>
          fileFindings_congr h hroot hparent hbeside (holds_of_mem_candidates hlists hw hf) o
        show Except.ok (assemble ..) = Except.ok (assemble ..)
        rw [hfindings]
  · rfl

/-- A tree whose index file refers to the root that it is the index of, with more files. -/
def selfReference (more : List (Path × String)) : Memory :=
  Memory.ofEntries ((⟨"/r/index.css"⟩, "@import \"./\";") :: more) []

/-- Files elsewhere make no difference to it. -/
theorem scan_congr_selfReference :
    AgreeBelow ⟨"/r"⟩ (selfReference []).fileSystem
        (selfReference [(⟨"/index.css"⟩, ""), (⟨"/s/r.ts"⟩, "")]).fileSystem ∧
      scan (selfReference []).fileSystem {} ⟨"/r"⟩ =
        scan (selfReference [(⟨"/index.css"⟩, ""), (⟨"/s/r.ts"⟩, "")]).fileSystem {} ⟨"/r"⟩ := by
  have hagree : AgreeBelow ⟨"/r"⟩ (selfReference []).fileSystem
      (selfReference [(⟨"/index.css"⟩, ""), (⟨"/s/r.ts"⟩, "")]).fileSystem :=
    Memory.agreeBelow (by decide +kernel) (by decide +kernel)
  exact ⟨hagree, scan_congr hagree (by decide) (by decide) (by decide +kernel)
    (Memory.listsChildren _ _) (Memory.isBounded _ _) (Memory.isBounded _ _) {}⟩

/-! ## Beside the root -/

/-- The references to the outside are counted as they are found in the files of the walk. -/
theorem externalCount_scan {o : Options} (hdir : fs.isDir root = true) {listed : List Entry}
    (hlist : fs.list root = .ok listed) :
    (scan fs o root).toOption.map GraphData.externalCount =
      (walk fs root o.maxFiles).toOption.map fun w =>
        externalReferences (w.candidates.map (fileFindings fs root o)) := by
  rw [scan, if_pos hdir, hlist]
  cases walk fs root o.maxFiles <;> rfl

/-- The only entry of its root. -/
def selfReferenceEntry : Entry := ⟨⟨"/r/index.css"⟩, "index.css", false⟩

/-- A file beside the root makes the reference one to the outside. -/
theorem scan_beside_root :
    ¬ ∀ (fs fs' : FileSystem) (root : Path) (o : Options), root.isAbsolute = true →
      Component.parent ∉ root.components → AgreeBelow root fs fs' → fs.ListsChildren root →
      fs.IsBounded root → fs'.IsBounded root → scan fs o root = scan fs' o root := by
  intro h
  have hsame := h (selfReference []).fileSystem (selfReference [(⟨"/r.ts"⟩, "")]).fileSystem ⟨"/r"⟩
    {} (by decide) (by decide) (Memory.agreeBelow (by decide +kernel) (by decide +kernel))
    (Memory.listsChildren _ _) (Memory.isBounded _ _) (Memory.isBounded _ _)
  have hlist : (selfReference []).fileSystem.list ⟨"/r"⟩ = .ok [selfReferenceEntry] := rfl
  have hlist' : (selfReference [(⟨"/r.ts"⟩, "")]).fileSystem.list ⟨"/r"⟩ =
      .ok [selfReferenceEntry] := rfl
  -- Without the file beside the root the reference leads to the index file, with it nowhere.
  have hcount : (scan (selfReference []).fileSystem {} ⟨"/r"⟩).toOption.map
      GraphData.externalCount = some 0 := by
    rw [externalCount_scan rfl hlist, walk, walkDir, hlist]
    simp only [sortEntries, List.mergeSort_singleton]
    decide +kernel
  have hcount' : (scan (selfReference [(⟨"/r.ts"⟩, "")]).fileSystem {} ⟨"/r"⟩).toOption.map
      GraphData.externalCount = some 1 := by
    rw [externalCount_scan rfl hlist', walk, walkDir, hlist']
    simp only [sortEntries, List.mergeSort_singleton]
    decide +kernel
  rw [hsame, hcount'] at hcount
  cases hcount

end RefGraph
