import RefGraph.FileSystem.Memory
import RefGraph.Proofs.Walk.Visits

/-!
# What a walk means

A walk records its visits one after the other: files that can be analysed are kept, files that are
not ignored are counted up to the limit, and ignored entries are counted. What it gives back is said
by the visits alone, so it does not depend on the order in which directories are listed.

* `walkDir_eq_foldlM`: the walk is a fold over the list of visits.
* `foldlM_record`: what recording visits gives.
* `Walk.Means`: what a walk says of a tree.
* `walk_means`: every walk of a tree that keeps to the limit says it, and all others fail.
-/

namespace RefGraph

/-! ## Recording visits -/

/-- Records a visit. -/
def Walk.record (limit : Nat) (w : Walk) (v : Visit) : Except ScanError Walk :=
  if v.ignored then .ok (w.addIgnored v.entry (pathAlong v.names))
  else if v.entry.isDir then .ok w
  else w.addCounted limit v.entry (pathAlong v.names)

namespace Visit

/-- The file that a walk keeps of a visit: none for directories and for what cannot be analysed. -/
def walkedFile? (v : Visit) : Option WalkedFile :=
  if v.entry.isDir then none
  else (SourceKind.ofPath? v.entry.path).map fun kind =>
    ⟨v.entry.path, pathAlong v.names, kind, v.ignored⟩

/-- Whether a visit is one of a file that is not ignored. -/
def isCounted (v : Visit) : Bool := !v.ignored && !v.entry.isDir

end Visit

/-- A walk after more visits. -/
def Walk.after (w : Walk) (vs : List Visit) : Walk where
  files := w.files ++ (vs.filterMap Visit.walkedFile?).toArray
  totalFiles := w.totalFiles + vs.countP Visit.isCounted
  ignoredCount := w.ignoredCount + vs.countP Visit.ignored

namespace Walk

@[simp] theorem after_nil (w : Walk) : w.after [] = w := by
  simp [after]

theorem after_after (w : Walk) (v : Visit) (vs : List Visit) :
    (w.after [v]).after vs = w.after (v :: vs) := by
  have hfiles : v :: vs = [v] ++ vs := rfl
  simp only [after, hfiles, List.filterMap_append, List.countP_append, ← List.append_toArray,
    Array.append_assoc, Nat.add_assoc]

/-- Adding a file records it under the names that lead to it. -/
theorem addFile_eq (w : Walk) (v : Visit) (h : v.entry.isDir = false) :
    w.addFile v.entry (pathAlong v.names) v.ignored =
      { w with files := w.files ++ ([v].filterMap Visit.walkedFile?).toArray } := by
  have hfile : v.walkedFile? = (SourceKind.ofPath? v.entry.path).map fun kind =>
      ⟨v.entry.path, pathAlong v.names, kind, v.ignored⟩ := by
    simp [Visit.walkedFile?, h]
  unfold addFile
  cases hkind : SourceKind.ofPath? v.entry.path with
  | none => simp [hfile, hkind]
  | some kind => simp [hfile, hkind]

/-- Recording a visit is what the visit says, as long as the limit allows it. -/
theorem record_eq {limit : Nat} {w : Walk} (h : w.totalFiles ≤ limit) (v : Visit) :
    w.record limit v =
      if (w.after [v]).totalFiles ≤ limit then .ok (w.after [v])
      else .error (.tooManyFiles limit) := by
  unfold record
  cases hignored : v.ignored with
  | true =>
    -- Ignored entries do not count for the limit.
    have hcount : (w.after [v]).totalFiles = w.totalFiles := by
      simp [after, Visit.isCounted, hignored]
    rw [hcount, if_pos h, if_pos rfl]
    congr 1
    cases hdir : v.entry.isDir with
    | true => simp [addIgnored, after, Visit.walkedFile?, Visit.isCounted, hignored, hdir]
    | false =>
      have hadd := ({ w with ignoredCount := w.ignoredCount + 1 } : Walk).addFile_eq v hdir
      rw [hignored] at hadd
      simp [addIgnored, after, Visit.isCounted, hignored, hdir, hadd]
  | false =>
    cases hdir : v.entry.isDir with
    | true =>
      simp [after, Visit.walkedFile?, Visit.isCounted, hignored, hdir, h]
    | false =>
      have hadd := ({ w with totalFiles := w.totalFiles + 1 } : Walk).addFile_eq v hdir
      rw [hignored] at hadd
      have hcount : (w.after [v]).totalFiles = w.totalFiles + 1 := by
        simp [after, Visit.isCounted, hignored, hdir]
      rw [hcount]
      by_cases hlimit : w.totalFiles + 1 ≤ limit
      · rw [if_pos hlimit]
        simp [addCounted, Nat.not_lt.2 hlimit, hadd, after, Visit.isCounted, hignored, hdir]
      · rw [if_neg hlimit]
        simp [addCounted, Nat.lt_of_not_le hlimit]

/-- Recording visits is what they say, as long as the limit allows it. -/
theorem foldlM_record {limit : Nat} {w : Walk} (h : w.totalFiles ≤ limit) (vs : List Visit) :
    vs.foldlM (record limit) w =
      if (w.after vs).totalFiles ≤ limit then .ok (w.after vs)
      else .error (.tooManyFiles limit) := by
  induction vs generalizing w with
  | nil => rw [after_nil, if_pos h]; rfl
  | cons v vs ih =>
    rw [List.foldlM_cons, record_eq h, ← after_after w v vs]
    by_cases hv : (w.after [v]).totalFiles ≤ limit
    · rw [if_pos hv, ← ih hv]
      rfl
    · -- Later visits do not take back that there are too many.
      have hmore : ¬ ((w.after [v]).after vs).totalFiles ≤ limit :=
        fun hle => hv (le_trans (Nat.le_add_right _ _) hle)
      rw [if_neg hv, if_neg hmore]
      rfl

end Walk

/-! ## The walk as a fold -/

theorem foldlM_flatMap {α β ε : Type} (f : α → List β) {σ : Type} (g : σ → β → Except ε σ)
    (as : List α) (s : σ) :
    (as.flatMap f).foldlM g s = as.foldlM (fun s a => (f a).foldlM g s) s := by
  induction as generalizing s with
  | nil => rfl
  | cons a as ih =>
    rw [List.flatMap_cons, List.foldlM_append, List.foldlM_cons]
    exact bind_congr fun s' => ih s'

/-- Recording the visits of an entry is what the walk does with it. -/
theorem foldlM_visitsOf (fs : FileSystem) (limit fuel : Nat) (names : List String)
    (rules : IgnoreRules) (e : Entry) (w : Walk) :
    (visitsOf fs fuel names rules e).foldlM (Walk.record limit) w =
      if rules.ignores (pathAlong (names ++ [e.name])) e.isDir then
        .ok (w.addIgnored e (pathAlong (names ++ [e.name])))
      else if e.isDir then
        (visitsIn fs fuel e.path (names ++ [e.name]) rules).foldlM (Walk.record limit) w
      else w.addCounted limit e (pathAlong (names ++ [e.name])) := by
  rw [visitsOf, List.foldlM_cons]
  cases hignored : rules.ignores (pathAlong (names ++ [e.name])) e.isDir with
  | true => simp [Walk.record, visitOf, hignored]
  | false =>
    cases hdir : e.isDir with
    | true =>
      rw [hdir] at hignored
      simp only [Walk.record, visitOf, hignored, hdir, Bool.false_eq_true, if_false, if_true,
        Bool.not_false, Bool.and_self]
      rfl
    | false =>
      rw [hdir] at hignored
      simp [Walk.record, visitOf, hignored, hdir]

/-- The walk of a directory records the visits in it, one after the other. -/
theorem walkDir_eq_foldlM (fs : FileSystem) (limit fuel : Nat) (dir : Path) (names : List String)
    (above : IgnoreRules) (w : Walk) :
    walkDir fs limit fuel dir (pathAlong names) above w =
      (visitsIn fs fuel dir names above).foldlM (Walk.record limit) w := by
  induction fuel generalizing dir names above w with
  | zero => rfl
  | succ fuel ih =>
    rw [walkDir, visitsIn_succ, foldlM_flatMap, FileSystem.entries]
    cases fs.list dir with
    | error err => simp [sortEntries, pure, Except.pure]
    | ok listed =>
      -- Both go through the same sorted entries under the same rules.
      simp only [foldlM_visitsOf, ih, ← pathAlong_concat]

/-- A walk records all visits if there are no more files than the limit, and fails otherwise. -/
theorem walk_eq (fs : FileSystem) (root : Path) (limit : Nat) :
    walk fs root limit =
      if (visits fs root).countP Visit.isCounted ≤ limit then .ok (Walk.after {} (visits fs root))
      else .error (.tooManyFiles limit) := by
  have hwalk := walkDir_eq_foldlM fs limit (fs.depth + 1) root [] IgnoreRules.builtin {}
  rw [← visits, Walk.foldlM_record (Nat.zero_le limit)] at hwalk
  have hcount : (Walk.after {} (visits fs root)).totalFiles =
      (visits fs root).countP Visit.isCounted := Nat.zero_add _
  rwa [hcount] at hwalk

/-- All files that a walk keeps were visited. -/
theorem exists_visit_of_mem_files {fs : FileSystem} {root : Path} {limit : Nat} {w : Walk}
    (hw : walk fs root limit = .ok w) {f : WalkedFile} (hf : f ∈ w.files.toList) :
    ∃ v ∈ visits fs root, v.walkedFile? = some f := by
  rw [walk_eq] at hw
  split at hw
  · cases hw
    simpa only [Walk.after, Array.empty_append, List.mem_filterMap] using hf
  · cases hw

/-- What a walk keeps of a visit. -/
theorem Visit.walkedFile?_eq_some_iff {v : Visit} {f : WalkedFile} :
    v.walkedFile? = some f ↔ v.entry.isDir = false ∧ SourceKind.ofPath? v.entry.path = some f.kind ∧
      f.path = v.entry.path ∧ f.relative = pathAlong v.names ∧ f.ignored = v.ignored := by
  unfold walkedFile?
  cases v.entry.isDir with
  | true => simp
  | false =>
    cases SourceKind.ofPath? v.entry.path with
    | none => simp
    | some kind =>
      obtain ⟨path, relative, kind', ignored⟩ := f
      simp only [Bool.false_eq_true, if_false, Option.map_some, Option.some.injEq,
        WalkedFile.mk.injEq, true_and]
      constructor
      · rintro ⟨rfl, rfl, rfl, rfl⟩
        exact ⟨rfl, rfl, rfl, rfl⟩
      · rintro ⟨rfl, rfl, rfl, rfl⟩
        exact ⟨rfl, rfl, rfl, rfl⟩

/-- The files that a walk keeps can be analysed. -/
theorem ofPath?_of_mem_files {fs : FileSystem} {root : Path} {limit : Nat} {w : Walk}
    (hw : walk fs root limit = .ok w) {f : WalkedFile} (hf : f ∈ w.files.toList) :
    SourceKind.ofPath? f.path = some f.kind := by
  obtain ⟨v, -, hv⟩ := exists_visit_of_mem_files hw hf
  obtain ⟨-, hkind, hpath, -⟩ := Visit.walkedFile?_eq_some_iff.1 hv
  rw [hpath, hkind]

/-! ## What a walk says -/

/-- There are exactly so many visits with a property. -/
def Counts (p : Visit → Prop) (n : Nat) : Prop :=
  ∃ vs : List Visit, vs.Nodup ∧ (∀ v, v ∈ vs ↔ p v) ∧ vs.length = n

theorem Counts.unique {p : Visit → Prop} {m n : Nat} (hm : Counts p m) (hn : Counts p n) :
    m = n := by
  obtain ⟨vs, hvs, hmem, rfl⟩ := hm
  obtain ⟨vs', hvs', hmem', rfl⟩ := hn
  refine ((List.perm_ext_iff_of_nodup hvs hvs').2 fun v => ?_).length_eq
  rw [hmem, hmem']

/-- What a walk says if certain visits are made. -/
structure Walk.Means (visited : Visit → Prop) (w : Walk) : Prop where
  /-- Exactly the files that are visited and can be analysed are kept, each with its verdict. -/
  mem_files_iff : ∀ x, x ∈ w.files.toList ↔ ∃ v, visited v ∧ v.walkedFile? = some x
  eq_of_walkedFile? : ∀ v v', visited v → visited v' → v.walkedFile?.isSome = true →
    v.walkedFile? = v'.walkedFile? → v = v'
  /-- They are ordered name by name, so that none is kept twice. -/
  pairwise_files : w.files.toList.Pairwise fun x y =>
    Disk.namesOf x.relative < Disk.namesOf y.relative
  totalFiles_eq : Counts (fun v => visited v ∧ v.ignored = false ∧ v.entry.isDir = false)
    w.totalFiles
  ignoredCount_eq : Counts (fun v => visited v ∧ v.ignored = true) w.ignoredCount
  /-- Nothing below an ignored directory is kept. -/
  not_below_ignored : ∀ x ∈ w.files.toList, ∀ v, visited v → v.entry.isDir = true →
    v.ignored = true → ¬ v.names <+: Disk.namesOf x.relative

namespace Walk.Means

variable {visited : Visit → Prop} {w w' : Walk}

/-- Only one walk says it. -/
theorem unique (h : w.Means visited) (h' : w'.Means visited) : w = w' := by
  have hfiles : w.files.toList = w'.files.toList := by
    -- Both are sorted strictly and have the same members.
    have hnodup : ∀ u : Walk, u.Means visited → u.files.toList.Nodup := fun u hu =>
      hu.pairwise_files.imp fun {x y} hlt => by
        rintro rfl
        exact lt_irrefl _ hlt
    have hperm : w.files.toList.Perm w'.files.toList := by
      refine (List.perm_ext_iff_of_nodup (hnodup w h) (hnodup w' h')).2 fun x => ?_
      rw [h.mem_files_iff, h'.mem_files_iff]
    exact hperm.eq_of_pairwise (fun x y _ _ hxy hyx => absurd hxy (lt_asymm hyx))
      h.pairwise_files h'.pairwise_files
  have htotal := h.totalFiles_eq.unique h'.totalFiles_eq
  have hignored := h.ignoredCount_eq.unique h'.ignoredCount_eq
  cases w
  cases w'
  simp only [Walk.mk.injEq]
  exact ⟨Array.toList_inj.1 hfiles, htotal, hignored⟩

end Walk.Means

/-! ## The walk of a tree -/

variable {fs : FileSystem} {root : Path}

/-- A visit records a file under the names that lead to it. -/
theorem Visit.walkedFile?_eq_some {v : Visit} {x : WalkedFile} (h : v.walkedFile? = some x) :
    v.entry.isDir = false ∧ x.relative = pathAlong v.names := by
  obtain ⟨hfile, -, -, hrelative, -⟩ := Visit.walkedFile?_eq_some_iff.1 h
  exact ⟨hfile, hrelative⟩

/-- Along the way to a directory that is entered there are only names of entries. -/
theorem Enters.isFileName (htree : fs.IsTree root) {names : List String}
    {dir : Path} {rules : IgnoreRules} (h : Enters fs root names dir rules) :
    ∀ name ∈ names, IsFileName name := by
  induction h with
  | top _ => exact fun name hname => absurd hname List.not_mem_nil
  | @inside names dir rules rules' e habove he _ _ _ ih =>
    intro name hname
    obtain ⟨fuel, above, hbelow, -, -⟩ := visitsIn_subset_visits htree habove
    rcases List.mem_append.1 hname with hname | hname
    · exact ih name hname
    · rw [List.mem_singleton.1 hname]
      exact (hbelow.2 e he).1

/-- The path of a visit has the names of the visit. -/
theorem Visited.namesOf_eq (htree : fs.IsTree root) {v : Visit}
    (h : Visited fs root v) : Disk.namesOf (pathAlong v.names) = v.names := by
  obtain ⟨names, dir, rules, henters, e, he, rfl⟩ := h
  refine namesOf_pathAlong (by simp [visitOf]) fun name hname => ?_
  obtain ⟨fuel, above, hbelow, -, -⟩ := visitsIn_subset_visits htree henters
  rcases List.mem_append.1 hname with hname | hname
  · exact henters.isFileName htree name hname
  · rw [List.mem_singleton.1 hname]
    exact (hbelow.2 e he).1

/-- Nothing is visited twice. -/
theorem nodup_visits (htree : fs.IsTree root) : (visits fs root).Nodup :=
  (pairwise_visits htree).imp fun {v v'} hpre => by
    rintro rfl
    exact lt_irrefl _ hpre.1

/-- So many visits of the list as pass a test are there. -/
theorem counts_countP (htree : fs.IsTree root) (p : Visit → Bool) :
    Counts (fun v => Visited fs root v ∧ p v = true) ((visits fs root).countP p) := by
  refine ⟨(visits fs root).filter p, (nodup_visits htree).filter _, fun v => ?_, ?_⟩
  · rw [List.mem_filter, mem_visits_iff htree]
  · rw [List.countP_eq_length_filter]

/-- The number of visits that count is that of all files that are not ignored. -/
theorem counts_isCounted (htree : fs.IsTree root) :
    Counts (fun v => Visited fs root v ∧ v.ignored = false ∧ v.entry.isDir = false)
      ((visits fs root).countP Visit.isCounted) := by
  have h := counts_countP htree Visit.isCounted
  simpa only [Visit.isCounted, Bool.and_eq_true, Bool.not_eq_true'] using h

/-- Recording all visits says what they mean. -/
theorem means_after_visits (htree : fs.IsTree root) :
    (Walk.after {} (visits fs root)).Means (Visited fs root) := by
  have hfiles : (Walk.after {} (visits fs root)).files.toList =
      (visits fs root).filterMap Visit.walkedFile? := by
    simp [Walk.after]
  refine ⟨fun x => ?_, fun v v' hv hv' hsome heq => ?_, ?_, ?_, ?_, ?_⟩
  · rw [hfiles, List.mem_filterMap]
    exact exists_congr fun v => and_congr_left fun _ => mem_visits_iff htree v
  · obtain ⟨x, hx⟩ := Option.isSome_iff_exists.1 hsome
    refine hv.eq_of_names_eq htree hv' ?_
    rw [← hv.namesOf_eq htree, ← hv'.namesOf_eq htree, ← (Visit.walkedFile?_eq_some hx).2,
      ← (Visit.walkedFile?_eq_some (heq ▸ hx)).2]
  · rw [hfiles, List.pairwise_filterMap]
    refine (pairwise_visits htree).imp_of_mem fun {v v'} hv hv' hpre x hx x' hx' => ?_
    rw [(Visit.walkedFile?_eq_some hx).2, (Visit.walkedFile?_eq_some hx').2,
      ((mem_visits_iff htree v).1 hv).namesOf_eq htree,
      ((mem_visits_iff htree v').1 hv').namesOf_eq htree]
    exact hpre.1
  · show Counts _ (0 + (visits fs root).countP Visit.isCounted)
    rw [Nat.zero_add]
    exact counts_isCounted htree
  · show Counts _ (0 + (visits fs root).countP Visit.ignored)
    rw [Nat.zero_add]
    exact counts_countP htree Visit.ignored
  · intro x hx v hv hdir hignored hpre
    rw [hfiles, List.mem_filterMap] at hx
    obtain ⟨v', hv', hx⟩ := hx
    have hvisited := (mem_visits_iff htree v').1 hv'
    obtain ⟨hfile, hrelative⟩ := Visit.walkedFile?_eq_some hx
    rw [hrelative, hvisited.namesOf_eq htree] at hpre
    -- A file is not the directory itself, so it would lie below it.
    rw [hv.eq_of_prefix htree hvisited hpre (Or.inr hignored), hfile] at hdir
    cases hdir

/-! ## Listing in another order -/

/-- Two file systems that list the same entries, in whatever order, and read the same. -/
structure FileSystem.SameTree (fs fs' : FileSystem) : Prop where
  perm_entries : ∀ dir, (fs'.entries dir).Perm (fs.entries dir)
  read_eq : ∀ p, fs'.read p = fs.read p

namespace FileSystem.SameTree

variable {fs' : FileSystem}

theorem symm (h : fs.SameTree fs') : fs'.SameTree fs :=
  ⟨fun dir => (h.perm_entries dir).symm, fun p => (h.read_eq p).symm⟩

theorem rulesInside (h : fs.SameTree fs') {dir : Path} {relative : String}
    {above rules : IgnoreRules} (hrules : RulesInside fs dir relative above rules) :
    RulesInside fs' dir relative above rules := by
  rcases hrules with ⟨he, hfile, hname, hread⟩ | hkept
  · exact .extended ((h.perm_entries dir).mem_iff.2 he) hfile hname ((h.read_eq _).trans hread)
  · refine .kept fun e he hfile hname content hread => ?_
    exact hkept e ((h.perm_entries dir).mem_iff.1 he) hfile hname content
      ((h.read_eq _).symm.trans hread)

theorem enters (h : fs.SameTree fs') {names : List String} {dir : Path} {rules : IgnoreRules}
    (henters : Enters fs root names dir rules) : Enters fs' root names dir rules := by
  induction henters with
  | top hrules => exact .top (h.rulesInside hrules)
  | inside _ he hdir hignored hrules ih =>
    exact .inside ih ((h.perm_entries _).mem_iff.2 he) hdir hignored (h.rulesInside hrules)

/-- In the same tree the same entries are visited. -/
theorem visited (h : fs.SameTree fs') {v : Visit} (hv : Visited fs root v) :
    Visited fs' root v := by
  obtain ⟨names, dir, rules, henters, e, he, rfl⟩ := hv
  exact ⟨names, dir, rules, h.enters henters, e, (h.perm_entries dir).mem_iff.2 he, rfl⟩

/-- What is visited does not depend on the order. -/
theorem visited_eq (h : fs.SameTree fs') (root : Path) : Visited fs' root = Visited fs root := by
  funext v
  exact propext ⟨h.symm.visited, h.visited⟩

/-- The walk does not depend on the order. -/
theorem walk_eq (h : fs.SameTree fs') (htree : fs.IsTree root)
    (htree' : fs'.IsTree root) (limit : Nat) :
    walk fs' root limit = walk fs root limit := by
  have hmeans := means_after_visits htree'
  have hcount := counts_isCounted htree'
  rw [h.visited_eq root] at hmeans hcount
  rw [RefGraph.walk_eq, RefGraph.walk_eq, hmeans.unique (means_after_visits htree),
    hcount.unique (counts_isCounted htree)]

end FileSystem.SameTree

/-! ## The main result -/

/-- **A walk means its visits.** In every tree, listed in whatever order, a walk that keeps to its
limit keeps and counts exactly what the visits call for, and one that does not fails. -/
theorem walk_means {fs : FileSystem} {root : Path} (htree : fs.IsTree root)
    (limit : Nat) :
    ∃ n, Counts (fun v => Visited fs root v ∧ v.ignored = false ∧ v.entry.isDir = false) n ∧
      (n ≤ limit → ∃ w, walk fs root limit = .ok w ∧ w.Means (Visited fs root)) ∧
      (limit < n → walk fs root limit = .error (.tooManyFiles limit)) ∧
      ∀ fs' : FileSystem, fs.SameTree fs' → fs'.IsTree root →
        walk fs' root limit = walk fs root limit := by
  refine ⟨_, counts_isCounted htree, fun hle => ?_, fun hlt => ?_, fun fs' hsame htree' => ?_⟩
  · exact ⟨_, by rw [walk_eq, if_pos hle], means_after_visits htree⟩
  · rw [walk_eq, if_neg (Nat.not_le.2 hlt)]
  · exact hsame.walk_eq htree htree' limit

/-- A tree with an ignore file and with another one below that takes back a line of the first. -/
def smallTree : FileSystem :=
  (Memory.ofEntries
    [(⟨"/r/.gitignore"⟩, "*.gen.ts\nout/\n"), (⟨"/r/lib/.gitignore"⟩, "!kept.gen.ts\n"),
      (⟨"/r/lib/kept.gen.ts"⟩, ""), (⟨"/r/a.ts"⟩, ""), (⟨"/r/b.gen.ts"⟩, ""),
      (⟨"/r/out/c.ts"⟩, "")] []).fileSystem

/-- A walk of that tree with a limit of four files. -/
theorem walk_means_smallTree :
    smallTree.IsTree ⟨"/r"⟩ ∧
      ∃ n, Counts (fun v => Visited smallTree ⟨"/r"⟩ v ∧ v.ignored = false ∧
          v.entry.isDir = false) n ∧
        (n ≤ 4 → ∃ w, walk smallTree ⟨"/r"⟩ 4 = .ok w ∧ w.Means (Visited smallTree ⟨"/r"⟩)) ∧
        (4 < n → walk smallTree ⟨"/r"⟩ 4 = .error (.tooManyFiles 4)) ∧
        ∀ fs' : FileSystem, smallTree.SameTree fs' → fs'.IsTree ⟨"/r"⟩ →
          walk fs' ⟨"/r"⟩ 4 = walk smallTree ⟨"/r"⟩ 4 :=
  have htree : smallTree.IsTree ⟨"/r"⟩ := by decide +kernel
  ⟨htree, walk_means htree 4⟩

end RefGraph
