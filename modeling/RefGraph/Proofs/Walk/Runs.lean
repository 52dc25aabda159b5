import RefGraph.Proofs.Walk.Visits

/-!
# Runs of a walk

What a walk does is said here step by step and with no bound on levels: it lists a directory, goes
through the entries in the order of their names, and into each directory among them that is not
ignored. There is no such run of a walk that goes on forever. On a tree every walk has one, and only
one, and the bound of `walkDir` does not cut it short.

* `Runs`: a run, with the directories that it enters and its result.
* `Runs.unique`: there is one at most.
* `exists_runs`: on a tree there is one, whose result is that of `walkDir`.
-/

namespace RefGraph

/-- What a walk is to do: to walk a directory, or to go through entries of a directory in which
rules are in force. -/
inductive WalkTask where
  | directory (dir : Path) (relative : String) (inherited : IgnoreRules)
  | entries (relative : String) (rules : IgnoreRules) (es : List Entry)

/-- A task is carried out, from what is found so far to a result. On the way certain directories are
entered, in this order. -/
inductive Runs (fs : FileSystem) (limit : Nat) :
    WalkTask → Walk → List Path → Except ScanError Walk → Prop
  /-- A directory that cannot be listed counts as empty. -/
  | unlisted {dir : Path} {relative : String} {inherited : IgnoreRules} {w : Walk} {err : FileError}
      (hlist : fs.list dir = .error err) :
      Runs fs limit (.directory dir relative inherited) w [dir] (.ok w)
  | listed {dir : Path} {relative : String} {inherited : IgnoreRules} {w : Walk}
      {es : List Entry} {entered : List Path} {r : Except ScanError Walk}
      (hlist : fs.list dir = .ok es)
      (hruns : Runs fs limit (.entries relative (rulesIn fs relative inherited (sortEntries es))
        (sortEntries es)) w entered r) :
      Runs fs limit (.directory dir relative inherited) w (dir :: entered) r
  | done {relative : String} {rules : IgnoreRules} {w : Walk} :
      Runs fs limit (.entries relative rules []) w [] (.ok w)
  | ignored {relative : String} {rules : IgnoreRules} {e : Entry} {es : List Entry} {w : Walk}
      {entered : List Path} {r : Except ScanError Walk}
      (hignored : rules.ignores (relativeName relative e.name) e.isDir = true)
      (hrest : Runs fs limit (.entries relative rules es)
        (w.addIgnored e (relativeName relative e.name)) entered r) :
      Runs fs limit (.entries relative rules (e :: es)) w entered r
  | inside {relative : String} {rules : IgnoreRules} {e : Entry} {es : List Entry} {w w' : Walk}
      {entered entered' : List Path} {r : Except ScanError Walk}
      (hkept : rules.ignores (relativeName relative e.name) e.isDir = false)
      (hdir : e.isDir = true)
      (hinside : Runs fs limit (.directory e.path (relativeName relative e.name) rules) w entered
        (.ok w'))
      (hrest : Runs fs limit (.entries relative rules es) w' entered' r) :
      Runs fs limit (.entries relative rules (e :: es)) w (entered ++ entered') r
  /-- The walk of a directory fails, and that is the end. -/
  | failed {relative : String} {rules : IgnoreRules} {e : Entry} {es : List Entry} {w : Walk}
      {entered : List Path} {err : ScanError}
      (hkept : rules.ignores (relativeName relative e.name) e.isDir = false)
      (hdir : e.isDir = true)
      (hinside : Runs fs limit (.directory e.path (relativeName relative e.name) rules) w entered
        (.error err)) :
      Runs fs limit (.entries relative rules (e :: es)) w entered (.error err)
  | counted {relative : String} {rules : IgnoreRules} {e : Entry} {es : List Entry} {w w' : Walk}
      {entered : List Path} {r : Except ScanError Walk}
      (hkept : rules.ignores (relativeName relative e.name) e.isDir = false)
      (hfile : e.isDir = false)
      (hadd : w.addCounted limit e (relativeName relative e.name) = .ok w')
      (hrest : Runs fs limit (.entries relative rules es) w' entered r) :
      Runs fs limit (.entries relative rules (e :: es)) w entered r
  /-- A file is one too many, and that is the end. -/
  | full {relative : String} {rules : IgnoreRules} {e : Entry} {es : List Entry} {w : Walk}
      {err : ScanError}
      (hkept : rules.ignores (relativeName relative e.name) e.isDir = false)
      (hfile : e.isDir = false)
      (hadd : w.addCounted limit e (relativeName relative e.name) = .error err) :
      Runs fs limit (.entries relative rules (e :: es)) w [] (.error err)

variable {fs : FileSystem} {limit : Nat} {task : WalkTask} {w : Walk} {entered entered' : List Path}
  {r r' : Except ScanError Walk}

/-! ## One run at most -/

/-- **A task is carried out in one way**: no step leaves a choice. -/
theorem Runs.unique (h : Runs fs limit task w entered r) (h' : Runs fs limit task w entered' r') :
    entered = entered' ∧ r = r' := by
  -- A rule with another outcome needs another listing, verdict or kind of the same entry.
  induction h generalizing entered' r' with
  | unlisted hlist =>
    cases h' with
    | unlisted => exact ⟨rfl, rfl⟩
    | listed hlist' => cases hlist.symm.trans hlist'
  | listed hlist _ ih =>
    cases h' with
    | unlisted hlist' => cases hlist.symm.trans hlist'
    | listed hlist' hruns' =>
      obtain rfl := Except.ok.inj (hlist.symm.trans hlist')
      obtain ⟨rfl, rfl⟩ := ih hruns'
      exact ⟨rfl, rfl⟩
  | done =>
    cases h'
    exact ⟨rfl, rfl⟩
  | ignored hignored _ ih =>
    cases h' with
    | ignored _ hrest' => exact ih hrest'
    | inside hkept' | failed hkept' | counted hkept' | full hkept' =>
      cases hignored.symm.trans hkept'
  | inside hkept hdir _ _ ihinside ihrest =>
    cases h' with
    | ignored hignored' => cases hignored'.symm.trans hkept
    | inside _ _ hinside' hrest' =>
      obtain ⟨rfl, hresult⟩ := ihinside hinside'
      obtain rfl := Except.ok.inj hresult
      obtain ⟨rfl, rfl⟩ := ihrest hrest'
      exact ⟨rfl, rfl⟩
    | failed _ _ hinside' => cases (ihinside hinside').2
    | counted _ hfile' | full _ hfile' => cases hdir.symm.trans hfile'
  | failed hkept hdir _ ih =>
    cases h' with
    | ignored hignored' => cases hignored'.symm.trans hkept
    | inside _ _ hinside' => cases (ih hinside').2
    | failed _ _ hinside' => exact ih hinside'
    | counted _ hfile' | full _ hfile' => cases hdir.symm.trans hfile'
  | counted hkept hfile hadd _ ih =>
    cases h' with
    | ignored hignored' => cases hignored'.symm.trans hkept
    | inside _ hdir' | failed _ hdir' => cases hfile.symm.trans hdir'
    | counted _ _ hadd' hrest' =>
      obtain rfl := Except.ok.inj (hadd.symm.trans hadd')
      exact ih hrest'
    | full _ _ hadd' => cases hadd.symm.trans hadd'
  | full hkept hfile hadd =>
    cases h' with
    | ignored hignored' => cases hignored'.symm.trans hkept
    | inside _ hdir' | failed _ hdir' => cases hfile.symm.trans hdir'
    | counted _ _ hadd' => cases hadd.symm.trans hadd'
    | full _ _ hadd' => exact ⟨rfl, hadd.symm.trans hadd'⟩

/-! ## Every walk of a tree ends -/

/-- What a walk does with an entry of a directory in which given rules are in force. -/
def walkEntry (fs : FileSystem) (limit fuel : Nat) (relative : String) (rules : IgnoreRules)
    (w : Walk) (e : Entry) : Except ScanError Walk :=
  let name := relativeName relative e.name
  if rules.ignores name e.isDir then .ok (w.addIgnored e name)
  else if e.isDir then walkDir fs limit fuel e.path name rules w
  else w.addCounted limit e name

theorem walkDir_succ (fs : FileSystem) (limit fuel : Nat) (dir : Path) (relative : String)
    (above : IgnoreRules) (w : Walk) : walkDir fs limit (fuel + 1) dir relative above w =
      match fs.list dir with
      | .error _ => .ok w
      | .ok listed => (sortEntries listed).foldlM
          (walkEntry fs limit fuel relative (rulesIn fs relative above (sortEntries listed))) w :=
  rfl

/-- Entries are gone through one after the other if each directory among them can be walked. -/
theorem exists_runs_entries {fuel : Nat} {relative : String} {rules : IgnoreRules}
    {es : List Entry} (hinside : ∀ e ∈ es, e.isDir = true → ∀ relative inherited w, ∃ entered,
      Runs fs limit (.directory e.path relative inherited) w entered
        (walkDir fs limit fuel e.path relative inherited w)) (w : Walk) :
    ∃ entered, Runs fs limit (.entries relative rules es) w entered
      (es.foldlM (walkEntry fs limit fuel relative rules) w) := by
  induction es generalizing w with
  | nil => exact ⟨[], .done⟩
  | cons e es ih =>
    obtain ⟨hhead, htail⟩ := List.forall_mem_cons.1 hinside
    have hrest := ih htail
    rw [List.foldlM_cons, walkEntry]
    cases hignored : rules.ignores (relativeName relative e.name) e.isDir with
    | true =>
      obtain ⟨entered, hruns⟩ := hrest (w.addIgnored e (relativeName relative e.name))
      exact ⟨entered, .ignored hignored hruns⟩
    | false =>
      cases hdir : e.isDir with
      | true =>
        -- What the directory leaves behind is where the rest begins, unless its walk fails.
        obtain ⟨entered, hruns⟩ := hhead hdir (relativeName relative e.name) rules w
        simp only [Bool.false_eq_true, if_false, if_true]
        cases hresult : walkDir fs limit fuel e.path (relativeName relative e.name) rules w with
        | error err =>
          rw [hresult] at hruns
          exact ⟨entered, .failed hignored hdir hruns⟩
        | ok w' =>
          rw [hresult] at hruns
          obtain ⟨entered', hruns'⟩ := hrest w'
          exact ⟨entered ++ entered', .inside hignored hdir hruns hruns'⟩
      | false =>
        simp only [Bool.false_eq_true, if_false]
        cases hadd : w.addCounted limit e (relativeName relative e.name) with
        | error err => exact ⟨[], .full hignored hdir hadd⟩
        | ok w' =>
          obtain ⟨entered, hruns⟩ := hrest w'
          exact ⟨entered, .counted hignored hdir hadd hruns⟩

/-- **Every walk of a tree ends**, with the result that is computed within the levels of the
tree. -/
theorem exists_runs {fuel : Nat} {dir : Path} (htree : fs.TreeBelow fuel dir) (relative : String)
    (inherited : IgnoreRules) (w : Walk) :
    ∃ entered, Runs fs limit (.directory dir relative inherited) w entered
      (walkDir fs limit fuel dir relative inherited w) := by
  induction fuel generalizing dir relative inherited w with
  | zero => exact absurd htree id
  | succ fuel ih =>
    cases hlist : fs.list dir with
    | error err =>
      rw [walkDir_succ, hlist]
      exact ⟨[dir], .unlisted hlist⟩
    | ok es =>
      have hinside : ∀ e ∈ sortEntries es, e.isDir = true → fs.TreeBelow fuel e.path := by
        intro e he hdir
        have hmem : e ∈ fs.entries dir := by
          rw [FileSystem.entries_of_listed hlist]
          exact mem_sortEntries.1 he
        exact (htree.2 e hmem).2 hdir
      rw [walkDir_succ, hlist]
      obtain ⟨entered, hruns⟩ := exists_runs_entries (fun e he hdir => ih (hinside e he hdir)) w
      exact ⟨dir :: entered, .listed hlist hruns⟩

end RefGraph
