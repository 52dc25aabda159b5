import RefGraph.Proofs.Walk.Meaning

/-!
# The limit of a walk

The limit on the number of files decides whether a walk has a result, and nothing else. The walk
stops in the middle of the tree when it has found too many files, but whether it will is known from
the tree alone: the walk that heeds no limit finds the number of files that are not ignored.

* `walkFreely`: the walk of a tree that heeds no limit.
* `walkDirFreely_eq_after`: it says of a directory what the visits in it call for.
* `LimitDecides`, `limitDecides_walk`: what a limit does to a walk.
-/

namespace RefGraph

/-! ## The walk without a limit -/

/-- Counts a file that is not ignored, however many there are. -/
def Walk.addUnlimited (w : Walk) (e : Entry) (relative : String) : Walk :=
  { w with totalFiles := w.totalFiles + 1 }.addFile e relative false

/-- Walks a directory and at most `fuel` levels of directories, and heeds no limit. -/
def walkDirFreely (fs : FileSystem) : Nat → Path → String → IgnoreRules → Walk → Walk
  | 0, _, _, _, w => w
  | fuel + 1, dir, relative, inherited, w =>
    match fs.list dir with
    | .error _ => w
    | .ok listed =>
      let entries := sortEntries listed
      let rules := rulesIn fs relative inherited entries
      entries.foldl (fun w e =>
        let name := relativeName relative e.name
        if rules.ignores name e.isDir then w.addIgnored e name
        else if e.isDir then walkDirFreely fs fuel e.path name rules w
        else w.addUnlimited e name) w

/-- The walk of a tree, whatever the number of its files is. -/
def walkFreely (fs : FileSystem) (root : Path) : Walk :=
  walkDirFreely fs (fs.depth + 1) root "" IgnoreRules.builtin {}

/-! ## It records all visits -/

namespace Walk

theorem after_append (w : Walk) (vs vs' : List Visit) :
    w.after (vs ++ vs') = (w.after vs).after vs' := by
  induction vs generalizing w with
  | nil => rw [List.nil_append, after_nil]
  | cons v vs ih => rw [List.cons_append, ← after_after, ih, after_after]

theorem foldl_after {α : Type} (f : α → List Visit) (as : List α) (w : Walk) :
    as.foldl (fun w a => w.after (f a)) w = w.after (as.flatMap f) := by
  induction as generalizing w with
  | nil => rw [List.flatMap_nil, after_nil]; rfl
  | cons a as ih => rw [List.foldl_cons, ih, List.flatMap_cons, after_append]

/-- A limit that is not reached does not show in what is recorded. -/
theorem record_after (w : Walk) (v : Visit) :
    w.record (w.after [v]).totalFiles v = .ok (w.after [v]) := by
  have hle : w.totalFiles ≤ (w.after [v]).totalFiles := Nat.le_add_right _ _
  rw [record_eq hle, if_pos (Nat.le_refl _)]

/-- Adding an ignored entry records the visit to it. -/
theorem addIgnored_eq_after (w : Walk) {v : Visit} (h : v.ignored = true) :
    w.addIgnored v.entry (pathAlong v.names) = w.after [v] := by
  have hrecord := w.record_after v
  rw [record, if_pos h] at hrecord
  exact Except.ok.inj hrecord

theorem after_openDir (w : Walk) {v : Visit} (h : v.ignored = false)
    (hdir : v.entry.isDir = true) : w.after [v] = w := by
  have hrecord := w.record_after v
  rw [record, if_neg (by simp [h]), if_pos hdir] at hrecord
  exact (Except.ok.inj hrecord).symm

/-- Adding a file that is not ignored records the visit to it. -/
theorem addUnlimited_eq_after (w : Walk) {v : Visit} (h : v.ignored = false)
    (hfile : v.entry.isDir = false) :
    w.addUnlimited v.entry (pathAlong v.names) = w.after [v] := by
  have hrecord := w.record_after v
  have htotal : (w.after [v]).totalFiles = w.totalFiles + 1 := by
    simp [after, Visit.isCounted, h, hfile]
  rw [record, if_neg (by simp [h]), if_neg (by simp [hfile]), addCounted, htotal,
    if_neg (Nat.lt_irrefl _)] at hrecord
  exact Except.ok.inj hrecord

end Walk

/-- What the free walk does with an entry is what the visits of the entry call for, if it is so for
the directory that the entry may be. -/
theorem walkEntryFreely_eq_after (fs : FileSystem) (fuel : Nat) (names : List String)
    (rules : IgnoreRules) (e : Entry) (w : Walk)
    (hinside : ∀ w, walkDirFreely fs fuel e.path (pathAlong (names ++ [e.name])) rules w =
      w.after (visitsIn fs fuel e.path (names ++ [e.name]) rules)) :
    (if rules.ignores (relativeName (pathAlong names) e.name) e.isDir then
        w.addIgnored e (relativeName (pathAlong names) e.name)
      else if e.isDir then
        walkDirFreely fs fuel e.path (relativeName (pathAlong names) e.name) rules w
      else w.addUnlimited e (relativeName (pathAlong names) e.name)) =
      w.after (visitsOf fs fuel names rules e) := by
  rw [← pathAlong_concat, visitsOf]
  have hverdict : (visitOf rules names e).ignored =
      rules.ignores (pathAlong (names ++ [e.name])) e.isDir := rfl
  split
  · rename_i hignored
    rw [hverdict, hignored, Bool.not_true, Bool.and_false, if_neg Bool.false_ne_true]
    exact w.addIgnored_eq_after (v := visitOf rules names e) hignored
  rename_i hopen
  rw [Bool.not_eq_true] at hopen
  rw [hverdict, hopen, Bool.not_false, Bool.and_true]
  split
  · rename_i hdir
    rw [hinside, ← Walk.after_after, w.after_openDir (v := visitOf rules names e) hopen hdir]
  · rename_i hfile
    rw [Bool.not_eq_true] at hfile
    exact w.addUnlimited_eq_after (v := visitOf rules names e) hopen hfile

/-- **The free walk of a directory records the visits in it.** -/
theorem walkDirFreely_eq_after (fs : FileSystem) (fuel : Nat) (dir : Path) (names : List String)
    (above : IgnoreRules) (w : Walk) :
    walkDirFreely fs fuel dir (pathAlong names) above w =
      w.after (visitsIn fs fuel dir names above) := by
  induction fuel generalizing dir names above w with
  | zero => exact w.after_nil.symm
  | succ fuel ih =>
    rw [walkDirFreely, visitsIn_succ, FileSystem.entries]
    cases fs.list dir with
    | error err => simp [sortEntries]
    | ok listed =>
      rw [← Walk.foldl_after]
      dsimp only
      congr 1
      funext w e
      exact walkEntryFreely_eq_after fs fuel names _ e w fun w => ih e.path _ _ w

/-- A walk without a limit records all visits. -/
theorem walkFreely_eq_after (fs : FileSystem) (root : Path) :
    walkFreely fs root = Walk.after {} (visits fs root) :=
  walkDirFreely_eq_after fs (fs.depth + 1) root [] IgnoreRules.builtin {}

/-- A walk without a limit counts the visits to files that are not ignored. -/
theorem totalFiles_walkFreely (fs : FileSystem) (root : Path) :
    (walkFreely fs root).totalFiles = (visits fs root).countP Visit.isCounted := by
  rw [walkFreely_eq_after]
  exact Nat.zero_add _

/-! ## The limit -/

/-- The limit is compared with the number of files that the free walk finds. -/
theorem walk_eq_of_walkFreely (fs : FileSystem) (root : Path) (limit : Nat) :
    walk fs root limit =
      if (walkFreely fs root).totalFiles ≤ limit then .ok (walkFreely fs root)
      else .error (.tooManyFiles limit) := by
  rw [walk_eq, totalFiles_walkFreely, walkFreely_eq_after]

/-- A walk ends well if there are no more files than the limit, and then as without one. -/
theorem walk_eq_ok_iff {fs : FileSystem} {root : Path} {limit : Nat} {w : Walk} :
    walk fs root limit = .ok w ↔
      (walkFreely fs root).totalFiles ≤ limit ∧ w = walkFreely fs root := by
  rw [walk_eq_of_walkFreely]
  split
  · rename_i hle
    simp [hle, eq_comm]
  · rename_i hlt
    simp [hlt]

/-- A walk fails if there are more files than the limit, and the error names it. -/
theorem walk_eq_error_iff {fs : FileSystem} {root : Path} {limit : Nat} {err : ScanError} :
    walk fs root limit = .error err ↔
      limit < (walkFreely fs root).totalFiles ∧ err = .tooManyFiles limit := by
  rw [walk_eq_of_walkFreely]
  split
  · rename_i hle
    simp [hle]
  · rename_i hlt
    simp [Nat.not_le.1 hlt, eq_comm]

/-- What the limit does to a walk, said by the walk that heeds none. -/
structure LimitDecides (fs : FileSystem) (root : Path) : Prop where
  /-- The walk fails exactly if there are more files than it may find. -/
  error_iff : ∀ limit err, walk fs root limit = .error err ↔
    limit < (walkFreely fs root).totalFiles ∧ err = .tooManyFiles limit
  /-- Otherwise the limit does not show in the result. -/
  ok_of_le : ∀ limit, (walkFreely fs root).totalFiles ≤ limit →
    walk fs root limit = .ok (walkFreely fs root)
  eq_of_ok : ∀ limit limit' w w', walk fs root limit = .ok w → walk fs root limit' = .ok w' →
    w = w'
  ok_mono : ∀ limit limit' w, limit ≤ limit' → walk fs root limit = .ok w →
    walk fs root limit' = .ok w
  /-- Ignored entries never count, and neither do directories. -/
  totalFiles_eq : (walkFreely fs root).totalFiles =
    ((visits fs root).filter fun v => !v.ignored && !v.entry.isDir).length
  counts_totalFiles : fs.IsTree root →
    Counts (fun v => Visited fs root v ∧ v.ignored = false ∧ v.entry.isDir = false)
      (walkFreely fs root).totalFiles

/-- **The limit is decided by the tree alone.** A walk fails exactly if the walk that heeds no limit
finds more files than the limit, and has the result of that walk otherwise. -/
theorem limitDecides_walk (fs : FileSystem) (root : Path) : LimitDecides fs root where
  error_iff _ _ := walk_eq_error_iff
  ok_of_le _ hle := walk_eq_ok_iff.2 ⟨hle, rfl⟩
  eq_of_ok limit limit' w w' hw hw' := by
    obtain ⟨-, rfl⟩ := walk_eq_ok_iff.1 hw
    exact (walk_eq_ok_iff.1 hw').2.symm
  ok_mono limit limit' w hle hw := by
    obtain ⟨hlimit, hfree⟩ := walk_eq_ok_iff.1 hw
    exact walk_eq_ok_iff.2 ⟨hlimit.trans hle, hfree⟩
  totalFiles_eq := (totalFiles_walkFreely fs root).trans List.countP_eq_length_filter
  counts_totalFiles htree := by
    rw [totalFiles_walkFreely]
    exact counts_isCounted htree

end RefGraph
