import RefGraph.Proofs.FileSystem.Distinct
import RefGraph.Proofs.Path.Folding
import RefGraph.Proofs.Walk.Meaning

/-!
# One more ignored file

Two file systems may list the same and differ in the verdict on a single file. Then a walk visits
the same in both, in the same order, and it keeps the same files. Only the one file gets its mark.

* `nodup_keys_visits`: visits are told apart by their names and by whether they are directories.
* `TurnsIgnored`: one file is kept in one file system and ignored in the other one.
* `TurnsIgnored.visits_eq`: the visits are the same but for the verdict on it.
* `TurnsIgnored.walk`: what that means for a walk.
-/

namespace RefGraph

variable {fs fs' : FileSystem} {root : Path}

/-! ## Telling visits apart -/

namespace Visit

/-- What tells visits apart: the names that lead to the entry, and whether it is a directory. -/
def key (v : Visit) : List String × Bool := (v.names, v.entry.isDir)

/-- The visit with the verdict that the entry is ignored. -/
def marked (v : Visit) : Visit := { v with ignored := true }

/-- A visit, if it is not the given one, and that one with the verdict that it is ignored. -/
def turn (v u : Visit) : Visit := if u = v then v.marked else u

@[simp] theorem key_turn (v u : Visit) : (v.turn u).key = u.key := by
  unfold turn
  split
  · rename_i h
    rw [h]
    rfl
  · rfl

end Visit

/-- An entry whose visits have more names than it, or are directories, is a directory. -/
theorem isDir_iff_of_mem_visitsOf {fuel : Nat} {names : List String} {rules : IgnoreRules}
    {e : Entry} {v : Visit} (hv : v ∈ visitsOf fs fuel names rules e) :
    e.isDir = true ↔ v.entry.isDir = true ∨ v.names ≠ names ++ [e.name] := by
  rcases List.mem_cons.1 hv with rfl | hv
  · simp [visitOf]
  · split at hv
    · rename_i hcond
      obtain ⟨name, rest, hnames⟩ := exists_names_of_mem_visitsIn hv
      rw [Bool.and_eq_true] at hcond
      exact iff_of_true hcond.1 (.inr (by simp [hnames]))
    · cases hv

/-- In a list of visits none has the names of another one, unless one of them is a directory and
the other one is not. -/
theorem nodup_keys_visitsIn (honce : fs.ListsOnce) (fuel : Nat) (dir : Path) (names : List String)
    (above : IgnoreRules) : ((visitsIn fs fuel dir names above).map Visit.key).Nodup := by
  induction fuel generalizing dir names above with
  | zero => exact List.nodup_nil
  | succ fuel ih =>
    rw [visitsIn_succ, List.Nodup, List.pairwise_map, List.pairwise_flatMap]
    constructor
    · intro e _
      refine List.pairwise_cons.2 ⟨fun v hv hkey => ?_, ?_⟩
      · -- What is inside of a directory has more names.
        split at hv
        · obtain ⟨name, rest, hnames⟩ := exists_names_of_mem_visitsIn hv
          have hsame := congrArg Prod.fst hkey
          simp [Visit.key, visitOf, hnames] at hsame
        · cases hv
      · split
        · exact List.pairwise_map.1 (ih ..)
        · exact List.Pairwise.nil
    · have hentries : (sortEntries (fs.entries dir)).Pairwise fun a b => a.key ≠ b.key :=
        List.pairwise_map.1 (((List.mergeSort_perm _ _).map Entry.key).nodup_iff.2 (honce dir))
      -- Visits from two entries that share a key would make these entries share one.
      refine hentries.imp fun {a b} hab v hv v' hv' hkey => hab ?_
      obtain ⟨rest, hnames⟩ := exists_names_of_mem_visitsOf hv
      obtain ⟨rest', hnames'⟩ := exists_names_of_mem_visitsOf hv'
      obtain ⟨hsame, hdir⟩ := Prod.mk.inj hkey
      have hname : a.name = b.name := by
        rw [hnames, hnames'] at hsame
        exact (List.cons.inj (List.append_cancel_left hsame)).1
      have hisDir : a.isDir = b.isDir := by
        rw [Bool.eq_iff_iff, isDir_iff_of_mem_visitsOf hv, isDir_iff_of_mem_visitsOf hv', hsame,
          hdir, hname]
      rw [Entry.key, Entry.key, hname, hisDir]

/-- No two visits have the same key. -/
theorem nodup_keys_visits (honce : fs.ListsOnce) (root : Path) :
    ((visits fs root).map Visit.key).Nodup :=
  nodup_keys_visitsIn honce _ _ _ _

/-- Names that lead along entries are told apart by the path that they make. -/
theorem names_eq_of_pathAlong_eq (hlists : fs.ListsChildren root) {u v : Visit}
    (hu : u ∈ visits fs root) (hv : v ∈ visits fs root)
    (h : pathAlong u.names = pathAlong v.names) : u.names = v.names := by
  have hnames : ∀ u ∈ visits fs root, Disk.namesOf (pathAlong u.names) = u.names := by
    intro u hu
    refine namesOf_pathAlong ?_ fun name hname => ?_
    · obtain ⟨name, rest, hnames⟩ := exists_names_of_mem_visitsIn hu
      simp [hnames]
    · have hmem : Component.name name ∈ u.entry.path.components := by
        rw [components_of_mem_visits hlists hu]
        exact List.mem_append_right _ (List.mem_map_of_mem hname)
      have hplain := Path.isPlainName_of_mem_components hmem
      exact ⟨hplain.ne_empty, hplain.slash⟩
  rw [← hnames u hu, h, hnames v hv]

/-! ## One verdict turns -/

/-- One file that is visited is kept in one file system and ignored in another one. The verdicts on
all other entries that are visited are the same. -/
structure TurnsIgnored (fs fs' : FileSystem) (root : Path) (v : Visit) : Prop where
  mem : v ∈ visits fs root
  isFile : v.entry.isDir = false
  kept : v.ignored = false
  marked_mem : v.marked ∈ visits fs' root
  others : ∀ u ∈ visits fs root, u ≠ v → u ∈ visits fs' root

namespace TurnsIgnored

variable {v : Visit}

theorem turn_mem (h : TurnsIgnored fs fs' root v) {u : Visit} (hu : u ∈ visits fs root) :
    v.turn u ∈ visits fs' root := by
  unfold Visit.turn
  split
  · exact h.marked_mem
  · rename_i hne
    exact h.others u hu hne

section Entry

variable (h : TurnsIgnored fs fs' root v) (honce : fs'.ListsOnce) {rules rules' : IgnoreRules}
  {names : List String} {e : Entry} (hhere : visitOf rules names e ∈ visits fs root)
  (hhere' : visitOf rules' names e ∈ visits fs' root)

include h honce hhere hhere'

/-- An entry that is visited in both gets the same verdict, or the one that turns. -/
theorem visitOf_eq : visitOf rules' names e = v.turn (visitOf rules names e) := by
  have hkey : (visitOf rules' names e).key = (v.turn (visitOf rules names e)).key := by
    rw [Visit.key_turn]
    rfl
  exact List.inj_on_of_nodup_map (nodup_keys_visits honce root) hhere' (h.turn_mem hhere) hkey

/-- No verdict on a directory turns. -/
theorem visitOf_eq_of_isDir (hdir : e.isDir = true) :
    visitOf rules' names e = visitOf rules names e := by
  rw [h.visitOf_eq honce hhere hhere', Visit.turn, if_neg]
  rintro rfl
  have hfile : e.isDir = false := h.isFile
  rw [hdir] at hfile
  cases hfile

end Entry

/-- In every directory that is entered the visits are the same but for the one verdict. The
induction is on the levels of directories, where both walks go into the same ones. -/
theorem visitsIn_eq (h : TurnsIgnored fs fs' root v) (hlist : ∀ p, fs.list p = fs'.list p)
    (honce : fs'.ListsOnce) {fuel : Nat} {dir : Path} {names : List String}
    {above above' : IgnoreRules} (hsub : visitsIn fs fuel dir names above ⊆ visits fs root)
    (hsub' : visitsIn fs' fuel dir names above' ⊆ visits fs' root) :
    visitsIn fs' fuel dir names above' = (visitsIn fs fuel dir names above).map v.turn := by
  induction fuel generalizing dir names above above' with
  | zero => rfl
  | succ fuel ih =>
    have hentries := (FileSystem.entries_congr (hlist dir)).symm
    rw [visitsIn_succ, visitsIn_succ, hentries, List.map_flatMap]
    refine List.flatMap_congr fun e he => ?_
    have hmem := mem_sortEntries.1 he
    have hmem' : e ∈ fs'.entries dir := hentries ▸ hmem
    have hhere := hsub (mem_visitsIn_succ.2 ⟨e, hmem, .inl rfl⟩)
    have hhere' := hsub' (mem_visitsIn_succ.2 ⟨e, hmem', .inl rfl⟩)
    have hinside := fun u hu => hsub (mem_visitsIn_succ.2 ⟨e, hmem, .inr hu⟩ : u ∈ _)
    have hinside' := fun u hu => hsub' (mem_visitsIn_succ.2 ⟨e, hmem', .inr hu⟩ : u ∈ _)
    rw [hentries] at hinside' hhere'
    rw [visitsOf, visitsOf, List.map_cons, ← h.visitOf_eq honce hhere hhere']
    congr 1
    cases hdir : e.isDir with
    | false => rfl
    | true =>
      -- Directories do not turn, so both walks enter this one or neither does.
      have hsame := h.visitOf_eq_of_isDir honce hhere hhere' hdir
      rw [hsame]
      cases hignored : (visitOf _ names e).ignored with
      | true => rfl
      | false =>
        exact ih (fun u hu => hinside u ⟨hdir, hignored, hu⟩)
          (fun u hu => hinside' u ⟨hdir, hsame ▸ hignored, hu⟩)

/-- The visits are the same but for the one verdict. -/
theorem visits_eq (h : TurnsIgnored fs fs' root v) (hlist : ∀ p, fs.list p = fs'.list p)
    (hdepth : fs.depth = fs'.depth) (honce : fs'.ListsOnce) :
    visits fs' root = (visits fs root).map v.turn := by
  have hvisits : visits fs root = visitsIn fs (fs'.depth + 1) root [] IgnoreRules.builtin := by
    rw [← hdepth]
    rfl
  rw [hvisits]
  exact h.visitsIn_eq hlist honce (hvisits ▸ List.Subset.refl _) (List.Subset.refl _)

end TurnsIgnored

/-! ## Walks -/

/-- A file of a walk, with the mark of ignored files if it has the given path from the root. -/
def WalkedFile.markedAt (relative : String) (x : WalkedFile) : WalkedFile :=
  if x.relative = relative then { x with ignored := true } else x

@[simp] theorem WalkedFile.relative_markedAt (relative : String) (x : WalkedFile) :
    (x.markedAt relative).relative = x.relative := by
  unfold markedAt
  split <;> rfl

/-- One more file is ignored. -/
structure Walk.Turns (relative : String) (w w' : Walk) : Prop where
  files_eq : w'.files.toList = w.files.toList.map (WalkedFile.markedAt relative)
  totalFiles_eq : w.totalFiles = w'.totalFiles + 1
  ignoredCount_eq : w'.ignoredCount = w.ignoredCount + 1

/-- That file is no longer to be analysed. -/
theorem Walk.Turns.candidates_eq {relative : String} {w w' : Walk} (h : w.Turns relative w') :
    w'.candidates = w.candidates.filter fun x => x.relative ≠ relative := by
  rw [candidates, candidates, h.files_eq]
  induction w.files.toList with
  | nil => rfl
  | cons x xs ih =>
    rw [List.map_cons, List.filter_cons, List.filter_cons, ih, WalkedFile.markedAt]
    by_cases hx : x.relative = relative
    · rw [if_pos hx]
      cases x.ignored <;> simp [hx]
    · rw [if_neg hx]
      cases x.ignored <;> simp [hx]

/-- A list without repetition in which one visit turns. -/
theorem Visit.map_turn_eq {v : Visit} {vs : List Visit} (hnodup : vs.Nodup) (hv : v ∈ vs) :
    ∃ before after, vs = before ++ v :: after ∧ vs.map v.turn = before ++ v.marked :: after := by
  obtain ⟨before, after, rfl⟩ := List.append_of_mem hv
  have hne : ∀ u ∈ before ++ after, v.turn u = u := fun u hu => by
    refine if_neg ?_
    rintro rfl
    exact (List.nodup_middle.1 hnodup).notMem hu
  refine ⟨before, after, rfl, ?_⟩
  rw [List.map_append, List.map_cons, Visit.turn, if_pos rfl]
  congr 1
  · exact (List.map_congr_left fun u hu => hne u (List.mem_append_left _ hu)).trans (List.map_id _)
  · congr 1
    exact (List.map_congr_left fun u hu => hne u (List.mem_append_right _ hu)).trans (List.map_id _)

namespace TurnsIgnored

variable {v : Visit}

/-- What a walk keeps of a visit is marked if the visit is the one whose verdict turns. -/
theorem walkedFile?_turn (h : TurnsIgnored fs fs' root v) (hlists : fs.ListsChildren root)
    (honce : fs.ListsOnce) {u : Visit} (hu : u ∈ visits fs root) :
    (v.turn u).walkedFile? = u.walkedFile?.map (WalkedFile.markedAt (pathAlong v.names)) := by
  by_cases hsame : u = v
  · subst hsame
    rw [Visit.turn, if_pos rfl, Visit.walkedFile?, Visit.walkedFile?, Visit.marked]
    dsimp only
    rw [h.isFile, if_neg Bool.false_ne_true, if_neg Bool.false_ne_true, Option.map_map]
    congr 1
    funext kind
    rw [Function.comp, WalkedFile.markedAt, if_pos rfl]
  · rw [Visit.turn, if_neg hsame]
    cases hx : u.walkedFile? with
    | none => rfl
    | some x =>
      obtain ⟨hfile, -, -, hrelative, -⟩ := Visit.walkedFile?_eq_some_iff.1 hx
      rw [Option.map_some, WalkedFile.markedAt, if_neg]
      -- Another file has another path.
      intro he
      refine hsame (List.inj_on_of_nodup_map (nodup_keys_visits honce root) hu h.mem ?_)
      rw [Visit.key, Visit.key, names_eq_of_pathAlong_eq hlists hu h.mem (hrelative ▸ he), hfile,
        h.isFile]

/-- **A walk ignores one more file.** If it kept to its limit, so it does when a verdict turns; it
keeps the same files in the same order, and the one file gets its mark. -/
theorem walk (h : TurnsIgnored fs fs' root v) (hlist : ∀ p, fs.list p = fs'.list p)
    (hdepth : fs.depth = fs'.depth) (hlists : fs.ListsChildren root) (honce : fs.ListsOnce)
    {limit : Nat} {w : Walk} (hw : walk fs root limit = .ok w) :
    ∃ w', RefGraph.walk fs' root limit = .ok w' ∧ w.Turns (pathAlong v.names) w' := by
  have honce' : fs'.ListsOnce := fun dir =>
    FileSystem.entries_congr (hlist dir) ▸ honce dir
  have hvisits := h.visits_eq hlist hdepth honce'
  obtain ⟨before, after, hbefore, hturned⟩ :=
    Visit.map_turn_eq (nodup_keys_visits honce root).of_map h.mem
  -- One visit turns, so one file less is counted and one entry more is ignored.
  have hcounted : (visits fs root).countP Visit.isCounted =
      (visits fs' root).countP Visit.isCounted + 1 := by
    rw [hvisits, hturned, hbefore]
    simp only [List.countP_append, List.countP_cons, Visit.isCounted, Visit.marked, h.kept,
      h.isFile]
    simp only [Bool.not_false, Bool.not_true, Bool.and_true, if_true, Bool.false_eq_true, if_false]
    omega
  have hignored : (visits fs' root).countP Visit.ignored =
      (visits fs root).countP Visit.ignored + 1 := by
    rw [hvisits, hturned, hbefore]
    simp only [List.countP_append, List.countP_cons, Visit.marked, h.kept, if_true,
      Bool.false_eq_true, if_false]
    omega
  rw [walk_eq] at hw
  split at hw
  · rename_i hlimit
    obtain rfl := Except.ok.inj hw
    refine ⟨_, by rw [walk_eq, if_pos (by omega)], ?_, ?_, ?_⟩
    · show (#[] ++ _).toList = List.map _ (#[] ++ _).toList
      rw [Array.empty_append, Array.empty_append, List.toList_toArray, List.toList_toArray, hvisits,
        List.filterMap_map, List.map_filterMap]
      exact List.filterMap_congr fun u hu => h.walkedFile?_turn hlists honce hu
    · show 0 + _ = 0 + _ + 1
      omega
    · show 0 + _ = 0 + _ + 1
      omega
  · cases hw

end TurnsIgnored

end RefGraph
