import RefGraph.Proofs.FileSystem.Distinct
import RefGraph.Proofs.Path.Ancestors

/-!
# What a tree in memory holds

A tree in memory is known by the components of the paths of its files and directories. All that is
asked of it can be answered from that, and it can be said what it holds when files and directories
have been added one after the other.

* `Memory.HasDir`, `Memory.HasFile`: what a tree holds.
* `Memory.isDir_iff`, `Memory.isFile_iff`, `Memory.read_eq_ok_iff`, `Memory.mem_keys_entries_iff`:
  what the operations say of it.
* `Memory.ofAdditions`: the tree that additions build up.
* `Memory.hasDir_ofAdditions_iff`, `Memory.hasFile_ofAdditions_iff`: what it holds.
-/

namespace RefGraph.Memory

/-- A directory of a tree has these components. -/
def HasDir (m : Memory) (cs : List Component) : Prop := ∃ p ∈ m.dirs, p.components = cs

/-- A file of a tree has these components and this text. -/
def HasFile (m : Memory) (cs : List Component) (text : String) : Prop :=
  ∃ p, (p, text) ∈ m.files ∧ p.components = cs

variable {m : Memory}

/-! ## Operations -/

theorem isDir_iff {p : Path} : m.isDir p = true ↔ m.HasDir p.components := by
  rw [isDir, List.any_eq_true]
  refine exists_congr fun q => and_congr_right fun _ => ?_
  rw [Path.equals, beq_iff_eq]
  exact eq_comm

theorem isFile_iff {p : Path} : m.isFile p = true ↔ ∃ text, m.HasFile p.components text := by
  rw [isFile, List.any_eq_true]
  constructor
  · rintro ⟨⟨q, text⟩, hq, hequals⟩
    exact ⟨text, q, hq, (beq_iff_eq.1 hequals).symm⟩
  · rintro ⟨text, q, hq, hcomponents⟩
    exact ⟨(q, text), hq, beq_iff_eq.2 hcomponents.symm⟩

/-- A file has one text. -/
theorem Distinct.text_unique (h : m.Distinct) {cs : List Component} {text text' : String}
    (ht : m.HasFile cs text) (ht' : m.HasFile cs text') : text = text' := by
  obtain ⟨p, hp, hcs⟩ := ht
  obtain ⟨p', hp', hcs'⟩ := ht'
  exact (Prod.mk.inj (List.inj_on_of_nodup_map h.files hp hp' (hcs.trans hcs'.symm))).2

/-- A file reads as its text. -/
theorem read_eq_ok_iff (h : m.Distinct) {p : Path} {text : String} :
    m.read p = .ok text ↔ m.HasFile p.components text := by
  have hread : ∀ text', m.read p = .ok text' → m.HasFile p.components text' := by
    intro text' hread
    rw [read] at hread
    split at hread
    · rename_i q found hfind
      obtain rfl := Except.ok.inj hread
      have hequals := List.find?_some (p := fun f : Path × String => p.equals f.1) hfind
      exact ⟨q, List.mem_of_find?_eq_some hfind, (beq_iff_eq.1 hequals).symm⟩
    · cases hread
  constructor
  · exact hread text
  · intro hfile
    cases hp : m.read p with
    | ok found => rw [h.text_unique (hread found hp) hfile]
    | error e =>
      obtain ⟨q, hq, hcomponents⟩ := hfile
      rw [read] at hp
      split at hp
      · cases hp
      · rename_i hfind
        exact absurd (beq_iff_eq.2 hcomponents.symm) (List.find?_eq_none.1 hfind _ hq)

/-- A directory lists just the paths with one more name. -/
theorem entryIn?_eq_some_iff {dir p : Path} {isDir : Bool} {e : Entry} :
    entryIn? dir isDir p = some e ↔
      p.components = dir.components ++ [.name e.name] ∧ e = ⟨p, e.name, isDir⟩ := by
  constructor
  · intro h
    obtain ⟨rfl, rfl, hcomponents⟩ := components_of_entryIn? h
    exact ⟨hcomponents, rfl⟩
  · rintro ⟨hcomponents, he⟩
    have hlast : p.components.getLast? = some (.name e.name) := by
      rw [hcomponents, List.getLast?_concat]
    obtain ⟨q, hq⟩ : ∃ q, p.parent? = some q := by
      rw [Path.parent?, hlast]
      exact ⟨_, rfl⟩
    have hequals : q.equals dir = true := by
      rw [Path.equals, Path.components_parent? hq, hcomponents, List.dropLast_concat]
      exact beq_self_eq_true _
    rw [entryIn?, hq, Path.fileName?, hlast]
    dsimp only
    rw [if_pos hequals, ← he]

/-- Directories and files are listed apart. -/
theorem isDir_of_mem_filterMap_entryIn? {α : Type} {xs : List α} (path : α → Path) {dir : Path}
    {isDir : Bool} {e : Entry} (h : e ∈ xs.filterMap fun x => entryIn? dir isDir (path x)) :
    e.isDir = isDir := by
  obtain ⟨x, -, hx⟩ := List.mem_filterMap.1 h
  exact (components_of_entryIn? hx).2.1

/-- The entries of a directory are its directories and then its files. -/
theorem entries_eq (m : Memory) (dir : Path) : m.fileSystem.entries dir = if m.isDir dir then
    m.dirs.filterMap (entryIn? dir true) ++ m.files.filterMap (fun f => entryIn? dir false f.1)
    else [] := by
  have hlist : m.fileSystem.list dir = m.list dir := rfl
  rw [FileSystem.entries, hlist, list]
  split
  · rename_i listed hlisted
    split at hlisted
    · rename_i hdir
      rw [if_pos hdir]
      exact (Except.ok.inj hlisted).symm
    · cases hlisted
  · rename_i e hlisted
    split at hlisted
    · cases hlisted
    · rename_i hdir
      exact (if_neg hdir).symm

/-- What is listed in a directory, by names. -/
theorem mem_keys_entries_iff {dir : Path} {name : String} {isDir : Bool} :
    (name, isDir) ∈ (m.fileSystem.entries dir).map Entry.key ↔ m.HasDir dir.components ∧
      if isDir then m.HasDir (dir.components ++ [.name name])
      else ∃ text, m.HasFile (dir.components ++ [.name name]) text := by
  rw [← isDir_iff, entries_eq]
  by_cases hdir : m.isDir dir = true
  · rw [if_pos hdir, List.mem_map]
    refine Iff.trans ?_ (and_iff_right hdir).symm
    constructor
    · -- The listing has the directories first and the files behind them.
      rintro ⟨e, he, hkey⟩
      obtain ⟨rfl, rfl⟩ := Prod.mk.inj hkey
      rcases List.mem_append.1 he with he | he
      · obtain ⟨p, hp, hentry⟩ := List.mem_filterMap.1 he
        obtain ⟨-, hisDir, hcomponents⟩ := components_of_entryIn? hentry
        rw [if_pos hisDir]
        exact ⟨p, hp, hcomponents⟩
      · obtain ⟨f, hf, hentry⟩ := List.mem_filterMap.1 he
        obtain ⟨-, hisDir, hcomponents⟩ := components_of_entryIn? hentry
        rw [if_neg (by simp [hisDir])]
        exact ⟨f.2, f.1, hf, hcomponents⟩
    · intro hhas
      cases isDir with
      | true =>
        obtain ⟨p, hp, hcomponents⟩ := hhas
        refine ⟨⟨p, name, true⟩, List.mem_append_left _ ?_, rfl⟩
        exact List.mem_filterMap.2 ⟨p, hp, entryIn?_eq_some_iff.2 ⟨hcomponents, rfl⟩⟩
      | false =>
        obtain ⟨text, p, hp, hcomponents⟩ := hhas
        refine ⟨⟨p, name, false⟩, List.mem_append_right _ ?_, rfl⟩
        exact List.mem_filterMap.2 ⟨(p, text), hp, entryIn?_eq_some_iff.2 ⟨hcomponents, rfl⟩⟩
  · rw [if_neg hdir]
    simp [hdir]

/-! ## Additions -/

/-- Something that is added to a tree. -/
inductive Addition where
  | file (path : Path) (text : String)
  | dir (path : Path)
deriving DecidableEq, Repr, Inhabited

/-- The path of what is added. -/
def Addition.path : Addition → Path
  | file p _ => p
  | dir p => p

/-- A tree with one addition. -/
def add (m : Memory) : Addition → Memory
  | .file p text => m.addFile p text
  | .dir p => m.addDir p

/-- The tree that additions build up, one after the other. -/
def ofAdditions (as : List Addition) : Memory := as.foldl add {}

theorem ofAdditions_concat (as : List Addition) (a : Addition) :
    ofAdditions (as ++ [a]) = (ofAdditions as).add a := by
  rw [ofAdditions, List.foldl_concat]
  rfl

theorem InOrder.add (h : m.InOrder) (a : Addition) : (m.add a).InOrder := by
  cases a with
  | file p text => exact h.addFile p text
  | dir p => exact h.addDir p

/-- Whatever is added, the memory is in order. -/
theorem inOrder_ofAdditions (as : List Addition) : (ofAdditions as).InOrder := by
  induction as using List.reverseRecOn with
  | nil => exact ⟨List.Pairwise.nil, List.Pairwise.nil⟩
  | append_singleton as a ih =>
    rw [ofAdditions_concat]
    exact ih.add a

/-! ## Directories -/

theorem exists_mem_insertDir_iff {p : Path} {ps : List Path} {cs : List Component} :
    (∃ q ∈ insertDir p ps, q.components = cs) ↔
      p.components = cs ∨ ∃ q ∈ ps, q.components = cs := by
  induction ps with
  | nil => simp [insertDir]
  | cons r ps ih =>
    rw [insertDir]
    split
    · simp only [List.mem_cons, exists_eq_or_imp]
    · rename_i heq
      -- The path that is there already has the same components.
      rw [Path.order_eq_compareLex] at heq
      have hsame : p.components = r.components := Std.LawfulEqCmp.eq_of_compare heq
      simp only [List.mem_cons, exists_eq_or_imp, hsame]
      exact ⟨.inr, fun h => h.elim .inl id⟩
    · simp only [List.mem_cons, exists_eq_or_imp, ih]
      exact or_left_comm

/-- The parents that are added with a path. -/
def addedParents (p : Path) : List Path := p.ancestors.takeWhile fun q => q.text ≠ ""

/-- They come before the last component of the path, and they are not empty. -/
theorem components_of_mem_addedParents {p q : Path} (h : q ∈ addedParents p) :
    q.components <+: p.components.dropLast ∧ q.components ≠ [] := by
  refine ⟨Path.components_prefix_of_mem_ancestorsUpTo ((List.takeWhile_prefix _).subset h),
    Path.components_ne_nil ?_⟩
  simpa using List.mem_takeWhile_imp h

/-- Adding the ancestors of a path adds all that are above it. -/
theorem hasDir_addAncestors_iff {p : Path} {cs : List Component} :
    (m.addAncestors p).HasDir cs ↔ (∃ q ∈ addedParents p, q.components = cs) ∨ m.HasDir cs := by
  have hfold : ∀ ps dirs : List Path,
      (∃ q ∈ ps.foldl (fun dirs q => insertDir q dirs) dirs, q.components = cs) ↔
        (∃ q ∈ ps, q.components = cs) ∨ ∃ q ∈ dirs, q.components = cs := by
    intro ps
    induction ps with
    | nil => simp
    | cons r ps ih =>
      intro dirs
      rw [List.foldl_cons, ih, exists_mem_insertDir_iff]
      simp only [List.mem_cons, exists_eq_or_imp]
      rw [or_left_comm, or_assoc]
  exact hfold _ _

/-- An addition makes a directory with these components: itself or a parent. -/
def Addition.MakesDir (a : Addition) (cs : List Component) : Prop :=
  (∃ q ∈ addedParents a.path, q.components = cs) ∨ ∃ p, a = .dir p ∧ p.components = cs

/-- An addition adds the directories that it makes. -/
theorem hasDir_add_iff {a : Addition} {cs : List Component} :
    (m.add a).HasDir cs ↔ a.MakesDir cs ∨ m.HasDir cs := by
  cases a with
  | file p text =>
    have hadd : (m.add (.file p text)).HasDir cs ↔ (m.addAncestors p).HasDir cs := Iff.rfl
    rw [hadd, hasDir_addAncestors_iff]
    simp [Addition.MakesDir, Addition.path]
  | dir p =>
    have hadd : (m.add (.dir p)).HasDir cs ↔
        ∃ q ∈ insertDir p (m.addAncestors p).dirs, q.components = cs := Iff.rfl
    rw [hadd, exists_mem_insertDir_iff, ← HasDir, hasDir_addAncestors_iff]
    simp only [Addition.MakesDir, Addition.path, Addition.dir.injEq, exists_eq_left']
    rw [← or_assoc, or_comm (a := p.components = cs)]

/-- **The directories that additions make.** -/
theorem hasDir_ofAdditions_iff {as : List Addition} {cs : List Component} :
    (ofAdditions as).HasDir cs ↔ ∃ a ∈ as, a.MakesDir cs := by
  induction as using List.reverseRecOn with
  | nil => simp [ofAdditions, HasDir]
  | append_singleton as a ih =>
    rw [ofAdditions_concat, hasDir_add_iff, ih]
    simp only [List.mem_append, List.mem_singleton, or_and_right, exists_or, exists_eq_left]
    exact or_comm

/-! ## Files -/

theorem exists_mem_cons_file_iff {r : Path} {old text : String} {files : List (Path × String)}
    {cs : List Component} : (∃ q, (q, text) ∈ (r, old) :: files ∧ q.components = cs) ↔
      (r.components = cs ∧ text = old) ∨ ∃ q, (q, text) ∈ files ∧ q.components = cs := by
  constructor
  · rintro ⟨q, hq, hcs⟩
    rcases List.mem_cons.1 hq with heq | hq
    · obtain ⟨rfl, rfl⟩ := Prod.mk.inj heq
      exact .inl ⟨hcs, rfl⟩
    · exact .inr ⟨q, hq, hcs⟩
  · rintro (⟨hcs, rfl⟩ | ⟨q, hq, hcs⟩)
    · exact ⟨r, List.mem_cons_self, hcs⟩
    · exact ⟨q, List.mem_cons_of_mem _ hq, hcs⟩

/-- Among files in their order a file gets its text, and the others keep theirs. -/
theorem exists_mem_insertFile_iff {p : Path} {text text' : String} {files : List (Path × String)}
    (h : Sorted (files.map Prod.fst)) {cs : List Component} :
    (∃ q, (q, text') ∈ insertFile p text files ∧ q.components = cs) ↔
      (p.components = cs ∧ text' = text) ∨
        (p.components ≠ cs ∧ ∃ q, (q, text') ∈ files ∧ q.components = cs) := by
  induction files with
  | nil =>
    rw [insertFile, exists_mem_cons_file_iff]
    simp
  | cons f files ih =>
    obtain ⟨r, old⟩ := f
    obtain ⟨hr, hfiles⟩ := List.pairwise_cons.1 h
    -- A path that comes before the first one, or is that one, is not among the later ones.
    have hlater : ∀ s : Path, s.order r = .lt ∨ s.components = r.components →
        s.components = cs → ¬ ∃ q, (q, text') ∈ files ∧ q.components = cs := by
      rintro s hs hcs ⟨q, hq, hqcs⟩
      have hrq : r.order q = .lt := hr q (List.mem_map_of_mem hq)
      rcases hs with hs | hs
      · exact Path.components_ne_of_order (Path.order_trans hs hrq) (hcs.trans hqcs.symm)
      · exact Path.components_ne_of_order hrq (hs.symm.trans (hcs.trans hqcs.symm))
    rw [insertFile]
    split
    · rename_i hlt
      rw [exists_mem_cons_file_iff, exists_mem_cons_file_iff]
      by_cases hcs : p.components = cs
      · have hr' : r.components ≠ cs := fun he =>
          Path.components_ne_of_order hlt (hcs.trans he.symm)
        simp [hcs, hr', hlater p (.inl hlt) hcs]
      · simp [hcs]
    · rename_i heq
      rw [Path.order_eq_compareLex] at heq
      have hsame : p.components = r.components := Std.LawfulEqCmp.eq_of_compare heq
      rw [exists_mem_cons_file_iff, exists_mem_cons_file_iff, ← hsame]
      by_cases hcs : p.components = cs
      · simp [hcs, hlater p (.inr hsame) hcs]
      · simp [hcs]
    · rename_i hgt
      have hne := Path.components_ne_of_order (Path.order_gt hgt)
      rw [exists_mem_cons_file_iff, exists_mem_cons_file_iff, ih hfiles]
      by_cases hcs : p.components = cs
      · have hr' : r.components ≠ cs := fun he => hne (he.trans hcs.symm)
        simp [hcs, hr']
      · simp [hcs]

/-- A file that is written has its new text, and all others are as before. -/
theorem InOrder.hasFile_addFile_iff (h : m.InOrder) {p : Path} {text text' : String}
    {cs : List Component} : (m.addFile p text).HasFile cs text' ↔
      (p.components = cs ∧ text' = text) ∨ (p.components ≠ cs ∧ m.HasFile cs text') :=
  exists_mem_insertFile_iff h.files

/-- An addition gives a text to the file with these components. -/
def Addition.Writes (a : Addition) (cs : List Component) (text : String) : Prop :=
  ∃ p, a = .file p text ∧ p.components = cs

/-- An addition says what a file holds, or the file is as it was before. -/
theorem InOrder.hasFile_add_iff (h : m.InOrder) {a : Addition} {cs : List Component}
    {text : String} : (m.add a).HasFile cs text ↔
      a.Writes cs text ∨ ((∀ text', ¬ a.Writes cs text') ∧ m.HasFile cs text) := by
  cases a with
  | file p written =>
    refine h.hasFile_addFile_iff.trans ?_
    simp only [Addition.Writes, Addition.file.injEq]
    constructor
    · rintro (⟨hcs, rfl⟩ | ⟨hcs, hfile⟩)
      · exact .inl ⟨p, ⟨rfl, rfl⟩, hcs⟩
      · refine .inr ⟨?_, hfile⟩
        rintro text' ⟨q, ⟨rfl, -⟩, hq⟩
        exact hcs hq
    · rintro (⟨q, ⟨rfl, rfl⟩, hq⟩ | ⟨hnot, hfile⟩)
      · exact .inl ⟨hq, rfl⟩
      · exact .inr ⟨fun hcs => hnot written ⟨p, ⟨rfl, rfl⟩, hcs⟩, hfile⟩
  | dir p =>
    have hadd : (m.add (.dir p)).HasFile cs text ↔ m.HasFile cs text := Iff.rfl
    rw [hadd]
    simp [Addition.Writes]

/-- **The files that additions make**: each has the text of its last addition. -/
theorem hasFile_ofAdditions_iff {as : List Addition} {cs : List Component} {text : String} :
    (ofAdditions as).HasFile cs text ↔ ∃ before a after, as = before ++ a :: after ∧
      a.Writes cs text ∧ ∀ b ∈ after, ∀ text', ¬ b.Writes cs text' := by
  induction as using List.reverseRecOn with
  | nil => simp [ofAdditions, HasFile]
  | append_singleton as b ih =>
    rw [ofAdditions_concat, (inOrder_ofAdditions as).hasFile_add_iff, ih]
    constructor
    · rintro (hwrites | ⟨hnot, before, a, after, rfl, hwrites, hafter⟩)
      · exact ⟨as, b, [], rfl, hwrites, by simp⟩
      · refine ⟨before, a, after ++ [b], by simp, hwrites, ?_⟩
        intro c hc text'
        rcases List.mem_append.1 hc with hc | hc
        · exact hafter c hc text'
        · rw [List.mem_singleton.1 hc]
          exact hnot text'
    · rintro ⟨before, a, after, heq, hwrites, hafter⟩
      rcases List.eq_nil_or_concat' after with rfl | ⟨init, c, rfl⟩
      · obtain ⟨-, hb⟩ := List.append_inj' heq rfl
        rw [(List.cons.inj hb).1]
        exact .inl hwrites
      · have hsplit : as ++ [b] = (before ++ a :: init) ++ [c] := by rw [heq]; simp
        obtain ⟨rfl, hb⟩ := List.append_inj' hsplit rfl
        obtain rfl := (List.cons.inj hb).1
        refine .inr ⟨hafter b (by simp), before, a, init, rfl, hwrites, ?_⟩
        exact fun d hd => hafter d (List.mem_append_left _ hd)

/-- A memory has just the files that were written. -/
theorem exists_hasFile_ofAdditions_iff {as : List Addition} {cs : List Component} :
    (∃ text, (ofAdditions as).HasFile cs text) ↔ ∃ a ∈ as, ∃ text, a.Writes cs text := by
  constructor
  · rintro ⟨text, hfile⟩
    obtain ⟨before, a, after, rfl, hwrites, -⟩ := hasFile_ofAdditions_iff.1 hfile
    exact ⟨a, by simp, text, hwrites⟩
  · induction as using List.reverseRecOn with
    | nil => simp
    | append_singleton as b ih =>
      rintro ⟨a, ha, text, hwrites⟩
      by_cases hb : ∃ text', b.Writes cs text'
      · obtain ⟨text', hb⟩ := hb
        exact ⟨text', hasFile_ofAdditions_iff.2 ⟨as, b, [], rfl, hb, by simp⟩⟩
      · -- The last addition writes elsewhere, so it leaves the file as it was.
        have hmem : a ∈ as := by
          rcases List.mem_append.1 ha with ha | ha
          · exact ha
          · rw [List.mem_singleton.1 ha] at hwrites
            exact absurd ⟨text, hwrites⟩ hb
        obtain ⟨found, hfound⟩ := ih ⟨a, hmem, text, hwrites⟩
        obtain ⟨before, c, after, rfl, hc, hafter⟩ := hasFile_ofAdditions_iff.1 hfound
        refine ⟨found, hasFile_ofAdditions_iff.2 ⟨before, c, after ++ [b], by simp, hc, ?_⟩⟩
        intro e he text' hwrites'
        rcases List.mem_append.1 he with he | he
        · exact hafter e he text' hwrites'
        · rw [List.mem_singleton.1 he] at hwrites'
          exact hb ⟨text', hwrites'⟩

end RefGraph.Memory
