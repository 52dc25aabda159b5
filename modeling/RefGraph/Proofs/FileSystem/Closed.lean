import RefGraph.Proofs.FileSystem.Contents

/-!
# Trees that are closed under ancestors

Whatever is added to a tree in memory, in any order and with paths in any spelling: the ancestors of
its files and directories are directories of it, and listing one directory after the other leads
from each of them down to every file. Only the empty path is no directory here, though it is an
ancestor, and what ends with `..` would be held but not listed.

* `FileSystem.ListsTo`: what listing one directory after the other leads to.
* `Memory.IsListing`: what the listing of a directory has to hold.
* `Memory.isDir_of_isAbove`: the ancestors of what is in a tree.
* `Memory.exists_listsTo`: files are reached from their ancestors.
* `Memory.shows_ofAdditions`: a tree shows what was added to it.
-/

namespace RefGraph

/-- Listing one directory after the other leads from a directory to an entry. -/
inductive FileSystem.ListsTo (fs : FileSystem) : Path → Entry → Prop
  | child {dir listed e} (list : fs.list dir = .ok listed) (mem : e ∈ listed) : ListsTo fs dir e
  | further {dir listed e e'} (list : fs.list dir = .ok listed) (mem : e ∈ listed)
      (isDir : e.isDir = true) (h : ListsTo fs e.path e') : ListsTo fs dir e'

/-- A path is a direct child of another one: it has one more component. -/
def Path.IsChild (dir p : Path) : Prop := ∃ c, p.components = dir.components ++ [c]

namespace Memory

open FileSystem

/-- Whether a path is a directory of a tree, or whether it is a file of it. -/
def plays (m : Memory) (isDir : Bool) (p : Path) : Bool := if isDir then m.isDir p else m.isFile p

/-- What a tree lists in a directory. -/
structure IsListing (m : Memory) (dir : Path) (listed : List Entry) : Prop where
  /-- All entries are direct children, with their last components for names. -/
  child : ∀ e ∈ listed, e.path.components = dir.components ++ [.name e.name]
  /-- Each direct child is listed once as a directory if it is one, and once as a file if it is
  one. -/
  once : ∀ isDir p, dir.IsChild p →
    listed.countP (fun e => e.isDir == isDir && e.path.equals p) = if m.plays isDir p then 1 else 0
  /-- Directories are listed before files. -/
  dirsFirst : listed.Pairwise fun e e' => e'.isDir = true → e.isDir = true

/-- A path that is not empty and does not lead back. -/
def Addition.IsOrdinary (a : Addition) : Prop :=
  a.path.text ≠ "" ∧ Component.parent ∉ a.path.components

instance (a : Addition) : Decidable a.IsOrdinary := inferInstanceAs (Decidable (_ ∧ _))

variable {m : Memory} {as : List Addition} {dir p q : Path}

/-! ## What additions put into a tree -/

theorem equals_iff : p.equals q = true ↔ q.components = p.components := by
  rw [Path.equals, beq_iff_eq, eq_comm]

theorem plays_iff {isDir : Bool} : m.plays isDir p = true ↔
    if isDir then m.HasDir p.components else ∃ text, m.HasFile p.components text := by
  cases isDir with
  | true => exact isDir_iff
  | false => exact isFile_iff

/-- An addition makes all directories above its path, and its own if it adds a directory. -/
theorem makesDir_iff {a : Addition} {cs : List Component} : a.MakesDir cs ↔
    (cs ≠ [] ∧ cs <+: a.path.components ∧ cs ≠ a.path.components) ∨
      ∃ q, a = .dir q ∧ q.components = cs :=
  or_congr_left Path.exists_mem_takeWhile_ancestors_iff

/-- What is in a tree lies on the way to something that was added. -/
theorem exists_isPrefix_of_plays {isDir : Bool} (h : (ofAdditions as).plays isDir p = true) :
    ∃ a ∈ as, p.components <+: a.path.components := by
  rw [plays_iff] at h
  cases isDir with
  | true =>
    obtain ⟨a, ha, hmakes⟩ := hasDir_ofAdditions_iff.1 h
    rcases makesDir_iff.1 hmakes with ⟨-, hbegins, -⟩ | ⟨q, rfl, hq⟩
    · exact ⟨a, ha, hbegins⟩
    · exact ⟨_, ha, hq ▸ List.prefix_refl _⟩
  | false =>
    obtain ⟨a, ha, text, q, rfl, hq⟩ := exists_hasFile_ofAdditions_iff.1 h
    exact ⟨_, ha, hq ▸ List.prefix_refl _⟩

/-- What has the first components of something in a tree, but not all, is a directory of it. -/
theorem hasDir_of_isPrefix (isDir : Bool) {cs : List Component}
    (h : (ofAdditions as).plays isDir p = true) (hne : cs ≠ []) (hbegins : cs <+: p.components)
    (hproper : cs ≠ p.components) : (ofAdditions as).HasDir cs := by
  obtain ⟨a, ha, hadded⟩ := exists_isPrefix_of_plays h
  refine hasDir_ofAdditions_iff.2 ⟨a, ha, makesDir_iff.2 (.inl ⟨hne, hbegins.trans hadded, ?_⟩)⟩
  exact fun heq => hproper (hbegins.eq_of_length_le (heq ▸ hadded.length_le))

/-- **The ancestors of what is in a tree are directories of it.** -/
theorem isDir_of_isAbove (isDir : Bool) (h : (ofAdditions as).plays isDir p = true)
    (hq : q.text ≠ "") (habove : q.IsAbove p) : (ofAdditions as).isDir q = true :=
  isDir_iff.2 (hasDir_of_isPrefix isDir h (Path.components_ne_nil hq) habove.1 habove.2)

section Ordinary

variable (has : ∀ a ∈ as, a.IsOrdinary)

include has

/-- No path of the memory has `..` in it. -/
theorem parent_notMem_of_plays {isDir : Bool} (h : (ofAdditions as).plays isDir p = true) :
    Component.parent ∉ p.components := by
  obtain ⟨a, ha, hbegins⟩ := exists_isPrefix_of_plays h
  exact fun hmem => (has a ha).2 (hbegins.subset hmem)

/-- No directory is at the empty path. -/
theorem components_ne_nil_of_isDir (h : (ofAdditions as).isDir dir = true) :
    dir.components ≠ [] := by
  obtain ⟨a, ha, hmakes⟩ := hasDir_ofAdditions_iff.1 (isDir_iff.1 h)
  rcases makesDir_iff.1 hmakes with ⟨hne, -⟩ | ⟨q, rfl, hq⟩
  · exact hne
  · exact hq ▸ Path.components_ne_nil (has _ ha).1

/-- **The directories are those that were added, and the ancestors of all that was.** -/
theorem isDir_ofAdditions_iff : (ofAdditions as).isDir p = true ↔
    p.text ≠ "" ∧ ∃ a ∈ as, p.IsAbove a.path ∨ ∃ q, a = .dir q ∧ p.equals q = true := by
  constructor
  · intro h
    refine ⟨Path.text_ne_of_components (components_ne_nil_of_isDir has h), ?_⟩
    obtain ⟨a, ha, hmakes⟩ := hasDir_ofAdditions_iff.1 (isDir_iff.1 h)
    rcases makesDir_iff.1 hmakes with ⟨-, habove⟩ | ⟨q, rfl, hq⟩
    · exact ⟨a, ha, .inl habove⟩
    · exact ⟨_, ha, .inr ⟨q, rfl, equals_iff.2 hq⟩⟩
  · rintro ⟨hne, a, ha, habove⟩
    refine isDir_iff.2 (hasDir_ofAdditions_iff.2 ⟨a, ha, makesDir_iff.2 ?_⟩)
    rcases habove with habove | ⟨q, rfl, hq⟩
    · exact .inl ⟨Path.components_ne_nil hne, habove⟩
    · exact .inr ⟨q, rfl, equals_iff.1 hq⟩

end Ordinary

/-- **The files are those that were added.** -/
theorem isFile_ofAdditions_iff : (ofAdditions as).isFile p = true ↔
    ∃ q text, Addition.file q text ∈ as ∧ p.equals q = true := by
  rw [isFile_iff, exists_hasFile_ofAdditions_iff]
  constructor
  · rintro ⟨_, ha, text, q, rfl, hq⟩
    exact ⟨q, text, ha, equals_iff.2 hq⟩
  · rintro ⟨q, text, ha, hq⟩
    exact ⟨_, ha, text, q, rfl, equals_iff.1 hq⟩

/-- Just the files can be read. -/
theorem exists_read_eq_ok_iff (h : m.Distinct) :
    (∃ text, m.read p = .ok text) ↔ m.isFile p = true := by
  rw [isFile_iff]
  exact exists_congr fun text => read_eq_ok_iff h

/-- **A file has the text of its last addition.** -/
theorem read_ofAdditions_iff {text : String} : (ofAdditions as).read p = .ok text ↔
    ∃ before q after, as = before ++ .file q text :: after ∧ p.equals q = true ∧
      ∀ r later, Addition.file r later ∈ after → p.equals r = false := by
  rw [read_eq_ok_iff (inOrder_ofAdditions as).distinct, hasFile_ofAdditions_iff]
  constructor
  · rintro ⟨before, _, after, hsplit, ⟨q, rfl, hq⟩, hafter⟩
    refine ⟨before, q, after, hsplit, equals_iff.2 hq, fun r later hr => ?_⟩
    rw [← Bool.not_eq_true, equals_iff]
    exact fun hsame => hafter _ hr later ⟨r, rfl, hsame⟩
  · rintro ⟨before, q, after, hsplit, hq, hafter⟩
    refine ⟨before, _, after, hsplit, ⟨q, rfl, equals_iff.1 hq⟩, ?_⟩
    rintro _ hr later ⟨r, rfl, hsame⟩
    exact Bool.false_ne_true ((hafter r later hr).symm.trans (equals_iff.2 hsame))

/-! ## Listings -/

/-- A directory is listed with its entries, and nothing else is listed. -/
theorem list_eq_ok_iff {listed : List Entry} : m.list dir = .ok listed ↔
    m.isDir dir = true ∧ listed = m.fileSystem.entries dir := by
  rw [list, entries_eq]
  split
  · rename_i hdir
    simp [hdir, eq_comm]
  · rename_i hdir
    simp [hdir]

theorem exists_list_eq_ok_iff : (∃ listed, m.list dir = .ok listed) ↔ m.isDir dir = true := by
  simp only [list_eq_ok_iff, exists_and_left, exists_eq, and_true]

/-- Directories are listed before files. -/
theorem pairwise_entries (m : Memory) (dir : Path) :
    (m.fileSystem.entries dir).Pairwise fun e e' => e'.isDir = true → e.isDir = true := by
  rw [entries_eq]
  split
  · refine List.pairwise_append.2 ⟨?_, ?_, ?_⟩
    · refine List.pairwise_of_forall_mem_list fun e he _ _ _ => ?_
      exact isDir_of_mem_filterMap_entryIn? id he
    · refine List.pairwise_of_forall_mem_list fun _ _ e' he' hdir => ?_
      rw [isDir_of_mem_filterMap_entryIn? Prod.fst he'] at hdir
      cases hdir
    · exact fun e he _ _ _ => isDir_of_mem_filterMap_entryIn? id he
  · exact List.Pairwise.nil

/-- A direct child of a name is listed once in each of its roles. -/
theorem Distinct.countP_entries (h : m.Distinct) (hdir : m.isDir dir = true) {name : String}
    (hp : p.components = dir.components ++ [.name name]) (isDir : Bool) :
    (m.fileSystem.entries dir).countP (fun e => e.isDir == isDir && e.path.equals p) =
      if m.plays isDir p then 1 else 0 := by
  have hkey : ∀ e ∈ m.fileSystem.entries dir,
      (e.isDir == isDir && e.path.equals p) = true ↔ (e.key == (name, isDir)) = true := by
    intro e he
    rw [Bool.and_eq_true, beq_iff_eq, beq_iff_eq, Path.equals, beq_iff_eq, hp,
      components_of_mem_entries he, Entry.key, Prod.mk.injEq, List.append_cancel_left_eq]
    simp [and_comm]
  have hplays : m.plays isDir p = true ↔
      (name, isDir) ∈ (m.fileSystem.entries dir).map Entry.key := by
    rw [plays_iff, mem_keys_entries_iff, hp, and_iff_right (isDir_iff.1 hdir)]
  calc (m.fileSystem.entries dir).countP (fun e => e.isDir == isDir && e.path.equals p)
      = ((m.fileSystem.entries dir).map Entry.key).count (name, isDir) := by
        rw [List.count, List.countP_map]
        exact List.countP_congr hkey
    _ = if (name, isDir) ∈ (m.fileSystem.entries dir).map Entry.key then 1 else 0 :=
        (h.listsOnce dir).count
    _ = if m.plays isDir p then 1 else 0 := by simp only [hplays]

/-- A list of entries is a listing of the directory. -/
theorem isListing_of_list (has : ∀ a ∈ as, a.IsOrdinary) {listed : List Entry}
    (h : (ofAdditions as).list dir = .ok listed) : (ofAdditions as).IsListing dir listed := by
  obtain ⟨hdir, rfl⟩ := list_eq_ok_iff.1 h
  refine ⟨fun e he => components_of_mem_entries he, fun isDir p hp => ?_, pairwise_entries _ dir⟩
  obtain ⟨c, hc⟩ := hp
  have hinner := Path.isInner_of_components hc (components_ne_nil_of_isDir has hdir) c
    List.mem_cons_self
  rcases hinner with rfl | ⟨name, rfl, -⟩
  · -- Nothing that leads back is in the tree, and no entry does.
    have hplays : (ofAdditions as).plays isDir p = false := by
      rw [← Bool.not_eq_true]
      exact fun hplays => parent_notMem_of_plays has hplays (by simp [hc])
    rw [hplays, List.countP_eq_zero.2]
    · rfl
    · intro e he
      simp [Path.equals, components_of_mem_entries he, hc]
  · exact (inOrder_ofAdditions as).distinct.countP_entries hdir hc isDir

/-! ## From directories to files -/

/-- What a directory holds under a name is listed there. -/
theorem exists_mem_entries (hdir : m.isDir dir = true) (isDir : Bool) {name : String}
    (h : if isDir then m.HasDir (dir.components ++ [.name name])
      else ∃ text, m.HasFile (dir.components ++ [.name name]) text) :
    ∃ e ∈ m.fileSystem.entries dir, e.isDir = isDir ∧
      e.path.components = dir.components ++ [.name name] := by
  obtain ⟨e, he, hkey⟩ := List.mem_map.1 (mem_keys_entries_iff.2 ⟨isDir_iff.1 hdir, h⟩)
  obtain ⟨rfl, rfl⟩ := Prod.mk.inj hkey
  exact ⟨e, he, rfl, components_of_mem_entries he⟩

/-- Between a directory and a file there are only names, since no path leads back. -/
theorem exists_names_of_isAbove (has : ∀ a ∈ as, a.IsOrdinary) (isDir : Bool)
    (h : (ofAdditions as).plays isDir p = true) (hdir : dir.text ≠ "") (habove : dir.IsAbove p) :
    ∃ names : List String, names ≠ [] ∧ p.components = dir.components ++ names.map .name := by
  obtain ⟨more, hmore⟩ := habove.1
  obtain ⟨names, rfl⟩ : ∃ names : List String, more = names.map .name := by
    refine Path.exists_map_name_eq fun c hc => ?_
    have hmem : c ∈ p.components := hmore ▸ List.mem_append_right _ hc
    have hinner := Path.isInner_of_components hmore.symm (Path.components_ne_nil hdir) c hc
    rcases hinner with rfl | ⟨name, hname, -⟩
    · exact absurd hmem (parent_notMem_of_plays has h)
    · exact ⟨name, hname⟩
  refine ⟨names, ?_, hmore.symm⟩
  rintro rfl
  exact habove.2 (by rw [← hmore]; exact (List.append_nil _).symm)

/-- **Listing one directory after the other leads to a file.** The induction is on the names between
the directory and the file. -/
theorem exists_listsTo {names : List String} (hne : names ≠ [])
    (hdir : (ofAdditions as).isDir dir = true) (hp : (ofAdditions as).isFile p = true)
    (hnames : p.components = dir.components ++ names.map .name) :
    ∃ e, ListsTo (ofAdditions as).fileSystem dir e ∧ e.isDir = false ∧ e.path.equals p = true := by
  induction names generalizing dir with
  | nil => exact absurd rfl hne
  | cons name names ih =>
    have hlist : (ofAdditions as).fileSystem.list dir =
        .ok ((ofAdditions as).fileSystem.entries dir) := list_eq_ok_iff.2 ⟨hdir, rfl⟩
    by_cases hnil : names = []
    · rw [hnil, List.map_singleton] at hnames
      have hfile : ∃ text, (ofAdditions as).HasFile (dir.components ++ [.name name]) text :=
        hnames ▸ isFile_iff.1 hp
      obtain ⟨e, he, hisFile, hpath⟩ := exists_mem_entries hdir false hfile
      exact ⟨e, .child hlist he, hisFile, equals_iff.2 (hnames.trans hpath.symm)⟩
    · -- What the first name leads to is an ancestor of the file, so it is a directory.
      have hfirst : p.components =
          (dir.components ++ [.name name]) ++ names.map Component.name := by
        rw [hnames, List.map_cons, List.append_assoc]
        rfl
      have hinside : (ofAdditions as).HasDir (dir.components ++ [.name name]) := by
        refine hasDir_of_isPrefix false hp (by simp) (hfirst ▸ List.prefix_append ..) ?_
        intro heq
        rw [hfirst, List.self_eq_append_right] at heq
        exact hnil (List.map_eq_nil_iff.1 heq)
      obtain ⟨e, he, hisDir, hpath⟩ := exists_mem_entries hdir true hinside
      rw [← hpath] at hfirst hinside
      obtain ⟨e', hlists, hisFile, hequals⟩ := ih hnil (isDir_iff.2 hinside) hfirst
      exact ⟨e', .further hlist he hisDir hlists, hisFile, hequals⟩

/-! ## What a tree shows -/

/-- A tree shows what has been added to it, whatever the spelling of the paths. -/
structure Shows (m : Memory) (as : List Addition) : Prop where
  /-- The directories are those that were added, and the ancestors of all that was. -/
  isDir_iff : ∀ p, m.isDir p = true ↔
    p.text ≠ "" ∧ ∃ a ∈ as, p.IsAbove a.path ∨ ∃ q, a = .dir q ∧ p.equals q = true
  /-- The files are those that were added. -/
  isFile_iff : ∀ p, m.isFile p = true ↔ ∃ q text, Addition.file q text ∈ as ∧ p.equals q = true
  /-- What is no file cannot be read. -/
  exists_read_iff : ∀ p, (∃ text, m.read p = .ok text) ↔ m.isFile p = true
  /-- A file has the text of its last addition. -/
  read_iff : ∀ p text, m.read p = .ok text ↔ ∃ before q after,
    as = before ++ .file q text :: after ∧ p.equals q = true ∧
      ∀ r later, Addition.file r later ∈ after → p.equals r = false
  /-- The ancestors of files and directories are directories. -/
  closed : ∀ p q, m.isFile p = true ∨ m.isDir p = true → q.text ≠ "" → q.IsAbove p →
    m.isDir q = true
  /-- What is no directory cannot be listed. -/
  exists_list_iff : ∀ dir, (∃ listed, m.list dir = .ok listed) ↔ m.isDir dir = true
  /-- A directory lists its direct children. -/
  isListing : ∀ dir listed, m.list dir = .ok listed → m.IsListing dir listed
  /-- Listing leads from the ancestors of a file to the file. -/
  exists_listsTo : ∀ p dir, m.isFile p = true → dir.text ≠ "" → dir.IsAbove p →
    ∃ e, ListsTo m.fileSystem dir e ∧ e.isDir = false ∧ e.path.equals p = true

/-- **A tree shows what has been added to it**, in whatever order and spelling. -/
theorem shows_ofAdditions (has : ∀ a ∈ as, a.IsOrdinary) : (ofAdditions as).Shows as where
  isDir_iff _ := isDir_ofAdditions_iff has
  isFile_iff _ := isFile_ofAdditions_iff
  exists_read_iff _ := exists_read_eq_ok_iff (inOrder_ofAdditions as).distinct
  read_iff _ _ := read_ofAdditions_iff
  closed p q h hq habove := by
    rcases h with h | h
    · exact isDir_of_isAbove false h hq habove
    · exact isDir_of_isAbove true h hq habove
  exists_list_iff _ := exists_list_eq_ok_iff
  isListing _ _ := isListing_of_list has
  exists_listsTo p dir h hdir habove := by
    obtain ⟨names, hne, hnames⟩ := exists_names_of_isAbove has false h hdir habove
    exact exists_listsTo hne (isDir_of_isAbove false h hdir habove) h hnames

/-- One path in several spellings, a directory behind a `.` and one that is a file as well. -/
def respelled : List Addition :=
  [.file ⟨"./src//a.ts"⟩ "old", .dir ⟨"/lib/./deep/"⟩, .file ⟨"/lib"⟩ "file",
    .file ⟨"./src/./a.ts"⟩ "new"]

/-- Paths that are written in other ways show what was added. -/
theorem shows_respelled :
    (∀ a ∈ respelled, a.IsOrdinary) ∧ (ofAdditions respelled).Shows respelled := by
  have has : ∀ a ∈ respelled, a.IsOrdinary := by decide
  exact ⟨has, shows_ofAdditions has⟩

end Memory

end RefGraph
