import RefGraph.Proofs.Disk.Plain
import RefGraph.Proofs.FileSystem.Listings
import RefGraph.Proofs.Scan.Alike
import RefGraph.Proofs.Scan.Candidates
import RefGraph.Proofs.Scan.Confined

/-!
# A disk in memory

All directories and files of a disk without links can be added to a tree in memory, in any order.
That tree looks like the disk: it lists the same names, and what is a directory or a file on the
disk is one in the tree. So a scan of the tree gives what a scan of the disk gives.

* `DiskNode.additions`: all that is added for a tree on a disk.
* `DiskNode.mem_additions_iff`: that is something for each node, under the names that lead to it.
* `Disk.hasDir_ofAdditions`, `Disk.hasFile_ofAdditions`: what the tree in memory holds.
* `Disk.alike_ofAdditions`: it looks like the disk.
* `Disk.scan_eq_scan_ofAdditions`: scans of both give the same.
-/

namespace RefGraph

/-! ## Additions -/

namespace DiskNode

/-- What is added for a node to which names lead. -/
def addition? (names : List String) : DiskNode → Option Memory.Addition
  | file bytes => some (.file (Disk.pathOf names) (String.ofList (Utf8.decodeLossy bytes)))
  | link _ => none
  | directory _ => some (.dir (Disk.pathOf names))

mutual

/-- What is added for a node to which names lead and for all nodes below it. -/
def additions (names : List String) : DiskNode → List Memory.Addition
  | directory entries => .dir (Disk.pathOf names) :: additionsOfEntries names entries
  | n => (n.addition? names).toList

/-- What is added for the entries of a directory to which names lead. -/
def additionsOfEntries (names : List String) : List (String × DiskNode) → List Memory.Addition
  | [] => []
  | (name, n) :: es => n.additions (names ++ [name]) ++ additionsOfEntries names es

end

theorem mem_additionsOfEntries {names : List String} {es : List (String × DiskNode)}
    {a : Memory.Addition} : a ∈ additionsOfEntries names es ↔
      ∃ e ∈ es, a ∈ e.2.additions (names ++ [e.1]) := by
  induction es with
  | nil => simp [additionsOfEntries]
  | cons e es ih =>
    obtain ⟨name, n⟩ := e
    rw [additionsOfEntries, List.mem_append, ih]
    simp

/-- What is added for a node is added for all that is above it. -/
theorem mem_additions_of_at? {n m : DiskNode} {names more : List String} {a : Memory.Addition}
    (hm : n.at? more = some m) (ha : m.addition? (names ++ more) = some a) :
    a ∈ n.additions names := by
  induction more generalizing n names with
  | nil =>
    obtain rfl := Option.some.inj hm
    rw [List.append_nil] at ha
    cases n with
    | directory entries =>
      rw [additions, ← Option.some.inj ha]
      exact List.mem_cons_self
    | file bytes =>
      rw [additions, ha]
      · exact List.mem_singleton_self a
      · exact fun _ he => by cases he
    | link target => cases ha
  | cons name more ih =>
    obtain ⟨c, hc, hbelow⟩ := Option.bind_eq_some_iff.1 hm
    obtain ⟨entries, rfl⟩ := exists_eq_directory hc
    rw [additions]
    refine List.mem_cons_of_mem _ (mem_additionsOfEntries.2 ⟨(name, c), mem_of_child? hc, ?_⟩)
    apply ih hbelow
    rw [List.append_assoc]
    exact ha

mutual

/-- All that is added stands for a node of the tree. -/
theorem exists_of_mem_additions : ∀ (n : DiskNode), n.IsPlain → ∀ (names : List String)
    (a : Memory.Addition), a ∈ n.additions names →
      ∃ more m, n.at? more = some m ∧ m.addition? (names ++ more) = some a
  | file bytes, _, names, a, ha => by
    refine ⟨[], file bytes, rfl, ?_⟩
    rw [List.append_nil]
    exact (List.mem_singleton.1 ha) ▸ rfl
  | link _, h, _, _, _ => absurd h id
  | directory entries, h, names, a, ha => by
    rw [additions, List.mem_cons] at ha
    rcases ha with rfl | ha
    · exact ⟨[], directory entries, rfl, by rw [List.append_nil]; rfl⟩
    · obtain ⟨name, n, hmem, more, m, hm, ha⟩ :=
        exists_of_mem_additionsOfEntries entries h.2 names a ha
      refine ⟨name :: more, m, ?_, ha⟩
      rw [at?, (mem_iff_child? h.1).1 hmem]
      exact hm

theorem exists_of_mem_additionsOfEntries : ∀ (es : List (String × DiskNode)), ArePlain es →
    ∀ (names : List String) (a : Memory.Addition), a ∈ additionsOfEntries names es →
      ∃ name n, (name, n) ∈ es ∧
        ∃ more m, n.at? more = some m ∧ m.addition? (names ++ name :: more) = some a
  | [], _, _, _, ha => absurd ha List.not_mem_nil
  | (name, n) :: es, h, names, a, ha => by
    rw [additionsOfEntries, List.mem_append] at ha
    rcases ha with ha | ha
    · obtain ⟨more, m, hm, ha⟩ := exists_of_mem_additions n h.2.1 (names ++ [name]) a ha
      rw [List.append_assoc] at ha
      exact ⟨name, n, List.mem_cons_self, more, m, hm, ha⟩
    · obtain ⟨name', n', hmem, hrest⟩ := exists_of_mem_additionsOfEntries es h.2.2 names a ha
      exact ⟨name', n', List.mem_cons_of_mem _ hmem, hrest⟩

end

/-- **Something is added for each node**, under the names that lead to it. -/
theorem mem_additions_iff {n : DiskNode} (h : n.IsPlain) {a : Memory.Addition} :
    a ∈ n.additions [] ↔ ∃ names m, n.at? names = some m ∧ m.addition? names = some a :=
  ⟨exists_of_mem_additions n h [] a, fun ⟨_, _, hm, ha⟩ => mem_additions_of_at? hm ha⟩

end DiskNode

/-! ## What the tree in memory holds -/

namespace Disk

open Memory

/-- A disk without links. -/
structure IsPlain (d : Disk) : Prop where
  isDirectory : d.root.isDirectory = true
  plain : d.root.IsPlain

instance (d : Disk) : Decidable d.IsPlain :=
  decidable_of_iff (d.root.isDirectory = true ∧ d.root.IsPlain)
    ⟨fun h => ⟨h.1, h.2⟩, fun h => ⟨h.isDirectory, h.plain⟩⟩

variable {d : Disk} {as : List Addition}

/-- What comes before the last component of a path of names. -/
theorem exists_names_of_prefix {cs : List Component} {names : List String}
    (h : cs <+: (Component.root :: names.map .name).dropLast) (hne : cs ≠ []) :
    ∃ before after, after ≠ [] ∧ names = before ++ after ∧ cs = .root :: before.map .name := by
  rcases List.eq_nil_or_concat' names with rfl | ⟨init, last, rfl⟩
  · exact absurd (List.prefix_nil.1 h) hne
  · obtain ⟨c, cs, rfl⟩ := List.exists_cons_of_ne_nil hne
    rw [List.map_append, List.map_singleton, ← List.cons_append, List.dropLast_concat,
      List.cons_prefix_cons] at h
    obtain ⟨rfl, more, hmore⟩ := h
    obtain ⟨before, after, rfl, rfl, -⟩ := List.map_eq_append_iff.1 hmore.symm
    exact ⟨before, after ++ [last], by simp, List.append_assoc .., rfl⟩

section Additions

variable (h : d.IsPlain) (has : as.Perm (d.root.additions []))

include h has

/-- The additions of a disk are those of its nodes. -/
theorem mem_as_iff {a : Addition} :
    a ∈ as ↔ ∃ names n, d.root.at? names = some n ∧ n.addition? names = some a := by
  rw [has.mem_iff]
  exact DiskNode.mem_additions_iff h.plain

/-- The tree in memory has the directories of the disk. -/
theorem hasDir_ofAdditions {cs : List Component} : (ofAdditions as).HasDir cs ↔
    ∃ names entries, cs = .root :: names.map .name ∧
      d.root.at? names = some (.directory entries) := by
  rw [hasDir_ofAdditions_iff]
  constructor
  · rintro ⟨a, ha, hmakes⟩
    obtain ⟨names, n, hn, hadd⟩ := (mem_as_iff h has).1 ha
    have hnames := (h.plain.of_at? hn).1
    rcases hmakes with ⟨q, hq, rfl⟩ | ⟨p, rfl, rfl⟩
    · -- A parent is a directory, since the names lead through it.
      have hpath : a.path = pathOf names := by
        cases n with
        | file bytes =>
          rw [← Option.some.inj hadd]
          rfl
        | directory entries =>
          rw [← Option.some.inj hadd]
          rfl
        | link target => cases hadd
      obtain ⟨hleads, hne⟩ := components_of_mem_addedParents hq
      rw [hpath, components_pathOf hnames] at hleads
      obtain ⟨before, after, hafter, rfl, hcs⟩ := exists_names_of_prefix hleads hne
      obtain ⟨entries, hdir⟩ := DiskNode.exists_directory_of_at?_append hafter hn
      exact ⟨before, entries, hcs, hdir⟩
    · cases n with
      | file bytes => cases hadd
      | directory entries =>
        obtain rfl := Addition.dir.inj (Option.some.inj hadd)
        exact ⟨names, entries, components_pathOf hnames, hn⟩
      | link target => cases hadd
  · -- A directory of the disk is itself one of the additions.
    rintro ⟨names, entries, rfl, hat⟩
    refine ⟨.dir (pathOf names), (mem_as_iff h has).2 ⟨names, _, hat, rfl⟩, .inr ⟨_, rfl, ?_⟩⟩
    exact components_pathOf (h.plain.of_at? hat).1

/-- The tree in memory has the files of the disk, with their texts. -/
theorem hasFile_ofAdditions {cs : List Component} {text : String} :
    (ofAdditions as).HasFile cs text ↔
      ∃ names bytes, cs = .root :: names.map .name ∧ d.root.at? names = some (.file bytes) ∧
        text = String.ofList (Utf8.decodeLossy bytes) := by
  have hwrites : ∀ text, (∃ a ∈ as, a.Writes cs text) ↔
      ∃ names bytes, cs = .root :: names.map .name ∧ d.root.at? names = some (.file bytes) ∧
        text = String.ofList (Utf8.decodeLossy bytes) := by
    intro text
    constructor
    · rintro ⟨a, ha, p, rfl, rfl⟩
      obtain ⟨names, n, hn, hadd⟩ := (mem_as_iff h has).1 ha
      cases n with
      | file bytes =>
        obtain ⟨rfl, rfl⟩ := Addition.file.inj (Option.some.inj hadd)
        exact ⟨names, bytes, components_pathOf (h.plain.of_at? hn).1, hn, rfl⟩
      | directory entries => cases hadd
      | link target => cases hadd
    · rintro ⟨names, bytes, rfl, hat, rfl⟩
      refine ⟨.file (pathOf names) _, (mem_as_iff h has).2 ⟨names, _, hat, rfl⟩, _, rfl, ?_⟩
      exact components_pathOf (h.plain.of_at? hat).1
  rw [← hwrites]
  constructor
  · intro hfile
    obtain ⟨before, a, after, heq, ha, -⟩ := hasFile_ofAdditions_iff.1 hfile
    exact ⟨a, by simp [heq], ha⟩
  · rintro ⟨a, ha, hwrite⟩
    -- The file has the text of some addition, and the disk has one text for it.
    obtain ⟨found, hfound⟩ := exists_hasFile_ofAdditions_iff.2 ⟨a, ha, text, hwrite⟩
    obtain ⟨before, b, after, heq, hb, -⟩ := hasFile_ofAdditions_iff.1 hfound
    obtain ⟨names, bytes, rfl, hat, rfl⟩ := (hwrites text).1 ⟨a, ha, hwrite⟩
    obtain ⟨names', bytes', hnames, hat', rfl⟩ := (hwrites found).1 ⟨b, by simp [heq], hb⟩
    rw [← Path.map_name_inj (List.cons.inj hnames).2, hat] at hat'
    rw [DiskNode.file.inj (Option.some.inj hat')]
    exact hfound

/-- The memory has the directories of the disk. -/
theorem hasDir_map_name {names : List String} :
    (ofAdditions as).HasDir (.root :: names.map .name) ↔
      ∃ entries, d.root.at? names = some (.directory entries) := by
  rw [hasDir_ofAdditions h has]
  constructor
  · rintro ⟨names', entries, hnames, hat⟩
    exact ⟨entries, Path.map_name_inj (List.cons.inj hnames).2 ▸ hat⟩
  · rintro ⟨entries, hat⟩
    exact ⟨names, entries, rfl, hat⟩

/-- The memory has the files of the disk, with their texts. -/
theorem hasFile_map_name {names : List String} {text : String} :
    (ofAdditions as).HasFile (.root :: names.map .name) text ↔
      ∃ bytes, d.root.at? names = some (.file bytes) ∧
        text = String.ofList (Utf8.decodeLossy bytes) := by
  rw [hasFile_ofAdditions h has]
  constructor
  · rintro ⟨names', bytes, hnames, hat, htext⟩
    exact ⟨bytes, Path.map_name_inj (List.cons.inj hnames).2 ▸ hat, htext⟩
  · rintro ⟨bytes, hat, htext⟩
    exact ⟨names, bytes, rfl, hat, htext⟩

end Additions

/-! ## Listings of the disk -/

section Listings

variable (h : d.root.IsPlain) {p : Path} {names : List String}
  (hp : p.components = .root :: names.map .name)

include h hp

/-- A plain disk lists all entries of a directory. -/
theorem entries_of_directory {entries : List (String × DiskNode)}
    (hat : d.root.at? names = some (.directory entries)) : d.fileSystem.entries p =
      entries.map fun e => ⟨p.join ⟨e.1⟩, e.1, e.2.isDirectory⟩ := by
  have hlist : d.fileSystem.list p = .ok (entries.filterMap (d.entryOf? p)) := by
    show d.list p = _
    rw [list, node_eq_ok_of_directory h hp hat]
  rw [FileSystem.entries, hlist]
  dsimp only
  rw [← List.filterMap_eq_map]
  refine List.filterMap_congr fun e he => ?_
  have hplain := (DiskNode.arePlain_iff.1 (h.of_at? hat).2.2 e he).2
  obtain ⟨name, n⟩ := e
  cases n with
  | link target => exact absurd hplain id
  | file bytes => rfl
  | directory inside => rfl

/-- What is no directory lists nothing. -/
theorem entries_eq_nil (hat : ∀ entries, d.root.at? names ≠ some (.directory entries)) :
    d.fileSystem.entries p = [] := by
  have hlist : ∃ e, d.fileSystem.list p = .error e := by
    show ∃ e, d.list p = .error e
    rw [list]
    split
    · exact ⟨_, rfl⟩
    · rename_i entries hnode
      exact absurd (at?_of_node_eq_ok h hp hnode) (hat entries)
    · exact ⟨_, rfl⟩
  obtain ⟨e, hlist⟩ := hlist
  rw [FileSystem.entries, hlist]

/-- A plain disk lists the names of the nodes in a directory, with their kinds. -/
theorem mem_keys_entries_iff {name : String} {isDir : Bool} :
    (name, isDir) ∈ (d.fileSystem.entries p).map Entry.key ↔
      ∃ n, d.root.at? (names ++ [name]) = some n ∧ n.isDirectory = isDir := by
  by_cases hdir : ∃ entries, d.root.at? names = some (.directory entries)
  · obtain ⟨entries, hat⟩ := hdir
    rw [entries_of_directory h hp hat, List.map_map, List.mem_map, DiskNode.at?_concat, hat]
    constructor
    · rintro ⟨⟨name', n⟩, hmem, hkey⟩
      obtain ⟨rfl, rfl⟩ := Prod.mk.inj hkey
      exact ⟨n, (DiskNode.mem_iff_child? (h.of_at? hat).2.1).1 hmem, rfl⟩
    · rintro ⟨n, hchild, rfl⟩
      exact ⟨(name, n), (DiskNode.mem_iff_child? (h.of_at? hat).2.1).2 hchild, rfl⟩
  · rw [entries_eq_nil h hp fun entries hat => hdir ⟨entries, hat⟩]
    simp only [List.map_nil, List.not_mem_nil, false_iff, not_exists, not_and]
    intro n hn
    exact absurd (DiskNode.exists_directory_of_at?_append (by simp) hn) hdir

theorem orderly_entries : Orderly (d.fileSystem.entries p) := by
  by_cases hdir : ∃ entries, d.root.at? names = some (.directory entries)
  · obtain ⟨entries, hat⟩ := hdir
    apply orderly_of_nodup
    rw [entries_of_directory h hp hat, List.map_map]
    exact (h.of_at? hat).2.1
  · rw [entries_eq_nil h hp fun entries hat => hdir ⟨entries, hat⟩]
    exact List.Pairwise.nil

/-- The path of an entry ends with its name. -/
theorem of_mem_entries {e : Entry} (he : e ∈ d.fileSystem.entries p) :
    Path.IsPlainName e.name ∧ e.path = p.join ⟨e.name⟩ := by
  by_cases hdir : ∃ entries, d.root.at? names = some (.directory entries)
  · obtain ⟨entries, hat⟩ := hdir
    rw [entries_of_directory h hp hat] at he
    obtain ⟨x, hx, rfl⟩ := List.mem_map.1 he
    exact ⟨(DiskNode.arePlain_iff.1 (h.of_at? hat).2.2 x hx).1, rfl⟩
  · rw [entries_eq_nil h hp fun entries hat => hdir ⟨entries, hat⟩] at he
    cases he

/-- An entry is found behind the names of its directory. -/
theorem components_path_of_mem_entries {e : Entry} (he : e ∈ d.fileSystem.entries p) :
    e.path.components = .root :: (names ++ [e.name]).map .name := by
  obtain ⟨hname, hpath⟩ := of_mem_entries h hp he
  have htext : p.text ≠ "" := Path.text_ne_of_components (by rw [hp]; exact List.cons_ne_nil _ _)
  rw [hpath, components_join_name htext hname, hp, List.map_append]
  rfl

end Listings

/-- The names of a path below a root are those of the root and those behind it. -/
theorem components_below {root p : Path} {rootNames names : List String}
    (hroot : root.components = .root :: rootNames.map .name)
    (hp : p.components = root.components ++ names.map .name) :
    p.components = .root :: (rootNames ++ names).map .name := by
  rw [hp, hroot, List.map_append]
  rfl

/-! ## Levels -/

/-- Directories come to an end within as many levels as their nodes have. -/
theorem endsWithin (h : d.root.IsPlain) {levels : Nat} {p : Path} {names : List String}
    (hp : p.components = .root :: names.map .name)
    (hlevels : ∀ n, d.root.at? names = some n → n.height < levels + 1) :
    d.fileSystem.EndsWithin (levels + 1) p := by
  induction levels generalizing p names with
  | zero =>
    intro e he hdir
    have hkey : (e.name, true) ∈ (d.fileSystem.entries p).map Entry.key :=
      List.mem_map.2 ⟨e, he, by rw [Entry.key, hdir]⟩
    obtain ⟨n, hn, -⟩ := (mem_keys_entries_iff h hp).1 hkey
    obtain ⟨above, habove⟩ := DiskNode.exists_directory_of_at?_append (by simp) hn
    have hheight := hlevels _ habove
    rw [DiskNode.height] at hheight
    omega
  | succ levels ih =>
    intro e he hdir
    refine ih (components_path_of_mem_entries h hp he) fun n hn => ?_
    obtain ⟨above, habove⟩ := DiskNode.exists_directory_of_at?_append (by simp) hn
    have hheight := hlevels _ habove
    rw [DiskNode.at?_concat, habove] at hn
    have hlt := DiskNode.height_lt_of_child? (n := .directory above) hn
    omega

/-! ## The tree in memory looks like the disk -/

section Alike

variable (h : d.IsPlain) (has : as.Perm (d.root.additions []))

include h has

/-- The disk and the memory have the same directories. -/
theorem isDir_eq_isDir {p p' : Path} {names : List String}
    (hp : p.components = .root :: names.map .name)
    (hp' : p'.components = .root :: names.map .name) :
    d.fileSystem.isDir p = (ofAdditions as).fileSystem.isDir p' := by
  have hmemory : (ofAdditions as).isDir p' = true ↔
      ∃ entries, d.root.at? names = some (.directory entries) := by
    rw [Memory.isDir_iff, hp', hasDir_map_name h has]
  show d.isDir p = (ofAdditions as).isDir p'
  rw [Bool.eq_iff_iff, isDir_iff h.plain hp, hmemory]

omit has in
/-- A path that ends with its name is a file on a disk if its names lead to one. -/
theorem isFile_ofNames_iff {names : List String} (hnames : ∀ name ∈ names, Path.IsPlainName name) :
    d.isFile (Path.ofNames true names) = true ↔
      ∃ bytes, d.root.at? names = some (.file bytes) := by
  have hp := Path.components_ofNames hnames
  rw [isFile]
  constructor
  · intro hfile
    cases hnode : d.node (Path.ofNames true names) with
    | error e =>
      rw [hnode] at hfile
      cases hfile
    | ok n =>
      rw [hnode] at hfile
      cases n with
      | file bytes => exact ⟨bytes, at?_of_node_eq_ok h.plain hp hnode⟩
      | directory entries => cases hfile
      | link target => cases hfile
  · rintro ⟨bytes, hat⟩
    rcases List.eq_nil_or_concat' names with rfl | ⟨init, last, rfl⟩
    · -- The root of the disk is a directory.
      have hroot := h.isDirectory
      rw [Option.some.inj hat] at hroot
      cases hroot
    · -- The path is written with its last name at the end, as looking up a file demands.
      have hend : namesOf (Path.ofNames true (init ++ [last])).text = ("" :: init) ++ [last] := by
        rw [namesOf, Path.toList_ofNames, splitAtChar, if_pos rfl,
          Path.splitAtChar_intercalate (by simp), List.map_cons, List.map_map]
        · simp [Function.comp_def]
        · intro part hpart
          obtain ⟨name, hname, rfl⟩ := List.mem_map.1 hpart
          exact (hnames name hname).slash
      rw [node_eq_ok_of_namesOf h.plain hp hend (hnames last (by simp)) hat]

/-- It is a file on the disk if it is one in memory. -/
theorem isFile_ofNames {names : List String} (hnames : ∀ name ∈ names, Path.IsPlainName name) :
    d.fileSystem.isFile (Path.ofNames true names) =
      (ofAdditions as).fileSystem.isFile (Path.ofNames true names) := by
  have hmemory : (ofAdditions as).isFile (Path.ofNames true names) = true ↔
      ∃ bytes, d.root.at? names = some (.file bytes) := by
    rw [isFile_iff, Path.components_ofNames hnames]
    simp only [hasFile_map_name h has]
    constructor
    · rintro ⟨_, bytes, hat, -⟩
      exact ⟨bytes, hat⟩
    · rintro ⟨bytes, hat⟩
      exact ⟨_, bytes, hat, rfl⟩
  show d.isFile _ = (ofAdditions as).isFile _
  rw [Bool.eq_iff_iff, isFile_ofNames_iff h hnames, hmemory]

/-- The tree in memory lists what the disk lists. -/
theorem mem_keys_entries_ofAdditions_iff {p : Path} {names : List String}
    (hp : p.components = .root :: names.map .name) {name : String} {isDir : Bool} :
    (name, isDir) ∈ ((ofAdditions as).fileSystem.entries p).map Entry.key ↔
      ∃ n, d.root.at? (names ++ [name]) = some n ∧ n.isDirectory = isDir := by
  have hbelow : Component.root :: names.map .name ++ [.name name] =
      .root :: (names ++ [name]).map .name := by
    rw [List.map_append]
    rfl
  have habove : ∀ n, d.root.at? (names ++ [name]) = some n →
      ∃ entries, d.root.at? names = some (.directory entries) :=
    fun n hn => DiskNode.exists_directory_of_at?_append (by simp) hn
  rw [Memory.mem_keys_entries_iff, hp, hbelow, hasDir_map_name h has, hasDir_map_name h has]
  simp only [hasFile_map_name h has]
  -- A plain disk has no links, so that what is no directory is a file.
  cases isDir with
  | true =>
    rw [if_pos rfl]
    constructor
    · rintro ⟨-, entries, hat⟩
      exact ⟨_, hat, rfl⟩
    · rintro ⟨n, hn, hdir⟩
      cases n with
      | directory entries => exact ⟨habove _ hn, entries, hn⟩
      | file bytes => cases hdir
      | link target => cases hdir
  | false =>
    rw [if_neg Bool.false_ne_true]
    constructor
    · rintro ⟨-, text, bytes, hat, -⟩
      exact ⟨_, hat, rfl⟩
    · rintro ⟨n, hn, hdir⟩
      cases n with
      | directory entries => cases hdir
      | file bytes => exact ⟨habove _ hn, _, bytes, hn, rfl⟩
      | link target => exact absurd (h.plain.of_at? hn).2 id

/-- Files under the same names have the same texts. -/
theorem read_eq_read {p p' : Path} {names before : List String} {name : String}
    (hp : p.components = .root :: (names ++ [name]).map .name)
    (hp' : p'.components = .root :: (names ++ [name]).map .name)
    (hend : namesOf p.text = before ++ [name]) (hname : Path.IsPlainName name) {bytes : List UInt8}
    (hat : d.root.at? (names ++ [name]) = some (.file bytes)) :
    d.fileSystem.read p = (ofAdditions as).fileSystem.read p' := by
  have hmemory : (ofAdditions as).read p' = .ok (String.ofList (Utf8.decodeLossy bytes)) := by
    rw [read_eq_ok_iff (inOrder_ofAdditions as).distinct, hp', hasFile_map_name h has]
    exact ⟨bytes, hat, rfl⟩
  show d.read p = (ofAdditions as).read p'
  rw [hmemory, read, Disk.bytes, node_eq_ok_of_namesOf h.plain hp hend hname hat]
  rfl

/-- Files of one name in directories that are alike have the same texts. -/
theorem read_eq_read_of_mem_entries {dir dir' : Path} {names : List String} {e e' : Entry}
    (hdir : dir.components = .root :: names.map .name)
    (hdir' : dir'.components = .root :: names.map .name)
    (he : e ∈ d.fileSystem.entries dir) (he' : e' ∈ (ofAdditions as).fileSystem.entries dir')
    (hname : e.name = e'.name) (hfile : e.isDir = false) :
    d.fileSystem.read e.path = (ofAdditions as).fileSystem.read e'.path := by
  obtain ⟨hplain, hjoin⟩ := of_mem_entries h.plain hdir he
  obtain ⟨before, hend⟩ := namesOf_join (p := dir) hplain
  obtain ⟨n, hn, hnode⟩ := (mem_keys_entries_iff h.plain hdir).1 (List.mem_map_of_mem he)
  cases n with
  | directory entries => rw [hfile] at hnode; cases hnode
  | link target => exact absurd (h.plain.of_at? hn).2 id
  | file bytes =>
    have hpath := components_path_of_mem_entries h.plain hdir he
    have hpath' : e'.path.components = .root :: (names ++ [e.name]).map .name := by
      rw [components_of_mem_entries he', hdir', ← hname, List.map_append]
      rfl
    exact read_eq_read h has hpath hpath' (hjoin ▸ hend) hplain hn

/-- **The tree in memory looks like the disk.** -/
theorem alike_ofAdditions {root : Path} {rootNames : List String}
    (hroot : root.components = .root :: rootNames.map .name) :
    d.fileSystem.Alike root root (ofAdditions as).fileSystem := by
  refine ⟨?_, listsChildren _ root, ?_, isBounded _ root, ?_⟩
  · rintro dir ⟨names, hdir⟩ e he
    have hbelow := components_below hroot hdir
    rw [components_path_of_mem_entries h.plain hbelow he, hbelow, List.map_append]
    rfl
  · apply endsWithin h.plain hroot
    intro n hn
    exact Nat.lt_succ_of_le (DiskNode.height_le_of_at? hn)
  · intro names dir dir' hdir hdir'
    have hbelow := components_below hroot hdir
    have hbelow' := components_below hroot hdir'
    apply forall₂_sortEntries (orderly_entries h.plain hbelow)
      ((inOrder_ofAdditions as).distinct.orderly_entries dir')
    · intro name isDir
      rw [mem_keys_entries_iff h.plain hbelow, mem_keys_entries_ofAdditions_iff h has hbelow']
    · intro e he e' he' hkey
      obtain ⟨hname, hisDir⟩ := Prod.mk.inj hkey
      refine ⟨hname, hisDir, fun hfile => congrArg Except.toOption ?_⟩
      exact read_eq_read_of_mem_entries h has hbelow hbelow' he he' hname hfile

/-- References lead to the same files. -/
theorem resolve?_eq_resolve? {root : Path} {rootNames : List String}
    (hroot : root.components = .root :: rootNames.map .name) {f f' : WalkedFile}
    (hf : f.Alike root root d.fileSystem (ofAdditions as).fileSystem f') (aliases : List String)
    (specifier : String) : resolve? d.fileSystem root aliases f.path specifier =
      resolve? (ofAdditions as).fileSystem root aliases f'.path specifier := by
  obtain ⟨names, hne, -, hpath, hpath'⟩ := hf.path
  have htext : root.text ≠ "" :=
    Path.text_ne_of_components (by rw [hroot]; exact List.cons_ne_nil _ _)
  have habsolute : root.isAbsolute = true :=
    Path.isAbsolute_iff_mem.2 (by rw [hroot]; exact List.mem_cons_self)
  have hcandidates :=
    candidate?_congr htext hne hpath hpath' aliases (withoutQuery specifier.toList)
  rw [resolve?, resolve?]
  split
  · rfl
  cases hp : candidate? root aliases f.path (withoutQuery specifier.toList) with
  | none =>
    rw [hp] at hcandidates
    generalize candidate? root aliases f'.path (withoutQuery specifier.toList) = c' at hcandidates
    cases hcandidates
    rfl
  | some p =>
    rw [hp] at hcandidates
    generalize candidate? root aliases f'.path (withoutQuery specifier.toList) = c' at hcandidates
    cases hcandidates with
    | @some _ p' hsame =>
      have hfile : f.path.isAbsolute = true := Path.Holds.isAbsolute ⟨names, hpath⟩ habsolute
      -- The candidate is folded, so that both file systems try the same names for it.
      obtain ⟨inner, hfolded, hinner⟩ :=
        Path.exists_folded_eq (isAbsolute_of_candidate? habsolute hfile hp)
      have hcomponents := Path.components_ofNames hinner
      dsimp only
      rw [← Path.folded_congr hsame, hfolded]
      refine congrArg (Option.filter _) (fileUnder?_congr ?_ ?_)
      · exact isDir_eq_isDir h has hcomponents hcomponents
      · intro q hq
        obtain ⟨names', rfl, hnames', -⟩ := Path.exists_names_of_mem_probes hinner hq
        exact isFile_ofNames h has hnames'

end Alike

/-- The graph of a scan names its root. -/
theorem map_root_scan (fs : FileSystem) (o : Options) (root : Path) :
    ((RefGraph.scan fs o root).map fun d => { d with root := root.text }) =
      RefGraph.scan fs o root := by
  unfold RefGraph.scan
  split
  · split
    · rfl
    · cases walk fs root o.maxFiles <;> rfl
  · rfl

/-- **A disk and its copy in memory give the same.** For every disk without links, whatever the
order in which its directories and files are added to a tree in memory, a scan of any absolute root
without `..` gives the same result for both. -/
theorem scan_eq_scan_ofAdditions (h : d.IsPlain) (has : as.Perm (d.root.additions []))
    {root : Path} (habsolute : root.isAbsolute = true) (hparent : .parent ∉ root.components)
    (o : Options) : RefGraph.scan d.fileSystem o root =
      RefGraph.scan (ofAdditions as).fileSystem o root := by
  obtain ⟨rootNames, hroot⟩ := Path.exists_components_eq habsolute hparent
  have hisDir := isDir_eq_isDir h has hroot hroot
  by_cases hdir : d.fileSystem.isDir root = true
  · have hlist : ∃ listed, d.fileSystem.list root = .ok listed := by
      obtain ⟨entries, hat⟩ := (isDir_iff h.plain hroot).1 hdir
      show ∃ listed, d.list root = .ok listed
      rw [list, node_eq_ok_of_directory h.plain hroot hat]
      exact ⟨_, rfl⟩
    have hdir' : (ofAdditions as).fileSystem.isDir root = true := hisDir ▸ hdir
    have hlist' : ∃ listed, (ofAdditions as).fileSystem.list root = .ok listed :=
      ⟨_, if_pos hdir'⟩
    rw [scan_alike (alike_ofAdditions h has hroot) hdir hdir' hlist hlist' o ?_, map_root_scan]
    intro w _ f _ f' hf d _
    rw [SameTargets, resolve?_eq_resolve? h has hroot hf]
  · rw [RefGraph.scan, RefGraph.scan, if_neg hdir, if_neg (hisDir ▸ hdir)]

/-- A disk with two stylesheets in a directory and a file beside it. -/
def stylesDisk : Disk where
  root := .directory [("r", .directory [("b.css", .file []),
    ("a.css", .file (Utf8.encode "@import \"./b\";".toList))]), ("note", .file [0xFF])]

/-- It can be put into memory from the last of its files back to its root. -/
theorem scan_stylesDisk :
    stylesDisk.IsPlain ∧
      (stylesDisk.root.additions []).reverse.Perm (stylesDisk.root.additions []) ∧
      Path.isAbsolute ⟨"/r/."⟩ = true ∧ .parent ∉ Path.components ⟨"/r/."⟩ ∧
      RefGraph.scan stylesDisk.fileSystem {} ⟨"/r/."⟩ =
        RefGraph.scan (ofAdditions (stylesDisk.root.additions []).reverse).fileSystem {}
          ⟨"/r/."⟩ := by
  have hplain : stylesDisk.IsPlain := by decide +kernel
  have hperm := List.reverse_perm (stylesDisk.root.additions [])
  exact ⟨hplain, hperm, by decide, by decide,
    scan_eq_scan_ofAdditions hplain hperm (by decide) (by decide) {}⟩

end Disk

end RefGraph
