import RefGraph.Proofs.Disk.Following
import RefGraph.Proofs.Walk.Meaning
import RefGraph.Proofs.Walk.Names
import RefGraph.Proofs.Walk.Runs
import RefGraph.Scan

/-!
# Walks of disks with links

Paths on a disk go on without end where a link leads back to a directory above. A walk does not
follow them, since a link to a directory is not listed: what a directory lists as a directory is the
next one below. So a walk goes down the directories of the disk, of which there are finitely many,
and comes to none of them by two ways.

* `Disk.IsEntryIn`: what an entry says of the node that its name stands for.
* `Disk.treeBelow`: what a disk lists is a tree, however its links lead.
* `Disk.EntersApart`: no directory is entered twice.
* `Disk.FoundBelow`: a file is found over directories alone.
* `Disk.scan_ends`: the walk of a disk, and the scan.
-/

namespace RefGraph.Disk

variable {d : Disk} {root dir : Path} {here : List String} {name : String} {n : DiskNode}
  {e : Entry}
  {nodes : List (String × DiskNode)}

/-! ## Entries -/

/-- What an entry says of a node: its path, its name and its kind, and that no link to a directory
is listed. -/
theorem entryOf?_eq_some (h : d.entryOf? dir (name, n) = some e) :
    e.path = dir.join ⟨name⟩ ∧ e.name = name ∧ e.isDir = n.isDirectory ∧
      ∀ target, n = .link target → d.isDir (dir.join ⟨name⟩) = false := by
  unfold entryOf? at h
  cases n with
  | link target =>
    cases hdir : d.isDir (dir.join ⟨name⟩) with
    | true => simp [hdir] at h
    | false =>
      obtain rfl : _ = e := by simpa [hdir] using h
      exact ⟨rfl, rfl, rfl, fun _ _ => rfl⟩
  | file bytes =>
    obtain rfl := Option.some.inj h
    exact ⟨rfl, rfl, rfl, nofun⟩
  | directory inside =>
    obtain rfl := Option.some.inj h
    exact ⟨rfl, rfl, rfl, nofun⟩

/-- The names of entries are those of nodes, but some are missing. -/
theorem sublist_names (d : Disk) (dir : Path) (nodes : List (String × DiskNode)) :
    ((nodes.filterMap (d.entryOf? dir)).map Entry.name).Sublist (nodes.map Prod.fst) := by
  induction nodes with
  | nil => exact .slnil
  | cons x nodes ih =>
    rw [List.filterMap_cons, List.map_cons]
    split
    · exact ih.cons _
    · rename_i e he
      rw [List.map_cons, (entryOf?_eq_some he).2.1]
      exact ih.cons_cons _

/-- What can be listed is a directory. -/
theorem exists_of_list {listed : List Entry} (h : d.list dir = .ok listed) :
    ∃ here nodes, d.locate dir = .ok here ∧ d.root.at? here = some (.directory nodes) ∧
      listed = nodes.filterMap (d.entryOf? dir) := by
  unfold list node at h
  cases hlocate : d.locate dir with
  | error err =>
    rw [hlocate] at h
    cases h
  | ok here =>
    obtain ⟨n, hn, -⟩ := isReal_of_locate hlocate
    rw [hlocate] at h
    simp only [hn, Option.map_some, Option.getD_some] at h
    cases n with
    | directory nodes => exact ⟨here, nodes, rfl, hn, (Except.ok.inj h).symm⟩
    | file bytes => cases h
    | link target => cases h

/-- What an entry of a directory says of the node that its name stands for: a directory is the one
that the path of the entry leads to, and nothing else leads to a directory. -/
structure IsEntryIn (d : Disk) (here : List String) (e : Entry) : Prop where
  directory : e.isDir = true → d.locate e.path = .ok (here ++ [e.name]) ∧
    ∃ nodes, d.root.at? (here ++ [e.name]) = some (.directory nodes)
  other : e.isDir = false → d.isDir e.path = false ∧
    ∃ n, d.root.at? (here ++ [e.name]) = some n ∧ n.isDirectory = false

/-- A file does not lead to a directory. -/
theorem isDir_join_of_file (hd : d.root.IsProper) (hlocate : d.locate dir = .ok here)
    (hname : Path.IsPlainName name) {bytes : List UInt8}
    (hat : d.root.at? (here ++ [name]) = some (.file bytes)) :
    d.isDir (dir.join ⟨name⟩) = false := by
  rw [Bool.eq_false_iff]
  intro hdir
  obtain ⟨there, nodes, hthere, -, hjoin⟩ :=
    exists_of_isDir_join hd (locate_eq_ok_iff.1 hlocate).1 hname hdir
  obtain rfl := Except.ok.inj (hlocate.symm.trans hthere)
  -- The path of its names leads to the file itself.
  have hplain := (hd.of_at? hat).1
  obtain ⟨inner, inside, hfollow, hinner⟩ := (isDir_iff_follow (components_pathOf hplain)).1 hjoin
  have hreal : IsReal d.root (here ++ [name]) := ⟨.file bytes, hat, nofun⟩
  rw [follow_eq, advance_of_isReal hplain hreal] at hfollow
  obtain rfl := Place.node.inj (Except.ok.inj hfollow)
  cases hat.symm.trans hinner

/-- What a directory lists is one of its entries, under a plain name. -/
theorem isEntryIn_of_mem (hd : d.root.IsProper) (hlocate : d.locate dir = .ok here)
    (hat : d.root.at? here = some (.directory nodes))
    (he : e ∈ nodes.filterMap (d.entryOf? dir)) : Path.IsPlainName e.name ∧ d.IsEntryIn here e := by
  obtain ⟨⟨name, n⟩, hmem, hentry⟩ := List.mem_filterMap.1 he
  obtain ⟨hnodup, hproper⟩ := (hd.of_at? hat).2
  have hname : Path.IsPlainName name := (DiskNode.areProper_iff.1 hproper _ hmem).1
  have hn : d.root.at? (here ++ [name]) = some n := by
    rw [DiskNode.at?_concat, hat]
    exact (DiskNode.mem_iff_child? hnodup).1 hmem
  obtain ⟨hpath, rfl, hisDir, hlink⟩ := entryOf?_eq_some hentry
  refine ⟨hname, fun hdir => ?_, fun hother => ?_⟩
  · cases n with
    | directory inside =>
      rw [hpath]
      exact ⟨locate_join hlocate hname hn, inside, hn⟩
    | file bytes => cases hdir.symm.trans hisDir
    | link target => cases hdir.symm.trans hisDir
  · refine ⟨?_, n, hn, hisDir.symm.trans hother⟩
    rw [hpath]
    cases n with
    | directory inside => cases hother.symm.trans hisDir
    | file bytes => exact isDir_join_of_file hd hlocate hname hn
    | link target => exact hlink target rfl

/-! ## Levels -/

/-- What a directory lists is a tree with no more levels than the directory has. -/
theorem treeBelow_of_locate (hd : d.root.IsProper) {levels : Nat}
    (hlocate : d.locate dir = .ok here) (hat : d.root.at? here = some n)
    (hlevels : n.height < levels) :
    d.fileSystem.TreeBelow levels dir := by
  induction levels generalizing dir here n with
  | zero => exact absurd hlevels (Nat.not_lt_zero _)
  | succ levels ih =>
    cases hlist : d.fileSystem.list dir with
    | error err =>
      rw [FileSystem.TreeBelow, FileSystem.entries_of_unlisted hlist]
      exact ⟨List.nodup_nil, by simp⟩
    | ok listed =>
      obtain ⟨here', nodes, hlocate', hnodes, rfl⟩ := exists_of_list hlist
      obtain rfl := Except.ok.inj (hlocate.symm.trans hlocate')
      obtain rfl := Option.some.inj (hat.symm.trans hnodes)
      have hnodup : (nodes.map Prod.fst).Nodup := (hd.of_at? hat).2.1
      rw [FileSystem.TreeBelow, FileSystem.entries_of_listed hlist]
      refine ⟨(sublist_names d dir nodes).nodup hnodup, fun e he => ?_⟩
      obtain ⟨hname, hentry⟩ := isEntryIn_of_mem hd hlocate hat he
      refine ⟨hname.isFileName, fun hdir => ?_⟩
      obtain ⟨hinside, inside, hinner⟩ := hentry.directory hdir
      -- A directory inside has fewer levels, and no link leads back up.
      refine ih hinside hinner ?_
      rw [DiskNode.at?_concat, hat] at hinner
      have hlt := DiskNode.height_lt_of_child? (n := .directory nodes) hinner
      omega

/-- **What a disk lists is a tree**, however its links lead. -/
theorem treeBelow (hd : d.root.IsProper) (root : Path) :
    d.fileSystem.TreeBelow (d.fileSystem.depth + 1) root := by
  cases hlocate : d.locate root with
  | error err =>
    have hlist : d.fileSystem.list root = .error err := by
      show d.list root = .error err
      rw [list, node, hlocate]
    rw [FileSystem.TreeBelow, FileSystem.entries_of_unlisted hlist]
    exact ⟨List.nodup_nil, by simp⟩
  | ok here =>
    obtain ⟨n, hat, -⟩ := isReal_of_locate hlocate
    exact treeBelow_of_locate hd hlocate hat (Nat.lt_succ_of_le (DiskNode.height_le_of_at? hat))

/-! ## Directories that are entered -/

/-- A path of a directory at certain names or below. -/
def IsDirectoryBelow (d : Disk) (here : List String) (dir : Path) : Prop :=
  ∃ names nodes, d.locate dir = .ok (here ++ names) ∧
    d.root.at? (here ++ names) = some (.directory nodes)

theorem isDirectoryBelow_self (hlocate : d.locate dir = .ok here)
    (hat : d.root.at? here = some (.directory nodes)) : d.IsDirectoryBelow here dir :=
  ⟨[], nodes, by rwa [List.append_nil], by rwa [List.append_nil]⟩

/-- What is below a directory further down is below the one above. -/
theorem IsDirectoryBelow.of_append {more : List String}
    (h : d.IsDirectoryBelow (here ++ more) dir) : d.IsDirectoryBelow here dir := by
  obtain ⟨names, nodes, hlocate, hat⟩ := h
  rw [List.append_assoc] at hlocate hat
  exact ⟨more ++ names, nodes, hlocate, hat⟩

/-- Below different names of a directory there are different directories. -/
theorem name_eq_of_locate_eq {dir' : Path} {name' : String}
    (h : d.IsDirectoryBelow (here ++ [name]) dir) (h' : d.IsDirectoryBelow (here ++ [name']) dir')
    (heq : d.locate dir = d.locate dir') : name = name' := by
  obtain ⟨names, -, hlocate, -⟩ := h
  obtain ⟨names', -, hlocate', -⟩ := h'
  have hsame := Except.ok.inj (hlocate.symm.trans (heq.trans hlocate'))
  simp only [List.append_assoc, List.append_cancel_left_eq, List.singleton_append,
    List.cons.injEq] at hsame
  exact hsame.1

/-- What is known of the directories that are entered to carry out a task: they are directories of
the disk below the place of the task, no two of them are the same, and in entries of a directory
each is below a name of an entry. -/
def EntersApart (d : Disk) : WalkTask → List Path → Prop
  | .directory dir _ _, entered => ∀ here nodes, d.locate dir = .ok here →
      d.root.at? here = some (.directory nodes) →
      (entered.map d.locate).Nodup ∧ ∀ p ∈ entered, d.IsDirectoryBelow here p
  | .entries _ _ es, entered => ∀ here, (∀ e ∈ es, d.IsEntryIn here e) → (es.map Entry.name).Nodup →
      (entered.map d.locate).Nodup ∧
        ∀ p ∈ entered, ∃ e ∈ es, d.IsDirectoryBelow (here ++ [e.name]) p

section

variable {limit : Nat} {task : WalkTask} {w : Walk} {r : Except ScanError Walk} {relative : String}
  {rules : IgnoreRules} {es : List Entry} {entered entered' : List Path}

theorem entersApart_nil (d : Disk) (relative : String) (rules : IgnoreRules) (es : List Entry) :
    d.EntersApart (.entries relative rules es) [] :=
  fun _ _ _ => ⟨List.nodup_nil, by simp⟩

/-- An entry into which a walk does not go adds nothing. -/
theorem EntersApart.cons (h : d.EntersApart (.entries relative rules es) entered) (e : Entry) :
    d.EntersApart (.entries relative rules (e :: es)) entered := by
  intro here hentries hnodup
  obtain ⟨-, htail⟩ := List.forall_mem_cons.1 hentries
  obtain ⟨hapart, hbelow⟩ := h here htail (List.nodup_cons.1 hnodup).2
  refine ⟨hapart, fun p hp => ?_⟩
  obtain ⟨e', he', hp'⟩ := hbelow p hp
  exact ⟨e', List.mem_cons_of_mem e he', hp'⟩

/-- One into which it goes is a directory of its own. -/
theorem EntersApart.append {relative' : String} (hdir : e.isDir = true)
    (hinside : d.EntersApart (.directory e.path relative' rules) entered)
    (hrest : d.EntersApart (.entries relative rules es) entered') :
    d.EntersApart (.entries relative rules (e :: es)) (entered ++ entered') := by
  intro here hentries hnodup
  obtain ⟨hentry, htail⟩ := List.forall_mem_cons.1 hentries
  obtain ⟨hfresh, hnodup'⟩ := List.nodup_cons.1 hnodup
  obtain ⟨hlocate, nodes, hat⟩ := hentry.directory hdir
  obtain ⟨hapart, hbelow⟩ := hinside (here ++ [e.name]) nodes hlocate hat
  obtain ⟨hapart', hbelow'⟩ := hrest here htail hnodup'
  constructor
  · rw [List.map_append, List.nodup_append]
    refine ⟨hapart, hapart', ?_⟩
    -- A directory of both would be below two entries, whose names are not the same.
    intro place hplace place' hplace' heq
    obtain ⟨p, hp, rfl⟩ := List.mem_map.1 hplace
    obtain ⟨p', hp', rfl⟩ := List.mem_map.1 hplace'
    obtain ⟨e', he', hname'⟩ := hbelow' p' hp'
    have hname := name_eq_of_locate_eq (hbelow p hp) hname' heq
    exact hfresh (hname ▸ List.mem_map_of_mem he')
  · intro p hp
    rcases List.mem_append.1 hp with hp | hp
    · exact ⟨e, List.mem_cons_self, hbelow p hp⟩
    · obtain ⟨e', he', hp'⟩ := hbelow' p hp
      exact ⟨e', List.mem_cons_of_mem e he', hp'⟩

/-- The directory itself is not among those below its entries. -/
theorem EntersApart.directory (hd : d.root.IsProper) {inherited : IgnoreRules}
    (hlist : d.fileSystem.list dir = .ok es)
    (h : d.EntersApart (.entries relative rules (sortEntries es)) entered) :
    d.EntersApart (.directory dir relative inherited) (dir :: entered) := by
  intro here nodes hlocate hat
  obtain ⟨here', nodes', hlocate', hat', rfl⟩ := exists_of_list hlist
  obtain rfl := Except.ok.inj (hlocate.symm.trans hlocate')
  obtain rfl := DiskNode.directory.inj (Option.some.inj (hat.symm.trans hat'))
  have hnames := (sublist_names d dir nodes).nodup (hd.of_at? hat).2.1
  obtain ⟨hapart, hbelow⟩ := h here
    (fun e he => (isEntryIn_of_mem hd hlocate hat (mem_sortEntries.1 he)).2)
    (((List.mergeSort_perm _ _).map Entry.name).nodup_iff.2 hnames)
  constructor
  · -- All others have more names.
    refine List.nodup_cons.2 ⟨fun hmem => ?_, hapart⟩
    obtain ⟨p, hp, hsame⟩ := List.mem_map.1 hmem
    obtain ⟨e, -, names, -, hplace, -⟩ := hbelow p hp
    have heq := Except.ok.inj (hplace.symm.trans (hsame.trans hlocate))
    simp at heq
  · intro p hp
    rcases List.mem_cons.1 hp with rfl | hp
    · exact isDirectoryBelow_self hlocate hat
    · obtain ⟨e, -, hp'⟩ := hbelow p hp
      exact hp'.of_append

/-- **No directory is entered twice**: the induction is on the run. -/
theorem entersApart (hd : d.root.IsProper) (h : Runs d.fileSystem limit task w entered r) :
    d.EntersApart task entered := by
  induction h with
  | @unlisted dir _ _ _ _ _ =>
    intro here nodes hlocate hat
    refine ⟨List.nodup_singleton _, fun p hp => ?_⟩
    obtain rfl := List.mem_singleton.1 hp
    exact isDirectoryBelow_self hlocate hat
  | listed hlist _ ih => exact ih.directory hd hlist
  | done => exact entersApart_nil d _ _ _
  | ignored _ _ ih => exact ih.cons _
  | inside _ hdir _ _ ihinside ihrest => exact .append hdir ihinside ihrest
  | @failed relative rules e es _ _ _ _ hdir _ ih =>
    -- The rest of the entries is not looked at.
    have happend := EntersApart.append hdir ih (entersApart_nil d relative rules es)
    rwa [List.append_nil] at happend
  | counted _ _ _ _ ih => exact ih.cons _
  | full => exact entersApart_nil d _ _ _

end

/-! ## Files that are found -/

/-- The path of a file from the root leads over directories, without a link, to something that is no
directory and, if it is a link, does not lead to one either. -/
def FoundBelow (d : Disk) (root : Path) (f : WalkedFile) : Prop :=
  ∃ rootNames n, d.locate root = .ok rootNames ∧
    d.root.at? (rootNames ++ namesOf f.relative) = some n ∧ n.isDirectory = false ∧
    d.isDir f.path = false ∧
    ∀ before, before <+: namesOf f.relative → before ≠ namesOf f.relative →
      ∃ nodes, d.root.at? (rootNames ++ before) = some (.directory nodes)

theorem exists_of_mem_entries (he : e ∈ d.fileSystem.entries dir) :
    ∃ here nodes, d.locate dir = .ok here ∧ d.root.at? here = some (.directory nodes) ∧
      e ∈ nodes.filterMap (d.entryOf? dir) := by
  cases hlist : d.fileSystem.list dir with
  | error err =>
    rw [FileSystem.entries_of_unlisted hlist] at he
    cases he
  | ok listed =>
    rw [FileSystem.entries_of_listed hlist] at he
    obtain ⟨here, nodes, hlocate, hat, rfl⟩ := exists_of_list hlist
    exact ⟨here, nodes, hlocate, hat, he⟩

/-- Names of a walk lead over directories. -/
theorem locate_of_enters (hd : d.root.IsProper) {names : List String} {rules : IgnoreRules}
    (h : Enters d.fileSystem root names dir rules) (he : e ∈ d.fileSystem.entries dir) :
    ∃ rootNames nodes, d.locate root = .ok rootNames ∧ d.locate dir = .ok (rootNames ++ names) ∧
      d.root.at? (rootNames ++ names) = some (.directory nodes) ∧
      e ∈ nodes.filterMap (d.entryOf? dir) := by
  induction h generalizing e with
  | top _ =>
    obtain ⟨here, nodes, hlocate, hat, hmem⟩ := exists_of_mem_entries he
    refine ⟨here, nodes, hlocate, ?_, ?_, hmem⟩
    · rwa [List.append_nil]
    · rwa [List.append_nil]
  | @inside names dir _ _ e' _ he' hdir _ _ ih =>
    obtain ⟨rootNames, nodes, hroot, hlocate, hat, hmem'⟩ := ih he'
    obtain ⟨hinside, -⟩ := (isEntryIn_of_mem hd hlocate hat hmem').2.directory hdir
    obtain ⟨here, nodes', hlocate', hat', hmem⟩ := exists_of_mem_entries he
    obtain rfl := Except.ok.inj (hinside.symm.trans hlocate')
    rw [List.append_assoc] at hlocate' hat'
    exact ⟨rootNames, nodes', hroot, hlocate', hat', hmem⟩

/-- **Files are found over directories.** -/
theorem foundBelow (hd : d.root.IsProper) {limit : Nat} {w : Walk}
    (hw : walk d.fileSystem root limit = .ok w) {f : WalkedFile} (hf : f ∈ w.files.toList) :
    d.FoundBelow root f := by
  have htree : d.fileSystem.IsTree root := ⟨treeBelow hd root⟩
  obtain ⟨v, hv, hfile⟩ := exists_visit_of_mem_files hw hf
  have hvisited := (mem_visits_iff htree v).1 hv
  obtain ⟨hother, -, hpath, hrelative, -⟩ := Visit.walkedFile?_eq_some_iff.1 hfile
  have hnames : namesOf f.relative = v.names := by rw [hrelative, hvisited.namesOf_eq htree]
  obtain ⟨names, dir, rules, henters, e, he, rfl⟩ := hvisited
  obtain ⟨rootNames, nodes, hroot, hlocate, hat, hmem⟩ := locate_of_enters hd henters he
  obtain ⟨hisDir, n, hn, hnode⟩ := (isEntryIn_of_mem hd hlocate hat hmem).2.other hother
  have hfound : d.root.at? (rootNames ++ (names ++ [e.name])) = some n := by
    rw [← List.append_assoc]
    exact hn
  rw [FoundBelow, hnames, hpath]
  refine ⟨rootNames, n, hroot, hfound, hnode, hisDir, ?_⟩
  -- What has names behind it is a directory.
  rintro before ⟨rest, hrest⟩ hne
  have hrestne : rest ≠ [] := by
    rintro rfl
    exact hne (by rw [← hrest, List.append_nil])
  have hbehind : d.root.at? (rootNames ++ before ++ rest) = some n := by
    rw [List.append_assoc, hrest]
    exact hfound
  exact DiskNode.exists_directory_of_at?_append hrestne hbehind

/-! ## The main result -/

/-- A walk enters the root and directories below it. -/
theorem enters_root (hd : d.root.IsProper) {limit : Nat} {inherited : IgnoreRules} {w : Walk}
    {entered : List Path} {relative : String} {r : Except ScanError Walk}
    (h : Runs d.fileSystem limit (.directory root relative inherited) w entered r) :
    (entered.map d.locate).Nodup ∧ ∀ dir ∈ entered, dir = root ∨
      ∃ rootNames, d.locate root = .ok rootNames ∧ d.IsDirectoryBelow rootNames dir := by
  have hentered := entersApart hd h
  cases h with
  | unlisted =>
    exact ⟨List.nodup_singleton _, fun dir hdir => .inl (List.mem_singleton.1 hdir)⟩
  | listed hlist =>
    obtain ⟨rootNames, nodes, hlocate, hat, -⟩ := exists_of_list hlist
    obtain ⟨hapart, hbelow⟩ := hentered rootNames nodes hlocate hat
    exact ⟨hapart, fun dir hdir => .inr ⟨rootNames, hlocate, hbelow dir hdir⟩⟩

theorem exists_list_of_isDir (h : d.isDir dir = true) : ∃ listed, d.list dir = .ok listed := by
  obtain ⟨here, nodes, hlocate, hat⟩ := isDir_iff_locate.1 h
  refine ⟨nodes.filterMap (d.entryOf? dir), ?_⟩
  rw [list, node, hlocate]
  simp [hat]

/-- **A scan of a disk ends.** On every disk, whatever its links lead to, the walk of a root has one
run, and what is scanned is what this run has found. It enters the root and directories below, none
of them twice, and all files that it records are found over directories alone. -/
theorem scan_ends (hd : d.root.IsProper) (root : Path) (o : Options) :
    ∃ entered r,
      (∀ entered' r', Runs d.fileSystem o.maxFiles (.directory root "" IgnoreRules.builtin) {}
        entered' r' ↔ entered' = entered ∧ r' = r) ∧
      RefGraph.scan d.fileSystem o root =
        (if d.isDir root then r.map fun w =>
          assemble o root.text w (w.candidates.map (fileFindings d.fileSystem root o))
        else .error (.unusableRoot root "not a directory")) ∧
      (entered.map d.locate).Nodup ∧
      (∀ dir ∈ entered, dir = root ∨
        ∃ rootNames, d.locate root = .ok rootNames ∧ d.IsDirectoryBelow rootNames dir) ∧
      ∀ w, r = .ok w → ∀ f ∈ w.files.toList, d.FoundBelow root f := by
  obtain ⟨entered, hruns⟩ : ∃ entered, Runs d.fileSystem o.maxFiles
      (.directory root "" IgnoreRules.builtin) {} entered (walk d.fileSystem root o.maxFiles) :=
    exists_runs (treeBelow hd root) "" IgnoreRules.builtin {}
  obtain ⟨hapart, hbelow⟩ := enters_root hd hruns
  refine ⟨entered, walk d.fileSystem root o.maxFiles,
    fun entered' r => ⟨fun h => h.unique hruns, ?_⟩, ?_, hapart, hbelow,
    fun w hw f hf => foundBelow hd hw hf⟩
  · rintro ⟨rfl, rfl⟩
    exact hruns
  · have hisDir : d.fileSystem.isDir root = d.isDir root := rfl
    rw [RefGraph.scan, hisDir]
    split
    · rename_i hdir
      obtain ⟨listed, hlist⟩ : ∃ listed, d.fileSystem.list root = .ok listed :=
        exists_list_of_isDir hdir
      rw [hlist]
    · rfl

/-- A disk with a link to a file, one to a directory above, one to its own directory, one to itself
and one that leads nowhere. -/
def ringedDisk : Disk where
  root := .directory [("top", .directory
    [("a.ts", .file []), ("b.ts", .link "a.ts"), ("lost.ts", .link "nowhere"),
      ("ring.ts", .link "ring.ts"),
      ("sub", .directory [("again", .link "/top"), ("c.ts", .file []), ("here", .link ".")])])]

/-- The links of that disk lead around in a ring, but its walk ends. -/
theorem scan_ends_ringedDisk :
    ringedDisk.root.IsProper ∧
      ringedDisk.locate ⟨"/top/sub/again/sub/here/again/sub"⟩ = ringedDisk.locate ⟨"/top/sub"⟩ ∧
      ∃ entered r,
        (∀ entered' r',
          Runs ringedDisk.fileSystem 9 (.directory ⟨"/top"⟩ "" IgnoreRules.builtin) {} entered' r' ↔
            entered' = entered ∧ r' = r) ∧
        (entered.map ringedDisk.locate).Nodup ∧
        (∀ dir ∈ entered, dir = ⟨"/top"⟩ ∨ ∃ rootNames, ringedDisk.locate ⟨"/top"⟩ = .ok rootNames ∧
          ringedDisk.IsDirectoryBelow rootNames dir) ∧
        ∀ w, r = .ok w → ∀ f ∈ w.files.toList, ringedDisk.FoundBelow ⟨"/top"⟩ f := by
  have hd : ringedDisk.root.IsProper := by decide
  obtain ⟨entered, r, hruns, -, hapart, hbelow, hfound⟩ :=
    scan_ends hd ⟨"/top"⟩ { maxFiles := 9 }
  exact ⟨hd, by decide +kernel, entered, r, hruns, hapart, hbelow, hfound⟩

end RefGraph.Disk
