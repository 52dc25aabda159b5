import RefGraph.Proofs.Assembly.Nodes
import RefGraph.Proofs.FileSystem.Below
import RefGraph.Proofs.Scan.Parts
import RefGraph.Proofs.Walk.Names

/-!
# Identifiers lead to files

The identifier of a file is found in two ways. A walk puts together the names of the directories
that it enters, and for a reference the path of the file is stripped of the root. Both give what
leads from the root to the file, so that no file gets two nodes.

* `relativeTo?_of_mem_files`: this holds of all files of a walk.
* `GraphData.NamesFiles`: what it means that identifiers lead to files.
* `namesFiles_scan`: the graph of a scan does so.
-/

namespace RefGraph

/-! ## Files of a walk -/

/-- What is visited is listed in a directory. -/
theorem exists_mem_entries_of_mem_visitsIn {fs : FileSystem} {fuel : Nat} {dir : Path}
    {names : List String} {above : IgnoreRules} {v : Visit}
    (hv : v ∈ visitsIn fs fuel dir names above) : ∃ p, v.entry ∈ fs.entries p := by
  induction fuel generalizing dir names above with
  | zero => cases hv
  | succ fuel ih =>
    obtain ⟨e, he, rfl | ⟨-, -, hv⟩⟩ := mem_visitsIn_succ.1 hv
    · exact ⟨dir, he⟩
    · exact ih hv

/-- The path of a file of a walk has the root and some names behind it for components. -/
theorem exists_components_of_mem_files {fs : FileSystem} {root : Path}
    (hlists : fs.ListsChildren root) {limit : Nat} {w : Walk} (hw : walk fs root limit = .ok w)
    {x : WalkedFile} (hx : x ∈ w.files.toList) : ∃ names, names ≠ [] ∧
      x.path.components = root.components ++ names.map .name ∧ x.relative = pathAlong names := by
  obtain ⟨v, hv, hfile⟩ := exists_visit_of_mem_files hw hx
  obtain ⟨-, -, hpath, hrelative, -⟩ := Visit.walkedFile?_eq_some_iff.1 hfile
  obtain ⟨name, rest, hnames⟩ := exists_names_of_mem_visitsIn hv
  refine ⟨v.names, by simp [hnames], ?_, hrelative⟩
  rw [hpath]
  exact components_of_mem_visits hlists hv

/-- **The path that a walk puts together** is what is left of the path of the file behind the
root. -/
theorem relativeTo?_of_mem_files {fs : FileSystem} {root : Path} (hlists : fs.ListsChildren root)
    {limit : Nat} {w : Walk} (hw : walk fs root limit = .ok w) {x : WalkedFile}
    (hx : x ∈ w.files.toList) : root.relativeTo? x.path = some x.relative := by
  obtain ⟨names, hne, hcomponents, hrelative⟩ := exists_components_of_mem_files hlists hw hx
  rw [hrelative]
  exact Path.relativeTo?_of_components hne hcomponents

namespace Memory

/-- What a memory lists as no directory is a file. -/
theorem isFile_of_mem_entries {m : Memory} {dir : Path} {e : Entry}
    (he : e ∈ m.fileSystem.entries dir) (hfile : e.isDir = false) : m.isFile e.path = true := by
  rcases exists_of_mem_entries he with ⟨p, -, hp⟩ | ⟨f, hf, hp⟩
  · rw [(components_of_entryIn? hp).2.1] at hfile
    cases hfile
  · refine List.any_eq_true.2 ⟨f, hf, ?_⟩
    rw [(components_of_entryIn? hp).1]
    exact beq_self_eq_true _

theorem isFile_congr (m : Memory) {p q : Path} (h : p.components = q.components) :
    m.isFile p = m.isFile q := by
  simp only [isFile, Path.equals, h]

/-- Walked files are files. -/
theorem isFile_of_mem_files {m : Memory} {root : Path} {limit : Nat} {w : Walk}
    (hw : walk m.fileSystem root limit = .ok w) {x : WalkedFile} (hx : x ∈ w.files.toList) :
    m.isFile x.path = true := by
  obtain ⟨v, hv, hfile⟩ := exists_visit_of_mem_files hw hx
  obtain ⟨hdir, -, hpath, -⟩ := Visit.walkedFile?_eq_some_iff.1 hfile
  obtain ⟨p, hp⟩ := exists_mem_entries_of_mem_visitsIn hv
  rw [hpath]
  exact isFile_of_mem_entries hp hdir

end Memory

/-! ## Nodes of files -/

/-- Whether a node of a kind stands for a file. The others stand for an exported name or for
everything outside. -/
def NodeKind.isOfFile : NodeKind → Bool
  | .route | .code | .style => true
  | .external | .symbol => false

/-- Behind the root, the identifiers of files lead to files, and different ones to different
files. -/
structure GraphData.NamesFiles (fs : FileSystem) (root : Path) (d : GraphData) : Prop where
  isFile : ∀ n ∈ d.nodes, n.kind.isOfFile = true → fs.isFile (root.join ⟨n.id⟩) = true
  distinct : ∀ n ∈ d.nodes, ∀ n' ∈ d.nodes, n.kind.isOfFile = true → n'.kind.isOfFile = true →
    n.id ≠ n'.id → (root.join ⟨n.id⟩).equals (root.join ⟨n'.id⟩) = false

/-- The node of a file is that of a file in the tree, however it was found. -/
theorem exists_isFile_of_mem_nodes {m : Memory} {o : Options} {root : Path} {w : Walk}
    (hw : walk m.fileSystem root o.maxFiles = .ok w) {n : GraphNode}
    (hn : n ∈ (assemble o root.text w (scanFindings m.fileSystem o root w)).nodes)
    (hkind : n.kind.isOfFile = true) :
    ∃ p, m.isFile p = true ∧ root.relativeTo? p = some n.id := by
  rw [nodes_assemble] at hn
  rcases mem_offeredNodes_cases (mem_of_mem_firstsBy hn) with
    ⟨x, hx, rfl⟩ | ⟨f, -, s, -, rfl⟩ | ⟨f, hf, r, hr, ⟨target, ht, rfl⟩ | rfl⟩
  · exact ⟨x.path, Memory.isFile_of_mem_files hw hx,
      relativeTo?_of_mem_files (Memory.listsChildren m root) hw hx⟩
  · cases hkind
  · obtain ⟨x, -, rfl⟩ := List.mem_map.1 hf
    exact exists_isFile_of_target hr ht
  · cases hkind

/-- **A file has one identifier, whichever way it is found.** For every tree in memory whose scan
succeeds, the path that the walk gives to a file is what is left of it behind the root, what is left
of the file that a reference leads to leads back to this file, and so the nodes of files name
files. -/
theorem namesFiles_scan (m : Memory) (o : Options) (root : Path) {d : GraphData}
    (hd : scan m.fileSystem o root = .ok d) :
    ∃ w, walk m.fileSystem root o.maxFiles = .ok w ∧
      (∀ x ∈ w.files.toList, root.relativeTo? x.path = some x.relative) ∧
      (∀ x ∈ w.candidates,
        ∀ r ∈ (findingsIn m.fileSystem x.path (o.granularity = .symbol)).dependencies,
        ∀ p, resolve? m.fileSystem root o.aliases x.path r.specifier = some p →
        ∀ id, root.relativeTo? p = some id → (root.join ⟨id⟩).equals p = true) ∧
      d.NamesFiles m.fileSystem root := by
  obtain ⟨-, -, w, hw, rfl⟩ := scan_eq_ok_iff.1 hd
  refine ⟨w, hw, ?_, ?_, ?_, ?_⟩
  · intro x hx
    exact relativeTo?_of_mem_files (Memory.listsChildren m root) hw hx
  · intro x _ r _ p _ id hid
    rw [Path.equals, Path.components_join_relativeTo? hid]
    exact beq_self_eq_true _
  · intro n hn hkind
    obtain ⟨p, hp, hid⟩ := exists_isFile_of_mem_nodes hw hn hkind
    show m.isFile (root.join ⟨n.id⟩) = true
    rw [m.isFile_congr (Path.components_join_relativeTo? hid)]
    exact hp
  · -- An identifier is read off the components of the path that it leads to.
    intro n hn n' hn' hkind hkind' hne
    obtain ⟨p, -, hid⟩ := exists_isFile_of_mem_nodes hw hn hkind
    obtain ⟨p', -, hid'⟩ := exists_isFile_of_mem_nodes hw hn' hkind'
    refine beq_false_of_ne fun hsame => hne ?_
    rw [Path.components_join_relativeTo? hid, Path.components_join_relativeTo? hid'] at hsame
    rw [Path.relativeTo?, Path.below?, hsame, ← Path.below?, ← Path.relativeTo?, hid'] at hid
    exact (Option.some.inj hid).symm

/-- A tree of two stylesheets, one of which is in a directory and refers to the other one by a path
that leads out of it. -/
def nestedTree : Memory :=
  Memory.ofEntries [(⟨"/r/a/b.css"⟩, "@import \"../c\";"), (⟨"/r/c.css"⟩, "")] []

theorem scan_nestedTree : ∃ d, scan nestedTree.fileSystem {} ⟨"/r/"⟩ = .ok d := by
  have hroot : nestedTree.fileSystem.entries ⟨"/r/"⟩ =
      [⟨⟨"/r/a"⟩, "a", true⟩, ⟨⟨"/r/c.css"⟩, "c.css", false⟩] := by decide +kernel
  have hvisits : visits nestedTree.fileSystem ⟨"/r/"⟩ =
      [⟨["a"], ⟨⟨"/r/a"⟩, "a", true⟩, false⟩,
        ⟨["a", "b.css"], ⟨⟨"/r/a/b.css"⟩, "b.css", false⟩, false⟩,
        ⟨["c.css"], ⟨⟨"/r/c.css"⟩, "c.css", false⟩, false⟩] := by
    rw [visits, visitsIn_succ, hroot, sortEntries_eq_self (by decide +kernel)]
    decide +kernel
  have hwalk : ∃ w, walk nestedTree.fileSystem ⟨"/r/"⟩ ({} : Options).maxFiles = .ok w := by
    rw [walk_eq, hvisits]
    exact ⟨_, if_pos (by decide +kernel)⟩
  obtain ⟨w, hw⟩ := hwalk
  exact ⟨_, scan_eq_ok_iff.2 ⟨by decide +kernel, ⟨_, rfl⟩, w, hw, rfl⟩⟩

/-- The identifiers of these files lead to them, though the root is written with a slash behind it
and one of them is found on the way up as well. -/
theorem namesFiles_scan_nestedTree : ∃ d, scan nestedTree.fileSystem {} ⟨"/r/"⟩ = .ok d ∧
    d.NamesFiles nestedTree.fileSystem ⟨"/r/"⟩ := by
  obtain ⟨d, hd⟩ := scan_nestedTree
  obtain ⟨-, -, -, -, hnames⟩ := namesFiles_scan nestedTree {} ⟨"/r/"⟩ hd
  exact ⟨d, hd, hnames⟩

end RefGraph
