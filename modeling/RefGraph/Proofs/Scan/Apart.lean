import RefGraph.Proofs.Scan.Silencing

/-!
# Different things do not share a node

Files, exported names and everything outside are told apart by texts. Files are called by their
paths, and paths may look like the identifiers of the others. Unless they do, each edge ends in a
node of the right kind.

* `GraphData.OutsideApart`, `GraphData.SymbolsApart`: what is said of edges and their ends.
* `mem_edges_assemble_cases`: what an edge can be.
* `ofPath?_relative`: a file of a walk has the extension of its path from the root.
* `apart_scan`: this for all scans, unless a path looks like another identifier.
* `scan_shares_sentinel`, `assemble_shares_symbol`: why such paths are exceptions.
-/

namespace RefGraph

open RefGraph.Graph

namespace GraphData

/-- The edges to the outside are exactly those that end in the node for it. -/
structure OutsideApart (d : GraphData) : Prop where
  external : ∀ e ∈ d.edges, e.kind = .external → ∃ n ∈ d.nodes, n.id = e.target ∧ n.kind = .external
  others : ∀ e ∈ d.edges, e.kind ≠ .external → ∀ n ∈ d.nodes, n.id = e.target → n.kind ≠ .external

/-- Exported names have nodes of their own, in which the edges from their files end. -/
structure SymbolsApart (files : List FileFindings) (d : GraphData) : Prop where
  contains : ∀ e ∈ d.edges, e.kind = .contains →
    ∃ n ∈ d.nodes, n.id = e.target ∧ n.kind = .symbol ∧ n.parent = some e.source
  symbols : ∀ f ∈ files, ∀ s ∈ f.symbols, ∃ n ∈ d.nodes, n.id = symbolId f.relative s.name ∧
    n.kind = .symbol ∧ n.parent = some f.relative

end GraphData

/-! ## Edges and nodes of assembled graphs -/

/-- No reference is of a kind that is kept for the outside or for exported names. -/
def PlainKinds (files : List FileFindings) : Prop :=
  ∀ f ∈ files, ∀ r ∈ f.dependencies, r.dependency.kind ≠ .external ∧ r.dependency.kind ≠ .contains

theorem edgeKindTo_ne {target : String} {kind kind' : EdgeKind} (h : kind ≠ kind')
    (hstyle : EdgeKind.style ≠ kind') : edgeKindTo target kind ≠ kind' := by
  unfold edgeKindTo
  split
  · exact hstyle
  · exact h

theorem kind_file_ne (routes : List Glob) (target : String) (ignored : Bool) :
    (GraphNode.file target (nodeKind routes target) ignored).kind ≠ .external := by
  show nodeKind routes target ≠ .external
  unfold nodeKind
  split
  · decide
  · split <;> decide

section

variable {o : Options} {root : String} {w : Walk} {files : List FileFindings}
  (hwalked : ∀ f ∈ files, f.relative ∈ walkedIds w)

include hwalked in
/-- An edge leads to an exported name, to the outside, or to a file that a reference leads to or a
name behind that. -/
theorem mem_edges_assemble_cases {e : GraphEdge} (h : e ∈ (assemble o root w files).edges) :
    (o.granularity = .symbol ∧ ∃ f ∈ files, ∃ s ∈ f.symbols, e = containsEdge f.relative s) ∨
      ∃ f ∈ files, ∃ r ∈ f.dependencies,
        (r.target = none ∧ e.kind = .external ∧ e.target = externalId) ∨
          ∃ target, r.target = some target ∧ e.kind = edgeKindTo target r.dependency.kind ∧
            (e.target = target ∨ ∃ name, e.target = symbolId target name) := by
  obtain ⟨offers, hoffers, hadds⟩ := adds_assemble o hwalked
  rcases List.mem_append.1 (hadds.mem_offered h) with h | h
  · left
    unfold askedContainsEdges at h
    split at h
    · rename_i ho
      obtain ⟨f, hf, h⟩ := List.mem_flatMap.1 h
      obtain ⟨s, hs, rfl⟩ := List.mem_map.1 h
      exact ⟨ho, f, hf, s, hs, rfl⟩
    · cases h
  · right
    -- An edge that a reference added is one of those that the graph so far offered for it.
    obtain ⟨p, hp, es, ⟨m, -, rfl⟩, h⟩ := exists_of_mem_flatten hoffers h
    obtain ⟨hf, hr⟩ := mem_references.1 hp
    refine ⟨p.1, hf, p.2, hr, ?_⟩
    unfold referenceEdges at h
    cases ht : p.2.target with
    | none =>
      rw [ht] at h
      dsimp only at h
      split at h
      · rw [List.mem_singleton.1 h]
        exact .inl ⟨rfl, rfl, rfl⟩
      · cases h
    | some target =>
      rw [ht] at h
      obtain ⟨t, ht, rfl⟩ := List.mem_map.1 h
      refine .inr ⟨target, rfl, rfl, ?_⟩
      rcases eq_or_mem_of_mem_referenceTargets ht with rfl | ht
      · exact .inl rfl
      · obtain ⟨b, -, rfl⟩ := List.mem_map.1 ht
        exact .inr ⟨b.imported, rfl⟩

include hwalked in
/-- An edge ends in a node. -/
theorem exists_target_assemble {e : GraphEdge} (h : e ∈ (assemble o root w files).edges) :
    ∃ n ∈ (assemble o root w files).nodes, n.id = e.target := by
  obtain ⟨_, -, hadds⟩ := adds_assemble o hwalked
  exact List.mem_map.1 (hadds.consistent.ends_mem_ids e h).2

/-- Only the node for everything outside is of its kind. -/
theorem eq_external_of_kind {n : GraphNode} (h : n ∈ (assemble o root w files).nodes)
    (hkind : n.kind = .external) : n = .external := by
  rw [nodes_assemble] at h
  rcases mem_offeredNodes_cases (mem_of_mem_firstsBy h) with
    ⟨x, -, rfl⟩ | ⟨f, -, s, -, rfl⟩ | ⟨f, -, r, -, ⟨target, -, rfl⟩ | rfl⟩
  · exact absurd hkind (kind_file_ne _ _ _)
  · cases hkind
  · exact absurd hkind (kind_file_ne _ _ _)
  · rfl

variable (hsupported : ∀ x ∈ w.files.toList, (SourceKind.ofPath? ⟨x.relative⟩).isSome = true)

include hsupported in
/-- Unless a reference leads to a file under its identifier, that is the node for everything
outside. -/
theorem eq_external_of_id (hfree : SentinelFree files) {n : GraphNode}
    (h : n ∈ (assemble o root w files).nodes) (hid : n.id = externalId) : n = .external := by
  rw [nodes_assemble] at h
  rcases mem_offeredNodes_cases (mem_of_mem_firstsBy h) with
    ⟨x, hx, rfl⟩ | ⟨f, -, s, -, rfl⟩ | ⟨f, hf, r, hr, ⟨target, ht, rfl⟩ | rfl⟩
  · -- It has no extension, so no file of a walk is called so.
    have hrelative : x.relative = externalId := hid
    have hnone : (SourceKind.ofPath? ⟨externalId⟩).isSome = false := by decide +kernel
    rw [← hrelative, hsupported x hx] at hnone
    cases hnone
  · have hsep := hasSeparator_symbolId f.relative s.name
    rw [show symbolId f.relative s.name = externalId from hid] at hsep
    exact absurd hsep not_hasSeparator_externalId
  · obtain rfl : target = externalId := hid
    exact absurd ht (hfree f hf r hr)
  · rfl

include hwalked hsupported in
/-- If no path is the identifier of the outside, that node stands for nothing else. -/
theorem outsideApart_assemble (hkinds : PlainKinds files) (hfree : SentinelFree files) :
    (assemble o root w files).OutsideApart := by
  constructor
  · intro e he hkind
    -- An edge holds a symbol, leads outside, or leads to a walked file or an export of one.
    rcases mem_edges_assemble_cases hwalked he with
      ⟨-, f, -, s, -, rfl⟩ | ⟨f, hf, r, hr, ⟨-, -, htarget⟩ | ⟨target, -, hkind', -⟩⟩
    · cases hkind
    · obtain ⟨n, hn, hid⟩ := exists_target_assemble hwalked he
      refine ⟨n, hn, hid, ?_⟩
      rw [eq_external_of_id hsupported hfree hn (hid.trans htarget)]
      rfl
    · exact absurd (hkind'.symm.trans hkind) (edgeKindTo_ne (hkinds f hf r hr).1 (by decide))
  · intro e he hkind n hn hid hexternal
    rw [eq_external_of_kind hn hexternal] at hid
    have htarget : e.target = externalId := hid.symm
    -- Identifiers of symbols have a separator, and that of the outside has none.
    have hname : ∀ file name, e.target ≠ symbolId file name := by
      intro file name hsymbol
      have hsep := hasSeparator_symbolId file name
      rw [← hsymbol, htarget] at hsep
      exact not_hasSeparator_externalId hsep
    rcases mem_edges_assemble_cases hwalked he with
      ⟨-, f, -, s, -, rfl⟩ | ⟨f, hf, r, hr, ⟨-, hkind', -⟩ | ⟨target, ht, -, rfl | ⟨name, hname'⟩⟩⟩
    · exact hname _ _ rfl
    · exact hkind hkind'
    · exact hfree f hf r hr (htarget ▸ ht)
    · exact hname _ _ hname'

include hwalked hsupported in
/-- Unless a path of the walk has the separator of exported names, the node of such a name is that
of this name of this file. -/
theorem kind_of_id_eq_symbolId (hsep : ∀ x ∈ w.files.toList, ¬ HasSeparator x.relative)
    (ho : o.granularity = .symbol) {f : FileFindings} (hf : f ∈ files) {s : ExportedSymbol}
    (hs : s ∈ f.symbols) {n : GraphNode} (h : n ∈ (assemble o root w files).nodes)
    (hid : n.id = symbolId f.relative s.name) : n.kind = .symbol ∧ n.parent = some f.relative := by
  have hasked : n.id ∈ (askedSymbolNodes o files).map GraphNode.id := by
    rw [map_id_askedSymbolNodes, askedSymbolIds, if_pos ho, hid]
    exact mem_symbolIds_iff.2 ⟨f, hf, s, hs, rfl⟩
  have hpath : ∀ f ∈ files, (SourceKind.ofPath? ⟨f.relative⟩).isSome = true ∧
      ¬ HasSeparator f.relative := by
    intro f hf
    obtain ⟨x, hx, hrelative⟩ := List.mem_map.1 (hwalked f hf)
    exact hrelative ▸ ⟨hsupported x hx, hsep x hx⟩
  -- Exported names are offered before references, so that no reference takes their place.
  rw [nodes_assemble, offeredNodes] at h
  have hbefore := mem_of_mem_firstsBy_append h (by
    rw [List.map_append]
    exact List.mem_append_right _ hasked)
  rcases List.mem_append.1 hbefore with h | h
  · obtain ⟨x, hx, rfl⟩ := List.mem_map.1 h
    have hrelative : x.relative = symbolId f.relative s.name := hid
    exact absurd (hrelative ▸ hasSeparator_symbolId _ _) (hsep x hx)
  · rw [askedSymbolNodes, if_pos ho] at h
    obtain ⟨f', hf', h⟩ := List.mem_flatMap.1 h
    obtain ⟨s', -, rfl⟩ := List.mem_map.1 h
    have hsame := (symbolId_inj (hpath f' hf').1 (hpath f' hf').2 (hpath f hf).1 (hpath f hf).2
      hid).1
    exact ⟨rfl, congrArg some hsame⟩

include hwalked hsupported in
/-- If no path has two colons in it, the nodes of names stand for nothing else. -/
theorem symbolsApart_assemble (hkinds : PlainKinds files)
    (hsep : ∀ x ∈ w.files.toList, ¬ HasSeparator x.relative) (ho : o.granularity = .symbol) :
    (assemble o root w files).SymbolsApart files := by
  constructor
  · intro e he hkind
    rcases mem_edges_assemble_cases hwalked he with
      ⟨-, f, hf, s, hs, rfl⟩ | ⟨f, hf, r, hr, ⟨-, hkind', -⟩ | ⟨target, -, hkind', -⟩⟩
    · obtain ⟨n, hn, hid⟩ := exists_target_assemble hwalked he
      exact ⟨n, hn, hid, kind_of_id_eq_symbolId hwalked hsupported hsep ho hf hs hn hid⟩
    · cases hkind'.symm.trans hkind
    · exact absurd (hkind'.symm.trans hkind) (edgeKindTo_ne (hkinds f hf r hr).2 (by decide))
  · intro f hf s hs
    have hid : symbolId f.relative s.name ∈ (assemble o root w files).nodes.map GraphNode.id := by
      refine mem_ids_assemble.2 (.inr (.inl ?_))
      rw [askedSymbolIds, if_pos ho]
      exact mem_symbolIds_iff.2 ⟨f, hf, s, hs, rfl⟩
    obtain ⟨n, hn, hid⟩ := List.mem_map.1 hid
    exact ⟨n, hn, hid, kind_of_id_eq_symbolId hwalked hsupported hsep ho hf hs hn hid⟩

end

/-! ## Paths from the root -/

/-- A path that ends with a plain name has it for its name. -/
theorem fileName?_relativeName {name : String} (h : Path.IsPlainName name) (dir : String) :
    Path.fileName? ⟨relativeName dir name⟩ = some name := by
  have hsegment : (Component.ofSegment? name.toList).toList = [.name name] := by
    rw [h.segment]
    rfl
  have hlast : (Path.components ⟨relativeName dir name⟩).getLast? = some (.name name) := by
    rw [Path.components, relativeName]
    by_cases hdir : dir = ""
    · have hslash : name.toList.head? ≠ some '/' := fun he => h.slash (List.mem_of_head? he)
      have hdot : name.toList ≠ ['.'] := fun he => by
        have hnone := h.segment
        rw [he] at hnone
        cases hnone
      rw [if_pos hdir, Path.componentsOfChars, if_neg hslash, splitAtChar_eq_singleton h.slash,
        if_neg (by simpa using hdot), List.filterMap_cons_some h.segment, List.filterMap_nil]
      rfl
    · have hne : dir.toList ≠ [] := fun he => hdir (String.toList_eq_nil_iff.1 he)
      rw [if_neg hdir, String.toList_append, String.toList_append, List.append_assoc]
      show (Path.componentsOfChars (dir.toList ++ '/' :: name.toList)).getLast? = _
      rw [Path.componentsOfChars_append hne h.slash, hsegment, List.getLast?_concat]
  rw [Path.fileName?, hlast]

variable {fs : FileSystem} {o : Options} {root : Path}

/-- A file of a walk can be told to be one by its path from the root. -/
theorem ofPath?_relative (hlists : fs.ListsChildren root) {limit : Nat} {w : Walk}
    (hw : walk fs root limit = .ok w) {x : WalkedFile} (hx : x ∈ w.files.toList) :
    SourceKind.ofPath? ⟨x.relative⟩ = some x.kind := by
  obtain ⟨v, hv, hx⟩ := exists_visit_of_mem_files hw hx
  obtain ⟨-, hkind, -, hrelative, -⟩ := Visit.walkedFile?_eq_some_iff.1 hx
  have hcomponents := components_of_mem_visits hlists hv
  obtain ⟨name, rest, hnames⟩ := exists_names_of_mem_visitsIn hv
  obtain ⟨init, last, hlast⟩ := List.eq_nil_or_concat' v.names |>.resolve_left (by simp [hnames])
  rw [hlast, List.map_append, ← List.append_assoc] at hcomponents
  have hplain : Path.IsPlainName last := by
    refine Path.isPlainName_of_mem_components (p := v.entry.path) ?_
    rw [hcomponents]
    exact List.mem_append_right _ (List.mem_singleton_self _)
  have hname : v.entry.path.fileName? = some last := by
    rw [Path.fileName?, hcomponents, List.map_singleton, List.getLast?_concat]
  rw [hrelative, hlast, pathAlong_concat, ← hkind, SourceKind.ofPath?, SourceKind.ofPath?,
    Path.extension?, Path.extension?, fileName?_relativeName hplain, hname]

/-! ## Kinds of references -/

theorem kind_of_dependencyOf? {source : List Char} {statement specifier : Script.Node}
    {kind : EdgeKind} {bindings : List Binding} {d : Dependency}
    (h : Script.dependencyOf? source statement specifier kind bindings = some d) :
    d.kind = kind := by
  unfold Script.dependencyOf? at h
  split at h
  · cases h
  · split at h
    · cases h
    · rw [← Option.some.inj h]

/-- Scripts refer to modules by statements and by calls. -/
theorem kind_of_mem_references {source : List Char} {tree : Script.Node} {d : Dependency}
    (h : d ∈ Script.references source tree) : d.kind = .static ∨ d.kind = .dynamic := by
  rw [Script.references_eq_filterMap] at h
  obtain ⟨node, -, h⟩ := List.mem_filterMap.1 h
  unfold Script.reference? at h
  split at h
  · -- An import: only the clause decides where the specifier stands, the kind is fixed.
    left
    unfold Script.importReference? at h
    split at h
    · exact kind_of_dependencyOf? h
    · obtain ⟨clause, -, h⟩ := Option.bind_eq_some_iff.1 h
      obtain ⟨specifier, -, h⟩ := Option.bind_eq_some_iff.1 h
      exact kind_of_dependencyOf? h
  split at h
  · obtain ⟨specifier, -, h⟩ := Option.bind_eq_some_iff.1 h
    exact .inl (kind_of_dependencyOf? h)
  split at h
  · -- A call: its kind is that of the function that is called.
    unfold Script.callReference? at h
    obtain ⟨function, -, h⟩ := Option.bind_eq_some_iff.1 h
    obtain ⟨kind, hkind, h⟩ := Option.bind_eq_some_iff.1 h
    obtain ⟨arguments, -, h⟩ := Option.bind_eq_some_iff.1 h
    have hd : d.kind = kind := by
      split at h
      · split at h
        · exact kind_of_dependencyOf? h
        · cases h
      · cases h
    rw [hd]
    unfold Script.callKind? at hkind
    split at hkind
    · exact .inr (Option.some.inj hkind).symm
    split at hkind
    · exact .inl (Option.some.inj hkind).symm
    · cases hkind
  · cases h

/-- Stylesheets refer to other files by import statements. -/
theorem kind_of_mem_imports {lineComments : Bool} {source : List Char} {d : Dependency}
    (h : d ∈ Style.imports lineComments source) : d.kind = .style := by
  obtain ⟨⟨place, statement⟩, -, h⟩ := List.mem_flatMap.1 h
  obtain ⟨s, -, rfl⟩ := List.mem_map.1 h
  rfl

/-- The references that are found in files are of kinds of their own. -/
theorem plainKinds_scanFindings (fs : FileSystem) (o : Options) (root : Path) (w : Walk) :
    PlainKinds (scanFindings fs o root w) := by
  intro f hf r hr
  obtain ⟨x, -, rfl⟩ := List.mem_map.1 hf
  obtain ⟨d, hd, rfl⟩ := List.mem_map.1 hr
  have hkind : d.kind = .static ∨ d.kind = .dynamic ∨ d.kind = .style := by
    unfold findingsIn at hd
    split at hd
    · cases hd
    · unfold analyse? at hd
      split at hd
      · cases hd
      · exact .inr (.inr (kind_of_mem_imports hd))
      · split at hd
        · cases hd
        · exact (kind_of_mem_references hd).imp_right .inl
  show d.kind ≠ .external ∧ d.kind ≠ .contains
  rcases hkind with h | h | h <;> rw [h] <;> decide

/-! ## The main result -/

/-- **Different things do not share a node.** In every graph of a scan, if no reference leads to a
file that is called like the node for everything outside, exactly the edges to the outside end in
that node. If exported names are asked for and no path of the walk has their separator, each of them
has a node of its own, and the edges to such names end in these. -/
theorem apart_scan (hlists : fs.ListsChildren root) {d : GraphData} (hd : scan fs o root = .ok d) :
    ∃ w, walk fs root o.maxFiles = .ok w ∧
      (SentinelFree (scanFindings fs o root w) → d.OutsideApart) ∧
      (o.granularity = .symbol → (∀ x ∈ w.files.toList, ¬ HasSeparator x.relative) →
        d.SymbolsApart (scanFindings fs o root w)) := by
  obtain ⟨-, -, w, hw, rfl⟩ := scan_eq_ok_iff.1 hd
  have hwalked : ∀ f ∈ scanFindings fs o root w, f.relative ∈ walkedIds w :=
    fun f hf => relative_mem_walkedIds hf
  have hsupported : ∀ x ∈ w.files.toList, (SourceKind.ofPath? ⟨x.relative⟩).isSome = true := by
    intro x hx
    rw [ofPath?_relative hlists hw hx]
    rfl
  have hkinds := plainKinds_scanFindings fs o root w
  exact ⟨w, hw, outsideApart_assemble hwalked hsupported hkinds,
    fun ho hsep => symbolsApart_assemble hwalked hsupported hkinds hsep ho⟩

/-- A tree of two scripts, one of which exports a name that the other one imports. -/
def pairTree : Memory :=
  Memory.ofEntries [(⟨"/r/a.ts"⟩, "import \"react\";\nexport function f() \x7b\x7d\n"),
    (⟨"/r/b.ts"⟩, "import \x7b f \x7d from \"./a\";\n")] []

/-- Options that ask for exported names and for a node for everything outside. -/
def withSymbols : Options := { includeExternal := true, granularity := .symbol }

theorem walk_pairTree : ∃ w, walk pairTree.fileSystem ⟨"/r"⟩ withSymbols.maxFiles = .ok w ∧
    walkedIds w = ["a.ts", "b.ts"] := by
  have hentries : pairTree.fileSystem.entries ⟨"/r"⟩ =
      [⟨⟨"/r/a.ts"⟩, "a.ts", false⟩, ⟨⟨"/r/b.ts"⟩, "b.ts", false⟩] := by decide +kernel
  have hvisits : visits pairTree.fileSystem ⟨"/r"⟩ =
      [⟨["a.ts"], ⟨⟨"/r/a.ts"⟩, "a.ts", false⟩, false⟩,
        ⟨["b.ts"], ⟨⟨"/r/b.ts"⟩, "b.ts", false⟩, false⟩] := by
    rw [visits, visitsIn_succ, hentries, sortEntries_eq_self (by decide +kernel)]
    decide +kernel
  rw [walk_eq, hvisits]
  exact ⟨_, if_pos (by decide +kernel), by decide +kernel⟩

/-- In the graph of this tree nothing is mistaken for something else. -/
theorem apart_scan_pairTree :
    pairTree.fileSystem.ListsChildren ⟨"/r"⟩ ∧
      ∃ w d, walk pairTree.fileSystem ⟨"/r"⟩ withSymbols.maxFiles = .ok w ∧
        scan pairTree.fileSystem withSymbols ⟨"/r"⟩ = .ok d ∧ d.OutsideApart ∧
        d.SymbolsApart (scanFindings pairTree.fileSystem withSymbols ⟨"/r"⟩ w) := by
  have hlists := Memory.listsChildren pairTree ⟨"/r"⟩
  obtain ⟨w, hw, hids⟩ := walk_pairTree
  have hd := scan_eq_ok_iff.2 ⟨(by decide +kernel : pairTree.fileSystem.isDir ⟨"/r"⟩ = true),
    ⟨_, rfl⟩, w, hw, rfl⟩
  obtain ⟨w', hw', houtside, hsymbols⟩ := apart_scan hlists hd
  obtain rfl : w = w' := Except.ok.inj (hw.symm.trans hw')
  refine ⟨hlists, w, _, hw, hd, houtside (sentinelFree_scanFindings ?_ w), hsymbols rfl ?_⟩
  · intro p hp
    obtain ⟨f, hf, hequals⟩ := List.any_eq_true.1 hp
    have hknown : ∀ f ∈ pairTree.files, Path.relativeTo? ⟨"/r"⟩ f.1 ≠ some externalId := by
      decide +kernel
    have hsame : p.components = f.1.components := beq_iff_eq.1 hequals
    rw [Path.relativeTo?, Path.below?, hsame]
    exact hknown f hf
  · have hplain : ∀ id ∈ walkedIds w, ¬ HasSeparator id := by
      rw [hids]
      decide +kernel
    exact fun x hx => hplain _ (List.mem_map_of_mem hx)

/-! ## Paths that look like other identifiers -/

/-- If a reference leads to a file that is called like the node for everything outside, an edge to
the outside may end in the node of that file. -/
theorem scan_shares_sentinel :
    ¬ ∀ (fs : FileSystem) (o : Options) (root : Path) (d : GraphData), fs.ListsChildren root →
      o.includeExternal = true → scan fs o root = .ok d →
      ∀ e ∈ d.edges, e.kind = .external → ∃ n ∈ d.nodes, n.id = e.target ∧ n.kind = .external := by
  intro h
  have hapart := h sentinelTree.fileSystem withOutside ⟨"/r"⟩ (sentinelGraph sentinelTree false)
    (Memory.listsChildren _ _) rfl scan_sentinelTree.1
  have hedge : (⟨"b.css", externalId, .external, some "@import \"missing\";"⟩ : EdgeKey) ∈
      (sentinelGraph sentinelTree false).edges.map GraphEdge.key := by
    rw [sentinelGraph, edges_assemble_file rfl, mem_map_firstsBy]
    · decide +kernel
    · exact fun f hf => relative_mem_walkedIds hf
  obtain ⟨e, he, hkey⟩ := List.mem_map.1 hedge
  obtain ⟨-, htarget, hkind, -⟩ := EdgeKey.mk.inj hkey
  obtain ⟨n, hn, hid, hexternal⟩ := hapart e he hkind
  have hnone : ∀ n ∈ (sentinelGraph sentinelTree false).nodes, n.kind ≠ .external := by
    rw [sentinelGraph, nodes_assemble]
    decide +kernel
  exact hnone n hn hexternal

/-- A walk of a script and of another one, whose path looks like a name of the first one. -/
def lookalikeWalk : Walk where
  files := #[⟨⟨"/r/a.ts"⟩, "a.ts", .script, false⟩,
    ⟨⟨"/r/a.ts::b.ts"⟩, "a.ts::b.ts", .script, false⟩]
  totalFiles := 2

/-- The first script exports such a name. -/
def lookalikeFindings : List FileFindings :=
  [{ relative := "a.ts", kind := .script, symbols := [{ name := "b.ts", kind := .constant }] },
    { relative := "a.ts::b.ts", kind := .script }]

/-- That name has no node of its own. -/
theorem assemble_shares_symbol :
    ¬ ∀ (root : String) (w : Walk) (files : List FileFindings),
      (∀ f ∈ files, f.relative ∈ walkedIds w) →
        (assemble withSymbols root w files).SymbolsApart files := by
  intro h
  obtain ⟨n, hn, -, hkind, -⟩ := (h "/r" lookalikeWalk lookalikeFindings (by decide)).symbols
    _ List.mem_cons_self _ List.mem_cons_self
  have hnone : ∀ n ∈ (assemble withSymbols "/r" lookalikeWalk lookalikeFindings).nodes,
      n.kind ≠ .symbol := by
    rw [nodes_assemble]
    decide +kernel
  exact hnone n hn hkind

end RefGraph
