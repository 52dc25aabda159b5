import RefGraph.Proofs.Scan.Parts
import RefGraph.Proofs.Scan.Unread
import RefGraph.Proofs.Walk.Turning

/-!
# Ignoring a file silences it

If ignore files change so that one more file is ignored, the references of that file are gone from
the graph, and nothing else is. Other files may refer to it as before.

* `GraphData.Silences`: what one graph has to do with another one in which a file says nothing.
* `silences_assemble`: this for walks and findings.
* `Memory.SameButIgnoreFiles`: trees that differ in the texts of their ignore files.
* `silences_scan`: this for scans of such trees.
* `scan_sentinel_file`: why a file called like the node for everything outside is an exception.
-/

namespace RefGraph

open RefGraph.Graph

/-- A node, with the mark of ignored files if it has the given identifier. -/
def GraphNode.markedAt (id : String) (n : GraphNode) : GraphNode :=
  if n.id = id then { n with ignored := true } else n

@[simp] theorem GraphNode.id_markedAt (id : String) (n : GraphNode) :
    (n.markedAt id).id = n.id := by
  unfold markedAt
  split <;> rfl

/-- What a graph has to do with one in which a file is ignored and says nothing any more. -/
structure GraphData.Silences (o : Options) (w : Walk) (files : List FileFindings) (file : String)
    (d d' : GraphData) : Prop where
  root_eq : d'.root = d.root
  /-- The edges that leave the file are gone. All others are the same in the same order. -/
  edges_eq : d'.edges = d.edges.filter fun e => e.source ≠ file
  /-- The nodes of the walk are the same in the same order. That of the file gets its mark. -/
  walked_eq : (d'.nodes.filter fun n => n.id ∈ walkedIds w) =
    (d.nodes.filter fun n => n.id ∈ walkedIds w).map (GraphNode.markedAt file)
  /-- No node is new. -/
  ids_subset : d'.nodes.map GraphNode.id ⊆ d.nodes.map GraphNode.id
  /-- A node that is none of the walk remains if another file refers to it, and only then. -/
  mem_ids_iff : ∀ n ∈ d.nodes, n.id ∉ walkedIds w →
    (n.id ∈ d'.nodes.map GraphNode.id ↔ ∃ f ∈ files, f.relative ≠ file ∧ f.RefersTo o n.id)
  /-- It remains as it is, unless it may stand for everything outside or for a file. -/
  mem_iff : ∀ n ∈ d.nodes, n.id ∉ walkedIds w → (n.id = externalId → SentinelFree files) →
    (n ∈ d'.nodes ↔ ∃ f ∈ files, f.relative ≠ file ∧ f.RefersTo o n.id)
  totalFiles_eq : d.totalFiles = d'.totalFiles + 1
  ignoredCount_eq : d'.ignoredCount = d.ignoredCount + 1
  /-- The references of the file to the outside are no longer counted. -/
  externalCount_eq : d.externalCount =
    d'.externalCount + externalReferences (files.filter fun f => f.relative = file)

/-! ## Leaving out a file -/

section

variable {α β : Type} {E : α → List β} {p : α → Bool} {q : β → Bool}

/-- What belongs to elements that are left out is left out. -/
theorem filter_flatMap_eq (h : ∀ a, ∀ b ∈ E a, q b = p a) (as : List α) :
    (as.flatMap E).filter q = (as.filter p).flatMap E := by
  induction as with
  | nil => rfl
  | cons a as ih =>
    rw [List.flatMap_cons, List.filter_append, ih, List.filter_cons]
    cases ha : p a with
    | true => rw [List.filter_eq_self.2 fun b hb => (h a b hb).trans ha, if_pos rfl,
        List.flatMap_cons]
    | false =>
      rw [List.filter_eq_nil_iff.2 fun b hb => by simp [h a b hb, ha], if_neg Bool.false_ne_true,
        List.nil_append]

end

/-- The findings in all files but one. -/
def withoutFile (file : String) (files : List FileFindings) : List FileFindings :=
  files.filter fun f => f.relative ≠ file

theorem mem_withoutFile {file : String} {files : List FileFindings} {f : FileFindings} :
    f ∈ withoutFile file files ↔ f ∈ files ∧ f.relative ≠ file := by
  rw [withoutFile, List.mem_filter, decide_eq_true_eq]

/-- Without a file, there are the references from all others. -/
theorem references_withoutFile (file : String) (files : List FileFindings) :
    references (withoutFile file files) =
      (references files).filter fun p => p.1.relative ≠ file := by
  refine (filter_flatMap_eq (fun f p hp => ?_) files).symm
  obtain ⟨r, -, rfl⟩ := List.mem_map.1 hp
  rfl

/-- Edges leave the file in which they were found. -/
theorem source_of_mem_fileEdges {includeExternal : Bool} {f : FileFindings} {r : ResolvedDependency}
    {e : GraphEdge} (h : e ∈ fileEdges includeExternal f r) : e.source = f.relative := by
  unfold fileEdges at h
  cases ht : r.target with
  | some target =>
    rw [ht] at h
    rw [List.mem_singleton.1 h]
    rfl
  | none =>
    rw [ht] at h
    dsimp only at h
    split at h
    · rw [List.mem_singleton.1 h]
      rfl
    · cases h

/-- The references to the outside are those from a file and those from all others. -/
theorem externalReferences_withoutFile (file : String) (files : List FileFindings) :
    externalReferences files = externalReferences (withoutFile file files) +
      externalReferences (files.filter fun f => f.relative = file) := by
  simp only [withoutFile, externalReferences]
  induction files with
  | nil => rfl
  | cons f files ih =>
    by_cases hf : f.relative = file
    · simp only [List.flatMap_cons, List.countP_append, List.filter_cons, hf, ne_eq,
        not_true_eq_false, decide_false, decide_true, if_true, Bool.false_eq_true, if_false, ih]
      omega
    · simp only [List.flatMap_cons, List.countP_append, List.filter_cons, hf, ne_eq,
        not_false_eq_true, decide_false, decide_true, if_true, Bool.false_eq_true, if_false, ih]
      omega

theorem exists_withoutFile_refersTo_iff {file : String} {files : List FileFindings} {o : Options}
    {id : String} : (∃ f ∈ withoutFile file files, f.RefersTo o id) ↔
      ∃ f ∈ files, f.relative ≠ file ∧ f.RefersTo o id :=
  exists_congr fun f => by rw [mem_withoutFile, and_assoc]

/-- A node of a reference stays with the references of other files to its identifier: each of
them offers the node that is there. -/
theorem mem_allReferenceNodes_iff_refersTo {o : Options} {n : GraphNode}
    {files others : List FileFindings} (hothers : others ⊆ files)
    (hmem : n ∈ allReferenceNodes o files) (hfree : n.id = externalId → SentinelFree files) :
    n ∈ allReferenceNodes o others ↔ ∃ f ∈ others, f.RefersTo o n.id := by
  constructor
  · intro h
    obtain ⟨f, hf, r, hr, hn⟩ := mem_allReferenceNodes.1 h
    exact ⟨f, hf, r, hr, map_id_referenceNodes _ r ▸ List.mem_map_of_mem hn⟩
  · rintro ⟨f, hf, r, hr, hid⟩
    rw [← map_id_referenceNodes] at hid
    obtain ⟨n', hn', hsame⟩ := List.mem_map.1 hid
    have hmem' : n' ∈ allReferenceNodes o files :=
      mem_allReferenceNodes.2 ⟨f, hothers hf, r, hr, hn'⟩
    rw [eq_of_mem_allReferenceNodes hmem hmem' hsame.symm hfree]
    exact mem_allReferenceNodes.2 ⟨f, hf, r, hr, hn'⟩

/-! ## The files of a walk -/

section

variable {w w' : Walk} {file : String} (hw : w.Turns file w')

include hw

/-- A walk that ignores one more file still has all of its paths. -/
theorem Walk.Turns.walkedIds_eq : walkedIds w' = walkedIds w := by
  rw [walkedIds, walkedIds, hw.files_eq, List.map_map]
  exact List.map_congr_left fun x _ => WalkedFile.relative_markedAt file x

/-- The nodes of its files are the same, but for the mark of that one. -/
theorem Walk.Turns.map_walkedNode (routes : List Glob) :
    w'.files.toList.map (walkedNode routes) =
      (w.files.toList.map (walkedNode routes)).map (GraphNode.markedAt file) := by
  rw [hw.files_eq, List.map_map, List.map_map]
  refine List.map_congr_left fun x _ => ?_
  rw [Function.comp, Function.comp, WalkedFile.markedAt, GraphNode.markedAt]
  have hid : (walkedNode routes x).id = x.relative := rfl
  rw [hid]
  split <;> rfl

end

/-! ## Assembled graphs -/

section

variable {o : Options} (ho : o.granularity = .file)

include ho

/-- In a graph without exported names, the nodes that are none of the walk are those of
references. -/
theorem mem_nodes_assemble_iff {root : String} {w : Walk} {files : List FileFindings}
    {n : GraphNode} (hn : n.id ∉ walkedIds w) (hfree : n.id = externalId → SentinelFree files) :
    n ∈ (assemble o root w files).nodes ↔ n ∈ allReferenceNodes o files := by
  have hasked : askedSymbolNodes o files = [] := by
    rw [askedSymbolNodes, ho]
    rfl
  have hwalked : ∀ n' ∈ w.files.toList.map (walkedNode (routeGlobs o.routePatterns)),
      n'.id ≠ n.id := by
    rintro n' hn' hid
    obtain ⟨x, hx, rfl⟩ := List.mem_map.1 hn'
    exact hn (hid ▸ List.mem_map_of_mem hx)
  rw [nodes_assemble, offeredNodes, hasked, List.append_nil]
  constructor
  · intro h
    exact (List.mem_append.1 (mem_of_mem_firstsBy h)).resolve_left fun h => hwalked n h rfl
  · intro h
    refine mem_firstsBy (List.mem_append_right _ h) fun n' hn' hid => ?_
    rcases List.mem_append.1 hn' with hn' | hn'
    · exact absurd hid (hwalked n' hn')
    · exact eq_of_mem_allReferenceNodes hn' h hid (hid ▸ hfree)

/-- Its identifiers are those of the walk and those that files refer to. -/
theorem mem_ids_assemble_file {root : String} {w : Walk} {files : List FileFindings}
    {id : String} : id ∈ (assemble o root w files).nodes.map GraphNode.id ↔
      id ∈ walkedIds w ∨ ∃ f ∈ files, f.RefersTo o id := by
  have hasked : askedSymbolIds o files = [] := by
    rw [askedSymbolIds, ho]
    rfl
  rw [mem_ids_assemble, hasked]
  simp

/-- Of a file that is left out the edges are gone, and no others. -/
theorem edges_assemble_withoutFile (root : String) {w w' : Walk} {file : String}
    (hw : w.Turns file w') {files : List FileFindings}
    (hf : ∀ f ∈ files, f.relative ∈ walkedIds w) :
    (assemble o root w' (withoutFile file files)).edges =
      (assemble o root w files).edges.filter fun e => e.source ≠ file := by
  have hf' : ∀ f ∈ withoutFile file files, f.relative ∈ walkedIds w' := fun f h =>
    hw.walkedIds_eq ▸ hf f (mem_withoutFile.1 h).1
  rw [edges_assemble_file ho root hf', edges_assemble_file ho root hf, references_withoutFile,
    ← firstsBy_filter, filter_flatMap_eq]
  · intro p e he
    rw [source_of_mem_fileEdges he]
  · intro e e' hkey
    rw [(EdgeKey.mk.inj hkey).1]

/-- **A silenced file in assembled graphs.** If a walk ignores one more file, and what was found in
that file is left out, the graph without exported names shows that and no other change. -/
theorem silences_assemble (root : String) {w w' : Walk} {file : String} (hw : w.Turns file w')
    {files : List FileFindings} (hf : ∀ f ∈ files, f.relative ∈ walkedIds w) :
    GraphData.Silences o w files file (assemble o root w files)
      (assemble o root w' (withoutFile file files)) := by
  have hothers : withoutFile file files ⊆ files := fun f h => (mem_withoutFile.1 h).1
  constructor
  case root_eq => rfl
  case totalFiles_eq => exact hw.totalFiles_eq
  case ignoredCount_eq => exact hw.ignoredCount_eq
  case externalCount_eq => exact externalReferences_withoutFile file files
  case edges_eq => exact edges_assemble_withoutFile ho root hw hf
  -- Nodes of walked files are compared up to the mark of the silenced one.
  case walked_eq =>
    rw [filter_nodes_assemble, ← firstsBy_map (GraphNode.id_markedAt file), ← hw.map_walkedNode,
      ← hw.walkedIds_eq, filter_nodes_assemble]
  case ids_subset =>
    intro id hid
    rw [mem_ids_assemble_file ho, hw.walkedIds_eq] at hid
    exact (mem_ids_assemble_file ho).2 (hid.imp_right fun ⟨f, hf, hrefers⟩ =>
      ⟨f, hothers hf, hrefers⟩)
  case mem_ids_iff =>
    intro n _ hn
    rw [mem_ids_assemble_file ho, hw.walkedIds_eq, or_iff_right hn, exists_withoutFile_refersTo_iff]
  case mem_iff =>
    intro n hmem hn hfree
    have hfree' : n.id = externalId → SentinelFree (withoutFile file files) := fun hid f hf =>
      hfree hid f (hothers hf)
    rw [mem_nodes_assemble_iff ho hn hfree] at hmem
    rw [mem_nodes_assemble_iff ho (hw.walkedIds_eq ▸ hn) hfree',
      mem_allReferenceNodes_iff_refersTo hothers hmem hfree, exists_withoutFile_refersTo_iff]

end

/-! ## Scans -/

/-- Two trees that differ in the texts of their ignore files only. -/
structure Memory.SameButIgnoreFiles (m m' : Memory) : Prop where
  paths : m.SamePaths m'
  read : ∀ p : Path, p.fileName? ≠ some ignoreFileName → m.read p = m'.read p

/-- In files that are analysed the same is found. -/
theorem Memory.SameButIgnoreFiles.fileFindings {m m' : Memory} (h : m.SameButIgnoreFiles m')
    {root : Path} {limit : Nat} {w : Walk} (hw : walk m.fileSystem root limit = .ok w)
    (o : Options) {x : WalkedFile} (hx : x ∈ w.files.toList) :
    fileFindings m'.fileSystem root o x = fileFindings m.fileSystem root o x := by
  have hname : x.path.fileName? ≠ some ignoreFileName := fun hname => by
    have hkind := ofPath?_of_mem_files hw hx
    rw [ofPath?_of_fileName? hname] at hkind
    cases hkind
  have hread : m.fileSystem.read x.path = m'.fileSystem.read x.path := h.read x.path hname
  rw [RefGraph.fileFindings, RefGraph.fileFindings, findingsIn, findingsIn, hread,
    h.paths.resolveDependency]

/-- **Ignoring one file silences exactly its own references.** If a scan for files succeeds, and the
texts of ignore files change so that one more file that is visited is ignored, the scan succeeds
again. Its graph has lost the edges that leave the file, and the nodes that only this file referred
to. If the file cannot be analysed, it had no node of its own. -/
theorem silences_scan {m m' : Memory} (hm : m.Distinct) (hsame : m.SameButIgnoreFiles m')
    {root : Path} {o : Options} (ho : o.granularity = .file) {v : Visit}
    (hv : TurnsIgnored m.fileSystem m'.fileSystem root v) {d : GraphData}
    (hd : scan m.fileSystem o root = .ok d) :
    ∃ w d', walk m.fileSystem root o.maxFiles = .ok w ∧ scan m'.fileSystem o root = .ok d' ∧
      GraphData.Silences o w (scanFindings m.fileSystem o root w) (pathAlong v.names) d d' ∧
      (SourceKind.ofPath? v.entry.path = none → pathAlong v.names ∉ walkedIds w) := by
  obtain ⟨hdir, ⟨listed, hlisted⟩, w, hw, rfl⟩ := scan_eq_ok_iff.1 hd
  have hlists : m.fileSystem.ListsChildren root := Memory.listsChildren m root
  obtain ⟨w', hw', hturns⟩ := hv.walk hsame.paths.list hsame.paths.depth hlists hm.listsOnce hw
  have hfindings : scanFindings m'.fileSystem o root w' =
      withoutFile (pathAlong v.names) (scanFindings m.fileSystem o root w) := by
    rw [scanFindings, scanFindings, hturns.candidates_eq, withoutFile, List.filter_map]
    refine List.map_congr_left fun x hx => ?_
    exact hsame.fileFindings hw o (List.mem_filter.1 (List.mem_filter.1 hx).1).1
  refine ⟨w, _, hw, scan_eq_ok_iff.2 ⟨?_, ⟨listed, ?_⟩, w', hw', rfl⟩, ?_, ?_⟩
  · exact (hsame.paths.isDir root).symm.trans hdir
  · exact (hsame.paths.list root).symm.trans hlisted
  · rw [hfindings]
    exact silences_assemble ho root.text hturns fun f hf => relative_mem_walkedIds hf
  · -- A file of its path would have been kept for it.
    intro hkind hmem
    obtain ⟨x, hx, hrelative⟩ := List.mem_map.1 hmem
    obtain ⟨u, hu, hx⟩ := exists_visit_of_mem_files hw hx
    obtain ⟨hfile, hkind', -, hrelative', -⟩ := Visit.walkedFile?_eq_some_iff.1 hx
    have hnames := names_eq_of_pathAlong_eq hlists hu hv.mem (hrelative'.symm.trans hrelative)
    have hkey : u.key = v.key := by rw [Visit.key, Visit.key, hnames, hfile, hv.isFile]
    rw [List.inj_on_of_nodup_map (nodup_keys_visits hm.listsOnce root) hu hv.mem hkey, hkind]
      at hkind'
    cases hkind'

/-! ## A file that is called like the node for everything outside -/

/-- Trees with different texts in an ignore file. -/
theorem Memory.sameButIgnoreFiles_withText (m : Memory) {p : Path}
    (h : p.fileName? = some ignoreFileName) (text : String) :
    m.SameButIgnoreFiles (m.withText p text) where
  paths := m.samePaths_withText p text
  read q hq := by
    have hother : q.equals p = false := by
      refine beq_false_of_ne fun hequals => hq ?_
      rw [Path.fileName?, hequals, ← Path.fileName?, h]
    rw [read_withText, hother]
    rfl

/-- Stylesheets, one of which refers to the outside, and two to a file that is called like the node
for everything outside. -/
def sentinelTree : Memory :=
  Memory.ofEntries [(⟨"/r/.gitignore"⟩, ""), (⟨"/r/__external__"⟩, ""),
    (⟨"/r/a.css"⟩, "@import \"./__external__\";"), (⟨"/r/b.css"⟩, "@import \"missing\";"),
    (⟨"/r/c.css"⟩, "@import \"./__external__\";")] []

/-- The same files, but the first stylesheet is ignored. -/
def sentinelTree' : Memory := sentinelTree.withText ⟨"/r/.gitignore"⟩ "a.css\n"

/-- The visit of a file of these trees. -/
def sentinelVisit (name : String) (ignored : Bool) : Visit :=
  ⟨[name], ⟨⟨"/r/" ++ name⟩, name, false⟩, ignored⟩

/-- All visits, with a verdict on the first stylesheet. -/
def sentinelVisits (ignored : Bool) : List Visit :=
  [sentinelVisit ".gitignore" false, sentinelVisit "__external__" false,
    sentinelVisit "a.css" ignored, sentinelVisit "b.css" false, sentinelVisit "c.css" false]

/-- Both trees are visited alike but for the verdict on the stylesheet. -/
theorem visits_sentinelTree :
    visits sentinelTree.fileSystem ⟨"/r"⟩ = sentinelVisits false ∧
      visits sentinelTree'.fileSystem ⟨"/r"⟩ = sentinelVisits true := by
  have hentries : ∀ m ∈ [sentinelTree, sentinelTree'],
      m.fileSystem.entries ⟨"/r"⟩ = (sentinelVisits false).map Visit.entry := by decide +kernel
  have hsorted : sortEntries ((sentinelVisits false).map Visit.entry) =
      (sentinelVisits false).map Visit.entry := sortEntries_eq_self (by decide +kernel)
  constructor
  · rw [visits, visitsIn_succ, hentries _ (by simp), hsorted]
    decide +kernel
  · rw [visits, visitsIn_succ, hentries _ (by simp), hsorted]
    decide +kernel

/-- The rules of the second tree ignore that stylesheet, and turn nothing else around. -/
theorem turnsIgnored_sentinelTree :
    TurnsIgnored sentinelTree.fileSystem sentinelTree'.fileSystem ⟨"/r"⟩
      (sentinelVisit "a.css" false) := by
  obtain ⟨hvisits, hvisits'⟩ := visits_sentinelTree
  refine ⟨?_, rfl, rfl, ?_, ?_⟩
  · rw [hvisits]
    decide +kernel
  · rw [hvisits']
    decide +kernel
  · rw [hvisits, hvisits']
    decide +kernel

/-- Options that ask for a node for everything outside. -/
def withOutside : Options := { includeExternal := true }

/-- The graph of stylesheets of these trees. -/
def sentinelGraph (m : Memory) (ignored : Bool) : GraphData :=
  let w := Walk.after {} (sentinelVisits ignored)
  assemble withOutside "/r" w (scanFindings m.fileSystem withOutside ⟨"/r"⟩ w)

/-- Both walks end well. -/
theorem walk_sentinelTree :
    walk sentinelTree.fileSystem ⟨"/r"⟩ withOutside.maxFiles =
        .ok (Walk.after {} (sentinelVisits false)) ∧
      walk sentinelTree'.fileSystem ⟨"/r"⟩ withOutside.maxFiles =
        .ok (Walk.after {} (sentinelVisits true)) := by
  obtain ⟨hvisits, hvisits'⟩ := visits_sentinelTree
  rw [walk_eq, walk_eq, hvisits, hvisits']
  exact ⟨if_pos (by decide +kernel), if_pos (by decide +kernel)⟩

/-- Both scans give the graph of their walk. -/
theorem scan_sentinelTree :
    scan sentinelTree.fileSystem withOutside ⟨"/r"⟩ = .ok (sentinelGraph sentinelTree false) ∧
      scan sentinelTree'.fileSystem withOutside ⟨"/r"⟩ = .ok (sentinelGraph sentinelTree' true) :=
  ⟨scan_eq_ok_iff.2 ⟨by decide +kernel, ⟨_, rfl⟩, _, walk_sentinelTree.1, rfl⟩,
    scan_eq_ok_iff.2 ⟨by decide +kernel, ⟨_, rfl⟩, _, walk_sentinelTree.2, rfl⟩⟩

/-- The two graphs differ by what the first stylesheet refers to. -/
theorem silences_scan_sentinelTree :
    sentinelTree.Distinct ∧ sentinelTree.SameButIgnoreFiles sentinelTree' ∧
      withOutside.granularity = .file ∧
      TurnsIgnored sentinelTree.fileSystem sentinelTree'.fileSystem ⟨"/r"⟩
        (sentinelVisit "a.css" false) ∧
      scan sentinelTree.fileSystem withOutside ⟨"/r"⟩ = .ok (sentinelGraph sentinelTree false) ∧
      ∃ w d', walk sentinelTree.fileSystem ⟨"/r"⟩ withOutside.maxFiles = .ok w ∧
        scan sentinelTree'.fileSystem withOutside ⟨"/r"⟩ = .ok d' ∧
        GraphData.Silences withOutside w (scanFindings sentinelTree.fileSystem withOutside ⟨"/r"⟩ w)
          "a.css" (sentinelGraph sentinelTree false) d' ∧
        (SourceKind.ofPath? ⟨"/r/a.css"⟩ = none → "a.css" ∉ walkedIds w) := by
  have hdistinct : sentinelTree.Distinct := Memory.distinct_ofEntries _ _
  have hsame : sentinelTree.SameButIgnoreFiles sentinelTree' :=
    sentinelTree.sameButIgnoreFiles_withText (by decide +kernel) _
  exact ⟨hdistinct, hsame, rfl, turnsIgnored_sentinelTree, scan_sentinelTree.1,
    silences_scan hdistinct hsame rfl turnsIgnored_sentinelTree scan_sentinelTree.1⟩

/-- The node of the file that is called like the node for everything outside does not remain,
although another stylesheet refers to it. -/
theorem scan_sentinel_file :
    ¬ ∀ (m m' : Memory) (root : Path) (o : Options) (v : Visit) (w : Walk) (d d' : GraphData),
      m.Distinct → m.SameButIgnoreFiles m' → o.granularity = .file →
      TurnsIgnored m.fileSystem m'.fileSystem root v →
      walk m.fileSystem root o.maxFiles = .ok w →
      scan m.fileSystem o root = .ok d → scan m'.fileSystem o root = .ok d' →
      ∀ n ∈ d.nodes, n.id ∉ walkedIds w → (n ∈ d'.nodes ↔
        ∃ f ∈ scanFindings m.fileSystem o root w, f.relative ≠ pathAlong v.names ∧
          f.RefersTo o n.id) := by
  intro h
  have hremains := h sentinelTree sentinelTree' ⟨"/r"⟩ withOutside (sentinelVisit "a.css" false)
    _ _ _ (Memory.distinct_ofEntries _ _)
    (sentinelTree.sameButIgnoreFiles_withText (by decide +kernel) _) rfl turnsIgnored_sentinelTree
    walk_sentinelTree.1 scan_sentinelTree.1 scan_sentinelTree.2
    (.file externalId .code false)
    (by rw [sentinelGraph, nodes_assemble]; decide +kernel) (by decide +kernel)
  have hgone :
      GraphNode.file externalId .code false ∉ (sentinelGraph sentinelTree' true).nodes := by
    rw [sentinelGraph, nodes_assemble]
    decide +kernel
  exact hgone (hremains.2 (by decide +kernel))

end RefGraph
