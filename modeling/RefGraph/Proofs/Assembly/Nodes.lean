import RefGraph.Proofs.Assembly.Edges
import RefGraph.Proofs.Assembly.Granularity

/-!
# The nodes of an assembled graph

Files of a walk, exported names and references offer nodes, in this order. Of the nodes of one
identifier the graph has the first one that was offered, so what a node says is decided by who
offered it first.

* `Graph.OffersNodes`: one graph comes from another by offering nodes.
* `offeredNodes`: all nodes that are offered.
* `nodes_assemble`: the nodes of an assembled graph.
* `edges_assemble_file`: its edges, if exported names are not asked for.
-/

namespace RefGraph

namespace Graph

variable {g g' g'' : Graph}

/-- A graph that comes from another one by offering nodes, and whatever edges. -/
structure OffersNodes (g g' : Graph) (offered : List GraphNode) : Prop where
  consistent : g'.Consistent
  nodes_eq : g'.nodes.toList = firstsBy GraphNode.id (g.nodes.toList ++ offered)

namespace OffersNodes

variable {offered offered' : List GraphNode}

theorem refl (hg : g.Consistent) : OffersNodes g g [] where
  consistent := hg
  nodes_eq := by rw [List.append_nil, firstsBy_eq_self hg.nodup_ids]

/-- Offers join. -/
theorem trans (h : OffersNodes g g' offered) (h' : OffersNodes g' g'' offered') :
    OffersNodes g g'' (offered ++ offered') where
  consistent := h'.consistent
  nodes_eq := by rw [h'.nodes_eq, h.nodes_eq, firstsBy_append_left, List.append_assoc]

end OffersNodes

/-- Adding a node offers that node. -/
theorem offersNodes_addNode (hg : g.Consistent) (n : GraphNode) :
    OffersNodes g (g.addNode n) [n] :=
  ⟨hg.insertNode n, nodes_insertNode hg n⟩

/-- Edges do not change the nodes. -/
theorem offersNodes_addEdge (hg : g.Consistent) (k : EdgeKey) (location : Option Location) :
    OffersNodes g (g.addEdge k location) [] where
  consistent := hg.insertEdge k location
  nodes_eq := by rw [addEdge, nodes_insertEdge, List.append_nil, firstsBy_eq_self hg.nodup_ids]

/-- Steps over a list, each of which offers what belongs to its element. -/
theorem offersNodes_foldl {β : Type} {step : Graph → β → Graph} (offered : β → List GraphNode)
    (hstep : ∀ g : Graph, g.Consistent → ∀ b, OffersNodes g (step g b) (offered b))
    (hg : g.Consistent) (bs : List β) : OffersNodes g (bs.foldl step g) (bs.flatMap offered) := by
  induction bs generalizing g with
  | nil => exact OffersNodes.refl hg
  | cons b bs ih => exact (hstep g hg b).trans (ih (hstep g hg b).consistent)

/-! ## What is offered -/

/-- The node of a file of a walk. -/
def walkedNode (routes : List Glob) (f : WalkedFile) : GraphNode :=
  .file f.relative (nodeKind routes f.relative) f.ignored

/-- The node of a name that a file exports. -/
def symbolNode (file : String) (s : ExportedSymbol) : GraphNode :=
  .symbol file s.name s.kind s.displayName

/-- The node that a reference offers: that of the file that it leads to, or the one for everything
outside. -/
def referenceNodes (rules : AssemblyRules) (r : ResolvedDependency) : List GraphNode :=
  match r.target with
  | some target => [.file target (nodeKind rules.routes target) false]
  | none => if rules.includeExternal then [.external] else []

/-- A reference offers the node of its target, or the external one if that is shown. -/
theorem mem_referenceNodes {rules : AssemblyRules} {r : ResolvedDependency} {n : GraphNode} :
    n ∈ referenceNodes rules r ↔
      (∃ target, r.target = some target ∧ n = .file target (nodeKind rules.routes target) false) ∨
        r.target = none ∧ rules.includeExternal = true ∧ n = .external := by
  unfold referenceNodes
  cases r.target with
  | some target => simp
  | none => by_cases hext : rules.includeExternal = true <;> simp [hext]

/-- The nodes that a reference offers have the identifiers that it needs. -/
theorem map_id_referenceNodes (rules : AssemblyRules) (r : ResolvedDependency) :
    (referenceNodes rules r).map GraphNode.id = referenceIds rules r := by
  unfold referenceNodes referenceIds
  cases r.target with
  | some target => rfl
  | none =>
    dsimp only
    split <;> rfl

/-- A walk offers the node of each of its files. -/
theorem offersNodes_addWalk (hg : g.Consistent) (routes : List Glob) (files : List WalkedFile) :
    OffersNodes g (g.addWalk routes files) (files.map (walkedNode routes)) := by
  have h := offersNodes_foldl (fun f => [walkedNode routes f])
    (fun _ hg f => offersNodes_addNode hg (walkedNode routes f)) hg files
  rwa [← List.map_eq_flatMap] at h

/-- Adding symbols offers a node for each exported name. -/
theorem offersNodes_addSymbols (hg : g.Consistent) (files : List FileFindings) :
    OffersNodes g (g.addSymbols files)
      (files.flatMap fun f => f.symbols.map (symbolNode f.relative)) := by
  have hsymbol : ∀ (file : String) (g : Graph), g.Consistent → ∀ s,
      OffersNodes g (addSymbol file g s) [symbolNode file s] := by
    intro file g hg s
    have h := offersNodes_addNode hg (symbolNode file s)
    exact h.trans (offersNodes_addEdge h.consistent _ none)
  refine offersNodes_foldl _ (fun g hg f => ?_) hg files
  have h := offersNodes_foldl _ (hsymbol f.relative) hg f.symbols
  rwa [← List.map_eq_flatMap] at h

/-- Adding a reference offers its nodes. -/
theorem offersNodes_addReference (hg : g.Consistent) (rules : AssemblyRules) (f : FileFindings)
    (r : ResolvedDependency) :
    OffersNodes g (addReference rules f g r) (referenceNodes rules r) := by
  unfold addReference referenceNodes
  cases r.target with
  | none =>
    by_cases hext : rules.includeExternal = true
    · simp only [if_pos hext]
      have h := offersNodes_addNode hg .external
      exact h.trans (offersNodes_addEdge h.consistent _ _)
    · simp only [if_neg hext]
      exact OffersNodes.refl hg
  | some target =>
    have h := offersNodes_addNode hg (.file target (nodeKind rules.routes target) false)
    -- However many edges there are, they offer no node.
    have hedges := offersNodes_foldl (fun _ => [])
      (fun _ hg t => offersNodes_addEdge hg
        ⟨f.relative, t, edgeKindTo target r.dependency.kind, r.dependency.statement⟩
        r.dependency.location) h.consistent
      (referenceTargets rules (g.addNode (.file target (nodeKind rules.routes target) false))
        f.kind target r.dependency)
    rw [List.flatMap_eq_nil_iff.2 fun _ _ => rfl] at hedges
    exact h.trans hedges

/-- Adding references offers the nodes of each. -/
theorem offersNodes_addReferences (hg : g.Consistent) (rules : AssemblyRules)
    (files : List FileFindings) : OffersNodes g (g.addReferences rules files)
      ((references files).flatMap fun p => referenceNodes rules p.2) := by
  rw [addReferences_eq_foldl]
  exact offersNodes_foldl _ (fun _ hg p => offersNodes_addReference hg rules p.1 p.2) hg _

end Graph

open RefGraph.Graph

/-! ## The whole graph -/

/-- The nodes of the exported names that are asked for. -/
def askedSymbolNodes (o : Options) (files : List FileFindings) : List GraphNode :=
  if o.granularity = .symbol then
    files.flatMap fun f => f.symbols.map (symbolNode f.relative)
  else []

/-- The nodes that references offer. -/
def allReferenceNodes (o : Options) (files : List FileFindings) : List GraphNode :=
  (references files).flatMap fun p => referenceNodes (AssemblyRules.ofOptions o) p.2

/-- The nodes that are offered to a graph: those of the files of the walk, those of the exported
names that are asked for, and those of references. -/
def offeredNodes (o : Options) (w : Walk) (files : List FileFindings) : List GraphNode :=
  w.files.toList.map (walkedNode (routeGlobs o.routePatterns)) ++ askedSymbolNodes o files ++
    allReferenceNodes o files

theorem mem_allReferenceNodes {o : Options} {files : List FileFindings} {n : GraphNode} :
    n ∈ allReferenceNodes o files ↔ ∃ f ∈ files, ∃ r ∈ f.dependencies,
      n ∈ referenceNodes (AssemblyRules.ofOptions o) r := by
  rw [allReferenceNodes, List.mem_flatMap]
  constructor
  · rintro ⟨p, hp, hn⟩
    obtain ⟨hf, hr⟩ := mem_references.1 hp
    exact ⟨p.1, hf, p.2, hr, hn⟩
  · rintro ⟨f, hf, r, hr, hn⟩
    exact ⟨(f, r), mem_references.2 ⟨hf, hr⟩, hn⟩

/-- A node is that of a file, of an exported name, or the one for everything outside. -/
theorem mem_offeredNodes_cases {o : Options} {w : Walk} {files : List FileFindings} {n : GraphNode}
    (h : n ∈ offeredNodes o w files) :
    (∃ x ∈ w.files.toList, n = walkedNode (routeGlobs o.routePatterns) x) ∨
      (∃ f ∈ files, ∃ s ∈ f.symbols, n = symbolNode f.relative s) ∨
      ∃ f ∈ files, ∃ r ∈ f.dependencies, (∃ target, r.target = some target ∧
          n = .file target (nodeKind (routeGlobs o.routePatterns) target) false) ∨
        n = .external := by
  rcases List.mem_append.1 h with h | h
  · rcases List.mem_append.1 h with h | h
    · obtain ⟨x, hx, rfl⟩ := List.mem_map.1 h
      exact .inl ⟨x, hx, rfl⟩
    · unfold askedSymbolNodes at h
      split at h
      · obtain ⟨f, hf, h⟩ := List.mem_flatMap.1 h
        obtain ⟨s, hs, rfl⟩ := List.mem_map.1 h
        exact .inr (.inl ⟨f, hf, s, hs, rfl⟩)
      · cases h
  · obtain ⟨f, hf, r, hr, h⟩ := mem_allReferenceNodes.1 h
    refine .inr (.inr ⟨f, hf, r, hr, ?_⟩)
    exact (mem_referenceNodes.1 h).imp_right fun h => h.2.2

/-- A file refers to the node of an identifier: to a file or to the outside. -/
def FileFindings.RefersTo (o : Options) (f : FileFindings) (id : String) : Prop :=
  ∃ r ∈ f.dependencies, id ∈ referenceIds (AssemblyRules.ofOptions o) r

instance (o : Options) (f : FileFindings) (id : String) : Decidable (f.RefersTo o id) :=
  inferInstanceAs
    (Decidable (∃ r ∈ f.dependencies, id ∈ referenceIds (AssemblyRules.ofOptions o) r))

/-- No reference leads to a file that has the identifier of the node for everything outside. -/
def SentinelFree (files : List FileFindings) : Prop :=
  ∀ f ∈ files, ∀ r ∈ f.dependencies, r.target ≠ some externalId

/-- **The nodes of an assembled graph** are the first ones of each identifier that are offered. -/
theorem nodes_assemble (o : Options) (root : String) (w : Walk) (files : List FileFindings) :
    (assemble o root w files).nodes = firstsBy GraphNode.id (offeredNodes o w files) := by
  have hwalk := offersNodes_addWalk Consistent.empty (routeGlobs o.routePatterns) w.files.toList
  have hsymbols : OffersNodes empty (withoutReferences o w files)
      (w.files.toList.map (walkedNode (routeGlobs o.routePatterns)) ++
        askedSymbolNodes o files) := by
    unfold withoutReferences askedSymbolNodes
    by_cases ho : o.granularity = .symbol
    · simp only [if_pos ho]
      exact hwalk.trans (offersNodes_addSymbols hwalk.consistent files)
    · simp only [if_neg ho, List.append_nil]
      exact hwalk
  exact (hsymbols.trans (offersNodes_addReferences hsymbols.consistent
    (AssemblyRules.ofOptions o) files)).nodes_eq

/-- The nodes of the files of the walk are offered first. -/
theorem filter_nodes_assemble (o : Options) (root : String) (w : Walk) (files : List FileFindings) :
    ((assemble o root w files).nodes.filter fun n => n.id ∈ walkedIds w) =
      firstsBy GraphNode.id (w.files.toList.map (walkedNode (routeGlobs o.routePatterns))) := by
  have hids : walkedIds w =
      (w.files.toList.map (walkedNode (routeGlobs o.routePatterns))).map GraphNode.id := by
    rw [List.map_map]
    rfl
  rw [nodes_assemble, offeredNodes, List.append_assoc, hids]
  exact filter_firstsBy_append ..

theorem map_id_askedSymbolNodes (o : Options) (files : List FileFindings) :
    (askedSymbolNodes o files).map GraphNode.id = askedSymbolIds o files := by
  unfold askedSymbolNodes askedSymbolIds
  split
  · rw [List.map_flatMap]
    refine List.flatMap_congr fun f _ => ?_
    rw [List.map_map]
    rfl
  · rfl

/-- There is a node of an identifier if a file of the walk, an exported name that is asked for, or a
reference has it. -/
theorem mem_ids_assemble {o : Options} {root : String} {w : Walk} {files : List FileFindings}
    {id : String} : id ∈ (assemble o root w files).nodes.map GraphNode.id ↔
      id ∈ walkedIds w ∨ id ∈ askedSymbolIds o files ∨ ∃ f ∈ files, f.RefersTo o id := by
  have hreferences : id ∈ (allReferenceNodes o files).map GraphNode.id ↔
      ∃ f ∈ files, f.RefersTo o id := by
    simp only [List.mem_map, mem_allReferenceNodes, FileFindings.RefersTo, ← map_id_referenceNodes]
    constructor
    · rintro ⟨n, ⟨f, hf, r, hr, hn⟩, rfl⟩
      exact ⟨f, hf, r, hr, n, hn, rfl⟩
    · rintro ⟨f, hf, r, hr, n, hn, rfl⟩
      exact ⟨n, ⟨f, hf, r, hr, hn⟩, rfl⟩
  rw [nodes_assemble, mem_map_firstsBy, offeredNodes, List.map_append, List.map_append,
    List.mem_append, List.mem_append, hreferences, map_id_askedSymbolNodes, List.map_map, or_assoc]
  rfl

/-- Nodes of one identifier that references offer are the same, unless one of them is for everything
outside and another one is a file of that name. -/
theorem eq_of_mem_allReferenceNodes {o : Options} {files : List FileFindings} {n n' : GraphNode}
    (hn : n ∈ allReferenceNodes o files) (hn' : n' ∈ allReferenceNodes o files) (hid : n.id = n'.id)
    (hfree : n.id = externalId → SentinelFree files) : n = n' := by
  obtain ⟨f, hf, r, hr, hn⟩ := mem_allReferenceNodes.1 hn
  obtain ⟨f', hf', r', hr', hn'⟩ := mem_allReferenceNodes.1 hn'
  rcases mem_referenceNodes.1 hn with ⟨target, ht, rfl⟩ | ⟨ht, -, rfl⟩ <;>
    rcases mem_referenceNodes.1 hn' with ⟨target', ht', rfl⟩ | ⟨ht', -, rfl⟩
  · obtain rfl : target = target' := hid
    rfl
  · obtain rfl : target = externalId := hid
    exact absurd ht (hfree rfl f hf r hr)
  · obtain rfl : externalId = target' := hid
    exact absurd ht' (hfree rfl f' hf' r' hr')
  · rfl

/-- The edges of an assembled graph without exported names are those that references to files call
for. -/
theorem edges_assemble_file {o : Options} (ho : o.granularity = .file) (root : String) {w : Walk}
    {files : List FileFindings} (hf : ∀ f ∈ files, f.relative ∈ walkedIds w) :
    (assemble o root w files).edges = firstsBy GraphEdge.key
      ((references files).flatMap fun p => fileEdges o.includeExternal p.1 p.2) := by
  obtain ⟨offers, hoffers, hadds⟩ := adds_assemble o hf
  have hflat : offers.flatten =
      (references files).flatMap fun p => fileEdges o.includeExternal p.1 p.2 := by
    refine flatten_eq_flatMap_of_forall₂ hoffers fun p _ es hes => ?_
    obtain ⟨m, -, rfl⟩ := hes
    exact referenceEdges_eq_fileEdges ho
  rw [hflat, askedContainsEdges_file ho] at hadds
  exact hadds.edges_eq

end RefGraph
