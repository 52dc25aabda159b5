import RefGraph.Assembly
import RefGraph.Proofs.Graph.Consistency

/-!
# What the steps of assembling add

Each step of assembling offers some nodes and some edges whose ends are there. What has been offered
so far determines the nodes and edges of the graph, so steps compose by joining their offers.

* `Graph.Adds`: one graph comes from another by offering nodes and edges.
* `Graph.adds_addWalk`, `Graph.adds_addSymbols`: what the files of a walk and their exported names
  add.
* `Graph.adds_addReference`, `Graph.adds_addReferences`: what references add. Where one leads is
  decided by a graph between the first and the last, `Graph.Decided`.
-/

namespace RefGraph

namespace Graph

variable {g g' g'' : Graph}

/-- A graph that comes from another one by offering nodes of given identifiers, and edges whose ends
are there. -/
structure Adds (g g' : Graph) (newIds : List String) (offered : List GraphEdge) : Prop where
  consistent : g'.Consistent
  mem_ids_iff : ∀ id, id ∈ g'.ids ↔ id ∈ g.ids ∨ id ∈ newIds
  edges_eq : g'.edges.toList = firstsBy GraphEdge.key (g.edges.toList ++ offered)

namespace Adds

variable {newIds newIds' : List String} {offered offered' : List GraphEdge}

theorem refl (hg : g.Consistent) : Adds g g [] [] where
  consistent := hg
  mem_ids_iff id := by simp
  edges_eq := by rw [List.append_nil, firstsBy_eq_self hg.nodup_edgeKeys]

/-- Offers join. -/
theorem trans (h : Adds g g' newIds offered) (h' : Adds g' g'' newIds' offered') :
    Adds g g'' (newIds ++ newIds') (offered ++ offered') where
  consistent := h'.consistent
  mem_ids_iff id := by rw [h'.mem_ids_iff, h.mem_ids_iff, List.mem_append, or_assoc]
  edges_eq := by rw [h'.edges_eq, h.edges_eq, firstsBy_append_left, List.append_assoc]

/-- No node is lost. -/
theorem ids_subset (h : Adds g g' newIds offered) : g.ids ⊆ g'.ids :=
  fun id hid => (h.mem_ids_iff id).2 (Or.inl hid)

/-- The keys are those that were there and those that were offered. -/
theorem mem_edgeKeys_iff (h : Adds g g' newIds offered) (k : EdgeKey) :
    k ∈ g'.edgeKeys ↔ k ∈ g.edgeKeys ∨ k ∈ offered.map GraphEdge.key := by
  rw [edgeKeys, h.edges_eq, mem_map_firstsBy, List.map_append, List.mem_append, edgeKeys]

/-- In a graph that began without any, all edges were offered. -/
theorem mem_offered (h : Adds empty g newIds offered) {e : GraphEdge} (he : e ∈ g.edges.toList) :
    e ∈ offered :=
  mem_of_mem_firstsBy (h.edges_eq ▸ he)

/-- An edge that was offered is there, or another one of its key. -/
theorem exists_key_eq (h : Adds g g' newIds offered) {e : GraphEdge} (he : e ∈ offered) :
    ∃ e' ∈ g'.edges.toList, e'.key = e.key :=
  List.mem_map.1 ((h.mem_edgeKeys_iff e.key).2 (Or.inr (List.mem_map_of_mem he)))

end Adds

/-! ## Single nodes and edges -/

/-- A node adds its identifier. -/
theorem adds_addNode (hg : g.Consistent) (n : GraphNode) : Adds g (g.addNode n) [n.id] [] where
  consistent := hg.insertNode n
  mem_ids_iff id := by
    show id ∈ (g.insertNode n).2.ids ↔ _
    rw [ids, nodes_insertNode hg, mem_map_firstsBy, List.map_append, List.mem_append]
    rfl
  edges_eq := by
    show (g.insertNode n).2.edges.toList = _
    rw [edges_insertNode, List.append_nil, firstsBy_eq_self hg.nodup_edgeKeys]

/-- An edge between nodes is offered. -/
theorem adds_addEdge (hg : g.Consistent) {k : EdgeKey} (location : Option Location)
    (hs : k.source ∈ g.ids) (ht : k.target ∈ g.ids) :
    Adds g (g.addEdge k location) [] [edgeOf k location] where
  consistent := hg.insertEdge k location
  mem_ids_iff id := by
    show id ∈ (g.insertEdge k location).2.ids ↔ _
    rw [ids, nodes_insertEdge]
    simp [ids]
  edges_eq := by
    show (g.insertEdge k location).2.edges.toList = _
    rw [firstsBy_concat, firstsBy_eq_self hg.nodup_edgeKeys, ← edgeKeys, key_edgeOf]
    rcases insertEdge_cases hg k location with ⟨ha, i, -, he⟩ | ⟨ha, he⟩
    · rw [he, if_neg ha.2.2]
      exact Array.toList_push
    · have hk : k ∈ g.edgeKeys := by
        by_contra hk
        exact ha ⟨hs, ht, hk⟩
      rw [he, if_pos hk]

/-- Edges from one node to several are offered one after the other. -/
theorem adds_addEdges (hg : g.Consistent) {source : String} (kind : EdgeKind)
    (statement : Option String) (location : Option Location) (hs : source ∈ g.ids)
    {targets : List String} (ht : ∀ t ∈ targets, t ∈ g.ids) :
    Adds g (targets.foldl (fun g t => g.addEdge ⟨source, t, kind, statement⟩ location) g) []
      (targets.map fun t => edgeOf ⟨source, t, kind, statement⟩ location) := by
  induction targets generalizing g with
  | nil => exact Adds.refl hg
  | cons t ts ih =>
    have h := adds_addEdge hg (k := ⟨source, t, kind, statement⟩) location hs (ht t (by simp))
    have hts : ∀ t' ∈ ts, t' ∈ (g.addEdge ⟨source, t, kind, statement⟩ location).ids :=
      fun t' h' => h.ids_subset (ht t' (List.mem_cons_of_mem t h'))
    exact h.trans (ih h.consistent (h.ids_subset hs) hts)

/-- Steps over a list, each of which adds what belongs to its element. -/
theorem adds_foldl {β : Type} (step : Graph → β → Graph) (newIds : β → List String)
    (offered : β → List GraphEdge) {S : List String} (bs : List β)
    (hstep : ∀ g : Graph, g.Consistent → S ⊆ g.ids → ∀ b ∈ bs,
      Adds g (step g b) (newIds b) (offered b))
    (hg : g.Consistent) (hS : S ⊆ g.ids) :
    Adds g (bs.foldl step g) (bs.flatMap newIds) (bs.flatMap offered) := by
  induction bs generalizing g with
  | nil => exact Adds.refl hg
  | cons b bs ih =>
    have h := hstep g hg hS b (by simp)
    -- What the steps rely on is still there after the first one.
    exact h.trans (ih (fun g hg hS b hb => hstep g hg hS b (List.mem_cons_of_mem _ hb))
      h.consistent (List.Subset.trans hS h.ids_subset))

/-! ## Files and exported names -/

/-- The files of a walk become nodes. -/
theorem adds_addWalk (hg : g.Consistent) (routes : List Glob) (files : List WalkedFile) :
    Adds g (g.addWalk routes files) (files.map WalkedFile.relative) [] := by
  have h := adds_foldl
    (fun g f => g.addNode (.file f.relative (nodeKind routes f.relative) f.ignored))
    (fun f : WalkedFile => [f.relative]) (fun _ => []) (S := []) files
    (fun _ hg _ _ _ => adds_addNode hg _) hg (List.nil_subset _)
  rwa [← List.map_eq_flatMap, List.flatMap_eq_nil_iff.2 fun _ _ => rfl] at h

/-- The edge from a file to a name that it exports. -/
def containsEdge (file : String) (s : ExportedSymbol) : GraphEdge :=
  edgeOf ⟨file, symbolId file s.name, .contains, none⟩ none

/-- Adding a symbol adds its node and the edge from its file. -/
theorem adds_addSymbol (hg : g.Consistent) {file : String} (hf : file ∈ g.ids)
    (s : ExportedSymbol) :
    Adds g (addSymbol file g s) [symbolId file s.name] [containsEdge file s] := by
  have h := adds_addNode hg (.symbol file s.name s.kind s.displayName)
  have ht : symbolId file s.name ∈ (g.addNode (.symbol file s.name s.kind s.displayName)).ids :=
    (h.mem_ids_iff _).2 (Or.inr (List.mem_singleton_self _))
  exact h.trans (adds_addEdge h.consistent none (h.ids_subset hf) ht)

/-- The identifiers of the names that a file exports. -/
def symbolIds (f : FileFindings) : List String := f.symbols.map fun s => symbolId f.relative s.name

/-- The edges from a file to the names that it exports. -/
def containsEdges (f : FileFindings) : List GraphEdge := f.symbols.map (containsEdge f.relative)

/-- Adding the symbols of walked files adds their nodes and the edges from the files. -/
theorem adds_addSymbols (hg : g.Consistent) {files : List FileFindings}
    (hf : ∀ f ∈ files, f.relative ∈ g.ids) :
    Adds g (g.addSymbols files) (files.flatMap symbolIds) (files.flatMap containsEdges) := by
  refine adds_foldl _ _ _ (S := files.map FileFindings.relative) files ?_ hg ?_
  · intro g hg hS f hmem
    have hrel : f.relative ∈ g.ids := hS (List.mem_map_of_mem hmem)
    have h := adds_foldl (addSymbol f.relative) (fun s => [symbolId f.relative s.name])
      (fun s => [containsEdge f.relative s]) (S := [f.relative]) f.symbols
      (fun g hg hS s _ => adds_addSymbol hg (hS (List.mem_singleton_self _)) s) hg
      (fun id hid => List.mem_singleton.1 hid ▸ hrel)
    rwa [← List.map_eq_flatMap, ← List.map_eq_flatMap] at h
  · intro id hid
    obtain ⟨f, hmem, rfl⟩ := List.mem_map.1 hid
    exact hf f hmem

/-! ## References -/

/-- The references of files, each with its file, in order. -/
def references (files : List FileFindings) : List (FileFindings × ResolvedDependency) :=
  files.flatMap fun f => f.dependencies.map fun r => (f, r)

/-- References are added one after the other, with the files that they come from. -/
theorem addReferences_eq_foldl (rules : AssemblyRules) (g : Graph) (files : List FileFindings) :
    g.addReferences rules files =
      (references files).foldl (fun g p => addReference rules p.1 g p.2) g := by
  rw [addReferences, references, List.foldl_flatMap]
  simp only [List.foldl_map]

theorem mem_references {files : List FileFindings} {p : FileFindings × ResolvedDependency} :
    p ∈ references files ↔ p.1 ∈ files ∧ p.2 ∈ p.1.dependencies := by
  simp only [references, List.mem_flatMap, List.mem_map]
  constructor
  · rintro ⟨f, hf, r, hr, rfl⟩
    exact ⟨hf, hr⟩
  · rintro ⟨hf, hr⟩
    exact ⟨p.1, hf, p.2, hr, rfl⟩

/-- The identifiers that a reference adds. -/
def referenceIds (rules : AssemblyRules) (r : ResolvedDependency) : List String :=
  match r.target with
  | some target => [target]
  | none => if rules.includeExternal then [externalId] else []

/-- The edges that a reference offers if it is decided by a given graph where it leads. -/
def referenceEdges (rules : AssemblyRules) (m : Graph) (f : FileFindings)
    (r : ResolvedDependency) : List GraphEdge :=
  match r.target with
  | some target => (m.referenceTargets rules f.kind target r.dependency).map fun t =>
      edgeOf ⟨f.relative, t, edgeKindTo target r.dependency.kind, r.dependency.statement⟩
        r.dependency.location
  | none =>
    if rules.includeExternal then
      [edgeOf ⟨f.relative, externalId, .external, r.dependency.statement⟩ r.dependency.location]
    else []

/-- A graph with all nodes of another one, and otherwise only nodes of given identifiers. -/
structure Between (g : Graph) (allowed : List String) (m : Graph) : Prop where
  consistent : m.Consistent
  ids_subset : g.ids ⊆ m.ids
  mem_or_mem : ∀ id ∈ m.ids, id ∈ g.ids ∨ id ∈ allowed

/-- A step that adds nothing but allowed nodes stays between. -/
theorem Between.of_adds {allowed newIds : List String} {offered : List GraphEdge} {m m' : Graph}
    (h : Between g allowed m) (ha : Adds m m' newIds offered) (hnew : newIds ⊆ allowed) :
    Between g allowed m' where
  consistent := ha.consistent
  ids_subset := List.Subset.trans h.ids_subset ha.ids_subset
  mem_or_mem id hid := by
    rcases (ha.mem_ids_iff id).1 hid with hid | hid
    · exact h.mem_or_mem id hid
    · exact Or.inr (hnew hid)

/-- The imported names that are in a graph. -/
theorem mem_importedSymbols_iff {m : Graph} (hm : m.Consistent) {target t : String}
    {d : Dependency} :
    t ∈ m.importedSymbols target d ↔ ∃ b ∈ d.bindings, b.kind ≠ .namespace ∧
      symbolId target b.imported ∈ m.ids ∧ symbolId target b.imported = t := by
  simp only [importedSymbols, List.mem_map, List.mem_filter, Bool.and_eq_true,
    hm.contains_iff, decide_eq_true_eq, and_assoc, ne_eq]

/-- A reference between scripts leads to the imported names, if these are asked for and there is
one. -/
theorem referenceTargets_of_asked {rules : AssemblyRules} {kind : SourceKind} {target : String}
    (h : rules.granularity = .symbol ∧ kind = .script ∧
      SourceKind.ofPath? ⟨target⟩ = some .script) (m : Graph) (d : Dependency) :
    m.referenceTargets rules kind target d =
      if m.importedSymbols target d = [] then [target] else m.importedSymbols target d := by
  simp only [referenceTargets, if_pos h]

/-- All other references lead to the file. -/
theorem referenceTargets_of_not_asked {rules : AssemblyRules} {kind : SourceKind} {target : String}
    (h : ¬ (rules.granularity = .symbol ∧ kind = .script ∧
      SourceKind.ofPath? ⟨target⟩ = some .script)) (m : Graph) (d : Dependency) :
    m.referenceTargets rules kind target d = [target] := by
  simp only [referenceTargets, if_neg h, if_true]

/-- A reference to a file leads to the file alone or to names that it imports. -/
theorem referenceTargets_cases (m : Graph) (rules : AssemblyRules) (kind : SourceKind)
    (target : String) (d : Dependency) :
    m.referenceTargets rules kind target d = [target] ∨
      m.referenceTargets rules kind target d = m.importedSymbols target d ∧
        m.importedSymbols target d ≠ [] := by
  by_cases h : rules.granularity = .symbol ∧ kind = .script ∧
      SourceKind.ofPath? ⟨target⟩ = some .script
  · rw [referenceTargets_of_asked h]
    by_cases hnil : m.importedSymbols target d = []
    · exact Or.inl (if_pos hnil)
    · exact Or.inr ⟨if_neg hnil, hnil⟩
  · exact Or.inl (referenceTargets_of_not_asked h m d)

/-- A reference leads to its target or to a name that is imported from there. -/
theorem eq_or_mem_of_mem_referenceTargets {m : Graph} {rules : AssemblyRules} {kind : SourceKind}
    {target t : String} {d : Dependency} (h : t ∈ m.referenceTargets rules kind target d) :
    t = target ∨ t ∈ m.importedSymbols target d := by
  rcases m.referenceTargets_cases rules kind target d with heq | ⟨heq, -⟩
  · exact Or.inl (List.mem_singleton.1 (heq ▸ h))
  · exact Or.inr (heq ▸ h)

/-- A reference to a file leads to nodes. -/
theorem referenceTargets_subset_ids {m : Graph} (hm : m.Consistent) (rules : AssemblyRules)
    (kind : SourceKind) {target : String} (ht : target ∈ m.ids) (d : Dependency) :
    m.referenceTargets rules kind target d ⊆ m.ids := by
  intro t hmem
  rcases eq_or_mem_of_mem_referenceTargets hmem with rfl | hmem
  · exact ht
  · obtain ⟨b, -, -, hb, rfl⟩ := (mem_importedSymbols_iff hm).1 hmem
    exact hb

/-- A reference of a file that is there adds its identifiers, and edges that a graph with these
identifiers decides. -/
theorem adds_addReference (hg : g.Consistent) (rules : AssemblyRules) {f : FileFindings}
    (hf : f.relative ∈ g.ids) (r : ResolvedDependency) :
    ∃ m, Adds g m (referenceIds rules r) [] ∧
      Adds g (addReference rules f g r) (referenceIds rules r) (referenceEdges rules m f r) := by
  unfold addReference referenceIds referenceEdges
  cases r.target with
  | none =>
    by_cases hext : rules.includeExternal
    · simp only [if_pos hext]
      have h := adds_addNode hg .external
      have ht : externalId ∈ (g.addNode .external).ids :=
        (h.mem_ids_iff _).2 (Or.inr (List.mem_singleton_self _))
      exact ⟨_, h, h.trans (adds_addEdge h.consistent _ (h.ids_subset hf) ht)⟩
    · simp only [if_neg hext]
      exact ⟨g, Adds.refl hg, Adds.refl hg⟩
  | some target =>
    have h := adds_addNode hg (.file target (nodeKind rules.routes target) false)
    have ht : target ∈ (g.addNode (.file target (nodeKind rules.routes target) false)).ids :=
      (h.mem_ids_iff _).2 (Or.inr (List.mem_singleton_self _))
    exact ⟨_, h, h.trans (adds_addEdges h.consistent _ _ _ (h.ids_subset hf)
      (referenceTargets_subset_ids h.consistent rules f.kind ht _))⟩

/-- The edges that a reference offers if some graph between decides where it leads. -/
def Decided (rules : AssemblyRules) (g : Graph) (allowed : List String)
    (p : FileFindings × ResolvedDependency) (es : List GraphEdge) : Prop :=
  ∃ m, Between g allowed m ∧ es = referenceEdges rules m p.1 p.2

/-- The references of files that are there add their identifiers, and edges that are decided, each
by a graph between the first one and the last. -/
theorem adds_addReferences (hg : g.Consistent) (rules : AssemblyRules) {files : List FileFindings}
    (hf : ∀ f ∈ files, f.relative ∈ g.ids) :
    ∃ offers : List (List GraphEdge),
      List.Forall₂ (Decided rules g ((references files).flatMap fun p => referenceIds rules p.2))
        (references files) offers ∧
      Adds g (g.addReferences rules files)
        ((references files).flatMap fun p => referenceIds rules p.2) offers.flatten := by
  -- The induction is on the references that are left, from any graph between.
  suffices key : ∀ (allowed : List String) (ps : List (FileFindings × ResolvedDependency)),
      (∀ p ∈ ps, p.1.relative ∈ g.ids) → (∀ p ∈ ps, referenceIds rules p.2 ⊆ allowed) →
      ∀ g' : Graph, Between g allowed g' → ∃ offers : List (List GraphEdge),
        List.Forall₂ (Decided rules g allowed) ps offers ∧
        Adds g' (ps.foldl (fun g p => addReference rules p.1 g p.2) g')
          (ps.flatMap fun p => referenceIds rules p.2) offers.flatten by
    rw [addReferences_eq_foldl]
    refine key _ (references files) (fun p hp => hf p.1 (mem_references.1 hp).1) ?_ g
      ⟨hg, List.Subset.refl _, fun id hid => Or.inl hid⟩
    exact fun p hp id hid => List.mem_flatMap.2 ⟨p, hp, hid⟩
  intro allowed ps
  induction ps with
  | nil => exact fun _ _ g' hg' => ⟨[], List.Forall₂.nil, Adds.refl hg'.consistent⟩
  | cons p ps ih =>
    intro hs hids g' hg'
    obtain ⟨m, hm, h⟩ := adds_addReference hg'.consistent rules
      (hg'.ids_subset (hs p (by simp))) p.2
    have hall := hids p (by simp)
    obtain ⟨offers, hoffers, hadds⟩ := ih (fun q hq => hs q (List.mem_cons_of_mem p hq))
      (fun q hq => hids q (List.mem_cons_of_mem p hq)) _ (hg'.of_adds h hall)
    exact ⟨_ :: offers, List.Forall₂.cons ⟨m, hg'.of_adds hm hall, rfl⟩ hoffers, h.trans hadds⟩

/-! ## The whole graph -/

/-- The graph of a walk before its references: the files and, if they are asked for, the exported
names. -/
def withoutReferences (o : Options) (w : Walk) (files : List FileFindings) : Graph :=
  let walked := empty.addWalk (routeGlobs o.routePatterns) w.files.toList
  if o.granularity = .symbol then walked.addSymbols files else walked

/-- The files of a walk, given by their paths from the root. -/
def walkedIds (w : Walk) : List String := w.files.toList.map WalkedFile.relative

/-- The identifiers of the exported names that are asked for. -/
def askedSymbolIds (o : Options) (files : List FileFindings) : List String :=
  if o.granularity = .symbol then files.flatMap symbolIds else []

/-- The edges to the exported names that are asked for. -/
def askedContainsEdges (o : Options) (files : List FileFindings) : List GraphEdge :=
  if o.granularity = .symbol then files.flatMap containsEdges else []

/-- Before references, there are the nodes of files and symbols, and the edges between these. -/
theorem adds_withoutReferences (o : Options) {w : Walk} {files : List FileFindings}
    (hf : ∀ f ∈ files, f.relative ∈ walkedIds w) :
    Adds empty (withoutReferences o w files) (walkedIds w ++ askedSymbolIds o files)
      (askedContainsEdges o files) := by
  have h := adds_addWalk Consistent.empty (routeGlobs o.routePatterns) w.files.toList
  rw [← walkedIds] at h
  unfold withoutReferences askedSymbolIds askedContainsEdges
  by_cases ho : o.granularity = .symbol
  · simp only [if_pos ho]
    exact h.trans (adds_addSymbols h.consistent fun f hmem =>
      (h.mem_ids_iff _).2 (Or.inr (hf f hmem)))
  · simp only [if_neg ho, List.append_nil]
    exact h

/-- Assembly adds references last. -/
theorem assemble_eq_toData (o : Options) (root : String) (w : Walk) (files : List FileFindings) :
    assemble o root w files =
      ((withoutReferences o w files).addReferences (AssemblyRules.ofOptions o) files).toData root
        w.totalFiles w.ignoredCount (externalReferences files) := rfl

/-- All nodes and edges of an assembled graph. -/
theorem adds_assemble (o : Options) {w : Walk} {files : List FileFindings}
    (hf : ∀ f ∈ files, f.relative ∈ walkedIds w) :
    ∃ offers : List (List GraphEdge),
      List.Forall₂ (Decided (AssemblyRules.ofOptions o) (withoutReferences o w files)
        ((references files).flatMap fun p => referenceIds (AssemblyRules.ofOptions o) p.2))
        (references files) offers ∧
      Adds empty ((withoutReferences o w files).addReferences (AssemblyRules.ofOptions o) files)
        (walkedIds w ++ askedSymbolIds o files ++
          (references files).flatMap fun p => referenceIds (AssemblyRules.ofOptions o) p.2)
        (askedContainsEdges o files ++ offers.flatten) := by
  have h := adds_withoutReferences o hf
  have hsource : ∀ f ∈ files, f.relative ∈ (withoutReferences o w files).ids :=
    fun f hmem => (h.mem_ids_iff _).2 (Or.inr (List.mem_append_left _ (hf f hmem)))
  obtain ⟨offers, hoffers, hadds⟩ := adds_addReferences h.consistent _ hsource
  exact ⟨offers, hoffers, h.trans hadds⟩

end Graph

/-! ## Two files -/

/-- A walk of two scripts. -/
def pairWalk : Walk where
  files := #[⟨⟨"/r/a.ts"⟩, "a.ts", .script, false⟩, ⟨⟨"/r/b.ts"⟩, "b.ts", .script, false⟩]
  totalFiles := 2

/-- The first script imports a name of the second one, and something from outside. -/
def pairFindings : List FileFindings :=
  [{ relative := "a.ts", kind := .script, dependencies :=
      [⟨⟨"./b", .static, some "import { f } from './b'", none, [⟨.named, "f", "f"⟩]⟩, some "b.ts"⟩,
        ⟨⟨"react", .static, some "import 'react'", none, []⟩, none⟩] },
    { relative := "b.ts", kind := .script, symbols := [{ name := "f", kind := .function }] }]

end RefGraph
