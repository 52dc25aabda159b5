import RefGraph.Proofs.Assembly.Steps

/-!
# The finer graph refines the coarser one

A graph with exported names shows the same files and references as one without them. An edge to a
file may lead to a name that the file exports instead, or to several.

* `GraphEdge.ProjectsOnto`: an edge is another one, or leads to a name behind its end.
* `GraphData.Refines`: what a graph with exported names has to do with one without them.
* `refines_assemble`: whatever the walk and the findings are, the first refines the second.
-/

namespace RefGraph

/-- An edge that is another one up to its end, where a name that is exported may be added. -/
def GraphEdge.ProjectsOnto (e' e : GraphEdge) : Prop :=
  e'.source = e.source ∧ e'.kind = e.kind ∧ e'.statement = e.statement ∧
    (e'.target = e.target ∨ ∃ name, e'.target = symbolId e.target name)

/-- What a graph with exported names has to do with one of the same findings without them. -/
structure GraphData.Refines (files : List FileFindings) (fine coarse : GraphData) : Prop where
  root_eq : fine.root = coarse.root
  totalFiles_eq : fine.totalFiles = coarse.totalFiles
  ignoredCount_eq : fine.ignoredCount = coarse.ignoredCount
  externalCount_eq : fine.externalCount = coarse.externalCount
  /-- No node is lost. -/
  nodes : ∀ n ∈ coarse.nodes, ∃ n' ∈ fine.nodes, n'.id = n.id
  /-- New nodes stand for exported names. -/
  newNodes : ∀ n' ∈ fine.nodes, (∃ n ∈ coarse.nodes, n.id = n'.id) ∨
    ∃ f ∈ files, ∃ s ∈ f.symbols, n'.id = symbolId f.relative s.name
  /-- No edge is lost. -/
  edges : ∀ e ∈ coarse.edges, ∃ e' ∈ fine.edges, e'.ProjectsOnto e
  /-- No edge is new, except for those from a file to its names. -/
  projected : ∀ e' ∈ fine.edges, e'.kind ≠ .contains → ∃ e ∈ coarse.edges, e'.ProjectsOnto e

namespace Graph

/-! ## One reference -/

/-- The edges of a reference that leads to files only. -/
def fileEdges (includeExternal : Bool) (f : FileFindings) (r : ResolvedDependency) :
    List GraphEdge :=
  match r.target with
  | some target =>
    [edgeOf ⟨f.relative, target, edgeKindTo target r.dependency.kind, r.dependency.statement⟩
      r.dependency.location]
  | none =>
    if includeExternal then
      [edgeOf ⟨f.relative, externalId, .external, r.dependency.statement⟩ r.dependency.location]
    else []

variable {rules : AssemblyRules} {m : Graph} {f : FileFindings} {r : ResolvedDependency}

/-- Without exported names a reference leads to files only. -/
theorem referenceEdges_eq_fileEdges (h : rules.granularity = .file) :
    referenceEdges rules m f r = fileEdges rules.includeExternal f r := by
  unfold referenceEdges fileEdges
  cases r.target with
  | none => rfl
  | some target =>
    have hnot : ¬ (rules.granularity = .symbol ∧ f.kind = .script ∧
        SourceKind.ofPath? ⟨target⟩ = some .script) := by
      rw [h]
      exact fun hasked => nomatch hasked.1
    dsimp only
    rw [referenceTargets_of_not_asked hnot, List.map_singleton]

/-- A reference leads somewhere. -/
theorem referenceTargets_ne_nil (m : Graph) (rules : AssemblyRules) (kind : SourceKind)
    (target : String) (d : Dependency) : m.referenceTargets rules kind target d ≠ [] := by
  rcases m.referenceTargets_cases rules kind target d with heq | ⟨heq, hne⟩
  · rw [heq]
    exact List.cons_ne_nil _ _
  · rw [heq]
    exact hne

/-- Where a reference to a file leads is the file or a name behind it. -/
theorem projectsOnto_of_mem_referenceTargets {kind : SourceKind} {target t : String}
    {d : Dependency} (h : t ∈ m.referenceTargets rules kind target d) (source : String)
    (edgeKind : EdgeKind) (statement : Option String) (location : Option Location) :
    (edgeOf ⟨source, t, edgeKind, statement⟩ location).ProjectsOnto
      (edgeOf ⟨source, target, edgeKind, statement⟩ location) := by
  refine ⟨rfl, rfl, rfl, ?_⟩
  rcases eq_or_mem_of_mem_referenceTargets h with h | h
  · exact Or.inl h
  · obtain ⟨b, -, rfl⟩ := List.mem_map.1 h
    exact Or.inr ⟨b.imported, rfl⟩

/-- An edge between names projects onto the edge between their files. -/
theorem exists_projectsOnto_of_mem_referenceEdges {e' : GraphEdge}
    (h : e' ∈ referenceEdges rules m f r) :
    ∃ e ∈ fileEdges rules.includeExternal f r, e'.ProjectsOnto e := by
  unfold referenceEdges at h
  unfold fileEdges
  cases ht : r.target with
  | none =>
    rw [ht] at h
    exact ⟨e', h, rfl, rfl, rfl, Or.inl rfl⟩
  | some target =>
    rw [ht] at h
    obtain ⟨t, hmem, rfl⟩ := List.mem_map.1 h
    exact ⟨_, List.mem_singleton_self _, projectsOnto_of_mem_referenceTargets hmem _ _ _ _⟩

/-- Every edge between files is the projection of one between names. -/
theorem exists_mem_referenceEdges_of_mem_fileEdges (rules : AssemblyRules) (m : Graph)
    {e : GraphEdge} (h : e ∈ fileEdges rules.includeExternal f r) :
    ∃ e' ∈ referenceEdges rules m f r, e'.ProjectsOnto e := by
  unfold fileEdges at h
  unfold referenceEdges
  cases ht : r.target with
  | none =>
    rw [ht] at h
    exact ⟨e, h, rfl, rfl, rfl, Or.inl rfl⟩
  | some target =>
    rw [ht] at h
    obtain ⟨t, hmem⟩ := List.exists_mem_of_ne_nil _
      (referenceTargets_ne_nil m rules f.kind target r.dependency)
    rw [List.mem_singleton.1 h]
    exact ⟨_, List.mem_map_of_mem hmem, projectsOnto_of_mem_referenceTargets hmem _ _ _ _⟩

/-! ## All references -/

/-- What is offered for one element of a list is offered. -/
theorem exists_subset_flatten_of_mem {α β : Type} {R : α → List β → Prop} {as : List α}
    {bss : List (List β)} (h : List.Forall₂ R as bss) {a : α} (ha : a ∈ as) :
    ∃ bs, R a bs ∧ bs ⊆ bss.flatten := by
  induction h with
  | nil => exact absurd ha List.not_mem_nil
  | cons hr _ ih =>
    rcases List.mem_cons.1 ha with rfl | ha
    · exact ⟨_, hr, fun b hb => List.mem_append_left _ hb⟩
    · obtain ⟨bs, hbs, hsub⟩ := ih ha
      exact ⟨bs, hbs, fun b hb => List.mem_append_right _ (hsub hb)⟩

/-- What is offered is offered for one element of a list. -/
theorem exists_of_mem_flatten {α β : Type} {R : α → List β → Prop} {as : List α}
    {bss : List (List β)} (h : List.Forall₂ R as bss) {b : β} (hb : b ∈ bss.flatten) :
    ∃ a ∈ as, ∃ bs, R a bs ∧ b ∈ bs := by
  induction h with
  | nil => exact absurd hb List.not_mem_nil
  | cons hr _ ih =>
    rcases List.mem_append.1 hb with hb | hb
    · exact ⟨_, List.mem_cons_self, _, hr, hb⟩
    · obtain ⟨a, ha, bs, hbs, hmem⟩ := ih hb
      exact ⟨a, List.mem_cons_of_mem _ ha, bs, hbs, hmem⟩

/-- What references offer to the coarser graph, they offer to the finer one, perhaps with names
behind the ends. -/
theorem exists_finer {rules' : AssemblyRules} {g g' : Graph} {allowed allowed' : List String}
    {ps : List (FileFindings × ResolvedDependency)} {offers offers' : List (List GraphEdge)}
    (h : List.Forall₂ (Decided rules g allowed) ps offers)
    (h' : List.Forall₂ (Decided rules' g' allowed') ps offers')
    (hfile : rules.granularity = .file) (hext : rules'.includeExternal = rules.includeExternal)
    {e : GraphEdge} (he : e ∈ offers.flatten) : ∃ e' ∈ offers'.flatten, e'.ProjectsOnto e := by
  obtain ⟨p, hp, es, ⟨m, -, rfl⟩, hmem⟩ := exists_of_mem_flatten h he
  rw [referenceEdges_eq_fileEdges hfile, ← hext] at hmem
  obtain ⟨es', ⟨m', -, rfl⟩, hsub⟩ := exists_subset_flatten_of_mem h' hp
  obtain ⟨e', he', hproj⟩ := exists_mem_referenceEdges_of_mem_fileEdges rules' m' hmem
  exact ⟨e', hsub he', hproj⟩

/-- What references offer to the finer graph comes from what they offer to the coarser one. -/
theorem exists_coarser {rules' : AssemblyRules} {g g' : Graph} {allowed allowed' : List String}
    {ps : List (FileFindings × ResolvedDependency)} {offers offers' : List (List GraphEdge)}
    (h : List.Forall₂ (Decided rules g allowed) ps offers)
    (h' : List.Forall₂ (Decided rules' g' allowed') ps offers')
    (hfile : rules.granularity = .file) (hext : rules'.includeExternal = rules.includeExternal)
    {e' : GraphEdge} (he' : e' ∈ offers'.flatten) : ∃ e ∈ offers.flatten, e'.ProjectsOnto e := by
  obtain ⟨p, hp, es', ⟨m', -, rfl⟩, hmem⟩ := exists_of_mem_flatten h' he'
  obtain ⟨e, he, hproj⟩ := exists_projectsOnto_of_mem_referenceEdges hmem
  obtain ⟨es, ⟨m, -, rfl⟩, hsub⟩ := exists_subset_flatten_of_mem h hp
  rw [referenceEdges_eq_fileEdges hfile, ← hext] at hsub
  exact ⟨e, hsub he, hproj⟩

end Graph

open RefGraph.Graph

/-- Of an edge only its key matters. -/
theorem GraphEdge.ProjectsOnto.congr {e₁ e₂ e₁' e₂' : GraphEdge} (h : e₁'.ProjectsOnto e₁)
    (hkey' : e₂'.key = e₁'.key) (hkey : e₂.key = e₁.key) : e₂'.ProjectsOnto e₂ := by
  simp only [GraphEdge.key, EdgeKey.mk.injEq] at hkey hkey'
  obtain ⟨hs, ht, hk, hst⟩ := hkey
  obtain ⟨hs', ht', hk', hst'⟩ := hkey'
  unfold GraphEdge.ProjectsOnto at h ⊢
  rwa [hs, ht, hk, hst, hs', ht', hk', hst']

/-- No edge to an exported name is asked for without exported names. -/
theorem askedContainsEdges_file {o : Options} (h : o.granularity = .file)
    (files : List FileFindings) : askedContainsEdges o files = [] := by
  rw [askedContainsEdges, h]
  rfl

theorem kind_of_mem_askedContainsEdges {o : Options} {files : List FileFindings} {e : GraphEdge}
    (h : e ∈ askedContainsEdges o files) : e.kind = .contains := by
  unfold askedContainsEdges at h
  split at h
  · obtain ⟨f, -, he⟩ := List.mem_flatMap.1 h
    obtain ⟨s, -, rfl⟩ := List.mem_map.1 he
    rfl
  · exact absurd h List.not_mem_nil

theorem mem_askedSymbolIds {o : Options} {files : List FileFindings} {id : String}
    (h : id ∈ askedSymbolIds o files) :
    ∃ f ∈ files, ∃ s ∈ f.symbols, id = symbolId f.relative s.name := by
  unfold askedSymbolIds at h
  split at h
  · obtain ⟨f, hf, he⟩ := List.mem_flatMap.1 h
    obtain ⟨s, hs, rfl⟩ := List.mem_map.1 he
    exact ⟨f, hf, s, hs, rfl⟩
  · exact absurd h List.not_mem_nil

/-- **The finer graph refines the coarser one.** For every walk, all findings in files of the walk
and all options, the graph with exported names and the one without them count alike, have the same
nodes but for exported names, and have the same edges but for ends that are exported names. -/
theorem refines_assemble (o : Options) (root : String) {w : Walk} {files : List FileFindings}
    (hf : ∀ f ∈ files, f.relative ∈ walkedIds w) :
    GraphData.Refines files (assemble { o with granularity := .symbol } root w files)
      (assemble { o with granularity := .file } root w files) := by
  obtain ⟨offers, hoffers, hcoarse⟩ := adds_assemble { o with granularity := .file } hf
  obtain ⟨offers', hoffers', hfine⟩ := adds_assemble { o with granularity := .symbol } hf
  rw [askedContainsEdges_file rfl, List.nil_append] at hcoarse
  rw [assemble_eq_toData, assemble_eq_toData]
  refine ⟨rfl, rfl, rfl, rfl, ?_, ?_, ?_, ?_⟩
  · intro n hn
    have hid := (hcoarse.mem_ids_iff n.id).1 (List.mem_map_of_mem hn)
    refine List.mem_map.1 ((hfine.mem_ids_iff n.id).2 ?_)
    simp only [List.mem_append] at hid ⊢
    rcases hid with hid | (hid | hid) | hid
    · exact Or.inl hid
    · exact Or.inr (Or.inl (Or.inl hid))
    · exact absurd hid List.not_mem_nil
    · exact Or.inr (Or.inr hid)
  · intro n' hn'
    have hid := (hfine.mem_ids_iff n'.id).1 (List.mem_map_of_mem hn')
    simp only [List.mem_append] at hid
    by_cases hs : n'.id ∈ askedSymbolIds { o with granularity := .symbol } files
    · exact Or.inr (mem_askedSymbolIds hs)
    · refine Or.inl (List.mem_map.1 ((hcoarse.mem_ids_iff n'.id).2 ?_))
      simp only [List.mem_append]
      rcases hid with hid | (hid | hid) | hid
      · exact Or.inl hid
      · exact Or.inr (Or.inl (Or.inl hid))
      · exact absurd hid hs
      · exact Or.inr (Or.inr hid)
  · intro e he
    obtain ⟨e', he', hproj⟩ := exists_finer hoffers hoffers' rfl rfl (hcoarse.mem_offered he)
    obtain ⟨e'', he'', hkey⟩ := hfine.exists_key_eq (List.mem_append_right _ he')
    exact ⟨e'', he'', hproj.congr hkey rfl⟩
  · intro e' he' hkind
    -- An edge that leads from a file to its name is none of a reference.
    rcases List.mem_append.1 (hfine.mem_offered he') with hmem | hmem
    · exact absurd (kind_of_mem_askedContainsEdges hmem) hkind
    · obtain ⟨e, he, hproj⟩ := exists_coarser hoffers hoffers' rfl rfl hmem
      obtain ⟨e'', he'', hkey⟩ := hcoarse.exists_key_eq he
      exact ⟨e'', he'', hproj.congr rfl hkey⟩

/-- With names, the graph of two files refines the one without. -/
theorem refines_assemble_pair :
    (∀ f ∈ pairFindings, f.relative ∈ walkedIds pairWalk) ∧
      GraphData.Refines pairFindings
        (assemble { includeExternal := true, granularity := .symbol } "/r" pairWalk pairFindings)
        (assemble { includeExternal := true, granularity := .file } "/r" pairWalk pairFindings) :=
  ⟨by decide, refines_assemble { includeExternal := true } "/r" (by decide)⟩

end RefGraph
