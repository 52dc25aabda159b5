import RefGraph.Proofs.Assembly.Steps
import RefGraph.Proofs.Path.Extension

/-!
# The edges of an assembled graph

If no path has the separator that stands before exported names, the edges of a graph are determined
by the findings alone: it does not matter what was in the graph when a reference was added.

* `symbolId_inj`: a file and a name of it can be told from their identifier.
* `findingEdges`: the edges that a reference calls for, said without a graph.
* `GraphData.Shows`: what a graph shows of findings.
* `shows_assemble`: every assembled graph shows its findings.
-/

namespace RefGraph

/-! ## Identifiers of exported names -/

/-- Whether a text has the separator that stands before exported names. -/
def HasSeparator (text : String) : Prop := [':', ':'] <:+: text.toList

instance (text : String) : Decidable (HasSeparator text) :=
  inferInstanceAs (Decidable ([':', ':'] <:+: text.toList))

theorem toList_symbolId (file name : String) :
    (symbolId file name).toList = file.toList ++ ':' :: ':' :: name.toList := by
  rw [symbolId, String.toList_append, String.toList_append, List.append_assoc]
  rfl

/-- The identifier of an exported name has two colons in it. -/
theorem hasSeparator_symbolId (file name : String) : HasSeparator (symbolId file name) := by
  rw [HasSeparator, toList_symbolId]
  exact ⟨file.toList, name.toList, by simp⟩

theorem not_hasSeparator_externalId : ¬ HasSeparator externalId := by decide +kernel

/-- Two texts before separators are the same if the separators are the first ones. A text that ends
with a colon would make another separator. -/
theorem separated_inj {as bs xs ys : List Char} (has : ¬ [':', ':'] <:+: as)
    (hbs : ¬ [':', ':'] <:+: bs) (hlas : as.getLast? ≠ some ':') (hlbs : bs.getLast? ≠ some ':')
    (h : as ++ ':' :: ':' :: xs = bs ++ ':' :: ':' :: ys) : as = bs ∧ xs = ys := by
  induction as generalizing bs with
  | nil =>
    match bs, h with
    | [], h => exact ⟨rfl, by simpa using h⟩
    | [b], h =>
      -- The second text would end with the first colon.
      simp only [List.nil_append, List.cons_append, List.cons.injEq] at h
      exact absurd (by rw [← h.1]; rfl) hlbs
    | b :: c :: bs, h =>
      simp only [List.nil_append, List.cons_append, List.cons.injEq] at h
      exact absurd ⟨[], bs, by rw [← h.1, ← h.2.1]; rfl⟩ hbs
  | cons a as ih =>
    cases bs with
    | nil =>
      simp only [List.nil_append, List.cons_append, List.cons.injEq] at h
      cases as with
      | nil => exact absurd (by rw [h.1]; rfl) hlas
      | cons b as =>
        simp only [List.cons_append, List.cons.injEq] at h
        exact absurd ⟨[], as, by rw [h.1, h.2.1]; rfl⟩ has
    | cons b bs =>
      simp only [List.cons_append, List.cons.injEq] at h
      have hsub : ∀ {c : Char} {cs : List Char}, ¬ [':', ':'] <:+: c :: cs → ¬ [':', ':'] <:+: cs :=
        fun hn hs => hn (hs.trans (List.suffix_cons _ _).isInfix)
      have hlast : ∀ {c : Char} {cs : List Char}, (c :: cs).getLast? ≠ some ':' →
          cs.getLast? ≠ some ':' := by
        intro c cs hn hs
        obtain ⟨ds, rfl⟩ := List.getLast?_eq_some_iff.1 hs
        exact hn (by rw [← List.cons_append, List.getLast?_concat])
      obtain ⟨rfl, rfl⟩ := ih (hsub has) (hsub hbs) (hlast hlas) (hlast hlbs) h.2
      exact ⟨by rw [h.1], rfl⟩

/-- A file that can be analysed and a name that it exports can be told from their identifier. -/
theorem symbolId_inj {file file' name name' : String}
    (hfile : (SourceKind.ofPath? ⟨file⟩).isSome = true) (hsep : ¬ HasSeparator file)
    (hfile' : (SourceKind.ofPath? ⟨file'⟩).isSome = true) (hsep' : ¬ HasSeparator file')
    (h : symbolId file name = symbolId file' name') : file = file' ∧ name = name' := by
  have hlist := congrArg String.toList h
  rw [toList_symbolId, toList_symbolId] at hlist
  obtain ⟨h₁, h₂⟩ := separated_inj hsep hsep' (getLast?_ne_colon hfile) (getLast?_ne_colon hfile')
    hlist
  exact ⟨String.toList_inj.1 h₁, String.toList_inj.1 h₂⟩

/-! ## What findings call for -/

/-- Whether a file exports a name. -/
def exportsName (files : List FileFindings) (file name : String) : Bool :=
  files.any fun f => f.relative = file && f.symbols.any fun s => s.name = name

/-- The names that a file exports and that a reference to it imports by name. -/
def importedNames (files : List FileFindings) (file : String) (d : Dependency) : List String :=
  (d.bindings.filter fun b => b.kind ≠ .namespace && exportsName files file b.imported).map
    Binding.imported

/-- The edges that a reference calls for. One to the outside has an edge if that is asked for. One
to a file has an edge to each exported name that it imports by name, if exported names are asked
for, both files are scripts and there is such a name, and otherwise a single edge to the file. -/
def findingEdges (o : Options) (files : List FileFindings) (f : FileFindings)
    (r : ResolvedDependency) : List GraphEdge :=
  let edgeTo (target : String) (kind : EdgeKind) : GraphEdge :=
    Graph.edgeOf ⟨f.relative, target, kind, r.dependency.statement⟩ r.dependency.location
  match r.target with
  | none => if o.includeExternal then [edgeTo externalId .external] else []
  | some file =>
    let names := importedNames files file r.dependency
    if o.granularity = .symbol ∧ f.kind = .script ∧
        SourceKind.ofPath? ⟨file⟩ = some .script ∧ names ≠ [] then
      names.map fun name => edgeTo (symbolId file name) r.dependency.kind
    else if SourceKind.ofPath? ⟨file⟩ = some .style then [edgeTo file .style]
    else [edgeTo file r.dependency.kind]

/-- What a graph shows of findings. -/
structure GraphData.Shows (o : Options) (files : List FileFindings) (d : GraphData) : Prop where
  /-- Every reference to the outside is counted. -/
  externalCount_eq : d.externalCount =
    ((Graph.references files).filter fun p => p.2.target = none).length
  /-- The edges are those of the exported names that are asked for and then those of the references,
  in order; of edges of one key the first is kept, with its place. -/
  edges_eq : d.edges = firstsBy GraphEdge.key
    (Graph.askedContainsEdges o files ++
      (Graph.references files).flatMap fun p => findingEdges o files p.1 p.2)
  nodup_keys : (d.edges.map GraphEdge.key).Nodup
  /-- There is an edge of a key exactly if a reference or an exported name calls for it. -/
  mem_keys_iff : ∀ k, k ∈ d.edges.map GraphEdge.key ↔
    (∃ f ∈ files, ∃ r ∈ f.dependencies, k ∈ (findingEdges o files f r).map GraphEdge.key) ∨
      (o.granularity = .symbol ∧ ∃ f ∈ files, ∃ s ∈ f.symbols,
        k = ⟨f.relative, symbolId f.relative s.name, .contains, none⟩)
  ends_mem : ∀ e ∈ d.edges, (∃ n ∈ d.nodes, n.id = e.source) ∧ ∃ n ∈ d.nodes, n.id = e.target

/-! ## Where a reference leads -/

namespace Graph

variable {o : Options} {w : Walk} {files : List FileFindings}

theorem mem_symbolIds_iff {id : String} :
    id ∈ files.flatMap symbolIds ↔
      ∃ f ∈ files, ∃ s ∈ f.symbols, symbolId f.relative s.name = id := by
  simp only [List.mem_flatMap, symbolIds, List.mem_map]

/-- A file exports a name just if one of its symbols has it. -/
theorem exportsName_eq_true_iff {file name : String} :
    exportsName files file name = true ↔
      ∃ f ∈ files, ∃ s ∈ f.symbols, f.relative = file ∧ s.name = name := by
  simp only [exportsName, List.any_eq_true, Bool.and_eq_true, decide_eq_true_eq]
  constructor
  · rintro ⟨f, hf, hrel, s, hs, hname⟩
    exact ⟨f, hf, s, hs, hrel, hname⟩
  · rintro ⟨f, hf, s, hs, hrel, hname⟩
    exact ⟨f, hf, hrel, s, hs, hname⟩

/-- No path of a walk or of a reference has the separator. -/
structure Separated (w : Walk) (files : List FileFindings) : Prop where
  walked : ∀ x ∈ w.files.toList, ¬ HasSeparator x.relative
  targets : ∀ f ∈ files, ∀ r ∈ f.dependencies, ∀ file ∈ r.target, ¬ HasSeparator file

/-- The identifiers that references add have no separator. -/
theorem Separated.not_hasSeparator_of_mem (h : Separated w files) {rules : AssemblyRules}
    {id : String} (hid : id ∈ (references files).flatMap fun p => referenceIds rules p.2) :
    ¬ HasSeparator id := by
  obtain ⟨p, hp, hmem⟩ := List.mem_flatMap.1 hid
  obtain ⟨hf, hr⟩ := mem_references.1 hp
  unfold referenceIds at hmem
  cases ht : p.2.target with
  | some file =>
    rw [ht] at hmem
    rw [List.mem_singleton.1 hmem]
    exact h.targets p.1 hf p.2 hr file ht
  | none =>
    rw [ht] at hmem
    by_cases hext : rules.includeExternal = true
    · have hid : id = externalId := by
        simp only [if_pos hext] at hmem
        exact List.mem_singleton.1 hmem
      subst hid
      exact not_hasSeparator_externalId
    · simp only [if_neg hext] at hmem
      exact absurd hmem List.not_mem_nil

section

variable (h : Separated w files) (hwalked : ∀ f ∈ files, f.relative ∈ walkedIds w)
  (hsupported : ∀ f ∈ files, (SourceKind.ofPath? ⟨f.relative⟩).isSome = true)

include h hwalked hsupported

/-- Whatever has been added of the references, the identifiers with a separator that are there are
those of exported names. -/
theorem Separated.mem_ids_symbolId_iff (ho : o.granularity = .symbol) {rules : AssemblyRules}
    {m : Graph} (hm : Between (withoutReferences o w files)
      ((references files).flatMap fun p => referenceIds rules p.2) m)
    {file name : String} (hfile : (SourceKind.ofPath? ⟨file⟩).isSome = true)
    (hsep : ¬ HasSeparator file) :
    symbolId file name ∈ m.ids ↔ exportsName files file name = true := by
  have hbase := adds_withoutReferences o hwalked
  have hsymbols : askedSymbolIds o files = files.flatMap symbolIds := if_pos ho
  have hrelative : ∀ f ∈ files, ¬ HasSeparator f.relative := by
    intro f hf
    obtain ⟨x, hx, hrel⟩ := List.mem_map.1 (hwalked f hf)
    rw [← hrel]
    exact h.walked x hx
  rw [exportsName_eq_true_iff]
  constructor
  · intro hid
    rcases hm.mem_or_mem _ hid with hid | hid
    · rcases (hbase.mem_ids_iff _).1 hid with hid | hid
      · exact absurd hid List.not_mem_nil
      rcases List.mem_append.1 hid with hid | hid
      · -- No file of the walk has such an identifier.
        obtain ⟨x, hx, hrel⟩ := List.mem_map.1 hid
        exact absurd (hrel ▸ hasSeparator_symbolId file name) (h.walked x hx)
      · obtain ⟨f, hf, s, hs, he⟩ := mem_symbolIds_iff.1 (hsymbols ▸ hid)
        exact ⟨f, hf, s, hs, symbolId_inj (hsupported f hf) (hrelative f hf) hfile hsep he⟩
    · -- References add no identifier with a separator.
      exact absurd (hasSeparator_symbolId file name) (h.not_hasSeparator_of_mem hid)
  · rintro ⟨f, hf, s, hs, rfl, rfl⟩
    refine hm.ids_subset ((hbase.mem_ids_iff _).2 (Or.inr (List.mem_append_right _ ?_)))
    rw [hsymbols]
    exact mem_symbolIds_iff.2 ⟨f, hf, s, hs, rfl⟩

/-- The imported names that are in a graph between are those that findings say are exported. -/
theorem Separated.importedSymbols_eq (ho : o.granularity = .symbol) {rules : AssemblyRules}
    {m : Graph} (hm : Between (withoutReferences o w files)
      ((references files).flatMap fun p => referenceIds rules p.2) m)
    {file : String} (hfile : (SourceKind.ofPath? ⟨file⟩).isSome = true)
    (hsep : ¬ HasSeparator file) (d : Dependency) :
    m.importedSymbols file d = (importedNames files file d).map (symbolId file) := by
  have hsame : ∀ b : Binding, m.contains (symbolId file b.imported) =
      exportsName files file b.imported := by
    intro b
    rw [Bool.eq_iff_iff, hm.consistent.contains_iff]
    exact h.mem_ids_symbolId_iff hwalked hsupported ho hm hfile hsep
  simp only [importedSymbols, importedNames, List.map_map, hsame]
  rfl

/-- What a reference offers does not depend on the graph that decides where it leads. -/
theorem Separated.referenceEdges_eq_findingEdges {m : Graph}
    (hm : Between (withoutReferences o w files)
      ((references files).flatMap fun p => referenceIds (AssemblyRules.ofOptions o) p.2) m)
    {f : FileFindings} {r : ResolvedDependency} (hf : f ∈ files) (hr : r ∈ f.dependencies) :
    referenceEdges (AssemblyRules.ofOptions o) m f r = findingEdges o files f r := by
  unfold referenceEdges findingEdges
  cases ht : r.target with
  | none => rfl
  | some file =>
    dsimp only
    by_cases hasked : o.granularity = .symbol ∧ f.kind = .script ∧
        SourceKind.ofPath? ⟨file⟩ = some .script
    · -- A script is no stylesheet, so the kind of the reference is kept.
      have hstyle : SourceKind.ofPath? ⟨file⟩ ≠ some .style := by
        rw [hasked.2.2]
        decide
      have hkind : edgeKindTo file r.dependency.kind = r.dependency.kind := if_neg hstyle
      rw [referenceTargets_of_asked hasked, hkind, h.importedSymbols_eq hwalked hsupported hasked.1
        hm (by rw [hasked.2.2]; rfl) (h.targets f hf r hr file ht)]
      by_cases hnames : importedNames files file r.dependency = []
      · rw [hnames, if_pos (List.map_nil), if_neg fun hall => hall.2.2.2 rfl,
          if_neg hstyle]
        rfl
      · rw [if_neg fun hnil => hnames (List.map_eq_nil_iff.1 hnil),
          if_pos ⟨hasked.1, hasked.2.1, hasked.2.2, hnames⟩, List.map_map]
        rfl
    · rw [referenceTargets_of_not_asked hasked,
        if_neg fun hall => hasked ⟨hall.1, hall.2.1, hall.2.2.1⟩, List.map_singleton, edgeKindTo]
      split
      · rfl
      · rfl

end

end Graph

open RefGraph.Graph

/-- Offers that are determined by what they are for. -/
theorem flatten_eq_flatMap_of_forall₂ {α β : Type} {R : α → List β → Prop} {as : List α}
    {bss : List (List β)} (h : List.Forall₂ R as bss) {f : α → List β}
    (hf : ∀ a ∈ as, ∀ bs, R a bs → bs = f a) : bss.flatten = as.flatMap f := by
  induction h with
  | nil => rfl
  | cons hr _ ih =>
    rw [List.flatten_cons, List.flatMap_cons, hf _ List.mem_cons_self _ hr,
      ih fun a ha => hf a (List.mem_cons_of_mem _ ha)]

/-- The references to the outside are those without a target. -/
theorem externalReferences_eq (files : List FileFindings) :
    externalReferences files = ((references files).filter fun p => p.2.target = none).length := by
  induction files with
  | nil => rfl
  | cons f files ih =>
    have hcons : externalReferences (f :: files) =
        f.dependencies.countP (fun r => r.target.isNone) + externalReferences files := by
      simp only [externalReferences, List.flatMap_cons, List.countP_append]
    have hhead : f.dependencies.countP (fun r => r.target.isNone) =
        ((f.dependencies.map fun r => (f, r)).filter fun p => p.2.target = none).length := by
      rw [← List.countP_eq_length_filter, List.countP_map]
      refine List.countP_congr fun r _ => ?_
      simp [Function.comp, Option.isNone_iff_eq_none]
    rw [hcons, ih, hhead, ← List.length_append, ← List.filter_append]
    rfl

/-- The keys of the edges to exported names. -/
theorem mem_keys_askedContainsEdges_iff {o : Options} {files : List FileFindings} {k : EdgeKey} :
    k ∈ (askedContainsEdges o files).map GraphEdge.key ↔
      o.granularity = .symbol ∧ ∃ f ∈ files, ∃ s ∈ f.symbols,
        k = ⟨f.relative, symbolId f.relative s.name, .contains, none⟩ := by
  unfold askedContainsEdges
  by_cases ho : o.granularity = .symbol
  · rw [if_pos ho, List.map_flatMap, List.mem_flatMap, and_iff_right ho]
    simp only [containsEdges, List.map_map, List.mem_map, Function.comp, containsEdge, key_edgeOf,
      eq_comm]
  · rw [if_neg ho]
    exact ⟨fun hk => absurd hk List.not_mem_nil, fun h => absurd h.1 ho⟩

/-- The keys of the edges that references call for. -/
theorem mem_keys_findingEdges_iff {o : Options} {files : List FileFindings} {k : EdgeKey} :
    k ∈ ((references files).flatMap fun p => findingEdges o files p.1 p.2).map GraphEdge.key ↔
      ∃ f ∈ files, ∃ r ∈ f.dependencies, k ∈ (findingEdges o files f r).map GraphEdge.key := by
  rw [List.map_flatMap, List.mem_flatMap]
  constructor
  · rintro ⟨p, hp, hk⟩
    obtain ⟨hf, hr⟩ := mem_references.1 hp
    exact ⟨p.1, hf, p.2, hr, hk⟩
  · rintro ⟨f, hf, r, hr, hk⟩
    exact ⟨(f, r), mem_references.2 ⟨hf, hr⟩, hk⟩

/-- **No reference is lost and none is invented.** For every walk, all findings in files of the walk
that can be analysed and all options, if no path has the separator of exported names, the graph
shows the findings. -/
theorem shows_assemble (o : Options) (root : String) {w : Walk} {files : List FileFindings}
    (hwalked : ∀ f ∈ files, f.relative ∈ walkedIds w)
    (hsupported : ∀ f ∈ files, (SourceKind.ofPath? ⟨f.relative⟩).isSome = true)
    (hsep : Separated w files) : GraphData.Shows o files (assemble o root w files) := by
  obtain ⟨offers, hoffers, hadds⟩ := adds_assemble o hwalked
  have hflat : offers.flatten =
      (references files).flatMap fun p => findingEdges o files p.1 p.2 := by
    refine flatten_eq_flatMap_of_forall₂ hoffers fun p hp es hes => ?_
    obtain ⟨m, hm, rfl⟩ := hes
    obtain ⟨hf, hr⟩ := mem_references.1 hp
    exact hsep.referenceEdges_eq_findingEdges hwalked hsupported hm hf hr
  rw [hflat] at hadds
  have hedges := hadds.edges_eq
  rw [show empty.edges.toList = [] from rfl, List.nil_append] at hedges
  rw [assemble_eq_toData]
  refine ⟨externalReferences_eq files, hedges, hadds.consistent.nodup_edgeKeys, ?_, ?_⟩
  · intro k
    have hk := hadds.mem_edgeKeys_iff k
    rw [List.map_append, List.mem_append, mem_keys_askedContainsEdges_iff,
      mem_keys_findingEdges_iff] at hk
    exact ⟨fun h => ((hk.1 h).resolve_left List.not_mem_nil).symm,
      fun h => hk.2 (Or.inr h.symm)⟩
  · intro e he
    obtain ⟨hs, ht⟩ := hadds.consistent.ends_mem_ids e he
    exact ⟨List.mem_map.1 hs, List.mem_map.1 ht⟩

/-- The graph of two files shows what was found in them. -/
theorem shows_assemble_pair :
    (∀ f ∈ pairFindings, f.relative ∈ walkedIds pairWalk) ∧
      (∀ f ∈ pairFindings, (SourceKind.ofPath? ⟨f.relative⟩).isSome = true) ∧
      Separated pairWalk pairFindings ∧
      GraphData.Shows { includeExternal := true, granularity := .symbol } pairFindings
        (assemble { includeExternal := true, granularity := .symbol } "/r" pairWalk
          pairFindings) :=
  have hwalked : ∀ f ∈ pairFindings, f.relative ∈ walkedIds pairWalk := by decide
  have hsupported : ∀ f ∈ pairFindings, (SourceKind.ofPath? ⟨f.relative⟩).isSome = true := by
    decide +kernel
  have hsep : Separated pairWalk pairFindings := ⟨by decide +kernel, by decide +kernel⟩
  ⟨hwalked, hsupported, hsep, shows_assemble _ "/r" hwalked hsupported hsep⟩

end RefGraph
