import RefGraph.Proofs.Json.Records
import RefGraph.Snapshot

/-!
# Reading snapshots

The document of a graph is read as the graph itself, and whatever is read as a graph has numbers of
the machine, so that its document is read again.

* `GraphData.Fits`: the numbers of a graph are numbers of the machine.
* `GraphData.ofJson?_toJson`: the document of such a graph is read as the graph.
* `GraphData.fits_of_ofJson?`: every graph that is read is one.
-/

namespace RefGraph

open Json

/-! ## Numbers of the machine -/

/-- The line and the column of a place are numbers of 32 bits. -/
structure Location.Fits (l : Location) : Prop where
  line : l.line < UInt32.size
  column : l.column < UInt32.size

/-- The counters of a graph are numbers of 64 bits, and the places in it numbers of 32 bits. -/
structure GraphData.Fits (d : GraphData) : Prop where
  locations : ∀ e ∈ d.edges, ∀ l ∈ e.location, l.Fits
  totalFiles : d.totalFiles < UInt64.size
  ignoredCount : d.ignoredCount < UInt64.size
  externalCount : d.externalCount < UInt64.size

/-- A line or a column reads back if it has 32 bits. -/
theorem reads_place {n : Nat} (h : n < UInt32.size) : Reads readPlace (.natural n) n :=
  reads_natural "u32" (Nat.le_of_lt_succ h) (by decide)

/-- A number of files reads back if it has 64 bits. -/
theorem reads_count {n : Nat} (h : n < UInt64.size) : Reads readCount (.natural n) n :=
  reads_natural "usize" (Nat.le_of_lt_succ h) (Nat.le_refl _)

/-! ## What was written -/

/-- A member that is left out if it is absent fills in a draft if it is there. -/
theorem fills_optionalMember {σ β : Type} {fields : List (Json.Field σ)} {s : σ} {name : String}
    {get : σ → Option (Option β)} {set : σ → Option β → σ} {read : Reader β} {write : β → Json}
    {x? : Option β}
    (hfind : (fields.find? fun f => f.name = name) =
      some (Json.Field.of name false get set (readOptional read)))
    (hget : get s = none) (h : ∀ x ∈ x?, Reads read (write x) x) :
    Fills fields s (optionalMember name write x?) (x?.elim s fun x => set s (some x)) := by
  cases x? with
  | none => exact .nil s
  | some x =>
    have hgiven : (Json.Field.of name false get set (readOptional read)).isGiven s = false := by
      rw [Field.of]
      simp only [hget, Option.isSome_none]
    exact .cons hfind hgiven ((h x rfl).optional.field s) (.nil _)

/-- A location reads back. -/
theorem reads_location {l : Location} (h : l.Fits) : Reads locationShape.read l.json l :=
  Fills.reads (.cons rfl rfl ((reads_place h.line).field _)
    (.cons rfl rfl ((reads_place h.column).field _) (.nil _))) rfl

/-- A node reads back. -/
theorem reads_node (n : GraphNode) : Reads nodeShape.read n.json n := by
  have hkind : valueOfWord (NodeKind.all.map fun k => (k.word, k)) n.kind.word = .ok n.kind := by
    cases n.kind <;> rfl
  have hsymbolKind : ∀ k ∈ n.symbolKind, Reads
      (readWord (SymbolKind.all.map fun k => (k.word, k))) (.text k.word) k := by
    intro k _
    refine reads_word ?_
    cases k <;> rfl
  have hneeded : Fills nodeShape.fields nodeShape.start
      [("id", .text n.id), ("label", .text n.label), ("kind", .text n.kind.word),
        ("ignored", .boolean n.ignored)]
      { id := some n.id, label := some n.label, kind := some n.kind, ignored := some n.ignored } :=
    .cons rfl rfl ((reads_text _ _).field _) <| .cons rfl rfl ((reads_text _ _).field _) <|
      .cons rfl rfl ((reads_word hkind).field _) <| .cons rfl rfl ((reads_boolean _).field _) <|
      .nil _
  -- Whether an optional member was there or not, the next one finds its own field empty.
  refine Fills.reads (((hneeded.append (fills_optionalMember rfl rfl hsymbolKind)).append
    (fills_optionalMember rfl ?_ fun _ _ => reads_text _ _)).append
    (fills_optionalMember rfl ?_ fun _ _ => reads_text _ _)) ?_
  · cases n.symbolKind <;> rfl
  · cases n.symbolKind <;> cases n.parent <;> rfl
  · obtain ⟨id, label, kind, ignored, symbolKind, parent, displayName⟩ := n
    cases symbolKind <;> cases parent <;> cases displayName <;> rfl

/-- An edge reads back. -/
theorem reads_edge {e : GraphEdge} (h : ∀ l ∈ e.location, l.Fits) :
    Reads edgeShape.read e.json e := by
  have hkind : valueOfWord (EdgeKind.all.map fun k => (k.word, k)) e.kind.word = .ok e.kind := by
    cases e.kind <;> rfl
  have hneeded : Fills edgeShape.fields edgeShape.start
      [("id", .text e.id), ("source", .text e.source), ("target", .text e.target),
        ("kind", .text e.kind.word)]
      { id := some e.id, source := some e.source, target := some e.target, kind := some e.kind } :=
    .cons rfl rfl ((reads_text _ _).field _) <| .cons rfl rfl ((reads_text _ _).field _) <|
      .cons rfl rfl ((reads_text _ _).field _) <| .cons rfl rfl ((reads_word hkind).field _) <|
      .nil _
  refine Fills.reads ((hneeded.append
    (fills_optionalMember rfl rfl fun _ _ => reads_text _ _)).append
    (fills_optionalMember rfl ?_ fun l hl => reads_location (h l hl))) ?_
  · cases e.statement <;> rfl
  · obtain ⟨id, source, target, kind, statement, location⟩ := e
    cases statement <;> cases location <;> rfl

/-- **A graph reads back** if its numbers fit. -/
theorem reads_graph {d : GraphData} (h : d.Fits) : Reads graphShape.read d.json d := by
  have hnodes : Reads (readList nodeShape.read) (.array (d.nodes.map _)) d.nodes :=
    reads_list fun n _ => reads_node n
  have hedges := reads_list fun e he => reads_edge (h.locations e he)
  exact Fills.reads (.cons rfl rfl ((reads_text _ _).field _) <|
    .cons rfl rfl (hnodes.field _) <| .cons rfl rfl (hedges.field _) <|
    .cons rfl rfl ((reads_count h.totalFiles).field _) <|
    .cons rfl rfl ((reads_count h.ignoredCount).field _) <|
    .cons rfl rfl ((reads_count h.externalCount).field _) <| .nil _) rfl

namespace GraphData

/-- **The document of a graph is read as that graph.** -/
theorem ofJson?_toJson {d : GraphData} (h : d.Fits) : ofJson? d.toJson = .ok d := by
  have hread := reads_graph h 0 [] [] (by simp) (fun c hc => absurd hc (by simp))
  rw [List.nil_append, List.append_nil] at hread
  rw [ofJson?, toJson, String.toList_ofList, hread]
  rfl

/-- Different graphs have different documents. -/
theorem toJson_injective {d d' : GraphData} (h : d.Fits) (h' : d'.Fits)
    (heq : d.toJson = d'.toJson) : d = d' := by
  have hread := ofJson?_toJson h
  rw [heq, ofJson?_toJson h'] at hread
  exact (Except.ok.inj hread).symm

end GraphData

/-! ## What is read -/

theorem yields_place : Yields readPlace (· < UInt32.size) :=
  fun cs n rest h => Nat.lt_succ_of_le (yields_natural _ _ cs n rest h)

theorem yields_count : Yields readCount (· < UInt64.size) :=
  fun cs n rest h => Nat.lt_succ_of_le (yields_natural _ _ cs n rest h)

/-- A draft of a place whose line and column are numbers of 32 bits as far as they are known. -/
structure LocationDraft.Fits (s : LocationDraft) : Prop where
  line : ∀ n ∈ s.line, n < UInt32.size
  column : ∀ n ∈ s.column, n < UInt32.size

/-- The numbers in a location that was read fit. -/
theorem yields_location : Yields locationShape.read Location.Fits := by
  have hstart : locationShape.start.Fits := ⟨fun _ hn => (nomatch hn), fun _ hn => (nomatch hn)⟩
  refine RecordShape.yields hstart ?_ ?_
  · refine List.forall_mem_cons.2 ⟨fun s hs => yields_place.field fun n hn => ?_,
      List.forall_mem_cons.2 ⟨fun s hs => yields_place.field fun n hn => ?_,
        List.forall_mem_nil _⟩⟩
    · exact ⟨by simpa using hn, hs.column⟩
    · exact ⟨hs.line, by simpa using hn⟩
  · intro s l hs hl
    obtain ⟨line, hline, hl⟩ := Option.bind_eq_some_iff.1 hl
    obtain ⟨column, hcolumn, rfl⟩ := Option.map_eq_some_iff.1 hl
    exact ⟨hs.line line hline, hs.column column hcolumn⟩

/-- A draft of an edge whose place, if it is known, has numbers of 32 bits. -/
def EdgeDraft.Fits (s : EdgeDraft) : Prop := ∀ l? ∈ s.location, ∀ l ∈ l?, l.Fits

/-- The numbers in an edge that was read fit. -/
theorem yields_edge : Yields edgeShape.read fun e => ∀ l ∈ e.location, l.Fits := by
  have hstart : edgeShape.start.Fits := fun l? hl? => nomatch hl?
  refine RecordShape.yields hstart ?_ ?_
  · refine List.forall_mem_cons.2 ⟨fun s hs => yields_any.field fun _ _ => hs,
      List.forall_mem_cons.2 ⟨fun s hs => yields_any.field fun _ _ => hs,
      List.forall_mem_cons.2 ⟨fun s hs => yields_any.field fun _ _ => hs,
      List.forall_mem_cons.2 ⟨fun s hs => yields_any.field fun _ _ => hs,
      List.forall_mem_cons.2 ⟨fun s hs => yields_any.field fun _ _ => hs,
      List.forall_mem_cons.2 ⟨fun s hs => yields_location.optional.field fun l? hl? => ?_,
      List.forall_mem_nil _⟩⟩⟩⟩⟩⟩
    rintro _ ⟨⟩
    exact hl?
  · intro s e hs he l hl
    obtain ⟨id, -, he⟩ := Option.bind_eq_some_iff.1 he
    obtain ⟨source, -, he⟩ := Option.bind_eq_some_iff.1 he
    obtain ⟨target, -, he⟩ := Option.bind_eq_some_iff.1 he
    obtain ⟨kind, -, rfl⟩ := Option.map_eq_some_iff.1 he
    exact hs (some l) (Option.join_eq_some_iff.1 hl) l rfl

/-- A draft of a graph whose numbers are numbers of the machine as far as they are known. -/
structure GraphDraft.Fits (s : GraphDraft) : Prop where
  locations : ∀ es ∈ s.edges, ∀ e ∈ es, ∀ l ∈ e.location, l.Fits
  totalFiles : ∀ n ∈ s.totalFiles, n < UInt64.size
  ignoredCount : ∀ n ∈ s.ignoredCount, n < UInt64.size
  externalCount : ∀ n ∈ s.externalCount, n < UInt64.size

/-- The numbers in a graph that was read fit. -/
theorem yields_graph : Yields graphShape.read GraphData.Fits := by
  -- Before any member was read there is no number, so all of them fit.
  have hstart : graphShape.start.Fits :=
    ⟨fun _ hes => (nomatch hes), fun _ hn => (nomatch hn), fun _ hn => (nomatch hn),
      fun _ hn => (nomatch hn)⟩
  refine RecordShape.yields hstart ?_ ?_
  · refine List.forall_mem_cons.2 ⟨fun s hs => yields_any.field fun _ _ => ?root,
      List.forall_mem_cons.2 ⟨fun s hs => yields_any.field fun _ _ => ?nodes,
      List.forall_mem_cons.2 ⟨fun s hs => yields_edge.list.field fun es hes => ?edges,
      List.forall_mem_cons.2 ⟨fun s hs => yields_count.field fun n hn => ?totalFiles,
      List.forall_mem_cons.2 ⟨fun s hs => yields_count.field fun n hn => ?ignoredCount,
      List.forall_mem_cons.2 ⟨fun s hs => yields_count.field fun n hn => ?externalCount,
      List.forall_mem_nil _⟩⟩⟩⟩⟩⟩
    case root => exact ⟨hs.locations, hs.totalFiles, hs.ignoredCount, hs.externalCount⟩
    case nodes => exact ⟨hs.locations, hs.totalFiles, hs.ignoredCount, hs.externalCount⟩
    case edges => exact ⟨by simpa using hes, hs.totalFiles, hs.ignoredCount, hs.externalCount⟩
    case totalFiles => exact ⟨hs.locations, by simpa using hn, hs.ignoredCount, hs.externalCount⟩
    case ignoredCount => exact ⟨hs.locations, hs.totalFiles, by simpa using hn, hs.externalCount⟩
    case externalCount => exact ⟨hs.locations, hs.totalFiles, hs.ignoredCount, by simpa using hn⟩
  · intro s d hs hd
    obtain ⟨root, -, hd⟩ := Option.bind_eq_some_iff.1 hd
    obtain ⟨nodes, -, hd⟩ := Option.bind_eq_some_iff.1 hd
    obtain ⟨edges, hedges, hd⟩ := Option.bind_eq_some_iff.1 hd
    obtain ⟨totalFiles, htotalFiles, hd⟩ := Option.bind_eq_some_iff.1 hd
    obtain ⟨ignoredCount, hignoredCount, hd⟩ := Option.bind_eq_some_iff.1 hd
    obtain ⟨externalCount, hexternalCount, rfl⟩ := Option.map_eq_some_iff.1 hd
    exact ⟨hs.locations edges hedges, hs.totalFiles _ htotalFiles,
      hs.ignoredCount _ hignoredCount, hs.externalCount _ hexternalCount⟩

/-- **Every graph that is read has numbers of the machine.** -/
theorem GraphData.fits_of_ofJson? {text : String} {d : GraphData} (h : ofJson? text = .ok d) :
    d.Fits := by
  rw [ofJson?] at h
  split at h
  · cases h
  · rename_i hread
    split at h
    · rw [← Except.ok.inj h]
      exact yields_graph _ _ _ hread
    · cases h

end RefGraph
