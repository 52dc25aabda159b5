import RefGraph.Proofs.Disk.Writing
import RefGraph.Proofs.Snapshot.Reading
import RefGraph.Proofs.Utf8
import RefGraph.Snapshot.Store

/-!
# Snapshots lose nothing

Writing a graph as a snapshot and reading it back gives the graph, as a text and on a disk, for all
texts in it, all combinations of what is present and absent, and all numbers of the machine.

* `GraphData.IsWritable`: where a snapshot can be kept.
* `GraphData.load_of_isWritable`: a snapshot that was kept is read as its graph.
* `GraphData.roundTrips`: both ways between graphs and snapshots.
-/

namespace RefGraph.GraphData

/-- A file can be written under a path, once the directory for it has been made. -/
def IsWritable (disk : Disk) (p : Path) : Prop :=
  ∃ made written, makeDirectory disk p = (made, none) ∧ made.write p [] = .ok written

/-- **A snapshot that was kept on a disk is read as its graph.** -/
theorem load_of_isWritable {d : GraphData} (h : d.Fits) {disk : Disk} {p : Path}
    (hp : IsWritable disk p) :
    ∃ disk', d.save disk p = (disk', none) ∧ load disk' p = .ok d := by
  obtain ⟨made, written, hmade, hwritten⟩ := hp
  obtain ⟨disk', hwrite⟩ := Disk.exists_write_eq_ok hwritten (Utf8.encode d.toJson.toList)
  refine ⟨disk', ?_, ?_⟩
  · rw [save, hmade]
    simp only [hwrite]
  · have htext : disk'.readText p = .ok d.toJson := by
      rw [Disk.readText, Disk.bytes_of_write hwrite]
      simp only [Utf8.decode?_encode, String.ofList_toList]
    rw [load, htext]
    simp only [ofJson?_toJson h]

/-- **Graphs and snapshots.** The snapshot of a graph is read as that graph, from a disk as well,
and no other graph has the same snapshot. The graph of a snapshot, however that is written, has a
snapshot of its own that is read as the same graph and written again as it is. -/
theorem roundTrips (d : GraphData) :
    (d.Fits → ofJson? d.toJson = .ok d ∧
      (∀ d' : GraphData, d'.Fits → d'.toJson = d.toJson → d' = d) ∧
      ∀ (disk : Disk) (p : Path), IsWritable disk p →
        ∃ disk', d.save disk p = (disk', none) ∧ load disk' p = .ok d) ∧
    ∀ text, ofJson? text = .ok d → d.Fits ∧ ofJson? d.toJson = .ok d ∧
      (ofJson? d.toJson).map toJson = .ok d.toJson := by
  refine ⟨fun h => ⟨ofJson?_toJson h, fun d' h' heq => toJson_injective h' h heq,
    fun disk p hp => load_of_isWritable h hp⟩, fun text htext => ?_⟩
  have hfits := fits_of_ofJson? htext
  refine ⟨hfits, ofJson?_toJson hfits, ?_⟩
  rw [ofJson?_toJson hfits]
  rfl

/-- A graph with texts that have to be escaped, and with the greatest numbers. -/
def escapedSample : GraphData where
  root := "/a \"b\"\\\x01\x7f𝄞"
  nodes := [
    { id := "a.ts", label := "\n\t\r", kind := .code, ignored := true,
      symbolKind := none, parent := none, displayName := some "" },
    { id := "a.ts::b", label := "/", kind := .symbol, ignored := false,
      symbolKind := some .enumeration, parent := some "a.ts", displayName := none }]
  edges := [
    { id := "0", source := "a.ts", target := "a.ts", kind := .static,
      statement := some "import \"\\u0000\";", location := some ⟨UInt32.size - 1, 0⟩ }]
  totalFiles := UInt64.size - 1
  ignoredCount := 0
  externalCount := 10

/-- The sample comes back, also from a directory that has to be made first. -/
theorem roundTrips_escapedSample :
    escapedSample.Fits ∧ IsWritable {} ⟨"out/new/graph.json"⟩ ∧
      ofJson? escapedSample.toJson = .ok escapedSample ∧
      (ofJson? escapedSample.toJson).map toJson = .ok escapedSample.toJson ∧
      ∃ disk', escapedSample.save {} ⟨"out/new/graph.json"⟩ = (disk', none) ∧
        load disk' ⟨"out/new/graph.json"⟩ = .ok escapedSample := by
  have hfits : escapedSample.Fits := by
    refine ⟨?_, by decide, by decide, by decide⟩
    simp only [escapedSample, List.mem_singleton, forall_eq, Option.mem_some]
    rintro l rfl
    exact ⟨by decide, by decide⟩
  have hwritable : IsWritable {} ⟨"out/new/graph.json"⟩ := ⟨_, _, rfl, rfl⟩
  obtain ⟨hread, -, hload⟩ := (roundTrips escapedSample).1 hfits
  exact ⟨hfits, hwritable, hread, ((roundTrips escapedSample).2 _ hread).2.2, hload _ _ hwritable⟩

end RefGraph.GraphData
