import RefGraph.Proofs.Assembly.Nodes
import RefGraph.Proofs.Walk.Meaning
import RefGraph.Scan

/-!
# What a scan puts together

A scan that does not fail is the graph of its walk and of what was found in the files of the walk.

* `scan_eq_ok_iff`: when a scan gives a graph, and which.
* `scanFindings`: what is found in the files of a walk.
* `sentinelFree_scanFindings`: references lead to files, so none leads to a file that is not there.
-/

namespace RefGraph

open RefGraph.Graph

variable {fs : FileSystem} {o : Options} {root : Path}

/-- What is found in the files that a walk leaves to be analysed. -/
def scanFindings (fs : FileSystem) (o : Options) (root : Path) (w : Walk) : List FileFindings :=
  w.candidates.map (fileFindings fs root o)

/-- A scan gives a graph if the root is a directory that can be listed and the walk keeps to its
limit. -/
theorem scan_eq_ok_iff {d : GraphData} : scan fs o root = .ok d ↔
    fs.isDir root = true ∧ (∃ listed, fs.list root = .ok listed) ∧
      ∃ w, walk fs root o.maxFiles = .ok w ∧
        d = assemble o root.text w (scanFindings fs o root w) := by
  unfold scan
  by_cases hdir : fs.isDir root = true
  · rw [if_pos hdir]
    cases hlist : fs.list root with
    | error e => simp
    | ok listed =>
      cases hw : walk fs root o.maxFiles with
      | error e => simp [Except.map]
      | ok w =>
        simp only [Except.map, Except.ok.injEq, exists_eq', true_and, exists_eq_left', hdir]
        exact eq_comm
  · simp [hdir]

/-- What is found is found in files of the walk. -/
theorem relative_mem_walkedIds {w : Walk} {f : FileFindings} (h : f ∈ scanFindings fs o root w) :
    f.relative ∈ walkedIds w := by
  obtain ⟨x, hx, rfl⟩ := List.mem_map.1 h
  exact List.mem_map_of_mem (List.mem_filter.1 hx).1

/-- A reference leads to a file. -/
theorem exists_isFile_of_target {x : WalkedFile} {r : ResolvedDependency} {target : String}
    (hr : r ∈ (fileFindings fs root o x).dependencies) (ht : r.target = some target) :
    ∃ p, fs.isFile p = true ∧ root.relativeTo? p = some target := by
  obtain ⟨d, -, rfl⟩ := List.mem_map.1 hr
  obtain ⟨p, hp, hrelative⟩ := Option.bind_eq_some_iff.1 ht
  refine ⟨p, ?_, hrelative⟩
  rw [resolve?] at hp
  split at hp
  · cases hp
  split at hp
  · cases hp
  · rename_i q _
    have hhit := (Option.filter_eq_some_iff.1 hp).1
    rw [fileUnder?, Option.orElse_eq_or, Option.or_eq_some_iff] at hhit
    rcases hhit with hhit | ⟨-, hhit⟩
    · exact List.find?_some hhit
    · split at hhit
      · exact List.find?_some hhit
      · cases hhit

/-- Unless a file in the root has the identifier of the node for everything outside, no reference
leads to such a file. -/
theorem sentinelFree_scanFindings
    (h : ∀ p, fs.isFile p = true → root.relativeTo? p ≠ some externalId) (w : Walk) :
    SentinelFree (scanFindings fs o root w) := by
  intro f hf r hr ht
  obtain ⟨x, -, rfl⟩ := List.mem_map.1 hf
  obtain ⟨p, hfile, hrelative⟩ := exists_isFile_of_target hr ht
  exact h p hfile hrelative

end RefGraph
