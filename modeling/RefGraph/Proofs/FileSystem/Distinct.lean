import RefGraph.Proofs.FileSystem.Below

/-!
# Each path once

A tree in memory keeps its files and its directories in the order of their paths. So no path is
there twice, and no directory lists a file twice or a directory twice. A file and a directory may
share a path.

* `Path.order_eq_compareLex`: paths are ordered by their components.
* `Memory.Distinct`: no path is there twice.
* `Memory.distinct_ofEntries`: every tree that is built up is such a tree.
* `Memory.Distinct.listsOnce`: its directories list each file and each directory once.
-/

namespace RefGraph

/-! ## The order of paths -/

namespace Component

instance : Std.OrientedCmp Component.order where
  eq_swap {a b} := by
    cases a <;> cases b <;> first | rfl | exact Std.OrientedOrd.eq_swap

instance : Std.TransCmp Component.order where
  isLE_trans {a b c} hab hbc := by
    cases a <;> cases b <;> cases c <;>
      first | rfl | contradiction | exact Std.TransOrd.isLE_trans (α := String) hab hbc

instance : Std.LawfulEqCmp Component.order where
  eq_of_compare {a b} h := by
    cases a <;> cases b <;>
      first | rfl | cases h | exact congrArg name (Std.LawfulEqOrd.eq_of_compare h)

end Component

namespace Path

/-- Components are compared one by one. -/
theorem orderComponents_eq_compareLex (as bs : List Component) :
    orderComponents as bs = as.compareLex Component.order bs := by
  induction as generalizing bs with
  | nil => cases bs <;> rfl
  | cons a as ih =>
    cases bs with
    | nil => rfl
    | cons b bs =>
      rw [orderComponents, ih, List.compareLex_cons_cons]

/-- Paths are compared by their components. -/
theorem order_eq_compareLex (p q : Path) :
    p.order q = p.components.compareLex Component.order q.components :=
  orderComponents_eq_compareLex _ _

/-- The order of paths is transitive. -/
theorem order_trans {p q r : Path} (h : p.order q = .lt) (h' : q.order r = .lt) :
    p.order r = .lt := by
  rw [order_eq_compareLex] at h h' ⊢
  exact Std.TransCmp.lt_trans h h'

theorem order_gt {p q : Path} (h : p.order q = .gt) : q.order p = .lt := by
  rw [order_eq_compareLex] at h ⊢
  exact Std.OrientedCmp.lt_of_gt h

/-- Paths of which one comes before the other differ in their components. -/
theorem components_ne_of_order {p q : Path} (h : p.order q = .lt) :
    p.components ≠ q.components := by
  intro hsame
  rw [order_eq_compareLex, hsame] at h
  cases h.symm.trans (@Std.ReflCmp.compare_self _ (List.compareLex Component.order) _ _)

end Path

/-! ## Trees that are built up -/

namespace Memory

/-- No path of a tree is there twice, neither among its files nor among its directories. -/
structure Distinct (m : Memory) : Prop where
  files : (m.files.map fun f => f.1.components).Nodup
  dirs : (m.dirs.map Path.components).Nodup

/-- Paths in their order. -/
def Sorted (ps : List Path) : Prop := ps.Pairwise fun p q => p.order q = .lt

/-- Sorted paths have components of their own. -/
theorem Sorted.nodup {ps : List Path} (h : Sorted ps) : (ps.map Path.components).Nodup :=
  List.pairwise_map.2 (h.imp Path.components_ne_of_order)

theorem mem_insertDir {p q : Path} {ps : List Path} (h : q ∈ insertDir p ps) : q = p ∨ q ∈ ps := by
  induction ps with
  | nil => exact .inl (List.mem_singleton.1 h)
  | cons r ps ih =>
    rw [insertDir] at h
    split at h
    · exact List.mem_cons.1 h
    · exact .inr h
    · rcases List.mem_cons.1 h with rfl | h
      · exact .inr List.mem_cons_self
      · exact (ih h).imp_right (List.mem_cons_of_mem r)

/-- A directory is put where it belongs. -/
theorem Sorted.insertDir {ps : List Path} (h : Sorted ps) (p : Path) :
    Sorted (Memory.insertDir p ps) := by
  induction ps with
  | nil => exact List.pairwise_singleton _ _
  | cons q ps ih =>
    obtain ⟨hq, hps⟩ := List.pairwise_cons.1 h
    rw [Memory.insertDir]
    split
    · rename_i hlt
      refine List.pairwise_cons.2 ⟨fun r hr => ?_, h⟩
      rcases List.mem_cons.1 hr with rfl | hr
      · exact hlt
      · exact Path.order_trans hlt (hq r hr)
    · exact h
    · rename_i hgt
      refine List.pairwise_cons.2 ⟨fun r hr => ?_, ih hps⟩
      rcases mem_insertDir hr with rfl | hr
      · exact Path.order_gt hgt
      · exact hq r hr

/-- So is a file: its path is put among the paths of files as a directory is among directories. -/
theorem map_fst_insertFile (p : Path) (text : String) (files : List (Path × String)) :
    (insertFile p text files).map Prod.fst = insertDir p (files.map Prod.fst) := by
  induction files with
  | nil => rfl
  | cons f files ih =>
    rw [insertFile, List.map_cons, insertDir]
    split
    · rfl
    · rfl
    · rw [List.map_cons, ih]

/-- A tree that keeps its files and directories in order. -/
structure InOrder (m : Memory) : Prop where
  files : Sorted (m.files.map Prod.fst)
  dirs : Sorted m.dirs

namespace InOrder

variable {m : Memory}

theorem addAncestors (h : m.InOrder) (p : Path) : (m.addAncestors p).InOrder where
  files := h.files
  dirs := by
    have hfold : ∀ ps dirs : List Path, Sorted dirs →
        Sorted (ps.foldl (fun dirs q => insertDir q dirs) dirs) := by
      intro ps
      induction ps with
      | nil => exact fun dirs hdirs => hdirs
      | cons q ps ih => exact fun dirs hdirs => ih _ (hdirs.insertDir q)
    exact hfold _ _ h.dirs

/-- Writing a file keeps the order. -/
theorem addFile (h : m.InOrder) (p : Path) (text : String) : (m.addFile p text).InOrder where
  files := by
    rw [Memory.addFile, map_fst_insertFile]
    exact (h.addAncestors p).files.insertDir p
  dirs := (h.addAncestors p).dirs

theorem addDir (h : m.InOrder) (p : Path) : (m.addDir p).InOrder where
  files := h.files
  dirs := (h.addAncestors p).dirs.insertDir p

/-- Where paths are in order, no two have the same components. -/
theorem distinct (h : m.InOrder) : m.Distinct where
  files := by
    have hfiles := h.files.nodup
    rwa [List.map_map] at hfiles
  dirs := h.dirs.nodup

end InOrder

/-- Whatever files and directories are added one after the other, no path is there twice. -/
theorem distinct_ofEntries (files : List (Path × String)) (dirs : List Path) :
    (ofEntries files dirs).Distinct := by
  have hfiles : ∀ m : Memory, m.InOrder →
      (files.foldl (fun m f => m.addFile f.1 f.2) m).InOrder := by
    induction files with
    | nil => exact fun m h => h
    | cons f files ih => exact fun m h => ih _ (h.addFile f.1 f.2)
  have hdirs : ∀ m : Memory, m.InOrder → (dirs.foldl addDir m).InOrder := by
    induction dirs with
    | nil => exact fun m h => h
    | cons p dirs ih => exact fun m h => ih _ (h.addDir p)
  exact (hdirs _ (hfiles {} ⟨List.Pairwise.nil, List.Pairwise.nil⟩)).distinct

end Memory

/-! ## Listings -/

/-- What tells the entries of a directory apart: their names, and whether they are directories. -/
def Entry.key (e : Entry) : String × Bool := (e.name, e.isDir)

/-- No directory lists a file twice or a directory twice. -/
def FileSystem.ListsOnce (fs : FileSystem) : Prop :=
  ∀ dir, ((fs.entries dir).map Entry.key).Nodup

/-- Entries that are made from paths without repetition are told apart by their names. -/
theorem Memory.nodup_filterMap_entryIn? {α : Type} {xs : List α} (path : α → Path)
    (h : (xs.map fun x => (path x).components).Nodup) (dir : Path) (isDir : Bool) :
    ((xs.filterMap fun x => entryIn? dir isDir (path x)).map Entry.key).Nodup := by
  rw [List.Nodup, List.pairwise_map, List.pairwise_filterMap]
  refine (List.pairwise_map.1 h).imp fun {x y} hne e he e' he' hkey => hne ?_
  obtain ⟨-, -, hx⟩ := components_of_entryIn? he
  obtain ⟨-, -, hy⟩ := components_of_entryIn? he'
  rw [hx, hy, (Prod.mk.inj hkey).1]

/-- Where no two paths have the same components, each name is listed once as a directory and once as
a file. -/
theorem Memory.Distinct.listsOnce {m : Memory} (h : m.Distinct) : m.fileSystem.ListsOnce := by
  intro dir
  have hlist : m.fileSystem.list dir = m.list dir := rfl
  rw [FileSystem.entries, hlist, Memory.list]
  by_cases hdir : m.isDir dir = true
  · rw [if_pos hdir]
    dsimp only
    rw [List.map_append, List.nodup_append]
    refine ⟨Memory.nodup_filterMap_entryIn? id h.dirs dir true,
      Memory.nodup_filterMap_entryIn? Prod.fst h.files dir false, ?_⟩
    -- A directory is not taken for a file of its name.
    rintro k hk _ hk' rfl
    obtain ⟨e, he, rfl⟩ := List.mem_map.1 hk
    obtain ⟨e', he', hkey⟩ := List.mem_map.1 hk'
    obtain ⟨p, -, hp⟩ := List.mem_filterMap.1 he
    obtain ⟨f, -, hf⟩ := List.mem_filterMap.1 he'
    have hsame := (Prod.mk.inj hkey).2
    rw [(Memory.components_of_entryIn? hp).2.1, (Memory.components_of_entryIn? hf).2.1] at hsame
    cases hsame
  · rw [if_neg hdir]
    exact List.nodup_nil

end RefGraph
