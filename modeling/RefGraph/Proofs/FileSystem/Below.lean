import RefGraph.FileSystem.Memory
import RefGraph.Proofs.Path.Parents
import RefGraph.Proofs.Walk.Visits
import Mathlib.Data.List.Find

/-!
# What a file system shows below a root

Two file systems may show the same in a directory and below it, whatever else is in them. Trees in
memory do if they have the same files and directories there.

* `Path.Holds`: a path leads to a directory or to something below it.
* `FileSystem.AgreeBelow`: two file systems that show the same below a root.
* `FileSystem.ListsChildren`, `FileSystem.IsBounded`: what a file system promises of its listings.
* `components_of_mem_visits`: the names of a visit lead to the path of its entry.
* `Memory.agreeBelow`, `Memory.listsChildren`, `Memory.isBounded`: all this for trees in memory.
-/

namespace RefGraph

/-- A path leads to a directory or to something below it. -/
def Path.Holds (root p : Path) : Prop :=
  ∃ names : List String, p.components = root.components ++ names.map .name

theorem Path.holds_self (root : Path) : root.Holds root := ⟨[], by simp⟩

theorem Path.Holds.concat {root dir p : Path} {name : String} (h : root.Holds dir)
    (hp : p.components = dir.components ++ [.name name]) : root.Holds p := by
  obtain ⟨names, hnames⟩ := h
  exact ⟨names ++ [name], by rw [hp, hnames, List.map_append, List.append_assoc]; rfl⟩

/-- Such a path begins with the components of the directory. -/
theorem Path.Holds.isSome_below? {root p q : Path} (h : root.Holds p)
    (hq : q.components = p.components) : (root.below? q).isSome = true := by
  obtain ⟨names, hnames⟩ := h
  rw [below?, hq, hnames, if_pos (List.isPrefixOf_iff_prefix.2 (List.prefix_append ..))]
  rfl

namespace FileSystem

/-- Two file systems show the same in a directory and below it. -/
structure AgreeBelow (root : Path) (fs fs' : FileSystem) : Prop where
  list : ∀ p, root.Holds p → fs.list p = fs'.list p
  read : ∀ p, root.Holds p → fs.read p = fs'.read p
  isDir : ∀ p, root.Holds p → fs.isDir p = fs'.isDir p
  isFile : ∀ p, root.Holds p → fs.isFile p = fs'.isFile p

/-- What is listed in a directory, from a root on, is a child of that directory. -/
def ListsChildren (fs : FileSystem) (root : Path) : Prop :=
  ∀ dir, root.Holds dir → ∀ e ∈ fs.entries dir, e.path.components = dir.components ++ [.name e.name]

/-- Directories that are listed one in the other come to an end within so many levels. -/
def EndsWithin (fs : FileSystem) : Nat → Path → Prop
  | 0, _ => False
  | levels + 1, dir => ∀ e ∈ fs.entries dir, e.isDir = true → fs.EndsWithin levels e.path

/-- The bound of a file system on chains of directories holds from a root on. -/
def IsBounded (fs : FileSystem) (root : Path) : Prop := fs.EndsWithin (fs.depth + 1) root

end FileSystem

/-! ## Paths of visits -/

/-- The names of a visit lead to the path of its entry. -/
theorem components_of_mem_visitsIn {fs : FileSystem} {root : Path}
    (hlists : fs.ListsChildren root) {fuel : Nat} {dir : Path} {names : List String}
    {above : IgnoreRules} {v : Visit} (hdir : dir.components = root.components ++ names.map .name)
    (hv : v ∈ visitsIn fs fuel dir names above) :
    v.entry.path.components = root.components ++ v.names.map .name := by
  induction fuel generalizing dir names above with
  | zero => cases hv
  | succ fuel ih =>
    obtain ⟨e, he, hv⟩ := mem_visitsIn_succ.1 hv
    have hpath : e.path.components = root.components ++ (names ++ [e.name]).map .name := by
      rw [hlists dir ⟨names, hdir⟩ e he, hdir, List.map_append, List.append_assoc]
      rfl
    rcases hv with rfl | ⟨-, -, hv⟩
    · exact hpath
    · exact ih hpath hv

/-- A visit has the components of the root and its names behind them. -/
theorem components_of_mem_visits {fs : FileSystem} {root : Path} (hlists : fs.ListsChildren root)
    {v : Visit} (hv : v ∈ visits fs root) :
    v.entry.path.components = root.components ++ v.names.map .name :=
  components_of_mem_visitsIn hlists (by simp) hv

/-! ## Trees in memory -/

namespace Memory

open FileSystem

/-- An entry of a directory has one name more than the directory. -/
theorem components_of_entryIn? {dir p : Path} {isDir : Bool} {e : Entry}
    (h : entryIn? dir isDir p = some e) :
    e.path = p ∧ e.isDir = isDir ∧ p.components = dir.components ++ [.name e.name] := by
  rw [entryIn?] at h
  split at h
  · rename_i parent name hparent hname
    split at h
    · rename_i hequals
      obtain rfl := Option.some.inj h
      refine ⟨rfl, rfl, ?_⟩
      have hlast : p.components.getLast? = some (.name name) := by
        rw [Path.fileName?] at hname
        split at hname
        · rename_i hlast
          rw [hlast, Option.some.inj hname]
        · cases hname
      obtain ⟨init, hinit⟩ := List.getLast?_eq_some_iff.1 hlast
      have hdir : dir.components = init := by
        rw [← beq_iff_eq.1 hequals, Path.components_parent? hparent, hinit, List.dropLast_concat]
      rw [hdir, hinit]
    · cases h
  · cases h

/-- What an entry of a directory in a tree is made from. -/
theorem exists_of_mem_entries {m : Memory} {dir : Path} {e : Entry}
    (h : e ∈ m.fileSystem.entries dir) :
    (∃ p ∈ m.dirs, entryIn? dir true p = some e) ∨
      ∃ f ∈ m.files, entryIn? dir false f.1 = some e := by
  have hlist : m.fileSystem.list dir = m.list dir := rfl
  rw [FileSystem.entries, hlist, list] at h
  split at h
  · rename_i listed hlisted
    split at hlisted
    · obtain rfl := Except.ok.inj hlisted
      rcases List.mem_append.1 h with h | h
      · exact .inl (List.mem_filterMap.1 h)
      · exact .inr (List.mem_filterMap.1 h)
    · cases hlisted
  · cases h

theorem components_of_mem_entries {m : Memory} {dir : Path} {e : Entry}
    (h : e ∈ m.fileSystem.entries dir) : e.path.components = dir.components ++ [.name e.name] := by
  rcases exists_of_mem_entries h with ⟨p, -, hp⟩ | ⟨f, -, hf⟩
  · obtain ⟨rfl, -, hcomponents⟩ := components_of_entryIn? hp
    exact hcomponents
  · obtain ⟨hpath, -, hcomponents⟩ := components_of_entryIn? hf
    rw [hpath, hcomponents]

/-- An entry of a directory has the name of its path. -/
theorem fileName?_of_mem_entries {m : Memory} {dir : Path} {e : Entry}
    (h : e ∈ m.fileSystem.entries dir) : e.path.fileName? = some e.name := by
  rw [Path.fileName?, components_of_mem_entries h, List.getLast?_concat]

theorem listsChildren (m : Memory) (root : Path) : m.fileSystem.ListsChildren root :=
  fun _ _ _ he => components_of_mem_entries he

/-- No directory of a tree is deeper than the tree. -/
theorem length_components_le_depth {m : Memory} {p : Path} (h : p ∈ m.dirs) :
    p.components.length ≤ m.depth := by
  have hmax : ∀ (ns : List Nat) (start : Nat), start ≤ ns.foldl max start ∧
      ∀ n ∈ ns, n ≤ ns.foldl max start := by
    intro ns
    induction ns with
    | nil => exact fun start => ⟨Nat.le_refl _, by simp⟩
    | cons n ns ih =>
      intro start
      obtain ⟨hstart, hns⟩ := ih (max start n)
      refine ⟨Nat.le_trans (Nat.le_max_left ..) hstart, fun k hk => ?_⟩
      rcases List.mem_cons.1 hk with rfl | hk
      · exact Nat.le_trans (Nat.le_max_right ..) hstart
      · exact hns k hk
  exact (hmax _ 0).2 _ (List.mem_map_of_mem h)

/-- A memory has no more levels than its longest path has components. -/
theorem isBounded (m : Memory) (root : Path) : m.fileSystem.IsBounded root := by
  -- Each level adds a component, and no directory has more components than the tree is deep.
  have hends : ∀ (levels : Nat) (dir : Path), 0 < levels →
      m.depth < levels + dir.components.length → m.fileSystem.EndsWithin levels dir := by
    intro levels
    induction levels with
    | zero => exact fun dir h => absurd h (Nat.lt_irrefl 0)
    | succ levels ih =>
      intro dir _ hdepth e he hdir
      have hdeep : e.path.components.length = dir.components.length + 1 ∧
          e.path.components.length ≤ m.depth := by
        rcases exists_of_mem_entries he with ⟨p, hmem, hp⟩ | ⟨f, -, hf⟩
        · obtain ⟨rfl, -, hcomponents⟩ := components_of_entryIn? hp
          exact ⟨by rw [hcomponents, List.length_append]; rfl, length_components_le_depth hmem⟩
        · rw [(components_of_entryIn? hf).2.1] at hdir
          cases hdir
      exact ih e.path (by omega) (by omega)
  exact hends (m.depth + 1) root (Nat.succ_pos _) (by omega)

section Filter

variable {α β : Type} {xs ys : List α} {inside : α → Bool}

/-- What is looked for among certain items is found if the same items are there. -/
theorem find?_eq_of_filter {q : α → Bool} (hfilter : xs.filter inside = ys.filter inside)
    (h : ∀ x, q x = true → inside x = true) : xs.find? q = ys.find? q := by
  have hsame : ∀ zs : List α, zs.find? q = (zs.filter inside).find? q := by
    intro zs
    rw [List.find?_filter]
    refine List.find?_congr fun x _ => ?_
    rw [Bool.eq_iff_iff, decide_eq_true_iff]
    exact ⟨fun hx => ⟨h x hx, hx⟩, And.right⟩
  rw [hsame xs, hfilter, ← hsame ys]

/-- Lists that agree inside have an item with a property that only holds inside, or neither has. -/
theorem any_eq_of_filter {q : α → Bool} (hfilter : xs.filter inside = ys.filter inside)
    (h : ∀ x, q x = true → inside x = true) : xs.any q = ys.any q := by
  rw [← List.isSome_find?, ← List.isSome_find?, find?_eq_of_filter hfilter h]

/-- Lists that agree inside leave the same items if only those inside are left. -/
theorem filterMap_eq_of_filter {f : α → Option β} (hfilter : xs.filter inside = ys.filter inside)
    (h : ∀ x y, f x = some y → inside x = true) : xs.filterMap f = ys.filterMap f := by
  have hsame : ∀ zs : List α, zs.filterMap f = (zs.filter inside).filterMap f := by
    intro zs
    rw [List.filterMap_filter]
    refine List.filterMap_congr fun x _ => ?_
    cases hf : f x with
    | none => split <;> rfl
    | some y => rw [if_pos (h x y hf)]
  rw [hsame xs, hfilter, ← hsame ys]

end Filter

/-- **Trees with the same files and directories below a root show the same there.** -/
theorem agreeBelow {m m' : Memory} {root : Path}
    (hfiles : (m.files.filter fun f => (root.below? f.1).isSome) =
      m'.files.filter fun f => (root.below? f.1).isSome)
    (hdirs : (m.dirs.filter fun p => (root.below? p).isSome) =
      m'.dirs.filter fun p => (root.below? p).isSome) :
    AgreeBelow root m.fileSystem m'.fileSystem := by
  -- All that is looked for at a path below the root lies below the root.
  have hequals : ∀ p, root.Holds p → ∀ q, p.equals q = true → (root.below? q).isSome = true :=
    fun p hp q hq => hp.isSome_below? (beq_iff_eq.1 hq).symm
  have hentry : ∀ p, root.Holds p → ∀ (b : Bool) (q : Path) (e : Entry),
      entryIn? p b q = some e → (root.below? q).isSome = true :=
    fun p hp b q e he => (hp.concat (components_of_entryIn? he).2.2).isSome_below? rfl
  have hisDir : ∀ p, root.Holds p → m.isDir p = m'.isDir p :=
    fun p hp => any_eq_of_filter hdirs (hequals p hp)
  constructor
  · intro p hp
    have hd : m.dirs.filterMap (entryIn? p true) = m'.dirs.filterMap (entryIn? p true) :=
      filterMap_eq_of_filter hdirs (hentry p hp true)
    have hf : (m.files.filterMap fun f => entryIn? p false f.1) =
        m'.files.filterMap fun f => entryIn? p false f.1 :=
      filterMap_eq_of_filter hfiles fun f e => hentry p hp false f.1 e
    show m.list p = m'.list p
    rw [list, list, hisDir p hp, hd, hf]
  · intro p hp
    have hf : (m.files.find? fun f => p.equals f.1) = m'.files.find? fun f => p.equals f.1 :=
      find?_eq_of_filter hfiles fun f => hequals p hp f.1
    show m.read p = m'.read p
    rw [read, read, hf]
  · exact hisDir
  · exact fun p hp => any_eq_of_filter hfiles fun f => hequals p hp f.1

end Memory

end RefGraph
