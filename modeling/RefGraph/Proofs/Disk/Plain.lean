import RefGraph.Proofs.Disk.Writing
import RefGraph.Proofs.Path.Congruence
import Mathlib.Data.List.Nodup

/-!
# Disks without links

On a disk without links an absolute path without `..` leads along its names, whatever else it is
written with, to the node that is found by going from one directory to the next.

* `DiskNode.IsPlain`: a tree of files and directories without links.
* `Disk.advance_append`: slashes and dots behind names of directories make no difference.
* `Disk.node_eq_ok_of_directory`, `Disk.node_eq_ok_of_namesOf`: a directory is found under all
  paths along its names, any node under those that end with a name.
* `Disk.at?_of_node_eq_ok`: nothing else is found.
-/

namespace RefGraph

/-! ## Plain trees -/

namespace DiskNode

mutual

/-- A tree of files and directories without links. In each directory a name stands for one node, and
between slashes it stands for itself. -/
def IsPlain : DiskNode → Prop
  | file _ => True
  | link _ => False
  | directory entries => (entries.map Prod.fst).Nodup ∧ ArePlain entries

/-- Named trees of this kind. -/
def ArePlain : List (String × DiskNode) → Prop
  | [] => True
  | (name, n) :: es => Path.IsPlainName name ∧ n.IsPlain ∧ ArePlain es

end

mutual

def decidableIsPlain : (n : DiskNode) → Decidable n.IsPlain
  | file _ => inferInstanceAs (Decidable True)
  | link _ => inferInstanceAs (Decidable False)
  | directory entries =>
    have := decidableArePlain entries
    inferInstanceAs (Decidable ((entries.map Prod.fst).Nodup ∧ ArePlain entries))

def decidableArePlain : (es : List (String × DiskNode)) → Decidable (ArePlain es)
  | [] => inferInstanceAs (Decidable True)
  | (name, n) :: es =>
    have := decidableIsPlain n
    have := decidableArePlain es
    inferInstanceAs (Decidable (Path.IsPlainName name ∧ n.IsPlain ∧ ArePlain es))

end

instance (n : DiskNode) : Decidable n.IsPlain := decidableIsPlain n

theorem arePlain_iff {es : List (String × DiskNode)} :
    ArePlain es ↔ ∀ e ∈ es, Path.IsPlainName e.1 ∧ e.2.IsPlain := by
  induction es with
  | nil => simp [ArePlain]
  | cons e es ih =>
    obtain ⟨name, n⟩ := e
    rw [ArePlain, ih, List.forall_mem_cons, and_assoc]

theorem mem_of_child? {entries : List (String × DiskNode)} {name : String} {n : DiskNode}
    (h : (directory entries).child? name = some n) : (name, n) ∈ entries := by
  obtain ⟨e, he, rfl⟩ := Option.map_eq_some_iff.1 h
  have hname : e.1 = name :=
    of_decide_eq_true (List.find?_some (p := fun e : String × DiskNode => e.1 = name) he)
  rw [← hname]
  exact List.mem_of_find?_eq_some he

theorem IsPlain.of_child? {n m : DiskNode} {name : String} (h : n.IsPlain)
    (hm : n.child? name = some m) : Path.IsPlainName name ∧ m.IsPlain := by
  obtain ⟨entries, rfl⟩ := exists_eq_directory hm
  exact arePlain_iff.1 h.2 (name, m) (mem_of_child? hm)

/-- What names lead to in a plain tree is plain, and so are the names. -/
theorem IsPlain.of_at? {n m : DiskNode} {names : List String} (h : n.IsPlain)
    (hm : n.at? names = some m) : (∀ name ∈ names, Path.IsPlainName name) ∧ m.IsPlain := by
  induction names generalizing n with
  | nil =>
    obtain rfl := Option.some.inj hm
    exact ⟨by simp, h⟩
  | cons name names ih =>
    obtain ⟨c, hc, hm⟩ := Option.bind_eq_some_iff.1 hm
    obtain ⟨hname, hplain⟩ := h.of_child? hc
    obtain ⟨hnames, hresult⟩ := ih hplain hm
    exact ⟨List.forall_mem_cons.2 ⟨hname, hnames⟩, hresult⟩

/-- The nodes in a directory are those that its names stand for. -/
theorem mem_iff_child? {entries : List (String × DiskNode)} (h : (entries.map Prod.fst).Nodup)
    {name : String} {n : DiskNode} :
    (name, n) ∈ entries ↔ (directory entries).child? name = some n := by
  constructor
  · intro hmem
    have hfind : entries.find? (fun e => e.1 = name) = some (name, n) := by
      cases hfound : entries.find? (fun e => e.1 = name) with
      | none => exact absurd (decide_eq_true rfl) (List.find?_eq_none.1 hfound (name, n) hmem)
      | some e =>
        have hname : e.1 = name := of_decide_eq_true
          (List.find?_some (p := fun e : String × DiskNode => e.1 = name) hfound)
        rw [List.inj_on_of_nodup_map h (List.mem_of_find?_eq_some hfound) hmem hname]
    rw [child?, hfind]
    rfl
  · exact mem_of_child?

/-- Names before other names lead to a directory. -/
theorem exists_directory_of_at?_append {n m : DiskNode} {names more : List String}
    (hne : more ≠ []) (h : n.at? (names ++ more) = some m) :
    ∃ entries, n.at? names = some (directory entries) := by
  rw [at?_append] at h
  obtain ⟨d, hd, hm⟩ := Option.bind_eq_some_iff.1 h
  obtain ⟨name, rest, rfl⟩ := List.exists_cons_of_ne_nil hne
  obtain ⟨c, hc, -⟩ := Option.bind_eq_some_iff.1 hm
  obtain ⟨entries, rfl⟩ := exists_eq_directory hc
  exact ⟨entries, hd⟩

theorem height_le_heightOfEntries {es : List (String × DiskNode)} {e : String × DiskNode}
    (h : e ∈ es) : e.2.height ≤ heightOfEntries es := by
  induction es with
  | nil => cases h
  | cons x es ih =>
    obtain ⟨name, n⟩ := x
    rw [heightOfEntries]
    rcases List.mem_cons.1 h with rfl | h
    · exact Nat.le_max_left ..
    · exact (ih h).trans (Nat.le_max_right ..)

/-- A node in a directory has fewer levels than the directory. -/
theorem height_lt_of_child? {n m : DiskNode} {name : String} (h : n.child? name = some m) :
    m.height < n.height := by
  obtain ⟨entries, rfl⟩ := exists_eq_directory h
  rw [height]
  exact Nat.lt_succ_of_le (height_le_heightOfEntries (mem_of_child? h))

/-- What names lead to is no higher than the tree. -/
theorem height_le_of_at? {n m : DiskNode} {names : List String} (h : n.at? names = some m) :
    m.height ≤ n.height := by
  induction names generalizing n with
  | nil => rw [Option.some.inj h]
  | cons name names ih =>
    obtain ⟨c, hc, hm⟩ := Option.bind_eq_some_iff.1 h
    exact (ih hm).trans (height_lt_of_child? hc).le

end DiskNode

/-! ## Names and components -/

/-- A name between slashes is skipped, leads to the parent, or is a component. -/
theorem Component.ofSegment?_toList (name : String) : ofSegment? name.toList =
    if name = "" ∨ name = "." then none else if name = ".." then some .parent
    else some (.name name) := by
  have hempty : name.toList = [] ↔ name = "" := String.toList_eq_nil_iff
  have hdot : name.toList = ['.'] ↔ name = "." := @String.toList_inj name "."
  have hdots : name.toList = ['.', '.'] ↔ name = ".." := @String.toList_inj name ".."
  rw [ofSegment?, String.ofList_toList]
  simp only [hempty, hdot, hdots]

namespace Disk

/-- The components of names between slashes. -/
def componentsOf (names : List String) : List Component :=
  names.filterMap fun name => Component.ofSegment? name.toList

/-- The first name is the first component unless it is skipped. -/
theorem componentsOf_cons (name : String) (names : List String) : componentsOf (name :: names) =
    (Component.ofSegment? name.toList).toList ++ componentsOf names := by
  cases hof : Component.ofSegment? name.toList <;> simp [componentsOf, hof]

/-- The names of a text are its components. -/
theorem componentsOf_namesOf (text : String) :
    componentsOf (namesOf text) = Path.inner text.toList := by
  rw [componentsOf, namesOf, List.filterMap_map, Path.inner]
  exact List.filterMap_congr fun segment _ => congrArg _ String.toList_ofList

/-! ## Following names -/

/-- The names along a path that lead to another node: all but empty ones and `.`. -/
def stepsIn (names : List String) : List String := names.filter fun s => ¬ (s = "" ∨ s = ".")

theorem stepsIn_cons_of_skipped {name : String} (h : name = "" ∨ name = ".")
    (names : List String) : stepsIn (name :: names) = stepsIn names :=
  List.filter_cons_of_neg (by simpa only [decide_eq_true_eq, not_not] using h)

theorem stepsIn_cons_of_step {name : String} (h : ¬ (name = "" ∨ name = "."))
    (names : List String) : stepsIn (name :: names) = name :: stepsIn names :=
  List.filter_cons_of_pos (decide_eq_true h)

theorem stepsIn_append (names more : List String) :
    stepsIn (names ++ more) = stepsIn names ++ stepsIn more :=
  List.filter_append ..

/-- Names have names for components if `..` is not among them. -/
theorem componentsOf_eq_map_name_iff {segments names : List String} :
    componentsOf segments = names.map .name ↔ ".." ∉ segments ∧ stepsIn segments = names := by
  induction segments generalizing names with
  | nil => simp [componentsOf, stepsIn, eq_comm]
  | cons s segments ih =>
    rw [componentsOf_cons, Component.ofSegment?_toList, List.mem_cons, not_or]
    by_cases hskip : s = "" ∨ s = "."
    · have hne : ".." ≠ s := by
        rintro rfl
        exact absurd hskip (by decide)
      rw [if_pos hskip, stepsIn_cons_of_skipped hskip, and_iff_right hne]
      exact ih
    rw [if_neg hskip, stepsIn_cons_of_step hskip]
    by_cases hparent : s = ".."
    · rw [if_pos hparent]
      cases names <;> simp [hparent]
    · rw [if_neg hparent, and_iff_right (Ne.symm hparent)]
      cases names with
      | nil => simp
      | cons name names =>
        rw [List.map_cons, List.cons.injEq, ← and_left_comm, ← ih]
        simp

variable {root : DiskNode}

/-- Behind names that lead to a directory the way goes on from there. -/
theorem advance_append (h : root.IsPlain) {names : List String} (hparent : ".." ∉ names)
    {here : List String} {entries : List (String × DiskNode)}
    (hdir : root.at? (here ++ stepsIn names) = some (.directory entries)) (more : List String) :
    advance root here (names ++ more) = advance root (here ++ stepsIn names) more := by
  induction names generalizing here with
  | nil =>
    rw [stepsIn, List.filter_nil, List.append_nil]
    rfl
  | cons name names ih =>
    obtain ⟨hname, hparent⟩ := not_or.1 (mt List.mem_cons.2 hparent)
    by_cases hskip : name = "" ∨ name = "."
    · rw [stepsIn_cons_of_skipped hskip] at hdir ⊢
      obtain ⟨above, habove⟩ : ∃ above, root.at? here = some (.directory above) := by
        by_cases hnil : stepsIn names = []
        · rw [hnil, List.append_nil] at hdir
          exact ⟨entries, hdir⟩
        · exact DiskNode.exists_directory_of_at?_append hnil hdir
      rw [List.cons_append, advance_cons habove, if_pos hskip]
      exact ih hparent hdir
    · rw [stepsIn_cons_of_step hskip] at hdir ⊢
      obtain ⟨above, habove⟩ := DiskNode.exists_directory_of_at?_append (by simp) hdir
      have hbelow : here ++ name :: stepsIn names = (here ++ [name]) ++ stepsIn names := by simp
      rw [hbelow] at hdir ⊢
      -- The name stands for a node of the directory, which is no link.
      obtain ⟨n, hn⟩ : ∃ n, root.at? (here ++ [name]) = some n := by
        rw [DiskNode.at?_append] at hdir
        obtain ⟨n, hn, -⟩ := Option.bind_eq_some_iff.1 hdir
        exact ⟨n, hn⟩
      have hplain : n.IsPlain := (h.of_at? hn).2
      rw [List.cons_append, advance_cons habove, if_neg hskip, if_neg (Ne.symm hname), enter, hn]
      cases n with
      | link target => exact absurd hplain id
      | file bytes => exact ih hparent hdir
      | directory inside => exact ih hparent hdir

/-- **Without links, names lead where their components lead.** -/
theorem leads_of_advance (h : root.IsPlain) {here names : List String} {r : Reached}
    (hr : advance root here names = .ok r) :
    ∃ p, r = .place p ∧ ∀ there, p = .node there → Path.Leads here (componentsOf names) there := by
  induction names generalizing here with
  | nil =>
    obtain rfl := Except.ok.inj hr
    exact ⟨_, rfl, fun there hthere => Path.leads_nil_iff.2 (Place.node.inj hthere).symm⟩
  | cons name names ih =>
    obtain ⟨entries, hat⟩ := exists_directory_of_advance_cons hr
    rw [componentsOf_cons, Component.ofSegment?_toList]
    rw [advance_cons hat, enter] at hr
    split at hr
    · rename_i hskip
      rw [if_pos hskip]
      exact ih hr
    -- Blank names and dots are passed over, by the walk and by the components alike.
    rename_i hskip
    rw [if_neg hskip]
    split at hr
    · rename_i hparent
      rw [if_pos hparent]
      obtain ⟨p, rfl, hleads⟩ := ih hr
      exact ⟨p, rfl, fun there hthere => Path.leads_parent_iff.2 (hleads there hthere)⟩
    rename_i hparent
    rw [if_neg hparent]
    split at hr
    · obtain rfl := Except.ok.inj hr
      exact ⟨_, rfl, fun there hthere => by cases hthere⟩
    · -- A plain tree has no links to follow.
      rename_i target hlink
      exact absurd (h.of_at? hlink).2 id
    · obtain ⟨p, rfl, hleads⟩ := ih hr
      exact ⟨p, rfl, fun there hthere => Path.leads_name_iff.2 (hleads there hthere)⟩

/-- Where names lead on the way along them. -/
theorem eq_of_advance (h : root.IsPlain) {names : List String} (hparent : ".." ∉ names)
    {here : List String} {r : Reached} (hr : advance root here names = .ok r) :
    ∃ p, r = .place p ∧ ∀ there, p = .node there → there = here ++ stepsIn names := by
  obtain ⟨p, rfl, hleads⟩ := leads_of_advance h hr
  rw [componentsOf_eq_map_name_iff.2 ⟨hparent, rfl⟩] at hleads
  exact ⟨p, rfl, fun there hthere => Path.leads_map_name_iff.1 (hleads there hthere)⟩

/-! ## Paths -/

theorem isAbsolute_of_components {p : Path} {cs : List Component}
    (hp : p.components = .root :: cs) : p.isAbsolute = true :=
  Path.isAbsolute_iff_mem.2 (hp ▸ List.mem_cons_self)

/-- The components of an absolute path without `..` are the names along it. -/
theorem stepsIn_namesOf {p : Path} {names : List String}
    (hp : p.components = .root :: names.map .name) :
    p.text.toList.head? = some '/' ∧ ".." ∉ namesOf p.text ∧ stepsIn (namesOf p.text) = names := by
  have habsolute := isAbsolute_of_components hp
  rw [Path.components_of_isAbsolute habsolute, List.cons.injEq, ← componentsOf_namesOf] at hp
  exact ⟨beq_iff_eq.1 habsolute, componentsOf_eq_map_name_iff.1 hp.2⟩

/-- The absolute path of plain names has these names for its components. -/
theorem components_pathOf {names : List String} (h : ∀ name ∈ names, Path.IsPlainName name) :
    (pathOf names).components = .root :: names.map .name :=
  Path.components_ofNames h

/-- A name behind a path is its last component. -/
theorem components_join_name {p : Path} (hp : p.text ≠ "") {name : String}
    (hname : Path.IsPlainName name) :
    (p.join ⟨name⟩).components = p.components ++ [.name name] := by
  have hrelative : Path.isAbsolute ⟨name⟩ = false := by
    refine beq_false_of_ne fun hhead => hname.slash (List.mem_of_head? hhead)
  rw [Path.components_join hp hrelative, Path.filter_components hrelative]
  show _ ++ Path.inner name.toList = _
  rw [Path.inner, splitAtChar_eq_singleton hname.slash,
    List.filterMap_cons_some hname.segment, List.filterMap_nil]

/-- A name behind a path is the last one along it. -/
theorem namesOf_join {p : Path} {name : String} (hname : Path.IsPlainName name) :
    ∃ before, namesOf (p.join ⟨name⟩).text = before ++ [name] := by
  have hsplit : splitAtChar '/' name.toList = [name.toList] := splitAtChar_eq_singleton hname.slash
  have hrelative : Path.isAbsolute ⟨name⟩ = false :=
    beq_false_of_ne fun hhead => hname.slash (List.mem_of_head? hhead)
  have hbehind : ∀ cs : List Char, (splitAtChar '/' (cs ++ '/' :: name.toList)).map String.ofList =
      (splitAtChar '/' cs).map String.ofList ++ [name] := by
    intro cs
    rw [splitAtChar_append, hsplit, List.map_append, List.map_singleton, String.ofList_toList]
  rw [Path.join, if_neg (by simp [hrelative])]
  split
  · rename_i hend
    rw [namesOf, String.toList_append]
    rcases hend with hnil | hslash
    · refine ⟨[], ?_⟩
      rw [hnil, List.nil_append, hsplit, List.map_singleton, String.ofList_toList]
      rfl
    · obtain ⟨cs, hcs⟩ := List.getLast?_eq_some_iff.1 hslash
      rw [hcs, List.append_assoc]
      exact ⟨_, hbehind cs⟩
  · rw [namesOf, String.toList_append, String.toList_append, List.append_assoc]
    exact ⟨_, hbehind _⟩

section Plain

variable {d : Disk} (h : d.root.IsPlain) {p : Path} {names : List String}

include h

/-- An absolute path is followed from the root, and never over a link. -/
theorem place_eq (hp : p.isAbsolute = true) : d.place p =
    match advance d.root [] (namesOf p.text) with
    | .error e => .error e
    | .ok (.place found) => .ok found
    | .ok (.link _ _ _) => .error .tooManyLinks := by
  have hne : p.text ≠ "" := Path.text_ne_of_components
    (List.ne_nil_of_mem (Path.isAbsolute_iff_mem.1 hp))
  rw [place, if_neg hne, startOf, if_pos (beq_iff_eq.1 hp), follow]
  cases hr : advance d.root [] (namesOf p.text) with
  | error e => rfl
  | ok r =>
    obtain ⟨found, rfl, -⟩ := leads_of_advance h hr
    rfl

variable (hp : p.components = .root :: names.map .name)

include hp

/-- What a path leads to is what its names lead to. -/
theorem at?_of_node_eq_ok {n : DiskNode} (hn : d.node p = .ok n) : d.root.at? names = some n := by
  obtain ⟨-, hparent, hsteps⟩ := stepsIn_namesOf hp
  rw [node, locate, place_eq h (isAbsolute_of_components hp)] at hn
  cases hr : advance d.root [] (namesOf p.text) with
  | error e =>
    rw [hr] at hn
    cases hn
  | ok r =>
    obtain ⟨found, rfl, hfound⟩ := eq_of_advance h hparent hr
    rw [hr] at hn
    cases found with
    | absent directory name rest => cases hn
    | node there =>
      have hthere := hfound there rfl
      rw [hsteps, List.nil_append] at hthere
      rw [← hthere]
      dsimp only at hn
      cases hat : d.root.at? there with
      | none =>
        rw [hat] at hn
        cases hn
      | some m =>
        rw [hat] at hn
        rw [Except.ok.inj hn]

/-- A directory is found, however its path is written. -/
theorem node_eq_ok_of_directory {entries : List (String × DiskNode)}
    (hat : d.root.at? names = some (.directory entries)) :
    d.node p = .ok (.directory entries) := by
  obtain ⟨-, hparent, hsteps⟩ := stepsIn_namesOf hp
  have hdir : d.root.at? ([] ++ stepsIn (namesOf p.text)) = some (.directory entries) := by
    rw [hsteps]
    exact hat
  have hadvance := advance_append h hparent hdir []
  rw [List.append_nil, hsteps, List.nil_append] at hadvance
  rw [node, locate, place_eq h (isAbsolute_of_components hp), hadvance, advance]
  dsimp only
  rw [hat]
  rfl

/-- A path is a directory of a plain disk if its names lead to one. -/
theorem isDir_iff : d.isDir p = true ↔ ∃ entries, d.root.at? names = some (.directory entries) := by
  rw [isDir]
  constructor
  · intro hdir
    cases hnode : d.node p with
    | error e =>
      rw [hnode] at hdir
      cases hdir
    | ok n =>
      rw [hnode] at hdir
      cases n with
      | directory entries => exact ⟨entries, at?_of_node_eq_ok h hp hnode⟩
      | file bytes => cases hdir
      | link target => cases hdir
  · rintro ⟨entries, hat⟩
    rw [node_eq_ok_of_directory h hp hat]
    rfl

/-- A node is found under a path that ends with its name. -/
theorem node_eq_ok_of_namesOf {before : List String} {name : String}
    (hend : namesOf p.text = before ++ [name]) (hname : Path.IsPlainName name) {n : DiskNode}
    (hat : d.root.at? names = some n) : d.node p = .ok n := by
  obtain ⟨-, hparent, hsteps⟩ := stepsIn_namesOf hp
  rw [hend] at hparent hsteps
  have hskip : ¬ (name = "" ∨ name = ".") := by
    rintro (rfl | rfl)
    · exact absurd hname (by decide)
    · exact absurd hname (by decide)
  have hlast : names = stepsIn before ++ [name] := by
    rw [← hsteps, stepsIn_append, stepsIn_cons_of_step hskip]
    rfl
  have hbefore : ".." ∉ before := fun hmem => hparent (List.mem_append_left _ hmem)
  have hdots : name ≠ ".." := fun he => hparent (by simp [he])
  rw [hlast] at hat
  obtain ⟨entries, hdir⟩ := DiskNode.exists_directory_of_at?_append (by simp) hat
  have hchild : (DiskNode.directory entries).child? name = some n := by
    rw [DiskNode.at?_concat, hdir] at hat
    exact hat
  -- The names before the last one lead to a directory, and the last one is a child of it.
  have hadvance : advance d.root [] (namesOf p.text) =
      .ok (.place (.node (stepsIn before ++ [name]))) := by
    have hstart : d.root.at? ([] ++ stepsIn before) = some (.directory entries) := hdir
    rw [hend, advance_append h hbefore hstart, List.nil_append, advance, hdir]
    dsimp only
    rw [if_neg hskip, if_neg hdots, hchild]
    cases n with
    | link target => exact absurd (h.of_at? hat).2 id
    | file bytes => rfl
    | directory inside => rfl
  rw [node, locate, place_eq h (isAbsolute_of_components hp), hadvance]
  dsimp only
  rw [hat]
  rfl

end Plain

end Disk

end RefGraph
