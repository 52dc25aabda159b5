import RefGraph.Proofs.Path.Joining

/-!
# Folding and joining

A folded path is made of names, behind a slash if there was one at its beginning. Folding it again
changes nothing, and it makes no difference whether a path is folded before another one is put
behind it or only afterwards. The names are those of the place to which the components lead from the
root of a tree without links.

* `Path.components_folded_eq`: the components of a folded path.
* `Path.folded_folded`, `Path.folded_join`: folding again, and folding what is joined.
* `Path.Leads`: where components lead in a tree without links.
* `Path.leads_components_iff`: an absolute path leads to the names that are left when it is folded.
-/

namespace RefGraph.Path

/-! ## What a folded path is made of -/

/-- A relative path of names is written as its components are. -/
theorem ofNames_relative (names : List String) :
    ofNames false names = ⟨textOf (names.map .name)⟩ := by
  have hnames : (names.map Component.name).map Component.text = names := by
    rw [List.map_map]
    exact List.map_id names
  rw [ofNames, textOf, hnames, if_neg Bool.false_ne_true, String.empty_append]

theorem isInner_of_mem_names {names : List String} (h : ∀ name ∈ names, IsPlainName name) :
    ∀ c ∈ names.map Component.name, IsInner c := by
  intro c hc
  obtain ⟨name, hname, rfl⟩ := List.mem_map.1 hc
  exact .inr ⟨name, rfl, h name hname⟩

/-- A path of plain names is absolute if it is said to be, and it has these names for components. -/
theorem ofNames_of_plain (absolute : Bool) {names : List String}
    (h : ∀ name ∈ names, IsPlainName name) :
    (ofNames absolute names).isAbsolute = absolute ∧ (ofNames absolute names).components =
      (if absolute then [Component.root] else []) ++ names.map .name := by
  cases absolute with
  | true => exact ⟨isAbsolute_iff.2 ⟨_, toList_ofNames names⟩, components_ofNames h⟩
  | false =>
    obtain ⟨hslash, hcomponents⟩ := componentsOfChars_textOf (isInner_of_mem_names h)
    rw [ofNames_relative]
    exact ⟨beq_false_of_ne hslash, hcomponents⟩

theorem isPlainName_of_mem_foldNames {p : Path} {name : String}
    (h : name ∈ foldNames p.components) : IsPlainName name :=
  isPlainName_of_mem_components (mem_of_mem_foldNames h)

/-- Folding keeps a path absolute or relative. -/
@[simp] theorem isAbsolute_folded (p : Path) : p.folded.isAbsolute = p.isAbsolute :=
  (ofNames_of_plain p.isAbsolute fun _ => isPlainName_of_mem_foldNames).1

/-- **A folded path has names for components**, behind the slash of an absolute one. -/
theorem components_folded_eq (p : Path) : p.folded.components =
    (if p.isAbsolute then [Component.root] else []) ++ (foldNames p.components).map .name :=
  (ofNames_of_plain p.isAbsolute fun _ => isPlainName_of_mem_foldNames).2

/-- Neither a `.` nor a `..` is left. -/
theorem ne_of_mem_components_folded {p : Path} {c : Component} (h : c ∈ p.folded.components) :
    c ≠ .current ∧ c ≠ .parent := by
  rw [components_folded_eq, List.mem_append] at h
  rcases h with h | h
  · split at h
    · rw [List.mem_singleton.1 h]
      decide
    · exact absurd h List.not_mem_nil
  · obtain ⟨name, -, rfl⟩ := List.mem_map.1 h
    exact ⟨Component.noConfusion, Component.noConfusion⟩

/-! ## Folding again -/

/-- Folding twice leaves the same names as folding once. -/
@[simp] theorem foldNames_components_folded (p : Path) :
    foldNames p.folded.components = foldNames p.components := by
  have hroot : ∀ cs, foldNames (.root :: cs) = foldNames cs := fun _ => rfl
  have hnames := foldNames_map_name (foldNames p.components)
  rw [components_folded_eq]
  split
  · exact hnames
  · rw [← hroot]
    exact hnames

/-- **Folding a folded path changes nothing.** -/
theorem folded_folded (p : Path) : p.folded.folded = p.folded := by
  rw [folded, isAbsolute_folded, foldNames_components_folded]
  rfl

/-! ## Folding what is joined -/

section Join

variable {p q : Path}

/-- A relative path does not change where the path before it begins. -/
theorem isAbsolute_join_of_relative (hq : q.isAbsolute = false) :
    (p.join q).isAbsolute = p.isAbsolute := by
  by_cases hp : p.text = ""
  · rw [join_of_text_eq hp, hq, isAbsolute, hp]
    rfl
  · rw [Bool.eq_iff_iff, isAbsolute_iff_mem, isAbsolute_iff_mem, components_join hp hq]
    have hroot : Component.root ∉ q.components := by
      rw [← isAbsolute_iff_mem, hq]
      exact Bool.false_ne_true
    simp [hroot]

/-- What is put behind a path is folded behind the names that are left of that path. -/
theorem foldNames_components_join (hq : q.isAbsolute = false) : foldNames (p.join q).components =
    (q.components.foldl foldStep (foldNames p.components).reverse).reverse := by
  by_cases hp : p.text = ""
  · rw [join_of_text_eq hp, components_of_text_eq hp]
    rfl
  · rw [components_join hp hq, foldNames_eq, foldNames_eq, List.foldl_append,
      foldl_foldStep_filter, List.reverse_reverse]

end Join

/-- **It makes no difference whether a path is folded before another one is put behind it.** -/
theorem folded_join (p q : Path) : (p.join q).folded = (p.folded.join q).folded := by
  cases hq : q.isAbsolute with
  | true => rw [join, join, if_pos hq, if_pos hq]
  | false =>
    -- Both have the same names left, and both are absolute if the first path is.
    rw [folded, folded, foldNames_components_join hq, foldNames_components_join hq,
      foldNames_components_folded, isAbsolute_join_of_relative hq, isAbsolute_join_of_relative hq,
      isAbsolute_folded]

/-! ## Where components lead -/

/-- Where components lead from a directory, in a tree without links. Directories are given by the
names that lead to them from the root, and `..` leads from the root to itself. -/
inductive Leads : List String → List Component → List String → Prop
  | stay {here} : Leads here [] here
  | root {here there cs} (h : Leads [] cs there) : Leads here (.root :: cs) there
  | current {here there cs} (h : Leads here cs there) : Leads here (.current :: cs) there
  | name {here there cs s} (h : Leads (here ++ [s]) cs there) : Leads here (.name s :: cs) there
  | parent {above there cs s} (h : Leads above cs there) :
      Leads (above ++ [s]) (.parent :: cs) there
  | parentOfRoot {there cs} (h : Leads [] cs there) : Leads [] (.parent :: cs) there

section Leads

variable {here there : List String} {cs : List Component}

theorem leads_nil_iff : Leads here [] there ↔ there = here :=
  ⟨fun h => by cases h; rfl, fun h => h ▸ .stay⟩

theorem leads_root_iff : Leads here (.root :: cs) there ↔ Leads [] cs there :=
  ⟨fun h => by cases h; assumption, .root⟩

theorem leads_name_iff {s : String} :
    Leads here (.name s :: cs) there ↔ Leads (here ++ [s]) cs there :=
  ⟨fun h => by cases h; assumption, .name⟩

/-- A `..` leads one directory up, in the root to the root. -/
theorem leads_parent_iff : Leads here (.parent :: cs) there ↔ Leads here.dropLast cs there := by
  constructor
  · intro h
    cases h with
    | parent h => rwa [List.dropLast_concat]
    | parentOfRoot h => exact h
  · intro h
    rcases List.eq_nil_or_concat' here with rfl | ⟨above, s, rfl⟩
    · exact .parentOfRoot h
    · rw [List.dropLast_concat] at h
      exact .parent h

/-- Names lead inside, one after the other. -/
theorem leads_map_name_iff {names : List String} :
    Leads here (names.map .name) there ↔ there = here ++ names := by
  induction names generalizing here with
  | nil => rw [List.map_nil, leads_nil_iff, List.append_nil]
  | cons s names ih =>
    rw [List.map_cons, leads_name_iff, ih, List.append_assoc, List.singleton_append]

/-- What stands between slashes leads to the names that it leaves when it is folded behind the names
of the directory. -/
theorem leads_iff (h : ∀ c ∈ cs, IsInner c) :
    Leads here cs there ↔ there = (cs.foldl foldStep here.reverse).reverse := by
  induction cs generalizing here with
  | nil => rw [leads_nil_iff, List.foldl_nil, List.reverse_reverse]
  | cons c cs ih =>
    obtain ⟨hc, hcs⟩ := List.forall_mem_cons.1 h
    rw [List.foldl_cons]
    rcases hc with rfl | ⟨s, rfl, -⟩
    · have habove : foldStep here.reverse .parent = here.dropLast.reverse := by
        rw [foldStep, List.drop_one, List.tail_reverse]
      rw [leads_parent_iff, habove, ih hcs]
    · have hinto : foldStep here.reverse (.name s) = (here ++ [s]).reverse := by
        rw [foldStep, List.reverse_concat]
      rw [leads_name_iff, hinto, ih hcs]

end Leads

/-- Behind the slash of an absolute path there is only what stands between slashes. -/
theorem components_of_isAbsolute {p : Path} (h : p.isAbsolute = true) :
    p.components = .root :: inner p.text.toList := by
  rw [components]
  rcases componentsOfChars_cases p.text.toList with ⟨-, hp⟩ | ⟨hslash, -⟩ | ⟨hslash, -⟩
  · exact hp
  · exact absurd (beq_iff_eq.1 h) hslash
  · exact absurd (beq_iff_eq.1 h) hslash

/-- **An absolute path leads to the names that are left when it is folded.** -/
theorem leads_components_iff {p : Path} (h : p.isAbsolute = true) {there : List String} :
    Leads [] p.components there ↔ there = foldNames p.components := by
  rw [components_of_isAbsolute h, leads_root_iff, leads_iff fun c hc => isInner_of_mem_inner hc]
  rfl

end RefGraph.Path
