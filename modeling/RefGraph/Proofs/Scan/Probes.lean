import RefGraph.Proofs.FileSystem.Below
import RefGraph.Proofs.Path.Folding
import RefGraph.Resolution

/-!
# Where a specifier is looked for

For one specifier a few paths are tried: a folded path, that path with extensions, and the index
files of the directory under it. Below a root they all lie below that root. Elsewhere none of them
does: at most one of them is the root itself.

* `probes`: the paths that are tried.
* `holds_of_mem_probes`: those of a path strictly below a root lie below it.
* `relativeTo?_of_mem_probes`: those of a path elsewhere lead to nothing below the root.
-/

namespace RefGraph

/-- The paths that are tried for a path. -/
def probes (p : Path) : List Path :=
  p :: withExtensions p ++ triedExtensions.map (indexFile p)

/-- A file that is found was tried. -/
theorem mem_probes_of_fileUnder? {fs : FileSystem} {p hit : Path} (h : fileUnder? fs p = some hit) :
    hit ∈ probes p := by
  rw [fileUnder?, Option.orElse_eq_or, Option.or_eq_some_iff] at h
  rw [probes]
  rcases h with h | ⟨-, h⟩
  · exact List.mem_append_left _ (List.mem_of_find?_eq_some h)
  · split at h
    · exact List.mem_append_right _ (List.mem_of_find?_eq_some h)
    · cases h

/-- What is found depends only on what is tried. -/
theorem fileUnder?_congr {fs fs' : FileSystem} {p : Path} (hdir : fs.isDir p = fs'.isDir p)
    (h : ∀ q ∈ probes p, fs.isFile q = fs'.isFile q) : fileUnder? fs p = fileUnder? fs' p := by
  have hfiles := List.find?_congr fun q hq => h q (List.mem_append_left _ hq)
  have hindex := List.find?_congr fun q hq => h q (List.mem_append_right _ hq)
  rw [fileUnder?, fileUnder?, hfiles, hindex, hdir]

/-! ## Names of probes -/

namespace Path

/-- Text behind a path of names belongs to the last name. -/
theorem intercalate_concat_append (names : List String) (name more : String) :
    "/".intercalate (names ++ [name ++ more]) = "/".intercalate (names ++ [name]) ++ more := by
  by_cases hnil : names = []
  · rw [hnil, List.nil_append, List.nil_append, String.intercalate_singleton,
      String.intercalate_singleton]
  · rw [String.intercalate_append_of_ne_nil hnil (by simp),
      String.intercalate_append_of_ne_nil hnil (by simp), String.intercalate_singleton,
      String.intercalate_singleton]
    simp only [String.append_assoc]

/-- An extension behind a path of names belongs to the last name. -/
theorem withExtension_ofNames (names : List String) (ext : String) :
    withExtension (ofNames true names) ext =
      ofNames true (names.dropLast ++ [names.getLast?.getD "" ++ ("." ++ ext)]) := by
  rw [withExtension, ofNames, ofNames, if_pos rfl, intercalate_concat_append, String.append_assoc,
    String.append_assoc]
  rcases List.eq_nil_or_concat' names with rfl | ⟨init, last, rfl⟩
  · rfl
  · rw [List.dropLast_concat, List.getLast?_concat]
    rfl

/-- A path of plain names does not end with a slash, unless there are no names. -/
theorem getLast?_ofNames {names : List String} (hne : names ≠ [])
    (h : ∀ name ∈ names, IsPlainName name) :
    (ofNames true names).text.toList.getLast? ≠ some '/' := by
  obtain ⟨init, last, rfl⟩ := List.eq_nil_or_concat' names |>.resolve_left hne
  have hlast := h last (by simp)
  have hnil : last.toList ≠ [] := fun he => hlast.ne_empty (String.toList_eq_nil_iff.1 he)
  have htext : (ofNames true (init ++ [last])).text =
      (ofNames true (init ++ [""])).text ++ last := by
    rw [ofNames, ofNames, String.append_assoc, ← intercalate_concat_append, String.empty_append]
  rw [htext, String.toList_append, List.getLast?_append_of_ne_nil _ hnil]
  exact fun he => hlast.slash (List.mem_of_getLast? he)

/-- A name behind a path of names is one more of them. -/
theorem join_ofNames {names : List String} (h : ∀ name ∈ names, IsPlainName name) {name : String}
    (hname : name.toList.head? ≠ some '/') :
    (ofNames true names).join ⟨name⟩ = ofNames true (names ++ [name]) := by
  have hrelative : isAbsolute ⟨name⟩ = false := beq_false_of_ne hname
  have hne : (ofNames true names).text.toList ≠ [] := by
    rw [toList_ofNames]
    exact List.cons_ne_nil _ _
  rw [join, hrelative]
  by_cases hnil : names = []
  · rw [hnil, if_neg Bool.false_ne_true, if_pos (.inr rfl), ofNames, ofNames, List.nil_append,
      String.intercalate_singleton]
    rfl
  · rw [if_neg Bool.false_ne_true, if_neg (by simp [hne, getLast?_ofNames hnil h]), ofNames,
      ofNames, String.intercalate_append_of_ne_nil hnil (by simp), String.intercalate_singleton]
    simp only [String.append_assoc]

/-- An index file has one more name. -/
theorem indexFile_ofNames {names : List String} (h : ∀ name ∈ names, IsPlainName name)
    (ext : String) :
    indexFile (ofNames true names) ext = ofNames true (names ++ ["index." ++ ext]) := by
  refine join_ofNames h ?_
  rw [String.toList_append]
  exact fun he => absurd (Option.some.inj he) (by decide)

theorem isPlainName_extended {name ext : String} (hname : '/' ∉ name.toList)
    (hext : ext ∈ triedExtensions) : IsPlainName (name ++ ("." ++ ext)) := by
  have hknown : ∀ ext ∈ triedExtensions,
      '/' ∉ ext.toList ∧ ext.toList.getLast?.any (· != '.') = true := by decide
  obtain ⟨hslash, hlast⟩ := hknown ext hext
  obtain ⟨c, hc, hdot⟩ := (Option.any_eq_true _ _).1 hlast
  have hnil : ext.toList ≠ [] := fun he => by simp [he] at hc
  refine isPlainName_of_getLast? (c := c) ?_ ?_ (by simpa using hdot)
  · simp only [String.toList_append, List.mem_append, not_or]
    exact ⟨hname, by decide, hslash⟩
  · rw [String.toList_append, String.toList_append, ← List.append_assoc,
      List.getLast?_append_of_ne_nil _ hnil, hc]

theorem isPlainName_index {ext : String} (hext : ext ∈ triedExtensions) :
    IsPlainName ("index." ++ ext) := by
  have hindex : "index." ++ ext = "index" ++ ("." ++ ext) := by
    rw [← String.append_assoc]
    rfl
  rw [hindex]
  exact isPlainName_extended (by decide) hext

/-- What is tried for a path of plain names has the same names, but for the last one, or one name
more. -/
theorem exists_names_of_mem_probes {names : List String} (h : ∀ name ∈ names, IsPlainName name)
    {q : Path} (hq : q ∈ probes (ofNames true names)) :
    ∃ names', q = ofNames true names' ∧ (∀ name ∈ names', IsPlainName name) ∧
      names.dropLast <+: names' ∧ names'.dropLast <+: names := by
  rw [probes, List.mem_append, List.mem_cons] at hq
  rcases hq with (rfl | hq) | hq
  · exact ⟨names, rfl, h, List.dropLast_prefix names, List.dropLast_prefix names⟩
  · -- An extension changes the last name.
    rw [withExtensions] at hq
    split at hq
    · cases hq
    obtain ⟨ext, hext, rfl⟩ := List.mem_map.1 hq
    refine ⟨_, withExtension_ofNames names ext, ?_, List.prefix_append .., ?_⟩
    · intro name hname
      rcases List.mem_append.1 hname with hname | hname
      · exact h name (List.dropLast_subset _ hname)
      · rw [List.mem_singleton.1 hname]
        refine isPlainName_extended ?_ hext
        cases hlast : names.getLast? with
        | none => decide
        | some last => exact (h last (List.mem_of_getLast? hlast)).slash
    · rw [List.dropLast_concat]
      exact List.dropLast_prefix names
  · -- An index file is one name more.
    obtain ⟨ext, hext, rfl⟩ := List.mem_map.1 hq
    refine ⟨_, indexFile_ofNames h ext, ?_,
      (List.dropLast_prefix names).trans (List.prefix_append ..), ?_⟩
    · intro name hname
      rcases List.mem_append.1 hname with hname | hname
      · exact h name hname
      · rw [List.mem_singleton.1 hname]
        exact isPlainName_index hext
    · exact List.dropLast_concat.symm ▸ List.prefix_refl names

end Path

/-! ## Probes and roots -/

/-- A list that another one begins with, without being the same, comes before its last item. -/
theorem prefix_dropLast {α : Type} {as bs : List α} (h : as <+: bs) (hne : as ≠ bs) :
    as <+: bs.dropLast := by
  rcases List.eq_nil_or_concat' bs with rfl | ⟨init, last, rfl⟩
  · exact h
  · rw [List.dropLast_concat]
    exact (List.prefix_concat_iff.1 h).resolve_left hne

section Root

open RefGraph.Path

variable {root : Path} {rootNames names : List String}
  (hroot : root.components = .root :: rootNames.map .name)
  (hnames : ∀ name ∈ names, IsPlainName name)

include hroot hnames

theorem holds_ofNames (h : rootNames <+: names) : root.Holds (ofNames true names) := by
  obtain ⟨more, rfl⟩ := h
  exact ⟨more, by rw [components_ofNames hnames, hroot, List.map_append]; rfl⟩

/-- An index file in a directory below a root, or in the root, lies below it. -/
theorem holds_indexFile (h : rootNames <+: names) {ext : String} (hext : ext ∈ triedExtensions) :
    root.Holds (indexFile (ofNames true names) ext) := by
  rw [indexFile_ofNames hnames]
  refine holds_ofNames hroot ?_ (h.trans (List.prefix_append ..))
  intro name hname
  rcases List.mem_append.1 hname with hname | hname
  · exact hnames name hname
  · rw [List.mem_singleton.1 hname]
    exact isPlainName_index hext

/-- What is tried for a path strictly below a root lies below that root. -/
theorem holds_of_mem_probes (h : rootNames <+: names) (hne : rootNames ≠ names) {q : Path}
    (hq : q ∈ probes (ofNames true names)) : root.Holds q := by
  obtain ⟨names', rfl, hnames', hbefore, -⟩ := exists_names_of_mem_probes hnames hq
  exact holds_ofNames hroot hnames' ((prefix_dropLast h hne).trans hbefore)

/-- What is tried for a path that does not lie below a root does not lie strictly below it. -/
theorem relativeTo?_of_mem_probes (h : ¬ rootNames <+: names) {q : Path}
    (hq : q ∈ probes (ofNames true names)) : root.relativeTo? q = none := by
  obtain ⟨names', rfl, hnames', -, hbefore⟩ := exists_names_of_mem_probes hnames hq
  by_cases hprefix : rootNames <+: names'
  · -- Only the root itself is left, and nothing is left of it behind the root.
    have hsame : rootNames = names' :=
      Classical.byContradiction fun hne => h ((prefix_dropLast hprefix hne).trans hbefore)
    have hrest : root.below? (ofNames true names') = some [] := by
      rw [below?, components_ofNames hnames', hroot, hsame]
      simp
    rw [relativeTo?, hrest]
  · have houtside : ¬ root.components.isPrefixOf (ofNames true names').components = true := by
      rw [components_ofNames hnames', hroot, List.isPrefixOf_iff_prefix, List.cons_prefix_cons]
      rintro ⟨-, hmap⟩
      exact hprefix ((List.prefix_map_iff_of_injective fun _ _ => Component.name.inj).1 hmap)
    rw [relativeTo?, below?, if_neg houtside]

end Root

end RefGraph
