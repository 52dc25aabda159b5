import RefGraph.Proofs.Path.Parents
import Mathlib.Data.List.Induction

/-!
# Folded paths

A folded path is made of plain names, so that its components can be read off the names. An absolute
path stays absolute when something is put behind it and when its last component is taken away.

* `Path.IsPlainName`: what stands between two slashes for itself.
* `Path.components_ofNames`: the components of a path made of plain names.
* `Path.exists_folded_eq`: a folded absolute path is made of plain names.
* `Path.isAbsolute_join`, `Path.isAbsolute_parent?`: paths that stay absolute.
* `Path.foldNames_append`: a path that stays inside is folded behind names as it is by itself.
-/

namespace RefGraph.Path

/-! ## Plain names -/

/-- A name that stands for itself between two slashes. -/
structure IsPlainName (name : String) : Prop where
  slash : '/' ∉ name.toList
  segment : Component.ofSegment? name.toList = some (.name name)

instance (name : String) : Decidable (IsPlainName name) :=
  decidable_of_iff ('/' ∉ name.toList ∧ Component.ofSegment? name.toList = some (.name name))
    ⟨fun h => ⟨h.1, h.2⟩, fun h => ⟨h.slash, h.segment⟩⟩

theorem IsPlainName.ne_empty {name : String} (h : IsPlainName name) : name ≠ "" := by
  rintro rfl
  cases h.segment

/-- What ends with something else than a dot is no `.` and no `..`. -/
theorem isPlainName_of_getLast? {name : String} {c : Char} (hslash : '/' ∉ name.toList)
    (hlast : name.toList.getLast? = some c) (hc : c ≠ '.') : IsPlainName name := by
  refine ⟨hslash, ?_⟩
  have hempty : name.toList ≠ [] := fun he => by simp [he] at hlast
  have hdot : name.toList ≠ ['.'] := fun he => hc (by simpa [he] using hlast.symm)
  have hdots : name.toList ≠ ['.', '.'] := fun he => hc (by simpa [he] using hlast.symm)
  rw [Component.ofSegment?, if_neg (by simp [hempty, hdot]), if_neg hdots, String.ofList_toList]

/-- What stands between slashes is a name of its own or a `..`. -/
theorem eq_parent_or_of_mem_filterMap {cs : List Char} {c : Component}
    (h : c ∈ (splitAtChar '/' cs).filterMap Component.ofSegment?) :
    c = .parent ∨ ∃ name, c = .name name ∧ IsPlainName name := by
  obtain ⟨segment, hmem, hsegment⟩ := List.mem_filterMap.1 h
  have hslash := not_mem_of_mem_splitAtChar hmem
  have hof := hsegment
  rw [Component.ofSegment?] at hof
  split at hof
  · cases hof
  split at hof
  · exact .inl (Option.some.inj hof).symm
  · refine .inr ⟨String.ofList segment, (Option.some.inj hof).symm, ?_, ?_⟩
    · rwa [String.toList_ofList]
    · rw [String.toList_ofList, hsegment, ← Option.some.inj hof]

/-- The names in a path are plain. -/
theorem isPlainName_of_mem_components {p : Path} {name : String}
    (h : Component.name name ∈ p.components) : IsPlainName name := by
  have hinner : Component.name name ∈
      (splitAtChar '/' p.text.toList).filterMap Component.ofSegment? := by
    rw [components, componentsOfChars] at h
    split at h
    · simpa using h
    split at h
    · simpa using h
    · exact h
  rcases eq_parent_or_of_mem_filterMap hinner with hp | ⟨other, hname, hplain⟩
  · cases hp
  · rwa [Component.name.inj hname]

/-! ## Absolute paths -/

/-- An absolute path begins with a slash. -/
theorem isAbsolute_iff {p : Path} : p.isAbsolute = true ↔ ∃ cs, p.text.toList = '/' :: cs := by
  rw [isAbsolute, beq_iff_eq, List.head?_eq_some_iff]

/-- Only an absolute path has a slash for a component. -/
theorem isAbsolute_iff_mem {p : Path} : p.isAbsolute = true ↔ Component.root ∈ p.components := by
  have hinner : ∀ cs, Component.root ∉ (splitAtChar '/' cs).filterMap Component.ofSegment? := by
    intro cs h
    rcases eq_parent_or_of_mem_filterMap h with he | ⟨name, he, -⟩ <;> cases he
  rw [isAbsolute, beq_iff_eq, components, componentsOfChars]
  split
  · rename_i h
    simp [h]
  · rename_i h
    split <;> simp [h, hinner]

/-- Components that are names come from a list of names. -/
theorem exists_map_name_eq {cs : List Component} (h : ∀ c ∈ cs, ∃ name, c = .name name) :
    ∃ names : List String, cs = names.map .name := by
  induction cs with
  | nil => exact ⟨[], rfl⟩
  | cons c cs ih =>
    obtain ⟨name, rfl⟩ := h c (by simp)
    obtain ⟨names, rfl⟩ := ih fun d hd => h d (List.mem_cons_of_mem _ hd)
    exact ⟨name :: names, rfl⟩

theorem map_name_inj {names names' : List String}
    (h : names.map Component.name = names'.map .name) : names = names' :=
  (List.map_inj_right fun _ _ => Component.name.inj).1 h

/-- An absolute path without `..` has names for components behind the slash. -/
theorem exists_components_eq {p : Path} (h : p.isAbsolute = true)
    (hparent : Component.parent ∉ p.components) :
    ∃ names : List String, p.components = .root :: names.map .name := by
  obtain ⟨cs, hcs⟩ := isAbsolute_iff.1 h
  have hcomponents : p.components =
      .root :: (splitAtChar '/' p.text.toList).filterMap Component.ofSegment? := by
    rw [components, componentsOfChars, hcs]
    rfl
  obtain ⟨names, heq⟩ := exists_map_name_eq fun c hc => by
    rcases eq_parent_or_of_mem_filterMap hc with rfl | ⟨name, hname, -⟩
    · exact absurd (by rw [hcomponents]; exact List.mem_cons_of_mem _ hc) hparent
    · exact ⟨name, hname⟩
  exact ⟨names, by rw [hcomponents, heq]⟩

theorem isAbsolute_join {p : Path} (h : p.isAbsolute = true) (q : Path) :
    (p.join q).isAbsolute = true := by
  obtain ⟨cs, hcs⟩ := isAbsolute_iff.1 h
  rw [join]
  split
  · assumption
  split
  · exact isAbsolute_iff.2 ⟨cs ++ q.text.toList, by simp [hcs]⟩
  · exact isAbsolute_iff.2 ⟨cs ++ '/' :: q.text.toList, by simp [hcs]⟩

/-- The slash at the beginning of a text is not removed from its end. -/
theorem getLast?_trimReversed {cs : List Char} (h : cs.getLast? = some '/') :
    (trimReversed cs).getLast? = some '/' := by
  fun_induction trimReversed cs with
  | case1 => rfl
  | case2 cs hcs ih =>
    refine ih ?_
    rwa [List.getLast?_cons_of_ne_nil] at h
    rintro rfl
    exact hcs rfl
  | case3 => rfl
  | case4 cs hcs ih =>
    refine ih ?_
    rwa [List.getLast?_cons_cons, List.getLast?_cons_of_ne_nil] at h
    rintro rfl
    exact hcs rfl
  | case5 => exact h

theorem isAbsolute_parent? {p q : Path} (h : p.isAbsolute = true) (hq : p.parent? = some q) :
    q.isAbsolute = true := by
  obtain ⟨cs, hcs⟩ := isAbsolute_iff.1 h
  rw [parent?] at hq
  split at hq
  · cases hq
  · cases hq
  · have hlast : p.text.toList.reverse.getLast? = some '/' := by simp [hcs]
    have htrimmed := getLast?_trimReversed hlast
    have hrest : (((trimReversed p.text.toList.reverse).dropWhile (· ≠ '/'))).getLast? =
        some '/' := by
      obtain ⟨ds, hds⟩ := List.getLast?_eq_some_iff.1 htrimmed
      rw [hds, List.dropWhile_append]
      split
      · rfl
      · exact List.getLast?_concat
    have hresult := getLast?_trimReversed hrest
    rw [← Option.some.inj hq, isAbsolute, String.toList_ofList, List.head?_reverse, hresult]
    rfl

/-! ## Paths of plain names -/

/-- The text of an absolute path of names. -/
theorem toList_ofNames (names : List String) :
    (ofNames true names).text.toList = '/' :: ['/'].intercalate (names.map String.toList) := by
  rw [ofNames, if_pos rfl, String.toList_append, String.toList_intercalate]
  rfl

/-- The parts of a text between slashes that were put between them. -/
theorem splitAtChar_intercalate {parts : List (List Char)} (hne : parts ≠ [])
    (h : ∀ part ∈ parts, '/' ∉ part) : splitAtChar '/' (['/'].intercalate parts) = parts := by
  induction parts with
  | nil => exact absurd rfl hne
  | cons part parts ih =>
    have hpart : splitAtChar '/' part = [part] := splitAtChar_eq_singleton (h part (by simp))
    cases parts with
    | nil => rw [List.intercalate_singleton, hpart]
    | cons next rest =>
      rw [List.intercalate_cons_cons, List.append_assoc, List.singleton_append, splitAtChar_append,
        hpart, ih (by simp) fun p hp => h p (List.mem_cons_of_mem _ hp)]
      rfl

/-- Plain names are components of their own. -/
theorem filterMap_ofSegment? {names : List String} (h : ∀ name ∈ names, IsPlainName name) :
    (names.map String.toList).filterMap Component.ofSegment? = names.map .name := by
  induction names with
  | nil => rfl
  | cons name names ih =>
    rw [List.map_cons, List.filterMap_cons_some (h name (by simp)).segment,
      ih fun n hn => h n (List.mem_cons_of_mem _ hn), List.map_cons]

/-- **A path of plain names has these names for components.** -/
theorem components_ofNames {names : List String} (h : ∀ name ∈ names, IsPlainName name) :
    (ofNames true names).components = .root :: names.map .name := by
  rw [components, toList_ofNames, componentsOfChars, List.head?_cons, if_pos rfl, splitAtChar,
    if_pos rfl, List.filterMap_cons_none rfl]
  cases names with
  | nil => rfl
  | cons name names =>
    have hparts : ∀ part ∈ (name :: names).map String.toList, '/' ∉ part := by
      intro part hpart
      obtain ⟨n, hn, rfl⟩ := List.mem_map.1 hpart
      exact (h n hn).slash
    rw [splitAtChar_intercalate (by simp) hparts, filterMap_ofSegment? h]

/-! ## Folding -/

/-- What is left of components are names among them. -/
theorem mem_of_mem_foldNames {cs : List Component} {name : String} (h : name ∈ foldNames cs) :
    Component.name name ∈ cs := by
  rw [foldNames, List.mem_reverse] at h
  revert h
  -- Each component leaves the names that are kept among those that were seen.
  refine List.foldlRecOn (motive := fun names => name ∈ names → Component.name name ∈ cs) cs _
    (fun h => absurd h List.not_mem_nil) fun names ih c hc hname => ?_
  cases c with
  | root => exact ih hname
  | current => exact ih hname
  | parent => exact ih (List.mem_of_mem_drop hname)
  | name s =>
    rcases List.mem_cons.1 hname with rfl | hname
    · exact hc
    · exact ih hname

/-- Names without `..` are all left. -/
theorem foldNames_map_name (names : List String) :
    foldNames (.root :: names.map .name) = names := by
  rw [foldNames, List.foldl_cons, List.foldl_map]
  show (names.foldl (fun acc name => name :: acc) []).reverse = names
  rw [List.foldl_flip_cons_eq_append', List.append_nil, List.reverse_reverse]

/-- **A folded absolute path is made of plain names.** -/
theorem exists_folded_eq {p : Path} (h : p.isAbsolute = true) :
    ∃ names, p.folded = ofNames true names ∧ ∀ name ∈ names, IsPlainName name :=
  ⟨foldNames p.components, by rw [folded, h],
    fun _ hname => isPlainName_of_mem_components (mem_of_mem_foldNames hname)⟩

/-! ## Paths that stay inside -/

/-- Whether components that follow so many names take away none but their own. -/
def staysInside : Nat → List Component → Bool
  | _, [] => true
  | depth, .name _ :: cs => staysInside (depth + 1) cs
  | 0, .parent :: _ => false
  | depth + 1, .parent :: cs => staysInside depth cs
  | depth, .root :: cs => staysInside depth cs
  | depth, .current :: cs => staysInside depth cs

/-- What a component makes of the names before it, of which the last one comes first. -/
def foldStep (names : List String) : Component → List String
  | .root | .current => names
  | .parent => names.drop 1
  | .name s => s :: names

theorem foldNames_eq (cs : List Component) : foldNames cs = (cs.foldl foldStep []).reverse :=
  rfl

/-- A `.` makes no difference to folding. -/
theorem foldl_foldStep_filter (cs : List Component) (names : List String) :
    (cs.filter (· ≠ .current)).foldl foldStep names = cs.foldl foldStep names := by
  induction cs generalizing names with
  | nil => rfl
  | cons c cs ih =>
    cases c with
    | current => exact ih names
    | root => exact ih names
    | parent => exact ih (names.drop 1)
    | name s => exact ih (s :: names)

/-- Names behind which a path stays inside are left as they are. -/
theorem foldl_foldStep_append {cs : List Component} (own : List String)
    (h : staysInside own.length cs = true) (before : List String) :
    cs.foldl foldStep (own ++ before) = cs.foldl foldStep own ++ before := by
  induction cs generalizing own with
  | nil => rfl
  | cons c cs ih =>
    cases c with
    | root => exact ih own h
    | current => exact ih own h
    | name s => exact ih (s :: own) h
    | parent =>
      cases own with
      | nil => cases h
      | cons s own => exact ih own h

/-- **A path that stays inside is folded behind names as it is folded by itself.** -/
theorem foldNames_append {names : List String} {cs : List Component}
    (h : staysInside 0 cs = true) :
    foldNames (.root :: names.map .name ++ cs.filter (· ≠ .current)) = names ++ foldNames cs := by
  have hnames := foldNames_map_name names
  rw [foldNames_eq] at hnames
  have hbefore : (Component.root :: names.map .name).foldl foldStep [] = names.reverse :=
    List.reverse_eq_iff.1 hnames
  have hafter := foldl_foldStep_append [] h names.reverse
  rw [List.nil_append] at hafter
  rw [foldNames_eq, foldNames_eq, List.foldl_append, hbefore, foldl_foldStep_filter, hafter,
    List.reverse_append, List.reverse_reverse]

end RefGraph.Path
