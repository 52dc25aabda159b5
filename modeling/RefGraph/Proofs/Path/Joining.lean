import RefGraph.Proofs.Path.Folding

/-!
# Paths behind one another

A relative path behind another one adds its components, whatever slashes stand between the two. So
what is left of a path behind a root leads back to that path when it is put behind the root again.

* `Path.components_join`: the components of a path behind another one.
* `Path.components_ofText`: components that are written with slashes between them are read again.
* `Path.components_join_relativeTo?`: a path and what is left of it behind a root.
-/

namespace RefGraph.Path

/-! ## Between slashes -/

/-- What can stand between two slashes: a `..` or a name. -/
def IsInner (c : Component) : Prop := c = .parent ∨ ∃ name, c = .name name ∧ IsPlainName name

/-- What is found between slashes is a name or leads to the parent. -/
theorem isInner_of_mem_inner {cs : List Char} {c : Component} (h : c ∈ inner cs) : IsInner c :=
  eq_parent_or_of_mem_filterMap h

theorem IsInner.ne_root {c : Component} (h : IsInner c) : c ≠ .root := by
  rintro rfl
  rcases h with h | ⟨name, h, -⟩ <;> cases h

theorem IsInner.ne_current {c : Component} (h : IsInner c) : c ≠ .current := by
  rintro rfl
  rcases h with h | ⟨name, h, -⟩ <;> cases h

/-- A path has a slash or a `.` at its beginning, or none of them. -/
theorem componentsOfChars_cases (cs : List Char) :
    (cs.head? = some '/' ∧ componentsOfChars cs = .root :: inner cs) ∨
      (cs.head? ≠ some '/' ∧ componentsOfChars cs = .current :: inner cs) ∨
      (cs.head? ≠ some '/' ∧ componentsOfChars cs = inner cs) := by
  unfold componentsOfChars
  by_cases hslash : cs.head? = some '/'
  · rw [if_pos hslash]
    exact .inl ⟨hslash, rfl⟩
  · rw [if_neg hslash]
    right
    by_cases hdot : (splitAtChar '/' cs).head? = some ['.']
    · rw [if_pos hdot]
      exact .inl ⟨hslash, rfl⟩
    · rw [if_neg hdot]
      exact .inr ⟨hslash, rfl⟩

/-- Behind the first component there are only such that stand between slashes. -/
theorem tail_components_suffix (p : Path) : p.components.tail <:+ inner p.text.toList := by
  rw [components]
  rcases componentsOfChars_cases p.text.toList with ⟨-, hp⟩ | ⟨-, hp⟩ | ⟨-, hp⟩
  · rw [hp]
    exact List.suffix_refl _
  · rw [hp]
    exact List.suffix_refl _
  · rw [hp]
    exact List.tail_suffix _

theorem isInner_of_components {p : Path} {before after : List Component}
    (h : p.components = before ++ after) (hne : before ≠ []) : ∀ c ∈ after, IsInner c := by
  intro c hc
  obtain ⟨first, rest, rfl⟩ := List.exists_cons_of_ne_nil hne
  refine isInner_of_mem_inner ((tail_components_suffix p).subset ?_)
  rw [h]
  exact List.mem_append_right rest hc

/-- Only the empty path has no components. -/
theorem components_ne_nil {p : Path} (h : p.text ≠ "") : p.components ≠ [] := by
  intro hnil
  have hne : p.text.toList ≠ [] := fun he => h (String.toList_eq_nil_iff.1 he)
  obtain ⟨c, cs, hcs⟩ := List.exists_cons_of_ne_nil hne
  rw [components, componentsOfChars, hcs] at hnil
  split at hnil
  · cases hnil
  rename_i hslash
  split at hnil
  · cases hnil
  rename_i hdot
  -- The first segment is not empty and no `.`, so it is a component.
  have hc : c ≠ '/' := fun he => hslash (by rw [he]; rfl)
  obtain ⟨segment, parts, hparts⟩ : ∃ segment parts,
      splitAtChar '/' (c :: cs) = (c :: segment) :: parts := by
    rw [splitAtChar, if_neg hc]
    cases splitAtChar '/' cs with
    | nil => exact ⟨[], [], rfl⟩
    | cons part parts => exact ⟨part, parts, rfl⟩
  rw [hparts] at hnil hdot
  have hnone : Component.ofSegment? (c :: segment) = none :=
    List.filterMap_eq_nil_iff.1 hnil _ List.mem_cons_self
  rw [Component.ofSegment?] at hnone
  split at hnone
  · rename_i hsegment
    rcases hsegment with hsegment | hsegment
    · cases hsegment
    · exact hdot (by rw [hsegment]; rfl)
  · split at hnone <;> cases hnone

theorem components_of_text_eq {p : Path} (h : p.text = "") : p.components = [] := by
  rw [components, h]
  rfl

theorem text_ne_of_components {p : Path} (h : p.components ≠ []) : p.text ≠ "" :=
  mt components_of_text_eq h

/-! ## Joining -/

/-- The empty path in front makes no difference. -/
theorem join_of_text_eq {p q : Path} (h : p.text = "") : p.join q = q := by
  rw [join]
  split
  · rfl
  · rw [if_pos (.inl (by rw [h]; rfl)), h, String.empty_append]

/-- The components of a relative path without the `.` at its beginning. -/
theorem filter_components {q : Path} (h : q.isAbsolute = false) :
    q.components.filter (· ≠ .current) = inner q.text.toList := by
  have hinner : (inner q.text.toList).filter (· ≠ .current) = inner q.text.toList :=
    List.filter_eq_self.2 fun c hc => by simpa using (isInner_of_mem_inner hc).ne_current
  rcases componentsOfChars_cases q.text.toList with ⟨hslash, -⟩ | ⟨-, hq⟩ | ⟨-, hq⟩
  · rw [isAbsolute, hslash] at h
    cases h
  · rw [components, hq, List.filter_cons_of_neg (by simp), hinner]
  · rw [components, hq, hinner]

/-- **A relative path behind another one adds its components**, but for a `.` at its beginning. -/
theorem components_join {p q : Path} (hp : p.text ≠ "") (hq : q.isAbsolute = false) :
    (p.join q).components = p.components ++ q.components.filter (· ≠ .current) := by
  have hne : p.text.toList ≠ [] := fun he => hp (String.toList_eq_nil_iff.1 he)
  rw [filter_components hq, join, if_neg (by simp [hq])]
  split
  · rename_i hend
    -- A slash is there already, be it the one at the beginning.
    obtain ⟨cs, hcs⟩ := List.getLast?_eq_some_iff.1 (hend.resolve_left hne)
    rw [components, components, String.toList_append, hcs, List.append_assoc,
      List.singleton_append]
    by_cases hnil : cs = []
    · subst hnil
      have hslash : ∀ rest, componentsOfChars ('/' :: rest) = .root :: inner rest := by
        intro rest
        rw [componentsOfChars, List.head?_cons, if_pos rfl, splitAtChar, if_pos rfl,
          List.filterMap_cons_none rfl, inner]
      rw [List.nil_append, List.nil_append, hslash]
      rfl
    · rw [componentsOfChars_append_slash hnil, componentsOfChars_slash hnil]
  · have htext : (p.text ++ "/" ++ q.text).toList = p.text.toList ++ '/' :: q.text.toList := by
      rw [String.toList_append, String.toList_append, List.append_assoc]
      rfl
    rw [components, components, htext, componentsOfChars_append_slash hne]

/-! ## Written components -/

/-- Such a component is read off its own text. -/
theorem IsInner.segment {c : Component} (h : IsInner c) :
    '/' ∉ c.text.toList ∧ Component.ofSegment? c.text.toList = some c ∧ c.text.toList ≠ ['.'] := by
  rcases h with rfl | ⟨name, rfl, hname⟩
  · decide
  · refine ⟨hname.slash, hname.segment, fun hdot => ?_⟩
    have hsegment := hname.segment
    rw [show name.toList = ['.'] from hdot] at hsegment
    cases hsegment

/-- The text of components with slashes between them. -/
def textOf (cs : List Component) : String := "/".intercalate (cs.map Component.text)

/-- Components are written with slashes between. -/
theorem toList_textOf (cs : List Component) :
    (textOf cs).toList = ['/'].intercalate (cs.map fun c => c.text.toList) := by
  rw [textOf, String.toList_intercalate, List.map_map]
  rfl

/-- What stands between slashes is read again as it was written. -/
theorem inner_textOf {cs : List Component} (h : ∀ c ∈ cs, IsInner c) :
    inner (textOf cs).toList = cs := by
  have hread : ∀ ds : List Component, (∀ c ∈ ds, IsInner c) →
      (ds.map fun c => c.text.toList).filterMap Component.ofSegment? = ds := by
    intro ds
    induction ds with
    | nil => exact fun _ => rfl
    | cons d ds ih =>
      intro hds
      rw [List.map_cons, List.filterMap_cons_some (hds d List.mem_cons_self).segment.2.1,
        ih fun c hc => hds c (List.mem_cons_of_mem d hc)]
  rw [inner, toList_textOf]
  by_cases hnil : cs = []
  · rw [hnil]
    rfl
  · rw [splitAtChar_intercalate (by simpa using hnil), hread cs h]
    intro part hpart
    obtain ⟨c, hc, rfl⟩ := List.mem_map.1 hpart
    exact (h c hc).segment.1

/-- A text of such components begins neither with a slash nor with a `.` of its own. -/
theorem componentsOfChars_textOf {cs : List Component} (h : ∀ c ∈ cs, IsInner c) :
    (textOf cs).toList.head? ≠ some '/' ∧ componentsOfChars (textOf cs).toList = cs := by
  cases cs with
  | nil => exact ⟨by decide, rfl⟩
  | cons c cs =>
    obtain ⟨hslash, hsegment, hdot⟩ := (h c List.mem_cons_self).segment
    obtain ⟨d, ds, hd⟩ := List.exists_cons_of_ne_nil (l := c.text.toList) fun hnil => by
      rw [hnil] at hsegment
      cases hsegment
    have hsplit : splitAtChar '/' (textOf (c :: cs)).toList =
        (c :: cs).map fun c => c.text.toList := by
      rw [toList_textOf, splitAtChar_intercalate (by simp)]
      intro part hpart
      obtain ⟨x, hx, rfl⟩ := List.mem_map.1 hpart
      exact (h x hx).segment.1
    -- A slash in front would be an empty first part, and the first component is not empty.
    have hhead : (textOf (c :: cs)).toList.head? ≠ some '/' := by
      intro hhead
      obtain ⟨rest, hrest⟩ := List.head?_eq_some_iff.1 hhead
      rw [hrest, splitAtChar, if_pos rfl, List.map_cons, hd] at hsplit
      cases hsplit
    refine ⟨hhead, ?_⟩
    have hinner := inner_textOf h
    rw [inner] at hinner
    rw [componentsOfChars, if_neg hhead, hinner, hsplit, List.map_cons, List.head?_cons,
      if_neg (by simpa using hdot)]

/-- **The components of a path are read again when they are written with slashes between them.** -/
theorem components_ofText (p : Path) : components ⟨textOf p.components⟩ = p.components := by
  have hinner : ∀ c ∈ inner p.text.toList, IsInner c := fun c hc => isInner_of_mem_inner hc
  -- A slash or a `.` at the beginning is written with a slash behind it, unless it is all there is.
  have hfirst : ∀ c : Component, c = .root ∨ c = .current →
      componentsOfChars (textOf (c :: inner p.text.toList)).toList = c :: inner p.text.toList := by
    intro c hc
    have hbefore : c.text.toList ≠ [] ∧ componentsOfChars c.text.toList = [c] := by
      rcases hc with rfl | rfl
      · decide
      · decide
    generalize inner p.text.toList = cs at hinner ⊢
    cases cs with
    | nil =>
      rw [toList_textOf, List.map_singleton, List.intercalate_singleton]
      exact hbefore.2
    | cons d ds =>
      have htext : (textOf (c :: d :: ds)).toList =
          c.text.toList ++ '/' :: (textOf (d :: ds)).toList := by
        rw [toList_textOf, toList_textOf, List.map_cons, List.map_cons, List.intercalate_cons_cons,
          List.append_assoc]
        rfl
      rw [htext, componentsOfChars_append_slash hbefore.1, hbefore.2, inner_textOf hinner]
      rfl
  show componentsOfChars (textOf p.components).toList = p.components
  rw [components]
  rcases componentsOfChars_cases p.text.toList with ⟨-, hp⟩ | ⟨-, hp⟩ | ⟨-, hp⟩
  · rw [hp]
    exact hfirst _ (.inl rfl)
  · rw [hp]
    exact hfirst _ (.inr rfl)
  · rw [hp]
    exact (componentsOfChars_textOf hinner).2

/-! ## Behind a root -/

/-- A path is relative to a root if it has the components of the root and more behind them. -/
theorem relativeTo?_eq_some_iff {root p : Path} {r : String} :
    root.relativeTo? p = some r ↔
      ∃ cs, cs ≠ [] ∧ p.components = root.components ++ cs ∧ r = textOf cs := by
  rw [relativeTo?, below?]
  constructor
  · intro h
    split at h
    · cases h
    · cases h
    · rename_i cs hnil hcs
      split at hcs
      · rename_i hprefix
        obtain ⟨ds, hds⟩ := List.isPrefixOf_iff_prefix.1 hprefix
        rw [← hds, List.drop_left] at hcs
        obtain rfl := Option.some.inj hcs
        exact ⟨ds, hnil, hds.symm, (Option.some.inj h).symm⟩
      · cases hcs
  · rintro ⟨cs, hne, hp, rfl⟩
    rw [hp, if_pos (List.isPrefixOf_iff_prefix.2 (List.prefix_append ..)), List.drop_left]
    cases cs with
    | nil => exact absurd rfl hne
    | cons c cs => rfl

/-- **What is left of a path behind a root leads back to the path** when it is put behind the
root. -/
theorem components_join_relativeTo? {root p : Path} {r : String} (h : root.relativeTo? p = some r) :
    (root.join ⟨r⟩).components = p.components := by
  obtain ⟨cs, hne, hp, rfl⟩ := relativeTo?_eq_some_iff.1 h
  by_cases hroot : root.text = ""
  · -- The empty path has no components, and what is left is the whole path.
    have hcs : cs = p.components := by rw [hp, components_of_text_eq hroot, List.nil_append]
    rw [join_of_text_eq hroot, hcs, components_ofText]
  · have hinner : ∀ d ∈ cs, IsInner d := isInner_of_components hp (components_ne_nil hroot)
    obtain ⟨hslash, htext⟩ := componentsOfChars_textOf hinner
    have hrelative : isAbsolute ⟨textOf cs⟩ = false := beq_false_of_ne hslash
    have hcomponents : components ⟨textOf cs⟩ = cs := htext
    rw [components_join hroot hrelative, hcomponents, hp, List.filter_eq_self.2]
    exact fun d hd => by simpa using (hinner d hd).ne_current

end RefGraph.Path
