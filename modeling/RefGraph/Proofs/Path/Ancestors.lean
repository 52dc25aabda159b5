import RefGraph.Proofs.Path.Joining

/-!
# Ancestors of paths

The ancestors of a path have its first components. Going from one parent to the next finds all of
them that are not empty, since a path is long enough for as many steps as it has components.

* `Path.IsAbove`: a path is a proper ancestor of another one.
* `Path.length_components_le`: how many components a path may have.
* `Path.exists_mem_takeWhile_ancestors_iff`: the ancestors that are found before the empty one.
-/

namespace RefGraph

theorem length_splitAtChar_le (separator : Char) (cs : List Char) :
    (splitAtChar separator cs).length ≤ cs.length + 1 := by
  induction cs with
  | nil => exact Nat.le_refl 1
  | cons c cs ih =>
    rw [splitAtChar]
    split
    · rw [List.length_cons, List.length_cons]
      omega
    · cases hparts : splitAtChar separator cs with
      | nil => exact Nat.le_add_left 1 _
      | cons part parts =>
        rw [hparts, List.length_cons] at ih
        rw [List.length_cons, List.length_cons]
        omega

namespace Path

/-- A path is a proper ancestor of another one: it has the first of its components, but not all of
them. -/
def IsAbove (q p : Path) : Prop := q.components <+: p.components ∧ q.components ≠ p.components

/-- A path has no more components than parts between slashes. A slash or a `.` at its beginning is a
component in place of the first part. -/
theorem length_componentsOfChars_le (cs : List Char) :
    (componentsOfChars cs).length ≤ (splitAtChar '/' cs).length := by
  have hlater : ∀ {part parts}, splitAtChar '/' cs = part :: parts →
      Component.ofSegment? part = none → (inner cs).length ≤ parts.length := by
    intro part parts hparts hpart
    rw [inner, hparts, List.filterMap_cons_none hpart]
    exact List.length_filterMap_le ..
  rw [componentsOfChars]
  split
  · rename_i hslash
    obtain ⟨rest, rfl⟩ := List.head?_eq_some_iff.1 hslash
    have hparts : splitAtChar '/' ('/' :: rest) = [] :: splitAtChar '/' rest := by
      rw [splitAtChar, if_pos rfl]
    rw [List.length_cons, hparts, List.length_cons, ← hparts]
    exact Nat.succ_le_succ (hlater hparts rfl)
  · split
    · rename_i hdot
      obtain ⟨parts, hparts⟩ := List.head?_eq_some_iff.1 hdot
      rw [List.length_cons, hparts, List.length_cons, ← hparts]
      exact Nat.succ_le_succ (hlater hparts rfl)
    · exact List.length_filterMap_le ..

theorem length_components_le (p : Path) : p.components.length ≤ p.text.length + 1 := by
  calc p.components.length ≤ (splitAtChar '/' p.text.toList).length :=
        length_componentsOfChars_le p.text.toList
    _ ≤ p.text.toList.length + 1 := length_splitAtChar_le ..
    _ = p.text.length + 1 := by rw [String.length_toList]

/-- An ancestor has the first components of a path, without the last one. -/
theorem components_prefix_of_mem_ancestorsUpTo {fuel : Nat} {p q : Path}
    (h : q ∈ ancestorsUpTo fuel p) : q.components <+: p.components.dropLast := by
  induction fuel generalizing p with
  | zero => exact absurd h List.not_mem_nil
  | succ fuel ih =>
    rw [ancestorsUpTo] at h
    split at h
    · exact absurd h List.not_mem_nil
    · rename_i parent hparent
      have hcomponents := components_parent? hparent
      rcases List.mem_cons.1 h with rfl | h
      · exact hcomponents ▸ List.prefix_refl _
      · rw [← hcomponents]
        exact (ih h).trans (List.dropLast_prefix _)

/-- Each beginning of the components is found, step by step from the end. -/
theorem exists_mem_ancestorsUpTo {fuel : Nat} {p : Path} {cs : List Component} (hne : cs ≠ [])
    (hbegins : cs <+: p.components) (hproper : cs ≠ p.components)
    (hfuel : p.components.length ≤ fuel + 1) :
    ∃ q ∈ (ancestorsUpTo fuel p).takeWhile fun q => q.text ≠ "", q.components = cs := by
  induction fuel generalizing p with
  | zero =>
    have hshort : cs.length ≠ p.components.length := fun h => hproper (hbegins.eq_of_length h)
    have hlength := hbegins.length_le
    have hpos := List.length_pos_of_ne_nil hne
    omega
  | succ fuel ih =>
    obtain ⟨init, last, hp⟩ := (List.eq_nil_or_concat' p.components).resolve_left
      fun hnil => hne (List.prefix_nil.1 (hnil ▸ hbegins))
    -- A proper beginning is one of the parent, so the walk goes on from there.
    have hinit : cs <+: init := by
      rw [hp] at hbegins hproper
      exact (List.prefix_concat_iff.1 hbegins).resolve_left hproper
    have hinit_ne : init ≠ [] := fun hnil => hne (List.prefix_nil.1 (hnil ▸ hinit))
    have hlast := (isInner_of_components hp hinit_ne last List.mem_cons_self).ne_root
    obtain ⟨q, hparent, hq⟩ := exists_parent?_concat hp hlast
    have htext : q.text ≠ "" := text_ne_of_components (hq ▸ hinit_ne)
    rw [ancestorsUpTo, hparent, List.takeWhile_cons_of_pos (by simpa using htext)]
    by_cases hcs : cs = q.components
    · exact ⟨q, List.mem_cons_self, hcs.symm⟩
    · have hlength : q.components.length ≤ fuel + 1 := by
        rw [hp, List.length_append, List.length_singleton, ← hq] at hfuel
        exact Nat.le_of_succ_le_succ hfuel
      obtain ⟨r, hr, hcomponents⟩ := ih (hq ▸ hinit) hcs hlength
      exact ⟨r, List.mem_cons_of_mem _ hr, hcomponents⟩

/-- **The ancestors before the empty one have all beginnings of the components**, and nothing else
is among them. -/
theorem exists_mem_takeWhile_ancestors_iff {p : Path} {cs : List Component} :
    (∃ q ∈ p.ancestors.takeWhile fun q => q.text ≠ "", q.components = cs) ↔
      cs ≠ [] ∧ cs <+: p.components ∧ cs ≠ p.components := by
  constructor
  · rintro ⟨q, hq, rfl⟩
    have hne : q.components ≠ [] := components_ne_nil (by simpa using List.mem_takeWhile_imp hq)
    have hinit := components_prefix_of_mem_ancestorsUpTo ((List.takeWhile_prefix _).subset hq)
    refine ⟨hne, hinit.trans (List.dropLast_prefix _), fun heq => ?_⟩
    have hlength := hinit.length_le
    have hpos := List.length_pos_of_ne_nil hne
    rw [heq, List.length_dropLast] at hlength
    rw [heq] at hpos
    omega
  · rintro ⟨hne, hbegins, hproper⟩
    exact exists_mem_ancestorsUpTo hne hbegins hproper (length_components_le p)

end Path

end RefGraph
