import RefGraph.Path
import Mathlib.Data.List.Basic
import Mathlib.Data.List.TakeWhile

/-!
# Parents of paths

The parent of a path has the same components but the last one, whatever slashes and dots the path
is written with.

* `Path.components_trimReversed`: slashes and dots at the end make no difference.
* `Path.components_parent?`: the components of a parent.
* `Path.exists_parent?`: a path that ends with a name has one.
-/

namespace RefGraph.Path

/-! ## Components of longer texts -/

/-- The components between the slashes of a text. -/
def inner (cs : List Char) : List Component := (splitAtChar '/' cs).filterMap Component.ofSegment?

/-- Behind a slash only components between slashes follow. -/
theorem componentsOfChars_append_slash {cs : List Char} (hne : cs ≠ []) (rest : List Char) :
    componentsOfChars (cs ++ '/' :: rest) = componentsOfChars cs ++ inner rest := by
  have hinner : (splitAtChar '/' (cs ++ '/' :: rest)).filterMap Component.ofSegment? =
      (splitAtChar '/' cs).filterMap Component.ofSegment? ++ inner rest := by
    rw [splitAtChar_append, List.filterMap_append, inner]
  -- Whether there is a slash or a dot at the beginning does not depend on the end.
  have hhead : (cs ++ '/' :: rest).head? = cs.head? := by
    cases cs with
    | nil => exact absurd rfl hne
    | cons c cs => rfl
  have hfirst : (splitAtChar '/' (cs ++ '/' :: rest)).head? = (splitAtChar '/' cs).head? := by
    rw [splitAtChar_append]
    cases hparts : splitAtChar '/' cs with
    | nil => exact absurd hparts (splitAtChar_ne_nil '/' cs)
    | cons part parts => rfl
  unfold componentsOfChars
  rw [hinner, hhead, hfirst]
  split
  · rfl
  · split <;> rfl

/-- A segment is one component at most. -/
theorem componentsOfChars_append {cs segment : List Char} (hne : cs ≠ []) (h : '/' ∉ segment) :
    componentsOfChars (cs ++ '/' :: segment) =
      componentsOfChars cs ++ (Component.ofSegment? segment).toList := by
  rw [componentsOfChars_append_slash hne, inner, splitAtChar_eq_singleton h]
  cases hof : Component.ofSegment? segment <;> simp [hof]

/-- A slash at the end makes no difference, unless it is all there is. -/
theorem componentsOfChars_slash {cs : List Char} (h : cs ≠ []) :
    componentsOfChars (cs ++ ['/']) = componentsOfChars cs := by
  rw [componentsOfChars_append h List.not_mem_nil]
  exact List.append_nil _

/-- The same for a slash that may be the one at the beginning. -/
theorem componentsOfChars_segment {segment : List Char} (h : '/' ∉ segment) (cs : List Char) :
    componentsOfChars (cs ++ '/' :: segment) =
      componentsOfChars (cs ++ ['/']) ++ (Component.ofSegment? segment).toList := by
  cases cs with
  | nil =>
    have hsegment : componentsOfChars ('/' :: segment) =
        .root :: [[], segment].filterMap Component.ofSegment? := by
      rw [componentsOfChars, List.head?_cons, if_pos rfl, splitAtChar, if_pos rfl,
        splitAtChar_eq_singleton h]
    have hroot : componentsOfChars ['/'] = [.root] := rfl
    rw [List.nil_append, List.nil_append, hsegment, hroot, List.filterMap_cons_none rfl]
    cases hof : Component.ofSegment? segment <;> simp [hof]
  | cons c cs =>
    have hne : c :: cs ≠ [] := List.cons_ne_nil c cs
    rw [componentsOfChars_append hne h, componentsOfChars_slash hne]

/-- **What is removed from the end of a path makes no difference.** -/
theorem components_trimReversed (cs : List Char) :
    componentsOfChars (trimReversed cs).reverse = componentsOfChars cs.reverse := by
  fun_induction trimReversed cs with
  | case1 => rfl
  | case2 cs hcs ih =>
    have hne : cs.reverse ≠ [] := fun he => hcs (List.reverse_eq_nil_iff.1 he)
    rw [ih, List.reverse_cons, componentsOfChars_slash hne]
  | case3 => rfl
  | case4 cs hcs ih =>
    have hne : cs.reverse ≠ [] := fun he => hcs (List.reverse_eq_nil_iff.1 he)
    rw [ih, List.reverse_cons, List.reverse_cons, List.append_assoc, List.singleton_append,
      componentsOfChars_segment (by decide), componentsOfChars_slash hne]
    exact (List.append_nil _).symm
  | case5 => rfl

/-- Nothing is left to be removed afterwards. -/
theorem trimReversed_cases (cs : List Char) :
    (∀ rest, trimReversed cs = '/' :: rest → rest = []) ∧
      ∀ rest, trimReversed cs ≠ '.' :: '/' :: rest := by
  fun_induction trimReversed cs with
  | case1 => exact ⟨fun rest h => (List.cons.inj h).2.symm, by simp⟩
  | case2 cs hcs ih => exact ih
  | case3 => exact ⟨fun rest h => (List.cons.inj h).2.symm, by simp⟩
  | case4 cs hcs ih => exact ih
  | case5 cs hslash hslashes hdot hdots =>
    exact ⟨fun rest h => absurd h (hslashes rest), fun rest h => absurd h (hdots rest)⟩

/-! ## The parent -/

/-- A text without slashes has at most one component. -/
theorem dropLast_componentsOfChars {cs : List Char} (h : '/' ∉ cs) :
    (componentsOfChars cs).dropLast = [] := by
  have hhead : cs.head? ≠ some '/' := fun he => h (List.mem_of_head? he)
  rw [componentsOfChars, splitAtChar_eq_singleton h, if_neg hhead, List.head?_cons]
  split
  · rename_i hdot
    rw [Option.some.inj hdot]
    rfl
  · cases hof : Component.ofSegment? cs <;> simp [hof]

/-- The last slash of a text that is written backwards. -/
theorem reverse_eq_of_dropWhile_eq {cs rest : List Char} {c : Char}
    (h : cs.dropWhile (· ≠ '/') = c :: rest) :
    c = '/' ∧ cs.reverse = rest.reverse ++ '/' :: (cs.takeWhile (· ≠ '/')).reverse := by
  have hc : c = '/' := by
    have hnot := List.head?_dropWhile_not (· ≠ '/') cs
    rw [h] at hnot
    simpa using hnot
  have hsplit := congrArg List.reverse (List.takeWhile_append_dropWhile (p := (· ≠ '/')) (l := cs))
  rw [h, hc, List.reverse_append, List.reverse_cons, List.append_assoc] at hsplit
  exact ⟨hc, hsplit.symm⟩

/-- Behind the last slash of a text from whose end nothing can be removed there is a component,
unless the slash is all there is. -/
theorem ofSegment?_takeWhile_ne_none {cs rest : List Char}
    (hsplit : cs = cs.takeWhile (· ≠ '/') ++ '/' :: rest) (hslash : ∀ rest, cs ≠ '/' :: rest)
    (hdot : ∀ rest, cs ≠ '.' :: '/' :: rest) :
    Component.ofSegment? (cs.takeWhile (· ≠ '/')).reverse ≠ none := by
  intro hof
  rw [Component.ofSegment?] at hof
  split at hof
  · rename_i hsegment
    rcases hsegment with hnil | hone
    · rw [List.reverse_eq_nil_iff] at hnil
      rw [hnil] at hsplit
      exact hslash rest hsplit
    · rw [List.reverse_eq_iff] at hone
      rw [hone] at hsplit
      exact hdot rest hsplit
  · split at hof <;> cases hof

/-- **The parent of a path has all components but the last one.** -/
theorem components_parent? {p q : Path} (h : p.parent? = some q) :
    q.components = p.components.dropLast := by
  rw [parent?] at h
  split at h
  · cases h
  · cases h
  · rename_i hroot hlast
    have hp : p.components = componentsOfChars (trimReversed p.text.toList.reverse).reverse := by
      rw [components_trimReversed, List.reverse_reverse]
      rfl
    obtain ⟨hslash, hdot⟩ := trimReversed_cases p.text.toList.reverse
    generalize trimReversed p.text.toList.reverse = cs at h hp hslash hdot
    have hq : q.components = componentsOfChars (cs.dropWhile (· ≠ '/')).reverse := by
      rw [← Option.some.inj h, components, String.toList_ofList, components_trimReversed]
    have htake : '/' ∉ (cs.takeWhile (· ≠ '/')).reverse := by
      intro hmem
      simpa using List.mem_takeWhile_imp (List.mem_reverse.1 hmem)
    have hsplit := List.takeWhile_append_dropWhile (p := (· ≠ '/')) (l := cs)
    cases hrest : cs.dropWhile (· ≠ '/') with
    | nil =>
      -- There is no slash, so the only component goes.
      rw [hrest, List.append_nil] at hsplit
      rw [hsplit] at htake
      rw [hq, hp, hrest, dropLast_componentsOfChars htake]
      rfl
    | cons c rest =>
      obtain ⟨hc, hreverse⟩ := reverse_eq_of_dropWhile_eq hrest
      rw [hrest, hc] at hsplit
      have hnotslash : ∀ rest, cs ≠ '/' :: rest := by
        intro rest he
        rw [he, hslash rest he] at hp
        rw [hp] at hlast
        exact hroot (Option.some.inj hlast).symm
      obtain ⟨last, hof⟩ := Option.ne_none_iff_exists'.1
        (ofSegment?_takeWhile_ne_none hsplit.symm hnotslash hdot)
      have hcomponents := componentsOfChars_segment htake rest.reverse
      rw [← hreverse, hof] at hcomponents
      rw [hq, hp, hrest, hc, hcomponents, List.reverse_cons]
      exact List.dropLast_concat.symm

/-- A path has a parent unless it ends with the slash at its beginning. -/
theorem exists_parent?_concat {p : Path} {cs : List Component} {c : Component}
    (h : p.components = cs ++ [c]) (hc : c ≠ .root) :
    ∃ q, p.parent? = some q ∧ q.components = cs := by
  have hlast : p.components.getLast? = some c := by rw [h, List.getLast?_concat]
  obtain ⟨q, hq⟩ : ∃ q, p.parent? = some q := by
    rw [parent?, hlast]
    split
    · contradiction
    · rename_i hroot
      exact absurd (Option.some.inj hroot) hc
    · exact ⟨_, rfl⟩
  exact ⟨q, hq, by rw [components_parent? hq, h, List.dropLast_concat]⟩

/-- A path that ends with a name has a parent. -/
theorem exists_parent? {p : Path} {cs : List Component} {names : List String} (hne : names ≠ [])
    (h : p.components = cs ++ names.map .name) :
    ∃ q, p.parent? = some q ∧ q.components = cs ++ names.dropLast.map .name := by
  obtain ⟨init, last, rfl⟩ := (List.eq_nil_or_concat' names).resolve_left hne
  rw [List.map_append, List.map_singleton, ← List.append_assoc] at h
  rw [List.dropLast_concat]
  exact exists_parent?_concat h Component.noConfusion

end RefGraph.Path
