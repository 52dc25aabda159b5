import RefGraph.Graph.Model
import Mathlib.Data.List.TakeWhile

/-!
# How extensions end

The extension of a path is its end, so that a path that can be analysed ends like an extension, or
with what makes no difference behind it.

* `splitAtChar_concat`: the parts of a text with one more character.
* `Path.extensionOfName?_eq_some_iff`: the extension of a name.
* `Path.getLast?_extension`: an extension ends as the path does.
* `getLast?_ne_colon`: no path that can be analysed ends with a colon.
-/

namespace RefGraph

/-- One more character that is no separator makes the last part longer. -/
theorem splitAtChar_concat {separator c : Char} (hc : c ≠ separator) (cs : List Char) :
    ∃ parts part, splitAtChar separator cs = parts ++ [part] ∧
      splitAtChar separator (cs ++ [c]) = parts ++ [part ++ [c]] := by
  induction cs with
  | nil => exact ⟨[], [], rfl, by simp [splitAtChar, hc]⟩
  | cons d ds ih =>
    obtain ⟨parts, part, hds, hdsc⟩ := ih
    rw [List.cons_append]
    by_cases hd : d = separator
    · refine ⟨[] :: parts, part, ?_, ?_⟩
      · rw [splitAtChar, if_pos hd, hds, List.cons_append]
      · rw [splitAtChar, if_pos hd, hdsc, List.cons_append]
    · cases parts with
      | nil =>
        exact ⟨[], d :: part, by simp [splitAtChar, hd, hds], by simp [splitAtChar, hd, hdsc]⟩
      | cons p ps =>
        exact ⟨(d :: p) :: ps, part, by simp [splitAtChar, hd, hds],
          by simp [splitAtChar, hd, hdsc]⟩

/-- A text is cut at the last of its separators in one way. -/
theorem append_cons_inj_of_notMem_right {α : Type} {a : α} {as as' bs bs' : List α} (h : a ∉ bs)
    (h' : a ∉ bs') (heq : as ++ a :: bs = as' ++ a :: bs') : as = as' ∧ bs = bs' := by
  rcases List.append_eq_append_iff.1 heq with ⟨cs, rfl, hcs⟩ | ⟨cs, rfl, hcs⟩
  · cases cs with
    | nil => exact ⟨(List.append_nil as).symm, (List.cons.inj hcs).2⟩
    | cons c cs => exact absurd (by rw [(List.cons.inj hcs).2]; simp) h
  · cases cs with
    | nil => exact ⟨List.append_nil as', (List.cons.inj hcs).2.symm⟩
    | cons c cs => exact absurd (by rw [(List.cons.inj hcs).2]; simp) h'

namespace Path

/-- A name is cut at its last dot. A dot at its beginning is part of the name. -/
theorem extensionOfName?_of_eq {name : String} {stem ext : List Char} (hdot : '.' ∉ ext)
    (hname : name.toList = stem ++ '.' :: ext) :
    extensionOfName? name = if stem = [] then none else some (String.ofList ext) := by
  have hback : name.toList.reverse = ext.reverse ++ '.' :: stem.reverse := by
    rw [hname, List.reverse_append, List.reverse_cons, List.append_assoc]
    rfl
  have htaken : (ext.reverse ++ '.' :: stem.reverse).takeWhile (· ≠ '.') = ext.reverse := by
    rw [List.takeWhile_append_of_pos, List.takeWhile_cons_of_neg (by simp), List.append_nil]
    intro c hc
    have hne : c ≠ '.' := fun he => hdot (he ▸ List.mem_reverse.1 hc)
    simpa using hne
  simp only [extensionOfName?, hback, htaken]
  by_cases hstem : stem = []
  · rw [if_pos (.inr (by simp [hstem])), if_pos hstem]
  · rw [if_neg (by simp [hstem]), if_neg hstem, List.reverse_reverse]

/-- A name without a dot has no extension. -/
theorem extensionOfName?_of_notMem {name : String} (h : '.' ∉ name.toList) :
    extensionOfName? name = none := by
  have htaken : name.toList.reverse.takeWhile (· ≠ '.') = name.toList.reverse := by
    refine List.takeWhile_eq_self_iff.2 fun c hc => ?_
    have hne : c ≠ '.' := fun he => h (he ▸ List.mem_reverse.1 hc)
    simpa using hne
  simp only [extensionOfName?, htaken]
  exact if_pos (.inl trivial)

/-- The extension of a name is what stands behind its last dot, if something stands before it. -/
theorem extensionOfName?_eq_some_iff {name ext : String} :
    extensionOfName? name = some ext ↔
      ∃ stem, stem ≠ [] ∧ '.' ∉ ext.toList ∧ name.toList = stem ++ '.' :: ext.toList := by
  constructor
  · intro h
    by_cases hmem : '.' ∈ name.toList
    · obtain ⟨behind, stem, hback, hdot⟩ :=
        List.eq_append_cons_of_mem (List.mem_reverse.2 hmem)
      have hname : name.toList = stem.reverse ++ '.' :: behind.reverse := by
        rw [← List.reverse_reverse name.toList, hback]
        simp
      rw [extensionOfName?_of_eq (mt List.mem_reverse.1 hdot) hname] at h
      split at h
      · cases h
      · rename_i hstem
        rw [← Option.some.inj h, String.toList_ofList]
        exact ⟨stem.reverse, hstem, mt List.mem_reverse.1 hdot, hname⟩
    · rw [extensionOfName?_of_notMem hmem] at h
      cases h
  · rintro ⟨stem, hstem, hdot, hname⟩
    rw [extensionOfName?_of_eq hdot hname, if_neg hstem, String.ofList_toList]

/-- A path that ends neither with a slash nor with a dot ends with a name. -/
theorem exists_fileName?_eq {p : Path} {cs : List Char} {c : Char} (h : p.text.toList = cs ++ [c])
    (hslash : c ≠ '/') (hdot : c ≠ '.') :
    ∃ part, p.fileName? = some (String.ofList (part ++ [c])) := by
  obtain ⟨parts, part, -, hsplit⟩ := splitAtChar_concat hslash cs
  have hsegment : Component.ofSegment? (part ++ [c]) =
      some (.name (String.ofList (part ++ [c]))) := by
    have h₁ : part ++ [c] ≠ ['.'] := fun he => hdot (by simpa using congrArg List.getLast? he)
    have h₂ : part ++ [c] ≠ ['.', '.'] := fun he =>
      hdot (by simpa using congrArg List.getLast? he)
    simp [Component.ofSegment?, h₁, h₂]
  refine ⟨part, ?_⟩
  have hlast : p.components.getLast? = some (.name (String.ofList (part ++ [c]))) := by
    rw [components, h, componentsOfChars, hsplit, List.filterMap_append,
      List.filterMap_cons_some hsegment, List.filterMap_nil]
    split
    · rw [← List.cons_append, List.getLast?_concat]
    · split
      · rw [← List.cons_append, List.getLast?_concat]
      · rw [List.getLast?_concat]
  rw [fileName?, hlast]

/-- An extension ends as the path does. -/
theorem getLast?_extension {p : Path} {cs : List Char} {c : Char} {ext : String}
    (h : p.text.toList = cs ++ [c]) (hslash : c ≠ '/') (hdot : c ≠ '.')
    (hext : p.extension? = some ext) : ext.toList.getLast? = some c := by
  obtain ⟨part, hname⟩ := exists_fileName?_eq h hslash hdot
  rw [extension?, hname, Option.bind_some, extensionOfName?, String.toList_ofList,
    List.reverse_append, List.reverse_singleton, List.singleton_append,
    List.takeWhile_cons_of_pos (by simpa using hdot)] at hext
  split at hext
  · exact absurd hext (by simp)
  · rw [← Option.some.inj hext, String.toList_ofList, List.reverse_cons,
      List.getLast?_concat]

end Path

/-- No path that can be analysed ends with a colon. -/
theorem getLast?_ne_colon {text : String} (h : (SourceKind.ofPath? ⟨text⟩).isSome = true) :
    text.toList.getLast? ≠ some ':' := by
  intro hcolon
  obtain ⟨cs, hcs⟩ := List.getLast?_eq_some_iff.1 hcolon
  cases hext : Path.extension? ⟨text⟩ with
  | none => simp [SourceKind.ofPath?, hext] at h
  | some ext =>
    have hlast := Path.getLast?_extension hcs (by decide) (by decide) hext
    have hknown : ∀ e ∈ scriptExtensions ++ styleExtensions, e.toList.getLast? ≠ some ':' := by
      decide
    simp only [SourceKind.ofPath?, hext] at h
    split at h
    · rename_i he
      exact hknown ext (List.mem_append_left _ he) hlast
    · split at h
      · rename_i he
        exact hknown ext (List.mem_append_right _ he) hlast
      · exact absurd h (by simp)

end RefGraph
