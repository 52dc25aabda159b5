import RefGraph.Proofs.Scan.Probes
import RefGraph.Proofs.Walk.Names

/-!
# What a specifier means, seen from the root

A specifier in a file below a root means a path that does not depend on how the root and the file
are written: behind the root it is what the specifier would mean if the root were the empty path. A
specifier that holds an absolute path means that path everywhere.

* `candidate?_below`: the path that a specifier means, seen from the root.
* `candidate?_congr`: it does not depend on how the root and the file are written.
-/

namespace RefGraph

open RefGraph.Path

theorem Path.isAbsolute_congr {p q : Path} (h : p.components = q.components) :
    p.isAbsolute = q.isAbsolute := by
  rw [Bool.eq_iff_iff, isAbsolute_iff_mem, isAbsolute_iff_mem, h]

/-- A path is folded by its components. -/
theorem Path.folded_congr {p q : Path} (h : p.components = q.components) : p.folded = q.folded := by
  rw [folded, folded, h, isAbsolute_congr h]

/-- How a path lies behind a root: an absolute one is the same, a relative one adds components. -/
structure LiesBehind (root p₀ p : Path) : Prop where
  absolute : p₀.isAbsolute = true → p = p₀
  relative : p₀.isAbsolute = false →
    p.components = root.components ++ p₀.components.filter (· ≠ .current)

/-- A path lies behind the root that it is joined to. -/
theorem liesBehind_join {root : Path} (hroot : root.text ≠ "") (q : Path) :
    LiesBehind root ((⟨""⟩ : Path).join q) (root.join q) := by
  rw [join_of_text_eq rfl]
  exact ⟨fun habsolute => if_pos habsolute, components_join hroot⟩

/-- A path without dots is joined with a relative one by their components. -/
theorem filter_components_join {q r : Path} (hr : r.isAbsolute = false)
    (hq : ∀ c ∈ q.components, c ≠ .current) :
    (q.join r).components.filter (· ≠ .current) =
      q.components ++ r.components.filter (· ≠ .current) := by
  by_cases hempty : q.text = ""
  · rw [join_of_text_eq hempty, components_of_text_eq hempty]
    rfl
  · have hfilter : q.components.filter (· ≠ .current) = q.components :=
      List.filter_eq_self.2 fun c hc => by simpa using hq c hc
    rw [components_join hempty hr, List.filter_append, List.filter_filter, hfilter]
    simp

/-- A relative path from a directory lies behind the root as it lies behind the empty path. -/
theorem liesBehind_join_names {root q q₀ r : Path} {names : List String} (hroot : root.text ≠ "")
    (hq : q.components = root.components ++ names.map .name)
    (hq₀ : q₀.components = names.map .name) (hr : r.isAbsolute = false) :
    LiesBehind root (q₀.join r) (q.join r) := by
  have hbehind : (q₀.join r).components.filter (· ≠ .current) =
      names.map .name ++ r.components.filter (· ≠ .current) := by
    rw [← hq₀]
    refine filter_components_join hr ?_
    rw [hq₀]
    rintro c hc rfl
    obtain ⟨name, -, he⟩ := List.mem_map.1 hc
    cases he
  have hqtext : q.text ≠ "" := text_ne_of_components fun hnil => by
    rw [hq, List.append_eq_nil_iff] at hnil
    exact components_ne_nil hroot hnil.1
  refine ⟨fun habsolute => ?_, fun _ => ?_⟩
  · -- What begins with names or with a relative path is not absolute.
    have hmem : Component.root ∈ (q₀.join r).components.filter (· ≠ .current) :=
      List.mem_filter.2 ⟨isAbsolute_iff_mem.1 habsolute, rfl⟩
    rw [hbehind] at hmem
    rcases List.mem_append.1 hmem with hmem | hmem
    · obtain ⟨name, -, he⟩ := List.mem_map.1 hmem
      cases he
    · rw [isAbsolute_iff_mem.2 (List.mem_filter.1 hmem).1] at hr
      cases hr
  · rw [components_join hqtext hr, hq, List.append_assoc, hbehind]

/-- **What a specifier means behind a root** is what it would mean behind the empty path. -/
theorem candidate?_below {root fromFile : Path} {names : List String} (hroot : root.text ≠ "")
    (hfile : fromFile.components = root.components ++ names.map .name) (hne : names ≠ [])
    (aliases : List String) (specifier : List Char) :
    Option.Rel (LiesBehind root) (candidate? ⟨""⟩ aliases ⟨pathAlong names⟩ specifier)
      (candidate? root aliases fromFile specifier) := by
  have hplain : ∀ name ∈ names, IsPlainName name := by
    intro name hname
    refine isPlainName_of_mem_components (p := fromFile) ?_
    rw [hfile]
    exact List.mem_append_right _ (List.mem_map_of_mem hname)
  unfold candidate?
  cases behindAlias? aliases specifier with
  | some rest => exact .some (liesBehind_join hroot _)
  | none =>
    dsimp only
    split
    · exact .some (liesBehind_join hroot _)
    · rename_i rest
      -- Both paths begin in the directory of the file.
      have hrelative : isAbsolute ⟨String.ofList ('.' :: rest)⟩ = false := by
        rw [isAbsolute, String.toList_ofList]
        rfl
      have hown : components ⟨pathAlong names⟩ = [] ++ names.map .name :=
        components_pathAlong hplain
      obtain ⟨q, hq, hqc⟩ := exists_parent? hne hfile
      obtain ⟨q₀, hq₀, hqc₀⟩ := exists_parent? hne hown
      rw [hq, hq₀, Option.getD_some, Option.getD_some]
      exact .some (liesBehind_join_names hroot hqc hqc₀ hrelative)
    · exact .none

/-- However the root and the file are written, a specifier means a path of the same components. -/
theorem candidate?_congr {root fromFile fromFile' : Path} {names : List String}
    (hroot : root.text ≠ "") (hne : names ≠ [])
    (hfile : fromFile.components = root.components ++ names.map .name)
    (hfile' : fromFile'.components = root.components ++ names.map .name) (aliases : List String)
    (specifier : List Char) :
    Option.Rel (fun p p' : Path => p.components = p'.components)
      (candidate? root aliases fromFile specifier)
      (candidate? root aliases fromFile' specifier) := by
  have hrel := candidate?_below hroot hfile hne aliases specifier
  have hrel' := candidate?_below hroot hfile' hne aliases specifier
  generalize candidate? ⟨""⟩ aliases ⟨pathAlong names⟩ specifier = c₀ at hrel hrel'
  generalize candidate? root aliases fromFile specifier = c at hrel ⊢
  generalize candidate? root aliases fromFile' specifier = c' at hrel' ⊢
  cases hrel with
  | none =>
    cases hrel'
    exact .none
  | @some p₀ p hp =>
    cases hrel' with
    | @some _ p' hp' =>
      apply Option.Rel.some
      cases habsolute : p₀.isAbsolute with
      | true => rw [hp.absolute habsolute, hp'.absolute habsolute]
      | false => rw [hp.relative habsolute, hp'.relative habsolute]

end RefGraph
