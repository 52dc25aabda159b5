import RefGraph.Proofs.Path.Joining
import RefGraph.Proofs.Walk.Visits

/-!
# Names along paths

A walk puts slashes between the names that it goes along. Such a path has these names for
components, and it is what is left of a path along the same names behind the root.

* `components_pathAlong`: the components of the path along names.
* `Path.relativeTo?_of_components`: what is left of a path behind a root.
-/

namespace RefGraph

theorem Path.IsPlainName.isFileName {name : String} (h : IsPlainName name) : IsFileName name :=
  ⟨h.ne_empty, h.slash⟩

/-- A walk writes names as they stand in a path. -/
theorem pathAlong_eq_textOf {names : List String} (h : ∀ name ∈ names, IsFileName name) :
    pathAlong names = Path.textOf (names.map .name) := by
  rw [Path.textOf, List.map_map]
  show pathAlong names = "/".intercalate (names.map id)
  rw [List.map_id]
  induction names using List.reverseRecOn with
  | nil => rfl
  | append_singleton names name ih =>
    have hnames : ∀ n ∈ names, IsFileName n := fun n hn => h n (List.mem_append_left _ hn)
    rw [pathAlong_concat]
    by_cases hnil : names = []
    · rw [hnil, List.nil_append, String.intercalate_singleton]
      rfl
    · rw [relativeName, if_neg (pathAlong_ne_empty hnil hnames), ih hnames,
        String.intercalate_append_of_ne_nil hnil (by simp), String.intercalate_singleton]

/-- The path along names has these names for components. -/
theorem components_pathAlong {names : List String} (h : ∀ name ∈ names, Path.IsPlainName name) :
    Path.components ⟨pathAlong names⟩ = names.map .name := by
  rw [pathAlong_eq_textOf fun name hname => (h name hname).isFileName]
  refine (Path.componentsOfChars_textOf fun c hc => ?_).2
  obtain ⟨name, hname, rfl⟩ := List.mem_map.1 hc
  exact .inr ⟨name, rfl, h name hname⟩

/-- What leads from a root to a path is what is left of the path behind the root. -/
theorem Path.relativeTo?_of_components {root p : Path} {names : List String} (hne : names ≠ [])
    (h : p.components = root.components ++ names.map .name) :
    root.relativeTo? p = some (pathAlong names) := by
  have hnames : ∀ name ∈ names, IsFileName name := by
    intro name hname
    refine (isPlainName_of_mem_components (p := p) ?_).isFileName
    rw [h]
    exact List.mem_append_right _ (List.mem_map_of_mem hname)
  exact relativeTo?_eq_some_iff.2 ⟨names.map .name, by simpa using hne, h,
    pathAlong_eq_textOf hnames⟩

end RefGraph
