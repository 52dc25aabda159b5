import RefGraph.Resolution
import Mathlib.Data.List.TakeWhile

/-!
# What a specifier means

What stands before the query of a specifier leads to a path. An alias at its beginning comes first,
and among aliases the earlier one; then a slash, and then a dot. A specifier that begins with none
of them leads nowhere.

* `IsCut`: a text is a specifier without its query.
* `LeadsTo`: the path that a specifier without a query means.
* `candidate?_eq_some_iff`, `candidate?_eq_none_iff`: exactly that path is found.
-/

namespace RefGraph

/-! ## Queries -/

/-- A question mark or a number sign, with which the query of a specifier begins. -/
def IsMark (c : Char) : Prop := c = '?' ∨ c = '#'

/-- A text is what a specifier is before its query. -/
structure IsCut (specifier spec : List Char) : Prop where
  unmarked : ∀ c ∈ spec, ¬ IsMark c
  query : ∃ query, specifier = spec ++ query ∧ ∀ c ∈ query.head?, IsMark c

theorem not_isMark_iff {c : Char} : (c != '?' && c != '#') = true ↔ ¬ IsMark c := by
  simp [IsMark]

/-- There is one way to take the query away. -/
theorem isCut_iff {specifier spec : List Char} :
    IsCut specifier spec ↔ withoutQuery specifier = spec := by
  constructor
  · rintro ⟨hspec, query, rfl, hquery⟩
    have hnil : query.takeWhile (fun c => c != '?' && c != '#') = [] := by
      cases query with
      | nil => rfl
      | cons c cs =>
        exact List.takeWhile_cons_of_neg (mt not_isMark_iff.1 (not_not.2 (hquery c rfl)))
    rw [withoutQuery, List.takeWhile_append_of_pos fun c hc => not_isMark_iff.2 (hspec c hc), hnil,
      List.append_nil]
  · rintro rfl
    refine ⟨fun c hc => not_isMark_iff.1 ?_, _, List.takeWhile_append_dropWhile.symm,
      fun c hc => ?_⟩
    · exact List.mem_takeWhile_imp (p := fun c => c != '?' && c != '#') hc
    have hnot := List.head?_dropWhile_not (fun c => c != '?' && c != '#') specifier
    rw [Option.mem_def.1 hc] at hnot
    exact not_not.1 (mt not_isMark_iff.2 (Bool.not_eq_true _ ▸ hnot))

/-! ## Aliases -/

/-- No alias is the beginning of a text. -/
def BeginsWithNone (aliases : List String) (spec : List Char) : Prop :=
  ∀ a ∈ aliases, ¬ a.toList <+: spec

instance (aliases : List String) (spec : List Char) : Decidable (BeginsWithNone aliases spec) :=
  inferInstanceAs (Decidable (∀ a ∈ aliases, _))

/-- Nothing stands behind an alias just if the specifier begins with none. -/
theorem behindAlias?_eq_none_iff {aliases : List String} {spec : List Char} :
    behindAlias? aliases spec = none ↔ BeginsWithNone aliases spec := by
  rw [behindAlias?, List.findSome?_eq_none_iff]
  exact forall₂_congr fun a ha => dropBeginning?_eq_none_iff

/-- The first alias that fits is taken. -/
theorem behindAlias?_eq_some_iff {aliases : List String} {spec rest : List Char} :
    behindAlias? aliases spec = some rest ↔
      ∃ before a after, aliases = before ++ a :: after ∧ BeginsWithNone before spec ∧
        spec = a.toList ++ rest := by
  simp only [behindAlias?, List.findSome?_eq_some_iff, dropBeginning?_eq_some_iff,
    dropBeginning?_eq_none_iff, BeginsWithNone]
  exact exists₃_congr fun before a after => and_congr_right fun _ => and_comm

/-! ## Paths -/

/-- What a specifier without a query means for the file that holds it. -/
inductive LeadsTo (root : Path) (aliases : List String) (fromFile : Path) :
    List Char → Path → Prop where
  | behindAlias {before after : List String} {a : String} {rest : List Char}
      (split : aliases = before ++ a :: after) (first : BeginsWithNone before (a.toList ++ rest)) :
      LeadsTo root aliases fromFile (a.toList ++ rest) (root.join ⟨String.ofList rest⟩)
  | behindSlash {rest : List Char} (none : BeginsWithNone aliases ('/' :: rest)) :
      LeadsTo root aliases fromFile ('/' :: rest) (root.join ⟨String.ofList rest⟩)
  | besideFile {rest : List Char} (none : BeginsWithNone aliases ('.' :: rest)) :
      LeadsTo root aliases fromFile ('.' :: rest)
        ((fromFile.parent?.getD root).join ⟨String.ofList ('.' :: rest)⟩)

variable {root : Path} {aliases : List String} {fromFile p : Path} {spec : List Char}

/-- **The path that is looked for is the one to which the specifier leads.** -/
theorem candidate?_eq_some_iff :
    candidate? root aliases fromFile spec = some p ↔ LeadsTo root aliases fromFile spec p := by
  constructor
  · intro h
    unfold candidate? at h
    split at h
    · rename_i rest hrest
      obtain ⟨before, a, after, hsplit, hfirst, rfl⟩ := behindAlias?_eq_some_iff.1 hrest
      rw [← Option.some.inj h]
      exact .behindAlias hsplit hfirst
    -- No alias begins the specifier, so its first characters decide.
    rename_i hnone
    rw [behindAlias?_eq_none_iff] at hnone
    split at h
    · rw [← Option.some.inj h]
      exact .behindSlash hnone
    · rw [← Option.some.inj h]
      exact .besideFile hnone
    · cases h
  · intro h
    cases h with
    | behindAlias hsplit hfirst =>
      unfold candidate?
      rw [behindAlias?_eq_some_iff.2 ⟨_, _, _, hsplit, hfirst, rfl⟩]
    | behindSlash hnone =>
      unfold candidate?
      rw [behindAlias?_eq_none_iff.2 hnone]
      rfl
    | besideFile hnone =>
      unfold candidate?
      rw [behindAlias?_eq_none_iff.2 hnone]
      rfl

/-- Nothing is looked for if the specifier begins neither with an alias nor with a slash or a
dot. -/
theorem candidate?_eq_none_iff :
    candidate? root aliases fromFile spec = none ↔
      BeginsWithNone aliases spec ∧ spec.head? ≠ some '/' ∧ spec.head? ≠ some '.' := by
  rw [← behindAlias?_eq_none_iff]
  unfold candidate?
  split
  · rename_i rest hrest
    simp [hrest]
  rename_i hnone
  rw [and_iff_right hnone]
  split
  · simp
  · simp
  · rename_i hslash hdot
    refine ⟨fun _ => ⟨fun h => ?_, fun h => ?_⟩, fun _ => rfl⟩
    · obtain ⟨rest, hrest⟩ := List.head?_eq_some_iff.1 h
      exact hslash rest hrest
    · obtain ⟨rest, hrest⟩ := List.head?_eq_some_iff.1 h
      exact hdot rest hrest

end RefGraph
