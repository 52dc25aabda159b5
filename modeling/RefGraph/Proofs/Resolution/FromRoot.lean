import RefGraph.Proofs.Resolution.Priority
import RefGraph.Proofs.Scan.Candidates

/-!
# Specifiers from the root

An alias or a slash at the beginning of a specifier stands for the root: what follows it is the path
of a file from there. Two things keep it from doing so. An alias in which a query would begin fits
no specifier, since the query is taken away before. And what begins with one more slash is a path of
its own, which the root does not change.

* `StandsForRoot`: a text at the beginning of a specifier that stands for the root.
* `resolve?_filter_aliases`: aliases in which a query would begin make no difference.
* `leadsTo_slashes`: more slashes lead away from the root.
* `resolve?_standsForRoot`: otherwise the file behind the root is found.
-/

namespace RefGraph

open RefGraph.Path

/-- A text at the beginning of a specifier that stands for the root: the first alias that fits, or a
slash if none does. -/
inductive StandsForRoot (aliases : List String) (specifier : List Char) : String → Prop where
  | ofAlias {before after : List String} {a : String} (split : aliases = before ++ a :: after)
      (first : BeginsWithNone before specifier) : StandsForRoot aliases specifier a
  | ofSlash (none : BeginsWithNone aliases specifier) : StandsForRoot aliases specifier "/"

variable {fs : FileSystem} {root : Path} {aliases : List String} {fromFile : Path}
  {specifier : String} {spec : List Char}

/-! ## Aliases with marks -/

/-- Whether no query begins in a text. -/
def isUnmarked (a : String) : Bool := a.toList.all fun c => c != '?' && c != '#'

/-- No query and no fragment begins in an unmarked text. -/
theorem isUnmarked_iff {a : String} : isUnmarked a = true ↔ ∀ c ∈ a.toList, ¬ IsMark c := by
  simp only [isUnmarked, List.all_eq_true, not_isMark_iff]

/-- No other alias is the beginning of a text in which no query begins. -/
theorem behindAlias?_filter (aliases : List String) (h : ∀ c ∈ spec, ¬ IsMark c) :
    behindAlias? (aliases.filter isUnmarked) spec = behindAlias? aliases spec := by
  induction aliases with
  | nil => rfl
  | cons a aliases ih =>
    rw [behindAlias?, behindAlias?] at ih
    rw [behindAlias?, behindAlias?, List.findSome?_cons]
    by_cases ha : isUnmarked a = true
    · rw [List.filter_cons_of_pos ha, List.findSome?_cons, ih]
    · have hdrop : dropBeginning? a.toList spec = none :=
        dropBeginning?_eq_none_iff.2 fun hp =>
          ha (isUnmarked_iff.2 fun c hc => h c (hp.subset hc))
      rw [List.filter_cons_of_neg ha, hdrop, ih]

/-- **Aliases in which a query would begin make no difference**, whatever the specifier is. -/
theorem resolve?_filter_aliases (fs : FileSystem) (root : Path) (aliases : List String)
    (fromFile : Path) (specifier : String) :
    resolve? fs root (aliases.filter isUnmarked) fromFile specifier =
      resolve? fs root aliases fromFile specifier := by
  have hcut : IsCut specifier.toList (withoutQuery specifier.toList) := isCut_iff.2 rfl
  rw [resolve?, resolve?]
  unfold candidate?
  rw [behindAlias?_filter aliases hcut.unmarked]

/-! ## Slashes -/

theorem inner_replicate_append (slashes : Nat) (cs : List Char) :
    Path.inner (List.replicate slashes '/' ++ cs) = Path.inner cs := by
  induction slashes with
  | zero => rfl
  | succ slashes ih =>
    rw [List.replicate_succ, List.cons_append, Path.inner, splitAtChar, if_pos rfl,
      List.filterMap_cons_none rfl]
    exact ih

/-- What begins with slashes is a path of its own, whatever it is put behind. -/
theorem components_join_of_slashes {slashes : Nat} (hslashes : slashes ≠ 0) (p : Path)
    (cs : List Char) :
    (p.join ⟨String.ofList (List.replicate slashes '/' ++ cs)⟩).components =
      .root :: Path.inner cs := by
  obtain ⟨n, rfl⟩ := Nat.exists_eq_succ_of_ne_zero hslashes
  have hhead : (List.replicate (n + 1) '/' ++ cs).head? = some '/' := rfl
  have habsolute : isAbsolute ⟨String.ofList (List.replicate (n + 1) '/' ++ cs)⟩ = true := by
    rw [isAbsolute, String.toList_ofList, hhead]
    rfl
  rw [join, if_pos habsolute, components, String.toList_ofList]
  rcases componentsOfChars_cases (List.replicate (n + 1) '/' ++ cs) with
    ⟨-, hp⟩ | ⟨hne, -⟩ | ⟨hne, -⟩
  · rw [hp, inner_replicate_append]
  · exact absurd hhead hne
  · exact absurd hhead hne

/-- What stands for the root leads behind it. -/
theorem leadsTo_of_standsForRoot {a : String} {rest : List Char}
    (h : StandsForRoot aliases (a.toList ++ rest) a) :
    LeadsTo root aliases fromFile (a.toList ++ rest) (root.join ⟨String.ofList rest⟩) := by
  cases h with
  | ofAlias split first => exact .behindAlias split first
  | ofSlash none => exact .behindSlash none

/-- **More slashes lead away from the root**: what follows them is a path that begins there. -/
theorem leadsTo_slashes {a : String} {slashes : Nat} (hslashes : slashes ≠ 0) {cs : List Char}
    (h : StandsForRoot aliases (a.toList ++ (List.replicate slashes '/' ++ cs)) a) :
    ∃ p, LeadsTo root aliases fromFile (a.toList ++ (List.replicate slashes '/' ++ cs)) p ∧
      p.components = .root :: Path.inner cs :=
  ⟨_, leadsTo_of_standsForRoot h, components_join_of_slashes hslashes root cs⟩

/-! ## Files behind the root -/

/-- A folded path without `..` has the components it had before. -/
theorem components_folded {p : Path} (h : p.isAbsolute = true)
    (hparent : Component.parent ∉ p.components) : p.folded.components = p.components := by
  obtain ⟨names, hnames⟩ := exists_components_eq h hparent
  rw [components_folded_eq, h, hnames, foldNames_map_name]
  rfl

/-- A file under the path itself comes before all others. -/
theorem fileUnder?_of_isFile {p : Path} (h : fs.isFile p = true) : fileUnder? fs p = some p := by
  rw [fileUnder?_eq_find?]
  exact List.find?_cons_of_pos h

section Root

variable {r : Path} {names : List String} (hroot : root.isAbsolute = true)
  (hparent : Component.parent ∉ root.components) (hr : r.components = names.map .name)

include hroot hr

/-- Slashes between what stands for the root and the rest make no difference if there are none, or
if the root is where they lead. -/
theorem components_join_slashes {slashes : Nat}
    (hslashes : slashes = 0 ∨ root.components = [.root]) :
    (root.join ⟨String.ofList (List.replicate slashes '/' ++ r.text.toList)⟩).components =
      root.components ++ r.components := by
  have hrelative : r.isAbsolute = false := by
    rw [← Bool.not_eq_true, isAbsolute_iff_mem, hr]
    simp
  have hplain : r.components.filter (· ≠ .current) = r.components :=
    List.filter_eq_self.2 (by simp [hr])
  by_cases hzero : slashes = 0
  · have hne : root.text ≠ "" := text_ne_of_components
      (List.ne_nil_of_mem (isAbsolute_iff_mem.1 hroot))
    rw [hzero, List.replicate_zero, List.nil_append, String.ofList_toList,
      components_join hne hrelative, hplain]
  · rw [components_join_of_slashes hzero, hslashes.resolve_left hzero,
      ← filter_components hrelative, hplain]
    rfl

/-- Names that are joined to the root come behind its components. -/
theorem components_join_names : (root.join r).components = root.components ++ r.components := by
  have hjoin := components_join_slashes hroot hr (.inl rfl)
  rwa [List.replicate_zero, List.nil_append, String.ofList_toList] at hjoin

include hparent

/-- **What stands for the root leads to the file behind it**, if no query begins in it and if no
slashes follow that lead elsewhere. -/
theorem resolve?_standsForRoot {a : String} {slashes : Nat}
    (hspecifier : specifier = a ++ String.ofList (List.replicate slashes '/') ++ r.text)
    (hstands : StandsForRoot aliases specifier.toList a)
    (hlocal : ¬ "http".toList <+: specifier.toList) (hmarks : isUnmarked r.text = true)
    (hfile : fs.isFile (root.join r).folded = true) (ha : isUnmarked a = true)
    (hslashes : slashes = 0 ∨ root.components = [.root]) :
    resolve? fs root aliases fromFile specifier = some (root.join r).folded ∧
      (root.join r).folded.equals (root.join r) = true := by
  have htext : specifier.toList =
      a.toList ++ (List.replicate slashes '/' ++ r.text.toList) := by
    rw [hspecifier, String.toList_append, String.toList_append, String.toList_ofList,
      List.append_assoc]
  have hcut : IsCut specifier.toList specifier.toList := by
    refine ⟨fun c hc => ?_, [], (List.append_nil _).symm, by simp⟩
    rw [htext, List.mem_append, List.mem_append] at hc
    rcases hc with hc | hc | hc
    · exact isUnmarked_iff.1 ha c hc
    · rw [List.eq_of_mem_replicate hc]
      simp [IsMark]
    · exact isUnmarked_iff.1 hmarks c hc
  have hleads : LeadsTo root aliases fromFile specifier.toList
      (root.join ⟨String.ofList (List.replicate slashes '/' ++ r.text.toList)⟩) := by
    rw [htext] at hstands ⊢
    exact leadsTo_of_standsForRoot hstands
  -- The slashes are gone as soon as the path is folded.
  have hfolded : folded (root.join ⟨String.ofList (List.replicate slashes '/' ++ r.text.toList)⟩) =
      (root.join r).folded :=
    folded_congr (by rw [components_join_slashes hroot hr hslashes, components_join_names hroot hr])
  have hcomponents : (root.join r).folded.components = root.components ++ r.components := by
    rw [components_folded (isAbsolute_join hroot r), components_join_names hroot hr]
    rw [components_join_names hroot hr, hr]
    simp [hparent]
  constructor
  · rw [resolve?_of_leadsTo hlocal hcut hleads, hfolded, fileUnder?_of_isFile hfile]
    refine Option.filter_some_pos (isSome_below?_iff.2 ?_)
    exact hcomponents ▸ List.prefix_append ..
  · rw [equals, hcomponents, components_join_names hroot hr, beq_self_eq_true]

end Root

/-- A tree with a file in its root and one in a directory. -/
def aliasedTree : FileSystem :=
  (Memory.ofEntries [(⟨"/r/a.ts"⟩, ""), (⟨"/r/lib/b.ts"⟩, "")] []).fileSystem

/-- An alias that is not the first one, and a rest that is not folded. -/
theorem resolve?_standsForRoot_aliasedTree :
    isAbsolute ⟨"/r"⟩ = true ∧ Component.parent ∉ components ⟨"/r"⟩ ∧
      components ⟨"lib//b.ts"⟩ = ["lib", "b.ts"].map .name ∧
      StandsForRoot ["@/", "~/"] "~/lib//b.ts".toList "~/" ∧
      ¬ "http".toList <+: "~/lib//b.ts".toList ∧ isUnmarked "lib//b.ts" = true ∧
      aliasedTree.isFile (join ⟨"/r"⟩ ⟨"lib//b.ts"⟩).folded = true ∧
      isUnmarked "~/" = true ∧
      resolve? aliasedTree ⟨"/r"⟩ ["@/", "~/"] ⟨"/r/a.ts"⟩ "~/lib//b.ts" =
        some (join ⟨"/r"⟩ ⟨"lib//b.ts"⟩).folded ∧
      (join ⟨"/r"⟩ ⟨"lib//b.ts"⟩).folded.equals (join ⟨"/r"⟩ ⟨"lib//b.ts"⟩) = true := by
  have hsplit : ["@/", "~/"] = ["@/"] ++ "~/" :: [] := rfl
  have hr : components ⟨"lib//b.ts"⟩ = ["lib", "b.ts"].map .name := by decide
  have hstands : StandsForRoot ["@/", "~/"] "~/lib//b.ts".toList "~/" := .ofAlias hsplit (by decide)
  have hfile : aliasedTree.isFile (join ⟨"/r"⟩ ⟨"lib//b.ts"⟩).folded = true := by decide +kernel
  have hspecifier : "~/lib//b.ts" =
      "~/" ++ String.ofList (List.replicate 0 '/') ++ "lib//b.ts" := by decide
  exact ⟨by decide, by decide, hr, hstands, by decide, by decide, hfile, by decide,
    resolve?_standsForRoot (by decide) (by decide) hr hspecifier hstands (by decide) (by decide)
      hfile (by decide) (.inl rfl)⟩

/-- An alias with a number sign leads nowhere, and neither does one more slash behind an alias or
behind the slash at the beginning, though there is a file behind the root. -/
theorem resolve?_aliasedTree_none :
    aliasedTree.isFile (join ⟨"/r"⟩ ⟨"a.ts"⟩) = true ∧
      (StandsForRoot ["#/"] "#/a.ts".toList "#/" ∧
        resolve? aliasedTree ⟨"/r"⟩ ["#/"] ⟨"/r/lib/b.ts"⟩ "#/a.ts" = none) ∧
      (StandsForRoot ["~/"] "~//a.ts".toList "~/" ∧
        resolve? aliasedTree ⟨"/r"⟩ ["~/"] ⟨"/r/lib/b.ts"⟩ "~//a.ts" = none) ∧
      (StandsForRoot ["~/"] "//a.ts".toList "/" ∧
        resolve? aliasedTree ⟨"/r"⟩ ["~/"] ⟨"/r/lib/b.ts"⟩ "//a.ts" = none) := by
  have hfirst : ∀ cs, BeginsWithNone [] cs := fun cs a ha => absurd ha List.not_mem_nil
  have hsign : ["#/"] = [] ++ "#/" :: [] := rfl
  have htilde : ["~/"] = [] ++ "~/" :: [] := rfl
  exact ⟨by decide +kernel, ⟨.ofAlias hsign (hfirst _), by decide +kernel⟩,
    ⟨.ofAlias htilde (hfirst _), by decide +kernel⟩, .ofSlash (by decide), by decide +kernel⟩

end RefGraph
