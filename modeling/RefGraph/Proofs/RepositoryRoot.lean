import RefGraph.Proofs.Disk.Following
import RefGraph.Proofs.Path.Ancestors
import RefGraph.RepositoryRoot

/-!
# The nearest root of a repository

The search for the root of a repository climbs from one path to its parent. A path that leads to
something is freed of links first, so that its parents are the directories above it. One that leads
nowhere is taken as it is written: the search finds the nearest root above it if it is absolute and
free of `..`, and may miss it otherwise.

* `HoldsMarker`, `IsNearest`: directories that are roots of repositories, and the nearest of them.
* `LiesAt`: where a path lies.
* `finds_find?`: climbing from a path finds the nearest root.
* `findRoot?_isNearest`: the search finds the nearest root.
-/

namespace RefGraph

open Disk

variable {d : Disk} {start p : Path} {names above : List String}

/-! ## Roots above names -/

/-- The directory to which names lead holds a directory `.git`. -/
def HoldsMarker (d : Disk) (names : List String) : Prop :=
  d.isDir (pathOf (names ++ [rootMarker.text])) = true

instance (d : Disk) (names : List String) : Decidable (HoldsMarker d names) :=
  inferInstanceAs (Decidable (_ = true))

/-- Of the directories at or above the place to which names lead, the nearest one that holds a
directory `.git`. -/
structure IsNearest (d : Disk) (names above : List String) : Prop where
  isPrefix : above <+: names
  holds : HoldsMarker d above
  nearest : ∀ other, other <+: names → HoldsMarker d other → other <+: above

/-- Where a path lies: where it leads, and if it leads nowhere, where it is written to lie. A path
that leads nowhere is absolute here and free of `..`. -/
inductive LiesAt (d : Disk) (start : Path) : List String → Prop
  | found {names : List String} (h : d.locate start = .ok names) : LiesAt d start names
  | missing {names : List String} {e : FileError} (h : d.locate start = .error e)
      (hcomponents : start.components = .root :: names.map .name) : LiesAt d start names

theorem isPlainName_rootMarker : Path.IsPlainName rootMarker.text := by decide

theorem isPlainName_of_rooted (hp : p.components = .root :: names.map .name) :
    ∀ name ∈ names, Path.IsPlainName name := by
  intro name hname
  apply Path.isPlainName_of_mem_components (p := p)
  rw [hp]
  exact List.mem_cons_of_mem _ (List.mem_map_of_mem hname)

theorem text_ne_of_rooted (hp : p.components = .root :: names.map .name) : p.text ≠ "" :=
  Path.text_ne_of_components (by rw [hp]; exact List.cons_ne_nil _ _)

/-- What a path holds does not depend on how it is written. -/
theorem isDir_join_rootMarker_iff (hp : p.components = .root :: names.map .name) :
    d.isDir (p.join rootMarker) = true ↔ HoldsMarker d names := by
  have hplain : ∀ name ∈ names ++ [rootMarker.text], Path.IsPlainName name :=
    List.forall_mem_append.2 ⟨isPlainName_of_rooted hp,
      List.forall_mem_singleton.2 isPlainName_rootMarker⟩
  have hmarker := components_pathOf hplain
  have hjoin : (p.join rootMarker).components =
      (pathOf (names ++ [rootMarker.text])).components := by
    rw [hmarker, List.map_append, ← List.cons_append, ← hp]
    exact components_join_name (text_ne_of_rooted hp) isPlainName_rootMarker
  rw [HoldsMarker, isDir_congr hmarker hjoin]

/-! ## Climbing -/

theorem parent?_eq_none (hp : p.components = [.root]) : p.parent? = none := by
  rw [Path.parent?, hp]
  rfl

/-- What is found among directories: the nearest root, or nothing if there is none. -/
def Finds (d : Disk) (names : List String) : Option Path → Prop
  | some r => ∃ above, IsNearest d names above ∧ r.components = .root :: above.map .name
  | none => ∀ above, above <+: names → ¬ HoldsMarker d above

/-- If the place to which names lead is no root, what is found above it is the nearest one. -/
theorem Finds.concat {name : String} {r : Option Path} (h : Finds d names r)
    (hnot : ¬ HoldsMarker d (names ++ [name])) : Finds d (names ++ [name]) r := by
  have hbelow : ∀ other, other <+: names ++ [name] → HoldsMarker d other → other <+: names := by
    intro other hother hholds
    rcases List.prefix_concat_iff.1 hother with rfl | hother
    · exact absurd hholds hnot
    · exact hother
  cases r with
  | none => exact fun above habove hholds => h above (hbelow above habove hholds) hholds
  | some r =>
    obtain ⟨above, hnearest, hr⟩ := h
    exact ⟨above, ⟨hnearest.isPrefix.trans (List.prefix_append ..), hnearest.holds,
      fun other hother hholds => hnearest.nearest other (hbelow other hother hholds) hholds⟩, hr⟩

/-- **Climbing finds the nearest root.** The induction is on the names, one for each step. -/
theorem finds_find? {fuel : Nat} (hp : p.components = .root :: names.map .name)
    (hfuel : names.length ≤ fuel) :
    Finds d names ((p :: Path.ancestorsUpTo fuel p).find? fun dir =>
      d.isDir (dir.join rootMarker)) := by
  induction names using List.reverseRecOn generalizing p fuel with
  | nil =>
    have hancestors : Path.ancestorsUpTo fuel p = [] := by
      cases fuel with
      | zero => rfl
      | succ fuel => rw [Path.ancestorsUpTo, parent?_eq_none hp]
    rw [hancestors, List.find?_cons]
    cases hholds : d.isDir (p.join rootMarker) with
    | true =>
      exact ⟨[], ⟨List.prefix_refl _, (isDir_join_rootMarker_iff hp).1 hholds,
        fun _ hother _ => hother⟩, hp⟩
    | false =>
      intro above habove habove'
      rw [List.prefix_nil.1 habove, ← isDir_join_rootMarker_iff hp, hholds] at habove'
      cases habove'
  | append_singleton names name ih =>
    rw [List.find?_cons]
    cases hholds : d.isDir (p.join rootMarker) with
    | true =>
      exact ⟨names ++ [name], ⟨List.prefix_refl _, (isDir_join_rootMarker_iff hp).1 hholds,
        fun _ hother _ => hother⟩, hp⟩
    | false =>
      -- This directory holds no marker, so the search goes on from its parent.
      obtain ⟨fuel, rfl⟩ : ∃ more, fuel = more + 1 := by
        rw [List.length_append, List.length_singleton] at hfuel
        exact ⟨fuel - 1, by omega⟩
      have hends : p.components = [.root] ++ (names ++ [name]).map .name := hp
      obtain ⟨q, hparent, hq⟩ := Path.exists_parent? (List.concat_ne_nil name names) hends
      rw [List.dropLast_concat] at hq
      have hlength : names.length ≤ fuel := by
        rw [List.length_append, List.length_singleton] at hfuel
        exact Nat.le_of_succ_le_succ hfuel
      have hnot : ¬ HoldsMarker d (names ++ [name]) := by
        rw [← isDir_join_rootMarker_iff hp, hholds]
        exact Bool.false_ne_true
      rw [Path.ancestorsUpTo, hparent]
      exact (ih hq hlength).concat hnot

/-- A path has at least one character for each of its names. -/
theorem length_names_le (hp : p.components = .root :: names.map .name) :
    names.length ≤ p.text.length := by
  have hlength := Path.length_components_le p
  rw [hp, List.length_cons, List.length_map] at hlength
  exact Nat.le_of_succ_le_succ hlength

/-! ## The search -/

section Search

variable (hd : d.root.IsProper)

include hd

/-- A path that is no directory may be among the candidates, since it holds nothing. -/
theorem find?_directories (hp : p.components = .root :: names.map .name) :
    (if d.isDir p then p :: p.ancestors else p.ancestors).find?
        (fun dir => d.isDir (dir.join rootMarker)) =
      (p :: p.ancestors).find? fun dir => d.isDir (dir.join rootMarker) := by
  split
  · rfl
  · rename_i hnot
    have hmarker : d.isDir (p.join rootMarker) = false := by
      rw [← Bool.not_eq_true]
      intro hholds
      obtain ⟨there, entries, hlocate, hat, -⟩ :=
        exists_of_isDir_join hd (text_ne_of_rooted hp) isPlainName_rootMarker hholds
      exact hnot (isDir_iff_locate.2 ⟨there, entries, hlocate, hat⟩)
    rw [List.find?_cons, hmarker]

/-- The search for a root goes through all directories above the start. -/
theorem finds_findRoot? (h : LiesAt d start names) : Finds d names (findRoot? d start) := by
  obtain ⟨p, hstart, hp⟩ : ∃ p, (d.canonical start).toOption.getD start = p ∧
      p.components = .root :: names.map .name := by
    cases h with
    | found h =>
      obtain ⟨n, hn, -⟩ := isReal_of_locate h
      refine ⟨pathOf names, ?_, components_pathOf (hd.of_at? hn).1⟩
      rw [canonical, h]
      rfl
    | missing h hcomponents =>
      refine ⟨start, ?_, hcomponents⟩
      rw [canonical, h]
      rfl
  have hfind := finds_find? (d := d) hp (length_names_le hp)
  rw [findRoot?, directoriesAbove, hstart, find?_directories hd hp]
  exact hfind

/-- A root of a repository is found again from itself, whatever links its path leads over. -/
theorem exists_findRoot?_of_holdsMarker {r : Path}
    (hr : r.components = .root :: above.map .name) (h : HoldsMarker d above) :
    d.isDir r = true ∧ d.locate r = d.locate (pathOf above) ∧
      ∃ r', findRoot? d r = some r' ∧ d.locate r' = d.locate r := by
  obtain ⟨there, entries, hlocate, hat, hmarker⟩ := exists_of_isDir_join hd
    (text_ne_of_rooted hr) isPlainName_rootMarker ((isDir_join_rootMarker_iff hr).2 h)
  have habove := components_pathOf (isPlainName_of_rooted hr)
  have hthere := components_pathOf (hd.of_at? hat).1
  have hcanonical : (d.canonical r).toOption.getD r = pathOf there := by
    rw [canonical, hlocate]
    rfl
  have hholds : d.isDir ((pathOf there).join rootMarker) = true :=
    (isDir_join_rootMarker_iff hthere).2 hmarker
  refine ⟨isDir_iff_locate.2 ⟨there, entries, hlocate, hat⟩, ?_, pathOf there, ?_, ?_⟩
  · rw [hlocate, (locate_iff_follow habove hat).2 ((locate_iff_follow hr hat).1 hlocate)]
  · rw [findRoot?, directoriesAbove, hcanonical, find?_directories hd hthere, List.find?_cons,
      hholds]
  · rw [locate_pathOf hd hat, hlocate]

/-- **The search finds the nearest root of a repository**, and finds one if there is one. What it
finds is a path to that directory, from which it finds that directory again. -/
theorem findRoot?_isNearest (h : LiesAt d start names) :
    ((findRoot? d start).isSome = true ↔ ∃ above, above <+: names ∧ HoldsMarker d above) ∧
    ∀ r, findRoot? d start = some r → r.text ≠ "" ∧ d.isDir r = true ∧
      (∃ above, IsNearest d names above ∧ r.components = (pathOf above).components ∧
        d.locate r = d.locate (pathOf above)) ∧
      ∃ r', findRoot? d r = some r' ∧ d.locate r' = d.locate r := by
  have hfinds := finds_findRoot? hd h
  cases hfound : findRoot? d start with
  | none =>
    rw [hfound] at hfinds
    refine ⟨iff_of_false Bool.false_ne_true ?_, nofun⟩
    rintro ⟨above, habove, hholds⟩
    exact hfinds above habove hholds
  | some r =>
    rw [hfound] at hfinds
    obtain ⟨above, hnearest, hr⟩ := hfinds
    refine ⟨iff_of_true rfl ⟨above, hnearest.isPrefix, hnearest.holds⟩, ?_⟩
    intro r' hr'
    obtain rfl := Option.some.inj hr'
    obtain ⟨hdir, hlocate, hagain⟩ := exists_findRoot?_of_holdsMarker hd hr hnearest.holds
    have habove := components_pathOf (isPlainName_of_rooted hr)
    exact ⟨text_ne_of_rooted hr, hdir, ⟨above, hnearest, hr.trans habove.symm, hlocate⟩, hagain⟩

end Search

/-- A repository with a package in it, and a link to a directory of the package from outside. The
current directory is the package. -/
def linkedPackage : Disk where
  root := .directory [
    ("repo", .directory [(".git", .directory []),
      ("package", .directory [("src", .directory []), ("index.ts", .file [])])]),
    ("link", .link "repo/package/src")]
  current := ["repo", "package"]

/-- Through a link and back, the root of the repository is found. -/
theorem findRoot?_isNearest_linkedPackage :
    linkedPackage.root.IsProper ∧
      LiesAt linkedPackage ⟨"../../link/../index.ts"⟩ ["repo", "package", "index.ts"] ∧
      ∃ r above, findRoot? linkedPackage ⟨"../../link/../index.ts"⟩ = some r ∧ r.text ≠ "" ∧
        IsNearest linkedPackage ["repo", "package", "index.ts"] above ∧
        r.components = (pathOf above).components ∧ above = ["repo"] := by
  have hproper : linkedPackage.root.IsProper := by decide
  have hlies : LiesAt linkedPackage ⟨"../../link/../index.ts"⟩ ["repo", "package", "index.ts"] :=
    .found (by decide)
  obtain ⟨hsome, hall⟩ := findRoot?_isNearest hproper hlies
  have hholds : HoldsMarker linkedPackage ["repo"] := by decide
  obtain ⟨r, hr⟩ := Option.isSome_iff_exists.1 (hsome.2 ⟨["repo"], by decide, hholds⟩)
  obtain ⟨hne, -, ⟨above, hnearest, hcomponents, -⟩, -⟩ := hall r hr
  refine ⟨hproper, hlies, r, above, hr, hne, hnearest, hcomponents, ?_⟩
  have hothers : ∀ n ≤ 3, HoldsMarker linkedPackage (["repo", "package", "index.ts"].take n) →
      ["repo", "package", "index.ts"].take n = ["repo"] := by decide
  have habove := List.prefix_iff_eq_take.1 hnearest.isPrefix
  rw [habove]
  exact hothers above.length hnearest.isPrefix.length_le (habove ▸ hnearest.holds)

/-- A repository with a directory in it, which is the current directory. -/
def repositoryDisk (current : List String) : Disk where
  root := .directory [(".git", .directory []), ("sub", .directory [])]
  current := current

/-- A repository that is not at or above a path with `..`. -/
def nestedDisk : Disk where
  root := .directory [("a", .directory [("b", .directory [(".git", .directory [])])])]

/-- A path that leads nowhere and is relative may have an empty root, which is not found again, or
none although there is one above it. With `..` in it a root is found that is not above it. -/
theorem not_findRoot?_missing :
    (¬ ∀ (d : Disk) start r, d.root.IsProper → findRoot? d start = some r →
      r.text ≠ "" ∧ ∃ r', findRoot? d r = some r' ∧ d.locate r' = d.locate r) ∧
    (¬ ∀ (d : Disk) start, d.root.IsProper → HoldsMarker d [] →
      (findRoot? d start).isSome = true) ∧
    ¬ ∀ (d : Disk) start, d.root.IsProper → start.isAbsolute = true →
      (∀ above, above <+: Path.foldNames start.components → ¬ HoldsMarker d above) →
        findRoot? d start = none := by
  refine ⟨fun h => ?_, fun h => ?_, fun h => ?_⟩
  · have hfound : findRoot? (repositoryDisk []) ⟨"missing"⟩ = some ⟨""⟩ := by decide
    exact (h _ _ _ (by decide) hfound).1 rfl
  · have hnone : findRoot? (repositoryDisk ["sub"]) ⟨"missing"⟩ = none := by decide
    have hsome := h (repositoryDisk ["sub"]) ⟨"missing"⟩ (by decide) (by decide)
    rw [hnone] at hsome
    cases hsome
  · have hfound : findRoot? nestedDisk ⟨"/a/b/../missing"⟩ = some ⟨"/a/b"⟩ := by decide
    have hnone := h nestedDisk ⟨"/a/b/../missing"⟩ (by decide) (by decide) ?_
    · rw [hfound] at hnone
      cases hnone
    · have hall : ∀ n ≤ 2, ¬ HoldsMarker nestedDisk (["a", "missing"].take n) := by decide
      have hfolded : Path.foldNames (Path.components ⟨"/a/b/../missing"⟩) = ["a", "missing"] := by
        decide
      intro above habove
      rw [hfolded] at habove
      rw [List.prefix_iff_eq_take.1 habove]
      exact hall above.length habove.length_le

end RefGraph
