import RefGraph.Proofs.Disk.Plain
import Mathlib.Data.List.Dedup

/-!
# Folded paths on disks

On a disk without links an absolute path leads along its components, `..` included, so that the path
which is freed of links is the folded path. There is such a disk for every absolute path: one on
which all names of the path are found in every directory, down to some depth.

* `Disk.canonical_eq_folded`: a path that is freed of links is folded.
* `Disk.exists_canonical_eq_folded`: every absolute path leads somewhere on some disk.
* `Path.folds_folded`: what folding makes of paths.
-/

namespace RefGraph

namespace Disk

open RefGraph.Path

variable {here there names segments : List String} {name : String} {n : Nat}

section Absolute

variable {d : Disk} {p q : Path}

/-- Where an absolute path leads on a disk without links. -/
theorem locate_iff_advance (h : d.root.IsPlain) (hp : p.isAbsolute = true) :
    d.locate p = .ok there ↔ advance d.root [] (namesOf p.text) = .ok (.place (.node there)) := by
  rw [locate, place_eq h hp]
  cases advance d.root [] (namesOf p.text) with
  | error e => simp
  | ok r =>
    rcases r with (_ | _) | _ <;> simp

/-- **On a disk without links, a path that is freed of links is folded.** -/
theorem canonical_eq_folded (h : d.root.IsPlain) (hp : p.isAbsolute = true)
    (hq : d.canonical p = .ok q) : q = p.folded := by
  cases hlocate : d.locate p with
  | error e =>
    rw [canonical, hlocate] at hq
    cases hq
  | ok there =>
    obtain ⟨_, heq, hleads⟩ := leads_of_advance h ((locate_iff_advance h hp).1 hlocate)
    obtain rfl := Reached.place.inj heq
    have hthere : there = foldNames p.components := by
      rw [← leads_components_iff hp, components_of_isAbsolute hp, leads_root_iff,
        ← componentsOf_namesOf]
      exact hleads there rfl
    rw [canonical, hlocate] at hq
    rw [← Except.ok.inj hq, folded, hp, ← hthere]
    rfl

end Absolute

/-! ## Disks on which paths lead somewhere -/

/-- A tree in which all of the given names are directories, in each other down to some depth. -/
def nested (names : List String) : Nat → DiskNode
  | 0 => .directory []
  | n + 1 => .directory (names.map fun name => (name, nested names n))

theorem map_fst_nested (names : List String) (n : DiskNode) :
    (names.map fun name => (name, n)).map Prod.fst = names := by
  rw [List.map_map]
  exact List.map_id names

/-- A nest of directories with plain names of their own is a plain disk. -/
theorem isPlain_nested (hnodup : names.Nodup) (hplain : ∀ name ∈ names, IsPlainName name)
    (n : Nat) : (nested names n).IsPlain := by
  induction n with
  | zero => exact ⟨List.nodup_nil, trivial⟩
  | succ n ih =>
    refine ⟨(map_fst_nested names _).symm ▸ hnodup, DiskNode.arePlain_iff.2 fun e he => ?_⟩
    obtain ⟨name, hname, rfl⟩ := List.mem_map.1 he
    exact ⟨hplain name hname, ih⟩

theorem child?_nested (hnodup : names.Nodup) (h : name ∈ names) (n : Nat) :
    (nested names (n + 1)).child? name = some (nested names n) :=
  (DiskNode.mem_iff_child? ((map_fst_nested names _).symm ▸ hnodup)).1 (List.mem_map_of_mem h)

/-- Names of the nest lead into it, one directory down for each name. -/
theorem at?_nested (hnodup : names.Nodup) (hhere : ∀ s ∈ here, s ∈ names)
    (hlength : here.length ≤ n) :
    (nested names n).at? here = some (nested names (n - here.length)) := by
  induction here generalizing n with
  | nil => rfl
  | cons s here ih =>
    obtain ⟨hs, hhere⟩ := List.forall_mem_cons.1 hhere
    obtain ⟨m, rfl⟩ := Nat.exists_eq_add_of_le' (Nat.le_trans (Nat.succ_pos _) hlength)
    rw [List.length_cons] at hlength
    rw [DiskNode.at?, child?_nested hnodup hs, Option.bind_some,
      ih hhere (Nat.le_of_succ_le_succ hlength), List.length_cons, Nat.add_sub_add_right]

/-- Names are followed to the end in such a tree, if there are not more of them than the tree is
deep. -/
theorem exists_advance_nested (hnodup : names.Nodup)
    (hsegments : ∀ s ∈ segments, s = "" ∨ s = "." ∨ s = ".." ∨ s ∈ names)
    (hhere : ∀ s ∈ here, s ∈ names) (hlength : here.length + segments.length ≤ n) :
    ∃ there, advance (nested names n) here segments = .ok (.place (.node there)) := by
  induction segments generalizing here with
  | nil => exact ⟨here, rfl⟩
  | cons s segments ih =>
    obtain ⟨hs, hsegments⟩ := List.forall_mem_cons.1 hsegments
    rw [List.length_cons] at hlength
    -- As many levels are left as the depth exceeds the names that lead here.
    obtain ⟨m, hm⟩ : ∃ m, n - here.length = m + 1 := ⟨n - here.length - 1, by omega⟩
    have hat : (nested names n).at? here =
        some (.directory (names.map fun name => (name, nested names m))) := by
      rw [at?_nested hnodup hhere (by omega), hm]
      rfl
    rw [advance_cons hat]
    by_cases hskip : s = "" ∨ s = "."
    · rw [if_pos hskip]
      exact ih hsegments hhere (by omega)
    rw [if_neg hskip]
    by_cases hparent : s = ".."
    · rw [if_pos hparent]
      refine ih hsegments (fun t ht => hhere t ((List.dropLast_sublist here).subset ht)) ?_
      rw [List.length_dropLast]
      omega
    · rw [if_neg hparent]
      have hname : s ∈ names := by
        rcases hs with hs | hs | hs | hs
        · exact absurd (.inl hs) hskip
        · exact absurd (.inr hs) hskip
        · exact absurd hs hparent
        · exact hs
      have hinside : ∀ t ∈ here ++ [s], t ∈ names :=
        List.forall_mem_append.2 ⟨hhere, List.forall_mem_singleton.2 hname⟩
      have hdepth : (here ++ [s]).length + segments.length ≤ n := by
        rw [List.length_append, List.length_singleton]
        omega
      have hnext := ih hsegments hinside hdepth
      rw [enter, at?_nested hnodup hinside (by omega)]
      cases n - (here ++ [s]).length with
      | zero => exact hnext
      | succ m => exact hnext

/-- What stands between slashes is nothing, a dot or two, or a plain name. -/
theorem isPlainName_of_mem_namesOf {text : String} (h : name ∈ namesOf text) :
    name = "" ∨ name = "." ∨ name = ".." ∨ IsPlainName name := by
  obtain ⟨segment, hsegment, rfl⟩ := List.mem_map.1 h
  have hslash := not_mem_of_mem_splitAtChar hsegment
  rw [← String.toList_ofList (l := segment)] at hslash
  have hof := Component.ofSegment?_toList (String.ofList segment)
  split at hof
  · rename_i hskip
    exact hskip.imp_right .inl
  split at hof
  · rename_i hparent
    exact .inr (.inr (.inl hparent))
  · exact .inr (.inr (.inr ⟨hslash, hof⟩))

/-- **Every absolute path leads somewhere on some disk without links**, and there it is folded when
it is freed of links. -/
theorem exists_canonical_eq_folded {p : Path} (hp : p.isAbsolute = true) :
    ∃ d : Disk, d.root.IsPlain ∧ d.canonical p = .ok p.folded := by
  have hmem : ∀ s, s ∈ ((namesOf p.text).filter IsPlainName).dedup ↔
      s ∈ namesOf p.text ∧ IsPlainName s := by
    intro s
    rw [List.mem_dedup, List.mem_filter, decide_eq_true_iff]
  have hnodup := List.nodup_dedup ((namesOf p.text).filter IsPlainName)
  generalize ((namesOf p.text).filter IsPlainName).dedup = names at hmem hnodup
  have hplain := isPlain_nested hnodup (fun s hs => ((hmem s).1 hs).2) (namesOf p.text).length
  have hsegments : ∀ s ∈ namesOf p.text, s = "" ∨ s = "." ∨ s = ".." ∨ s ∈ names := by
    intro s hs
    have hcases := isPlainName_of_mem_namesOf hs
    exact hcases.imp_right (.imp_right (.imp_right fun hname => (hmem s).2 ⟨hs, hname⟩))
  obtain ⟨there, hthere⟩ := exists_advance_nested hnodup hsegments
    (fun t ht => absurd ht List.not_mem_nil) (Nat.le_of_eq (Nat.zero_add _))
  have hcanonical : canonical ⟨nested names (namesOf p.text).length, []⟩ p =
      .ok (pathOf there) := by
    rw [canonical, (locate_iff_advance hplain hp).2 hthere]
    rfl
  exact ⟨_, hplain, by rw [hcanonical, canonical_eq_folded hplain hp hcanonical]⟩

end Disk

/-! ## Folding -/

namespace Path

/-- What folding makes of paths. -/
structure Folds (fold : Path → Path) : Prop where
  /-- Neither a `.` nor a `..` is left. -/
  ne_dots : ∀ p, ∀ c ∈ (fold p).components, c ≠ .current ∧ c ≠ .parent
  /-- Folding again changes nothing. -/
  fold_fold : ∀ p, fold (fold p) = fold p
  /-- It makes no difference whether a path is folded before another one is put behind it. -/
  fold_join : ∀ p q, fold (p.join q) = fold ((fold p).join q)
  /-- What is absolute stays absolute, and nothing else becomes it. -/
  isAbsolute : ∀ p, (fold p).isAbsolute = p.isAbsolute
  /-- An absolute path becomes that of the one place to which its components lead from the root of a
  tree without links. -/
  leads : ∀ p, p.isAbsolute = true → ∃ names, fold p = ofNames true names ∧
    ∀ there, Leads [] p.components there ↔ there = names
  /-- On no disk without links does it lead to another place. -/
  canonical : ∀ p, p.isAbsolute = true → ∀ d : Disk, d.root.IsPlain → ∀ q, d.canonical p = .ok q →
    q = fold p
  /-- On some disk without links it does lead to that place. -/
  exists_canonical : ∀ p, p.isAbsolute = true →
    ∃ d : Disk, d.root.IsPlain ∧ d.canonical p = .ok (fold p)

/-- **Folding agrees with joining, and it takes an absolute path to the place where that leads in a
tree without links.** -/
theorem folds_folded : Folds folded where
  ne_dots _ _ := ne_of_mem_components_folded
  fold_fold := folded_folded
  fold_join := folded_join
  isAbsolute := isAbsolute_folded
  leads p hp := by
    refine ⟨foldNames p.components, ?_, fun there => leads_components_iff hp⟩
    rw [folded, hp]
  canonical _ hp _ hplain _ := Disk.canonical_eq_folded hplain hp
  exists_canonical _ := Disk.exists_canonical_eq_folded

/-- A `..` in the root leads to the root, and dots and slashes at the end lead nowhere. -/
example : folded ⟨"/../a/./b//../c/."⟩ = ⟨"/a/c"⟩ := by decide

end Path

end RefGraph
