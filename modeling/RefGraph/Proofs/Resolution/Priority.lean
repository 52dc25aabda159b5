import RefGraph.Proofs.Path.Congruence
import RefGraph.Proofs.Resolution.Meaning
import RefGraph.Proofs.Scan.Probes

/-!
# Where a specifier leads

What a specifier refers to is a file strictly below the root, or nothing. It is the first file among
the paths that are looked for, in the order of the extensions, and the path itself comes before all
of them.

* `lookups`: the paths that are looked for, in their order.
* `fileUnder?_eq_find?`: the first of them that is a file is found.
* `Resolves`, `resolves_resolve?`: what a specifier refers to.
-/

namespace RefGraph

open RefGraph.Path

/-! ## The order -/

/-- The extensions, those of scripts before those of stylesheets. -/
def extensionOrder : List String :=
  ["ts", "tsx", "js", "jsx", "mjs", "cjs", "css", "scss", "sass"]

/-- The paths that are looked for under a path: the path, the path with each extension if it has
none of them, and the index files if it is a directory. -/
def lookups (fs : FileSystem) (p : Path) : List Path :=
  [p] ++ (if ∃ ext ∈ extensionOrder, p.extension? = some ext then []
      else extensionOrder.map fun ext => ⟨p.text ++ "." ++ ext⟩) ++
    (if fs.isDir p then extensionOrder.map fun ext => p.join ⟨"index." ++ ext⟩ else [])

/-- A file is supported just if its extension is tried. -/
theorem isSome_ofPath?_iff {p : Path} :
    (SourceKind.ofPath? p).isSome = true ↔ ∃ ext ∈ extensionOrder, p.extension? = some ext := by
  have horder : ∀ ext, ext ∈ extensionOrder ↔ ext ∈ scriptExtensions ∨ ext ∈ styleExtensions :=
    fun ext => List.mem_append (s := scriptExtensions) (t := styleExtensions)
  rw [SourceKind.ofPath?]
  cases p.extension? with
  | none => simp
  | some ext =>
    by_cases hscript : ext ∈ scriptExtensions
    · simp [horder, hscript]
    · by_cases hstyle : ext ∈ styleExtensions
      · simp [horder, hscript, hstyle]
      · simp [horder, hscript, hstyle]

/-- **The first file among the paths that are looked for is found.** -/
theorem fileUnder?_eq_find? (fs : FileSystem) (p : Path) :
    fileUnder? fs p = (lookups fs p).find? fs.isFile := by
  have hextended : withExtensions p =
      if ∃ ext ∈ extensionOrder, p.extension? = some ext then []
      else extensionOrder.map fun ext => ⟨p.text ++ "." ++ ext⟩ := by
    rw [withExtensions]
    exact ite_congr (propext isSome_ofPath?_iff) (fun _ => rfl) fun _ => rfl
  have hindex : (if fs.isDir p then (triedExtensions.map (indexFile p)).find? fs.isFile else none) =
      (if fs.isDir p then extensionOrder.map fun ext => p.join ⟨"index." ++ ext⟩
        else []).find? fs.isFile := by
    split <;> rfl
  rw [fileUnder?, lookups, List.find?_append, ← hextended, ← hindex, Option.orElse_eq_or]
  rfl

/-- What is found under a path is a file. -/
theorem isFile_of_fileUnder? {fs : FileSystem} {p hit : Path} (h : fileUnder? fs p = some hit) :
    fs.isFile hit = true := by
  rw [fileUnder?_eq_find?] at h
  exact List.find?_some h

/-! ## Below the root -/

theorem isSome_below?_iff {root p : Path} :
    (root.below? p).isSome = true ↔ root.components <+: p.components := by
  rw [below?, ← List.isPrefixOf_iff_prefix]
  split <;> simp_all

/-- Text behind a path that begins with no slash does not make it absolute. -/
theorem isAbsolute_of_append {text more : String} (hmore : more.toList.head? ≠ some '/')
    (h : isAbsolute ⟨text ++ more⟩ = true) : isAbsolute ⟨text⟩ = true := by
  rw [isAbsolute, beq_iff_eq, String.toList_append, List.head?_append, Option.or_eq_some_iff] at h
  rw [isAbsolute, beq_iff_eq]
  exact h.resolve_right fun hnone => hmore hnone.2

/-- What is tried for a relative path is relative. -/
theorem isAbsolute_of_mem_probes {p q : Path} (hq : q ∈ probes p) (h : q.isAbsolute = true) :
    p.isAbsolute = true := by
  rw [probes, List.mem_append, List.mem_cons] at hq
  rcases hq with (rfl | hq) | hq
  · exact h
  · rw [withExtensions] at hq
    split at hq
    · cases hq
    obtain ⟨ext, -, rfl⟩ := List.mem_map.1 hq
    rw [withExtension, String.append_assoc] at h
    exact isAbsolute_of_append (by simp) h
  · obtain ⟨ext, -, rfl⟩ := List.mem_map.1 hq
    have hindex : ("index." ++ ext).toList.head? ≠ some '/' := by simp
    rw [indexFile, join, if_neg (by simp [isAbsolute])] at h
    split at h
    · exact isAbsolute_of_append hindex h
    · rename_i hend
      obtain ⟨c, cs, hc⟩ := List.exists_cons_of_ne_nil (not_or.1 hend).1
      rw [isAbsolute, String.toList_append, String.toList_append, hc] at h
      rw [isAbsolute, hc]
      exact h

/-- A path that is tried and that begins like an absolute root is made of plain names, as is the
path for which it is tried. -/
theorem exists_names_of_prefix {root p hit : Path} (hroot : root.isAbsolute = true)
    (hhit : hit ∈ probes p.folded) (hbelow : root.components <+: hit.components) :
    ∃ names names', p.folded = ofNames true names ∧ (∀ name ∈ names, IsPlainName name) ∧
      hit = ofNames true names' ∧ ∀ name ∈ names', IsPlainName name := by
  have habsolute : hit.isAbsolute = true :=
    isAbsolute_iff_mem.2 (hbelow.subset (isAbsolute_iff_mem.1 hroot))
  obtain ⟨names, hfolded, hnames⟩ :=
    exists_folded_eq (isAbsolute_folded p ▸ isAbsolute_of_mem_probes hhit habsolute)
  rw [hfolded] at hhit
  obtain ⟨names', hhit', hnames', -, -⟩ := exists_names_of_mem_probes hnames hhit
  exact ⟨names, names', hfolded, hnames, hhit', hnames'⟩

/-! ## The reference -/

variable {fs : FileSystem} {root : Path} {aliases : List String} {fromFile : Path}
  {specifier : String} {spec : List Char} {p hit : Path}

theorem isRemote_iff {cs : List Char} : isRemote cs = true ↔ "http".toList <+: cs :=
  List.isPrefixOf_iff_prefix

/-- A remote specifier leads to no file. -/
theorem resolve?_of_isRemote (h : "http".toList <+: specifier.toList) :
    resolve? fs root aliases fromFile specifier = none := by
  rw [resolve?, if_pos (isRemote_iff.2 h)]

/-- A bare specifier leads to no file. -/
theorem resolve?_of_bare (hcut : IsCut specifier.toList spec)
    (hnone : candidate? root aliases fromFile spec = none) :
    resolve? fs root aliases fromFile specifier = none := by
  rw [resolve?, isCut_iff.1 hcut, hnone]
  exact ite_self none

/-- A specifier that leads to a path refers to what is found under that path, if it lies below the
root. -/
theorem resolve?_of_leadsTo (hlocal : ¬ "http".toList <+: specifier.toList)
    (hcut : IsCut specifier.toList spec) (hp : LeadsTo root aliases fromFile spec p) :
    resolve? fs root aliases fromFile specifier =
      (fileUnder? fs p.folded).filter fun hit => (root.below? hit).isSome := by
  rw [resolve?, if_neg (mt isRemote_iff.1 hlocal), isCut_iff.1 hcut, candidate?_eq_some_iff.2 hp]

/-- What a specifier refers to is a file that was tried, and begins like the root. -/
theorem exists_mem_probes_of_resolve? (h : resolve? fs root aliases fromFile specifier = some hit) :
    ∃ p : Path, hit ∈ probes p.folded ∧ fs.isFile hit = true ∧
      root.components <+: hit.components := by
  rw [resolve?] at h
  split at h
  · cases h
  split at h
  · cases h
  · rename_i p hp
    obtain ⟨hhit, hbelow⟩ := Option.filter_eq_some_iff.1 h
    exact ⟨p, mem_probes_of_fileUnder? hhit, isFile_of_fileUnder? hhit,
      isSome_below?_iff.1 hbelow⟩

/-- What a specifier refers to, and when it refers to nothing. -/
structure Resolves (fs : FileSystem) (root : Path) (aliases : List String) (fromFile : Path)
    (specifier : String) (answer : Option Path) : Prop where
  isFile : ∀ hit, answer = some hit → fs.isFile hit = true
  /-- It lies strictly below the root. -/
  below : ∀ hit, answer = some hit →
    ∃ names : List String, names ≠ [] ∧ hit.components = root.components ++ names.map .name
  folded : ∀ hit, answer = some hit →
    Component.current ∉ hit.components ∧ Component.parent ∉ hit.components
  remote : "http".toList <+: specifier.toList → answer = none
  bare : ∀ spec, IsCut specifier.toList spec → BeginsWithNone aliases spec →
    spec.head? ≠ some '/' → spec.head? ≠ some '.' → answer = none
  outside : ∀ spec p, IsCut specifier.toList spec → LeadsTo root aliases fromFile spec p →
    ¬ root.components <+: p.folded.components → answer = none
  /-- Below the root the first file is taken, and there is an answer whenever there is a file. -/
  first : ∀ spec p, ¬ "http".toList <+: specifier.toList → IsCut specifier.toList spec →
    LeadsTo root aliases fromFile spec p → root.components <+: p.folded.components →
    p.folded.components ≠ root.components → answer = (lookups fs p.folded).find? fs.isFile

section Root

variable (hroot : root.isAbsolute = true) (hparent : Component.parent ∉ root.components)

include hroot hparent

/-- What is tried and begins like the root is the root as it is folded, or lies strictly below
it. -/
theorem eq_folded_or_below (hhit : hit ∈ probes p.folded)
    (hbelow : root.components <+: hit.components) :
    hit = root.folded ∨
      ∃ names : List String, names ≠ [] ∧ hit.components = root.components ++ names.map .name := by
  obtain ⟨rootNames, hcomponents⟩ := exists_components_eq hroot hparent
  obtain ⟨-, names, -, -, rfl, hnames⟩ := exists_names_of_prefix hroot hhit hbelow
  rw [components_ofNames hnames, hcomponents, List.cons_prefix_cons] at hbelow
  obtain ⟨more, rfl⟩ :=
    (List.prefix_map_iff_of_injective fun _ _ => Component.name.inj).1 hbelow.2
  by_cases hnil : more = []
  · left
    rw [hnil, List.append_nil, folded, hroot, hcomponents, foldNames_map_name]
  · right
    refine ⟨more, hnil, ?_⟩
    rw [components_ofNames hnames, hcomponents, List.map_append, List.cons_append]

/-- All that is tried for a path strictly below the root lies below it. -/
theorem isPrefix_of_mem_probes (hp : root.components <+: p.folded.components)
    (hne : p.folded.components ≠ root.components) (hhit : hit ∈ probes p.folded) :
    root.components <+: hit.components := by
  obtain ⟨rootNames, hcomponents⟩ := exists_components_eq hroot hparent
  have hself : p.folded ∈ probes p.folded := List.mem_append_left _ List.mem_cons_self
  obtain ⟨names, -, hfolded, hnames, -, -⟩ := exists_names_of_prefix hroot hself hp
  rw [hfolded, components_ofNames hnames, hcomponents] at hp hne
  rw [List.cons_prefix_cons, List.prefix_map_iff_of_injective fun _ _ => Component.name.inj] at hp
  rw [hfolded] at hhit
  obtain ⟨more, hmore⟩ := holds_of_mem_probes hcomponents hnames hp.2
    (fun hsame => hne (by rw [hsame])) hhit
  exact hmore ▸ List.prefix_append ..

/-- Nothing that is tried for a path outside of the root lies strictly below it. -/
theorem eq_folded_of_outside (hp : ¬ root.components <+: p.folded.components)
    (hhit : hit ∈ probes p.folded) (hbelow : root.components <+: hit.components) :
    hit = root.folded := by
  obtain ⟨rootNames, hcomponents⟩ := exists_components_eq hroot hparent
  refine (eq_folded_or_below hroot hparent hhit hbelow).resolve_right ?_
  rintro ⟨more, hne, hmore⟩
  obtain ⟨names, -, hfolded, hnames, -, -⟩ := exists_names_of_prefix hroot hhit hbelow
  rw [hfolded] at hp hhit
  have houtside : ¬ rootNames <+: names := fun h => hp (by
    rw [components_ofNames hnames, hcomponents]
    exact List.cons_prefix_cons.2 ⟨rfl, h.map _⟩)
  have hnone := relativeTo?_of_mem_probes hcomponents hnames houtside hhit
  rw [relativeTo?_eq_some_iff.2 ⟨_, by simpa using hne, hmore, rfl⟩] at hnone
  cases hnone

/-- **A specifier refers to the first file below the root**, and to nothing if it is remote or bare,
if it leads outside of the root, or if there is no file. The root itself must not be one. -/
theorem resolves_resolve? (hfile : fs.isFile root.folded = false) :
    Resolves fs root aliases fromFile specifier
      (resolve? fs root aliases fromFile specifier) where
  isFile hit hhit := by
    obtain ⟨p, -, hisFile, -⟩ := exists_mem_probes_of_resolve? hhit
    exact hisFile
  below hit hhit := by
    obtain ⟨p, hprobe, hisFile, hbelow⟩ := exists_mem_probes_of_resolve? hhit
    refine (eq_folded_or_below hroot hparent hprobe hbelow).resolve_left ?_
    rintro rfl
    exact Bool.false_ne_true (hfile.symm.trans hisFile)
  folded hit hhit := by
    obtain ⟨p, hprobe, -, hbelow⟩ := exists_mem_probes_of_resolve? hhit
    obtain ⟨-, names, -, -, rfl, hnames⟩ := exists_names_of_prefix hroot hprobe hbelow
    rw [components_ofNames hnames]
    simp
  remote := resolve?_of_isRemote
  bare spec hcut hnone hslash hdot :=
    resolve?_of_bare hcut (candidate?_eq_none_iff.2 ⟨hnone, hslash, hdot⟩)
  outside spec p hcut hp houtside := by
    by_cases hremote : "http".toList <+: specifier.toList
    · exact resolve?_of_isRemote hremote
    rw [resolve?_of_leadsTo hremote hcut hp, Option.filter_eq_none_iff]
    intro hit hfound hbelow
    -- Only the root itself could be found there, and it is no file.
    have hsame := eq_folded_of_outside hroot hparent houtside (mem_probes_of_fileUnder? hfound)
      (isSome_below?_iff.1 hbelow)
    have hisFile := isFile_of_fileUnder? hfound
    rw [hsame, hfile] at hisFile
    cases hisFile
  first spec p hlocal hcut hp hbelow hne := by
    rw [resolve?_of_leadsTo hlocal hcut hp, ← fileUnder?_eq_find?]
    cases hfound : fileUnder? fs p.folded with
    | none => rfl
    | some hit =>
      refine Option.filter_some_pos ?_
      exact isSome_below?_iff.2 (isPrefix_of_mem_probes hroot hparent hbelow hne
        (mem_probes_of_fileUnder? hfound))

end Root

/-- A tree with a stylesheet and a directory that are called alike. -/
def styleAndDirectory : FileSystem :=
  (Memory.ofEntries [(⟨"/r/x.css"⟩, ""), (⟨"/r/x/index.ts"⟩, ""), (⟨"/r/b/c.ts"⟩, ""),
    (⟨"/x.ts"⟩, "")] []).fileSystem

/-- The stylesheet comes before the directory of the same name. -/
theorem resolves_styleAndDirectory :
    isAbsolute ⟨"/r"⟩ = true ∧ Component.parent ∉ components ⟨"/r"⟩ ∧
      styleAndDirectory.isFile (folded ⟨"/r"⟩) = false ∧
      Resolves styleAndDirectory ⟨"/r"⟩ ["~/"] ⟨"/r/b/c.ts"⟩ "../x?raw"
        (resolve? styleAndDirectory ⟨"/r"⟩ ["~/"] ⟨"/r/b/c.ts"⟩ "../x?raw") ∧
      resolve? styleAndDirectory ⟨"/r"⟩ ["~/"] ⟨"/r/b/c.ts"⟩ "../x?raw" = some ⟨"/r/x.css"⟩ := by
  have hfile : styleAndDirectory.isFile (folded ⟨"/r"⟩) = false := by decide +kernel
  exact ⟨by decide, by decide, hfile, resolves_resolve? (by decide) (by decide) hfile,
    by decide +kernel⟩

end RefGraph
