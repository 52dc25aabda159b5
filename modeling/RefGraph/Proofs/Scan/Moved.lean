import RefGraph.Proofs.FileSystem.Listings
import RefGraph.Proofs.Scan.Alike
import RefGraph.Proofs.Scan.Candidates

/-!
# Scans of a tree that was moved

The same tree may lie below different roots. If no reference leads out of it, a scan gives the same
graph in both places, but for the name of the root.

* `Tree`: a tree of files with their texts and of directories; `Memory.Holds`: it lies below a root,
  and there are no other files.
* `Memory.Holds.alike`: trees in memory that hold the same tree look alike.
* `StaysInside`: a specifier means a path inside of the root.
* `fileUnder?_moved`: for such a path the same file is found in both places.
* `scan_moved`: scans of both give the same.
-/

namespace RefGraph

/-! ## Trees -/

/-- A tree: the names that lead to its files, each with its text, and those that lead to its
directories. -/
structure Tree where
  files : List (List String × String)
  dirs : List (List String)
deriving DecidableEq, Repr, Inhabited

/-- A tree in memory holds exactly this tree below a root. -/
structure Memory.Holds (m : Memory) (root : Path) (t : Tree) : Prop where
  distinct : m.Distinct
  files : ∀ (names : List String) (text : String),
    m.HasFile (root.components ++ names.map .name) text ↔ (names, text) ∈ t.files
  dirs : ∀ names : List String,
    m.HasDir (root.components ++ names.map .name) ↔ names = [] ∨ names ∈ t.dirs
  below : ∀ cs text, m.HasFile cs text → ∃ names : List String,
    cs = root.components ++ names.map .name

variable {t : Tree} {m m' : Memory} {root root' : Path}

namespace Memory.Holds

theorem concat_eq {names : List String} {dir : Path} {name : String}
    (h : dir.components = root.components ++ names.map .name) :
    dir.components ++ [.name name] = root.components ++ (names ++ [name]).map .name := by
  rw [h, List.map_append, List.append_assoc]
  rfl

/-- What is listed is what the tree has there. -/
theorem mem_keys_entries_iff (h : m.Holds root t) {dir : Path} {names : List String}
    (hdir : dir.components = root.components ++ names.map .name) {name : String} {isDir : Bool} :
    (name, isDir) ∈ (m.fileSystem.entries dir).map Entry.key ↔ (names = [] ∨ names ∈ t.dirs) ∧
      if isDir then names ++ [name] ∈ t.dirs
      else ∃ text, (names ++ [name], text) ∈ t.files := by
  rw [Memory.mem_keys_entries_iff, concat_eq hdir, hdir, h.dirs, h.dirs]
  simp only [h.files, List.append_eq_nil_iff, List.cons_ne_self, and_false, false_or]

/-- **Trees in memory that hold the same tree look alike.** -/
theorem alike (h : m.Holds root t) (h' : m'.Holds root' t) :
    m.fileSystem.Alike root root' m'.fileSystem := by
  refine ⟨Memory.listsChildren m root, Memory.listsChildren m' root', Memory.isBounded m root,
    Memory.isBounded m' root', ?_⟩
  intro names dir dir' hdir hdir'
  apply forall₂_sortEntries (h.distinct.orderly_entries dir) (h'.distinct.orderly_entries dir')
  · intro name isDir
    rw [h.mem_keys_entries_iff hdir, h'.mem_keys_entries_iff hdir']
  · intro e he e' he' hkey
    obtain ⟨hname, hisDir⟩ := Prod.mk.inj hkey
    refine ⟨hname, hisDir, fun hfile => congrArg Except.toOption ?_⟩
    have hmem : (e.name, false) ∈ (m.fileSystem.entries dir).map Entry.key :=
      List.mem_map.2 ⟨e, he, by rw [Entry.key, hfile]⟩
    obtain ⟨-, text, htext⟩ := (h.mem_keys_entries_iff hdir).1 hmem
    have hread : m.read e.path = .ok text := by
      rw [Memory.read_eq_ok_iff h.distinct, Memory.components_of_mem_entries he, concat_eq hdir,
        h.files]
      exact htext
    have hread' : m'.read e'.path = .ok text := by
      rw [Memory.read_eq_ok_iff h'.distinct, Memory.components_of_mem_entries he', ← hname,
        concat_eq hdir', h'.files]
      exact htext
    show m.read e.path = m'.read e'.path
    rw [hread, hread']

end Memory.Holds

/-- Names behind a root are told apart by their components. -/
theorem names_eq_of_append_eq {names names' : List String}
    (h : root.components ++ names.map Component.name = root.components ++ names'.map .name) :
    names = names' :=
  Path.map_name_inj (List.append_cancel_left h)

/-- The files of a tree in memory, if their paths are those of a tree behind a root. -/
theorem Memory.hasFile_iff_of_eq
    (hfiles : (m.files.map fun f => (f.1.components, f.2)) =
      t.files.map fun f => (root.components ++ f.1.map .name, f.2)) {cs : List Component}
    {text : String} : m.HasFile cs text ↔
      ∃ names, (names, text) ∈ t.files ∧ root.components ++ names.map .name = cs := by
  have hmem : m.HasFile cs text ↔ (cs, text) ∈ m.files.map fun f => (f.1.components, f.2) := by
    rw [List.mem_map]
    constructor
    · rintro ⟨p, hp, rfl⟩
      exact ⟨(p, text), hp, rfl⟩
    · rintro ⟨f, hf, heq⟩
      obtain ⟨rfl, rfl⟩ := Prod.mk.inj heq
      exact ⟨f.1, hf, rfl⟩
  rw [hmem, hfiles, List.mem_map]
  constructor
  · rintro ⟨f, hf, heq⟩
    obtain ⟨rfl, rfl⟩ := Prod.mk.inj heq
    exact ⟨f.1, hf, rfl⟩
  · rintro ⟨names, hf, rfl⟩
    exact ⟨(names, text), hf, rfl⟩

/-- Its directories behind the root, likewise. -/
theorem Memory.hasDir_iff_of_eq
    (hdirs : (m.dirs.map Path.components).filter (root.components.isPrefixOf ·) =
      root.components :: t.dirs.map fun names => root.components ++ names.map .name)
    {names : List String} :
    m.HasDir (root.components ++ names.map .name) ↔ names = [] ∨ names ∈ t.dirs := by
  have hprefix : root.components.isPrefixOf (root.components ++ names.map .name) = true :=
    List.isPrefixOf_iff_prefix.2 (List.prefix_append ..)
  have hmem : m.HasDir (root.components ++ names.map .name) ↔
      root.components ++ names.map .name ∈
        (m.dirs.map Path.components).filter (root.components.isPrefixOf ·) := by
    rw [List.mem_filter, List.mem_map]
    exact (and_iff_left hprefix).symm
  rw [hmem, hdirs, List.mem_cons, List.mem_map]
  refine or_congr ⟨?_, ?_⟩ ⟨?_, fun hnames => ⟨names, hnames, rfl⟩⟩
  · exact fun heq => @names_eq_of_append_eq root names [] (heq.trans (List.append_nil _).symm)
  · rintro rfl
    exact List.append_nil _
  · rintro ⟨names', hnames', heq⟩
    rw [← names_eq_of_append_eq heq]
    exact hnames'

/-- A tree in memory whose paths are those of a tree behind a root holds that tree. -/
theorem Memory.holds_of_eq (hdistinct : m.Distinct)
    (hfiles : (m.files.map fun f => (f.1.components, f.2)) =
      t.files.map fun f => (root.components ++ f.1.map .name, f.2))
    (hdirs : (m.dirs.map Path.components).filter (root.components.isPrefixOf ·) =
      root.components :: t.dirs.map fun names => root.components ++ names.map .name) :
    m.Holds root t := by
  refine ⟨hdistinct, fun names text => ?_, fun names => hasDir_iff_of_eq hdirs, ?_⟩
  · rw [hasFile_iff_of_eq hfiles]
    constructor
    · rintro ⟨names', hf, hnames⟩
      rw [← names_eq_of_append_eq hnames]
      exact hf
    · exact fun hf => ⟨names, hf, rfl⟩
  · intro cs text hfile
    obtain ⟨names, -, hcs⟩ := (hasFile_iff_of_eq hfiles).1 hfile
    exact ⟨names, hcs.symm⟩

/-! ## Paths in both places -/

open RefGraph.Path

/-- Names of a root, which is neither empty nor the root of all. -/
structure IsRootOf (root : Path) (names : List String) : Prop where
  components : root.components = .root :: names.map .name
  ne_nil : names ≠ []

namespace IsRootOf

variable {names : List String}

theorem isPlainName (h : IsRootOf root names) {name : String} (hname : name ∈ names) :
    IsPlainName name := by
  refine isPlainName_of_mem_components (p := root) ?_
  rw [h.components]
  exact List.mem_cons_of_mem _ (List.mem_map_of_mem hname)

theorem text_ne (h : IsRootOf root names) : root.text ≠ "" :=
  text_ne_of_components (by rw [h.components]; exact List.cons_ne_nil _ _)

theorem isPlainName_append (h : IsRootOf root names) {inside : List String}
    (hinside : ∀ name ∈ inside, IsPlainName name) : ∀ name ∈ names ++ inside, IsPlainName name := by
  intro name hname
  rcases List.mem_append.1 hname with hname | hname
  · exact h.isPlainName hname
  · exact hinside name hname

/-- Behind the names of a root there are names below it. -/
theorem components_ofNames (h : IsRootOf root names) {inside : List String}
    (hinside : ∀ name ∈ inside, IsPlainName name) :
    (ofNames true (names ++ inside)).components = root.components ++ inside.map .name := by
  rw [Path.components_ofNames (h.isPlainName_append hinside), h.components, List.map_append]
  rfl

/-- No file is called like the root with an extension. -/
theorem isFile_withExtension (h : IsRootOf root names) (hm : m.Holds root t) {ext : String}
    (hext : ext ∈ triedExtensions) :
    m.isFile (withExtension (ofNames true names) ext) = false := by
  obtain ⟨init, last, rfl⟩ := (List.eq_nil_or_concat' names).resolve_left h.ne_nil
  rw [Bool.eq_false_iff, ne_eq, Memory.isFile_iff]
  rintro ⟨text, hfile⟩
  obtain ⟨inside, hinside⟩ := hm.below _ _ hfile
  have hplain : ∀ name ∈ init ++ [last ++ ("." ++ ext)], IsPlainName name := by
    intro name hname
    rcases List.mem_append.1 hname with hname | hname
    · exact h.isPlainName (List.mem_append_left _ hname)
    · rw [List.mem_singleton.1 hname]
      exact isPlainName_extended (h.isPlainName (by simp)).slash hext
  rw [withExtension_ofNames, List.dropLast_concat, List.getLast?_concat, Option.getD_some,
    Path.components_ofNames hplain, h.components, List.cons_append, ← List.map_append] at hinside
  -- The last name of the root would be the same with the extension behind it.
  have hnames := map_name_inj (List.cons.inj hinside).2
  rw [List.append_assoc] at hnames
  have hlast : (last ++ ("." ++ ext)).toList = last.toList :=
    congrArg String.toList (List.cons.inj (List.append_cancel_left hnames)).1
  rw [String.toList_append] at hlast
  have hempty := List.append_cancel_left (hlast.trans (List.append_nil _).symm)
  rw [String.toList_append] at hempty
  cases hempty

/-- Extensions behind the root lead beside it, where there is no file. -/
theorem find?_withExtensions (h : IsRootOf root names) (hm : m.Holds root t) :
    (withExtensions (ofNames true names)).find? m.fileSystem.isFile = none := by
  rw [List.find?_eq_none]
  intro q hq
  rw [withExtensions] at hq
  split at hq
  · cases hq
  · obtain ⟨ext, hext, rfl⟩ := List.mem_map.1 hq
    show ¬ m.isFile _ = true
    rw [h.isFile_withExtension hm hext]
    exact Bool.false_ne_true

end IsRootOf

/-- Two paths lie in the same place, each below its root. -/
inductive SamePlace (rootNames rootNames' : List String) : Path → Path → Prop
  | below (inside : List String) (h : ∀ name ∈ inside, IsPlainName name) :
      SamePlace rootNames rootNames' (ofNames true (rootNames ++ inside))
        (ofNames true (rootNames' ++ inside))

section Places

variable {rootNames rootNames' : List String}

/-- An extension behind a path below the roots belongs to its last name. -/
theorem SamePlace.withExtension {inside : List String} (hne : inside ≠ [])
    (hinside : ∀ name ∈ inside, IsPlainName name) {ext : String} (hext : ext ∈ triedExtensions) :
    SamePlace rootNames rootNames'
      (RefGraph.withExtension (ofNames true (rootNames ++ inside)) ext)
      (RefGraph.withExtension (ofNames true (rootNames' ++ inside)) ext) := by
  have hlonger : ∀ names : List String,
      (names ++ inside).dropLast ++ [(names ++ inside).getLast?.getD "" ++ ("." ++ ext)] =
        names ++ (inside.dropLast ++ [inside.getLast?.getD "" ++ ("." ++ ext)]) := by
    intro names
    rw [List.dropLast_append_of_ne_nil hne, List.getLast?_append_of_ne_nil _ hne,
      List.append_assoc]
  rw [withExtension_ofNames, withExtension_ofNames, hlonger, hlonger]
  apply SamePlace.below
  intro name hname
  rcases List.mem_append.1 hname with hname | hname
  · exact hinside name (List.dropLast_subset _ hname)
  · rw [List.mem_singleton.1 hname]
    refine isPlainName_extended ?_ hext
    cases hlast : inside.getLast? with
    | none => decide
    | some last => exact (hinside last (List.mem_of_getLast? hlast)).slash

variable (hroot : IsRootOf root rootNames) (hroot' : IsRootOf root' rootNames')
  (h : m.Holds root t) (h' : m'.Holds root' t)

include hroot hroot'

/-- Paths at the same place have the same identifier, and both are below their roots. -/
theorem SamePlace.relativeTo? {p p' : Path} (hp : SamePlace rootNames rootNames' p p') :
    root.relativeTo? p = root'.relativeTo? p' ∧
      (root.below? p).isSome = true ∧ (root'.below? p').isSome = true := by
  obtain ⟨inside, hinside⟩ := hp
  have hbelow : ∀ {root : Path} {names : List String}, IsRootOf root names →
      root.below? (ofNames true (names ++ inside)) = some (inside.map .name) := by
    intro root names h
    rw [below?, h.components_ofNames hinside,
      if_pos (List.isPrefixOf_iff_prefix.2 (List.prefix_append ..)), List.drop_left]
  rw [Path.relativeTo?, Path.relativeTo?, hbelow hroot, hbelow hroot']
  exact ⟨rfl, rfl, rfl⟩

/-- An index file is one name further. -/
theorem SamePlace.indexFile {inside : List String} (hinside : ∀ name ∈ inside, IsPlainName name)
    {ext : String} (hext : ext ∈ triedExtensions) :
    SamePlace rootNames rootNames' (RefGraph.indexFile (ofNames true (rootNames ++ inside)) ext)
      (RefGraph.indexFile (ofNames true (rootNames' ++ inside)) ext) := by
  rw [indexFile_ofNames (hroot.isPlainName_append hinside),
    indexFile_ofNames (hroot'.isPlainName_append hinside), List.append_assoc, List.append_assoc]
  apply SamePlace.below
  intro name hname
  rcases List.mem_append.1 hname with hname | hname
  · exact hinside name hname
  · rw [List.mem_singleton.1 hname]
    exact isPlainName_index hext

/-- Strictly below the roots the same extensions are tried. -/
theorem SamePlace.withExtensions {inside : List String} (hne : inside ≠ [])
    (hinside : ∀ name ∈ inside, IsPlainName name) :
    List.Forall₂ (SamePlace rootNames rootNames')
      (RefGraph.withExtensions (ofNames true (rootNames ++ inside)))
      (RefGraph.withExtensions (ofNames true (rootNames' ++ inside))) := by
  have hextension : (ofNames true (rootNames ++ inside)).extension? =
      (ofNames true (rootNames' ++ inside)).extension? := by
    rw [extension?, extension?, fileName?_of_components hne (hroot.components_ofNames hinside),
      fileName?_of_components hne (hroot'.components_ofNames hinside)]
  rw [RefGraph.withExtensions, RefGraph.withExtensions, ofPath?_congr hextension]
  split
  · exact .nil
  · rw [List.forall₂_map_left_iff, List.forall₂_map_right_iff, List.forall₂_same]
    exact fun ext hext => SamePlace.withExtension hne hinside hext

include h h'

/-- At the same place there is a file in both trees or in neither. -/
theorem SamePlace.isFile {p p' : Path} (hp : SamePlace rootNames rootNames' p p') :
    m.fileSystem.isFile p = m'.fileSystem.isFile p' := by
  obtain ⟨inside, hinside⟩ := hp
  show m.isFile _ = m'.isFile _
  rw [Bool.eq_iff_iff, Memory.isFile_iff, Memory.isFile_iff, hroot.components_ofNames hinside,
    hroot'.components_ofNames hinside]
  simp only [h.files, h'.files]

theorem SamePlace.isDir {p p' : Path} (hp : SamePlace rootNames rootNames' p p') :
    m.fileSystem.isDir p = m'.fileSystem.isDir p' := by
  obtain ⟨inside, hinside⟩ := hp
  show m.isDir _ = m'.isDir _
  rw [Bool.eq_iff_iff, Memory.isDir_iff, Memory.isDir_iff, hroot.components_ofNames hinside,
    hroot'.components_ofNames hinside, h.dirs, h'.dirs]

/-- The same file is found in both places under a path itself and with extensions behind it. -/
theorem find?_withExtensions_moved {inside : List String}
    (hinside : ∀ name ∈ inside, IsPlainName name) :
    Option.Rel (SamePlace rootNames rootNames')
      ((ofNames true (rootNames ++ inside) ::
        RefGraph.withExtensions (ofNames true (rootNames ++ inside))).find? m.fileSystem.isFile)
      ((ofNames true (rootNames' ++ inside) ::
        RefGraph.withExtensions (ofNames true (rootNames' ++ inside))).find?
          m'.fileSystem.isFile) := by
  have hself : SamePlace rootNames rootNames' (ofNames true (rootNames ++ inside))
      (ofNames true (rootNames' ++ inside)) := SamePlace.below inside hinside
  have hisFile : ∀ p p', SamePlace rootNames rootNames' p p' →
      m.fileSystem.isFile p = m'.fileSystem.isFile p' :=
    fun p p' hp => hp.isFile hroot hroot' h h'
  by_cases hnil : inside = []
  · rw [List.find?_cons, List.find?_cons, hisFile _ _ hself, hnil, List.append_nil,
      List.append_nil, hroot.find?_withExtensions h, hroot'.find?_withExtensions h']
    rw [hnil, List.append_nil, List.append_nil] at hself
    split
    · exact .some hself
    · exact .none
  · exact rel_find? (.cons hself (SamePlace.withExtensions hroot hroot' hnil hinside)) hisFile

/-- The same index file is found in both places. -/
theorem find?_indexFile_moved {inside : List String}
    (hinside : ∀ name ∈ inside, IsPlainName name) :
    Option.Rel (SamePlace rootNames rootNames')
      ((triedExtensions.map (RefGraph.indexFile (ofNames true (rootNames ++ inside)))).find?
        m.fileSystem.isFile)
      ((triedExtensions.map (RefGraph.indexFile (ofNames true (rootNames' ++ inside)))).find?
        m'.fileSystem.isFile) := by
  refine rel_find? ?_ fun p p' hp => hp.isFile hroot hroot' h h'
  rw [List.forall₂_map_left_iff, List.forall₂_map_right_iff, List.forall₂_same]
  exact fun ext hext => SamePlace.indexFile hroot hroot' hinside hext

/-- **For a path inside of the roots the same file is found in both places.** -/
theorem fileUnder?_moved {inside : List String} (hinside : ∀ name ∈ inside, IsPlainName name) :
    Option.Rel (SamePlace rootNames rootNames')
      (fileUnder? m.fileSystem (ofNames true (rootNames ++ inside)))
      (fileUnder? m'.fileSystem (ofNames true (rootNames' ++ inside))) := by
  have hself : SamePlace rootNames rootNames' (ofNames true (rootNames ++ inside))
      (ofNames true (rootNames' ++ inside)) := SamePlace.below inside hinside
  have hfirst := find?_withExtensions_moved hroot hroot' h h' hinside
  rw [fileUnder?, fileUnder?, Option.orElse_eq_or, Option.orElse_eq_or,
    ← hself.isDir hroot hroot' h h']
  generalize List.find? m.fileSystem.isFile (_ :: _) = x at hfirst
  generalize List.find? m'.fileSystem.isFile (_ :: _) = x' at hfirst
  cases hfirst with
  | some hp => exact .some hp
  | none =>
    rw [Option.none_or, Option.none_or]
    split
    · exact find?_indexFile_moved hroot hroot' h h' hinside
    · exact .none

/-- Seen from the roots it is called the same. -/
theorem relativeTo?_fileUnder?_moved {inside : List String}
    (hinside : ∀ name ∈ inside, IsPlainName name) :
    (((fileUnder? m.fileSystem (ofNames true (rootNames ++ inside))).filter fun hit =>
        (root.below? hit).isSome).bind root.relativeTo?) =
      ((fileUnder? m'.fileSystem (ofNames true (rootNames' ++ inside))).filter fun hit =>
        (root'.below? hit).isSome).bind root'.relativeTo? := by
  have hrel := fileUnder?_moved hroot hroot' h h' hinside
  generalize fileUnder? m.fileSystem _ = x at hrel
  generalize fileUnder? m'.fileSystem _ = x' at hrel
  cases hrel with
  | none => rfl
  | @some p p' hp =>
    obtain ⟨hsame, hbelow, hbelow'⟩ := hp.relativeTo? hroot hroot'
    rw [Option.filter_some, Option.filter_some, if_pos hbelow, if_pos hbelow', Option.bind_some,
      Option.bind_some, hsame]

end Places

/-! ## References -/

/-- A specifier in a file, given by its path from the root, means a path that never leaves the root
on its way, or something that is no path from there. -/
def StaysInside (aliases : List String) (relative specifier : String) : Prop :=
  ∀ p, candidate? ⟨""⟩ aliases ⟨relative⟩ (withoutQuery specifier.toList) = some p →
    p.isAbsolute = false ∧ staysInside 0 p.components = true

instance (aliases : List String) (relative specifier : String) :
    Decidable (StaysInside aliases relative specifier) :=
  decidable_of_iff
    ((candidate? ⟨""⟩ aliases ⟨relative⟩ (withoutQuery specifier.toList)).all fun p =>
      !p.isAbsolute && staysInside 0 p.components) (by
    rw [Option.all_eq_true]
    simp only [Bool.and_eq_true, Bool.not_eq_true']
    rfl)

/-- Behind a root such a path is folded behind the names of the root. -/
theorem LiesBehind.folded_eq {rootNames : List String} (hroot : IsRootOf root rootNames)
    {p₀ p : Path} (hp : LiesBehind root p₀ p) (hrelative : p₀.isAbsolute = false)
    (hstays : staysInside 0 p₀.components = true) :
    p.folded = ofNames true (rootNames ++ foldNames p₀.components) := by
  have hcomponents := hp.relative hrelative
  have habsolute : p.isAbsolute = true := by
    rw [isAbsolute_iff_mem, hcomponents, hroot.components]
    exact List.mem_append_left _ List.mem_cons_self
  rw [folded, habsolute, hcomponents, hroot.components, foldNames_append hstays]

/-- **References that stay inside lead to the same files.** -/
theorem sameTargets_of_staysInside {rootNames rootNames' : List String}
    (hroot : IsRootOf root rootNames) (hroot' : IsRootOf root' rootNames') (h : m.Holds root t)
    (h' : m'.Holds root' t) {x x' : WalkedFile}
    (hx : x.Alike root root' m.fileSystem m'.fileSystem x') {aliases : List String}
    {r : Dependency} (hstays : StaysInside aliases x.relative r.specifier) :
    SameTargets root root' m.fileSystem m'.fileSystem aliases x x' r := by
  obtain ⟨names, hne, hrelative, hpath, hpath'⟩ := hx.path
  have hrel := candidate?_below hroot.text_ne hpath hne aliases (withoutQuery r.specifier.toList)
  have hrel' := candidate?_below hroot'.text_ne hpath' hne aliases
    (withoutQuery r.specifier.toList)
  rw [StaysInside, hrelative] at hstays
  rw [SameTargets, resolve?, resolve?]
  split
  · rfl
  -- Staying inside is said at the empty root, so three candidates are compared.
  generalize candidate? ⟨""⟩ aliases ⟨pathAlong names⟩ (withoutQuery r.specifier.toList) = c₀
    at hrel hrel' hstays
  generalize candidate? root aliases x.path (withoutQuery r.specifier.toList) = c at hrel ⊢
  generalize candidate? root' aliases x'.path (withoutQuery r.specifier.toList) = c' at hrel' ⊢
  cases hrel with
  | none =>
    cases hrel'
    rfl
  | @some p₀ p hp =>
    cases hrel' with
    | @some _ p' hp' =>
      obtain ⟨hnot, hinside⟩ := hstays p₀ rfl
      dsimp only
      rw [hp.folded_eq hroot hnot hinside, hp'.folded_eq hroot' hnot hinside]
      apply relativeTo?_fileUnder?_moved hroot hroot' h h'
      exact fun name hname => isPlainName_of_mem_components (mem_of_mem_foldNames hname)

/-! ## The main result -/

/-- **The place of a tree makes no difference.** If the same tree lies below two absolute roots and
no reference that is found in it leads out of it, scans of both give the same result, but for the
name of the root. -/
theorem scan_moved (h : m.Holds root t) (h' : m'.Holds root' t)
    (habsolute : root.isAbsolute = true) (hparent : .parent ∉ root.components)
    (hne : root.components ≠ [.root]) (habsolute' : root'.isAbsolute = true)
    (hparent' : .parent ∉ root'.components) (hne' : root'.components ≠ [.root]) (o : Options)
    (hinside : ∀ w, walk m.fileSystem root o.maxFiles = .ok w → ∀ x ∈ w.candidates,
      ∀ r ∈ (findingsIn m.fileSystem x.path (o.granularity = .symbol)).dependencies,
        StaysInside o.aliases x.relative r.specifier) :
    scan m'.fileSystem o root' =
      (scan m.fileSystem o root).map fun d => { d with root := root'.text } := by
  have hnames : ∀ {root : Path}, root.isAbsolute = true → .parent ∉ root.components →
      root.components ≠ [.root] → ∃ names, IsRootOf root names := by
    intro root habsolute hparent hne
    obtain ⟨names, hcomponents⟩ := exists_components_eq habsolute hparent
    refine ⟨names, hcomponents, ?_⟩
    rintro rfl
    exact hne hcomponents
  obtain ⟨rootNames, hroot⟩ := hnames habsolute hparent hne
  obtain ⟨rootNames', hroot'⟩ := hnames habsolute' hparent' hne'
  have hdir : ∀ {m : Memory} {root : Path}, m.Holds root t → m.isDir root = true := by
    intro m root h
    have hself := (h.dirs []).2 (.inl rfl)
    rw [List.map_nil, List.append_nil] at hself
    exact Memory.isDir_iff.2 hself
  refine scan_alike (h.alike h') (hdir h) (hdir h') ⟨_, if_pos (hdir h)⟩ ⟨_, if_pos (hdir h')⟩ o ?_
  intro w hw x hx x' halike r hr
  exact sameTargets_of_staysInside hroot hroot' h h' halike (hinside w hw x hx r hr)

/-- A tree of two stylesheets, one of which refers to the other one. -/
def pairOfStyles : Tree where
  files := [(["a.css"], "@import \"./b\";"), (["b.css"], "")]
  dirs := []

/-- That tree below a root whose path ends with a slash. -/
def pairBelow (root : String) : Memory :=
  Memory.ofEntries [(⟨root ++ "a.css"⟩, "@import \"./b\";"), (⟨root ++ "b.css"⟩, "")] []

theorem candidates_pairBelow : (walk (pairBelow "/r/").fileSystem ⟨"/r"⟩ 9).toOption.map
    Walk.candidates = some [⟨⟨"/r/a.css"⟩, "a.css", .style, false⟩,
      ⟨⟨"/r/b.css"⟩, "b.css", .style, false⟩] := by
  have hlist : (pairBelow "/r/").fileSystem.list ⟨"/r"⟩ =
      .ok [⟨⟨"/r/a.css"⟩, "a.css", false⟩, ⟨⟨"/r/b.css"⟩, "b.css", false⟩] := by decide +kernel
  rw [walk, walkDir, hlist]
  dsimp only
  rw [sortEntries_eq_self (by decide +kernel)]
  decide +kernel

/-- It gives the same graph below another root, which is deeper and written with more slashes. -/
theorem scan_moved_pairBelow :
    (pairBelow "/r/").Holds ⟨"/r"⟩ pairOfStyles ∧
      (pairBelow "/x/y//").Holds ⟨"/x//y/"⟩ pairOfStyles ∧
      (∀ w, walk (pairBelow "/r/").fileSystem ⟨"/r"⟩ 9 = .ok w → ∀ x ∈ w.candidates,
        ∀ r ∈ (findingsIn (pairBelow "/r/").fileSystem x.path false).dependencies,
          StaysInside ["~/", "@/"] x.relative r.specifier) ∧
      scan (pairBelow "/x/y//").fileSystem { maxFiles := 9 } ⟨"/x//y/"⟩ =
        (scan (pairBelow "/r/").fileSystem { maxFiles := 9 } ⟨"/r"⟩).map fun d =>
          { d with root := "/x//y/" } := by
  have hholds : (pairBelow "/r/").Holds ⟨"/r"⟩ pairOfStyles :=
    Memory.holds_of_eq (Memory.distinct_ofEntries _ _) (by decide +kernel) (by decide +kernel)
  have hholds' : (pairBelow "/x/y//").Holds ⟨"/x//y/"⟩ pairOfStyles :=
    Memory.holds_of_eq (Memory.distinct_ofEntries _ _) (by decide +kernel) (by decide +kernel)
  have hinside : ∀ w, walk (pairBelow "/r/").fileSystem ⟨"/r"⟩ 9 = .ok w → ∀ x ∈ w.candidates,
      ∀ r ∈ (findingsIn (pairBelow "/r/").fileSystem x.path false).dependencies,
        StaysInside ["~/", "@/"] x.relative r.specifier := by
    intro w hw
    have hcandidates := candidates_pairBelow
    rw [hw] at hcandidates
    rw [Option.some.inj hcandidates]
    decide +kernel
  exact ⟨hholds, hholds', hinside, scan_moved hholds hholds' (by decide) (by decide) (by decide)
    (by decide) (by decide) (by decide) { maxFiles := 9 } hinside⟩

end RefGraph
