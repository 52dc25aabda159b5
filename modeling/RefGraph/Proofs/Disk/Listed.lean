import RefGraph.Proofs.Assembly.Nodes
import RefGraph.Proofs.Disk.Walks
import RefGraph.Proofs.Resolution.FromRoot

/-!
# What a disk lists

A listing tells directories from other entries by the nodes that their names stand for, while
looking something up follows links. Both say the same of all entries but one kind: a link that leads
nowhere is listed like a file.

* `Disk.IsLostLink`: paths of such links.
* `Disk.isDir_of_mem_list`, `Disk.isFile_iff_of_mem_list`: what the other entries lead to.
* `Disk.path_eq_of_mem_files`: the path of a walked file is that of the root with its identifier
  behind it.
* `FileSystem.FindsUnder`: what it means that a file is found by references.
* `Disk.listed_isThere`: entries, the files of a walk, and the nodes that they become.
-/

namespace RefGraph

/-! ## Paths along names -/

namespace Path

theorem text_join {p q : Path} (h : q.isAbsolute = false) : (p.join q).text =
    p.text ++ (if p.text.toList = [] ∨ p.text.toList.getLast? = some '/' then "" else "/") ++
      q.text := by
  rw [join, if_neg (by simp [h])]
  split
  · rw [String.append_empty]
  · rfl

/-- A slash stands between a path and another one behind it. -/
theorem join_join {p q r : Path} (hq : q.isAbsolute = false) (hr : r.isAbsolute = false)
    (hlast : ∃ c, q.text.toList.getLast? = some c ∧ c ≠ '/') :
    (p.join q).join r = p.join ⟨q.text ++ "/" ++ r.text⟩ := by
  obtain ⟨c, hc, hslash⟩ := hlast
  have hne : q.text.toList ≠ [] := by
    intro h
    rw [h] at hc
    cases hc
  have hjoined : (p.join q).text.toList.getLast? = some c := by
    rw [text_join hq, String.toList_append, List.getLast?_append_of_ne_nil _ hne, hc]
  have hjoinedne : (p.join q).text.toList ≠ [] := by
    intro h
    rw [h] at hjoined
    cases hjoined
  have hqr : isAbsolute ⟨q.text ++ "/" ++ r.text⟩ = false := by
    rw [isAbsolute] at hq ⊢
    rwa [String.toList_append, String.toList_append, List.append_assoc,
      List.head?_append_of_ne_nil _ hne]
  have htext : ((p.join q).join r).text = (p.join ⟨q.text ++ "/" ++ r.text⟩).text := by
    rw [text_join hr, if_neg (by simp [hjoined, hjoinedne, hslash]), text_join hq, text_join hqr]
    simp only [String.append_assoc]
  exact congrArg mk htext

/-- The path that leads along names from another one. -/
def along (p : Path) (names : List String) : Path := names.foldl (fun p name => p.join ⟨name⟩) p

theorem along_concat (p : Path) (names : List String) (name : String) :
    p.along (names ++ [name]) = (p.along names).join ⟨name⟩ := by
  rw [along, List.foldl_append]
  rfl

variable {p : Path} {names : List String}

theorem IsPlainName.isAbsolute {name : String} (h : IsPlainName name) :
    isAbsolute ⟨name⟩ = false :=
  beq_false_of_ne fun hhead => h.slash (List.mem_of_head? hhead)

/-- It has the names behind the components of the other one. -/
theorem components_along (hp : p.text ≠ "") (h : ∀ name ∈ names, IsPlainName name) :
    (p.along names).components = p.components ++ names.map .name := by
  induction names using List.reverseRecOn with
  | nil => rw [List.map_nil, List.append_nil]; rfl
  | append_singleton names name ih =>
    have hinit := ih fun n hn => h n (List.mem_append_left _ hn)
    have htext : (p.along names).text ≠ "" := by
      by_cases hnil : names = []
      · rwa [hnil]
      · exact text_ne_of_components (by simp [hinit, hnil])
    rw [along_concat, Disk.components_join_name htext (h name (by simp)), hinit, List.map_append,
      List.append_assoc]
    rfl

/-- Plain names with slashes between are no absolute path. -/
theorem isAbsolute_pathAlong (h : ∀ name ∈ names, IsPlainName name) :
    isAbsolute ⟨pathAlong names⟩ = false := by
  rw [← Bool.not_eq_true, isAbsolute_iff_mem, components_pathAlong h]
  simp

/-- No slash is behind the last of the names. -/
theorem getLast?_pathAlong (hne : names ≠ []) (h : ∀ name ∈ names, IsPlainName name) :
    ∃ c, (pathAlong names).toList.getLast? = some c ∧ c ≠ '/' := by
  obtain ⟨names, name, rfl⟩ := List.eq_nil_or_concat' names |>.resolve_left hne
  have hname : IsPlainName name := h name (by simp)
  have hnil : name.toList ≠ [] := fun he => hname.ne_empty (String.toList_eq_nil_iff.1 he)
  refine ⟨name.toList.getLast hnil, ?_, fun he => hname.slash (he ▸ List.getLast_mem hnil)⟩
  rw [pathAlong_concat, relativeName]
  split
  · exact List.getLast?_eq_some_getLast hnil
  · rw [String.toList_append, List.getLast?_append_of_ne_nil _ hnil]
    exact List.getLast?_eq_some_getLast hnil

/-- It is what comes of putting the names with slashes between them behind the other one. -/
theorem along_eq_join (hne : names ≠ []) (h : ∀ name ∈ names, IsPlainName name) :
    p.along names = p.join ⟨pathAlong names⟩ := by
  induction names using List.reverseRecOn with
  | nil => exact absurd rfl hne
  | append_singleton names name ih =>
    have hinit : ∀ n ∈ names, IsPlainName n := fun n hn => h n (List.mem_append_left _ hn)
    have hname : IsPlainName name := h name (by simp)
    rw [along_concat, pathAlong_concat, relativeName]
    by_cases hnil : names = []
    · rw [hnil]
      rfl
    · rw [if_neg (pathAlong_ne_empty hnil fun n hn => (hinit n hn).isFileName), ih hnil hinit]
      exact join_join (isAbsolute_pathAlong hinit) hname.isAbsolute (getLast?_pathAlong hnil hinit)

/-- Along names from a path of names. -/
theorem along_ofNames {before : List String} (hbefore : ∀ name ∈ before, IsPlainName name)
    (h : ∀ name ∈ names, IsPlainName name) :
    (ofNames true before).along names = ofNames true (before ++ names) := by
  induction names using List.reverseRecOn with
  | nil => rw [List.append_nil]; rfl
  | append_singleton names name ih =>
    have hinit : ∀ n ∈ names, IsPlainName n := fun n hn => h n (List.mem_append_left _ hn)
    have hname : name.toList.head? ≠ some '/' := fun hhead =>
      (h name (by simp)).slash (List.mem_of_head? hhead)
    rw [along_concat, ih hinit, join_ofNames (List.forall_mem_append.2 ⟨hbefore, hinit⟩) hname,
      List.append_assoc]

end Path

end RefGraph

namespace RefGraph.Disk

variable {d : Disk} {root dir p : Path} {e : Entry} {listed : List Entry}

/-! ## Looking up -/

theorem hasNode_iff : d.hasNode p = true ↔ ∃ there, d.locate p = .ok there := by
  rw [hasNode]
  cases d.locate p <;> simp [Except.toOption]

theorem isFile_iff_locate : d.isFile p = true ↔
    ∃ there bytes, d.locate p = .ok there ∧ d.root.at? there = some (.file bytes) := by
  rw [isFile, node]
  cases hlocate : d.locate p with
  | error e => simp
  | ok there =>
    obtain ⟨n, hn, -⟩ := isReal_of_locate hlocate
    cases n <;> simp [hn]

/-- What leads to something leads to a directory or to a file. -/
theorem isFile_of_hasNode (h : d.hasNode p = true) (hdir : d.isDir p = false) :
    d.isFile p = true := by
  obtain ⟨there, hlocate⟩ := hasNode_iff.1 h
  obtain ⟨n, hn, hlink⟩ := isReal_of_locate hlocate
  cases n with
  | file bytes => exact isFile_iff_locate.2 ⟨there, bytes, hlocate, hn⟩
  | link target => exact absurd rfl (hlink target)
  | directory entries =>
    rw [isDir_iff_locate.2 ⟨there, entries, hlocate, hn⟩] at hdir
    cases hdir

/-- A path of a link that leads nowhere: to a name that is not there, through something that is no
directory, or over too many links. -/
def IsLostLink (d : Disk) (p : Path) : Prop :=
  d.hasNode p = false ∧ ∃ dir name here target, p = dir.join ⟨name⟩ ∧ d.locate dir = .ok here ∧
    d.root.at? (here ++ [name]) = some (.link target)

theorem IsLostLink.isFile_eq_false (h : d.IsLostLink p) : d.isFile p = false := by
  rw [← Bool.not_eq_true, isFile_iff_locate]
  rintro ⟨there, bytes, hlocate, -⟩
  have hnode := hasNode_iff.2 ⟨there, hlocate⟩
  rw [h.1] at hnode
  cases hnode

/-! ## Entries -/

/-- What is listed as a directory is one. -/
theorem isDir_of_mem_list (hd : d.root.IsProper) (h : d.list dir = .ok listed) (he : e ∈ listed)
    (hdir : e.isDir = true) : d.isDir e.path = true := by
  obtain ⟨here, nodes, hlocate, hat, rfl⟩ := exists_of_list h
  obtain ⟨hinside, nodes', hat'⟩ := (isEntryIn_of_mem hd hlocate hat he).2.directory hdir
  exact isDir_iff_locate.2 ⟨_, nodes', hinside, hat'⟩

/-- **What is listed as something else is a file**, unless it is a link that leads nowhere. -/
theorem isFile_iff_of_mem_list (hd : d.root.IsProper) (h : d.list dir = .ok listed)
    (he : e ∈ listed) (hother : e.isDir = false) :
    d.isFile e.path = true ↔ ¬ d.IsLostLink e.path := by
  refine ⟨fun hfile hlost => ?_, fun hlost => ?_⟩
  · rw [hlost.isFile_eq_false] at hfile
    cases hfile
  obtain ⟨here, nodes, hlocate, hat, rfl⟩ := exists_of_list h
  obtain ⟨hname, hentry⟩ := isEntryIn_of_mem hd hlocate hat he
  obtain ⟨hnotdir, n, hn, hnode⟩ := hentry.other hother
  obtain ⟨⟨name, m⟩, -, hm⟩ := List.mem_filterMap.1 he
  obtain ⟨hpath, rfl, -, -⟩ := entryOf?_eq_some hm
  cases n with
  | directory entries => cases hnode
  | file bytes =>
    have hreal : IsReal d.root (here ++ [e.name]) := ⟨.file bytes, hn, nofun⟩
    rw [hpath]
    exact isFile_iff_locate.2 ⟨_, bytes, locate_join_of_isReal hlocate hname hreal, hn⟩
  | link target =>
    cases hhas : d.hasNode e.path with
    | true => exact isFile_of_hasNode hhas hnotdir
    | false => exact absurd ⟨hhas, dir, e.name, here, target, hpath, hlocate, hn⟩ hlost

/-! ## Walked files -/

theorem exists_list_of_mem_entries (he : e ∈ d.fileSystem.entries dir) :
    ∃ listed, d.list dir = .ok listed ∧ e ∈ listed := by
  cases hlist : d.fileSystem.list dir with
  | error err =>
    rw [FileSystem.entries_of_unlisted hlist] at he
    cases he
  | ok listed =>
    rw [FileSystem.entries_of_listed hlist] at he
    exact ⟨listed, hlist, he⟩

/-- The path of an entry is that of its directory with a name behind it. -/
theorem path_of_mem_entries (hd : d.root.IsProper) (he : e ∈ d.fileSystem.entries dir) :
    Path.IsPlainName e.name ∧ e.path = dir.join ⟨e.name⟩ := by
  obtain ⟨here, nodes, hlocate, hat, hmem⟩ := exists_of_mem_entries he
  refine ⟨(isEntryIn_of_mem hd hlocate hat hmem).1, ?_⟩
  obtain ⟨⟨name, n⟩, -, hentry⟩ := List.mem_filterMap.1 hmem
  obtain ⟨hpath, rfl, -⟩ := entryOf?_eq_some hentry
  exact hpath

/-- A walk enters directories under the paths along their names. -/
theorem along_of_enters (hd : d.root.IsProper) {names : List String} {rules : IgnoreRules}
    (h : Enters d.fileSystem root names dir rules) :
    (∀ name ∈ names, Path.IsPlainName name) ∧ dir = root.along names := by
  induction h with
  | top => exact ⟨by simp, rfl⟩
  | inside _ he _ _ _ ih =>
    obtain ⟨hname, hpath⟩ := path_of_mem_entries hd he
    refine ⟨List.forall_mem_append.2 ⟨ih.1, by simpa using hname⟩, ?_⟩
    rw [hpath, ih.2, Path.along_concat]

variable {limit : Nat} {w : Walk} {f : WalkedFile}

/-- **The path of a walked file** leads from the root along the names of its identifier, and it is
that of an entry. -/
theorem exists_entry_of_mem_files (hd : d.root.IsProper)
    (hw : walk d.fileSystem root limit = .ok w) (hf : f ∈ w.files.toList) :
    ∃ names dir listed e, names ≠ [] ∧ (∀ name ∈ names, Path.IsPlainName name) ∧
      f.relative = pathAlong names ∧ f.path = root.along names ∧
      d.list dir = .ok listed ∧ e ∈ listed ∧ e.isDir = false ∧ f.path = e.path := by
  have htree : d.fileSystem.IsTree root := ⟨treeBelow hd root⟩
  obtain ⟨v, hv, hfile⟩ := exists_visit_of_mem_files hw hf
  obtain ⟨hother, -, hpath, hrelative, -⟩ := Visit.walkedFile?_eq_some_iff.1 hfile
  obtain ⟨names, dir, rules, henters, e, he, rfl⟩ := (mem_visits_iff htree v).1 hv
  obtain ⟨listed, hlist, hmem⟩ := exists_list_of_mem_entries he
  obtain ⟨hnames, rfl⟩ := along_of_enters hd henters
  obtain ⟨hname, hentry⟩ := path_of_mem_entries hd he
  refine ⟨names ++ [e.name], _, listed, e, by simp,
    List.forall_mem_append.2 ⟨hnames, by simpa using hname⟩, hrelative, ?_, hlist, hmem, hother,
    hpath⟩
  rw [hpath, Path.along_concat]
  exact hentry

/-- The path of a walked file is that of the root with its identifier behind it. -/
theorem path_eq_of_mem_files (hd : d.root.IsProper) (hw : walk d.fileSystem root limit = .ok w)
    (hf : f ∈ w.files.toList) : f.path = root.join ⟨f.relative⟩ := by
  obtain ⟨names, -, -, -, hne, hnames, hrelative, hpath, -⟩ := exists_entry_of_mem_files hd hw hf
  rw [hpath, hrelative, Path.along_eq_join hne hnames]

/-- **A walked file is there**, unless it is a link that leads nowhere. -/
theorem isFile_iff_of_mem_files (hd : d.root.IsProper) (hw : walk d.fileSystem root limit = .ok w)
    (hf : f ∈ w.files.toList) : d.isFile f.path = true ↔ ¬ d.IsLostLink f.path := by
  obtain ⟨-, _, _, e, -, -, -, -, hlist, he, hother, hpath⟩ := exists_entry_of_mem_files hd hw hf
  rw [hpath]
  exact isFile_iff_of_mem_list hd hlist he hother

end RefGraph.Disk

namespace RefGraph

/-! ## References to a file -/

/-- A file is found by references: it is the first one that is tried under its path, and every
specifier that leads to its path refers to it. -/
structure FileSystem.FindsUnder (fs : FileSystem) (root p : Path) : Prop where
  tried : fileUnder? fs p = some p
  resolved : ∀ aliases fromFile (specifier : String) spec q,
    ¬ "http".toList <+: specifier.toList → IsCut specifier.toList spec →
    LeadsTo root aliases fromFile spec q → q.folded = p →
    resolve? fs root aliases fromFile specifier = some p

/-- A file below the root is found there. -/
theorem FileSystem.findsUnder {fs : FileSystem} {root p : Path} (hfile : fs.isFile p = true)
    (hbelow : root.components <+: p.components) : fs.FindsUnder root p where
  tried := fileUnder?_of_isFile hfile
  resolved aliases fromFile specifier spec q hlocal hcut hleads hq := by
    rw [resolve?_of_leadsTo hlocal hcut hleads, hq, fileUnder?_of_isFile hfile]
    exact Option.filter_some_pos (isSome_below?_iff.2 hbelow)

/-- One of these specifiers is a slash with the way from the root behind it. -/
theorem FileSystem.FindsUnder.resolve?_slash {fs : FileSystem} {root fromFile : Path}
    {aliases : List String} {r : String} (h : fs.FindsUnder root (root.join ⟨r⟩))
    (hfolded : (root.join ⟨r⟩).folded = root.join ⟨r⟩) (hmarks : isUnmarked r = true)
    (haliases : BeginsWithNone aliases ("/" ++ r).toList) :
    resolve? fs root aliases fromFile ("/" ++ r) = some (root.join ⟨r⟩) := by
  have htext : ("/" ++ r).toList = '/' :: r.toList := by
    rw [String.toList_append]
    rfl
  have hcut : IsCut ("/" ++ r).toList ('/' :: r.toList) := by
    refine ⟨fun c hc => ?_, [], by rw [htext, List.append_nil], by simp⟩
    rcases List.mem_cons.1 hc with rfl | hc
    · simp [IsMark]
    · exact isUnmarked_iff.1 hmarks c hc
  have hleads : LeadsTo root aliases fromFile ('/' :: r.toList) (root.join ⟨r⟩) := by
    have h : LeadsTo root aliases fromFile ('/' :: r.toList)
        (root.join ⟨String.ofList r.toList⟩) := .behindSlash (htext ▸ haliases)
    rwa [String.ofList_toList] at h
  exact h.resolved aliases fromFile _ _ _ (by simp [htext]) hcut hleads hfolded

end RefGraph

namespace RefGraph.Disk

open RefGraph.Graph

variable {d : Disk} {root : Path} {limit : Nat} {w : Walk} {f : WalkedFile}

/-- A walked file that is there is found below the root. -/
theorem findsUnder_of_mem_files (hd : d.root.IsProper) (hw : walk d.fileSystem root limit = .ok w)
    (hf : f ∈ w.files.toList) (hfile : d.isFile f.path = true) :
    d.fileSystem.FindsUnder root f.path := by
  obtain ⟨rootNames, n, hroot, -⟩ := foundBelow hd hw hf
  obtain ⟨names, -, -, -, -, hnames, -, hpath, -⟩ := exists_entry_of_mem_files hd hw hf
  refine FileSystem.findsUnder hfile ?_
  rw [hpath, Path.components_along (locate_eq_ok_iff.1 hroot).1 hnames]
  exact List.prefix_append ..

/-- From a root without links and without `..`, paths of walked files are folded. -/
theorem folded_of_mem_files (hd : d.root.IsProper) {given : Path}
    (hroot : d.canonical given = .ok root) (hw : walk d.fileSystem root limit = .ok w)
    (hf : f ∈ w.files.toList) :
    f.path.folded = f.path := by
  obtain ⟨names, -, -, -, -, hnames, -, hpath, -⟩ := exists_entry_of_mem_files hd hw hf
  rw [canonical] at hroot
  cases hlocate : d.locate given with
  | error err =>
    rw [hlocate] at hroot
    cases hroot
  | ok rootNames =>
    rw [hlocate] at hroot
    obtain rfl := Except.ok.inj hroot
    obtain ⟨n, hn, -⟩ := isReal_of_locate hlocate
    have hplain := List.forall_mem_append.2 ⟨(hd.of_at? hn).1, hnames⟩
    have hall : f.path = Path.ofNames true (rootNames ++ names) :=
      hpath.trans (Path.along_ofNames (hd.of_at? hn).1 hnames)
    have hcomponents := Path.components_ofNames hplain
    have habsolute : (Path.ofNames true (rootNames ++ names)).isAbsolute = true :=
      Path.isAbsolute_iff_mem.2 (by simp [hcomponents])
    rw [hall, Path.folded, habsolute, hcomponents, Path.foldNames_map_name]

/-! ## The main result -/

/-- **What a disk lists is there.** What an entry says is a directory is one when its path is looked
up, and what it says is something else is a file, unless it is a link that leads nowhere. So it is
with the files of a walk, under the path of the root with their identifiers behind it, and with the
nodes that a graph has of the walk. Those that are there are found by references: by every specifier
that leads to their paths and, if the root was freed of links, by a slash with the identifier behind
it. -/
theorem listed_isThere (hd : d.root.IsProper) :
    (∀ dir listed, d.list dir = .ok listed → ∀ e ∈ listed,
      (e.isDir = true → d.isDir e.path = true) ∧
      (e.isDir = false → (d.isFile e.path = true ↔ ¬ d.IsLostLink e.path))) ∧
    ∀ root limit w, walk d.fileSystem root limit = .ok w →
      (∀ f ∈ w.files.toList, f.path = root.join ⟨f.relative⟩ ∧
        (d.isFile f.path = true ↔ ¬ d.IsLostLink f.path)) ∧
      ∀ routes, ∀ n ∈ (Graph.empty.addWalk routes w.files.toList).nodes.toList,
        (d.isFile (root.join ⟨n.id⟩) = true ↔ ¬ d.IsLostLink (root.join ⟨n.id⟩)) ∧
        (d.isFile (root.join ⟨n.id⟩) = true →
          d.fileSystem.FindsUnder root (root.join ⟨n.id⟩) ∧
          ∀ given, d.canonical given = .ok root → isUnmarked n.id = true →
            ∀ aliases fromFile, BeginsWithNone aliases ("/" ++ n.id).toList →
              resolve? d.fileSystem root aliases fromFile ("/" ++ n.id) =
                some (root.join ⟨n.id⟩)) := by
  refine ⟨fun dir listed hlist e he => ⟨isDir_of_mem_list hd hlist he,
    isFile_iff_of_mem_list hd hlist he⟩, fun root limit w hw => ⟨fun f hf =>
    ⟨path_eq_of_mem_files hd hw hf, isFile_iff_of_mem_files hd hw hf⟩, ?_⟩⟩
  intro routes n hn
  -- A node of the walk is that of one of its files.
  rw [(Graph.offersNodes_addWalk Graph.Consistent.empty routes w.files.toList).nodes_eq] at hn
  obtain ⟨f, hf, rfl⟩ := List.mem_map.1 (mem_of_mem_firstsBy hn)
  have hpath : f.path = root.join ⟨(walkedNode routes f).id⟩ := path_eq_of_mem_files hd hw hf
  rw [← hpath]
  refine ⟨isFile_iff_of_mem_files hd hw hf, fun hfile => ?_⟩
  have hfinds := findsUnder_of_mem_files hd hw hf hfile
  refine ⟨hfinds, fun given hroot hmarks aliases fromFile haliases => ?_⟩
  have hfolded := folded_of_mem_files hd hroot hw hf
  rw [hpath] at hfinds hfolded ⊢
  exact hfinds.resolve?_slash hfolded hmarks haliases

/-- Two links are listed that lead nowhere, and one that leads to a file. In a directory that is
reached over a link to itself the only node is found by references. -/
theorem listed_isThere_ringedDisk :
    ringedDisk.root.IsProper ∧ (ringedDisk.list ⟨"/top"⟩).isOk = true ∧
      (∀ listed, ringedDisk.list ⟨"/top"⟩ = .ok listed → ∀ e ∈ listed,
        (e.isDir = true → ringedDisk.isDir e.path = true) ∧
        (e.isDir = false → (ringedDisk.isFile e.path = true ↔ ¬ ringedDisk.IsLostLink e.path))) ∧
      (∀ w, walk ringedDisk.fileSystem ⟨"/top"⟩ 9 = .ok w → ∀ f ∈ w.files.toList,
        f.path = Path.join ⟨"/top"⟩ ⟨f.relative⟩ ∧
        (ringedDisk.isFile f.path = true ↔ ¬ ringedDisk.IsLostLink f.path)) ∧
      ∃ w, walk ringedDisk.fileSystem ⟨"/top/sub"⟩ 9 = .ok w ∧
        ∃ n ∈ (Graph.empty.addWalk [] w.files.toList).nodes.toList, n.id = "c.ts" ∧
          (ringedDisk.isFile ⟨"/top/sub/c.ts"⟩ = true ↔
            ¬ ringedDisk.IsLostLink ⟨"/top/sub/c.ts"⟩) ∧
          ringedDisk.isFile ⟨"/top/sub/c.ts"⟩ = true ∧
          ringedDisk.fileSystem.FindsUnder ⟨"/top/sub"⟩ ⟨"/top/sub/c.ts"⟩ ∧
          ringedDisk.canonical ⟨"/top/sub/here"⟩ = .ok ⟨"/top/sub"⟩ ∧
          resolve? ringedDisk.fileSystem ⟨"/top/sub"⟩ ["@/"] ⟨"/top/a.ts"⟩ "/c.ts" =
            some ⟨"/top/sub/c.ts"⟩ := by
  have hd : ringedDisk.root.IsProper := by decide
  obtain ⟨hentries, hwalks⟩ := listed_isThere hd
  refine ⟨hd, by decide +kernel, hentries ⟨"/top"⟩, fun w hw => (hwalks ⟨"/top"⟩ 9 w hw).1, ?_⟩
  have hwalk : (walk ringedDisk.fileSystem ⟨"/top/sub"⟩ 9).toOption.map
      (fun w => w.files.toList) = some [⟨⟨"/top/sub/c.ts"⟩, "c.ts", .script, false⟩] := by
    have hlist : ringedDisk.fileSystem.list ⟨"/top/sub"⟩ =
        .ok [⟨⟨"/top/sub/c.ts"⟩, "c.ts", false⟩] := rfl
    rw [walk, walkDir, hlist]
    simp only [sortEntries, List.mergeSort_singleton]
    decide +kernel
  cases hw : walk ringedDisk.fileSystem ⟨"/top/sub"⟩ 9 with
  | error err =>
    rw [hw] at hwalk
    cases hwalk
  | ok w =>
    rw [hw] at hwalk
    have hfiles : w.files.toList = _ := Option.some.inj hwalk
    obtain ⟨n, hn, hid⟩ : ∃ n ∈ (Graph.empty.addWalk [] w.files.toList).nodes.toList,
        n.id = "c.ts" := by
      rw [(Graph.offersNodes_addWalk Graph.Consistent.empty [] w.files.toList).nodes_eq, hfiles]
      exact ⟨_, List.mem_cons_self, rfl⟩
    have hnode := (hwalks ⟨"/top/sub"⟩ 9 w hw).2 [] n hn
    rw [hid] at hnode
    have hfile : ringedDisk.isFile (Path.join ⟨"/top/sub"⟩ ⟨"c.ts"⟩) = true := by decide +kernel
    have hcanonical : ringedDisk.canonical ⟨"/top/sub/here"⟩ = .ok ⟨"/top/sub"⟩ := rfl
    have hfound := hnode.2 hfile
    exact ⟨w, rfl, n, hn, hid, hnode.1, hfile, hfound.1, hcanonical,
      hfound.2 ⟨"/top/sub/here"⟩ hcanonical (by decide +kernel) ["@/"] ⟨"/top/a.ts"⟩
        (by decide +kernel)⟩

/-- A disk with nothing but a link that leads nowhere. -/
def lostDisk : Disk where
  root := .directory [("lost.ts", .link "nowhere")]

/-- Not all that is listed as something else is a file, and neither are all walked files. -/
theorem not_isFile_lostDisk :
    (¬ ∀ d : Disk, d.root.IsProper → ∀ dir listed, d.list dir = .ok listed →
      ∀ e ∈ listed, e.isDir = false → d.isFile e.path = true) ∧
    ¬ ∀ d : Disk, d.root.IsProper → ∀ root limit w, walk d.fileSystem root limit = .ok w →
      ∀ f ∈ w.files.toList, d.isFile f.path = true := by
  have hd : lostDisk.root.IsProper := by decide
  have hlist : lostDisk.list ⟨"/"⟩ = .ok [⟨⟨"/lost.ts"⟩, "lost.ts", false⟩] := rfl
  have hnot : lostDisk.isFile ⟨"/lost.ts"⟩ = false := by decide +kernel
  constructor
  · intro h
    have hfile := h lostDisk hd _ _ hlist _ (List.mem_singleton_self _) rfl
    rw [hnot] at hfile
    cases hfile
  · intro h
    have hwalk : (walk lostDisk.fileSystem ⟨"/"⟩ 1).toOption.map (fun w => w.files.toList) =
        some [⟨⟨"/lost.ts"⟩, "lost.ts", .script, false⟩] := by
      have hlist' : lostDisk.fileSystem.list ⟨"/"⟩ = _ := hlist
      rw [walk, walkDir, hlist']
      simp only [sortEntries, List.mergeSort_singleton]
      decide +kernel
    cases hw : walk lostDisk.fileSystem ⟨"/"⟩ 1 with
    | error err =>
      rw [hw] at hwalk
      cases hwalk
    | ok w =>
      rw [hw] at hwalk
      have hfiles : w.files.toList = _ := Option.some.inj hwalk
      have hfile := h lostDisk hd _ _ _ hw _ (hfiles ▸ List.mem_singleton_self _)
      rw [hnot] at hfile
      cases hfile

end RefGraph.Disk
