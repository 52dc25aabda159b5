import RefGraph.Proofs.Extraction
import RefGraph.Proofs.FileSystem.Distinct
import RefGraph.Proofs.Scan.Parts
import RefGraph.Proofs.RelatedLists

/-!
# Trees that look alike

Two file systems look alike below their roots if directories to which the same names lead list the
same names, and files to which the same names lead have the same texts. Walks find the same files in
them. If references lead to the same files as well, scans give the same graphs.

* `FileSystem.Alike`: two file systems that look alike below their roots.
* `forall₂_visitsIn`: walks visit the same names with the same verdicts.
* `walk_alike`: they find the same files, or too many of them.
* `scan_alike`: scans give the same graphs.
-/

namespace RefGraph

/-! ## File systems -/

/-- Two entries have the same name and are of the same kind, and two files have the same text, or
can both not be read. -/
structure Entry.Alike (fs fs' : FileSystem) (e e' : Entry) : Prop where
  name : e.name = e'.name
  isDir : e.isDir = e'.isDir
  read : e.isDir = false → (fs.read e.path).toOption = (fs'.read e'.path).toOption

/-- Two file systems look alike below their roots: directories to which the same names lead from the
roots list entries that are alike. -/
structure FileSystem.Alike (root root' : Path) (fs fs' : FileSystem) : Prop where
  lists : fs.ListsChildren root
  lists' : fs'.ListsChildren root'
  bounded : fs.IsBounded root
  bounded' : fs'.IsBounded root'
  entries : ∀ names dir dir', dir.components = root.components ++ List.map .name names →
    dir'.components = root'.components ++ List.map .name names →
    List.Forall₂ (Entry.Alike fs fs') (sortEntries (fs.entries dir))
      (sortEntries (fs'.entries dir'))

/-- Two visits are alike: the same names lead to entries that are alike, and the verdicts on them
are the same. -/
structure Visit.Alike (root root' : Path) (fs fs' : FileSystem) (v v' : Visit) : Prop where
  names : v.names = v'.names
  ignored : v.ignored = v'.ignored
  entry : v.entry.Alike fs fs' v'.entry
  path : v.entry.path.components = root.components ++ v.names.map .name
  path' : v'.entry.path.components = root'.components ++ v.names.map .name

/-- Two files of walks are alike. -/
structure WalkedFile.Alike (root root' : Path) (fs fs' : FileSystem) (f f' : WalkedFile) :
    Prop where
  relative : f.relative = f'.relative
  kind : f.kind = f'.kind
  ignored : f.ignored = f'.ignored
  read : (fs.read f.path).toOption = (fs'.read f'.path).toOption
  path : ∃ names : List String, names ≠ [] ∧ f.relative = pathAlong names ∧
    f.path.components = root.components ++ names.map .name ∧
    f'.path.components = root'.components ++ names.map .name

/-- Two walks find files that are alike, and as many. -/
structure Walk.Alike (root root' : Path) (fs fs' : FileSystem) (w w' : Walk) : Prop where
  files : List.Forall₂ (WalkedFile.Alike root root' fs fs') w.files.toList w'.files.toList
  totalFiles : w.totalFiles = w'.totalFiles
  ignoredCount : w.ignoredCount = w'.ignoredCount

variable {root root' : Path} {fs fs' : FileSystem}

/-- Two files can both not be read, or they have the same text. -/
theorem cases_of_toOption_eq {ε α : Type} {r r' : Except ε α} (h : r.toOption = r'.toOption) :
    (∃ e e', r = .error e ∧ r' = .error e') ∨ ∃ x, r = .ok x ∧ r' = .ok x := by
  cases r with
  | error e =>
    cases r' with
    | error e' => exact .inl ⟨e, e', rfl, rfl⟩
    | ok x => cases h
  | ok x =>
    cases r' with
    | error e' => cases h
    | ok x' =>
      obtain rfl := Option.some.inj h
      exact .inr ⟨x, rfl, rfl⟩

/-! ## Walks -/

/-- Ignore files that are alike add the same rules. -/
theorem rulesIn_alike {es es' : List Entry} (h : List.Forall₂ (Entry.Alike fs fs') es es')
    (relative : String) (above : IgnoreRules) :
    rulesIn fs relative above es = rulesIn fs' relative above es' := by
  have hfind := rel_find? (p := fun e => !e.isDir && e.name == ignoreFileName)
    (q := fun e => !e.isDir && e.name == ignoreFileName) h
    fun e e' he => by rw [he.isDir, he.name]
  rw [rulesIn, rulesIn]
  generalize hx : es.find? (fun e => !e.isDir && e.name == ignoreFileName) = x at hfind
  generalize es'.find? (fun e => !e.isDir && e.name == ignoreFileName) = x' at hfind
  cases hfind with
  | none => rfl
  | @some e e' he =>
    have hfile : e.isDir = false := by
      have hfound := List.find?_some hx
      simp only [Bool.and_eq_true, Bool.not_eq_true'] at hfound
      exact hfound.1
    dsimp only
    rcases cases_of_toOption_eq (he.read hfile) with ⟨err, err', hr, hr'⟩ | ⟨text, hr, hr'⟩
    · rw [hr, hr']
    · rw [hr, hr']

/-- **Walks visit the same**, whatever bounds on chains of directories they work with. -/
theorem forall₂_visitsIn (h : fs.Alike root root' fs') {fuel fuel' : Nat} {dir dir' : Path}
    {names : List String} (hdir : dir.components = root.components ++ names.map .name)
    (hdir' : dir'.components = root'.components ++ names.map .name)
    (hends : fs.EndsWithin fuel dir) (hends' : fs'.EndsWithin fuel' dir') (above : IgnoreRules) :
    List.Forall₂ (Visit.Alike root root' fs fs') (visitsIn fs fuel dir names above)
      (visitsIn fs' fuel' dir' names above) := by
  induction fuel generalizing fuel' dir dir' names above with
  | zero => exact absurd hends id
  | succ fuel ih =>
    cases fuel' with
    | zero => exact absurd hends' id
    | succ fuel' =>
      have hentries := h.entries names dir dir' hdir hdir'
      rw [visitsIn_succ, visitsIn_succ, ← rulesIn_alike hentries]
      apply forall₂_flatMap hentries
      intro e he e' he' halike
      have hmem := mem_sortEntries.1 he
      have hmem' := mem_sortEntries.1 he'
      have hpath : e.path.components = root.components ++ (names ++ [e.name]).map .name := by
        rw [h.lists dir ⟨names, hdir⟩ e hmem, hdir, List.map_append, List.append_assoc]
        rfl
      have hpath' : e'.path.components = root'.components ++ (names ++ [e.name]).map .name := by
        rw [h.lists' dir' ⟨names, hdir'⟩ e' hmem', hdir', List.map_append, List.append_assoc,
          halike.name]
        rfl
      -- The verdict is the same, so that the walks go into both directories or into none.
      rw [visitsOf, visitsOf, visitOf, visitOf, ← halike.name, ← halike.isDir]
      refine .cons ⟨rfl, rfl, halike, hpath, hpath'⟩ ?_
      split
      · rename_i hopen
        have hd : e.isDir = true := (Bool.and_eq_true_iff.1 hopen).1
        exact ih hpath hpath' (hends e hmem hd) (hends' e' hmem' (halike.isDir ▸ hd)) _
      · exact .nil

/-- Trees that are alike are visited alike. -/
theorem forall₂_visits (h : fs.Alike root root' fs') :
    List.Forall₂ (Visit.Alike root root' fs fs') (visits fs root) (visits fs' root') :=
  forall₂_visitsIn h (by simp) (by simp) h.bounded h.bounded' IgnoreRules.builtin

/-- The last name on the way to a file is that of the file. -/
theorem Path.fileName?_of_components {p : Path} {cs : List Component} {names : List String}
    (hne : names ≠ []) (h : p.components = cs ++ names.map .name) :
    p.fileName? = names.getLast? := by
  obtain ⟨init, last, rfl⟩ := (List.eq_nil_or_concat' names).resolve_left hne
  rw [fileName?, h, List.map_append, ← List.append_assoc, List.map_singleton, List.getLast?_concat,
    List.getLast?_concat]

namespace Visit.Alike

variable {v v' : Visit}

theorem extension? (h : v.Alike root root' fs fs' v') (hne : v.names ≠ []) :
    v.entry.path.extension? = v'.entry.path.extension? := by
  rw [Path.extension?, Path.extension?, Path.fileName?_of_components hne h.path,
    Path.fileName?_of_components hne h.path']

theorem isCounted (h : v.Alike root root' fs fs' v') : v.isCounted = v'.isCounted := by
  rw [Visit.isCounted, Visit.isCounted, h.ignored, h.entry.isDir]

/-- The walks keep files that are alike. -/
theorem walkedFile? (h : v.Alike root root' fs fs' v') (hne : v.names ≠ []) :
    Option.Rel (WalkedFile.Alike root root' fs fs') v.walkedFile? v'.walkedFile? := by
  rw [Visit.walkedFile?, Visit.walkedFile?, ← h.entry.isDir, ofPath?_congr (h.extension? hne)]
  cases hdir : v.entry.isDir with
  | true => exact .none
  | false =>
    cases SourceKind.ofPath? v'.entry.path with
    | none => exact .none
    | some kind =>
      exact .some ⟨congrArg pathAlong h.names, rfl, h.ignored, h.entry.read hdir, v.names, hne, rfl,
        h.path, h.path'⟩

end Visit.Alike

/-- **Walks find the same files**, or too many of them. -/
theorem walk_alike (h : fs.Alike root root' fs') (limit : Nat) :
    (∃ e, walk fs root limit = .error e ∧ walk fs' root' limit = .error e) ∨
      ∃ w w', walk fs root limit = .ok w ∧ walk fs' root' limit = .ok w' ∧
        w.Alike root root' fs fs' w' := by
  have hvisits := forall₂_visits h
  have hcount :
      (visits fs root).countP Visit.isCounted = (visits fs' root').countP Visit.isCounted :=
    countP_eq_of_forall₂ hvisits fun v v' hv => hv.isCounted
  have hignored : (visits fs root).countP Visit.ignored = (visits fs' root').countP Visit.ignored :=
    countP_eq_of_forall₂ hvisits fun v v' hv => hv.ignored
  rw [walk_eq, walk_eq, ← hcount]
  split
  · refine .inr ⟨_, _, rfl, rfl, ?_, congrArg (0 + ·) hcount, congrArg (0 + ·) hignored⟩
    have hnames : ∀ v ∈ visits fs root, v.names ≠ [] := by
      intro v hv hnil
      obtain ⟨name, rest, hnames⟩ := exists_names_of_mem_visitsIn hv
      rw [hnil] at hnames
      cases hnames
    have hboth := (List.forall₂_and_left _ _).2 ⟨hnames, hvisits⟩
    simp only [Walk.after, Array.empty_append]
    exact List.rel_filterMap (fun v v' hv => hv.2.walkedFile? hv.1) hboth
  · exact .inl ⟨_, rfl, rfl⟩

/-! ## Scans -/

theorem WalkedFile.Alike.extension? {f f' : WalkedFile} (h : f.Alike root root' fs fs' f') :
    f.path.extension? = f'.path.extension? := by
  obtain ⟨names, hne, -, hpath, hpath'⟩ := h.path
  rw [Path.extension?, Path.extension?, Path.fileName?_of_components hne hpath,
    Path.fileName?_of_components hne hpath']

/-- In files that are alike the same is found. -/
theorem WalkedFile.Alike.findingsIn {f f' : WalkedFile} (h : f.Alike root root' fs fs' f')
    (withSymbols : Bool) :
    RefGraph.findingsIn fs f.path withSymbols = RefGraph.findingsIn fs' f'.path withSymbols := by
  rw [RefGraph.findingsIn, RefGraph.findingsIn]
  rcases cases_of_toOption_eq h.read with ⟨e, e', hr, hr'⟩ | ⟨text, hr, hr'⟩
  · rw [hr, hr']
  · rw [hr, hr']
    dsimp only
    rw [toOption_analyse?_congr h.extension?]

/-- A reference in a file and one in another file lead to the same file, seen from their roots. -/
def SameTargets (root root' : Path) (fs fs' : FileSystem) (aliases : List String)
    (f f' : WalkedFile) (d : Dependency) : Prop :=
  (resolve? fs root aliases f.path d.specifier).bind root.relativeTo? =
    (resolve? fs' root' aliases f'.path d.specifier).bind root'.relativeTo?

/-- Files that are alike have the same findings, if their references lead to the same files. -/
theorem WalkedFile.Alike.fileFindings {f f' : WalkedFile} (h : f.Alike root root' fs fs' f')
    {o : Options}
    (hsame : ∀ d ∈ (RefGraph.findingsIn fs f.path (o.granularity = .symbol)).dependencies,
      SameTargets root root' fs fs' o.aliases f f' d) :
    RefGraph.fileFindings fs root o f = RefGraph.fileFindings fs' root' o f' := by
  rw [RefGraph.fileFindings, RefGraph.fileFindings, h.relative, h.kind, ← h.findingsIn]
  congr 1
  refine List.map_congr_left fun d hd => ?_
  rw [resolveDependency, resolveDependency, hsame d hd]

/-- A graph is assembled from the identifiers and verdicts of the files of a walk. -/
theorem assemble_alike {w w' : Walk} (h : w.Alike root root' fs fs' w') (o : Options)
    (files : List FileFindings) : assemble o root'.text w' files =
      { assemble o root.text w files with root := root'.text } := by
  have hadd : ∀ (routes : List Glob) (g : Graph),
      g.addWalk routes w.files.toList = g.addWalk routes w'.files.toList := by
    have hfiles := h.files
    generalize w.files.toList = xs at hfiles
    generalize w'.files.toList = ys at hfiles
    intro routes
    induction hfiles with
    | nil => exact fun g => rfl
    | cons hf _ ih =>
      intro g
      rw [Graph.addWalk, List.foldl_cons, Graph.addWalk, List.foldl_cons, ← hf.relative,
        ← hf.ignored]
      exact ih _
  rw [assemble, assemble, ← hadd, ← h.totalFiles, ← h.ignoredCount]
  rfl

/-- **Scans of trees that look alike give the same graphs** if references lead to the same files. -/
theorem scan_alike (h : fs.Alike root root' fs') (hdir : fs.isDir root = true)
    (hdir' : fs'.isDir root' = true) (hlist : ∃ listed, fs.list root = .ok listed)
    (hlist' : ∃ listed, fs'.list root' = .ok listed) (o : Options)
    (hsame : ∀ w, walk fs root o.maxFiles = .ok w → ∀ f ∈ w.candidates, ∀ f',
      f.Alike root root' fs fs' f' →
      ∀ d ∈ (findingsIn fs f.path (o.granularity = .symbol)).dependencies,
        SameTargets root root' fs fs' o.aliases f f' d) :
    scan fs' o root' = (scan fs o root).map fun d => { d with root := root'.text } := by
  obtain ⟨listed, hlist⟩ := hlist
  obtain ⟨listed', hlist'⟩ := hlist'
  rw [scan, scan, if_pos hdir, if_pos hdir', hlist, hlist']
  dsimp only
  rcases walk_alike h o.maxFiles with ⟨e, hw, hw'⟩ | ⟨w, w', hw, hw', halike⟩
  · rw [hw, hw']
    rfl
  · have hcandidates :
        List.Forall₂ (WalkedFile.Alike root root' fs fs') w.candidates w'.candidates :=
      List.rel_filter (fun f f' hf => by dsimp only; rw [hf.ignored]) halike.files
    have hfindings : w.candidates.map (fileFindings fs root o) =
        w'.candidates.map (fileFindings fs' root' o) :=
      map_eq_of_forall₂ hcandidates fun f hf f' _ hff' =>
        hff'.fileFindings (hsame w hw f hf f' hff')
    rw [hw, hw']
    refine congrArg Except.ok ?_
    dsimp only
    rw [assemble_alike halike, hfindings]

end RefGraph
