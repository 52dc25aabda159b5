import RefGraph.Proofs.Extraction
import RefGraph.Proofs.FileSystem.Below
import RefGraph.Proofs.Script.Malformed
import RefGraph.Proofs.Walk.Meaning
import RefGraph.Proofs.Walk.Runs
import RefGraph.Scan

/-!
# What a scan does not read

A scan looks at all paths of a tree, but it reads only the ignore files of the directories that it
opens and the files that it analyses. The texts of all other files make no difference. A malformed
file might as well be empty.

* `Opens`: the directories that a walk opens until it ends or finds too many files.
* `walkDir_eq_of_opens`: a walk depends on the listings and on the ignore files in such directories.
* `Memory.SamePaths`: two trees in memory that differ in texts only.
* `scan_unread`: a scan gives the same for two such trees with the same texts where it reads.
-/

namespace RefGraph

variable {fs fs' : FileSystem}

/-! ## The directories that are opened -/

/-- The walk of a directory opens it, and the directories among its entries that are not ignored,
as far as the walk comes. -/
inductive Opens (fs : FileSystem) (limit : Nat) :
    Nat → Path → String → IgnoreRules → Walk → Path → Prop
  | itself {fuel : Nat} {dir : Path} {relative : String} {above : IgnoreRules} {w : Walk} :
      Opens fs limit (fuel + 1) dir relative above w dir
  | inside {fuel : Nat} {dir p : Path} {relative : String} {above : IgnoreRules} {w w' : Walk}
      {listed before after : List Entry} {e : Entry} (hlist : fs.list dir = .ok listed)
      (hentries : sortEntries listed = before ++ e :: after)
      (hbefore : before.foldlM (walkEntry fs limit fuel relative
        (rulesIn fs relative above (sortEntries listed))) w = .ok w')
      (hopen : (rulesIn fs relative above (sortEntries listed)).ignores
        (relativeName relative e.name) e.isDir = false) (hdir : e.isDir = true)
      (hbelow : Opens fs limit fuel e.path (relativeName relative e.name)
        (rulesIn fs relative above (sortEntries listed)) w' p) :
      Opens fs limit (fuel + 1) dir relative above w p

/-- The walk of a tree opens a directory. -/
def WalkOpens (fs : FileSystem) (root : Path) (limit : Nat) (dir : Path) : Prop :=
  Opens fs limit (fs.depth + 1) root "" IgnoreRules.builtin {} dir

/-- In two file systems a directory has the same ignore file, or none. -/
def SameIgnoreFile (fs fs' : FileSystem) (dir : Path) : Prop :=
  ∀ e ∈ fs.entries dir, e.isDir = false → e.name = ignoreFileName → fs.read e.path = fs'.read e.path

/-- The same ignore file gives the same rules. -/
theorem rulesIn_eq_of_sameIgnoreFile {dir : Path} {listed : List Entry}
    (hlist : fs.list dir = .ok listed) (hsame : SameIgnoreFile fs fs' dir) (relative : String)
    (above : IgnoreRules) : rulesIn fs relative above (sortEntries listed) =
      rulesIn fs' relative above (sortEntries listed) := by
  rw [rulesIn, rulesIn]
  split
  · rfl
  · rename_i e he
    have hmem : e ∈ fs.entries dir := by
      rw [FileSystem.entries, hlist]
      exact mem_sortEntries.1 (List.mem_of_find?_eq_some he)
    obtain ⟨hfile, hname⟩ : e.isDir = false ∧ e.name = ignoreFileName := by
      simpa using List.find?_some he
    rw [hsame e hmem hfile hname]

/-- Entries are walked through in the same way if each is met in the same way, from what the walk
has found in those before it. -/
theorem foldlM_eq_of_reached {f g : Walk → Entry → Except ScanError Walk} {es : List Entry}
    {w : Walk} (h : ∀ before e after w', es = before ++ e :: after →
      before.foldlM f w = .ok w' → f w' e = g w' e) : es.foldlM f w = es.foldlM g w := by
  induction es generalizing w with
  | nil => rfl
  | cons e es ih =>
    rw [List.foldlM_cons, List.foldlM_cons, ← h [] e es w rfl rfl]
    cases hw : f w e with
    | error err => rfl
    | ok w' =>
      refine ih fun before e' after w'' hsplit hbefore => ?_
      refine h (e :: before) e' after w'' (by rw [hsplit]; rfl) ?_
      rw [List.foldlM_cons, hw]
      exact hbefore

/-- A walk depends on the listings and on the ignore files of the directories that it opens. The
induction is on the levels of directories. -/
theorem walkDir_eq_of_opens (hlist : ∀ p, fs.list p = fs'.list p) {limit fuel : Nat} {dir : Path}
    {relative : String} {above : IgnoreRules} {w : Walk}
    (hsame : ∀ p, Opens fs limit fuel dir relative above w p → SameIgnoreFile fs fs' p) :
    walkDir fs limit fuel dir relative above w = walkDir fs' limit fuel dir relative above w := by
  induction fuel generalizing dir relative above w with
  | zero => rfl
  | succ fuel ih =>
    rw [walkDir_succ, walkDir_succ, ← hlist dir]
    cases hlisted : fs.list dir with
    | error e => rfl
    | ok listed =>
      dsimp only
      rw [← rulesIn_eq_of_sameIgnoreFile hlisted (hsame dir .itself) relative above]
      refine foldlM_eq_of_reached fun before e after w' hsplit hbefore => ?_
      rw [walkEntry, walkEntry]
      cases hignored : (rulesIn fs relative above (sortEntries listed)).ignores
          (relativeName relative e.name) e.isDir with
      | true => rfl
      | false =>
        cases hdir : e.isDir with
        | false => rfl
        | true =>
          simp only [Bool.false_eq_true, if_false, if_true]
          exact ih fun p hp => hsame p (.inside hlisted hsplit hbefore hignored hdir hp)

/-! ## Empty and malformed files -/

/-- The tree of an empty script. -/
def emptyProgram : Script.Node := { kind := "program", start := 0, stop := 0 }

/-- The tree of an empty script is an empty program in every dialect. -/
theorem scriptTree?_nil (d : Script.Dialect) : scriptTree? d [] = some emptyProgram := by
  cases d <;> rfl

theorem findingsOfTree_emptyProgram (withSymbols : Bool) :
    findingsOfTree [] withSymbols emptyProgram = {} := by
  rw [findingsOfTree, Script.references_eq_filterMap]
  cases withSymbols <;> rfl

/-- Nothing is found in an empty script. -/
theorem analyse?_nil {p : Path} (hkind : SourceKind.ofPath? p = some .script)
    (withSymbols : Bool) : ((analyse? p "" withSymbols).toOption).getD {} = {} := by
  have hnil : "".toList = [] := rfl
  unfold analyse?
  rw [hkind]
  cases Script.Dialect.ofPath? p with
  | none => rfl
  | some d =>
    simp only [Option.bind_some, hnil, scriptTree?_nil, findingsOfTree_emptyProgram,
      Except.toOption, Option.getD_some]

/-- Only scripts can be malformed. -/
theorem ofPath?_of_analyse? {p : Path} {kind : SourceKind}
    (hkind : SourceKind.ofPath? p = some kind) {text : String} {withSymbols : Bool}
    {e : AnalysisError} (h : analyse? p text withSymbols = .error e) :
    SourceKind.ofPath? p = some .script := by
  unfold analyse? at h
  rw [hkind] at h ⊢
  cases kind with
  | script => rfl
  | style => cases h

/-! ## Trees with the same paths -/

namespace Memory

/-- Two trees that differ in the texts of their files only. -/
structure SamePaths (m m' : Memory) : Prop where
  files : m.files.map Prod.fst = m'.files.map Prod.fst
  dirs : m.dirs = m'.dirs

namespace SamePaths

variable {m m' : Memory}

theorem list (h : m.SamePaths m') (dir : Path) : m.list dir = m'.list dir := by
  have hfiles : ∀ m : Memory, (m.files.filterMap fun f => entryIn? dir false f.1) =
      (m.files.map Prod.fst).filterMap (entryIn? dir false) :=
    fun m => by rw [List.filterMap_map]; rfl
  rw [Memory.list, Memory.list, isDir, isDir, h.dirs, hfiles, hfiles, h.files]

theorem isDir (h : m.SamePaths m') (p : Path) : m.isDir p = m'.isDir p := by
  rw [Memory.isDir, Memory.isDir, h.dirs]

theorem isFile (h : m.SamePaths m') : m.isFile = m'.isFile := by
  have hfiles : ∀ (m : Memory) (p : Path), m.isFile p = (m.files.map Prod.fst).any p.equals :=
    fun m p => by rw [List.any_map]; rfl
  funext p
  rw [hfiles, hfiles, h.files]

theorem depth (h : m.SamePaths m') : m.depth = m'.depth := by
  rw [Memory.depth, Memory.depth, h.dirs]

/-- The same paths are walked alike if the ignore files of all opened directories are the same. -/
theorem walk (h : m.SamePaths m') {root : Path} {limit : Nat}
    (hsame : ∀ dir, WalkOpens m.fileSystem root limit dir →
      SameIgnoreFile m.fileSystem m'.fileSystem dir) :
    walk m.fileSystem root limit = walk m'.fileSystem root limit := by
  have hdepth : m'.fileSystem.depth = m.fileSystem.depth := h.depth.symm
  rw [RefGraph.walk, RefGraph.walk, hdepth]
  exact walkDir_eq_of_opens h.list hsame

/-- References are resolved by paths alone. -/
theorem resolveDependency (h : m.SamePaths m') (root : Path) (aliases : List String)
    (fromFile : Path) : resolveDependency m.fileSystem root aliases fromFile =
      resolveDependency m'.fileSystem root aliases fromFile := by
  have hisFile : m.fileSystem.isFile = m'.fileSystem.isFile := h.isFile
  have hisDir : m.fileSystem.isDir = m'.fileSystem.isDir := funext h.isDir
  funext d
  simp only [RefGraph.resolveDependency, resolve?, fileUnder?, hisFile, hisDir]

/-- A scan depends on the ignore files in the directories that its walk opens and on what is found
in the files that it analyses. -/
theorem scan (h : m.SamePaths m') {root : Path} {o : Options}
    (hsame : ∀ dir, WalkOpens m.fileSystem root o.maxFiles dir →
      SameIgnoreFile m.fileSystem m'.fileSystem dir)
    (hfound : ∀ w, RefGraph.walk m.fileSystem root o.maxFiles = .ok w → ∀ f ∈ w.candidates,
      findingsIn m.fileSystem f.path (o.granularity = .symbol) =
        findingsIn m'.fileSystem f.path (o.granularity = .symbol)) :
    scan m.fileSystem o root = scan m'.fileSystem o root := by
  have hisDir : m'.fileSystem.isDir root = m.fileSystem.isDir root := (h.isDir root).symm
  have hlist : m'.fileSystem.list root = m.fileSystem.list root := (h.list root).symm
  rw [RefGraph.scan, RefGraph.scan, hisDir, hlist, ← h.walk hsame]
  split
  · split
    · rfl
    · cases hw : RefGraph.walk m.fileSystem root o.maxFiles with
      | error e => rw [Except.map, Except.map]
      | ok w =>
        have hfindings : w.candidates.map (fileFindings m.fileSystem root o) =
            w.candidates.map (fileFindings m'.fileSystem root o) :=
          List.map_congr_left fun f hf => by
            rw [fileFindings, fileFindings, hfound w hw f hf, h.resolveDependency]
        show Except.ok (assemble ..) = Except.ok (assemble ..)
        rw [hfindings]
  · rfl

end SamePaths

/-! ## Another text for a file -/

/-- A tree with another text in one of its files. -/
def withText (m : Memory) (p : Path) (text : String) : Memory :=
  { m with files := m.files.map fun f => if f.1.equals p then (f.1, text) else f }

variable (m : Memory) (p : Path) (text : String)

/-- Writing another text leaves all paths as they are. -/
theorem samePaths_withText : m.SamePaths (m.withText p text) where
  files := by
    rw [withText, List.map_map]
    refine List.map_congr_left fun f _ => ?_
    dsimp only [Function.comp]
    split <;> rfl
  dirs := rfl

/-- Only the text of that file is another one. -/
theorem read_withText (q : Path) :
    (m.withText p text).read q = if q.equals p then (m.read q).map fun _ => text else m.read q := by
  have hfind : (m.withText p text).files.find? (fun f => q.equals f.1) =
      (m.files.find? fun f => q.equals f.1).map fun f =>
        if f.1.equals p then (f.1, text) else f := by
    rw [withText, List.find?_map]
    congr 2
    funext f
    dsimp only [Function.comp]
    split <;> rfl
  unfold read
  rw [hfind]
  cases hq : m.files.find? fun f => q.equals f.1 with
  | none => cases q.equals p <;> rfl
  | some f =>
    have hequals : q.components = f.1.components :=
      beq_iff_eq.1 (List.find?_some (p := fun f : Path × String => q.equals f.1) hq)
    have hsame : f.1.equals p = q.equals p := by rw [Path.equals, Path.equals, hequals]
    rw [Option.map_some, hsame]
    cases q.equals p <;> rfl

/-- A text is read however the path of its file is written. -/
theorem read_congr {p q : Path} (h : q.components = p.components) {text : String}
    (hread : m.read p = .ok text) : m.read q = .ok text := by
  have hequals : ∀ f : Path × String, q.equals f.1 = p.equals f.1 := fun f => by
    rw [Path.equals, Path.equals, h]
  unfold read at hread ⊢
  simp only [hequals]
  split at hread
  · rename_i hfind
    rw [hfind]
    exact hread
  · cases hread

variable {m p text} in
/-- An ignore file stays the same if it is not the one that gets another text. -/
theorem sameIgnoreFile_withText (h : p.fileName? ≠ some ignoreFileName) (dir : Path) :
    SameIgnoreFile m.fileSystem (m.withText p text).fileSystem dir := by
  intro e he _ hname
  have hother : e.path.equals p = false := by
    refine beq_false_of_ne fun hequals => h ?_
    rw [Path.fileName?, ← hequals, ← Path.fileName?, fileName?_of_mem_entries he, hname]
  show m.read e.path = (m.withText p text).read e.path
  rw [read_withText, hother]
  rfl

variable {m p text} in
/-- What is found in other files stays the same. -/
theorem findingsIn_withText {q : Path} (h : q.equals p = false) (withSymbols : Bool) :
    findingsIn (m.withText p text).fileSystem q withSymbols =
      findingsIn m.fileSystem q withSymbols := by
  have hread : (m.withText p text).fileSystem.read q = m.fileSystem.read q := by
    show (m.withText p text).read q = m.read q
    rw [read_withText, h]
    rfl
  rw [findingsIn, findingsIn, hread]

/-- An empty file shows as little as a malformed one, however its path is written. -/
theorem findingsIn_withText_nil {q : Path} (hequals : q.equals p = true)
    (hkind : SourceKind.ofPath? p = some .script) {text : String} (hread : m.read p = .ok text)
    {withSymbols : Bool} {e : AnalysisError} (he : analyse? p text withSymbols = .error e) :
    findingsIn (m.withText p "").fileSystem q withSymbols =
      findingsIn m.fileSystem q withSymbols := by
  have hcomponents : q.components = p.components := beq_iff_eq.1 hequals
  have hq : m.fileSystem.read q = .ok text := m.read_congr hcomponents hread
  have hempty : (m.withText p "").fileSystem.read q = .ok "" := by
    have := m.read_withText p "" q
    rw [hequals, if_pos rfl, show m.read q = .ok text from hq] at this
    exact this
  have hmalformed : (analyse? q text withSymbols).toOption = none := by
    rw [toOption_analyse?_congr (Path.extension?_congr hcomponents), he]
    rfl
  rw [findingsIn, findingsIn, hq, hempty]
  dsimp only
  rw [analyse?_nil (ofPath?_congr (Path.extension?_congr hcomponents) ▸ hkind), hmalformed]
  rfl

end Memory

/-! ## The main result -/

/-- A file under the name of ignore files cannot be analysed. -/
theorem ofPath?_of_fileName? {p : Path} (h : p.fileName? = some ignoreFileName) :
    SourceKind.ofPath? p = none := by
  have hext : Path.extensionOfName? ignoreFileName = none := by decide
  rw [SourceKind.ofPath?, Path.extension?, h, Option.bind_some, hext]

/-- **What is not read makes no difference.** A scan gives the same for two trees with the same
paths that have the same texts in the ignore files of the directories that its walk opens and in the
files that it analyses. And a file that is kept but malformed may be replaced by an empty one. -/
theorem scan_unread (m : Memory) (o : Options) (root : Path) :
    (∀ m' : Memory, m.SamePaths m' →
      (∀ dir, WalkOpens m.fileSystem root o.maxFiles dir →
        SameIgnoreFile m.fileSystem m'.fileSystem dir) →
      (∀ w, walk m.fileSystem root o.maxFiles = .ok w →
        ∀ f ∈ w.candidates, m.read f.path = m'.read f.path) →
      scan m.fileSystem o root = scan m'.fileSystem o root) ∧
    ∀ w, walk m.fileSystem root o.maxFiles = .ok w → ∀ f ∈ w.files.toList,
      ∀ text, m.read f.path = .ok text → ∀ e, analyse? f.path text (o.granularity = .symbol) =
        .error e → scan (m.withText f.path "").fileSystem o root = scan m.fileSystem o root := by
  constructor
  · intro m' hpaths hignore hfiles
    refine hpaths.scan hignore fun w hw f hf => ?_
    have hread : m.fileSystem.read f.path = m'.fileSystem.read f.path := hfiles w hw f hf
    rw [findingsIn, findingsIn, hread]
  · intro w hw f hf text hread e he
    have hkind := ofPath?_of_analyse? (ofPath?_of_mem_files hw hf) he
    -- An ignore file cannot be analysed, so it is not the one that is replaced.
    have hname : f.path.fileName? ≠ some ignoreFileName := fun hname => by
      rw [ofPath?_of_fileName? hname] at hkind
      cases hkind
    refine ((m.samePaths_withText f.path "").scan
      (fun dir _ => Memory.sameIgnoreFile_withText hname dir) fun w' _ g _ => ?_).symm
    cases hequals : g.path.equals f.path with
    | false => exact (Memory.findingsIn_withText hequals _).symm
    | true => exact (m.findingsIn_withText_nil f.path hequals hkind hread he).symm

/-- A tree with a file that is ignored and that another one refers to. -/
def secretTree : Memory :=
  Memory.ofEntries [(⟨"/r/.gitignore"⟩, "secret.ts\n"), (⟨"/r/a.ts"⟩, "import \"./secret\";\n"),
    (⟨"/r/secret.ts"⟩, "export const key = 1;\n")] []

/-- The only file of it that is analysed is the other one. -/
theorem candidates_secretTree :
    (walk secretTree.fileSystem ⟨"/r"⟩ 9).toOption.map Walk.candidates =
      some [⟨⟨"/r/a.ts"⟩, "a.ts", .script, false⟩] := by
  have hlist : secretTree.fileSystem.list ⟨"/r"⟩ = .ok [⟨⟨"/r/.gitignore"⟩, ".gitignore", false⟩,
      ⟨⟨"/r/a.ts"⟩, "a.ts", false⟩, ⟨⟨"/r/secret.ts"⟩, "secret.ts", false⟩] := by decide +kernel
  rw [walk, walkDir, hlist]
  dsimp only
  rw [sortEntries_eq_self (by decide +kernel)]
  decide +kernel

/-- The same tree with another text in the file that is analysed. -/
def brokenTree (text : String) : Memory := secretTree.withText ⟨"/r/a.ts"⟩ text

theorem read_brokenTree (text : String) : (brokenTree text).read ⟨"/r/a.ts"⟩ = .ok text := by
  have hold : (secretTree.read ⟨"/r/a.ts"⟩).map (fun _ => text) = .ok text := rfl
  rw [brokenTree, Memory.read_withText, hold, if_pos (by decide)]

/-- Whatever its text is, the file is kept: the walk is that of the tree as it was. -/
theorem walk_brokenTree (text : String) :
    ∃ w, walk (brokenTree text).fileSystem ⟨"/r"⟩ 9 = .ok w ∧
      ⟨⟨"/r/a.ts"⟩, "a.ts", .script, false⟩ ∈ w.files.toList := by
  have hwalk : walk secretTree.fileSystem ⟨"/r"⟩ 9 =
      walk (brokenTree text).fileSystem ⟨"/r"⟩ 9 :=
    (secretTree.samePaths_withText ⟨"/r/a.ts"⟩ text).walk
      fun dir _ => Memory.sameIgnoreFile_withText (by decide +kernel) dir
  have hcandidates := candidates_secretTree
  cases hw : walk secretTree.fileSystem ⟨"/r"⟩ 9 with
  | error err =>
    rw [hw] at hcandidates
    cases hcandidates
  | ok w =>
    rw [hw] at hcandidates
    have hmem : ⟨⟨"/r/a.ts"⟩, "a.ts", .script, false⟩ ∈ w.candidates := by
      rw [Option.some.inj hcandidates]
      exact List.mem_singleton_self _
    exact ⟨w, hwalk.symm.trans hw, List.mem_of_mem_filter hmem⟩

/-- A file with a NUL character is malformed. -/
theorem analyse?_brokenTree :
    analyse? ⟨"/r/a.ts"⟩ "let a = \x00;" false = .error (.malformed ⟨"/r/a.ts"⟩) :=
  analyse?_of_nul (by decide) (by decide) false

/-- What the ignored file says makes no difference. And if the other file has a malformed text,
whichever it is, that one may be replaced by none: one with a NUL character, for example. -/
theorem scan_unread_secretTree :
    let other := secretTree.withText ⟨"/r/secret.ts"⟩ "no script"
    let scanned (m : Memory) := scan m.fileSystem { maxFiles := 9 } ⟨"/r"⟩
    secretTree.SamePaths other ∧
      (∀ dir, SameIgnoreFile secretTree.fileSystem other.fileSystem dir) ∧
      (∀ w, walk secretTree.fileSystem ⟨"/r"⟩ 9 = .ok w →
        ∀ f ∈ w.candidates, secretTree.read f.path = other.read f.path) ∧
      scanned secretTree = scanned other ∧
      (∀ text e, analyse? ⟨"/r/a.ts"⟩ text false = .error e →
        scanned ((brokenTree text).withText ⟨"/r/a.ts"⟩ "") = scanned (brokenTree text)) ∧
      analyse? ⟨"/r/a.ts"⟩ "let a = \x00;" false = .error (.malformed ⟨"/r/a.ts"⟩) ∧
      scanned ((brokenTree "let a = \x00;").withText ⟨"/r/a.ts"⟩ "") =
        scanned (brokenTree "let a = \x00;") := by
  have hpaths := secretTree.samePaths_withText ⟨"/r/secret.ts"⟩ "no script"
  have hignore : ∀ dir, SameIgnoreFile secretTree.fileSystem
      (secretTree.withText ⟨"/r/secret.ts"⟩ "no script").fileSystem dir :=
    Memory.sameIgnoreFile_withText (by decide +kernel)
  have hfiles : ∀ w, walk secretTree.fileSystem ⟨"/r"⟩ 9 = .ok w → ∀ f ∈ w.candidates,
      secretTree.read f.path =
        (secretTree.withText ⟨"/r/secret.ts"⟩ "no script").read f.path := by
    intro w hw f hf
    have hcandidates := candidates_secretTree
    rw [hw] at hcandidates
    rw [Option.some.inj hcandidates] at hf
    rw [List.mem_singleton.1 hf]
    decide +kernel
  have hbroken : ∀ text e, analyse? ⟨"/r/a.ts"⟩ text false = .error e →
      scan ((brokenTree text).withText ⟨"/r/a.ts"⟩ "").fileSystem { maxFiles := 9 } ⟨"/r"⟩ =
        scan (brokenTree text).fileSystem { maxFiles := 9 } ⟨"/r"⟩ := by
    intro text e he
    obtain ⟨w, hw, hmem⟩ := walk_brokenTree text
    have hempty := (scan_unread (brokenTree text) { maxFiles := 9 } ⟨"/r"⟩).2
      w hw _ hmem text (read_brokenTree text) e
    have hsymbols : decide (({ maxFiles := 9 } : Options).granularity = .symbol) = false := rfl
    rw [hsymbols] at hempty
    exact hempty he
  exact ⟨hpaths, hignore, hfiles,
    (scan_unread secretTree { maxFiles := 9 } ⟨"/r"⟩).1 _ hpaths (fun dir _ => hignore dir) hfiles,
    hbroken, analyse?_brokenTree, hbroken _ _ analyse?_brokenTree⟩

end RefGraph
