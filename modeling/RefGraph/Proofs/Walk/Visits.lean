import RefGraph.Disk
import RefGraph.Walk
import Mathlib.Data.List.Induction
import Mathlib.Data.List.Nodup
import Mathlib.Data.List.Pairwise
import Mathlib.Data.String.Basic

/-!
# What a walk visits

A walk visits what is in the root and in all directories that it enters. It enters the root and, in
a directory that it enters, each directory that is not ignored there. This says which entries are
visited without saying in which order; the list of visits says both.

* `Visited`: the entries that a walk visits, with the verdict on each.
* `visitsIn`: the same as a list, in the order of the walk.
* `mem_visits_iff`: in a tree the list has exactly the visits.
* `pairwise_visits`: it is ordered by names, and nothing in it lies in an ignored directory.
-/

namespace RefGraph

/-! ## Names and paths -/

/-- The path from the root that leads along names. -/
def pathAlong (names : List String) : String := names.foldl relativeName ""

theorem pathAlong_concat (names : List String) (name : String) :
    pathAlong (names ++ [name]) = relativeName (pathAlong names) name := by
  rw [pathAlong, List.foldl_append]
  rfl

/-- What an entry of a directory can be called: something without a slash. -/
def IsFileName (name : String) : Prop := name ≠ "" ∧ '/' ∉ name.toList

instance (name : String) : Decidable (IsFileName name) :=
  inferInstanceAs (Decidable (name ≠ "" ∧ '/' ∉ name.toList))

theorem IsFileName.namesOf_eq {name : String} (h : IsFileName name) :
    Disk.namesOf name = [name] := by
  rw [Disk.namesOf, splitAtChar_eq_singleton h.2, List.map_singleton, String.ofList_toList]

/-- The names along a path are its parts. -/
theorem namesOf_pathAlong {names : List String} (hne : names ≠ [])
    (h : ∀ name ∈ names, IsFileName name) : Disk.namesOf (pathAlong names) = names := by
  induction names using List.reverseRecOn with
  | nil => exact absurd rfl hne
  | append_singleton names name ih =>
    have hname : IsFileName name := h name (by simp)
    have hnames : ∀ n ∈ names, IsFileName n := fun n hn => h n (List.mem_append_left _ hn)
    rw [pathAlong_concat]
    by_cases hnil : names = []
    · subst hnil
      exact hname.namesOf_eq
    · -- No name is empty, so the path before the last name is not, and a slash is put behind it.
      have hdir := ih hnil hnames
      have hdirne : pathAlong names ≠ "" := by
        intro he
        rw [he] at hdir
        have hempty : "" ∈ names := by
          rw [← hdir]
          decide
        exact (hnames "" hempty).1 rfl
      rw [relativeName, if_neg hdirne, Disk.namesOf, String.toList_append, String.toList_append,
        List.append_assoc]
      show (splitAtChar '/' ((pathAlong names).toList ++ '/' :: name.toList)).map _ = _
      rw [splitAtChar_append, List.map_append]
      exact congrArg₂ (· ++ ·) hdir hname.namesOf_eq

theorem pathAlong_ne_empty {names : List String} (hne : names ≠ [])
    (h : ∀ name ∈ names, IsFileName name) : pathAlong names ≠ "" := by
  intro he
  have hnames := namesOf_pathAlong hne h
  rw [he] at hnames
  have hempty : "" ∈ names := by
    rw [← hnames]
    decide
  exact (h "" hempty).1 rfl

/-! ## Trees -/

namespace FileSystem

/-- The entries of a directory. One that cannot be listed has none. -/
def entries (fs : FileSystem) (dir : Path) : List Entry :=
  match fs.list dir with
  | .ok listed => listed
  | .error _ => []

theorem entries_of_listed {fs : FileSystem} {dir : Path} {listed : List Entry}
    (h : fs.list dir = .ok listed) : fs.entries dir = listed := by
  rw [entries, h]

theorem entries_of_unlisted {fs : FileSystem} {dir : Path} {err : FileError}
    (h : fs.list dir = .error err) : fs.entries dir = [] := by
  rw [entries, h]

theorem entries_congr {fs fs' : FileSystem} {dir : Path} (h : fs.list dir = fs'.list dir) :
    fs.entries dir = fs'.entries dir := by
  rw [entries, entries, h]

/-- What a directory shows is a tree of at most so many levels: its entries are listed once, each by
a name of its own, and so it goes on in the directories among them. -/
def TreeBelow (fs : FileSystem) : Nat → Path → Prop
  | 0, _ => False
  | levels + 1, dir => ((fs.entries dir).map Entry.name).Nodup ∧
      ∀ e ∈ fs.entries dir, IsFileName e.name ∧ (e.isDir = true → fs.TreeBelow levels e.path)

instance decidableTreeBelow (fs : FileSystem) :
    ∀ (levels : Nat) (dir : Path), Decidable (fs.TreeBelow levels dir)
  | 0, _ => inferInstanceAs (Decidable False)
  | levels + 1, dir =>
    have := fs.decidableTreeBelow levels
    inferInstanceAs (Decidable (((fs.entries dir).map Entry.name).Nodup ∧
      ∀ e ∈ fs.entries dir, IsFileName e.name ∧ (e.isDir = true → fs.TreeBelow levels e.path)))

/-- What a file system shows below a root is a finite tree, and its bound on chains of directories
holds there. -/
structure IsTree (fs : FileSystem) (root : Path) : Prop where
  treeBelow : fs.TreeBelow (fs.depth + 1) root

instance (fs : FileSystem) (root : Path) : Decidable (fs.IsTree root) :=
  decidable_of_iff (fs.TreeBelow (fs.depth + 1) root) ⟨IsTree.mk, IsTree.treeBelow⟩

end FileSystem

/-! ## Visits -/

/-- An entry that is visited: the names that lead to it from the root, and the verdict on it. -/
structure Visit where
  names : List String
  entry : Entry
  ignored : Bool
deriving DecidableEq, Repr, Inhabited

/-- The visit of an entry of a directory with the given rules, to which the given names lead. -/
def visitOf (rules : IgnoreRules) (names : List String) (e : Entry) : Visit where
  names := names ++ [e.name]
  entry := e
  ignored := rules.ignores (pathAlong (names ++ [e.name])) e.isDir

/-- The rules in force in a directory, given those of the directory above: its own ignore file adds
to them if it is there and can be read. -/
inductive RulesInside (fs : FileSystem) (dir : Path) (relative : String) (above : IgnoreRules) :
    IgnoreRules → Prop
  | extended {e : Entry} {content : String} (he : e ∈ fs.entries dir) (hfile : e.isDir = false)
      (hname : e.name = ignoreFileName) (hread : fs.read e.path = .ok content) :
      RulesInside fs dir relative above (above.enter relative content)
  | kept (h : ∀ e ∈ fs.entries dir, e.isDir = false → e.name = ignoreFileName →
      ∀ content, fs.read e.path ≠ .ok content) : RulesInside fs dir relative above above

/-- A walk enters a directory, to which names lead and in which rules are in force. -/
inductive Enters (fs : FileSystem) (root : Path) : List String → Path → IgnoreRules → Prop
  | top {rules : IgnoreRules} (hrules : RulesInside fs root "" IgnoreRules.builtin rules) :
      Enters fs root [] root rules
  | inside {names : List String} {dir : Path} {rules rules' : IgnoreRules} {e : Entry}
      (habove : Enters fs root names dir rules) (he : e ∈ fs.entries dir) (hdir : e.isDir = true)
      (hignored : (visitOf rules names e).ignored = false)
      (hrules : RulesInside fs e.path (pathAlong (names ++ [e.name])) rules rules') :
      Enters fs root (names ++ [e.name]) e.path rules'

/-- A walk visits the entries of the directories that it enters. -/
def Visited (fs : FileSystem) (root : Path) (v : Visit) : Prop :=
  ∃ names dir rules, Enters fs root names dir rules ∧
    ∃ e ∈ fs.entries dir, v = visitOf rules names e

/-- The visits in a directory and at most `fuel` levels of directories, in order. -/
def visitsIn (fs : FileSystem) : Nat → Path → List String → IgnoreRules → List Visit
  | 0, _, _, _ => []
  | fuel + 1, dir, names, above =>
    let entries := sortEntries (fs.entries dir)
    let rules := rulesIn fs (pathAlong names) above entries
    entries.flatMap fun e =>
      visitOf rules names e ::
        if e.isDir && !(visitOf rules names e).ignored then
          visitsIn fs fuel e.path (names ++ [e.name]) rules
        else []

/-- The visits of a walk, in order. -/
def visits (fs : FileSystem) (root : Path) : List Visit :=
  visitsIn fs (fs.depth + 1) root [] IgnoreRules.builtin

/-! ## Entries in order -/

theorem mem_sortEntries {es : List Entry} {e : Entry} : e ∈ sortEntries es ↔ e ∈ es :=
  (List.mergeSort_perm es _).mem_iff

/-- Sorted entries stay as they are. -/
theorem sortEntries_eq_self {es : List Entry} (h : es.Pairwise fun a b => ¬ b.name < a.name) :
    sortEntries es = es :=
  List.mergeSort_of_pairwise (h.imp fun hab => by simpa using hab)

/-- The order in which entries are sorted. -/
theorem entryOrder_trans (a b c : Entry) (hab : (!decide (b.name < a.name)) = true)
    (hbc : (!decide (c.name < b.name)) = true) : (!decide (c.name < a.name)) = true := by
  simp only [Bool.not_eq_true', decide_eq_false_iff_not, not_lt] at hab hbc ⊢
  exact le_trans hab hbc

/-- Of two entries one does not come behind the other. -/
theorem entryOrder_total (a b : Entry) :
    (!decide (b.name < a.name) || !decide (a.name < b.name)) = true := by
  simp only [Bool.or_eq_true, Bool.not_eq_true', decide_eq_false_iff_not, not_lt]
  exact le_total a.name b.name

/-- Sorted entries are in the order of their names. -/
theorem pairwise_le_sortEntries (es : List Entry) :
    (sortEntries es).Pairwise fun a b => a.name ≤ b.name := by
  refine (List.pairwise_mergeSort entryOrder_trans entryOrder_total es).imp fun {a b} hab => ?_
  rw [Bool.not_eq_true', decide_eq_false_iff_not, not_lt] at hab
  exact hab

/-- Entries with names of their own are sorted strictly. -/
theorem pairwise_sortEntries {es : List Entry} (h : (es.map Entry.name).Nodup) :
    (sortEntries es).Pairwise fun a b => a.name < b.name := by
  have hne : (sortEntries es).Pairwise fun a b => a.name ≠ b.name :=
    List.pairwise_map.1 (((List.mergeSort_perm es _).map Entry.name).nodup_iff.2 h)
  exact ((pairwise_le_sortEntries es).and hne).imp fun {a b} hab => lt_of_le_of_ne hab.1 hab.2

/-- In entries with names of their own, that of a name is found. -/
theorem eq_of_name_eq {es : List Entry} (h : (es.map Entry.name).Nodup) {a b : Entry}
    (ha : a ∈ es) (hb : b ∈ es) (hname : a.name = b.name) : a = b :=
  List.inj_on_of_nodup_map h ha hb hname

/-- In a directory there is one choice of rules. -/
theorem RulesInside.unique {fs : FileSystem} {dir : Path} {relative : String}
    {above rules rules' : IgnoreRules} (hnodup : ((fs.entries dir).map Entry.name).Nodup)
    (h : RulesInside fs dir relative above rules) (h' : RulesInside fs dir relative above rules') :
    rules = rules' := by
  rcases h with ⟨he, hfile, hname, hread⟩ | hkept
  · rcases h' with ⟨he', hfile', hname', hread'⟩ | hkept'
    · rw [eq_of_name_eq hnodup he' he (hname'.trans hname.symm), hread] at hread'
      cases hread'
      rfl
    · exact absurd hread (hkept' _ he hfile hname _)
  · rcases h' with ⟨he', hfile', hname', hread'⟩ | -
    · exact absurd hread' (hkept _ he' hfile' hname' _)
    · rfl

/-- The walk finds the rules in force in the sorted entries. -/
theorem rulesInside_rulesIn {fs : FileSystem} {dir : Path}
    (hnodup : ((fs.entries dir).map Entry.name).Nodup) (relative : String) (above : IgnoreRules) :
    RulesInside fs dir relative above
      (rulesIn fs relative above (sortEntries (fs.entries dir))) := by
  unfold rulesIn
  split
  · rename_i hfind
    refine .kept fun e he hfile hname => ?_
    have hnot := List.find?_eq_none.1 hfind e (mem_sortEntries.2 he)
    simp [hfile, hname] at hnot
  · rename_i e hfind
    have he : e ∈ fs.entries dir := mem_sortEntries.1 (List.mem_of_find?_eq_some hfind)
    obtain ⟨hfile, hname⟩ : e.isDir = false ∧ e.name = ignoreFileName := by
      simpa using List.find?_some hfind
    split
    · rename_i hread
      exact .extended he hfile hname hread
    · rename_i hread
      -- There is no other ignore file that could be read.
      refine .kept fun e' he' _ hname' content hread' => ?_
      rw [eq_of_name_eq hnodup he' he (hname'.trans hname.symm), hread] at hread'
      cases hread'

/-- The rules in force in a directory are those that the walk computes from its entries. -/
theorem rulesInside_iff {fs : FileSystem} {dir : Path} {relative : String}
    {above rules : IgnoreRules} (hnodup : ((fs.entries dir).map Entry.name).Nodup) :
    RulesInside fs dir relative above rules ↔
      rules = rulesIn fs relative above (sortEntries (fs.entries dir)) := by
  constructor
  · exact fun h => h.unique hnodup (rulesInside_rulesIn hnodup relative above)
  · rintro rfl
    exact rulesInside_rulesIn hnodup relative above

/-! ## The list has exactly the visits -/

variable {fs : FileSystem} {root : Path}

/-- The visits in a directory are those of its entries and those in the directories among them that
are not ignored. -/
theorem mem_visitsIn_succ {fuel : Nat} {dir : Path} {names : List String} {above : IgnoreRules}
    {v : Visit} : v ∈ visitsIn fs (fuel + 1) dir names above ↔
      ∃ e ∈ fs.entries dir,
        let rules := rulesIn fs (pathAlong names) above (sortEntries (fs.entries dir))
        v = visitOf rules names e ∨
          (e.isDir = true ∧ (visitOf rules names e).ignored = false ∧
            v ∈ visitsIn fs fuel e.path (names ++ [e.name]) rules) := by
  rw [visitsIn, List.mem_flatMap]
  refine exists_congr fun e => and_congr mem_sortEntries ?_
  rw [List.mem_cons]
  refine or_congr Iff.rfl ?_
  split
  · rename_i hcond
    rw [Bool.and_eq_true, Bool.not_eq_true'] at hcond
    exact ⟨fun hv => ⟨hcond.1, hcond.2, hv⟩, fun hv => hv.2.2⟩
  · rename_i hcond
    refine ⟨fun hv => absurd hv List.not_mem_nil, fun hv => absurd ?_ hcond⟩
    rw [Bool.and_eq_true, Bool.not_eq_true']
    exact ⟨hv.1, hv.2.1⟩

/-- What is in the list is visited. The induction is on the levels below the directory, which is
entered with whatever rules are in force there. -/
theorem visited_of_mem_visitsIn {fuel : Nat} {dir : Path} {names : List String}
    {above : IgnoreRules} {v : Visit} (htree : fs.TreeBelow fuel dir)
    (henters : ∀ rules, RulesInside fs dir (pathAlong names) above rules →
      Enters fs root names dir rules)
    (hv : v ∈ visitsIn fs fuel dir names above) : Visited fs root v := by
  induction fuel generalizing dir names above with
  | zero => exact absurd htree id
  | succ fuel ih =>
    have hhere := henters _ ((rulesInside_iff htree.1).2 rfl)
    obtain ⟨e, he, rfl | ⟨hdir, hignored, hv⟩⟩ := mem_visitsIn_succ.1 hv
    · exact ⟨names, dir, _, hhere, e, he, rfl⟩
    · have hinside := (htree.2 e he).2 hdir
      exact ih hinside (fun rules' hrules => .inside hhere he hdir hignored hrules) hv

/-- A directory that is entered has all its visits in the list. -/
theorem visitsIn_subset_visits (htree : fs.IsTree root) {names : List String}
    {dir : Path} {rules : IgnoreRules} (h : Enters fs root names dir rules) :
    ∃ fuel above, fs.TreeBelow (fuel + 1) dir ∧
      rules = rulesIn fs (pathAlong names) above (sortEntries (fs.entries dir)) ∧
      visitsIn fs (fuel + 1) dir names above ⊆ visits fs root := by
  induction h with
  | top hrules =>
    exact ⟨fs.depth, IgnoreRules.builtin, htree.treeBelow,
      (rulesInside_iff htree.treeBelow.1).1 hrules, List.Subset.refl _⟩
  | @inside names dir rules rules' e _ he hdir hignored hrules ih =>
    obtain ⟨fuel, above, hbelow, rfl, hsub⟩ := ih
    have hinside := (hbelow.2 e he).2 hdir
    cases fuel with
    | zero => exact absurd hinside id
    | succ fuel =>
      refine ⟨fuel, _, hinside, (rulesInside_iff hinside.1).1 hrules, fun v hv => hsub ?_⟩
      exact mem_visitsIn_succ.2 ⟨e, he, Or.inr ⟨hdir, hignored, hv⟩⟩

/-- In a tree the list has exactly the visits. -/
theorem mem_visits_iff (htree : fs.IsTree root) (v : Visit) :
    v ∈ visits fs root ↔ Visited fs root v := by
  constructor
  · exact visited_of_mem_visitsIn htree.treeBelow fun rules hrules => .top hrules
  · rintro ⟨names, dir, rules, henters, e, he, rfl⟩
    obtain ⟨fuel, above, -, rfl, hsub⟩ := visitsIn_subset_visits htree henters
    exact hsub (mem_visitsIn_succ.2 ⟨e, he, Or.inl rfl⟩)

/-! ## The order of visits -/

/-- A visit comes before another one: its names are smaller, and if the other one lies in it, it is
one of a directory that is not ignored. -/
def Visit.Precedes (v v' : Visit) : Prop :=
  v.names < v'.names ∧ (v.names <+: v'.names → v.entry.isDir = true ∧ v.ignored = false)

/-- The visits of an entry and of what is below it. -/
def visitsOf (fs : FileSystem) (fuel : Nat) (names : List String) (rules : IgnoreRules)
    (e : Entry) : List Visit :=
  visitOf rules names e ::
    if e.isDir && !(visitOf rules names e).ignored then
      visitsIn fs fuel e.path (names ++ [e.name]) rules
    else []

/-- The visits in a directory are those to its entries, in order. -/
theorem visitsIn_succ (fuel : Nat) (dir : Path) (names : List String) (above : IgnoreRules) :
    visitsIn fs (fuel + 1) dir names above =
      (sortEntries (fs.entries dir)).flatMap (visitsOf fs fuel names
        (rulesIn fs (pathAlong names) above (sortEntries (fs.entries dir)))) :=
  rfl

/-- Names of visits begin with those of the directory and of an entry. -/
theorem exists_names_of_mem_visitsIn {fuel : Nat} {dir : Path} {names : List String}
    {above : IgnoreRules} {v : Visit} (hv : v ∈ visitsIn fs fuel dir names above) :
    ∃ name rest, v.names = names ++ name :: rest := by
  induction fuel generalizing dir names above with
  | zero => exact absurd hv List.not_mem_nil
  | succ fuel ih =>
    obtain ⟨e, -, rfl | ⟨-, -, hv⟩⟩ := mem_visitsIn_succ.1 hv
    · exact ⟨e.name, [], rfl⟩
    · obtain ⟨name, rest, hnames⟩ := ih hv
      exact ⟨e.name, name :: rest, by rw [hnames, List.append_assoc]; rfl⟩

/-- A visit from a directory has the names that lead there first. -/
theorem exists_names_of_mem_visitsOf {fuel : Nat} {names : List String} {rules : IgnoreRules}
    {e : Entry} {v : Visit} (hv : v ∈ visitsOf fs fuel names rules e) :
    ∃ rest, v.names = names ++ e.name :: rest := by
  rcases List.mem_cons.1 hv with rfl | hv
  · exact ⟨[], rfl⟩
  · split at hv
    · obtain ⟨name, rest, hnames⟩ := exists_names_of_mem_visitsIn hv
      exact ⟨name :: rest, by rw [hnames, List.append_assoc]; rfl⟩
    · exact absurd hv List.not_mem_nil

/-- What is below an entry comes before what is below a later one. -/
theorem Visit.precedes_of_lt {names : List String} {a b : String} (hab : a < b) {v v' : Visit}
    {rest rest' : List String} (hv : v.names = names ++ a :: rest)
    (hv' : v'.names = names ++ b :: rest') : v.Precedes v' := by
  rw [Visit.Precedes, hv, hv']
  refine ⟨List.append_left_lt (List.cons_lt_cons_iff.2 (Or.inl hab)), fun hpre => ?_⟩
  rw [List.prefix_append_right_inj, List.cons_prefix_cons] at hpre
  exact absurd hpre.1 (ne_of_lt hab)

/-- The list is ordered. -/
theorem pairwise_visitsIn {fuel : Nat} {dir : Path} (htree : fs.TreeBelow fuel dir)
    (names : List String) (above : IgnoreRules) :
    (visitsIn fs fuel dir names above).Pairwise Visit.Precedes := by
  induction fuel generalizing dir names above with
  | zero => exact absurd htree id
  | succ fuel ih =>
    rw [visitsIn_succ, List.pairwise_flatMap]
    constructor
    · -- An entry comes before what is below it, and there is such only in open directories.
      intro e he
      refine List.pairwise_cons.2 ⟨fun v hv => ?_, ?_⟩
      · split at hv
        · rename_i hcond
          rw [Bool.and_eq_true, Bool.not_eq_true'] at hcond
          obtain ⟨name, rest, hnames⟩ := exists_names_of_mem_visitsIn hv
          refine ⟨?_, fun _ => hcond⟩
          have hlt : names ++ [e.name] ++ [] < names ++ [e.name] ++ name :: rest :=
            List.append_left_lt (List.nil_lt_cons name rest)
          rwa [List.append_nil, ← hnames] at hlt
        · exact absurd hv List.not_mem_nil
      · split
        · rename_i hcond
          rw [Bool.and_eq_true] at hcond
          exact ih ((htree.2 e (mem_sortEntries.1 he)).2 hcond.1) _ _
        · exact List.Pairwise.nil
    · -- Of two entries all names begin differently.
      refine (pairwise_sortEntries htree.1).imp fun {a b} hab v hv v' hv' => ?_
      obtain ⟨rest, hnames⟩ := exists_names_of_mem_visitsOf hv
      obtain ⟨rest', hnames'⟩ := exists_names_of_mem_visitsOf hv'
      exact Visit.precedes_of_lt hab hnames hnames'

/-- Visits come in the order of their names. -/
theorem pairwise_visits (htree : fs.IsTree root) :
    (visits fs root).Pairwise Visit.Precedes :=
  pairwise_visitsIn htree.treeBelow [] IgnoreRules.builtin

/-- Of two visits one precedes the other. -/
theorem Visited.precedes_or_precedes (htree : fs.IsTree root) {v v' : Visit}
    (hv : Visited fs root v) (hv' : Visited fs root v') :
    v = v' ∨ v.Precedes v' ∨ v'.Precedes v := by
  by_cases heq : v = v'
  · exact Or.inl heq
  · have hpair : (visits fs root).Pairwise fun x y => x.Precedes y ∨ y.Precedes x :=
      (pairwise_visits htree).imp Or.inl
    have : Std.Symm fun x y : Visit => x.Precedes y ∨ y.Precedes x := ⟨fun _ _ => Or.symm⟩
    rw [← mem_visits_iff htree] at hv hv'
    exact Or.inr (hpair.forall hv hv' heq)

/-- Visits are told apart by their names. -/
theorem Visited.eq_of_names_eq (htree : fs.IsTree root) {v v' : Visit}
    (hv : Visited fs root v) (hv' : Visited fs root v') (h : v.names = v'.names) : v = v' := by
  rcases hv.precedes_or_precedes htree hv' with heq | hpre | hpre
  · exact heq
  · exact absurd hpre.1 (by rw [h]; exact lt_irrefl _)
  · exact absurd hpre.1 (by rw [h]; exact lt_irrefl _)

/-- Nothing else is visited below what is ignored or no directory. -/
theorem Visited.eq_of_prefix (htree : fs.IsTree root) {v v' : Visit}
    (hv : Visited fs root v) (hv' : Visited fs root v') (hpre : v.names <+: v'.names)
    (hclosed : v.entry.isDir = false ∨ v.ignored = true) : v = v' := by
  obtain ⟨rest, hrest⟩ := hpre
  cases rest with
  | nil => exact hv.eq_of_names_eq htree hv' (by rw [← hrest, List.append_nil])
  | cons name rest =>
    have hlt : v.names ++ [] < v.names ++ name :: rest :=
      List.append_left_lt (List.nil_lt_cons name rest)
    rw [List.append_nil, hrest] at hlt
    rcases hv.precedes_or_precedes htree hv' with heq | hbefore | hbefore
    · exact heq
    · obtain ⟨hdir, hignored⟩ := hbefore.2 ⟨_, hrest⟩
      rw [hdir, hignored] at hclosed
      simp at hclosed
    · exact absurd hbefore.1 (lt_asymm hlt)

end RefGraph
