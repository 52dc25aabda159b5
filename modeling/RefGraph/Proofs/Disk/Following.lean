import RefGraph.Proofs.Disk.Plain

/-!
# Following names over links

Where names lead is found out piece by piece: where the first names lead, and from there the others.
Empty names and `.` make no difference on the way to a directory. What is found in the end is always
a real place: names that lead from one directory to the next over no link, which lead there again
when they are followed themselves.

* `DiskNode.IsProper`: trees of files, directories, and links of any kind.
* `Disk.exists_of_follow_append`, `Disk.follow_append`: names behind names.
* `Disk.SkipsTo`, `Disk.follow_of_skipsTo`, `Disk.follow_of_skipsTo_directory`: names with empty
  ones and `.` between them.
* `Disk.IsReal`, `Disk.isReal_of_follow`, `Disk.locate_pathOf`: places that are found.
* `Disk.locate_iff_follow`, `Disk.locate_join`, `Disk.exists_of_isDir_join`: paths of directories.
-/

namespace RefGraph

/-! ## Proper trees -/

namespace DiskNode

mutual

/-- A tree of files, directories and links. In each directory a name stands for one node, and
between slashes it stands for itself. -/
def IsProper : DiskNode → Prop
  | file _ => True
  | link _ => True
  | directory entries => (entries.map Prod.fst).Nodup ∧ AreProper entries

/-- Named trees of this kind. -/
def AreProper : List (String × DiskNode) → Prop
  | [] => True
  | (name, n) :: es => Path.IsPlainName name ∧ n.IsProper ∧ AreProper es

end

mutual

def decidableIsProper : (n : DiskNode) → Decidable n.IsProper
  | file _ => inferInstanceAs (Decidable True)
  | link _ => inferInstanceAs (Decidable True)
  | directory entries =>
    have := decidableAreProper entries
    inferInstanceAs (Decidable ((entries.map Prod.fst).Nodup ∧ AreProper entries))

def decidableAreProper : (es : List (String × DiskNode)) → Decidable (AreProper es)
  | [] => inferInstanceAs (Decidable True)
  | (name, n) :: es =>
    have := decidableIsProper n
    have := decidableAreProper es
    inferInstanceAs (Decidable (Path.IsPlainName name ∧ n.IsProper ∧ AreProper es))

end

instance (n : DiskNode) : Decidable n.IsProper := decidableIsProper n

theorem areProper_iff {es : List (String × DiskNode)} :
    AreProper es ↔ ∀ e ∈ es, Path.IsPlainName e.1 ∧ e.2.IsProper := by
  induction es with
  | nil => simp [AreProper]
  | cons e es ih =>
    obtain ⟨name, n⟩ := e
    rw [AreProper, ih, List.forall_mem_cons, and_assoc]

/-- What names lead to in a proper tree is proper, and the names are plain. -/
theorem IsProper.of_at? {n m : DiskNode} {names : List String} (h : n.IsProper)
    (hm : n.at? names = some m) : (∀ name ∈ names, Path.IsPlainName name) ∧ m.IsProper := by
  induction names generalizing n with
  | nil =>
    obtain rfl := Option.some.inj hm
    exact ⟨by simp, h⟩
  | cons name names ih =>
    obtain ⟨c, hc, hrest⟩ := Option.bind_eq_some_iff.1 hm
    obtain ⟨entries, rfl⟩ := exists_eq_directory hc
    obtain ⟨hname, hproper⟩ : Path.IsPlainName name ∧ c.IsProper :=
      areProper_iff.1 h.2 (name, c) (mem_of_child? hc)
    obtain ⟨hnames, hresult⟩ := ih hproper hrest
    exact ⟨List.forall_mem_cons.2 ⟨hname, hnames⟩, hresult⟩

end DiskNode

namespace Disk

variable {root : DiskNode} {fuel fuel' : Nat} {here names names' more there : List String}
  {p : Place}

/-! ## Names behind names -/

/-- Names behind names are followed from the place where these lead. If they end at a name that is
not there or at a link, the others are left for later. -/
theorem advance_append_eq (root : DiskNode) (here names more : List String) :
    advance root here (names ++ more) =
      match advance root here names with
      | .error e => .error e
      | .ok (.place (.node there)) => advance root there more
      | .ok (.place (.absent directory name rest)) =>
        .ok (.place (.absent directory name (rest ++ more)))
      | .ok (.link directory target rest) => .ok (.link directory target (rest ++ more)) := by
  induction names generalizing here with
  | nil => rfl
  | cons name names ih =>
    rw [List.cons_append, advance, advance]
    split
    · split
      · exact ih here
      split
      · exact ih here.dropLast
      split
      · rfl
      · rfl
      · exact ih (here ++ [name])
    · rfl

theorem follow_eq (root : DiskNode) (fuel : Nat) (here names : List String) :
    follow root fuel here names =
      match advance root here names with
      | .error e => .error e
      | .ok (.place p) => .ok p
      | .ok (.link directory target rest) =>
        match fuel with
        | 0 => .error .tooManyLinks
        | fuel + 1 => follow root fuel (startOf directory target) (namesOf target ++ rest) :=
  follow.eq_def root fuel here names

/-- What is reached over some links is reached if more are allowed. -/
theorem follow_mono (h : follow root fuel here names = .ok p) (hle : fuel ≤ fuel') :
    follow root fuel' here names = .ok p := by
  fun_induction follow root fuel here names generalizing fuel' with
  | case1 fuel here names e hfirst => cases h
  | case2 fuel here names p' hfirst => rwa [follow_eq, hfirst]
  | case3 here names directory target rest hfirst => cases h
  | case4 here names directory target rest hfirst fuel ih =>
    obtain ⟨fuel', rfl⟩ : ∃ more, fuel' = more + 1 := ⟨fuel' - 1, by omega⟩
    rw [follow_eq, hfirst]
    exact ih h (Nat.le_of_succ_le_succ hle)

/-- **A way to a node leads over the node of the first names**, and from there over no more
links. -/
theorem exists_of_follow_append (h : follow root fuel here (names ++ more) = .ok (.node there)) :
    ∃ between fuel', fuel' ≤ fuel ∧ follow root fuel here names = .ok (.node between) ∧
      follow root fuel' between more = .ok (.node there) := by
  fun_induction follow root fuel here names with
  | case1 fuel here names e hfirst =>
    rw [follow_eq, advance_append_eq, hfirst] at h
    cases h
  | case2 fuel here names p hfirst =>
    rw [follow_eq, advance_append_eq, hfirst] at h
    cases p with
    | absent directory name rest => cases h
    | node between => exact ⟨between, fuel, Nat.le_refl _, rfl, by rwa [follow_eq]⟩
  | case3 here names directory target rest hfirst =>
    rw [follow_eq, advance_append_eq, hfirst] at h
    cases h
  | case4 here names directory target rest hfirst fuel ih =>
    rw [follow_eq, advance_append_eq, hfirst] at h
    dsimp only at h
    rw [← List.append_assoc] at h
    obtain ⟨between, fuel', hle, hbetween, hthere⟩ := ih h
    exact ⟨between, fuel', hle.trans (Nat.le_succ fuel), hbetween, hthere⟩

/-- From the node of some names the way goes on to a place that is reached over no link. -/
theorem follow_append (h : follow root fuel here names = .ok (.node there))
    (hmore : advance root there more = .ok (.place p)) :
    follow root fuel here (names ++ more) = .ok p := by
  fun_induction follow root fuel here names with
  | case1 fuel here names e hfirst => cases h
  | case2 fuel here names p' hfirst =>
    obtain rfl := Except.ok.inj h
    rw [follow_eq, advance_append_eq, hfirst]
    dsimp only
    rw [hmore]
  | case3 here names directory target rest hfirst => cases h
  | case4 here names directory target rest hfirst fuel ih =>
    rw [follow_eq, advance_append_eq, hfirst]
    dsimp only
    rw [← List.append_assoc]
    exact ih h

/-- Names that lead over no link are followed without using up any. -/
theorem follow_append_of_advance (h : advance root here names = .ok (.place (.node there)))
    (fuel : Nat) (more : List String) :
    follow root fuel here (names ++ more) = follow root fuel there more := by
  rw [follow_eq, advance_append_eq, h, follow_eq root fuel there]

/-! ## Empty names and dots -/

/-- The same names with some empty ones and `.` left out. -/
inductive SkipsTo : List String → List String → Prop
  | nil : SkipsTo [] []
  | cons (name : String) {names names' : List String} (h : SkipsTo names names') :
      SkipsTo (name :: names) (name :: names')
  | skip {name : String} (hname : name = "" ∨ name = ".") {names names' : List String}
      (h : SkipsTo names names') : SkipsTo (name :: names) names'

theorem SkipsTo.refl (names : List String) : SkipsTo names names := by
  induction names with
  | nil => exact .nil
  | cons name names ih => exact .cons name ih

theorem SkipsTo.append_left (h : SkipsTo names names') (before : List String) :
    SkipsTo (before ++ names) (before ++ names') := by
  induction before with
  | nil => exact h
  | cons name before ih => exact .cons name ih

/-- Empty names and `.` are skipped. -/
theorem skipsTo_stepsIn (names : List String) : SkipsTo names (stepsIn names) := by
  induction names with
  | nil => exact .nil
  | cons name names ih =>
    by_cases hskip : name = "" ∨ name = "."
    · rw [stepsIn_cons_of_skipped hskip]
      exact .skip hskip ih
    · rw [stepsIn_cons_of_step hskip]
      exact .cons name ih

/-- Where the same names lead with and without empty ones and `.`: to the same place, but that these
cannot stand behind something that is no directory. -/
inductive Agrees (root : DiskNode) : Except FileError Place → Except FileError Place → Prop
  | error (e : FileError) : Agrees root (.error e) (.error e)
  | node (there : List String) : Agrees root (.ok (.node there)) (.ok (.node there))
  | notDirectory (e : FileError) {there : List String}
      (h : ∀ entries, root.at? there ≠ some (.directory entries)) :
      Agrees root (.error e) (.ok (.node there))
  | absent (directory : List String) (name : String) (rest rest' : List String) :
      Agrees root (.ok (.absent directory name rest)) (.ok (.absent directory name rest'))

/-- The same up to the first link, where the same names are left. -/
inductive AgreesOnWay (root : DiskNode) :
    Except FileError Reached → Except FileError Reached → Prop
  | error (e : FileError) : AgreesOnWay root (.error e) (.error e)
  | notDirectory {e : FileError} {p : Place} (h : Agrees root (.error e) (.ok p)) :
      AgreesOnWay root (.error e) (.ok (.place p))
  | place {p p' : Place} (h : Agrees root (.ok p) (.ok p')) :
      AgreesOnWay root (.ok (.place p)) (.ok (.place p'))
  | link (directory : List String) (target : String) {rest rest' : List String}
      (h : SkipsTo rest rest') :
      AgreesOnWay root (.ok (.link directory target rest)) (.ok (.link directory target rest'))

/-- Skipped names make no difference up to the first link. -/
theorem agreesOnWay (root : DiskNode) (h : SkipsTo names names') (here : List String) :
    AgreesOnWay root (advance root here names) (advance root here names') := by
  induction h generalizing here with
  | nil => exact .place (.node here)
  | cons name h ih =>
    rw [advance, advance]
    split
    · split
      · exact ih here
      split
      · exact ih here.dropLast
      split
      · exact .place (.absent ..)
      · exact .link _ _ h
      · exact ih (here ++ [name])
    · exact .error _
  | @skip name hname names names' h ih =>
    rw [advance]
    split
    · rw [if_pos hname]
      exact ih here
    · -- Outside of directories a skipped name fails as well, though maybe later than the others.
      rename_i hnone
      cases names' with
      | nil => exact .notDirectory (.notDirectory _ hnone)
      | cons name' names' =>
        rw [advance]
        split
        · rename_i entries hsome
          exact absurd hsome (hnone entries)
        · exact .error _

/-- Skipped names make no difference over links either. -/
theorem agrees_follow (h : SkipsTo names names') :
    Agrees root (follow root fuel here names) (follow root fuel here names') := by
  induction fuel using Nat.strong_induction_on generalizing here names names' with
  | _ fuel ih =>
    have hway := agreesOnWay root h here
    rw [follow_eq root fuel here names, follow_eq root fuel here names']
    generalize advance root here names = r at hway
    generalize advance root here names' = r' at hway
    cases hway with
    | error e => exact .error e
    | notDirectory h => exact h
    | place h => exact h
    | link directory target h =>
      cases fuel with
      | zero => exact .error .tooManyLinks
      | succ fuel => exact ih fuel (Nat.lt_succ_self fuel) (h.append_left (namesOf target))

/-- **Empty names and `.` can be left out.** -/
theorem follow_of_skipsTo (h : SkipsTo names names')
    (hf : follow root fuel here names = .ok (.node there)) :
    follow root fuel here names' = .ok (.node there) := by
  have hagrees : Agrees root _ (follow root fuel here names') := agrees_follow h
  rw [hf] at hagrees
  generalize follow root fuel here names' = r at hagrees ⊢
  cases hagrees with
  | node => rfl

/-- **On the way to a directory they make no difference.** -/
theorem follow_of_skipsTo_directory (h : SkipsTo names names') {entries : List (String × DiskNode)}
    (hdir : root.at? there = some (.directory entries))
    (hf : follow root fuel here names' = .ok (.node there)) :
    follow root fuel here names = .ok (.node there) := by
  have hagrees : Agrees root (follow root fuel here names) _ := agrees_follow h
  rw [hf] at hagrees
  generalize follow root fuel here names = r at hagrees ⊢
  cases hagrees with
  | node => rfl
  | notDirectory e h => exact absurd hdir (h entries)

/-! ## Places that are found -/

/-- Names that lead from one directory to the next, over no link, to a node that is no link. -/
def IsReal (root : DiskNode) (names : List String) : Prop :=
  ∃ n, root.at? names = some n ∧ ∀ target, n ≠ .link target

theorem isReal_of_directory {entries : List (String × DiskNode)}
    (h : root.at? names = some (.directory entries)) : IsReal root names :=
  ⟨_, h, nofun⟩

theorem exists_directory_dropLast {entries : List (String × DiskNode)}
    (h : root.at? names = some (.directory entries)) :
    ∃ entries, root.at? names.dropLast = some (.directory entries) := by
  rcases List.eq_nil_or_concat' names with rfl | ⟨init, last, rfl⟩
  · exact ⟨entries, h⟩
  · rw [List.dropLast_concat]
    exact DiskNode.exists_directory_of_at?_append (List.cons_ne_nil last []) h

/-- Names that lead on without a link lead to a node that is no link itself. -/
theorem isReal_of_advance (hhere : names = [] → IsReal root here)
    (h : advance root here names = .ok (.place (.node there))) : IsReal root there := by
  induction names generalizing here with
  | nil =>
    obtain rfl := Place.node.inj (Reached.place.inj (Except.ok.inj h))
    exact hhere rfl
  | cons name names ih =>
    obtain ⟨entries, hat⟩ := exists_directory_of_advance_cons h
    rw [advance_cons hat, enter] at h
    split at h
    · exact ih (fun _ => isReal_of_directory hat) h
    split at h
    · obtain ⟨above, habove⟩ := exists_directory_dropLast hat
      exact ih (fun _ => isReal_of_directory habove) h
    split at h
    · cases h
    · cases h
    · rename_i n hlink hchild
      exact ih (fun _ => ⟨n, hchild, hlink⟩) h

theorem namesOf_ne_nil (text : String) : namesOf text ≠ [] := by
  rw [namesOf, Ne, List.map_eq_nil_iff]
  exact splitAtChar_ne_nil '/' _

/-- **Every node is found in a real place.** -/
theorem isReal_of_follow (hne : names ≠ []) (h : follow root fuel here names = .ok (.node there)) :
    IsReal root there := by
  fun_induction follow root fuel here names with
  | case1 fuel here names e hfirst => cases h
  | case2 fuel here names p hfirst =>
    rw [Except.ok.inj h] at hfirst
    exact isReal_of_advance (fun hnil => absurd hnil hne) hfirst
  | case3 here names directory target rest hfirst => cases h
  | case4 here names directory target rest hfirst fuel ih =>
    exact ih (List.append_ne_nil_of_left_ne_nil (namesOf_ne_nil target) rest) h

theorem ne_of_isPlainName {name : String} (h : Path.IsPlainName name) :
    ¬ (name = "" ∨ name = ".") ∧ name ≠ ".." := by
  refine ⟨?_, ?_⟩
  · rintro (rfl | rfl)
    · exact absurd h (by decide)
    · exact absurd h (by decide)
  · rintro rfl
    exact absurd h (by decide)

/-- **A real place is reached along its names**, over no link. -/
theorem advance_of_isReal (hnames : ∀ name ∈ names, Path.IsPlainName name)
    (h : IsReal root (here ++ names)) :
    advance root here names = .ok (.place (.node (here ++ names))) := by
  induction names generalizing here with
  | nil =>
    rw [List.append_nil]
    rfl
  | cons name names ih =>
    obtain ⟨hname, hnames⟩ := List.forall_mem_cons.1 hnames
    obtain ⟨hskip, hparent⟩ := ne_of_isPlainName hname
    obtain ⟨n, hn, hlink⟩ := h
    obtain ⟨entries, hat⟩ :=
      DiskNode.exists_directory_of_at?_append (List.cons_ne_nil name names) hn
    rw [List.append_cons] at hn
    obtain ⟨m, hm⟩ : ∃ m, root.at? (here ++ [name]) = some m := by
      rw [DiskNode.at?_append] at hn
      obtain ⟨m, hm, -⟩ := Option.bind_eq_some_iff.1 hn
      exact ⟨m, hm⟩
    have hnext := ih hnames ⟨n, hn, hlink⟩
    rw [← List.append_cons] at hnext
    rw [advance_cons hat, if_neg hskip, if_neg hparent, enter, hm]
    cases m with
    | link target =>
      -- a link leads nowhere on, and the last node is none
      cases names with
      | nil =>
        rw [List.append_nil, hm] at hn
        exact absurd (Option.some.inj hn).symm (hlink target)
      | cons name' names =>
        obtain ⟨inside, hinside⟩ :=
          DiskNode.exists_directory_of_at?_append (List.cons_ne_nil name' names) hn
        rw [hm] at hinside
        cases hinside
    | file bytes => exact hnext
    | directory inside => exact hnext

/-! ## Paths -/

variable {d : Disk} {q : Path} {name : String}

/-- A path leads to a node if following its names does. -/
theorem locate_eq_ok_iff {p : Path} : d.locate p = .ok there ↔ p.text ≠ "" ∧
    follow d.root maxLinks (startOf d.current p.text) (namesOf p.text) = .ok (.node there) := by
  rw [locate, place]
  by_cases hne : p.text = ""
  · rw [if_pos hne]
    constructor
    · intro h
      cases h
    · rintro ⟨h, -⟩
      exact absurd hne h
  · rw [if_neg hne, and_iff_right hne]
    cases follow d.root maxLinks (startOf d.current p.text) (namesOf p.text) with
    | error e => simp
    | ok found => cases found <;> simp

theorem isReal_of_locate {p : Path} (h : d.locate p = .ok there) : IsReal d.root there :=
  isReal_of_follow (namesOf_ne_nil _) (locate_eq_ok_iff.1 h).2

/-- A path leads to a directory. -/
theorem isDir_iff_locate {p : Path} : d.isDir p = true ↔
    ∃ there entries, d.locate p = .ok there ∧ d.root.at? there = some (.directory entries) := by
  rw [isDir, node]
  cases hlocate : d.locate p with
  | error e => simp [Except.toOption]
  | ok there =>
    obtain ⟨n, hn, -⟩ := isReal_of_locate hlocate
    simp only [hn, Option.map_some, Option.getD_some, Except.toOption, Option.any_some]
    cases n with
    | directory entries => simp [DiskNode.isDirectory, hn]
    | file bytes => simp [DiskNode.isDirectory, hn]
    | link target => simp [DiskNode.isDirectory, hn]

/-- Which directory an absolute path without `..` leads to, its components say. -/
theorem locate_iff_follow {p : Path} (hp : p.components = .root :: names.map .name)
    {entries : List (String × DiskNode)} (hdir : d.root.at? there = some (.directory entries)) :
    d.locate p = .ok there ↔ follow d.root maxLinks [] names = .ok (.node there) := by
  obtain ⟨hslash, -, hsteps⟩ := stepsIn_namesOf hp
  have hne : p.text ≠ "" := Path.text_ne_of_components (by rw [hp]; exact List.cons_ne_nil _ _)
  have hskips := skipsTo_stepsIn (namesOf p.text)
  rw [hsteps] at hskips
  rw [locate_eq_ok_iff, and_iff_right hne, startOf, if_pos hslash]
  exact ⟨follow_of_skipsTo hskips, follow_of_skipsTo_directory hskips hdir⟩

/-- An absolute path is a directory if following its names leads to one. -/
theorem isDir_iff_follow {p : Path} (hp : p.components = .root :: names.map .name) :
    d.isDir p = true ↔ ∃ there entries, follow d.root maxLinks [] names = .ok (.node there) ∧
      d.root.at? there = some (.directory entries) := by
  rw [isDir_iff_locate]
  exact exists_congr fun there => exists_congr fun entries =>
    and_congr_left fun hdir => locate_iff_follow hp hdir

/-- Absolute paths with the same components are directories alike. -/
theorem isDir_congr {p : Path} (hp : p.components = .root :: names.map .name)
    (h : q.components = p.components) : d.isDir q = d.isDir p := by
  rw [Bool.eq_iff_iff, isDir_iff_follow hp, isDir_iff_follow (h.trans hp)]

/-- The text of a path with a name behind it. -/
theorem exists_text_join {p : Path} (hp : p.text ≠ "") (hname : Path.IsPlainName name) :
    ∃ cs, (p.join ⟨name⟩).text.toList = cs ++ '/' :: name.toList ∧
      (p.text.toList = cs ∨ p.text.toList = cs ++ ['/']) := by
  have hne : p.text.toList ≠ [] := fun he => hp (String.toList_eq_nil_iff.1 he)
  have hrelative : Path.isAbsolute ⟨name⟩ = false :=
    beq_false_of_ne fun hhead => hname.slash (List.mem_of_head? hhead)
  rw [Path.join, if_neg (by simp [hrelative])]
  split
  · rename_i hend
    obtain ⟨cs, hcs⟩ := List.getLast?_eq_some_iff.1 (hend.resolve_left hne)
    refine ⟨cs, ?_, .inr hcs⟩
    rw [String.toList_append, hcs, List.append_assoc]
    rfl
  · refine ⟨p.text.toList, ?_, .inl rfl⟩
    rw [String.toList_append, String.toList_append, List.append_assoc]
    rfl

/-- It begins where the path begins, and the name is its last step. -/
theorem startOf_join {p : Path} (hp : p.text ≠ "") (hname : Path.IsPlainName name)
    (here : List String) : startOf here (p.join ⟨name⟩).text = startOf here p.text := by
  have hne : p.text.toList ≠ [] := fun he => hp (String.toList_eq_nil_iff.1 he)
  obtain ⟨cs, hjoin, hcs⟩ := exists_text_join hp hname
  have hhead : (p.join ⟨name⟩).text.toList.head? = p.text.toList.head? := by
    rw [hjoin]
    rcases hcs with hcs | hcs
    · rw [hcs] at hne ⊢
      rw [List.head?_append_of_ne_nil _ hne]
    · rw [hcs]
      cases cs <;> rfl
  rw [startOf, startOf, hhead]

/-- A name that is joined to a path comes last among its steps. -/
theorem stepsIn_namesOf_join {p : Path} (hp : p.text ≠ "") (hname : Path.IsPlainName name) :
    stepsIn (namesOf (p.join ⟨name⟩).text) = stepsIn (namesOf p.text) ++ [name] := by
  have hsplit : splitAtChar '/' name.toList = [name.toList] := splitAtChar_eq_singleton hname.slash
  have hone : stepsIn [name] = [name] := stepsIn_cons_of_step (ne_of_isPlainName hname).1 []
  obtain ⟨cs, hjoin, hcs⟩ := exists_text_join hp hname
  have hempty : stepsIn ((splitAtChar '/' (cs ++ ['/'])).map String.ofList) =
      stepsIn ((splitAtChar '/' cs).map String.ofList) := by
    rw [splitAtChar_append, List.map_append, stepsIn_append]
    exact List.append_nil _
  rw [namesOf, namesOf, hjoin, splitAtChar_append, hsplit, List.map_append, List.map_singleton,
    String.ofList_toList, stepsIn_append, hone]
  rcases hcs with hcs | hcs
  · rw [hcs]
  · rw [hcs, hempty]

/-- **What is in a directory is found under its name behind the path**, if it is no link. -/
theorem locate_join_of_isReal {p : Path} (h : d.locate p = .ok there)
    (hname : Path.IsPlainName name) (hreal : IsReal d.root (there ++ [name])) :
    d.locate (p.join ⟨name⟩) = .ok (there ++ [name]) := by
  obtain ⟨hp, hfollow⟩ := locate_eq_ok_iff.1 h
  obtain ⟨cs, hjoin, hcs⟩ := exists_text_join hp hname
  have hne : (p.join ⟨name⟩).text ≠ "" := by
    intro hnil
    rw [hnil] at hjoin
    exact absurd hjoin.symm (List.append_ne_nil_of_right_ne_nil _ (List.cons_ne_nil _ _))
  have hnames :
      namesOf (p.join ⟨name⟩).text = (splitAtChar '/' cs).map String.ofList ++ [name] := by
    rw [namesOf, hjoin, splitAtChar_append, splitAtChar_eq_singleton hname.slash, List.map_append,
      List.map_singleton, String.ofList_toList]
  -- A slash at the end of the path is not written twice.
  have hskips : SkipsTo (namesOf p.text) ((splitAtChar '/' cs).map String.ofList) := by
    rw [namesOf]
    rcases hcs with hcs | hcs
    · rw [hcs]
      exact .refl _
    · have hempty : (splitAtChar '/' []).map String.ofList = [""] := rfl
      have hskip := (SkipsTo.skip (.inl rfl) .nil : SkipsTo [""] []).append_left
        ((splitAtChar '/' cs).map String.ofList)
      rw [List.append_nil] at hskip
      rwa [hcs, splitAtChar_append, List.map_append, hempty]
  have hadvance := advance_of_isReal (List.forall_mem_singleton.2 hname) hreal
  rw [locate_eq_ok_iff, and_iff_right hne, startOf_join hp hname, hnames]
  exact follow_append (follow_of_skipsTo hskips hfollow) hadvance

/-- A directory in a directory is found under its name behind the path. -/
theorem locate_join {p : Path} (h : d.locate p = .ok there) (hname : Path.IsPlainName name)
    {entries : List (String × DiskNode)}
    (hat : d.root.at? (there ++ [name]) = some (.directory entries)) :
    d.locate (p.join ⟨name⟩) = .ok (there ++ [name]) :=
  locate_join_of_isReal h hname (isReal_of_directory hat)

/-- Names are looked for in a directory. -/
theorem exists_directory_of_follow_cons (h : follow root fuel here (name :: names) = .ok p) :
    ∃ entries, root.at? here = some (.directory entries) := by
  rw [follow_eq, advance] at h
  cases hat : root.at? here with
  | none =>
    rw [hat] at h
    cases h
  | some n =>
    rw [hat] at h
    cases n with
    | directory entries => exact ⟨entries, rfl⟩
    | file bytes => cases h
    | link target => cases h

/-- **What holds a directory is a directory**, and holds it under its real place as well. -/
theorem exists_of_isDir_join {p : Path} (hd : d.root.IsProper) (hp : p.text ≠ "")
    (hname : Path.IsPlainName name) (h : d.isDir (p.join ⟨name⟩) = true) :
    ∃ there entries, d.locate p = .ok there ∧ d.root.at? there = some (.directory entries) ∧
      d.isDir (pathOf (there ++ [name])) = true := by
  obtain ⟨inner, entries, hlocate, hat⟩ := isDir_iff_locate.1 h
  obtain ⟨-, hfollow⟩ := locate_eq_ok_iff.1 hlocate
  have hsteps := follow_of_skipsTo (skipsTo_stepsIn _) hfollow
  rw [stepsIn_namesOf_join hp hname, startOf_join hp hname] at hsteps
  obtain ⟨there, fuel, hle, hthere, hinner⟩ := exists_of_follow_append hsteps
  obtain ⟨above, habove⟩ := exists_directory_of_follow_cons hinner
  have hplain := (hd.of_at? habove).1
  have hcomponents := components_pathOf
    (List.forall_mem_append.2 ⟨hplain, List.forall_mem_singleton.2 hname⟩)
  have hadvance : advance d.root [] there = .ok (.place (.node there)) :=
    advance_of_isReal hplain (isReal_of_directory habove)
  refine ⟨there, above, locate_eq_ok_iff.2 ⟨hp, ?_⟩, habove, ?_⟩
  · exact follow_of_skipsTo_directory (skipsTo_stepsIn _) habove hthere
  · refine (isDir_iff_follow hcomponents).2 ⟨inner, entries, ?_, hat⟩
    rw [follow_append_of_advance hadvance]
    exact follow_mono hinner hle

/-- A real directory is found under the path of its names. -/
theorem locate_pathOf (hd : d.root.IsProper) {entries : List (String × DiskNode)}
    (h : d.root.at? names = some (.directory entries)) : d.locate (pathOf names) = .ok names := by
  have hplain := (hd.of_at? h).1
  have hadvance : advance d.root [] names = .ok (.place (.node names)) :=
    advance_of_isReal hplain (isReal_of_directory h)
  rw [locate_iff_follow (components_pathOf hplain) h, follow_eq, hadvance]

end Disk

end RefGraph
