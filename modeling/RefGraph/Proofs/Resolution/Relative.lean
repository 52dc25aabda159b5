import RefGraph.Proofs.FileSystem.Contents
import RefGraph.Proofs.Resolution.FromRoot

/-!
# From one file to another

Every file below the root can be named from every other one: a relative specifier leads up to a
directory that holds both and from there down to the file. Dots, further slashes and names that are
taken back at once make no difference behind its first segment, and neither does a query.

* `HasDetours`: segments with such insertions.
* `IsRelativeSpecifier`: a specifier that leads up out of directories and down along names.
* `HasDetours.alongSegments_eq`: the insertions are gone once the path is folded.
* `resolve?_relative`: the file to which the specifier leads is found.
-/

namespace RefGraph

open RefGraph.Path

/-! ## Segments -/

/-- What is left of names, of which the last one comes first, behind segments of a path. -/
def alongSegments (names segments : List String) : List String :=
  ((segments.map String.toList).filterMap Component.ofSegment?).foldl foldStep names

theorem alongSegments_append (names before after : List String) :
    alongSegments names (before ++ after) = alongSegments (alongSegments names before) after := by
  rw [alongSegments, List.map_append, List.filterMap_append, List.foldl_append]
  rfl

theorem alongSegments_cons (names : List String) (segment : String) (segments : List String) :
    alongSegments names (segment :: segments) =
      alongSegments (alongSegments names [segment]) segments :=
  alongSegments_append names [segment] segments

theorem alongSegments_name {name : String} (hname : IsPlainName name) (names : List String) :
    alongSegments names [name] = name :: names := by
  rw [alongSegments, List.map_singleton, List.filterMap_cons_some hname.segment]
  rfl

/-- Plain names lead down, one after the other. -/
theorem alongSegments_names {down : List String} (hdown : ∀ name ∈ down, IsPlainName name)
    (names : List String) : alongSegments names down = down.reverse ++ names := by
  induction down generalizing names with
  | nil => rfl
  | cons name down ih =>
    rw [alongSegments_cons, alongSegments_name (hdown name List.mem_cons_self),
      ih fun other hother => hdown other (List.mem_cons_of_mem _ hother), List.reverse_cons,
      List.append_assoc]
    rfl

/-- Each `..` leads one directory up. -/
theorem alongSegments_parents (up : Nat) (names : List String) :
    alongSegments names (List.replicate up "..") = names.drop up := by
  induction up generalizing names with
  | zero => rfl
  | succ up ih =>
    have hparent : alongSegments names [".."] = names.drop 1 := rfl
    rw [List.replicate_succ, alongSegments_cons, ih, hparent, List.drop_drop, Nat.add_comm]

/-- Segments that lead nowhere: a `.`, nothing between two slashes, or a name that a `..` takes back
at once. -/
inductive IsDetour : List String → Prop where
  | dot : IsDetour ["."]
  | slash : IsDetour [""]
  | back {name : String} (isPlain : IsPlainName name) (unmarked : isUnmarked name = true) :
      IsDetour [name, ".."]

/-- A detour leads nowhere else. -/
theorem IsDetour.alongSegments_eq {detour : List String} (h : IsDetour detour)
    (names : List String) : alongSegments names detour = names := by
  cases h with
  | dot => rfl
  | slash => rfl
  | back isPlain unmarked =>
    rw [alongSegments_cons, alongSegments_name isPlain]
    rfl

/-- A text without slashes and without a mark with which a query could begin. -/
def IsSegment (segment : String) : Prop := '/' ∉ segment.toList ∧ isUnmarked segment = true

instance (segment : String) : Decidable (IsSegment segment) :=
  inferInstanceAs (Decidable (_ ∧ _))

theorem IsDetour.isSegment {detour : List String} (h : IsDetour detour) :
    ∀ segment ∈ detour, IsSegment segment := by
  cases h with
  | dot => exact List.forall_mem_singleton.2 (by decide)
  | slash => exact List.forall_mem_singleton.2 (by decide)
  | back isPlain unmarked =>
    exact List.forall_mem_cons.2
      ⟨⟨isPlain.slash, unmarked⟩, List.forall_mem_singleton.2 (by decide)⟩

/-- Segments with detours inserted anywhere. -/
inductive HasDetours (segments : List String) : List String → Prop where
  | plain : HasDetours segments segments
  | insert {before detour after : List String} (isDetour : IsDetour detour)
      (h : HasDetours segments (before ++ after)) :
      HasDetours segments (before ++ (detour ++ after))

namespace HasDetours

variable {segments detoured : List String}

/-- **Detours lead back to where they began.** -/
theorem alongSegments_eq (h : HasDetours segments detoured) (names : List String) :
    alongSegments names detoured = alongSegments names segments := by
  induction h with
  | plain => rfl
  | insert isDetour h ih =>
    rw [← ih, alongSegments_append, alongSegments_append, isDetour.alongSegments_eq,
      alongSegments_append]

/-- With detours, segments stay segments. -/
theorem isSegment (h : HasDetours segments detoured)
    (hsegments : ∀ segment ∈ segments, IsSegment segment) :
    ∀ segment ∈ detoured, IsSegment segment := by
  induction h with
  | plain => exact hsegments
  | insert isDetour h ih =>
    rw [List.forall_mem_append] at ih ⊢
    rw [List.forall_mem_append]
    exact ⟨ih.1, isDetour.isSegment, ih.2⟩

end HasDetours

/-! ## Specifiers -/

/-- The first segment of a path that leads up out of so many directories. -/
def firstSegment (up : Nat) : String := if up = 0 then "." else ".."

/-- The segments behind it, when the path then leads down along names. -/
def laterSegments (up : Nat) (down : List String) : List String :=
  List.replicate (up - 1) ".." ++ down

/-- A first segment and others behind it, with slashes between them. -/
def segmentsText (first : String) (segments : List String) : String :=
  first ++ "/" ++ "/".intercalate segments

/-- A specifier that leads up out of so many directories and then down along names, with detours
behind its first segment, and with or without a query. -/
inductive IsRelativeSpecifier (up : Nat) (down : List String) : String → Prop where
  | intro {segments : List String} {query : String}
      (detours : HasDetours (laterSegments up down) segments)
      (isQuery : ∀ c ∈ query.toList.head?, IsMark c) :
      IsRelativeSpecifier up down (segmentsText (firstSegment up) segments ++ query)

theorem isSegment_firstSegment (up : Nat) : IsSegment (firstSegment up) := by
  rw [firstSegment]
  split <;> decide

theorem head?_firstSegment (up : Nat) : (firstSegment up).toList.head? = some '.' := by
  rw [firstSegment]
  split <;> rfl

/-- All but the first segment are `..` and the names down. -/
theorem isSegment_laterSegments (up : Nat) {down : List String}
    (h : ∀ name ∈ down, IsSegment name) : ∀ segment ∈ laterSegments up down, IsSegment segment := by
  refine List.forall_mem_append.2 ⟨fun segment hsegment => ?_, h⟩
  rw [List.eq_of_mem_replicate hsegment]
  decide

/-- Leading up takes away names, whether the first segment does so or not. -/
theorem alongSegments_firstSegment (up : Nat) (down names : List String) :
    alongSegments names (firstSegment up :: laterSegments up down) =
      alongSegments (names.drop up) down := by
  rw [alongSegments_cons, laterSegments, alongSegments_append, alongSegments_parents]
  cases up with
  | zero => rfl
  | succ up =>
    have hparent : alongSegments names [firstSegment (up + 1)] = names.drop 1 := by
      rw [firstSegment, if_neg (Nat.succ_ne_zero up)]
      rfl
    rw [hparent, List.drop_drop, Nat.add_sub_cancel, Nat.add_comm]

theorem toList_segmentsText (first : String) (segments : List String) :
    (segmentsText first segments).toList =
      first.toList ++ '/' :: ['/'].intercalate (segments.map String.toList) := by
  rw [segmentsText, String.toList_append, String.toList_append, String.toList_intercalate,
    List.append_assoc]
  rfl

/-- What is true of every part and of what stands between them is true of the whole text. -/
theorem forall_mem_intercalate {P : Char → Prop} {separator : List Char} {parts : List (List Char)}
    (hseparator : ∀ c ∈ separator, P c) (hparts : ∀ part ∈ parts, ∀ c ∈ part, P c) :
    ∀ c ∈ separator.intercalate parts, P c := by
  induction parts with
  | nil => exact fun c hc => absurd hc List.not_mem_nil
  | cons part parts ih =>
    obtain ⟨hpart, hparts⟩ := List.forall_mem_cons.1 hparts
    cases parts with
    | nil => rwa [List.intercalate_singleton]
    | cons next rest =>
      rw [List.intercalate_cons_cons, List.forall_mem_append, List.forall_mem_append]
      exact ⟨⟨hpart, hseparator⟩, ih hparts⟩

section Segments

variable {first : String} {segments : List String} (hfirst : IsSegment first)
  (hsegments : ∀ segment ∈ segments, IsSegment segment)

include hfirst hsegments

/-- The components of such a text are read off the segments. -/
theorem inner_segmentsText : Path.inner (segmentsText first segments).toList =
    ((first :: segments).map String.toList).filterMap Component.ofSegment? := by
  have hcons : Path.inner (segmentsText first segments).toList =
      (first.toList :: splitAtChar '/'
        (['/'].intercalate (segments.map String.toList))).filterMap Component.ofSegment? := by
    rw [Path.inner, toList_segmentsText, splitAtChar_append, splitAtChar_eq_singleton hfirst.1,
      List.singleton_append]
  rw [hcons, List.filterMap_cons, List.map_cons, List.filterMap_cons]
  cases segments with
  | nil => rfl
  | cons segment segments =>
    rw [splitAtChar_intercalate (by simp)]
    intro part hpart
    obtain ⟨other, hother, rfl⟩ := List.mem_map.1 hpart
    exact (hsegments other hother).1

/-- No query and no fragment stands in the segments. -/
theorem isUnmarked_segmentsText : isUnmarked (segmentsText first segments) = true := by
  have hslash : ¬ IsMark '/' := by simp [IsMark]
  rw [isUnmarked_iff, toList_segmentsText, List.forall_mem_append, List.forall_mem_cons]
  refine ⟨isUnmarked_iff.1 hfirst.2, hslash,
    forall_mem_intercalate (List.forall_mem_singleton.2 hslash) ?_⟩
  intro part hpart
  obtain ⟨segment, hsegment, rfl⟩ := List.mem_map.1 hpart
  exact isUnmarked_iff.1 (hsegments segment hsegment).2

/-- **Behind a directory the segments are followed one after the other.** -/
theorem folded_join_segmentsText {dir : Path} {names : List String}
    (hdir : dir.components = .root :: names.map .name) (hhead : first.toList.head? = some '.') :
    (dir.join ⟨segmentsText first segments⟩).folded =
      ofNames true (alongSegments names.reverse (first :: segments)).reverse := by
  have habsolute : dir.isAbsolute = true :=
    isAbsolute_iff_mem.2 (by rw [hdir]; exact List.mem_cons_self)
  have htext : dir.text ≠ "" := text_ne_of_components (by rw [hdir]; exact List.cons_ne_nil _ _)
  have hrelative : isAbsolute ⟨segmentsText first segments⟩ = false := by
    obtain ⟨cs, hcs⟩ := List.head?_eq_some_iff.1 hhead
    rw [isAbsolute, toList_segmentsText, hcs]
    rfl
  have hnames : (Component.root :: names.map .name).foldl foldStep [] = names.reverse :=
    List.reverse_eq_iff.1 (foldNames_map_name names)
  rw [folded, isAbsolute_join habsolute, components_join htext hrelative,
    filter_components hrelative, inner_segmentsText hfirst hsegments, hdir, foldNames_eq,
    List.foldl_append, hnames]
  rfl

/-- A specifier that begins with a dot is looked for beside the file that holds it, without its
query. -/
theorem resolve?_segmentsText {fs : FileSystem} {root fromFile dir : Path} {aliases : List String}
    {query : String} (hhead : first.toList.head? = some '.') (hdir : fromFile.parent? = some dir)
    (hquery : ∀ c ∈ query.toList.head?, IsMark c)
    (haliases : BeginsWithNone aliases (segmentsText first segments ++ query).toList) :
    resolve? fs root aliases fromFile (segmentsText first segments ++ query) =
      (fileUnder? fs (dir.join ⟨segmentsText first segments⟩).folded).filter
        fun hit => (root.below? hit).isSome := by
  obtain ⟨rest, hrest⟩ : ∃ rest, (segmentsText first segments).toList = '.' :: rest := by
    obtain ⟨cs, hcs⟩ := List.head?_eq_some_iff.1 hhead
    exact ⟨_, by rw [toList_segmentsText, hcs]; rfl⟩
  have htext : (segmentsText first segments ++ query).toList = '.' :: rest ++ query.toList := by
    rw [String.toList_append, hrest]
  have hcut : IsCut (segmentsText first segments ++ query).toList ('.' :: rest) :=
    ⟨hrest ▸ isUnmarked_iff.1 (isUnmarked_segmentsText hfirst hsegments), _, htext, hquery⟩
  have hnone : BeginsWithNone aliases ('.' :: rest) := fun a ha hbegins =>
    haliases a ha (htext ▸ hbegins.trans (List.prefix_append ..))
  have hleads : LeadsTo root aliases fromFile ('.' :: rest) _ := .besideFile hnone
  rw [hdir, Option.getD_some, ← hrest, String.ofList_toList, hrest] at hleads
  refine resolve?_of_leadsTo ?_ hcut hleads
  rw [htext]
  rintro ⟨more, hmore⟩
  cases hmore

end Segments

/-! ## Files -/

/-- **Every file below the root can be named from every other one.** The file that holds the
specifier and the one that is meant have some names in common; the specifier leads up from the one
and down to the other. -/
theorem resolve?_relative {m : Memory} {root f g : Path} {aliases common up down : List String}
    {file specifier : String} (hroot : root.isAbsolute = true)
    (hparent : Component.parent ∉ root.components)
    (hf : f.components = root.components ++ (common ++ up ++ [file]).map .name)
    (hg : g.components = root.components ++ (common ++ down).map .name)
    (hunmarked : ∀ name ∈ down, isUnmarked name = true) (hfile : m.isFile g = true)
    (hspecifier : IsRelativeSpecifier up.length down specifier)
    (haliases : BeginsWithNone aliases specifier.toList) :
    resolve? m.fileSystem root aliases f specifier = some g.folded ∧
      g.folded.equals g = true := by
  obtain ⟨rootNames, hrootNames⟩ := exists_components_eq hroot hparent
  have hgnames : g.components = .root :: (rootNames ++ common ++ down).map .name := by
    simp [hg, hrootNames]
  have hgabsolute : g.isAbsolute = true :=
    isAbsolute_iff_mem.2 (by rw [hgnames]; exact List.mem_cons_self)
  have hgfolded : g.folded = ofNames true (rootNames ++ common ++ down) := by
    rw [folded, hgabsolute, hgnames, foldNames_map_name]
  have hgcomponents : g.folded.components = g.components :=
    components_folded hgabsolute (by simp [hgnames])
  have hfound : m.fileSystem.isFile g.folded = true :=
    Memory.isFile_iff.2 (hgcomponents ▸ Memory.isFile_iff.1 hfile)
  have hplain : ∀ name ∈ down, IsPlainName name := fun name hname =>
    isPlainName_of_mem_components (p := g) (by simp [hgnames, hname])
  obtain ⟨q, hq, hqcomponents⟩ := exists_parent? (List.concat_ne_nil file _) hf
  have hqnames : q.components = .root :: (rootNames ++ common ++ up).map .name := by
    simp [hqcomponents, hrootNames]
  cases hspecifier with
  | @intro segments query detours isQuery =>
    have hfirst := isSegment_firstSegment up.length
    have hhead := head?_firstSegment up.length
    have hsegments := detours.isSegment <| isSegment_laterSegments up.length fun name hname =>
      ⟨(hplain name hname).slash, hunmarked name hname⟩
    -- The way up leaves what the two files have in common, and the way down adds the rest.
    have hnames : alongSegments (rootNames ++ common ++ up).reverse
        (firstSegment up.length :: segments) = (rootNames ++ common ++ down).reverse := by
      rw [alongSegments_cons, detours.alongSegments_eq, ← alongSegments_cons,
        alongSegments_firstSegment, List.reverse_append, List.drop_left' List.length_reverse,
        alongSegments_names hplain, ← List.reverse_append]
    have hfolded : (q.join ⟨segmentsText (firstSegment up.length) segments⟩).folded = g.folded := by
      rw [folded_join_segmentsText hfirst hsegments hqnames hhead, hnames, List.reverse_reverse,
        hgfolded]
    rw [resolve?_segmentsText hfirst hsegments hhead hq isQuery haliases, hfolded,
      fileUnder?_of_isFile hfound]
    refine ⟨Option.filter_some_pos (isSome_below?_iff.2 ?_), beq_iff_eq.2 hgcomponents⟩
    rw [hgcomponents, hg]
    exact List.prefix_append ..

/-- A tree with files in two directories below one. -/
def siblingDirs : Memory :=
  Memory.ofEntries [(⟨"/r/app/lib/a.ts"⟩, ""), (⟨"/r/app/ui/b.css"⟩, "")] []

/-- From one directory to the other, with a slash, a dot, a name that is taken back and a query. -/
theorem resolve?_relative_siblingDirs :
    isAbsolute ⟨"/r"⟩ = true ∧ Component.parent ∉ components ⟨"/r"⟩ ∧
      components ⟨"/r/app/lib/a.ts"⟩ =
        components ⟨"/r"⟩ ++ (["app"] ++ ["lib"] ++ ["a.ts"]).map .name ∧
      components ⟨"/r/app/ui/b.css"⟩ = components ⟨"/r"⟩ ++ (["app"] ++ ["ui", "b.css"]).map .name ∧
      (∀ name ∈ ["ui", "b.css"], isUnmarked name = true) ∧
      siblingDirs.isFile ⟨"/r/app/ui/b.css"⟩ = true ∧
      IsRelativeSpecifier ["lib"].length ["ui", "b.css"] "..//./x/../ui/b.css?inline" ∧
      BeginsWithNone ["~/", "@/"] "..//./x/../ui/b.css?inline".toList ∧
      resolve? siblingDirs.fileSystem ⟨"/r"⟩ ["~/", "@/"] ⟨"/r/app/lib/a.ts"⟩
        "..//./x/../ui/b.css?inline" = some (folded ⟨"/r/app/ui/b.css"⟩) ∧
      (folded ⟨"/r/app/ui/b.css"⟩).equals ⟨"/r/app/ui/b.css"⟩ = true := by
  have hf : components ⟨"/r/app/lib/a.ts"⟩ =
      components ⟨"/r"⟩ ++ (["app"] ++ ["lib"] ++ ["a.ts"]).map .name := by decide
  have hg : components ⟨"/r/app/ui/b.css"⟩ =
      components ⟨"/r"⟩ ++ (["app"] ++ ["ui", "b.css"]).map .name := by decide
  have hfile : siblingDirs.isFile ⟨"/r/app/ui/b.css"⟩ = true := by decide +kernel
  have hback : IsDetour ["x", ".."] := .back ⟨by decide, by decide⟩ (by decide)
  have hname : HasDetours (laterSegments 1 ["ui", "b.css"])
      ([] ++ (["x", ".."] ++ ["ui", "b.css"])) := .insert hback .plain
  have hdot : HasDetours (laterSegments 1 ["ui", "b.css"])
      ([] ++ (["."] ++ ["x", "..", "ui", "b.css"])) := .insert .dot hname
  have hslash : HasDetours (laterSegments 1 ["ui", "b.css"])
      ([] ++ ([""] ++ [".", "x", "..", "ui", "b.css"])) := .insert .slash hdot
  have hquery : ∀ c ∈ "?inline".toList.head?, IsMark c := by simp [IsMark]
  have hspecifier : IsRelativeSpecifier 1 ["ui", "b.css"] "..//./x/../ui/b.css?inline" :=
    .intro hslash hquery
  exact ⟨by decide, by decide, hf, hg, by decide, hfile, hspecifier, by decide,
    resolve?_relative (by decide) (by decide) hf hg (by decide) hfile hspecifier (by decide)⟩

end RefGraph
