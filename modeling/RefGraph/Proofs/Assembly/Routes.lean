import RefGraph.Assembly
import RefGraph.Proofs.Glob.Nested
import RefGraph.Proofs.Path.Extension
import RefGraph.Proofs.Walk.Names

/-!
# Routes

By default two globs say which files are routes: scripts in a directory that is called `routes`, and
those in one that is called `pages` if their names begin with `_`. A star does not go over a slash,
so that only the directory counts in which the file lies, whatever those above are called.

* `Glob.filesIn`: globs of files in directories of one name.
* `Glob.matchesText_filesIn_iff`: what such a glob matches, read off the path.
* `Glob.matchesText_filesIn_names_iff`: the same, read off the names along the path.
* `IsRoutePlace`: where the routes lie.
* `nodeKind_default`: the kinds of nodes without options.
-/

namespace RefGraph.Glob

/-! ## Parts of globs -/

variable {xs ys : List UInt8}

/-- A star matches any bytes without a slash. -/
theorem mem_restsOfStar_iff : ys ∈ restsOfStar xs ↔ ∃ bs, slash ∉ bs ∧ xs = bs ++ ys := by
  induction xs with
  | nil =>
    rw [restsOfStar, List.mem_singleton]
    constructor
    · rintro rfl
      exact ⟨[], List.not_mem_nil, rfl⟩
    · rintro ⟨bs, -, h⟩
      exact (List.append_eq_nil_iff.1 h.symm).2
  | cons x xs ih =>
    -- Either the star stops here, or it takes one byte that is no slash.
    have hcons : (∃ bs, slash ∉ bs ∧ x :: xs = bs ++ ys) ↔
        ys = x :: xs ∨ x ≠ slash ∧ ∃ bs, slash ∉ bs ∧ xs = bs ++ ys := by
      constructor
      · rintro ⟨_ | ⟨b, bs⟩, hbs, h⟩
        · exact .inl h.symm
        · obtain ⟨rfl, rfl⟩ := List.cons.inj h
          exact .inr ⟨(List.ne_of_not_mem_cons hbs).symm, bs, List.not_mem_of_not_mem_cons hbs, rfl⟩
      · rintro (rfl | ⟨hx, bs, hbs, rfl⟩)
        · exact ⟨[], List.not_mem_nil, rfl⟩
        · exact ⟨x :: bs, List.not_mem_cons_of_ne_of_not_mem hx.symm hbs, rfl⟩
    rw [hcons, restsOfStar]
    split
    · rename_i hx
      simp [hx]
    · rename_i hx
      rw [List.mem_cons, ih]
      simp [hx]

/-- Directories at the start are left out, or stand for all before some slash. -/
theorem mem_rests_leadingDirs_iff :
    ys ∈ Token.leadingDirs.rests xs ↔ xs = ys ∨ ∃ bs, xs = bs ++ slash :: ys := by
  rw [Token.rests, List.mem_cons, eq_comm]
  refine or_congr_right ?_
  induction xs with
  | nil => simp [restsBehindSlash]
  | cons x xs ih =>
    have hcons : (∃ bs, x :: xs = bs ++ slash :: ys) ↔
        (x = slash ∧ ys = xs) ∨ ∃ bs, xs = bs ++ slash :: ys := by
      constructor
      · rintro ⟨_ | ⟨b, bs⟩, h⟩
        · obtain ⟨rfl, rfl⟩ := List.cons.inj h
          exact .inl ⟨rfl, rfl⟩
        · exact .inr ⟨bs, (List.cons.inj h).2⟩
      · rintro (⟨rfl, rfl⟩ | ⟨bs, rfl⟩)
        · exact ⟨[], rfl⟩
        · exact ⟨x :: bs, rfl⟩
    rw [hcons, restsBehindSlash]
    split
    · rename_i hx
      rw [List.mem_cons, ih]
      simp [hx]
    · rename_i hx
      rw [ih]
      simp [hx]

theorem mem_restsOfTokens_singleton_iff {t : Token} :
    ys ∈ restsOfTokens [t] xs ↔ ys ∈ t.rests xs := by
  simp [restsOfTokens]

/-- Of several texts one is taken off. -/
theorem mem_restsOfChoices_literals_iff {choices : List (List Char)} (h : [] ∉ choices) :
    ys ∈ restsOfChoices (choices.map literals) xs ↔
      ∃ cs ∈ choices, xs = Utf8.encode cs ++ ys := by
  induction choices with
  | nil => simp [restsOfChoices]
  | cons cs choices ih =>
    obtain ⟨hcs, hchoices⟩ := List.ne_and_not_mem_of_not_mem_cons h
    have hvoid : tokensAreVoid (literals cs) = false := by
      cases cs with
      | nil => exact absurd rfl hcs
      | cons c cs => rfl
    have hone : ys ∈ restsOfTokens (literals cs) xs ↔ xs = Utf8.encode cs ++ ys := by
      rw [← List.append_nil (literals cs), mem_restsOfTokens_append_iff]
      simp [restsOfTokens]
    rw [List.map_cons, restsOfChoices, hvoid, if_neg Bool.false_ne_true, List.mem_append, hone,
      ih hchoices, List.exists_mem_cons_iff]

/-! ## Names with slashes between them -/

/-- Names are put behind other ones with a slash, if there are others. -/
theorem toList_intercalate_append (dirs : List String) {names : List String} (h : names ≠ []) :
    ("/".intercalate (dirs ++ names)).toList = ("/".intercalate names).toList ∨
      ∃ before, ("/".intercalate (dirs ++ names)).toList =
        before ++ '/' :: ("/".intercalate names).toList := by
  by_cases hdirs : dirs = []
  · exact .inl (by rw [hdirs]; rfl)
  · refine .inr ⟨("/".intercalate dirs).toList, ?_⟩
    rw [String.intercalate_append_of_ne_nil hdirs h]
    simp

theorem splitAtChar_names {names : List String} (hne : names ≠ [])
    (h : ∀ name ∈ names, '/' ∉ name.toList) :
    splitAtChar '/' ("/".intercalate names).toList = names.map String.toList := by
  rw [String.toList_intercalate]
  refine Path.splitAtChar_intercalate (by simpa using hne) fun part hpart => ?_
  obtain ⟨name, hname, rfl⟩ := List.mem_map.1 hpart
  exact h name hname

/-- Names end with a directory and a file, at their beginning or behind a slash, if these are the
last two of them. -/
theorem ends_intercalate_iff {dirs : List String} {name : String} {dir file : List Char}
    (hdirs : ∀ d ∈ dirs, '/' ∉ d.toList) (hname : '/' ∉ name.toList) (hdir : '/' ∉ dir)
    (hfile : '/' ∉ file) :
    (("/".intercalate (dirs ++ [name])).toList = dir ++ '/' :: file ∨
        ∃ before, ("/".intercalate (dirs ++ [name])).toList =
          before ++ '/' :: (dir ++ '/' :: file)) ↔
      dirs.getLast? = some (String.ofList dir) ∧ name.toList = file := by
  constructor
  · intro hends
    -- The names are split at slashes, so that they are compared name by name.
    have hsplit : splitAtChar '/' ("/".intercalate (dirs ++ [name])).toList =
        (dirs ++ [name]).map String.toList :=
      splitAtChar_names (by simp) (List.forall_mem_append.2 ⟨hdirs, by simpa using hname⟩)
    have hend : splitAtChar '/' (dir ++ '/' :: file) = [dir, file] := by
      rw [splitAtChar_append, splitAtChar_eq_singleton hdir, splitAtChar_eq_singleton hfile]
      rfl
    obtain ⟨parts, hparts⟩ : ∃ parts, (dirs ++ [name]).map String.toList =
        (parts ++ [dir]) ++ [file] := by
      rw [← hsplit]
      rcases hends with hends | ⟨before, hends⟩
      · exact ⟨[], by rw [hends, hend]; rfl⟩
      · refine ⟨splitAtChar '/' before, ?_⟩
        rw [hends, splitAtChar_append, hend, List.append_assoc]
        rfl
    rw [List.map_append, List.map_singleton] at hparts
    obtain ⟨hbefore, hlast⟩ := List.append_inj' hparts rfl
    refine ⟨?_, List.singleton_inj.1 hlast⟩
    have hdirs' := congrArg List.getLast? hbefore
    rw [List.getLast?_map, List.getLast?_concat, Option.map_eq_some_iff] at hdirs'
    obtain ⟨d, hd, rfl⟩ := hdirs'
    rw [hd, String.ofList_toList]
  · rintro ⟨hlast, rfl⟩
    obtain ⟨before, rfl⟩ := List.getLast?_eq_some_iff.1 hlast
    have htail : ("/".intercalate [String.ofList dir, name]).toList =
        dir ++ '/' :: name.toList := by
      rw [String.intercalate_cons_cons, String.intercalate_singleton, String.toList_append,
        String.toList_append, String.toList_ofList]
      simp
    have hpath := toList_intercalate_append before (List.cons_ne_nil (String.ofList dir) [name])
    rw [List.append_assoc, List.singleton_append]
    rwa [htail] at hpath

/-! ## Files in a directory -/

/-- The glob of files in directories of one name. Their own names may have to begin with a
character, and have one of several extensions. -/
def filesIn (dir : List Char) (first : Option Char) (extensions : List (List Char)) : Glob :=
  ⟨.leadingDirs :: (literals (dir ++ '/' :: first.toList) ++
    [.star, .literal '.', .alternatives (extensions.map literals)])⟩

section

variable {dir : List Char} {first : Option Char} {extensions : List (List Char)} {p : String}
  (hextensions : [] ∉ extensions) (hne : extensions ≠ [])

include hextensions hne

/-- An extension behind its dot is one of those that are listed. -/
theorem nil_mem_extensions_iff {ys : List UInt8} :
    [] ∈ restsOfTokens (literals ['.'] ++ [.alternatives (extensions.map literals)]) ys ↔
      ∃ ext ∈ extensions, ys = Utf8.encode ('.' :: ext) := by
  have hvoid : choicesAreVoid (extensions.map literals) = false := by
    obtain ⟨ext, rest, rfl⟩ := List.exists_cons_of_ne_nil hne
    cases ext with
    | nil => exact absurd List.mem_cons_self hextensions
    | cons c cs => rfl
  simp only [mem_restsOfTokens_append_iff, mem_restsOfTokens_singleton_iff, Token.rests, hvoid,
    Bool.false_eq_true, if_false, mem_restsOfChoices_literals_iff hextensions, List.append_nil]
  constructor
  · rintro ⟨-, rfl, ext, hext, rfl⟩
    exact ⟨ext, hext, (Utf8.encode_append ['.'] ext).symm⟩
  · rintro ⟨ext, hext, rfl⟩
    exact ⟨_, Utf8.encode_append ['.'] ext, ext, hext, rfl⟩

/-- A star leaves an extension of a name in one directory. -/
theorem nil_mem_star_extensions_iff {ys : List UInt8} :
    [] ∈ restsOfTokens
        (.star :: (literals ['.'] ++ [.alternatives (extensions.map literals)])) ys ↔
      ∃ stem, ∃ ext ∈ extensions, slash ∉ stem ∧ ys = stem ++ Utf8.encode ('.' :: ext) := by
  rw [mem_restsOfTokens_cons_iff]
  constructor
  · rintro ⟨zs, hzs, h⟩
    obtain ⟨stem, hstem, rfl⟩ := mem_restsOfStar_iff.1 hzs
    obtain ⟨ext, hext, rfl⟩ := (nil_mem_extensions_iff hextensions hne).1 h
    exact ⟨stem, ext, hext, hstem, rfl⟩
  · rintro ⟨stem, ext, hext, hstem, rfl⟩
    exact ⟨_, mem_restsOfStar_iff.2 ⟨stem, hstem, rfl⟩,
      (nil_mem_extensions_iff hextensions hne).2 ⟨ext, hext, rfl⟩⟩

/-- Such a glob matches bytes that end with a directory, a name and an extension. -/
theorem nil_mem_filesIn_iff : [] ∈ restsOfTokens (filesIn dir first extensions).tokens xs ↔
    ∃ ys, (xs = ys ∨ ∃ bs, xs = bs ++ slash :: ys) ∧ ∃ stem, ∃ ext ∈ extensions, slash ∉ stem ∧
      ys = Utf8.encode (dir ++ '/' :: first.toList) ++ (stem ++ Utf8.encode ('.' :: ext)) := by
  rw [filesIn, mem_restsOfTokens_cons_iff]
  constructor
  · rintro ⟨ys, hys, h⟩
    obtain ⟨zs, rfl, hzs⟩ := mem_restsOfTokens_append_iff.1 h
    obtain ⟨stem, ext, hext, hstem, rfl⟩ := (nil_mem_star_extensions_iff hextensions hne).1 hzs
    exact ⟨_, mem_rests_leadingDirs_iff.1 hys, stem, ext, hext, hstem, rfl⟩
  · rintro ⟨-, hys, stem, ext, hext, hstem, rfl⟩
    exact ⟨_, mem_rests_leadingDirs_iff.2 hys, mem_restsOfTokens_append_iff.2
      ⟨_, rfl, (nil_mem_star_extensions_iff hextensions hne).2 ⟨stem, ext, hext, hstem, rfl⟩⟩⟩

/-- **What such a glob matches**: a text that ends with the directory, a slash and a name with one
of the extensions, at its beginning or behind a slash. -/
theorem matchesText_filesIn_iff : (filesIn dir first extensions).matchesText p = true ↔
    ∃ cs, (p.toList = cs ∨ ∃ before, p.toList = before ++ '/' :: cs) ∧
      ∃ stem, ∃ ext ∈ extensions, '/' ∉ stem ∧
        cs = dir ++ '/' :: first.toList ++ (stem ++ '.' :: ext) := by
  have htokens : (filesIn dir first extensions).tokens ≠ [.leadingDirs] := by
    rw [filesIn]
    simp
  rw [matchesText_iff htokens, nil_mem_filesIn_iff hextensions hne, toList_toUTF8, ← Utf8.encode_eq]
  constructor
  · rintro ⟨-, hys, stem, ext, hext, hstem, rfl⟩
    -- The text is split where its bytes are: before a slash at which the match begins...
    obtain ⟨cs, hcs, hencode⟩ : ∃ cs, (p.toList = cs ∨ ∃ before, p.toList = before ++ '/' :: cs) ∧
        Utf8.encode cs = Utf8.encode (dir ++ '/' :: first.toList) ++
          (stem ++ Utf8.encode ('.' :: ext)) := by
      rcases hys with hys | ⟨bs, hys⟩
      · exact ⟨p.toList, .inl rfl, hys⟩
      · obtain ⟨before, cs, hp, -, hcs⟩ := Utf8.exists_of_encode_eq (b := slash) (by decide) hys
        exact ⟨cs, .inr ⟨before, hp⟩, hcs⟩
    refine ⟨cs, hcs, ?_⟩
    -- ... behind the directory and at the dot.
    obtain ⟨rest, rfl⟩ := Utf8.isPrefix_of_encode_append hencode.symm
    rw [Utf8.encode_append, List.append_cancel_left_eq] at hencode
    have hdot : Utf8.encode ('.' :: ext) = 46 :: Utf8.encode ext := Utf8.encode_cons '.' ext
    rw [hdot] at hencode
    obtain ⟨stem', ext', rfl, rfl, hext'⟩ := Utf8.exists_of_encode_eq (by decide) hencode
    obtain rfl := Utf8.encode_inj hext'
    exact ⟨stem', ext', hext, mt Utf8.slash_mem_encode_iff.2 hstem, rfl⟩
  · rintro ⟨-, hcs, stem, ext, hext, hstem, rfl⟩
    refine ⟨Utf8.encode (dir ++ '/' :: first.toList ++ (stem ++ '.' :: ext)), ?_, Utf8.encode stem,
      ext, hext, mt Utf8.slash_mem_encode_iff.1 hstem, ?_⟩
    · refine hcs.imp (fun h => by rw [h]) ?_
      rintro ⟨before, h⟩
      exact ⟨Utf8.encode before, by rw [h, Utf8.encode_append, Utf8.encode_cons]; rfl⟩
    · rw [Utf8.encode_append, Utf8.encode_append stem]

/-! ## Names along the path -/

variable {dirs : List String} {name : String}

/-- **What such a glob says of a path of names**: it looks at the last of the directories and at the
name of the file. -/
theorem matchesText_filesIn_names_iff (hdir : '/' ∉ dir) (hfirst : '/' ∉ first.toList)
    (hslash : ∀ ext ∈ extensions, '/' ∉ ext) (hdirs : ∀ d ∈ dirs, '/' ∉ d.toList)
    (hname : '/' ∉ name.toList) :
    (filesIn dir first extensions).matchesText ("/".intercalate (dirs ++ [name])) = true ↔
      dirs.getLast? = some (String.ofList dir) ∧
        ∃ stem, ∃ ext ∈ extensions, name.toList = first.toList ++ (stem ++ '.' :: ext) := by
  rw [matchesText_filesIn_iff hextensions hne]
  constructor
  · rintro ⟨-, hcs, stem, ext, hext, hstem, rfl⟩
    have hfile : '/' ∉ first.toList ++ (stem ++ '.' :: ext) := by
      simp [hfirst, hstem, hslash ext hext]
    rw [List.append_assoc, List.cons_append] at hcs
    obtain ⟨hlast, hname'⟩ := (ends_intercalate_iff hdirs hname hdir hfile).1 hcs
    exact ⟨hlast, stem, ext, hext, hname'⟩
  · rintro ⟨hlast, stem, ext, hext, hname'⟩
    have hfile : '/' ∉ first.toList ++ (stem ++ '.' :: ext) := hname' ▸ hname
    have hends := (ends_intercalate_iff hdirs hname hdir hfile).2 ⟨hlast, hname'⟩
    rw [← List.cons_append, ← List.append_assoc] at hends
    exact ⟨_, hends, stem, ext, hext, fun hmem => hfile (by simp [hmem]), rfl⟩

end

end RefGraph.Glob

namespace RefGraph

open RefGraph.Glob

/-! ## Extensions -/

/-- The extension of a path of names is that of the last one. -/
theorem extension?_names {dirs : List String} {name : String}
    (h : ∀ n ∈ dirs ++ [name], Path.IsPlainName n) :
    Path.extension? ⟨"/".intercalate (dirs ++ [name])⟩ = Path.extensionOfName? name := by
  have htext : "/".intercalate (dirs ++ [name]) = pathAlong (dirs ++ [name]) := by
    rw [pathAlong_eq_textOf fun n hn => (h n hn).isFileName, Path.textOf, List.map_map]
    exact congrArg _ (List.map_id _).symm
  have hlast :
      (Path.components ⟨"/".intercalate (dirs ++ [name])⟩).getLast? = some (.name name) := by
    rw [htext, components_pathAlong h, List.map_append, List.map_singleton, List.getLast?_concat]
  rw [Path.extension?, Path.fileName?, hlast, Option.bind_some]

/-- A name with an extension ends with one of several if it is among them. A character at its
beginning is not in the way, since something stands before the dot. -/
theorem exists_stem_iff {name ext : String} {first : Option Char} {extensions : List (List Char)}
    (hext : Path.extensionOfName? name = some ext) (hdot : ∀ e ∈ extensions, '.' ∉ e) :
    (∃ stem, ∃ e ∈ extensions, name.toList = first.toList ++ (stem ++ '.' :: e)) ↔
      ext.toList ∈ extensions ∧ ∀ c ∈ first, name.toList.head? = some c := by
  obtain ⟨stem, hstem, hnodot, hname⟩ := Path.extensionOfName?_eq_some_iff.1 hext
  constructor
  · rintro ⟨stem', e, he, heq⟩
    have hcut : first.toList ++ stem' ++ '.' :: e = stem ++ '.' :: ext.toList := by
      rw [← hname, heq, List.append_assoc]
    obtain ⟨-, rfl⟩ := append_cons_inj_of_notMem_right (hdot e he) hnodot hcut
    refine ⟨he, ?_⟩
    rintro c ⟨⟩
    rw [heq]
    rfl
  · rintro ⟨hmem, hfirst⟩
    cases first with
    | none => exact ⟨stem, ext.toList, hmem, hname⟩
    | some c =>
      obtain ⟨d, stem, rfl⟩ := List.exists_cons_of_ne_nil hstem
      obtain rfl : d = c := by
        have hhead := hfirst c rfl
        rw [hname] at hhead
        exact Option.some.inj hhead
      exact ⟨stem, ext.toList, hmem, hname⟩

/-! ## Routes -/

/-- The extensions in the globs that are there by default. -/
def routeExtensions : List String := ["js", "jsx", "ts", "tsx", "mjs", "cjs"]

/-- The extensions of routes are those of scripts. -/
theorem mem_routeExtensions_iff {ext : String} :
    ext ∈ routeExtensions ↔ ext ∈ scriptExtensions := by
  simp only [routeExtensions, scriptExtensions, List.mem_cons, List.not_mem_nil, or_false]
  tauto

theorem routes_default : (AssemblyRules.ofOptions {}).routes =
    [filesIn "routes".toList none (routeExtensions.map String.toList),
      filesIn "pages".toList (some '_') (routeExtensions.map String.toList)] := rfl

/-- Where routes lie by default: in a directory that is called `routes`, or in one that is called
`pages` if the name begins with `_`. -/
def IsRoutePlace (dirs : List String) (name : String) : Prop :=
  dirs.getLast? = some "routes" ∨ dirs.getLast? = some "pages" ∧ name.toList.head? = some '_'

instance (dirs : List String) (name : String) : Decidable (IsRoutePlace dirs name) :=
  inferInstanceAs (Decidable (_ ∨ _))

variable {dirs : List String} {name : String}

/-- The globs that are there by default match the scripts that lie there. -/
theorem any_matchesText_default (h : ∀ n ∈ dirs ++ [name], Path.IsPlainName n) {ext : String}
    (hext : Path.extensionOfName? name = some ext) :
    ((AssemblyRules.ofOptions {}).routes.any fun g =>
        g.matchesText ("/".intercalate (dirs ++ [name]))) = true ↔
      ext ∈ scriptExtensions ∧ IsRoutePlace dirs name := by
  obtain ⟨hdirs, hname⟩ := List.forall_mem_append.1 h
  have hone (dir : String) (first : Option Char) (hdir : '/' ∉ dir.toList)
      (hfirst : '/' ∉ first.toList) :
      (filesIn dir.toList first (routeExtensions.map String.toList)).matchesText
          ("/".intercalate (dirs ++ [name])) = true ↔
        dirs.getLast? = some dir ∧ ext ∈ scriptExtensions ∧
          ∀ c ∈ first, name.toList.head? = some c := by
    have hmem : ext.toList ∈ routeExtensions.map String.toList ↔ ext ∈ scriptExtensions := by
      rw [← mem_routeExtensions_iff, List.mem_map]
      exact ⟨fun ⟨e, he, heq⟩ => String.toList_inj.1 heq ▸ he, fun he => ⟨ext, he, rfl⟩⟩
    rw [matchesText_filesIn_names_iff (by decide) (by decide) hdir hfirst (by decide)
      (fun d hd => (hdirs d hd).slash) (hname name (by simp)).slash,
      exists_stem_iff hext (by decide), hmem, String.ofList_toList]
  rw [routes_default, List.any_cons, List.any_cons, List.any_nil, Bool.or_false, Bool.or_eq_true,
    hone "routes" none (by decide) (by decide), hone "pages" (some '_') (by decide) (by decide),
    IsRoutePlace]
  simp
  tauto

/-- **The kinds of nodes without options.** Of the files that can be analysed, scripts are routes
exactly if they lie in a directory called `routes`, or in one called `pages` and their names begin
with `_`. All others are stylesheets or code by their extension, wherever they lie. -/
theorem nodeKind_default (h : ∀ n ∈ dirs ++ [name], Path.IsPlainName n)
    (hkind : (SourceKind.ofPath? ⟨"/".intercalate (dirs ++ [name])⟩).isSome = true) :
    nodeKind (AssemblyRules.ofOptions {}).routes ("/".intercalate (dirs ++ [name])) =
      if SourceKind.ofPath? ⟨"/".intercalate (dirs ++ [name])⟩ = some .script ∧
          IsRoutePlace dirs name then .route
      else if SourceKind.ofPath? ⟨"/".intercalate (dirs ++ [name])⟩ = some .style then .style
      else .code := by
  have hextension := extension?_names h
  cases hext : Path.extensionOfName? name with
  | none =>
    rw [hext] at hextension
    simp [SourceKind.ofPath?, hextension] at hkind
  | some ext =>
    have hscript : SourceKind.ofPath? ⟨"/".intercalate (dirs ++ [name])⟩ = some .script ↔
        ext ∈ scriptExtensions := by
      simp only [SourceKind.ofPath?, hextension, hext]
      split
      · simp [*]
      · split <;> simp [*]
    rw [nodeKind]
    simp only [any_matchesText_default h hext, hscript]

/-- The directories above do not matter, and neither do further dots. -/
theorem nodeKind_default_pages :
    (∀ n ∈ ["app", "routes", "pages"] ++ ["_a.b.tsx"], Path.IsPlainName n) ∧
      (SourceKind.ofPath? ⟨"/".intercalate (["app", "routes", "pages"] ++ ["_a.b.tsx"])⟩).isSome =
        true ∧
      nodeKind (AssemblyRules.ofOptions {}).routes
        ("/".intercalate (["app", "routes", "pages"] ++ ["_a.b.tsx"])) = .route := by
  have h : ∀ n ∈ ["app", "routes", "pages"] ++ ["_a.b.tsx"], Path.IsPlainName n := by decide
  have hkind : SourceKind.ofPath? ⟨"/".intercalate (["app", "routes", "pages"] ++ ["_a.b.tsx"])⟩ =
      some .script := by decide
  have hplace : IsRoutePlace ["app", "routes", "pages"] "_a.b.tsx" := by decide
  have hsome := congrArg Option.isSome hkind
  exact ⟨h, hsome, (nodeKind_default h hsome).trans (if_pos ⟨hkind, hplace⟩)⟩

end RefGraph
