import RefGraph.Proofs.Glob.Reading

/-!
# Globs below a directory

A pattern that is written behind a literal text and a slash says of the paths below what it says of
the paths from there on. At its beginning `**` stands for a slash as well as for what follows it.
Only a pattern of nothing but `**/` is read in another way: alone it matches every path, and behind
a slash it matches none but what ends in a slash.

* `Glob.SameBelow`: two globs say the same, one of what lies below a directory.
* `Glob.sameBelow_literals`, `Glob.sameBelow_dirs`: globs that begin alike behind the directory.
* `Glob.rel_parse?_below`: a pattern and the same pattern behind a directory.
* `Glob.parse?_bareDirs`, `Glob.matchesText_dirs_eq_false`: patterns of nothing but `**/`.
-/

namespace RefGraph.Glob

/-! ## Matching below a directory -/

/-- Two globs say the same: the first of the paths below a directory, the second of the paths from
there on. -/
def SameBelow (dir : String) (g' g : Glob) : Prop :=
  ∀ p : String, g'.matchesText (dir ++ "/" ++ p) = g.matchesText p

/-- All globs but one are matched token by token. -/
theorem matchesText_iff {g : Glob} (h : g.tokens ≠ [.leadingDirs]) {p : String} :
    g.matchesText p = true ↔ [] ∈ restsOfTokens g.tokens p.toUTF8.toList := by
  rw [matchesText, matchesBytes]
  split
  · rename_i htokens
    exact absurd htokens h
  · exact List.contains_iff_mem

/-- Literal tokens take their text off a path. -/
theorem mem_restsOfTokens_literals_iff (cs : List Char) {ts : List Token} {xs rest : List UInt8} :
    rest ∈ restsOfTokens (literals cs ++ ts) (Utf8.encode cs ++ xs) ↔
      rest ∈ restsOfTokens ts xs := by
  induction cs with
  | nil => rw [Utf8.encode_eq, List.flatMap_nil]; rfl
  | cons c cs ih =>
    have hbytes : Utf8.encode (c :: cs) ++ xs = bytesOf c ++ (Utf8.encode cs ++ xs) := by
      rw [bytesOf_eq, Utf8.encode_eq, Utf8.encode_eq, List.flatMap_cons, List.append_assoc]
    have hrests : ∀ ys, ys ∈ (Token.literal c).rests (Utf8.encode (c :: cs) ++ xs) ↔
        ys = Utf8.encode cs ++ xs := by
      intro ys
      rw [Token.rests, mem_restBehind_iff, hbytes, List.append_cancel_left_eq, eq_comm]
    rw [literals, List.map_cons, List.cons_append, mem_restsOfTokens_cons_iff]
    constructor
    · rintro ⟨ys, hys, hrest⟩
      rw [(hrests ys).1 hys] at hrest
      exact ih.1 hrest
    · exact fun hrest => ⟨_, (hrests _).2 rfl, ih.2 hrest⟩

/-- What is left behind literal tokens is left of what follows their text. -/
theorem mem_restsOfTokens_append_iff {cs : List Char} {ts : List Token} {xs rest : List UInt8} :
    rest ∈ restsOfTokens (literals cs ++ ts) xs ↔
      ∃ ys, xs = Utf8.encode cs ++ ys ∧ rest ∈ restsOfTokens ts ys := by
  refine ⟨exists_of_mem_restsOfTokens_literals, ?_⟩
  rintro ⟨ys, rfl, hrest⟩
  exact (mem_restsOfTokens_literals_iff cs).2 hrest

/-- A literal text matches itself and nothing else. -/
theorem nil_mem_literals_iff {cs : List Char} {xs : List UInt8} :
    [] ∈ restsOfTokens (literals cs) xs ↔ xs = Utf8.encode cs := by
  rw [← List.append_nil (literals cs), mem_restsOfTokens_append_iff]
  simp [restsOfTokens]

/-- The bytes of a path below a directory are those of the directory, a slash, and those of the
path. -/
theorem toUTF8_below (dir p : String) :
    (dir ++ "/" ++ p).toUTF8.toList = Utf8.encode dir.toList ++ slash :: p.toUTF8.toList := by
  simp only [toList_toUTF8, Utf8.encode_eq, String.toList_append, List.flatMap_append,
    List.append_assoc]
  rfl

variable {dir : String} {ts : List Token}

/-- A glob that begins with a directory is matched token by token, and the directory comes off. -/
theorem matchesText_below_iff {t : Token} (ht : t ≠ .leadingDirs) {p : String} :
    (⟨literals dir.toList ++ t :: ts⟩ : Glob).matchesText (dir ++ "/" ++ p) = true ↔
      [] ∈ restsOfTokens (t :: ts) (slash :: p.toUTF8.toList) := by
  have hne : literals dir.toList ++ t :: ts ≠ [.leadingDirs] := by
    cases dir.toList with
    | nil => exact fun he => ht (List.cons.inj he).1
    | cons c cs => exact fun he => Token.noConfusion (List.cons.inj he).1
  rw [matchesText_iff hne, toUTF8_below, mem_restsOfTokens_literals_iff]

/-- A slash in front of a glob takes a slash off. -/
theorem sameBelow_literals (dir : String) (h : ts ≠ [.leadingDirs]) :
    SameBelow dir ⟨literals dir.toList ++ .literal '/' :: ts⟩ ⟨ts⟩ := by
  intro p
  rw [Bool.eq_iff_iff, matchesText_below_iff Token.noConfusion, matchesText_iff h]
  have hslash : Utf8.encode ['/'] ++ p.toUTF8.toList = slash :: p.toUTF8.toList := by
    rw [Utf8.encode_eq, List.flatMap_singleton]
    rfl
  rw [← hslash]
  exact mem_restsOfTokens_literals_iff ['/']

/-- Directories behind a slash take that slash off, and then what directories at the start do. -/
theorem sameBelow_dirs (dir : String) (h : ts ≠ []) :
    SameBelow dir ⟨literals dir.toList ++ .innerDirs :: ts⟩ ⟨.leadingDirs :: ts⟩ := by
  intro p
  have hne : Token.leadingDirs :: ts ≠ [.leadingDirs] := by simpa using h
  rw [Bool.eq_iff_iff, matchesText_below_iff Token.noConfusion, matchesText_iff hne]
  simp only [mem_restsOfTokens_cons_iff, Token.rests, if_true]

/-- Some end of a path behind slashes has no slash. -/
theorem exists_nil_mem_restsOfStar (xs : List UInt8) :
    ∃ ys ∈ xs :: restsBehindSlash xs, [] ∈ restsOfStar ys := by
  induction xs with
  | nil => exact ⟨[], List.mem_cons_self, List.mem_cons_self⟩
  | cons x xs ih =>
    obtain ⟨ys, hys, hstar⟩ := ih
    rw [restsBehindSlash]
    by_cases hx : x = slash
    · rw [if_pos hx]
      exact ⟨ys, List.mem_cons_of_mem _ hys, hstar⟩
    · rw [if_neg hx]
      rcases List.mem_cons.1 hys with rfl | hys
      · refine ⟨x :: ys, List.mem_cons_self, ?_⟩
        rw [restsOfStar, if_neg hx]
        exact List.mem_cons_of_mem _ hstar
      · exact ⟨ys, List.mem_cons_of_mem _ hys, hstar⟩

/-- Anything in a directory is what the glob `**` matches: all. -/
theorem sameBelow_any (dir : String) :
    SameBelow dir ⟨literals dir.toList ++ [.innerDirs, .star]⟩ ⟨[.leadingDirs]⟩ := by
  intro p
  rw [show (⟨[.leadingDirs]⟩ : Glob).matchesText p = true from rfl,
    matchesText_below_iff Token.noConfusion]
  obtain ⟨ys, hys, hstar⟩ := exists_nil_mem_restsOfStar p.toUTF8.toList
  refine mem_restsOfTokens_cons_iff.2 ⟨ys, ?_, mem_restsOfTokens_cons_iff.2 ⟨[], hstar, ?_⟩⟩
  · rw [Token.rests, if_pos rfl]
    exact hys
  · exact List.mem_cons_self

/-- What is left behind any directories of a text that ends behind a slash is left of that end, if
it has no slash itself. -/
theorem mem_leadingDirs_append_iff {as xs ys : List UInt8} (hys : slash ∉ ys) :
    ys ∈ Token.leadingDirs.rests (as ++ slash :: xs) ↔ ys ∈ Token.leadingDirs.rests xs := by
  have hne (bs : List UInt8) : ys ≠ bs ++ slash :: xs := by
    rintro rfl
    exact hys (List.mem_append_right _ List.mem_cons_self)
  simp only [Token.rests]
  induction as with
  | nil =>
    rw [List.mem_cons, or_iff_right (hne []), List.nil_append, restsBehindSlash, if_pos rfl]
  | cons a as ih =>
    rw [List.mem_cons, or_iff_right (hne (a :: as)), List.cons_append, restsBehindSlash]
    split
    · exact ih
    · rwa [List.mem_cons, or_iff_right (hne as)] at ih

/-- A name that may lie in any directory lies in some below a directory, or in none. -/
theorem sameBelow_name {name : List Char} (hne : name ≠ []) (hslash : '/' ∉ name) :
    SameBelow dir ⟨.leadingDirs :: literals name⟩ ⟨.leadingDirs :: literals name⟩ := by
  have htokens : Token.leadingDirs :: literals name ≠ [.leadingDirs] := by
    simpa [literals] using hne
  intro p
  rw [Bool.eq_iff_iff, matchesText_iff htokens, matchesText_iff htokens]
  simp only [mem_restsOfTokens_cons_iff, nil_mem_literals_iff, toUTF8_below, exists_eq_right,
    mem_leadingDirs_append_iff (mt Utf8.slash_mem_encode_iff.1 hslash)]

theorem getLast?_eq_of_nil_mem_restsBehindSlash {xs : List UInt8} (h : [] ∈ restsBehindSlash xs) :
    xs.getLast? = some slash := by
  induction xs with
  | nil => cases h
  | cons x xs ih =>
    rw [restsBehindSlash] at h
    have htail (hxs : [] ∈ restsBehindSlash xs) : (x :: xs).getLast? = some slash := by
      rw [List.getLast?_cons, ih hxs]
      rfl
    split at h
    · rename_i hx
      rcases List.mem_cons.1 h with rfl | h
      · rw [hx]
        rfl
      · exact htail h
    · exact htail h

/-- Directories behind a directory match only what ends with a slash. -/
theorem matchesText_dirs_eq_false {p : String} {c : Char} (hlast : p.toList.getLast? = some c)
    (hc : c ≠ '/') :
    (⟨literals dir.toList ++ [.innerDirs]⟩ : Glob).matchesText (dir ++ "/" ++ p) = false := by
  rw [Bool.eq_false_iff, Ne, matchesText_below_iff Token.noConfusion, mem_restsOfTokens_cons_iff]
  rintro ⟨ys, hys, hnil⟩
  obtain rfl : [] = ys := List.mem_singleton.1 hnil
  obtain ⟨cs, hp⟩ := List.getLast?_eq_some_iff.1 hlast
  rw [toList_toUTF8, hp, List.flatMap_append, List.flatMap_singleton, Token.rests,
    if_pos rfl] at hys
  have hne : String.utf8EncodeChar c ≠ [] := String.utf8EncodeChar_ne_nil
  rcases List.mem_cons.1 hys with hempty | hrests
  · exact hne (List.append_eq_nil_iff.1 hempty.symm).2
  · -- The last byte is one of the last character.
    have hslash := getLast?_eq_of_nil_mem_restsBehindSlash hrests
    rw [List.getLast?_append_of_ne_nil _ hne] at hslash
    exact hc (Utf8.eq_slash_of_mem_utf8EncodeChar (List.mem_of_getLast? hslash))

/-! ## Reading below a directory -/

/-- The glob of a pattern that was read to its end. -/
def finish (s : ReadState) : Except PatternError Glob :=
  if s.branches.isEmpty then .ok ⟨s.outer.reverse⟩ else .error .unclosedAlternatives

theorem parse?_eq (lenient : Bool) (pattern : List Char) :
    parse? lenient pattern = (readFrom lenient pattern.length {} pattern).bind finish := by
  rw [parse?]
  cases readFrom lenient pattern.length {} pattern with
  | error e => rfl
  | ok s => rfl

/-- What was read onto different tokens says the same, if it does so whatever was read. -/
theorem rel_finish {read : Except PatternError ReadState} {before' before : List Token}
    (h : ∀ s, read = .ok s → s.branches = [] →
      SameBelow dir ⟨before'.reverse ++ s.outer.reverse⟩ ⟨before.reverse ++ s.outer.reverse⟩) :
    Option.Rel (SameBelow dir) ((read.map fun s => s.onto before').bind finish).toOption
      ((read.map fun s => s.onto before).bind finish).toOption := by
  cases hread : read with
  | error e => exact .none
  | ok s =>
    simp only [Except.map, Except.bind, finish, ReadState.onto_branches, ReadState.onto_outer,
      List.reverse_append]
    split
    · rename_i hempty
      exact .some (h s hread (List.isEmpty_iff.1 hempty))
    · exact .none

/-- Two stars are all that is left behind directories only where they stand alone or behind a
slash. -/
theorem dropDirs_eq_stars {cs : List Char} (h : dropDirs cs = ['*', '*']) :
    cs = ['*', '*'] ∨ ['/', '*', '*'] <:+ cs := by
  fun_induction dropDirs cs with
  | case1 cs ih =>
    right
    rcases ih h with rfl | hsuffix
    · exact ⟨['*', '*'], rfl⟩
    · exact hsuffix.trans (List.suffix_append ['*', '*', '/'] cs)
  | case2 cs _ => exact .inl h

/-- Directories behind a slash take its place, directories at the start do not, and more of them
change nothing. -/
theorem exists_readFrom_dirs (lenient : Bool) (cs : List Char) :
    ∃ fuel, (dropDirs cs).length ≤ fuel ∧
      (∀ before, readFrom lenient ('*' :: '*' :: '/' :: cs).length
        ⟨.literal '/' :: before, [], some '/', false⟩ ('*' :: '*' :: '/' :: cs) =
          readFrom lenient fuel ⟨.innerDirs :: before, [], some '/', false⟩ (dropDirs cs)) ∧
      readFrom lenient ('*' :: '*' :: '/' :: cs).length {} ('*' :: '*' :: '/' :: cs) =
        readFrom lenient fuel ⟨[.leadingDirs], [], some '/', false⟩ (dropDirs cs) := by
  have hlength : cs.length ≤ ('*' :: '/' :: cs).length := by simp; omega
  obtain ⟨fuel, hfuel, hread⟩ := exists_readFrom_dropDirs lenient hlength
  refine ⟨fuel, hfuel, fun before => ?_, ?_⟩
  · exact hread ⟨.innerDirs :: before, [], some '/', false⟩ ⟨_, _, .inr rfl, rfl⟩
  · exact hread ⟨[.leadingDirs], [], some '/', false⟩ ⟨_, _, .inl rfl, rfl⟩

/-! ## Patterns below a directory -/

section Patterns

variable (hdir : IsLiteral dir.toList) (hclose : '}' ∉ dir.toList) (lenient : Bool)
include hdir hclose

/-- A directory and a slash are read first. -/
theorem parse?_below_eq (cs : List Char) :
    parse? lenient (dir.toList ++ '/' :: cs) =
      (readFrom lenient cs.length
        ⟨.literal '/' :: (literals dir.toList).reverse, [], some '/', false⟩ cs).bind finish := by
  rw [parse?_eq, readFrom_literal_slash hdir hclose [] none, List.append_nil]

/-- A pattern that does not begin with directories. -/
theorem rel_parse?_below_of_startsPlain {c : Char} {cs : List Char} (h : StartsPlain (c :: cs)) :
    Option.Rel (SameBelow dir) (parse? lenient (dir.toList ++ '/' :: c :: cs)).toOption
      (parse? lenient (c :: cs)).toOption := by
  have hroot := @readFrom_start lenient cs.length cs c h [] none
  rw [parse?_eq lenient (c :: cs), List.length_cons, hroot, parse?_below_eq hdir hclose,
    List.length_cons, readFrom_start h (.literal '/' :: _) (some '/')]
  refine rel_finish fun s hread _ => ?_
  -- No directories stand at its start, so it is not the glob that matches everything.
  have hne : s.outer.reverse ≠ [.leadingDirs] := by
    intro he
    refine (settled_of_readFrom_start h hread).leadingDirs_notMem ?_
    rw [← List.mem_reverse, he]
    exact List.mem_cons_self
  have hsame := sameBelow_literals dir hne
  rwa [List.reverse_cons, List.reverse_reverse, List.append_assoc]

/-- A pattern that begins with directories. They are put together on both sides, and what is behind
them does not begin with directories. -/
theorem rel_parse?_below_of_dirs {cs : List Char}
    (hend : ¬ ['/', '*', '*'] <:+ '*' :: '*' :: '/' :: cs) (hbare : dropDirs cs ≠ []) :
    Option.Rel (SameBelow dir)
      (parse? lenient (dir.toList ++ '/' :: '*' :: '*' :: '/' :: cs)).toOption
      (parse? lenient ('*' :: '*' :: '/' :: cs)).toOption := by
  obtain ⟨fuel, hfuel, hinner, hleading⟩ := exists_readFrom_dirs lenient cs
  have hstars : dropDirs cs ≠ ['*', '*'] := by
    intro he
    refine hend ?_
    rcases dropDirs_eq_stars he with rfl | hsuffix
    · exact ⟨['*', '*'], rfl⟩
    · exact hsuffix.trans (List.suffix_append ['*', '*', '/'] cs)
  obtain ⟨c, rest, hrest⟩ := List.exists_cons_of_ne_nil hbare
  have hplain : StartsPlain (c :: rest) := hrest ▸ ⟨not_isPrefix_dropDirs cs, hstars⟩
  obtain ⟨fuel, rfl⟩ : ∃ n, fuel = n + 1 := by
    rw [hrest, List.length_cons] at hfuel
    exact ⟨fuel - 1, by omega⟩
  rw [parse?_below_eq hdir hclose, parse?_eq, hinner, hleading, hrest, readFrom_start hplain,
    readFrom_start hplain [.leadingDirs]]
  refine rel_finish fun s hs hbranches => ?_
  have hne : s.outer ≠ [] := (settled_of_readFrom_start hplain hs).outer_ne_nil hbranches
  have hsame := sameBelow_dirs dir (mt List.reverse_eq_nil_iff.1 hne)
  rwa [List.reverse_cons, List.reverse_reverse, List.append_assoc]

/-- **A pattern behind a directory says of what lies below what it says alone of paths from there
on**, as long as it is no `**` at the end and not only `**/`. -/
theorem rel_parse?_below {cs : List Char} (hstars : cs ≠ ['*', '*'])
    (hend : ¬ ['/', '*', '*'] <:+ cs) (hbare : ¬ IsBareDirs cs) :
    Option.Rel (SameBelow dir) (parse? lenient (dir.toList ++ '/' :: cs)).toOption
      (parse? lenient cs).toOption := by
  by_cases hdirs : ['*', '*', '/'] <+: cs
  · obtain ⟨rest, rfl⟩ := hdirs
    exact rel_parse?_below_of_dirs hdir hclose lenient hend
      fun hdrop => hbare ⟨List.cons_ne_nil _ _, hdrop⟩
  · cases cs with
    | nil =>
      rw [parse?_below_eq hdir hclose]
      refine Option.Rel.some ?_
      have hsame : SameBelow dir ⟨literals dir.toList ++ [.literal '/']⟩ ⟨[]⟩ :=
        sameBelow_literals dir nofun
      rwa [List.reverse_cons, List.reverse_reverse]
    | cons c cs => exact rel_parse?_below_of_startsPlain hdir hclose lenient ⟨hdirs, hstars⟩

/-- The pattern `**` says of all paths what `**/*` says of all below a directory. -/
theorem rel_parse?_any :
    Option.Rel (SameBelow dir) (parse? lenient (dir.toList ++ '/' :: "**/*".toList)).toOption
      (parse? lenient ['*', '*']).toOption := by
  rw [parse?_below_eq hdir hclose]
  refine Option.Rel.some ?_
  have hsame := sameBelow_any dir
  have htokens : (Token.star :: .innerDirs :: (literals dir.toList).reverse).reverse =
      literals dir.toList ++ [.innerDirs, .star] := by
    rw [List.reverse_cons, List.reverse_cons, List.reverse_reverse, List.append_assoc]
    rfl
  rw [← htokens] at hsame
  exact hsame

/-- **A pattern of nothing but directories matches everything, and below a directory nothing** but
what ends with a slash. -/
theorem parse?_bareDirs {cs : List Char} (h : IsBareDirs cs) :
    parse? lenient (dir.toList ++ '/' :: cs) = .ok ⟨literals dir.toList ++ [.innerDirs]⟩ ∧
      parse? lenient cs = .ok ⟨[.leadingDirs]⟩ := by
  obtain ⟨hne, hdrop⟩ := h
  obtain ⟨rest, rfl⟩ : ∃ rest, cs = '*' :: '*' :: '/' :: rest := by
    fun_cases dropDirs cs with
    | case1 rest => exact ⟨rest, rfl⟩
    | case2 cs hcs =>
      rw [dropDirs.eq_2 cs hcs] at hdrop
      exact absurd hdrop hne
  rw [dropDirs] at hdrop
  obtain ⟨fuel, -, hinner, hleading⟩ := exists_readFrom_dirs lenient rest
  have hnil (s : ReadState) : readFrom lenient fuel s [] = .ok s := by
    cases fuel <;> rfl
  rw [parse?_below_eq hdir hclose, parse?_eq, hinner, hleading, hdrop, hnil, hnil]
  refine ⟨congrArg Except.ok ?_, rfl⟩
  rw [List.reverse_cons, List.reverse_reverse]

end Patterns

end RefGraph.Glob
