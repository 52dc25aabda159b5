import RefGraph.Glob
import RefGraph.Proofs.Utf8
import Mathlib.Data.List.Basic

/-!
# Globs that are confined to a directory

A glob that begins with a literal text and a slash matches only paths that begin so, whatever
follows: a star, a class or a choice behind the slash never reaches back before it, and `**` behind
a slash stands for that slash as well.

* `Glob.IsLiteral`: texts that say nothing but themselves in a glob.
* `Glob.StartsIn`: what holds of a pattern while it is read, once the text and the slash are read.
* `Glob.isPrefix_of_matchesText`: the paths that such a glob matches.
-/

namespace RefGraph.Glob

/-- The characters that mean something else in a glob than themselves. -/
def marks : List Char := ['?', '*', '[', '{', '\\']

/-- A text without such characters. -/
def IsLiteral (cs : List Char) : Prop := ∀ c ∈ cs, c ∉ marks

instance (cs : List Char) : Decidable (IsLiteral cs) :=
  List.decidableBAll (fun c => c ∉ marks) cs

/-- The tokens of a literal text. -/
def literals (cs : List Char) : List Token := cs.map Token.literal

/-! ## Reading a literal text -/

/-- A character outside of all choices that means nothing else becomes a token, unless it closes a
choice that was not opened. -/
theorem readFrom_literal {lenient : Bool} {fuel : Nat} {s s' : ReadState} {c : Char}
    {cs : List Char} (hc : c ∉ marks) (hs : s.branches = [])
    (h : readFrom lenient (fuel + 1) s (c :: cs) = .ok s') :
    readFrom lenient fuel ((s.push (.literal c)).after c) cs = .ok s' := by
  simp only [marks, List.mem_cons, List.not_mem_nil, or_false, not_or] at hc
  obtain ⟨hquestion, hstar, hbracket, hbrace, hbackslash⟩ := hc
  rw [readFrom.eq_def] at h
  simp only at h
  rw [if_neg hquestion, if_neg hstar, if_neg (fun he => hbracket he.1),
    if_neg hbrace] at h
  by_cases hclose : c = '}'
  · rw [if_pos hclose, hs] at h
    cases h
  · rw [if_neg hclose] at h
    by_cases hcomma : c = ','
    · rw [if_pos hcomma, hs] at h
      exact h
    · rwa [if_neg hcomma, if_neg hbackslash] at h

/-- A literal text outside of all choices becomes its tokens. -/
theorem readFrom_literals {lenient : Bool} {fuel : Nat} {s s' : ReadState} {cs rest : List Char}
    (hcs : IsLiteral cs) (hs : s.branches = [])
    (h : readFrom lenient (cs.length + fuel) s (cs ++ rest) = .ok s') :
    ∃ s₁ : ReadState, s₁.branches = [] ∧ s₁.outer = (literals cs).reverse ++ s.outer ∧
      readFrom lenient fuel s₁ rest = .ok s' := by
  induction cs generalizing s with
  | nil => exact ⟨s, hs, rfl, by simpa using h⟩
  | cons c cs ih =>
    have hpush : s.push (.literal c) = { s with outer := .literal c :: s.outer } := by
      simp [ReadState.push, ReadState.setCurrent, ReadState.current, hs]
    rw [List.length_cons, Nat.add_right_comm, List.cons_append] at h
    have hread := readFrom_literal (hcs c (List.mem_cons_self ..)) hs h
    rw [hpush] at hread
    obtain ⟨s₁, hbranches, houter, hrest⟩ :=
      ih (s := _) (fun x hx => hcs x (List.mem_cons_of_mem _ hx)) (by exact hs) hread
    refine ⟨s₁, hbranches, houter.trans ?_, hrest⟩
    simp [literals, ReadState.after]

/-! ## Reading what follows -/

/-- The tokens that stand for a slash at least. -/
inductive Token.BeginsWithSlash : Token → Prop
  | literal : BeginsWithSlash (.literal '/')
  | innerDirs : BeginsWithSlash .innerDirs
  | trailingDirs : BeginsWithSlash .trailingDirs

/-- What was read, outside of all choices and last first, begins with a literal text and a slash. -/
def StartsIn (dir : List Char) (outer : List Token) : Prop :=
  ∃ more t, t.BeginsWithSlash ∧ outer = more ++ t :: (literals dir).reverse

namespace StartsIn

variable {dir : List Char} {s : ReadState}

theorem cons {outer : List Token} (h : StartsIn dir outer) (x : Token) :
    StartsIn dir (x :: outer) := by
  obtain ⟨more, t, ht, rfl⟩ := h
  exact ⟨x :: more, t, ht, rfl⟩

/-- The last token may be replaced by one that stands for a slash. -/
theorem replaceLast {x y : Token} {outer : List Token} (h : StartsIn dir (x :: outer))
    (hy : y.BeginsWithSlash) : StartsIn dir (y :: outer) := by
  obtain ⟨_ | ⟨z, more⟩, t, ht, houter⟩ := h
  · rw [List.nil_append, List.cons.injEq] at houter
    exact ⟨[], y, hy, by rw [houter.2, List.nil_append]⟩
  · rw [List.cons_append, List.cons.injEq] at houter
    exact ⟨y :: more, t, ht, by rw [houter.2, List.cons_append]⟩

theorem push (h : StartsIn dir s.outer) (x : Token) : StartsIn dir (s.push x).outer := by
  unfold ReadState.push ReadState.setCurrent ReadState.current
  cases s.branches with
  | nil => exact h.cons x
  | cons b bs => exact h

/-- Directories that begin with a slash are put behind the literal text. -/
theorem pushDirs (h : StartsIn dir s.outer) {x : Token} (hx : x.BeginsWithSlash) :
    StartsIn dir (s.pushDirs x).outer := by
  unfold ReadState.pushDirs
  split
  · exact h
  · exact h
  · rename_i y rest _ _ hcurrent
    unfold ReadState.setCurrent
    unfold ReadState.current at hcurrent
    cases hbranches : s.branches with
    | nil =>
      rw [hbranches] at hcurrent
      change s.outer = y :: rest at hcurrent
      exact StartsIn.replaceLast (hcurrent ▸ h) hx
    | cons b bs => exact h
  · exact h

/-- Two stars leave the beginning as it is. -/
theorem readStars (h : StartsIn dir s.outer) (cs : List Char) :
    StartsIn dir (Glob.readStars s cs).1.outer := by
  have hplain : StartsIn dir ((s.push .star).push .star).outer := (h.push _).push _
  unfold Glob.readStars
  split
  · split
    · exact h.push _
    · split
      · exact h.push _
      · exact hplain
  · split
    · exact hplain
    · split
      · exact h.pushDirs .trailingDirs
      · split
        · exact h.pushDirs .trailingDirs
        · split
          · exact h.pushDirs .innerDirs
          · exact hplain

/-- Whatever is read behind the slash leaves what is before it. The induction is on the reading:
each step adds tokens outside of all choices or changes what is in the innermost one. -/
theorem readFrom {lenient : Bool} {fuel : Nat} {s' : ReadState} {cs : List Char}
    (h : StartsIn dir s.outer) (hread : Glob.readFrom lenient fuel s cs = .ok s') :
    StartsIn dir s'.outer := by
  fun_induction Glob.readFrom lenient fuel s cs with
  | case1 | case2 => cases hread; exact h
  | case3 _ _ _ ih | case5 _ _ _ _ _ ih => exact ih (h.push _) hread
  | case4 _ s rest s₁ taken hstars _ ih =>
    have hstart := h.readStars rest
    rw [hstars] at hstart
    exact ih hstart hread
  | case6 | case9 | case11 | case15 => cases hread
  | case7 _ _ _ _ _ _ _ _ _ _ ih => exact ih (h.push _) hread
  | case8 _ _ _ _ _ _ _ _ _ ih => exact ih (h.push _) hread
  | case10 _ _ _ _ _ _ ih => exact ih h hread
  | case12 _ s _ b tail hbranches choices _ _ _ _ ih =>
    exact ih (StartsIn.push (s := { s with branches := tail }) h _) hread
  | case13 _ _ _ _ _ _ _ _ _ ih => exact ih (h.push _) hread
  | case14 _ _ _ _ _ _ _ _ _ _ _ ih => exact ih h hread
  | case16 _ _ _ _ _ _ _ _ _ _ ih => exact ih (h.push _) hread
  | case17 _ _ _ _ _ _ _ _ _ _ _ ih => exact ih (h.push _) hread

end StartsIn

/-! ## Matching -/

/-- Behind some bytes comes what is left of a text that begins with them. -/
theorem mem_restBehind_iff {bs xs rest : List UInt8} :
    rest ∈ restBehind bs xs ↔ xs = bs ++ rest := by
  induction bs generalizing xs with
  | nil => simp [restBehind, eq_comm]
  | cons b bs ih =>
    cases xs with
    | nil => simp [restBehind]
    | cons x xs =>
      rw [restBehind, List.cons_append, List.cons.injEq]
      split
      · rename_i hx
        rw [ih, and_iff_right hx]
      · rename_i hx
        simp [hx]

theorem mem_restsOfTokens_cons_iff {t : Token} {ts : List Token} {xs rest : List UInt8} :
    rest ∈ restsOfTokens (t :: ts) xs ↔ ∃ ys ∈ t.rests xs, rest ∈ restsOfTokens ts ys := by
  rw [restsOfTokens, List.mem_eraseDups, List.mem_flatMap]

theorem bytesOf_eq (c : Char) : bytesOf c = String.utf8EncodeChar c := by
  rw [bytesOf, toList_toUTF8, String.toList_ofList, List.flatMap_singleton]

theorem bytesOf_slash : bytesOf '/' = [slash] := by
  rw [bytesOf_eq]
  rfl

/-- What literal tokens match is their text. -/
theorem exists_of_mem_restsOfTokens_literals {cs : List Char} {ts : List Token}
    {xs rest : List UInt8} (h : rest ∈ restsOfTokens (literals cs ++ ts) xs) :
    ∃ ys, xs = Utf8.encode cs ++ ys ∧ rest ∈ restsOfTokens ts ys := by
  induction cs generalizing xs with
  | nil => exact ⟨xs, by rw [Utf8.encode_eq, List.flatMap_nil, List.nil_append], h⟩
  | cons c cs ih =>
    obtain ⟨ys, hys, hrest⟩ := mem_restsOfTokens_cons_iff.1 h
    obtain ⟨zs, rfl, hzs⟩ := ih hrest
    rw [Token.rests, mem_restBehind_iff] at hys
    refine ⟨zs, ?_, hzs⟩
    rw [hys, bytesOf_eq, Utf8.encode_eq, Utf8.encode_eq, List.flatMap_cons, List.append_assoc]

/-- What a token that stands for a slash matches begins with a slash. -/
theorem Token.BeginsWithSlash.exists_of_mem_rests {t : Token} (ht : t.BeginsWithSlash)
    {xs ys : List UInt8} (h : ys ∈ t.rests xs) : ∃ zs, xs = slash :: zs := by
  cases ht with
  | literal =>
    rw [Token.rests, mem_restBehind_iff, bytesOf_slash] at h
    exact ⟨ys, h⟩
  | innerDirs =>
    cases xs with
    | nil => simp [Token.rests] at h
    | cons x xs =>
      rw [Token.rests] at h
      split at h
      · rename_i hx
        exact ⟨xs, by rw [hx]⟩
      · cases h
  | trailingDirs =>
    cases xs with
    | nil => simp [Token.rests] at h
    | cons x xs =>
      rw [Token.rests] at h
      split at h
      · rename_i hx
        exact ⟨xs, by rw [hx]⟩
      · cases h

/-- A glob that was read from a literal text and a slash begins with their tokens. -/
theorem exists_tokens_eq {lenient : Bool} {dir rest : List Char} {g : Glob}
    (hdir : IsLiteral dir) (hg : parse? lenient (dir ++ '/' :: rest) = .ok g) :
    ∃ t ts, t.BeginsWithSlash ∧ g.tokens = literals dir ++ t :: ts := by
  have hslash : IsLiteral (dir ++ ['/']) := by
    intro c hc
    rcases List.mem_append.1 hc with hc | hc
    · exact hdir c hc
    · rw [List.mem_singleton.1 hc]
      decide
  have hlength : (dir ++ '/' :: rest).length = (dir ++ ['/']).length + rest.length := by
    simp [Nat.add_comm, Nat.add_left_comm]
  have happend : dir ++ '/' :: rest = (dir ++ ['/']) ++ rest := by simp
  rw [parse?, hlength, happend] at hg
  split at hg
  · cases hg
  · rename_i s hread
    split at hg
    · obtain ⟨s₁, -, houter, hrest⟩ := readFrom_literals hslash rfl hread
      have hstart : StartsIn dir s₁.outer :=
        ⟨[], .literal '/', .literal, by simp [houter, literals]⟩
      obtain ⟨more, t, ht, hs⟩ := hstart.readFrom hrest
      refine ⟨t, more.reverse, ht, ?_⟩
      rw [← Except.ok.inj hg, hs]
      simp
    · cases hg

/-- **A glob that begins with a literal text and a slash matches only paths that begin so.** -/
theorem isPrefix_of_matchesText {lenient : Bool} {dir rest : List Char} {g : Glob} {path : String}
    (hdir : IsLiteral dir) (hg : parse? lenient (dir ++ '/' :: rest) = .ok g)
    (hmatches : g.matchesText path = true) : dir ++ ['/'] <+: path.toList := by
  obtain ⟨t, ts, ht, htokens⟩ := exists_tokens_eq hdir hg
  -- The glob `**`, which is treated apart, does not begin so.
  have hrests : [] ∈ restsOfTokens (literals dir ++ t :: ts) path.toUTF8.toList := by
    rw [matchesText, matchesBytes, htokens] at hmatches
    split at hmatches
    · rename_i heq
      exfalso
      cases dir with
      | nil =>
        rw [literals, List.map_nil, List.nil_append, List.cons.injEq] at heq
        rw [heq.1] at ht
        cases ht
      | cons c cs => simp [literals] at heq
    · exact List.contains_iff_mem.1 hmatches
  obtain ⟨ys, hpath, hys⟩ := exists_of_mem_restsOfTokens_literals hrests
  obtain ⟨zs, hzs, -⟩ := mem_restsOfTokens_cons_iff.1 hys
  obtain ⟨after, rfl⟩ := ht.exists_of_mem_rests hzs
  refine Utf8.isPrefix_of_encode_append (?_ : _ ++ after = _)
  rw [Utf8.encode_eq path.toList, ← toList_toUTF8, hpath, Utf8.encode_eq, Utf8.encode_eq,
    List.flatMap_append, List.append_assoc]
  rfl

end RefGraph.Glob
