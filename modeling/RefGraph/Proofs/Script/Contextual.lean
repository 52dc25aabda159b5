import RefGraph.Script.Contextual
import RefGraph.Proofs.Script.Lexemes
import Mathlib.Tactic.SplitIfs

/-!
# No contextual token goes beyond a NUL character

* `Contextual.scan?_le`: neither what is skipped nor the token itself goes beyond it.
-/

namespace RefGraph.Script.Contextual

open Lexeme

variable {c : Char} {cs rest : List Char} {n : Nat} {found : Found}

/-- A rest of a text that begins before the first NUL character, or at it. -/
def Reaches (cs rest : List Char) : Prop := ∃ n ≤ beforeNul cs, rest = cs.drop n

theorem Reaches.refl (cs : List Char) : Reaches cs cs := ⟨0, Nat.zero_le _, rfl⟩

theorem Reaches.cons (hc : c ≠ '\x00') (h : Reaches cs rest) : Reaches (c :: cs) rest := by
  obtain ⟨n, hn, rfl⟩ := h
  refine ⟨n + 1, ?_, rfl⟩
  rw [beforeNul_cons, if_neg hc]
  exact Nat.succ_le_succ hn

theorem Reaches.trans {further : List Char} (h : Reaches cs rest) (h' : Reaches rest further) :
    Reaches cs further := by
  obtain ⟨n, hn, rfl⟩ := h
  obtain ⟨m, hm, rfl⟩ := h'
  exact ⟨n + m, add_le_beforeNul hn hm, List.drop_drop⟩

/-- The next character is the first one of the text, if it is not the NUL character. -/
theorem next?_eq_some_iff : next? cs = some c ↔ cs.head? = some c ∧ c ≠ '\x00' := by
  cases cs with
  | nil => simp [next?]
  | cons d cs =>
    rw [next?, List.head?_cons, Option.some.injEq]
    by_cases hd : d = '\x00'
    · rw [if_pos (beq_iff_eq.2 hd)]
      exact ⟨nofun, fun ⟨heq, hne⟩ => absurd (heq.symm.trans hd) hne⟩
    · rw [if_neg (mt beq_iff_eq.1 hd), Option.some.injEq]
      exact ⟨fun heq => ⟨heq, heq ▸ hd⟩, And.left⟩

/-- A run of blanks and comments ends before a NUL character, or at it. -/
theorem reaches_blankRun (all : Bool) (place : BlankPlace) (lines comment : Bool) :
    Reaches cs (blankRun all place lines comment cs).rest := by
  fun_induction blankRun all place lines comment cs with
  | case1 | case6 | case7 | case9 | case11 | case14 => exact .refl _
  | case2 _ _ _ ih | case3 _ _ _ ih | case13 _ _ _ _ ih =>
    exact .cons (by decide) (.cons (by decide) ih)
  | case4 _ _ _ _ _ _ hc =>
    rw [beq_iff_eq] at hc
    exact .cons (hc ▸ by decide) (.refl _)
  | case5 _ _ _ _ _ _ _ hc ih => exact .cons (ne_of_holds hc (by decide)) ih
  | case8 _ _ _ _ hc ih =>
    rw [beq_iff_eq] at hc
    exact .cons (hc ▸ by decide) ih
  | case10 _ _ c _ _ hc ih =>
    refine .cons ?_ ih
    rintro rfl
    exact hc rfl
  | case12 => exact .cons (by decide) (.cons (by decide) (.refl _))
  | case15 _ _ c _ _ hc ih =>
    refine .cons ?_ ih
    rintro rfl
    exact hc rfl

theorem reaches_tail (h : next? cs = some c) : Reaches cs (cs.drop 1) := by
  obtain ⟨hhead, hc⟩ := next?_eq_some_iff.1 h
  exact ⟨1, succ_le_beforeNul (Nat.zero_le _) hhead hc, rfl⟩

/-- Skipping characters that are no NUL characters ends before one, or at it. -/
theorem reaches_dropWhile {p : Char → Bool} (hp : p '\x00' = false) :
    Reaches cs (cs.dropWhile p) := by
  induction cs with
  | nil => exact .refl []
  | cons c cs ih =>
    rw [List.dropWhile_cons]
    split
    · rename_i hc
      exact .cons (ne_of_holds hc hp) ih
    · exact .refl _

/-- Going over comments ends before a NUL character, or at it. -/
theorem reaches_passComment (allowed : Allowed) (comment : Bool) :
    Reaches cs ((passComment allowed comment cs).elim Missing.rest Prod.snd) := by
  rw [passComment]
  split
  · dsimp only
    split
    · exact reaches_blankRun ..
    split
    · exact reaches_blankRun ..
    · exact reaches_blankRun ..
  · exact .refl cs

/-- The search for the end of a line ends before a NUL character, or at it. -/
theorem reaches_missingSemicolon (typed : Bool) (allowed : Allowed) (fuel : Nat) (comment : Bool) :
    Reaches cs (missingSemicolon typed allowed fuel comment cs).rest := by
  induction fuel generalizing comment cs with
  | zero => exact .refl cs
  | succ fuel ih =>
    have hpass : Reaches cs ((passComment allowed comment cs).elim Missing.rest Prod.snd) :=
      reaches_passComment allowed comment
    rw [missingSemicolon]
    split
    · rename_i answer hanswer
      rwa [hanswer] at hpass
    rename_i comment' rest hrest
    rw [hrest] at hpass
    split
    · exact hpass
    rename_i c hc
    have htail := Reaches.trans hpass (reaches_tail hc)
    split
    · have hafter := htail.trans (reaches_dropWhile (p := isSpace) (by decide))
      dsimp only
      split
      · exact hafter
      · exact hafter
    split
    · dsimp only
      split
      · exact htail.trans (reaches_blankRun ..)
      · exact htail.trans (reaches_blankRun ..)
    split
    · exact htail.trans (ih comment')
    · exact hpass

/-- Template text does not go on behind a NUL character. -/
theorem templateText_le (h : templateText cs = some n) : n ≤ beforeNul cs := by
  fun_induction templateText cs generalizing n with
  | case1 => cases h
  | case2 => cases h; exact Nat.zero_le _
  | case3 => cases h; exact Nat.zero_le _
  | case4 => cases h
  | case5 c cs _ _ hc ih =>
    obtain ⟨m, hm, rfl⟩ := Option.map_eq_some_iff.1 h
    rw [beforeNul_cons, if_neg (mt beq_iff_eq.2 hc)]
    exact Nat.succ_le_succ (ih hm)

/-- Neither does the text between elements. -/
theorem elementText_le (afterLine seen : Bool) :
    (elementText afterLine seen cs).1 ≤ beforeNul cs := by
  induction cs generalizing afterLine seen with
  | nil => exact Nat.le_refl 0
  | cons c cs ih =>
    rw [elementText]
    split
    · exact Nat.zero_le _
    · rename_i hc
      have hne : c ≠ '\x00' := by
        rintro rfl
        exact hc (by decide)
      rw [beforeNul_cons, if_neg hne]
      dsimp only
      split
      · exact Nat.succ_le_succ (ih true seen)
      · exact Nat.succ_le_succ (ih _ _)

/-- The blanks before a question mark are skipped. -/
theorem ternaryMark_le (h : ternaryMark cs = some found) :
    found.skipped + found.length ≤ beforeNul cs := by
  have hblanks : run isSpace cs ≤ beforeNul cs := run_le (by decide)
  rw [ternaryMark] at h
  dsimp only at h
  split at h
  · rename_i rest hrest
    have hmark : run isSpace cs + 1 ≤ beforeNul cs :=
      succ_le_beforeNul hblanks (congrArg List.head? hrest) (by decide)
    split at h
    · cases h
    split at h
    · split_ifs at h <;> cases h <;> exact hmark
    · cases h
      exact hmark
  · cases h

/-- A comment of the markup language ends with its line. -/
theorem htmlComment_le (h : htmlComment cs = some found) :
    found.skipped + found.length ≤ beforeNul cs := by
  have hblanks : run (fun c => isSpace c || isLineEnd c) cs ≤ beforeNul cs := run_le (by decide)
  have hline (opening : Nat)
      (hopening : opening ≤ beforeNul (cs.drop (run (fun c => isSpace c || isLineEnd c) cs))) :
      run (fun c => isSpace c || isLineEnd c) cs + (opening +
        run (fun c => !(isLineEnd c || c == '\x00'))
          (cs.drop (run (fun c => isSpace c || isLineEnd c) cs + opening))) ≤ beforeNul cs := by
    rw [← Nat.add_assoc]
    exact add_le_beforeNul (add_le_beforeNul hblanks hopening) (run_le (by decide))
  rw [htmlComment] at h
  dsimp only at h
  split at h
  · rename_i hopening
    cases h
    exact hline 4 (by simp [hopening])
  · rename_i hopening
    cases h
    exact hline 3 (by simp [hopening])
  · cases h

theorem scanAfterText?_le {typed : Bool} {allowed : Allowed}
    (h : scanAfterText? typed allowed cs = some found) :
    found.skipped + found.length ≤ beforeNul cs := by
  rw [scanAfterText?] at h
  split at h
  · dsimp only at h
    split at h
    · cases h
      exact Nat.zero_le _
    split at h
    · obtain ⟨mark, hmark, rfl⟩ := Option.map_eq_some_iff.1 h
      -- What was gone over for the semicolon is skipped as well.
      have hreaches : Reaches cs (missingSemicolon typed allowed (cs.length + 1) false cs).rest :=
        reaches_missingSemicolon typed allowed (cs.length + 1) false
      obtain ⟨n, hn, hrest⟩ := hreaches
      rw [hrest] at hmark ⊢
      have hle := add_le_beforeNul hn (ternaryMark_le hmark)
      rw [List.length_drop]
      dsimp only
      omega
    · cases h
  split at h
  · exact ternaryMark_le h
  split at h
  · exact htmlComment_le h
  · cases h

/-- **No contextual token goes beyond a NUL character.** -/
theorem scan?_le {typed : Bool} {allowed : Allowed} (h : scan? typed allowed cs = some found) :
    found.skipped + found.length ≤ beforeNul cs := by
  rw [scan?] at h
  split at h
  · split at h
    · cases h
    · obtain ⟨n, hn, rfl⟩ := Option.map_eq_some_iff.1 h
      obtain ⟨m, hm, hpositive⟩ := Option.bind_eq_some_iff.1 hn
      rw [Nat.zero_add, ← positive_eq_some hpositive]
      exact templateText_le hm
  split at h
  · have hle : (elementText false false cs).1 ≤ beforeNul cs := elementText_le false false
    split at h
    rename_i n seen htext
    rw [htext] at hle
    split at h
    · cases h
      rw [Nat.zero_add]
      exact hle
    · obtain ⟨inner, hinner, rfl⟩ := Option.map_eq_some_iff.1 h
      have := add_le_beforeNul hle (scanAfterText?_le hinner)
      dsimp only at this ⊢
      omega
  · exact scanAfterText?_le h

end RefGraph.Script.Contextual
