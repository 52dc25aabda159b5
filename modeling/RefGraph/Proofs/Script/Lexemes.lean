import RefGraph.Script.Lexeme
import Mathlib.Order.Basic

/-!
# No lexeme goes beyond a NUL character

* `beforeNul`: the number of characters before the first NUL character of a text.
* `LexClass.lexeme?_le`: no lexeme is longer.
-/

namespace RefGraph.Script

open Lexeme

/-- The number of characters before the first NUL character. -/
def beforeNul : List Char → Nat := run (· != '\x00')

variable {c : Char} {cs : List Char} {p : Char → Bool} {n : Nat}

@[simp] theorem beforeNul_cons :
    beforeNul (c :: cs) = if c = '\x00' then 0 else beforeNul cs + 1 := by
  rw [beforeNul, run]
  by_cases h : c = '\x00' <;> simp [h]

/-- Dropping characters that are no NUL characters brings the first one nearer. -/
theorem beforeNul_drop (h : n ≤ beforeNul cs) : beforeNul (cs.drop n) = beforeNul cs - n := by
  induction n generalizing cs with
  | zero => rfl
  | succ n ih =>
    cases cs with
    | nil => simp [beforeNul, run]
    | cons c cs =>
      rw [beforeNul_cons] at h ⊢
      split at h
      · exact absurd h (Nat.not_succ_le_zero n)
      · rename_i hc
        rw [List.drop_succ_cons, ih (Nat.le_of_succ_le_succ h), if_neg hc, Nat.add_sub_add_right]

/-- What is left behind characters that are no NUL characters. -/
theorem add_le_beforeNul {m : Nat} (h : n ≤ beforeNul cs) (hm : m ≤ beforeNul (cs.drop n)) :
    n + m ≤ beforeNul cs := by
  rw [beforeNul_drop h] at hm
  omega

/-- A character with a property that the NUL character does not have. -/
theorem ne_of_holds (hc : p c = true) (hp : p '\x00' = false) : c ≠ '\x00' := by
  rintro rfl
  rw [hp] at hc
  cases hc

/-- A run of characters that are no NUL characters ends before the first one, or at it. -/
theorem run_le (hp : p '\x00' = false) : run p cs ≤ beforeNul cs := by
  induction cs with
  | nil => exact Nat.le_refl 0
  | cons c cs ih =>
    rw [run, beforeNul_cons]
    by_cases hc : c = '\x00'
    · rw [hc, hp]
      simp
    · rw [if_neg hc]
      split
      · exact Nat.succ_le_succ ih
      · exact Nat.zero_le _

/-- So does a run of bounded length. -/
theorem run_take_le (hp : p '\x00' = false) (k : Nat) : run p (cs.take k) ≤ beforeNul cs := by
  induction cs generalizing k with
  | nil => simp [run]
  | cons c cs ih =>
    cases k with
    | zero => simp [run]
    | succ k =>
      rw [List.take_succ_cons, run, beforeNul_cons]
      by_cases hc : c = '\x00'
      · rw [hc, hp]
        simp
      · rw [if_neg hc]
        split
        · exact Nat.succ_le_succ (ih k)
        · exact Nat.zero_le _

theorem positive_eq_some {m : Nat} (h : positive n = some m) : n = m := by
  cases n with
  | zero => cases h
  | succ n => exact Option.some.inj h

/-- A character other than NUL at some place. -/
theorem succ_le_beforeNul (h : n ≤ beforeNul cs) (hc : (cs.drop n).head? = some c)
    (hne : c ≠ '\x00') : n + 1 ≤ beforeNul cs := by
  refine add_le_beforeNul h ?_
  obtain ⟨rest, hrest⟩ := List.head?_eq_some_iff.1 hc
  rw [hrest, beforeNul_cons, if_neg hne]
  exact Nat.le_add_left 1 _

/-! ## Names -/

theorem nameEscape_le : nameEscape cs ≤ beforeNul cs := by
  unfold nameEscape
  split
  · rename_i cs
    have hdigits : run isHexDigit cs ≤ beforeNul cs := run_le (by decide)
    dsimp only
    split
    · rename_i hclosed
      rw [Bool.and_eq_true, beq_iff_eq] at hclosed
      have hbrace := succ_le_beforeNul hdigits hclosed.2 (by decide)
      simp
      omega
    · exact Nat.zero_le _
  · rename_i cs _
    have hdigits : run isHexDigit (cs.take 4) ≤ beforeNul cs := run_take_le (by decide) 4
    split
    · simp
      omega
    · exact Nat.zero_le _
  · exact Nat.zero_le _

/-- A name goes on behind a character that was escaped, but never behind a NUL character. -/
theorem nameLength_le (inside : Bool) {escaped : Nat} (h : escaped ≤ beforeNul cs) :
    nameLength inside escaped cs ≤ beforeNul cs := by
  induction cs generalizing inside escaped with
  | nil => exact Nat.le_refl 0
  | cons c cs ih =>
    cases escaped with
    | succ escaped =>
      rw [beforeNul_cons] at h ⊢
      split at h
      · exact absurd h (Nat.not_succ_le_zero _)
      · rename_i hc
        rw [if_neg hc, nameLength]
        exact Nat.succ_le_succ (ih true (Nat.le_of_succ_le_succ h))
    | zero =>
      by_cases hc : c = '\x00'
      · subst hc
        simp [nameLength, isPunctuation]
      rw [nameLength, beforeNul_cons, if_neg hc]
      split
      · split
        · exact Nat.zero_le _
        · rename_i n hn
          exact Nat.succ_le_succ (ih true (hn.symm.trans_le nameEscape_le))
      split
      · exact Nat.zero_le _
      · exact Nat.succ_le_succ (ih true (Nat.zero_le _))

theorem identifier_le (h : identifier cs = some n) : n ≤ beforeNul cs :=
  positive_eq_some h ▸ nameLength_le false (Nat.zero_le _)

theorem privateName_le (h : privateName cs = some n) : n ≤ beforeNul cs := by
  unfold privateName at h
  split at h
  · obtain ⟨m, hm, rfl⟩ := Option.map_eq_some_iff.1 h
    simpa using identifier_le hm
  · cases h

/-- The dashes of a name do not lead beyond a NUL character either. -/
theorem dashedName_le (h : dashedName cs = some n) : n ≤ beforeNul cs := by
  unfold dashedName at h
  dsimp only at h
  have hname : run isDashedNameChar cs ≤ beforeNul cs := run_le (by decide)
  split at h
  · cases h
  split at h
  · rename_i rest hrest
    rw [← Option.some.inj h, Nat.add_assoc]
    refine add_le_beforeNul hname ?_
    have hmore : run (fun c => isDashedNameChar c || c == '-') rest ≤ beforeNul rest :=
      run_le (by decide)
    rw [hrest]
    simp
    omega
  · cases h

/-! ## Numbers -/

/-- Underscores stand between digits only, so each of them is followed by one. -/
theorem moreDigits_le (hp : p '\x00' = false) : moreDigits p cs ≤ beforeNul cs := by
  fun_induction moreDigits p cs with
  | case1 c cs hc ih =>
    have hne := ne_of_holds hc hp
    simp [hne]
    omega
  | case2 => exact Nat.zero_le _
  | case3 c cs _ hc ih =>
    have hne := ne_of_holds hc hp
    simp [hne]
    omega
  | case4 => exact Nat.zero_le _
  | case5 => exact Nat.zero_le _

theorem digits_le (hp : p '\x00' = false) : digits p cs ≤ beforeNul cs := by
  unfold digits
  split
  · rename_i c cs
    split
    · rename_i hc
      have hne := ne_of_holds hc hp
      have hmore : moreDigits p cs ≤ beforeNul cs := moreDigits_le hp
      simp [hne]
      omega
    · exact Nat.zero_le _
  · exact Nat.zero_le _

/-- An exponent has a sign or none, and then digits. -/
theorem exponent_le : exponent cs ≤ beforeNul cs := by
  unfold exponent
  split
  · rename_i e cs
    split
    · rename_i he
      have hne : e ≠ '\x00' := by rintro rfl; cases he
      split
      · rename_i s ds
        split
        · rename_i hs
          have hne' : s ≠ '\x00' := by rintro rfl; cases hs
          split
          · exact Nat.zero_le _
          · rename_i n hn
            have hdigits : digits Char.isDigit ds ≤ beforeNul ds := digits_le (by decide)
            simp [hne, hne']
            omega
        · split
          · exact Nat.zero_le _
          · rename_i n hn
            have hdigits : digits Char.isDigit (s :: ds) ≤ beforeNul (s :: ds) :=
              digits_le (by decide)
            rw [beforeNul_cons, if_neg hne]
            omega
      · exact Nat.zero_le _
    · exact Nat.zero_le _
  · exact Nat.zero_le _

theorem integerPart_le : integerPart cs ≤ beforeNul cs := by
  unfold integerPart
  split
  · rename_i c cs
    split
    · have hdigits : digits Char.isDigit (c :: cs) ≤ beforeNul (c :: cs) := digits_le (by decide)
      rw [beforeNul_cons, if_neg (by decide)]
      omega
    · simp
  · exact digits_le (by decide)

theorem based_le (lower upper : Char) (hlower : lower ≠ '\x00') (hupper : upper ≠ '\x00')
    (hp : p '\x00' = false) : based lower upper p cs ≤ beforeNul cs := by
  unfold based
  split
  · rename_i b cs
    split
    · rename_i hb
      have hne : b ≠ '\x00' := by
        rintro rfl
        rw [Bool.or_eq_true, beq_iff_eq, beq_iff_eq] at hb
        exact hb.elim hlower.symm hupper.symm
      split
      · exact Nat.zero_le _
      · rename_i n hn
        have hdigits : digits p cs ≤ beforeNul cs := digits_le hp
        simp [hne]
        omega
    · exact Nat.zero_le _
  · exact Nat.zero_le _

/-- A decimal number is a whole part, a point with digits, or both, and perhaps an exponent. -/
theorem decimal_le : decimal cs ≤ beforeNul cs := by
  unfold decimal
  split
  · rename_i ds
    have hdigits : digits Char.isDigit ds ≤ beforeNul ds := digits_le (by decide)
    split
    · exact Nat.zero_le _
    · rename_i n hn
      rw [hn] at hdigits
      have hrest : n + 1 + exponent (ds.drop (n + 1)) ≤ beforeNul ds :=
        add_le_beforeNul hdigits exponent_le
      simp
      omega
  · split
    · exact Nat.zero_le _
    · rename_i n hn
      have hwhole := hn.symm.trans_le integerPart_le
      split
      · rename_i ds hds
        have hdigits : digits Char.isDigit ds ≤ beforeNul ds := digits_le (by decide)
        have hrest := add_le_beforeNul hdigits exponent_le
        have hpoint : 1 + (digits Char.isDigit ds + exponent (ds.drop (digits Char.isDigit ds))) ≤
            beforeNul (cs.drop (n + 1)) := by
          rw [hds]
          simp
          omega
        have := add_le_beforeNul hwhole hpoint
        dsimp only
        omega
      · split
        · exact Nat.zero_le _
        · rename_i k hk
          rw [Nat.add_assoc]
          exact add_le_beforeNul hwhole (hk.symm.trans_le exponent_le)

/-- The longest way to read a number is still one of the ways to read it. -/
theorem number_le (h : number cs = some n) : n ≤ beforeNul cs := by
  have hwhole : ∀ m ∈ wholeNumbers cs, m ≤ beforeNul cs := by
    intro m hm
    simp only [wholeNumbers, List.mem_cons, List.not_mem_nil, or_false] at hm
    rcases hm with rfl | rfl | rfl | rfl
    · exact based_le _ _ (by decide) (by decide) (by decide)
    · exact based_le _ _ (by decide) (by decide) (by decide)
    · exact based_le _ _ (by decide) (by decide) (by decide)
    · exact digits_le (by decide)
  rw [number] at h
  refine positive_eq_some h ▸ ?_
  refine List.foldlRecOn (motive := (· ≤ beforeNul cs)) _ _ (Nat.zero_le _) fun m hm k hk => ?_
  refine Nat.max_le.2 ⟨hm, ?_⟩
  simp only [List.cons_append, List.mem_cons, List.mem_append, List.mem_map] at hk
  rcases hk with rfl | hk | ⟨k, hk, rfl⟩
  · exact decimal_le
  · exact hwhole k hk
  · split
    · rename_i hbig
      rw [Bool.and_eq_true, beq_iff_eq] at hbig
      exact succ_le_beforeNul (hwhole k hk) hbig.2 (by decide)
    · exact Nat.zero_le _

/-! ## Strings, comments and regular expressions -/

/-- No NUL character is escaped, and there is none among the digits of an escape. -/
theorem escape_le (h : escape cs = some n) : n ≤ beforeNul cs := by
  unfold escape at h
  split at h
  · rename_i c cs
    split at h
    · cases h
    rename_i hc
    rw [beq_iff_eq] at hc
    rw [beforeNul_cons, if_neg (by decide), beforeNul_cons, if_neg hc]
    split at h
    · split at h
      · rename_i hdigits
        have hrun : run isHexDigit (cs.take 2) ≤ beforeNul cs := run_take_le (by decide) 2
        cases h
        omega
      · cases h
    split at h
    · obtain ⟨m, hm, rfl⟩ := Option.map_eq_some_iff.1 h
      have hescape : nameEscape (c :: cs) ≤ beforeNul (c :: cs) := nameEscape_le
      rw [positive_eq_some hm, beforeNul_cons, if_neg hc] at hescape
      omega
    split at h
    · have hrun : run (fun d => '0' ≤ d && d ≤ '7') (cs.take 2) ≤ beforeNul cs :=
        run_take_le (by decide) 2
      cases h
      omega
    split at h
    · rename_i hline
      rw [Bool.and_eq_true] at hline
      cases h
      cases cs with
      | nil => cases hline.2
      | cons d cs =>
        have hne : d ≠ '\x00' := by rintro rfl; cases hline.2
        rw [beforeNul_cons, if_neg hne]
        omega
    · cases h
      omega
  · cases h

/-- A block comment without an end before the first NUL character is none. -/
theorem blockComment_le (h : blockComment cs = some n) : n ≤ beforeNul cs := by
  induction cs generalizing n with
  | nil => cases h
  | cons c cs ih =>
    unfold blockComment at h
    split at h
    · cases h
    · rename_i hcs
      obtain ⟨rfl, rfl⟩ := List.cons.inj hcs
      cases h
      simp
    · rename_i hcs
      obtain ⟨rfl, rfl⟩ := List.cons.inj hcs
      split at h
      · cases h
      · rename_i hc
        rw [beq_iff_eq] at hc
        obtain ⟨m, hm, rfl⟩ := Option.map_eq_some_iff.1 h
        rw [beforeNul_cons, if_neg hc]
        exact Nat.succ_le_succ (ih hm)

theorem comment_le (h : comment cs = some n) : n ≤ beforeNul cs := by
  unfold comment at h
  split at h
  · rename_i cs
    have hrun : run (fun c => !(c == '\r' || isLineEnd c || c == '\x00')) cs ≤ beforeNul cs :=
      run_le (by decide)
    cases h
    rw [beforeNul_cons, if_neg (by decide), beforeNul_cons, if_neg (by decide)]
    omega
  · obtain ⟨m, hm, rfl⟩ := Option.map_eq_some_iff.1 h
    have := blockComment_le hm
    simp
    omega
  · cases h

theorem characterClass_le (h : characterClass cs = some n) : n ≤ beforeNul cs := by
  fun_induction characterClass cs generalizing n with
  | case1 cs =>
    cases h
    simp
  | case2 => cases h
  | case3 c cs hc ih =>
    obtain ⟨m, hm, rfl⟩ := Option.map_eq_some_iff.1 h
    have := ih hm
    simp at hc
    simp [hc]
    omega
  | case4 => cases h
  | case5 c cs _ _ hc ih =>
    obtain ⟨m, hm, rfl⟩ := Option.map_eq_some_iff.1 h
    have := ih hm
    simp at hc
    simp [hc]
    omega
  | case6 => cases h

/-- Classes and escaped characters are taken as a whole. -/
theorem regexLength_le {taken : Nat} (h : taken ≤ beforeNul cs) :
    regexLength taken cs ≤ beforeNul cs := by
  induction cs generalizing taken with
  | nil => exact Nat.le_refl 0
  | cons c cs ih =>
    cases taken with
    | succ taken =>
      rw [beforeNul_cons] at h ⊢
      split at h
      · exact absurd h (Nat.not_succ_le_zero _)
      · rename_i hc
        rw [if_neg hc, regexLength]
        exact Nat.succ_le_succ (ih (Nat.le_of_succ_le_succ h))
    | zero =>
      unfold regexLength
      split
      · exact Nat.zero_le _
      rename_i hc
      have hne : c ≠ '\x00' := by rintro rfl; exact hc rfl
      rw [beforeNul_cons, if_neg hne]
      split
      · split
        · exact Nat.zero_le _
        · rename_i n hn
          exact Nat.succ_le_succ (ih (characterClass_le hn))
      split
      · split
        · rename_i d ds
          split
          · exact Nat.zero_le _
          · rename_i hd
            have hne' : d ≠ '\x00' := by rintro rfl; exact hd rfl
            refine Nat.succ_le_succ (ih ?_)
            rw [beforeNul_cons, if_neg hne']
            exact Nat.le_add_left 1 _
        · exact Nat.zero_le _
      · exact Nat.succ_le_succ (ih (Nat.zero_le _))

/-- The blanks behind the words count up to the last line end among them. -/
theorem staticGetter_le (h : staticGetter cs = some n) : n ≤ beforeNul cs := by
  unfold staticGetter at h
  split at h
  · rename_i rest
    have hblanks : run isSpace rest ≤ beforeNul rest := run_le (by decide)
    dsimp only at h
    split at h
    · rename_i rest' hrest'
      split at h
      · cases h
      · cases h
        -- The blanks behind the words are taken up to the last line end among them.
        have hwords := congrArg beforeNul hrest'
        rw [beforeNul_drop hblanks] at hwords
        have hmore : run isSpace rest' ≤ beforeNul rest' := run_le (by decide)
        have hline := (List.dropWhile_sublist (· != '\n')
          (l := (rest'.take (run isSpace rest')).reverse)).length_le
        rw [List.length_reverse, List.length_take] at hline
        simp at hwords ⊢
        omega
    · cases h
  · cases h

/-! ## Markup -/

/-- The semicolon that ends a reference is no NUL character. -/
theorem succ_le_of_closed {most k m : Nat} (hn : n ≤ beforeNul cs)
    (h : (if 0 < n && n ≤ most && (cs.drop n).head? == some ';' then some k else none) = some m) :
    m = k ∧ n + 1 ≤ beforeNul cs := by
  split at h
  · rename_i hclosed
    rw [Bool.and_eq_true, beq_iff_eq] at hclosed
    exact ⟨(Option.some.inj h).symm, succ_le_beforeNul hn hclosed.2 (by decide)⟩
  · cases h

theorem characterReference_le (h : characterReference cs = some n) : n ≤ beforeNul cs := by
  unfold characterReference at h
  split at h
  · rename_i x cs
    rw [beforeNul_cons, if_neg (by decide), beforeNul_cons, if_neg (by decide)]
    dsimp only at h
    by_cases hx : (x == 'x' || x == 'X') = true
    · rw [if_pos hx] at h
      dsimp only at h
      rw [if_pos rfl] at h
      obtain ⟨rfl, hclosed⟩ := succ_le_of_closed (run_le (by decide)) h
      rw [beforeNul_cons, if_neg (by rintro rfl; cases hx)]
      omega
    · rw [if_neg hx] at h
      dsimp only at h
      rw [if_neg (show ¬ 2 = 3 by decide)] at h
      obtain ⟨rfl, hclosed⟩ := succ_le_of_closed (run_le (by decide)) h
      omega
  · obtain ⟨rfl, hclosed⟩ := succ_le_of_closed (run_le (by decide)) h
    rw [beforeNul_cons, if_neg (by decide)]
    omega
  · cases h

theorem attributeText_le (quote : Char) : attributeText quote cs ≤ beforeNul cs := by
  fun_induction attributeText quote cs with
  | case1 => exact Nat.zero_le _
  | case2 c cs hc ih =>
    simp at hc
    simp [hc]
    omega
  | case3 => exact Nat.zero_le _
  | case4 c cs _ hc ih =>
    simp at hc
    simp [hc]
    omega
  | case5 => exact Nat.zero_le _

theorem stringText_le (quote : Char) : stringText quote cs ≤ beforeNul cs :=
  run_le (by simp)

/-- **No lexeme goes beyond a NUL character.** -/
theorem LexClass.lexeme?_le (c : LexClass) (h : c.lexeme? cs = some n) : n ≤ beforeNul cs := by
  cases c with
  | identifier => exact identifier_le h
  | privateName => exact privateName_le h
  | number => exact number_le h
  | escape => exact escape_le h
  | comment => exact comment_le h
  | staticGetter => exact staticGetter_le h
  | dashedName => exact dashedName_le h
  | characterReference => exact characterReference_le h
  | doubleFragment | singleFragment => exact positive_eq_some h ▸ stringText_le _
  | doubleMarkupFragment | singleMarkupFragment => exact positive_eq_some h ▸ attributeText_le _
  | regexBody => exact positive_eq_some h ▸ regexLength_le (Nat.zero_le _)
  | regexFlags => exact positive_eq_some h ▸ run_le (by decide)
  | hashBang =>
    unfold LexClass.lexeme? at h
    dsimp only at h
    split at h
    · rename_i rest
      have hrun : run (fun c => !(c == '\n' || c == '\x00')) rest ≤ beforeNul rest :=
        run_le (by decide)
      cases h
      rw [beforeNul_cons, if_neg (by decide), beforeNul_cons, if_neg (by decide)]
      omega
    · cases h
  | regexClose =>
    unfold LexClass.lexeme? at h
    dsimp only at h
    split at h
    · rename_i hslash
      cases h
      exact succ_le_beforeNul (Nat.zero_le _) (beq_iff_eq.1 hslash) (by decide)
    · cases h
  | automaticSemicolon | signatureSemicolon | templateFragment | ternaryMark | htmlComment
  | markupText => cases h

end RefGraph.Script
