/-!
# Texts

Operations on texts, taken as lists of characters, that several modules share.

* `trimChars`, `trimEndChars`: a text without the white space around it.
* `dropBeginning?`, `dropEnding?`: what is left of a text that begins or ends in a given way.
* `splitAtChar`: the parts of a text between separators.
* `hexValue?`: the value of a hexadecimal digit.
* `utf8Length`, `columnOf`: lengths in bytes.
-/

namespace RefGraph

/-- The white space of Unicode. -/
def isWhite (c : Char) : Bool :=
  c == ' ' || ('\t' ≤ c && c ≤ '\r') || c == '\u0085' || c == '\u00a0' || c == '\u1680' ||
    ('\u2000' ≤ c && c ≤ '\u200a') || c == '\u2028' || c == '\u2029' || c == '\u202f' ||
    c == '\u205f' || c == '\u3000'

/-- A text without white space at its end. -/
def trimEndChars (cs : List Char) : List Char := (cs.reverse.dropWhile isWhite).reverse

/-- A text without white space at its ends. -/
def trimChars (cs : List Char) : List Char := trimEndChars (cs.dropWhile isWhite)

/-- What is left of a text behind a beginning, if it begins so. -/
def dropBeginning? (beginning cs : List Char) : Option (List Char) :=
  if beginning.isPrefixOf cs then some (cs.drop beginning.length) else none

/-- What is left of a text before an ending, if it ends so. -/
def dropEnding? (ending cs : List Char) : Option (List Char) :=
  if ending.isSuffixOf cs then some (cs.take (cs.length - ending.length)) else none

/-- A beginning is dropped just from the texts that begin with it. -/
theorem dropBeginning?_eq_some_iff {beginning cs rest : List Char} :
    dropBeginning? beginning cs = some rest ↔ cs = beginning ++ rest := by
  rw [dropBeginning?]
  constructor
  · intro h
    split at h
    · rename_i hp
      obtain ⟨t, rfl⟩ := List.isPrefixOf_iff_prefix.1 hp
      rw [List.drop_left] at h
      rw [Option.some.inj h]
    · cases h
  · rintro rfl
    rw [if_pos (List.isPrefixOf_iff_prefix.2 (List.prefix_append ..)), List.drop_left]

theorem dropBeginning?_eq_none_iff {beginning cs : List Char} :
    dropBeginning? beginning cs = none ↔ ¬ beginning <+: cs := by
  rw [dropBeginning?]
  split
  · rename_i h
    simpa using List.isPrefixOf_iff_prefix.1 h
  · rename_i h
    simpa using mt List.isPrefixOf_iff_prefix.2 h

/-- An ending is dropped just from the texts that end with it. -/
theorem dropEnding?_eq_some_iff {ending cs rest : List Char} :
    dropEnding? ending cs = some rest ↔ cs = rest ++ ending := by
  rw [dropEnding?]
  constructor
  · intro h
    split at h
    · rename_i hs
      obtain ⟨t, rfl⟩ := List.isSuffixOf_iff_suffix.1 hs
      rw [List.length_append, Nat.add_sub_cancel, List.take_left] at h
      rw [Option.some.inj h]
    · cases h
  · rintro rfl
    rw [if_pos (List.isSuffixOf_iff_suffix.2 (List.suffix_append ..)), List.length_append,
      Nat.add_sub_cancel, List.take_left]

theorem trimEndChars_eq_self {cs : List Char} {c : Char} (h : cs.getLast? = some c)
    (hc : isWhite c = false) : trimEndChars cs = cs := by
  obtain ⟨ds, rfl⟩ := List.getLast?_eq_some_iff.1 h
  rw [trimEndChars, List.reverse_concat, List.dropWhile_cons_of_neg (by simp [hc]),
    List.reverse_cons, List.reverse_reverse]

/-- Trimming leaves a beginning of the text. -/
theorem trimEndChars_prefix (cs : List Char) : trimEndChars cs <+: cs := by
  rw [trimEndChars, ← List.reverse_suffix, List.reverse_reverse]
  exact List.dropWhile_suffix _

/-- White space at the end of a text makes no difference when it is trimmed. -/
theorem trimEndChars_append {white : List Char} (h : ∀ c ∈ white, isWhite c = true)
    (cs : List Char) : trimEndChars (cs ++ white) = trimEndChars cs := by
  rw [trimEndChars, trimEndChars, List.reverse_append,
    List.dropWhile_append_of_pos fun c hc => h c (List.mem_reverse.1 hc)]

/-- A text begins as before when it is trimmed, unless it begins with white space. -/
theorem head?_trimEndChars {c : Char} (hc : isWhite c = false) (cs : List Char) :
    (trimEndChars (c :: cs)).head? = some c := by
  rw [trimEndChars, List.reverse_cons, List.dropWhile_append]
  split
  · rw [List.dropWhile_cons_of_neg (by simp [hc])]
    rfl
  · rw [List.reverse_append]
    rfl

/-- A text without white space at its end does not end with any. -/
theorem exists_getLast?_eq {text cs : List Char} (hne : cs ≠ []) (h : cs <:+ trimEndChars text) :
    ∃ c, cs.getLast? = some c ∧ isWhite c = false := by
  obtain ⟨c, hc⟩ := Option.ne_none_iff_exists'.1 (mt List.getLast?_eq_none_iff.1 hne)
  refine ⟨c, hc, ?_⟩
  obtain ⟨as, rfl⟩ := List.getLast?_eq_some_iff.1 hc
  obtain ⟨before, hbefore⟩ := h
  have hdrop : (text.reverse.dropWhile isWhite).head? = some c := by
    rw [← List.getLast?_reverse, ← trimEndChars, ← hbefore, ← List.append_assoc,
      List.getLast?_concat]
  have hnot := List.head?_dropWhile_not isWhite text.reverse
  rw [hdrop] at hnot
  exact hnot

/-- The parts of a text between the occurrences of a character. -/
def splitAtChar (separator : Char) : List Char → List (List Char)
  | [] => [[]]
  | c :: cs =>
    if c = separator then [] :: splitAtChar separator cs
    else
      match splitAtChar separator cs with
      | [] => [[c]]
      | part :: parts => (c :: part) :: parts

/-- There is always a part, be it an empty one. -/
theorem splitAtChar_ne_nil (separator : Char) (cs : List Char) :
    splitAtChar separator cs ≠ [] := by
  cases cs with
  | nil => simp [splitAtChar]
  | cons c cs =>
    unfold splitAtChar
    split
    · simp
    · split <;> simp

theorem splitAtChar_eq_singleton {separator : Char} {cs : List Char} (h : separator ∉ cs) :
    splitAtChar separator cs = [cs] := by
  induction cs with
  | nil => rfl
  | cons c cs ih =>
    rw [List.mem_cons, not_or] at h
    rw [splitAtChar, if_neg (Ne.symm h.1), ih h.2]

/-- The parts of two texts with a separator between them. -/
theorem splitAtChar_append (separator : Char) (as bs : List Char) :
    splitAtChar separator (as ++ separator :: bs) =
      splitAtChar separator as ++ splitAtChar separator bs := by
  induction as with
  | nil => simp [splitAtChar]
  | cons a as ih =>
    rw [List.cons_append, splitAtChar, splitAtChar, ih]
    split
    · rfl
    · cases hs : splitAtChar separator as with
      | nil => exact absurd hs (splitAtChar_ne_nil separator as)
      | cons part parts => rfl

/-- No part holds the separator. -/
theorem not_mem_of_mem_splitAtChar {separator : Char} {cs part : List Char}
    (h : part ∈ splitAtChar separator cs) : separator ∉ part := by
  induction cs generalizing part with
  | nil => simp_all [splitAtChar]
  | cons c cs ih =>
    unfold splitAtChar at h
    split at h
    · rcases List.mem_cons.1 h with rfl | h
      · simp
      · exact ih h
    · rename_i hc
      cases hs : splitAtChar separator cs with
      | nil => exact absurd hs (splitAtChar_ne_nil separator cs)
      | cons q qs =>
        rw [hs] at h
        rcases List.mem_cons.1 h with rfl | h
        · have hq : separator ∉ q := ih (by simp [hs])
          simp [hq, Ne.symm hc]
        · exact ih (by simp [hs, h])

/-- The value of a hexadecimal digit. -/
def hexValue? (c : Char) : Option Nat :=
  if '0' ≤ c ∧ c ≤ '9' then some (c.toNat - '0'.toNat)
  else if 'a' ≤ c ∧ c ≤ 'f' then some (c.toNat - 'a'.toNat + 10)
  else if 'A' ≤ c ∧ c ≤ 'F' then some (c.toNat - 'A'.toNat + 10)
  else none

/-- The number of bytes of a text. -/
def utf8Length : List Char → Nat
  | [] => 0
  | c :: cs => c.utf8Size + utf8Length cs

/-- The bytes of two texts add up. -/
theorem utf8Length_append (as bs : List Char) :
    utf8Length (as ++ bs) = utf8Length as + utf8Length bs := by
  induction as with
  | nil => simp [utf8Length]
  | cons c cs ih => simp [utf8Length, ih, Nat.add_assoc]

/-- A text of `n` equal characters has `n` times the bytes of one. -/
theorem utf8Length_replicate (n : Nat) (c : Char) :
    utf8Length (List.replicate n c) = n * c.utf8Size := by
  induction n with
  | zero => simp [utf8Length]
  | succ n ih => simp [utf8Length, List.replicate_succ, ih, Nat.succ_mul, Nat.add_comm]

/-- The number of bytes behind the last line break of a text. -/
def columnOf (cs : List Char) : Nat := utf8Length (cs.reverse.takeWhile (· ≠ '\n'))

end RefGraph
