import RefGraph.Json.Reading
import RefGraph.Json.Value

/-!
# Reading what was written

A document that was written reads back as what it was written for, wherever it stands: white space
may come before it, and whatever follows is left alone as long as it does not go on with a number.

* `Json.Reads`: a reader takes a document for a value.
* `Json.reads_text`, `Json.reads_natural`, `Json.reads_boolean`, `Json.reads_word`: simple values.
* `Json.Reads.optional`, `Json.reads_list`: values that may be null, and arrays.
* `Json.Yields`: what holds of everything that a reader gives back.
-/

namespace RefGraph.Json

/-! ## Where a document stands -/

/-- A text does not begin with what would go on with a number. -/
def Stops (cs : List Char) : Prop :=
  ∀ c ∈ cs.head?, c.isDigit = false ∧ c ≠ '.' ∧ c ≠ 'e' ∧ c ≠ 'E'

/-- A reader takes a document for a value, whatever white space stands before the document, and
leaves what follows it. -/
def Reads {α : Type} (read : Reader α) (j : Json) (x : α) : Prop :=
  ∀ (indent : Nat) (before rest : List Char), (∀ c ∈ before, isBlank c = true) → Stops rest →
    read (before ++ j.render indent ++ rest) = .ok (x, rest)

/-- A text that begins with no digit, point or exponent does not go on with a number. -/
theorem stops_cons {c : Char} {cs : List Char}
    (h : c.isDigit = false ∧ c ≠ '.' ∧ c ≠ 'e' ∧ c ≠ 'E') : Stops (c :: cs) := by
  intro d hd
  rw [List.head?_cons, Option.mem_some] at hd
  rwa [← hd]

/-- The white space before something else is skipped. -/
theorem skipBlank_append {before cs : List Char} {c : Char}
    (hbefore : ∀ b ∈ before, isBlank b = true) (hc : isBlank c = false) :
    skipBlank (before ++ c :: cs) = c :: cs := by
  rw [skipBlank, List.dropWhile_append_of_pos hbefore,
    List.dropWhile_cons_of_neg (by simp [hc])]

theorem skipBlank_cons {c : Char} {cs : List Char} (hc : isBlank c = false) :
    skipBlank (c :: cs) = c :: cs := by
  rw [skipBlank, List.dropWhile_cons_of_neg (by simp [hc])]

theorem isBlank_of_mem_lineBreak {indent : Nat} {c : Char} (h : c ∈ lineBreak indent) :
    isBlank c = true := by
  rcases List.mem_cons.1 h with rfl | h
  · rfl
  · rw [List.eq_of_mem_replicate h]
    rfl

theorem stops_lineBreak (indent : Nat) (cs : List Char) : Stops (lineBreak indent ++ cs) :=
  stops_cons (by decide)

/-! ## Texts -/

/-- The letter of a short escape stands for the character that was escaped, and is not `u`. -/
theorem unescape?_of_shortEscape? {c e : Char} (h : shortEscape? c = some e) :
    e ≠ 'u' ∧ unescape? e = some c := by
  unfold shortEscape? at h
  repeat' split at h
  all_goals cases h
  all_goals
    rename_i hc
    rw [hc]
    decide

theorem hexValue?_hexDigit : ∀ n < 16, hexValue? (hexDigit n) = some n := by decide

/-- A character that is written by its number reads back. -/
theorem readTextFrom_control {c : Char} (h : c < ' ') (read cs : List Char) :
    readTextFrom true .plain read
      (['\\', 'u', '0', '0', hexDigit (c.toNat / 16), hexDigit (c.toNat % 16)] ++ cs) =
      readTextFrom true .plain (c :: read) cs := by
  have hlt : c.toNat < 32 := h
  have hhigh := hexValue?_hexDigit (c.toNat / 16) (by omega)
  have hlow := hexValue?_hexDigit (c.toNat % 16) (by omega)
  have hzero : hexValue? '0' = some 0 := by decide
  have hvalue : 16 * (c.toNat / 16) + c.toNat % 16 = c.toNat := Nat.div_add_mod ..
  have hfinish : finishHex c.toNat none = .ok (.inl c) := by
    rw [finishHex, if_neg (by omega), if_neg (by omega), Char.ofNat_toNat]
  simp [readTextFrom, hzero, hhigh, hlow, hvalue, hfinish]

/-- A character that was written reads back. -/
theorem readTextFrom_escapedChar (c : Char) (read cs : List Char) :
    readTextFrom true .plain read (escapedChar c ++ cs) =
      readTextFrom true .plain (c :: read) cs := by
  unfold escapedChar
  split
  · rename_i e he
    obtain ⟨hu, hunescape⟩ := unescape?_of_shortEscape? he
    simp [readTextFrom, hu, hunescape]
  · rename_i hnone
    split
    · rename_i hc
      exact readTextFrom_control hc read cs
    · rename_i hc
      have hquote : c ≠ '"' := by
        rintro rfl
        cases hnone
      have hbackslash : c ≠ '\\' := by
        rintro rfl
        cases hnone
      rw [List.singleton_append, readTextFrom, if_neg hquote, if_neg hbackslash, if_neg hc]

/-- A text that was written reads back behind its first quote. -/
theorem readTextFrom_quoted (s : String) (rest : List Char) :
    readTextFrom true .plain [] (s.toList.flatMap escapedChar ++ '"' :: rest) = .ok (s, rest) := by
  -- By induction on the text, for everything that may have been read before.
  have hread : ∀ cs read : List Char,
      readTextFrom true .plain read (cs.flatMap escapedChar ++ '"' :: rest) =
        .ok (String.ofList (read.reverse ++ cs), rest) := by
    intro cs
    induction cs with
    | nil => intro read; simp [readTextFrom]
    | cons c cs ih =>
      intro read
      rw [List.flatMap_cons, List.append_assoc, readTextFrom_escapedChar, ih,
        List.reverse_cons, List.append_assoc, List.singleton_append]
  rw [hread, List.reverse_nil, List.nil_append, String.ofList_toList]

/-- Texts read back. -/
theorem reads_text (expected s : String) : Reads (readText expected) (.text s) s := by
  intro indent before rest hbefore _
  rw [render, quotedText, List.append_assoc, List.append_assoc, List.cons_append, readText,
    skipBlank_append hbefore (by decide)]
  exact readTextFrom_quoted s rest

/-! ## Numbers -/

/-- Digits are at least what they are appended to. -/
theorem le_ofDigitChars (n : Nat) (cs : List Char) : n ≤ Nat.ofDigitChars 10 cs n := by
  rw [Nat.ofDigitChars_eq_ofDigitChars_zero]
  exact Nat.le_trans (Nat.le_mul_of_pos_left n (Nat.pow_pos (by decide))) (Nat.le_add_right ..)

/-- All digits of a number that fits are taken. -/
theorem absorbDigits_append (ds : List Char) {rest : List Char} (n : Nat)
    (hds : ∀ d ∈ ds, d.isDigit = true) (hrest : Stops rest)
    (h : Nat.ofDigitChars 10 ds n ≤ maxWord) :
    absorbDigits n (ds ++ rest) = (Nat.ofDigitChars 10 ds n, ds.length, rest) := by
  induction ds generalizing n with
  | nil =>
    rw [List.nil_append, Nat.ofDigitChars_nil]
    cases rest with
    | nil => rfl
    | cons c cs =>
      have hc := (hrest c rfl).1
      simp [absorbDigits, hc]
  | cons d ds ih =>
    rw [Nat.ofDigitChars_cons] at h
    have hle : 10 * n + digitValue d ≤ maxWord := Nat.le_trans (le_ofDigitChars ..) h
    have habsorb := ih (10 * n + digitValue d) (fun x hx => hds x (List.mem_cons_of_mem _ hx)) h
    rw [List.cons_append, absorbDigits, if_pos ⟨hds d (by simp), hle⟩, habsorb,
      Nat.ofDigitChars_cons]
    rfl

/-- Only zero is written with a zero at its beginning. -/
theorem eq_zero_of_toDigits_eq {n : Nat} {cs : List Char} (h : Nat.toDigits 10 n = '0' :: cs) :
    n = 0 := by
  induction n using Nat.strongRecOn generalizing cs with
  | ind n ih =>
    rcases Nat.lt_or_ge n 10 with hlt | hge
    · rw [Nat.toDigits_of_lt_base hlt, List.cons.injEq] at h
      exact Nat.digitChar_eq_zero.1 h.1
    · rw [Nat.toDigits_of_base_le (by decide) hge] at h
      cases hd : Nat.toDigits 10 (n / 10) with
      | nil => exact absurd hd Nat.toDigits_ne_nil
      | cons d ds =>
        rw [hd, List.cons_append, List.cons.injEq] at h
        have := ih (n / 10) (by omega) (h.1 ▸ hd)
        omega

theorem isDigit_of_toDigits_eq {n : Nat} {c : Char} {cs : List Char}
    (h : Nat.toDigits 10 n = c :: cs) : c.isDigit = true :=
  Nat.isDigit_of_mem_toDigits (b := 10) (n := n) (by decide) (by decide) (by simp [h])

/-- The digits of a number read back. -/
theorem readNumber_toDigits {n : Nat} {rest : List Char} (hn : n ≤ maxWord) (hrest : Stops rest) :
    readNumber false (Nat.toDigits 10 n ++ rest) = .ok (.natural n, rest) := by
  have habsorb : absorbDigits 0 (Nat.toDigits 10 n ++ rest) =
      (n, (Nat.toDigits 10 n).length, rest) := by
    have h := absorbDigits_append (Nat.toDigits 10 n) 0
      (fun d => Nat.isDigit_of_mem_toDigits (by decide) (by decide)) hrest
      (by rwa [Nat.ofDigitChars_ten_toDigits])
    rwa [Nat.ofDigitChars_ten_toDigits] at h
  cases hds : Nat.toDigits 10 n with
  | nil => exact absurd hds Nat.toDigits_ne_nil
  | cons c cs =>
    have hdigit := isDigit_of_toDigits_eq hds
    have hfirst : ¬ ((!c.isDigit) = true ∨ (c = '0' ∧ beginsWithDigit (cs ++ rest) = true)) := by
      rintro (hc | ⟨rfl, hc⟩)
      · simp [hdigit] at hc
      · have hzero := eq_zero_of_toDigits_eq hds
        rw [hzero, Nat.toDigits_zero, List.cons.injEq] at hds
        rw [← hds.2, List.nil_append, beginsWithDigit] at hc
        cases rest with
        | nil => cases hc
        | cons r rs =>
          have hr := (hrest r rfl).1
          simp [hr] at hc
    -- Nothing behind the digits goes on with the number: no digit, no fraction and no exponent.
    rw [hds] at habsorb
    rw [List.cons_append] at habsorb ⊢
    rw [readNumber, if_neg hfirst, habsorb]
    have hmore : (rest.takeWhile Char.isDigit).length = 0 := by
      cases rest with
      | nil => rfl
      | cons r rs =>
        have hr := (hrest r rfl).1
        simp [hr]
    simp only [hmore, List.drop_zero]
    split
    · exact absurd rfl (hrest '.' rfl).2.1
    · exact absurd rfl (hrest 'e' rfl).2.2.1
    · exact absurd rfl (hrest 'E' rfl).2.2.2
    · rfl

theorem isBlank_of_isDigit {c : Char} (h : c.isDigit = true) : isBlank c = false := by
  rw [isBlank]
  simp only [Bool.or_eq_false_iff, beq_eq_false_iff_ne]
  refine ⟨⟨⟨?_, ?_⟩, ?_⟩, ?_⟩ <;>
  · rintro rfl
    exact absurd h (by decide)

/-- Numbers read back up to the limit of the reader. -/
theorem reads_natural {limit n : Nat} (expected : String) (hn : n ≤ limit)
    (hlimit : limit ≤ maxWord) : Reads (readNatural limit expected) (.natural n) n := by
  intro indent before rest hbefore hrest
  rw [render, List.append_assoc]
  cases hds : Nat.toDigits 10 n with
  | nil => exact absurd hds Nat.toDigits_ne_nil
  | cons c cs =>
    have hdigit := isDigit_of_toDigits_eq hds
    have hsign : c ≠ '-' := by
      rintro rfl
      exact absurd hdigit (by decide)
    have hread := readNumber_toDigits (Nat.le_trans hn hlimit) hrest
    rw [hds, List.cons_append] at hread
    rw [List.cons_append, readNatural, skipBlank_append hbefore (isBlank_of_isDigit hdigit)]
    simp only [if_neg hsign, if_pos hdigit, hread, naturalOf, if_pos hn]
    rfl

/-! ## Words -/

theorem reads_boolean (b : Bool) : Reads readBoolean (.boolean b) b := by
  intro indent before rest hbefore _
  cases b <;>
  · rw [render, readBoolean, List.append_assoc]
    simp only [Bool.false_eq_true, if_true, if_false, List.cons_append]
    rw [skipBlank_append hbefore (by decide)]
    rfl

/-- A word reads back as what it stands for. -/
theorem reads_word {α : Type} {words : List (String × α)} {word : String} {x : α}
    (h : valueOfWord words word = .ok x) : Reads (readWord words) (.text word) x := by
  intro indent before rest hbefore _
  rw [render, quotedText, List.append_assoc, List.append_assoc, List.cons_append, readWord,
    skipBlank_append hbefore (by decide)]
  simp only [List.singleton_append, readTextFrom_quoted, h]
  rfl

/-! ## Values that may be null, and arrays -/

/-- How a document begins: not with white space, with the end of an array, or like null. -/
theorem exists_render_eq_cons (indent : Nat) (j : Json) :
    ∃ c cs, j.render indent = c :: cs ∧ isBlank c = false ∧ c ≠ ']' ∧ c ≠ 'n' := by
  match j with
  | .boolean true => exact ⟨'t', ['r', 'u', 'e'], rfl, by decide⟩
  | .boolean false => exact ⟨'f', ['a', 'l', 's', 'e'], rfl, by decide⟩
  | .natural n =>
    cases hds : Nat.toDigits 10 n with
    | nil => exact absurd hds Nat.toDigits_ne_nil
    | cons c cs =>
      have hdigit := isDigit_of_toDigits_eq hds
      refine ⟨c, cs, by rw [render, hds], isBlank_of_isDigit hdigit, ?_, ?_⟩ <;>
      · rintro rfl
        exact absurd hdigit (by decide)
  | .text s => exact ⟨'"', _, by rw [render, quotedText]; rfl, by decide⟩
  | .array [] => exact ⟨'[', [']'], by rw [render], by decide⟩
  | .array (x :: xs) => exact ⟨'[', _, by rw [render]; rfl, by decide⟩
  | .object [] => exact ⟨'{', ['}'], by rw [render], by decide⟩
  | .object ((name, x) :: ms) => exact ⟨'{', _, by rw [render]; rfl, by decide⟩

/-- What reads back may also be read where null is allowed. -/
theorem Reads.optional {α : Type} {read : Reader α} {j : Json} {x : α} (h : Reads read j x) :
    Reads (readOptional read) j (some x) := by
  intro indent before rest hbefore hrest
  obtain ⟨c, cs, hj, hblank, -, hn⟩ := exists_render_eq_cons indent j
  have hread := h indent [] rest (by simp) hrest
  rw [hj, List.nil_append, List.cons_append] at hread
  rw [hj, List.append_assoc, List.cons_append, readOptional, skipBlank_append hbefore hblank]
  split
  · rename_i heq
    exact absurd (List.cons.inj heq).1 hn
  · rw [hread]
    rfl

/-- The items of an array begin behind its bracket. -/
theorem readNext_first {before cs : List Char} {c : Char}
    (hbefore : ∀ b ∈ before, isBlank b = true) (hc : isBlank c = false) (hclose : c ≠ ']') :
    readNext true (before ++ c :: cs) = .ok (true, c :: cs) := by
  rw [readNext, skipBlank_append hbefore hc]
  split
  · rename_i heq
    cases heq
  · rename_i heq
    exact absurd (List.cons.inj heq).1 hclose
  · rename_i heq
    rw [if_pos rfl, heq]

/-- An item follows a comma. -/
theorem readNext_comma {before cs : List Char} {c : Char}
    (hbefore : ∀ b ∈ before, isBlank b = true) (hc : isBlank c = false) (hclose : c ≠ ']') :
    readNext false (',' :: (before ++ c :: cs)) = .ok (true, c :: cs) := by
  rw [readNext, skipBlank_cons (by decide)]
  split
  case h_1 heq => cases heq
  case h_2 heq => cases heq
  case h_3 heq =>
    cases heq
    rw [if_neg Bool.false_ne_true, if_pos rfl, skipBlank_append hbefore hc]
    split
    case h_1 heq => cases heq
    case h_2 heq => exact absurd (List.cons.inj heq).1 hclose
    case h_3 => rfl

/-- No item follows before the bracket. -/
theorem readNext_close {before : List Char} (first : Bool) (rest : List Char)
    (hbefore : ∀ b ∈ before, isBlank b = true) :
    readNext first (before ++ ']' :: rest) = .ok (false, ']' :: rest) := by
  rw [readNext, skipBlank_append hbefore (by decide)]
  rfl

/-- Behind a number come the other items of an array or a line break, which do not go on with it. -/
theorem stops_renderItems (indent outer : Nat) (js : List Json) (rest : List Char) :
    Stops (renderItems indent js ++ (lineBreak outer ++ rest)) := by
  cases js with
  | nil =>
    rw [renderItems]
    exact stops_lineBreak outer rest
  | cons j js =>
    rw [renderItems]
    exact stops_cons (by decide)

/-- An array has no more items than characters, so that the fuel of its reader is enough. -/
theorem length_le_length_renderItems (indent : Nat) (js : List Json) :
    js.length ≤ (renderItems indent js).length := by
  induction js with
  | nil => exact Nat.zero_le _
  | cons j js ih =>
    rw [renderItems]
    simp only [List.length_cons, List.length_append]
    omega

/-- The items of an array that was written read back, from the second one on. -/
theorem readItems_renderItems {α : Type} {read : Reader α} {write : α → Json} {xs : List α}
    (h : ∀ x ∈ xs, Reads read (write x) x) (indent outer fuel : Nat) (items : List α)
    (rest : List Char) (hfuel : xs.length < fuel) :
    readItems read fuel false items
      (renderItems indent (xs.map write) ++ (lineBreak outer ++ ']' :: rest)) =
      .ok (items.reverse ++ xs, ']' :: rest) := by
  induction xs generalizing fuel items with
  | nil =>
    obtain ⟨fuel, rfl⟩ := Nat.exists_eq_succ_of_ne_zero (Nat.ne_zero_of_lt hfuel)
    rw [List.map_nil, renderItems, List.nil_append, readItems,
      readNext_close false rest fun c => isBlank_of_mem_lineBreak, List.append_nil]
  | cons x xs ih =>
    obtain ⟨fuel, rfl⟩ := Nat.exists_eq_succ_of_ne_zero (Nat.ne_zero_of_lt hfuel)
    obtain ⟨c, cs, hj, hblank, hclose, -⟩ := exists_render_eq_cons indent (write x)
    have hread := h x (by simp) indent [] _ (by simp)
      (stops_renderItems indent outer (xs.map write) (']' :: rest))
    rw [hj, List.nil_append, List.cons_append] at hread
    rw [List.map_cons, renderItems, hj]
    simp only [List.cons_append, List.append_assoc]
    rw [readItems, readNext_comma (fun c => isBlank_of_mem_lineBreak) hblank hclose]
    simp only [hread]
    rw [ih (fun y hy => h y (List.mem_cons_of_mem _ hy)) fuel (x :: items)
      (Nat.lt_of_succ_lt_succ hfuel), List.reverse_cons, List.append_assoc, List.singleton_append]

/-- An array is read if its items are. -/
theorem readList_of_readItems {α : Type} {read : Reader α} {cs items rest : List Char}
    {xs : List α} (hcs : skipBlank cs = '[' :: items)
    (h : readItems read items.length true [] items = .ok (xs, ']' :: rest)) :
    readList read cs = .ok (xs, rest) := by
  rw [readList, hcs]
  split
  case h_1 heq => cases heq
  case h_2 heq =>
    cases heq
    rw [h]
    rfl
  case h_3 hne => exact absurd rfl (hne items)

/-- An array that was written reads back, if its items do. -/
theorem reads_list {α : Type} {read : Reader α} {write : α → Json} {xs : List α}
    (h : ∀ x ∈ xs, Reads read (write x) x) :
    Reads (readList read) (.array (xs.map write)) xs := by
  intro indent before rest hbefore _
  rw [List.append_assoc]
  cases xs with
  | nil =>
    rw [List.map_nil, render, List.cons_append, List.singleton_append]
    refine readList_of_readItems (skipBlank_append hbefore (by decide)) ?_
    rw [List.length_cons, readItems, ← List.nil_append (']' :: rest),
      readNext_close true rest (by simp)]
    rfl
  | cons x xs =>
    obtain ⟨c, cs, hj, hblank, hclose, -⟩ := exists_render_eq_cons (indent + 1) (write x)
    have hread := h x (by simp) (indent + 1) [] _ (by simp)
      (stops_renderItems (indent + 1) indent (xs.map write) (']' :: rest))
    rw [hj, List.nil_append, List.cons_append] at hread
    have hitems : ∀ fuel, xs.length + 1 < fuel → readItems read fuel true []
        (lineBreak (indent + 1) ++ c :: (cs ++
          (renderItems (indent + 1) (xs.map write) ++ (lineBreak indent ++ ']' :: rest)))) =
        .ok (x :: xs, ']' :: rest) := by
      intro fuel hfuel
      obtain ⟨fuel, rfl⟩ := Nat.exists_eq_succ_of_ne_zero (Nat.ne_zero_of_lt hfuel)
      rw [readItems, readNext_first (fun c => isBlank_of_mem_lineBreak) hblank hclose]
      simp only [hread]
      exact readItems_renderItems (fun y hy => h y (List.mem_cons_of_mem _ hy)) _ _ _ _ _
        (Nat.lt_of_succ_lt_succ hfuel)
    -- The length of the text, which bounds the reading, is more than the number of items.
    have hlength := length_le_length_renderItems (indent + 1) (xs.map write)
    rw [List.length_map] at hlength
    rw [List.map_cons, render, hj]
    simp only [List.cons_append, List.append_assoc, List.nil_append]
    refine readList_of_readItems (skipBlank_append hbefore (by decide)) (hitems _ ?_)
    simp only [List.length_append, List.length_cons]
    omega

/-! ## What readers give back -/

theorem exists_of_map_eq_ok {ε α β : Type} {f : α → β} {e : Except ε α} {y : β}
    (h : e.map f = .ok y) : ∃ x, e = .ok x ∧ f x = y := by
  cases e with
  | error e => cases h
  | ok x => exact ⟨x, rfl, Except.ok.inj h⟩

/-- Everything that a reader gives back has a property. -/
def Yields {α : Type} (read : Reader α) (p : α → Prop) : Prop :=
  ∀ cs x rest, read cs = .ok (x, rest) → p x

theorem yields_any {α : Type} {read : Reader α} : Yields read fun _ => True :=
  fun _ _ _ _ => trivial

theorem le_of_naturalOf {limit n : Nat} {expected : String} {number : Number}
    (h : naturalOf limit expected number = .ok n) : n ≤ limit := by
  cases number with
  | natural m =>
    rw [naturalOf] at h
    split at h
    · rename_i hm
      rwa [← Except.ok.inj h]
    · cases h
  | negative m => cases h
  | decimal shown => cases h

/-- A reader of numbers keeps to its limit. -/
theorem yields_natural (limit : Nat) (expected : String) :
    Yields (readNatural limit expected) (· ≤ limit) := by
  intro cs n rest h
  rw [readNatural] at h
  split at h
  · cases h
  · extract_lets read at h
    cases hread : read with
    | error e =>
      rw [hread] at h
      cases h
    | ok number =>
      rw [hread] at h
      obtain ⟨m, hm, heq⟩ := exists_of_map_eq_ok h
      obtain ⟨rfl, -⟩ := Prod.mk.inj heq
      exact le_of_naturalOf hm

variable {α : Type} {read : Reader α} {p : α → Prop}

theorem Yields.optional (hread : Yields read p) :
    Yields (readOptional read) fun o => ∀ x ∈ o, p x := by
  intro cs o rest h
  rw [readOptional] at h
  split at h
  · obtain ⟨rest, -, heq⟩ := exists_of_map_eq_ok h
    obtain ⟨rfl, -⟩ := Prod.mk.inj heq
    exact fun x hx => absurd hx (by simp)
  · obtain ⟨value, hvalue, heq⟩ := exists_of_map_eq_ok h
    obtain ⟨rfl, -⟩ := Prod.mk.inj heq
    intro x hx
    obtain rfl := Option.some.inj hx
    exact hread _ _ _ hvalue

theorem Yields.items (hread : Yields read p) {fuel : Nat} {first : Bool} {items : List α}
    (hitems : ∀ x ∈ items, p x) :
    Yields (readItems read fuel first items) fun xs => ∀ x ∈ xs, p x := by
  intro cs xs rest h
  induction fuel generalizing first items cs with
  | zero =>
    obtain ⟨rfl, -⟩ := Prod.mk.inj (Except.ok.inj h)
    simpa using hitems
  | succ fuel ih =>
    rw [readItems] at h
    split at h
    · cases h
    · obtain ⟨rfl, -⟩ := Prod.mk.inj (Except.ok.inj h)
      simpa using hitems
    · split at h
      · cases h
      · rename_i x _ hx
        exact ih (List.forall_mem_cons.2 ⟨hread _ _ _ hx, hitems⟩) _ h

/-- What holds of all that a reader gives back holds of the items of every array. -/
theorem Yields.list (hread : Yields read p) :
    Yields (readList read) fun xs => ∀ x ∈ xs, p x := by
  intro cs xs rest h
  rw [readList] at h
  split at h
  · cases h
  · split at h
    · cases h
    · rename_i items rest' hitems
      have hxs := hread.items (by simp) _ _ _ hitems
      obtain ⟨rest, -, heq⟩ := exists_of_map_eq_ok h
      obtain ⟨rfl, -⟩ := Prod.mk.inj heq
      exact hxs
  · cases h

end RefGraph.Json
