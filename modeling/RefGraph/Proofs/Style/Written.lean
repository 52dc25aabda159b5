import RefGraph.Style.Imports
import Mathlib.Data.List.DropRight

/-!
# Import lists as they are written

An item of an import list is written in quotes, as a plain word, or inside `url(...)`, in quotes or
not. Items have commas between them, and white space may stand around a comma and at the inner ends
of the parentheses. The reader finds the contents of the items in their order.

* `Item`, `ItemList`: items and lists of items with all that belongs to their layout.
* `Item.text`, `ItemList.text`: how they are written.
* `specifier?_text`: an item is read back.
* `specifiers_append`: a list is read back, whatever follows.
* `specifiers_text`: a list is read back, and nothing else if no comma follows.
-/

namespace RefGraph.Style

/-- What holds of the characters of a text is decided by looking at them one by one. There are
finitely many characters in all, and without this instance they might all be tried. -/
scoped instance (priority := high) decidableForallMemText (p : Char → Prop) [DecidablePred p]
    (text : List Char) : Decidable (∀ c ∈ text, p c) :=
  List.decidableBAll p text

/-- `decidableForallMemText` for at most one character. -/
scoped instance (priority := high) decidableForallMemOption (p : Char → Prop) [DecidablePred p] :
    (c : Option Char) → Decidable (∀ d ∈ c, p d)
  | none => isTrue fun _ h => nomatch h
  | some c => decidable_of_iff (p c) ⟨fun h _ hd => Option.some.inj hd ▸ h, fun h => h c rfl⟩

/-- An item of an import list: its content, the quotation mark around it if there is one, and the
white space at the inner ends of the parentheses if it stands inside `url(...)`. -/
structure Item where
  content : List Char
  quote : Option Char := none
  url : Option (List Char × List Char) := none
  nonempty : content ≠ [] := by decide
  quoted : ∀ q ∈ quote, (q = '"' ∨ q = '\'') ∧ q ∉ content := by decide
  plain : quote = none → ∀ c ∈ content, isWordChar c = true := by decide
  noUrl : quote = none → url = none → ¬ ['u', 'r', 'l', '('] <+: content := by decide
  white : ∀ w ∈ url, ∀ c ∈ w.1 ++ w.2, isWhite c = true := by decide

namespace Item

variable (i : Item)

/-- The content with the quotation marks around it. -/
def inner : List Char :=
  match i.quote with
  | some q => q :: (i.content ++ [q])
  | none => i.content

/-- How an item is written. -/
def text : List Char :=
  match i.url with
  | some (before, after) => ['u', 'r', 'l', '('] ++ before ++ i.inner ++ after ++ [')']
  | none => i.inner

/-- An item written as a word ends where no character of a word follows. -/
def StopsAt (tail : List Char) : Prop :=
  i.quote = none → i.url = none → ∀ c ∈ tail.head?, isWordChar c = false

instance (tail : List Char) : Decidable (i.StopsAt tail) :=
  inferInstanceAs (Decidable (_ → _ → ∀ c ∈ tail.head?, _))

end Item

/-! ## Words and white space -/

section Characters

variable {cs tail : List Char}

/-- A character of a word is neither white space nor one of the marks that end a word. -/
theorem isWordChar_iff {c : Char} : isWordChar c = true ↔
    c ≠ '"' ∧ c ≠ '\'' ∧ isWhite c = false ∧ c ≠ ';' ∧ c ≠ ',' ∧ c ≠ ')' := by
  simp only [isWordChar, Bool.not_eq_true', Bool.or_eq_false_iff, beq_eq_false_iff_ne, and_assoc]

theorem takeWhile_append_of_stop {p : Char → Bool} (hcs : ∀ c ∈ cs, p c = true)
    (htail : ∀ c ∈ tail.head?, p c = false) : (cs ++ tail).takeWhile p = cs := by
  rw [List.takeWhile_append_of_pos hcs]
  cases tail with
  | nil => rw [List.takeWhile_nil, List.append_nil]
  | cons c tail =>
    have hc : p c = false := htail c rfl
    rw [List.takeWhile_cons_of_neg (by simp [hc]), List.append_nil]

/-- Characters with a property are dropped up to where it stops. -/
theorem dropWhile_append_of_stop {p : Char → Bool} (hcs : ∀ c ∈ cs, p c = true)
    (htail : ∀ c ∈ tail.head?, p c = false) : (cs ++ tail).dropWhile p = tail := by
  rw [List.dropWhile_append_of_pos hcs]
  cases tail with
  | nil => rfl
  | cons c tail =>
    have hc : p c = false := htail c rfl
    rw [List.dropWhile_cons_of_neg (by simp [hc])]

/-- White space before something else is left out. -/
theorem dropWhile_isWhite_cons {white : List Char} (hwhite : ∀ c ∈ white, isWhite c = true)
    {c : Char} (hc : isWhite c = false) : (white ++ c :: tail).dropWhile isWhite = c :: tail := by
  apply dropWhile_append_of_stop hwhite
  intro d hd
  rw [← Option.some.inj hd, hc]

/-- A word ends at white space, and at what ends it behind white space. -/
theorem stop_of_white {white : List Char} (hwhite : ∀ c ∈ white, isWhite c = true) {c : Char}
    (hc : isWordChar c = false) : ∀ d ∈ (white ++ c :: tail).head?, isWordChar d = false := by
  intro d hd
  cases white with
  | nil => rw [← Option.some.inj hd, hc]
  | cons a white =>
    rw [← Option.some.inj hd, isWordChar, hwhite a List.mem_cons_self]
    simp

end Characters

/-! ## One item -/

section Item

variable {i : Item} {tail : List Char}

theorem exists_head_inner (i : Item) : ∃ c ∈ i.inner.head?, isWhite c = false := by
  unfold Item.inner
  split
  · rename_i q hq
    refine ⟨q, rfl, ?_⟩
    rcases (i.quoted q hq).1 with rfl | rfl <;> decide
  · rename_i hq
    obtain ⟨c, cs, hcs⟩ := List.exists_cons_of_ne_nil i.nonempty
    have hc : isWordChar c = true := i.plain hq c (by rw [hcs]; exact List.mem_cons_self)
    exact ⟨c, by rw [hcs]; rfl, (isWordChar_iff.1 hc).2.2.1⟩

theorem exists_head_text (i : Item) : ∃ c ∈ i.text.head?, isWhite c = false := by
  unfold Item.text
  split
  · exact ⟨'u', rfl, by decide⟩
  · exact exists_head_inner i

theorem dropWhile_isWhite {white text : List Char} (hwhite : ∀ c ∈ white, isWhite c = true)
    (htext : ∃ c ∈ text.head?, isWhite c = false) (tail : List Char) :
    (white ++ (text ++ tail)).dropWhile isWhite = text ++ tail := by
  obtain ⟨c, hc, hstop⟩ := htext
  obtain ⟨cs, rfl⟩ := List.head?_eq_some_iff.1 hc
  exact dropWhile_isWhite_cons hwhite hstop

/-- What is in quotes is read up to the closing quotation mark. -/
theorem quotedText?_append {q : Char} {content : List Char} (hq : q = '"' ∨ q = '\'')
    (hne : content ≠ []) (hcontent : q ∉ content) :
    quotedText? (q :: (content ++ [q]) ++ tail) = some (content, tail) := by
  have hinside : ∀ c ∈ content, (c != q) = true := by
    intro c hc
    rw [bne_iff_ne]
    rintro rfl
    exact hcontent hc
  have hstop : ∀ c ∈ (q :: tail).head?, (c != q) = false := by
    intro c hc
    rw [← Option.some.inj hc, bne_self_eq_false]
  rw [List.cons_append, List.append_assoc, List.singleton_append, quotedText?, if_pos hq]
  dsimp only
  rw [dropWhile_append_of_stop hinside hstop, takeWhile_append_of_stop hinside hstop]
  exact if_neg hne

/-- The content of an item is read, in quotes up to the closing one and otherwise as a word. -/
theorem itemText?_inner (hstop : i.quote = none → ∀ c ∈ tail.head?, isWordChar c = false) :
    itemText? (i.inner ++ tail) = some (i.content, tail) := by
  unfold itemText? Item.inner
  split
  · rename_i q hq
    obtain ⟨hquote, hcontent⟩ := i.quoted q hq
    rw [quotedText?_append hquote i.nonempty hcontent]
    rfl
  · rename_i hq
    have hword : ∀ c ∈ i.content, isWordChar c = true := i.plain hq
    obtain ⟨c, cs, hcs⟩ := List.exists_cons_of_ne_nil i.nonempty
    have hc := isWordChar_iff.1 (hword c (by rw [hcs]; exact List.mem_cons_self))
    have hnone : quotedText? (i.content ++ tail) = none := by
      rw [hcs, List.cons_append, quotedText?, if_neg (not_or.2 ⟨hc.1, hc.2.1⟩)]
    rw [hnone, takeWhile_append_of_stop hword (hstop hq), dropWhile_append_of_stop hword (hstop hq)]
    exact if_neg i.nonempty

/-- A text that begins with an item outside of `url(...)` does not begin with `url(`. -/
theorem afterUrl?_inner (hurl : i.url = none) (hstop : i.StopsAt tail) :
    afterUrl? (i.inner ++ tail) = none := by
  unfold afterUrl?
  split
  · rename_i rest hrest
    exfalso
    unfold Item.inner at hrest
    split at hrest
    · -- a quotation mark is no `u`
      rename_i q hq
      obtain ⟨rfl, -⟩ := List.cons.inj hrest
      rcases (i.quoted _ hq).1 with h | h <;> exact absurd h (by decide)
    · -- the four characters belong to a word, so that they would all belong to this one
      rename_i hq
      have htake := takeWhile_append_of_stop (i.plain hq) (hstop hq hurl)
      rw [hrest] at htake
      apply i.noUrl hq hurl
      rw [← htake]
      exact ⟨rest.takeWhile isWordChar, by
        rw [List.takeWhile_cons_of_pos (by decide), List.takeWhile_cons_of_pos (by decide),
          List.takeWhile_cons_of_pos (by decide), List.takeWhile_cons_of_pos (by decide)]
        rfl⟩
  · rfl

/-- What is left behind an item: a closing parenthesis that does not belong to it is lost. -/
def Item.rest (i : Item) (tail : List Char) : List Char :=
  match i.url with
  | some _ => tail
  | none => dropClosing tail

/-- A closing parenthesis is dropped with the white space before it. -/
theorem dropClosing_append {white : List Char} (h : ∀ c ∈ white, isWhite c = true) :
    dropClosing (white ++ ')' :: tail) = tail := by
  unfold dropClosing
  rw [dropWhile_isWhite_cons h (by decide)]
  rfl

/-- **An item is read back**, with what is left behind it. -/
theorem specifier?_text {white : List Char} (hwhite : ∀ c ∈ white, isWhite c = true)
    (hstop : i.StopsAt tail) :
    specifier? (white ++ (i.text ++ tail)) = some (i.content, i.rest tail) := by
  unfold specifier?
  rw [dropWhile_isWhite hwhite (exists_head_text i)]
  dsimp only
  unfold Item.text Item.rest
  cases hurl : i.url with
  | none =>
    dsimp only
    rw [afterUrl?_inner hurl hstop, itemText?_inner fun hq => hstop hq hurl]
    rfl
  | some w =>
    obtain ⟨before, after⟩ := w
    obtain ⟨hbefore, hafter⟩ := List.forall_mem_append.1 (i.white _ hurl)
    have hopen : afterUrl? (['u', 'r', 'l', '('] ++ before ++ i.inner ++ after ++ [')'] ++ tail) =
        some (i.inner ++ (after ++ ')' :: tail)) := by
      simp only [List.append_assoc, List.cons_append, List.nil_append, afterUrl?]
      rw [dropWhile_isWhite hbefore (exists_head_inner i)]
    have hinner : itemText? (i.inner ++ (after ++ ')' :: tail)) =
        some (i.content, after ++ ')' :: tail) :=
      itemText?_inner fun _ => stop_of_white hafter (by decide)
    dsimp only
    rw [hopen, Option.bind_some, hinner]
    simp only [Option.orElse_some, Option.map_some, dropClosing_append hafter]

end Item

/-! ## Lists of items -/

/-- A list of items with commas between them: an item, the white space before and behind the comma,
and the list behind it. -/
inductive ItemList where
  | one (item : Item)
  | more (item : Item) (before after : List Char)
      (white : ∀ c ∈ before ++ after, isWhite c = true) (others : ItemList)

namespace ItemList

/-- The items of a list. -/
def items : ItemList → List Item
  | one item => [item]
  | more item _ _ _ others => item :: others.items

/-- The last item of a list. -/
def last : ItemList → Item
  | one item => item
  | more _ _ _ _ others => others.last

/-- The white space around the commas of a list. -/
def gaps : ItemList → List (List Char)
  | one _ => []
  | more _ before after _ others => before :: after :: others.gaps

/-- How a list is written. -/
def text : ItemList → List Char
  | one item => item.text
  | more item before after _ others => item.text ++ before ++ ',' :: after ++ others.text

end ItemList

section ItemList

variable {list : ItemList} {white tail : List Char}

theorem afterComma?_append (h : ∀ c ∈ white, isWhite c = true) :
    afterComma? (white ++ ',' :: tail) = some tail := by
  unfold afterComma?
  rw [dropWhile_isWhite_cons h (by decide)]
  rfl

/-- Where no closing parenthesis comes, only white space is dropped. -/
theorem dropClosing_eq_dropWhile {cs : List Char} (h : (cs.dropWhile isWhite).head? ≠ some ')') :
    dropClosing cs = cs.dropWhile isWhite := by
  unfold dropClosing
  split
  · rename_i rest hrest
    rw [hrest] at h
    exact absurd rfl h
  · rfl

/-- Behind an item the comma is found. -/
theorem afterComma?_rest (i : Item) (h : ∀ c ∈ white, isWhite c = true) :
    afterComma? (i.rest (white ++ ',' :: tail)) = some tail := by
  have hdrop : (white ++ ',' :: tail).dropWhile isWhite = ',' :: tail :=
    dropWhile_isWhite_cons h (by decide)
  unfold Item.rest
  split
  · exact afterComma?_append h
  · rw [dropClosing_eq_dropWhile (by simp [hdrop]), hdrop]
    rfl

theorem exists_head_textOfList (list : ItemList) : ∃ c ∈ list.text.head?, isWhite c = false := by
  cases list with
  | one item => exact exists_head_text item
  | more item before after white others =>
    obtain ⟨c, hc, hwhite⟩ := exists_head_text item
    refine ⟨c, ?_, hwhite⟩
    rw [ItemList.text, List.append_assoc, List.append_assoc, List.head?_append,
      Option.mem_def.1 hc]
    rfl

/-- An item ends before the comma behind it. -/
theorem stopsAt_comma (i : Item) (h : ∀ c ∈ white, isWhite c = true) :
    i.StopsAt (white ++ ',' :: tail) :=
  fun _ _ => stop_of_white h (by decide)

/-- **A list is read back**, as long as there is a specifier to be read for each of its items, and
the reader goes on behind it if a comma follows. -/
theorem specifiersUpTo_text (hwhite : ∀ c ∈ white, isWhite c = true)
    (hstop : list.last.StopsAt tail) (fuel : Nat) :
    specifiersUpTo (list.items.length + fuel) (white ++ (list.text ++ tail)) =
      list.items.map Item.content ++
        ((afterComma? (list.last.rest tail)).map (specifiersUpTo fuel)).getD [] := by
  induction list generalizing white with
  | one item =>
    have hfuel : (ItemList.one item).items.length + fuel = fuel + 1 := Nat.add_comm _ _
    have hitem : item.StopsAt tail := hstop
    rw [hfuel, specifiersUpTo, ItemList.text, specifier?_text hwhite hitem]
    dsimp only [ItemList.items, ItemList.last]
    cases afterComma? (item.rest tail) <;> rfl
  | more item before after hgap others ih =>
    obtain ⟨hbefore, hafter⟩ := List.forall_mem_append.1 hgap
    have htext : (ItemList.more item before after hgap others).text ++ tail =
        item.text ++ (before ++ ',' :: (after ++ (others.text ++ tail))) := by
      simp [ItemList.text]
    -- Each item takes one unit of fuel, the list as many as it has items.
    have hfuel : (ItemList.more item before after hgap others).items.length + fuel =
        others.items.length + fuel + 1 := by
      simp only [ItemList.items, List.length_cons]
      omega
    rw [htext, hfuel, specifiersUpTo, specifier?_text hwhite (stopsAt_comma item hbefore)]
    dsimp only
    rw [afterComma?_rest item hbefore]
    dsimp only
    rw [ih hafter hstop]
    rfl

/-- A list has no more items than characters, so that the fuel of its reader is enough. -/
theorem length_items_le (list : ItemList) : list.items.length ≤ list.text.length := by
  have hitem : ∀ i : Item, 1 ≤ i.text.length := by
    intro i
    obtain ⟨c, hc, -⟩ := exists_head_text i
    obtain ⟨cs, hcs⟩ := List.head?_eq_some_iff.1 hc
    rw [hcs]
    exact Nat.succ_pos _
  induction list with
  | one item => exact hitem item
  | more item before after hgap others ih =>
    have := hitem item
    simp only [ItemList.items, ItemList.text, List.length_append, List.length_cons]
    omega

/-- The items of a list are read in their order, and then those behind a further comma. -/
theorem exists_specifiers_eq (hwhite : ∀ c ∈ white, isWhite c = true)
    (hstop : list.last.StopsAt tail) :
    ∃ fuel, specifiers (white ++ (list.text ++ tail)) = list.items.map Item.content ++
      ((afterComma? (list.last.rest tail)).map (specifiersUpTo fuel)).getD [] := by
  refine ⟨(white ++ (list.text ++ tail)).length - list.items.length, ?_⟩
  have hfuel : list.items.length + ((white ++ (list.text ++ tail)).length - list.items.length) =
      (white ++ (list.text ++ tail)).length := by
    have := length_items_le list
    simp only [List.length_append]
    omega
  rw [← specifiersUpTo_text hwhite hstop, hfuel, specifiers]

/-- What is read behind a list comes after its items. -/
theorem specifiers_append (hwhite : ∀ c ∈ white, isWhite c = true)
    (hstop : list.last.StopsAt tail) :
    list.items.map Item.content <+: specifiers (white ++ (list.text ++ tail)) := by
  obtain ⟨fuel, hfuel⟩ := exists_specifiers_eq hwhite hstop
  rw [hfuel]
  exact List.prefix_append _ _

/-- No further item follows: what comes first behind the white space is no comma, and no parenthesis
behind which one could stand. -/
def EndsList (tail : List Char) : Prop :=
  ∀ c ∈ (tail.dropWhile isWhite).head?, c ≠ ',' ∧ c ≠ ')'

instance (tail : List Char) : Decidable (EndsList tail) :=
  inferInstanceAs (Decidable (∀ c ∈ (tail.dropWhile isWhite).head?, _))

/-- Where no comma comes next, there is no other item. -/
theorem afterComma?_eq_none {cs : List Char} (h : ∀ c ∈ (cs.dropWhile isWhite).head?, c ≠ ',') :
    afterComma? cs = none := by
  unfold afterComma?
  split
  · rename_i rest hrest
    exact absurd rfl (h ',' (by rw [hrest]; rfl))
  · rfl

/-- Behind the last item of a list there is no other one. -/
theorem afterComma?_rest_eq_none (i : Item) (h : EndsList tail) :
    afterComma? (i.rest tail) = none := by
  unfold Item.rest
  split
  · exact afterComma?_eq_none fun c hc => (h c hc).1
  · rw [dropClosing_eq_dropWhile fun hparen => (h ')' hparen).2 rfl]
    apply afterComma?_eq_none
    rw [List.dropWhile_idempotent]
    exact fun c hc => (h c hc).1

/-- **A list is read back**, and nothing else if no further item follows. -/
theorem specifiers_text (hwhite : ∀ c ∈ white, isWhite c = true)
    (hstop : list.last.StopsAt tail) (hend : EndsList tail) :
    specifiers (white ++ (list.text ++ tail)) = list.items.map Item.content := by
  obtain ⟨fuel, hfuel⟩ := exists_specifiers_eq hwhite hstop
  rw [hfuel, afterComma?_rest_eq_none _ hend]
  exact List.append_nil _

end ItemList

end RefGraph.Style
