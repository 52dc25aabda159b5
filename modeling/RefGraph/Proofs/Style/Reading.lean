import RefGraph.Proofs.Style.Places

/-!
# Where specifiers stand

A specifier is read off a statement in which comments are blanked. It stands there at the beginning
or behind a comma, directly or behind `url(`, and is all that stands between a quotation mark and
the next one of its kind, or else a whole word. As long as no backslash is met, the scanner of
comments and the reader of specifiers agree on where a string literal begins and ends, so that a
specifier has these properties in the stylesheet itself.

* `IsItem`: what is between quotation marks, and whole words; `itemText?_eq_some_iff`.
* `Precedes`, `Stands`: the items before a specifier, and the specifier behind them;
  `stands_of_specifiers`: each specifier stands in its statement.
* `Keeps`: a part of a stylesheet that begins and ends outside of comments and string literals, and
  what blanking makes of it; `Keeps.gap`, `Keeps.item`, `Keeps.precedes`.
* `IsReadFrom`, `imports_isReadFrom`: the specifiers of a stylesheet stand in its statements.
-/

namespace RefGraph.Style

variable {lineComments : Bool} {quote : Option Char} {cs rest tail s before source : List Char}

/-! ## One item -/

/-- A specifier with the quotation marks around it, if there are any. -/
def marked (quote : Option Char) (s : List Char) : List Char :=
  match quote with
  | some q => q :: (s ++ [q])
  | none => s

/-- All that stands between a quotation mark and the next one of its kind, or else a whole word,
with `tail` behind it. -/
structure IsItem (quote : Option Char) (s tail : List Char) : Prop where
  nonempty : s ≠ []
  quoted : ∀ q ∈ quote, IsQuote q ∧ q ∉ s
  word : quote = none → ∀ c ∈ s, isWordChar c = true
  whole : quote = none → ∀ c ∈ tail.head?, isWordChar c = false

/-- What is read in quotes stands there. -/
theorem exists_of_quotedText? (h : quotedText? cs = some (s, tail)) :
    ∃ q, cs = marked (some q) s ++ tail ∧ IsItem (some q) s tail := by
  unfold quotedText? at h
  split at h
  · cases h
  rename_i q cs
  split at h
  · rename_i hq
    dsimp only at h
    split at h
    · rename_i c more hmore
      split at h
      · cases h
      rename_i hne
      obtain ⟨rfl, rfl⟩ := Prod.mk.inj (Option.some.inj h)
      -- What stops the text in quotes is the quotation mark that opened it.
      have hc : (c != q) = false := by
        have hhead := List.head?_dropWhile_not (· != q) cs
        rw [hmore] at hhead
        exact hhead
      obtain rfl : c = q := by simpa using hc
      refine ⟨c, ?_, hne, fun d hd => ?_, nofun, nofun⟩
      · rw [marked, List.cons_append, List.append_assoc, List.singleton_append, ← hmore,
          List.takeWhile_append_dropWhile]
      · obtain rfl := Option.some.inj hd
        refine ⟨hq, fun hmem => ?_⟩
        simpa using List.mem_takeWhile_imp hmem
    · cases h
  · cases h

/-- Nothing in quotes begins with a character of a word. -/
theorem quotedText?_eq_none_of_isWordChar {c : Char} (hc : isWordChar c = true) :
    quotedText? (c :: cs) = none := by
  obtain ⟨hdouble, hsingle, -⟩ := isWordChar_iff.1 hc
  rw [quotedText?, if_neg (not_or.2 ⟨hdouble, hsingle⟩)]

/-- **What is read is in quotes or a whole word**, and all such items are read. -/
theorem itemText?_eq_some_iff :
    itemText? cs = some (s, tail) ↔ ∃ quote, cs = marked quote s ++ tail ∧ IsItem quote s tail := by
  constructor
  · intro h
    unfold itemText? at h
    cases hquoted : quotedText? cs with
    | some found =>
      rw [hquoted] at h
      obtain rfl := Option.some.inj h
      obtain ⟨q, hcs, hitem⟩ := exists_of_quotedText? hquoted
      exact ⟨some q, hcs, hitem⟩
    | none =>
      rw [hquoted, Option.orElse_none] at h
      dsimp only at h
      split at h
      · cases h
      rename_i hne
      obtain ⟨rfl, rfl⟩ := Prod.mk.inj (Option.some.inj h)
      refine ⟨none, List.takeWhile_append_dropWhile.symm, hne, nofun,
        fun _ c hc => List.mem_takeWhile_imp hc, fun _ c hc => ?_⟩
      have hhead := List.head?_dropWhile_not isWordChar cs
      rw [Option.mem_def.1 hc] at hhead
      simpa using hhead
  · rintro ⟨quote, rfl, hitem⟩
    cases quote with
    | some q =>
      obtain ⟨hq, hs⟩ := hitem.quoted q rfl
      rw [itemText?, marked, quotedText?_append hq hitem.nonempty hs]
      rfl
    | none =>
      obtain ⟨c, more, rfl⟩ := List.exists_cons_of_ne_nil hitem.nonempty
      have hword := hitem.word rfl
      rw [itemText?, marked, List.cons_append,
        quotedText?_eq_none_of_isWordChar (hword c List.mem_cons_self), ← List.cons_append,
        takeWhile_append_of_stop hword (hitem.whole rfl),
        dropWhile_append_of_stop hword (hitem.whole rfl)]
      rfl

/-- The opening of an address. -/
def urlOpen : List Char := ['u', 'r', 'l', '(']

theorem exists_of_afterUrl? (h : afterUrl? cs = some rest) :
    ∃ more, cs = urlOpen ++ more ∧ rest = more.dropWhile isWhite := by
  unfold afterUrl? at h
  split at h
  · rename_i more
    exact ⟨more, rfl, (Option.some.inj h).symm⟩
  · cases h

/-- Nothing can be read at the beginning of a text, white space left out. -/
def ReadsNothing (cs : List Char) : Prop :=
  ∀ quote s tail, cs.dropWhile isWhite = marked quote s ++ tail → ¬ IsItem quote s tail

/-- Where there is no item, nothing is read. -/
theorem readsNothing_of_itemText? (h : itemText? (cs.dropWhile isWhite) = none) :
    ReadsNothing cs := by
  intro quote s tail hcs hitem
  rw [itemText?_eq_some_iff.2 ⟨quote, hcs, hitem⟩] at h
  cases h

/-- What may stand between the beginning of a list or a comma and an item: white space, and `url(`
with white space behind it. -/
def IsLead (lead : List Char) : Prop :=
  ∃ white inner, (∀ c ∈ white ++ inner, isWhite c = true) ∧
    (lead = white ∨ lead = white ++ (urlOpen ++ inner))

/-- The text ends with `url(` and white space. -/
def InUrl (before : List Char) : Prop :=
  ∃ init inner, before = init ++ (urlOpen ++ inner) ∧ ∀ c ∈ inner, isWhite c = true

/-- A specifier stands behind white space and `url(`. If `url(` is taken for a part of the specifier
itself, nothing can be read behind it. -/
theorem exists_of_specifier? (h : specifier? cs = some (s, rest)) :
    ∃ lead quote tail, cs = lead ++ (marked quote s ++ tail) ∧ rest = dropClosing tail ∧
      IsLead lead ∧ IsItem quote s tail ∧
      ∀ more, marked quote s ++ tail = urlOpen ++ more → ReadsNothing more ∨ InUrl lead := by
  have hsplit : cs = cs.takeWhile isWhite ++ cs.dropWhile isWhite :=
    List.takeWhile_append_dropWhile.symm
  have hwhite : ∀ c ∈ cs.takeWhile isWhite, isWhite c = true := fun c hc =>
    List.mem_takeWhile_imp hc
  unfold specifier? at h
  obtain ⟨⟨item, tail⟩, hread, heq⟩ := Option.map_eq_some_iff.1 h
  obtain ⟨rfl, rfl⟩ := Prod.mk.inj heq
  -- What follows `url(` goes before the text as it stands.
  cases hurl : (afterUrl? (cs.dropWhile isWhite)).bind itemText? with
  | some found =>
    rw [hurl] at hread
    obtain rfl := Option.some.inj hread
    obtain ⟨inside, hinside, hitem⟩ := Option.bind_eq_some_iff.1 hurl
    obtain ⟨more, hmore, rfl⟩ := exists_of_afterUrl? hinside
    obtain ⟨quote, htext, hitem⟩ := itemText?_eq_some_iff.1 hitem
    have hinner : ∀ c ∈ more.takeWhile isWhite, isWhite c = true := fun c hc =>
      List.mem_takeWhile_imp hc
    refine ⟨cs.takeWhile isWhite ++ (urlOpen ++ more.takeWhile isWhite), quote, tail, ?_, rfl,
      ⟨_, _, List.forall_mem_append.2 ⟨hwhite, hinner⟩, .inr rfl⟩, hitem,
      fun _ _ => .inr ⟨_, _, rfl, hinner⟩⟩
    rw [List.append_assoc, List.append_assoc, ← htext, List.takeWhile_append_dropWhile, ← hmore,
      List.takeWhile_append_dropWhile]
  | none =>
    rw [hurl, Option.orElse_none] at hread
    obtain ⟨quote, htext, hitem⟩ := itemText?_eq_some_iff.1 hread
    refine ⟨cs.takeWhile isWhite, quote, tail, ?_, rfl,
      ⟨_, [], by rwa [List.append_nil], .inl rfl⟩, hitem, fun more hmore => .inl ?_⟩
    · rw [← htext, List.takeWhile_append_dropWhile]
    · rw [← htext] at hmore
      rw [hmore] at hurl
      exact readsNothing_of_itemText? hurl

/-! ## Lists of items -/

/-- What may stand between an item and the comma behind it. -/
def IsGap (gap : List Char) : Prop := ∀ c ∈ gap, isWhite c = true ∨ c = ')'

/-- What stands before an item of a list: the items before it, with a comma behind each of them. -/
inductive Precedes : (read : List (List Char)) → (before : List Char) → Prop
  | first {lead : List Char} (hlead : IsLead lead) : Precedes [] lead
  | next {read : List (List Char)} {before s gap lead : List Char} {quote : Option Char}
      (h : Precedes read before) (hitem : IsItem quote s (gap ++ ',' :: lead)) (hgap : IsGap gap)
      (hlead : IsLead lead) :
      Precedes (read ++ [s]) (before ++ (marked quote s ++ (gap ++ ',' :: lead)))

/-- A specifier stands in a text behind those that were read before it, with `before` before it and
`tail` behind it. If `url(` is taken for a part of it, then nothing can be read behind this `url(`,
or it stands inside another one. -/
structure Stands (cs : List Char) (read : List (List Char)) (before : List Char)
    (quote : Option Char) (s tail : List Char) : Prop where
  text_eq : cs = before ++ (marked quote s ++ tail)
  precedes : Precedes read before
  item : IsItem quote s tail
  url : ∀ more, marked quote s ++ tail = urlOpen ++ more → ReadsNothing more ∨ InUrl before

/-- What is dropped behind an item is a gap. -/
theorem exists_dropClosing (cs : List Char) : ∃ gap, cs = gap ++ dropClosing cs ∧ IsGap gap := by
  have hsplit : cs = cs.takeWhile isWhite ++ cs.dropWhile isWhite :=
    List.takeWhile_append_dropWhile.symm
  have hwhite : IsGap (cs.takeWhile isWhite) := fun c hc => .inl (List.mem_takeWhile_imp hc)
  unfold dropClosing
  split
  · rename_i rest hrest
    refine ⟨cs.takeWhile isWhite ++ [')'], ?_, fun c hc => ?_⟩
    · rw [List.append_assoc, List.singleton_append, ← hrest, ← hsplit]
    · rcases List.mem_append.1 hc with hc | hc
      · exact hwhite c hc
      · exact .inr (List.mem_singleton.1 hc)
  · exact ⟨_, hsplit, hwhite⟩

theorem exists_of_afterComma? (h : afterComma? cs = some rest) :
    ∃ white, cs = white ++ ',' :: rest ∧ ∀ c ∈ white, isWhite c = true := by
  unfold afterComma? at h
  split at h
  · rename_i more hmore
    obtain rfl := Option.some.inj h
    refine ⟨cs.takeWhile isWhite, ?_, fun c hc => List.mem_takeWhile_imp hc⟩
    rw [← hmore, List.takeWhile_append_dropWhile]
  · cases h

/-- What stands between an item and the comma behind it is left out. -/
theorem exists_of_afterComma?_dropClosing (h : afterComma? (dropClosing cs) = some rest) :
    ∃ gap, cs = gap ++ ',' :: rest ∧ IsGap gap := by
  obtain ⟨gap, hgap, hisGap⟩ := exists_dropClosing cs
  obtain ⟨white, hwhite, hisWhite⟩ := exists_of_afterComma? h
  refine ⟨gap ++ white, ?_, fun c hc => ?_⟩
  · rw [List.append_assoc, ← hwhite, ← hgap]
  · rcases List.mem_append.1 hc with hc | hc
    · exact hisGap c hc
    · exact .inl (hisWhite c hc)

theorem IsItem.of_append {as bs : List Char} (h : IsItem quote s (as ++ bs)) (has : as ≠ [])
    (cs : List Char) : IsItem quote s (as ++ cs) := by
  obtain ⟨a, as, rfl⟩ := List.exists_cons_of_ne_nil has
  exact ⟨h.nonempty, h.quoted, h.word, h.whole⟩

theorem InUrl.append (h : InUrl before) (init : List Char) : InUrl (init ++ before) := by
  obtain ⟨more, inner, rfl, hinner⟩ := h
  exact ⟨init ++ more, inner, (List.append_assoc ..).symm, hinner⟩

/-- The items of a list stand one behind the other. The induction is on the number of items that are
read at most, and `init` is what was read, up to the comma behind it. -/
theorem stands_of_specifiersUpTo {fuel : Nat} {init : List Char}
    {read more others : List (List Char)}
    (hinit : ∀ lead, IsLead lead → Precedes read (init ++ lead))
    (h : specifiersUpTo fuel cs = more ++ s :: others) :
    ∃ before quote tail, Stands (init ++ cs) (read ++ more) before quote s tail := by
  induction fuel generalizing init read cs more with
  | zero =>
    rw [specifiersUpTo] at h
    exact absurd h.symm (List.append_ne_nil_of_right_ne_nil _ (List.cons_ne_nil _ _))
  | succ fuel ih =>
    rw [specifiersUpTo] at h
    split at h
    · exact absurd h.symm (List.append_ne_nil_of_right_ne_nil _ (List.cons_ne_nil _ _))
    rename_i item rest hread
    obtain ⟨lead, quote, tail, rfl, rfl, hlead, hitem, hurl⟩ := exists_of_specifier? hread
    cases more with
    | nil =>
      obtain ⟨rfl, -⟩ := List.cons.inj h
      rw [List.append_nil]
      exact ⟨init ++ lead, quote, tail, (List.append_assoc ..).symm, hinit lead hlead, hitem,
        fun more hmore => (hurl more hmore).imp_right fun h => h.append init⟩
    | cons m more =>
      obtain ⟨rfl, hothers⟩ := List.cons.inj h
      split at hothers
      · exact absurd hothers.symm (List.append_ne_nil_of_right_ne_nil _ (List.cons_ne_nil _ _))
      rename_i next hnext
      obtain ⟨gap, rfl, hgap⟩ := exists_of_afterComma?_dropClosing hnext
      -- What precedes the next item is what preceded this one, the item itself, and the comma.
      have hbehind : ∀ lead', IsLead lead' → Precedes (read ++ [item])
          (init ++ (lead ++ (marked quote item ++ (gap ++ [',']))) ++ lead') := by
        intro lead' hlead'
        have hitem' : IsItem quote item (gap ++ ',' :: lead') := by
          rw [List.append_cons] at hitem ⊢
          exact hitem.of_append (List.concat_ne_nil _ _) lead'
        have hprecedes := (hinit lead hlead).next hitem' hgap hlead'
        simpa only [List.append_assoc, List.singleton_append] using hprecedes
      have hstands := ih hbehind hothers
      simpa only [List.append_assoc, List.singleton_append] using hstands

/-- **Each specifier of a text stands in it**, behind those before it. -/
theorem stands_of_specifiers {read others : List (List Char)}
    (h : specifiers cs = read ++ s :: others) :
    ∃ before quote tail, Stands cs read before quote s tail := by
  have hinit : ∀ lead, IsLead lead → Precedes [] ([] ++ lead) := fun _ hlead => .first hlead
  exact stands_of_specifiersUpTo hinit h

/-! ## Parts of a stylesheet -/

/-- Blanking one part behind another begins where the first one ends. -/
theorem blankPart_append (place : Place) (as bs rest : List Char) :
    blankPart lineComments place (as ++ bs) rest =
      blankPart lineComments place as (bs ++ rest) ++
        blankPart lineComments (placeBehind lineComments place as (bs ++ rest)) bs rest := by
  induction as generalizing place with
  | nil => rfl
  | cons a as ih =>
    rw [List.cons_append, blankPart_cons, blankPart_cons, ih, List.append_assoc, List.append_assoc]
    rfl

theorem not_isQuote_of_isWhite {c : Char} (h : isWhite c = true) : ¬ IsQuote c := by
  rintro (rfl | rfl) <;> exact absurd h (by decide)

theorem IsGap.notQuote {gap : List Char} (h : IsGap gap) : ∀ c ∈ gap, ¬ IsQuote c := by
  intro c hc
  rcases h c hc with hwhite | rfl
  · exact not_isQuote_of_isWhite hwhite
  · decide

theorem IsLead.notQuote {lead : List Char} (h : IsLead lead) : ∀ c ∈ lead, ¬ IsQuote c := by
  obtain ⟨white, inner, hall, hlead⟩ := h
  obtain ⟨hwhite, hinner⟩ := List.forall_mem_append.1 hall
  have hurl : ∀ c ∈ urlOpen, ¬ IsQuote c := by decide
  rcases hlead with rfl | rfl
  · exact fun c hc => not_isQuote_of_isWhite (hwhite c hc)
  · exact List.forall_mem_append.2 ⟨fun c hc => not_isQuote_of_isWhite (hwhite c hc),
      List.forall_mem_append.2 ⟨hurl, fun c hc => not_isQuote_of_isWhite (hinner c hc)⟩⟩

theorem isVisible_of_isWordChar {c : Char} (h : isWordChar c = true) : IsVisible c := by
  have hwhite := (isWordChar_iff.1 h).2.2.1
  constructor
  · rintro rfl
    exact absurd hwhite (by decide)
  · rintro rfl
    exact absurd hwhite (by decide)

/-- An item begins with a visible character. -/
theorem IsItem.exists_head (h : IsItem quote s tail) :
    ∃ c cs, marked quote s = c :: cs ∧ IsVisible c := by
  cases quote with
  | some q =>
    refine ⟨q, s ++ [q], rfl, ?_⟩
    rcases (h.quoted q rfl).1 with rfl | rfl <;> decide
  | none =>
    obtain ⟨c, cs, rfl⟩ := List.exists_cons_of_ne_nil h.nonempty
    exact ⟨c, cs, rfl, isVisible_of_isWordChar (h.word rfl c List.mem_cons_self)⟩

/-- What stands in a stylesheet before `rest` begins and ends outside of comments and string
literals, and blanking makes `kept` of it. -/
def Keeps (lineComments : Bool) (kept source rest : List Char) : Prop :=
  ∃ part, source = part ++ rest ∧ placeBehind lineComments .code part rest = .code ∧
    blankPart lineComments .code part rest = kept

/-- The scanner finds a string literal only at a quotation mark, and leaves it. -/
theorem inQuotes_step {place : Place} (hplace : place.inQuotes = false) (c : Char)
    (next : Option Char) : (place.step lineComments c next).1.inQuotes = false ∨
      IsQuote c ∧ (place.step lineComments c next).2 = false := by
  unfold Place.step
  cases place with
  | quoted q => cases hplace
  | escaped q => cases hplace
  | code =>
    dsimp only
    split
    · rename_i hc
      exact .inr ⟨hc, rfl⟩
    · split
      · exact .inl rfl
      · split <;> exact .inl rfl
  | opening => exact .inl rfl
  | block => dsimp only; split <;> exact .inl rfl
  | closing => exact .inl rfl
  | line => dsimp only; split <;> exact .inl rfl

/-- A blanked part without quotation marks does not end in quotes. -/
theorem inQuotes_placeBehind {place : Place} {part : List Char} (hplace : place.inQuotes = false)
    (h : ∀ c ∈ blankPart lineComments place part rest, ¬ IsQuote c) :
    (placeBehind lineComments place part rest).inQuotes = false := by
  induction part generalizing place with
  | nil => exact hplace
  | cons c cs ih =>
    rw [blankPart_cons] at h
    obtain ⟨hc, hcs⟩ := List.forall_mem_append.1 h
    apply ih _ hcs
    rcases inQuotes_step hplace c (cs ++ rest).head? with hnext | ⟨hquote, hstep⟩
    · exact hnext
    · rw [hstep, if_neg Bool.false_ne_true] at hc
      exact absurd hquote (hc c (List.mem_singleton_self c))

/-- What is left outside of comments and is no quotation mark stands outside of string literals. -/
theorem step_code_of_visible {c : Char} {next : Option Char} (hquote : ¬ IsQuote c)
    (h : (Place.code.step lineComments c next).2 = false) :
    (Place.code.step lineComments c next).1 = .code := by
  unfold Place.step at h ⊢
  dsimp only at h ⊢
  rw [if_neg (show ¬ (c = '"' ∨ c = '\'') from hquote)] at h ⊢
  split at h
  · cases h
  split at h
  · cases h
  rename_i hblock hline
  rw [if_neg hblock, if_neg hline]

/-- Nothing is blanked between quotation marks. -/
theorem exists_of_blankFrom_quoted {q : Char} (hquote : q ∉ s) (hbackslash : '\\' ∉ s)
    (hbreak : '\n' ∉ s) (h : blankFrom lineComments (.quoted q) source = s ++ q :: tail) :
    ∃ rest, source = s ++ q :: rest := by
  -- Whatever is read between quotation marks, it is not blanked.
  have hkept : ∀ c next, ((Place.quoted q).step lineComments c next).2 = false := by
    intro c next
    unfold Place.step
    dsimp only
    split
    · rfl
    · split <;> rfl
  induction s generalizing source with
  | nil =>
    cases source with
    | nil => cases h
    | cons d source =>
      rw [blankFrom_cons, hkept, if_neg Bool.false_ne_true] at h
      obtain ⟨rfl, -⟩ := List.cons.inj h
      exact ⟨source, rfl⟩
  | cons c s ih =>
    cases source with
    | nil => cases h
    | cons d source =>
      rw [List.mem_cons, not_or] at hquote hbackslash hbreak
      rw [blankFrom_cons, hkept, if_neg Bool.false_ne_true] at h
      obtain ⟨rfl, hrest⟩ := List.cons.inj h
      rw [step_quoted ⟨Ne.symm hbackslash.1, Ne.symm hquote.1, Ne.symm hbreak.1⟩] at hrest
      obtain ⟨rest, rfl⟩ := ih hquote.2 hbackslash.2 hbreak.2 hrest
      exact ⟨rest, rfl⟩

namespace Keeps

variable {kept kept' middle : List Char}

theorem nil (rest : List Char) : Keeps lineComments [] rest rest := ⟨[], rfl, rfl, rfl⟩

/-- Parts that are kept one after the other are kept together. -/
theorem trans (h : Keeps lineComments kept source middle)
    (h' : Keeps lineComments kept' middle rest) :
    Keeps lineComments (kept ++ kept') source rest := by
  obtain ⟨part, rfl, hplace, rfl⟩ := h
  obtain ⟨part', rfl, hplace', rfl⟩ := h'
  refine ⟨part ++ part', (List.append_assoc ..).symm, ?_, ?_⟩
  · rw [placeBehind_append, hplace, hplace']
  · rw [blankPart_append, hplace]

/-- A part that is kept comes first in the blanked stylesheet. -/
theorem blankFrom_eq (h : Keeps lineComments kept source rest) :
    blankFrom lineComments .code source = kept ++ blankFrom lineComments .code rest := by
  obtain ⟨part, rfl, hplace, rfl⟩ := h
  rw [blankFrom_append, hplace]

/-- Behind a part of a stylesheet one is outside of comments and string literals again, as many
bytes further as were kept. -/
theorem exists_outside (h : Keeps lineComments kept source rest)
    (houtside : Outside lineComments before source) :
    ∃ part, source = part ++ rest ∧ utf8Length part = utf8Length kept ∧
      Outside lineComments (before ++ part) rest := by
  obtain ⟨part, rfl, hplace, rfl⟩ := h
  refine ⟨part, rfl, (utf8Length_blankPart ..).symm, outside_iff.2 ?_⟩
  rw [placeBehind_append, outside_iff.1 houtside, hplace]

/-- What is left without quotation marks is a part of the stylesheet. -/
theorem gap {c : Char} (hkept : ∀ c ∈ kept, ¬ IsQuote c) (hc : IsVisible c)
    (h : blankFrom lineComments .code source = kept ++ c :: tail) :
    ∃ rest, Keeps lineComments kept source (c :: rest) := by
  obtain ⟨before, rest, rfl, rfl, hstep⟩ := exists_split_of_blankFrom hc h
  refine ⟨rest, before, rfl, ?_, rfl⟩
  rcases outside_or_inLiteral hc hstep with houtside | hliteral
  · exact outside_iff.1 houtside
  · have hcode : Place.code.inQuotes = false := rfl
    have hquotes := inQuotes_placeBehind hcode hkept
    rw [inLiteral_iff.1 hliteral] at hquotes
    cases hquotes

/-- A word that is left is a part of the stylesheet as it is. -/
theorem word {word : List Char} (hword : ∀ c ∈ word, isWordChar c = true)
    (h : blankFrom lineComments .code source = word ++ tail) :
    ∃ rest, source = word ++ rest ∧ Keeps lineComments word source rest := by
  induction word generalizing source with
  | nil => exact ⟨source, rfl, .nil source⟩
  | cons c word ih =>
    obtain ⟨hc, hword⟩ := List.forall_mem_cons.1 hword
    rw [List.cons_append] at h
    obtain ⟨rest, rfl, hstep, htail⟩ := exists_cons_of_blankFrom (isVisible_of_isWordChar hc) h
    have hquote : ¬ IsQuote c := not_or.2 ⟨(isWordChar_iff.1 hc).1, (isWordChar_iff.1 hc).2.1⟩
    have hcode := step_code_of_visible hquote hstep
    rw [hcode] at htail
    obtain ⟨more, rfl, hmore⟩ := ih hword htail.symm
    have hone : Keeps lineComments [c] (c :: (word ++ more)) (word ++ more) := by
      refine ⟨[c], rfl, hcode, ?_⟩
      rw [blankPart_cons, List.nil_append, hstep]
      rfl
    exact ⟨more, rfl, hone.trans hmore⟩

/-- A text in quotes that is left is a part of the stylesheet as it is. -/
theorem quoted {q : Char} (hq : IsQuote q) (hquote : q ∉ s) (hbackslash : '\\' ∉ s)
    (hbreak : '\n' ∉ s) (h : blankFrom lineComments .code source = q :: (s ++ [q]) ++ tail) :
    ∃ rest,
      source = q :: (s ++ [q]) ++ rest ∧ Keeps lineComments (q :: (s ++ [q])) source rest := by
  have hvisible : IsVisible q := by
    rcases hq with rfl | rfl <;> decide
  rw [List.cons_append, List.append_assoc, List.singleton_append] at h
  obtain ⟨behind, rfl, -, htail⟩ := exists_cons_of_blankFrom hvisible h
  rw [step_code_of_quote hq] at htail
  obtain ⟨rest, rfl⟩ := exists_of_blankFrom_quoted hquote hbackslash hbreak htail.symm
  have hclose : q :: (s ++ q :: rest) = q :: (s ++ [q]) ++ rest := by simp
  have hplace : placeBehind lineComments .code (q :: (s ++ [q])) rest = .code :=
    outside_iff.1 (.literal (.start _) hq (.of_notMem hquote hbackslash hbreak) (.inl rfl))
  have hblank : blankFrom lineComments .code (q :: (s ++ [q]) ++ rest) =
      q :: (s ++ [q]) ++ blankFrom lineComments .code rest :=
    blankFrom_quote hq hquote hbackslash hbreak
  rw [blankFrom_append, hplace] at hblank
  exact ⟨rest, hclose, _, hclose, hplace, List.append_cancel_right hblank⟩

/-- An item that is left is a part of the stylesheet as it is. -/
theorem item {tail' : List Char} (h : IsItem quote s tail') (hbackslash : '\\' ∉ s)
    (hbreak : '\n' ∉ s) (hblank : blankFrom lineComments .code source = marked quote s ++ tail) :
    ∃ rest, source = marked quote s ++ rest ∧ Keeps lineComments (marked quote s) source rest := by
  cases quote with
  | none => exact word (h.word rfl) hblank
  | some q => exact quoted (h.quoted q rfl).1 (h.quoted q rfl).2 hbackslash hbreak hblank

/-- What stands before an item is a part of the stylesheet. The induction is on the items before it,
none of which holds a backslash. -/
theorem precedes {start : List Char} {read : List (List Char)} (hstart : ∀ c ∈ start, ¬ IsQuote c)
    (h : Precedes read before) (hread : ∀ r ∈ read, '\\' ∉ r ∧ '\n' ∉ r) {c : Char}
    (hc : IsVisible c)
    (hblank : blankFrom lineComments .code source = start ++ (before ++ c :: tail)) :
    ∃ rest, Keeps lineComments (start ++ before) source (c :: rest) := by
  induction h generalizing c tail with
  | @first lead hlead =>
    rw [← List.append_assoc] at hblank
    exact gap (List.forall_mem_append.2 ⟨hstart, hlead.notQuote⟩) hc hblank
  | @next read before s gapChars lead quote h hitem hgap hlead ih =>
    obtain ⟨hread, hs⟩ := List.forall_mem_append.1 hread
    obtain ⟨hbackslash, hbreak⟩ := hs s (List.mem_singleton_self s)
    obtain ⟨d, ds, hd, hvisible⟩ := hitem.exists_head
    have hbefore : blankFrom lineComments .code source = start ++ (before ++ d ::
        (ds ++ ((gapChars ++ ',' :: lead) ++ c :: tail))) := by
      rw [hblank, hd]
      simp only [List.append_assoc, List.cons_append]
    obtain ⟨rest, hkeeps⟩ := ih hread hvisible hbefore
    -- What comes before the item is kept, so the rest of both texts can be compared.
    rw [hkeeps.blankFrom_eq, List.append_assoc, List.append_cancel_left_eq,
      List.append_cancel_left_eq, ← List.cons_append, ← hd] at hbefore
    obtain ⟨behind, hbehind, hkeepsItem⟩ := item hitem hbackslash hbreak hbefore
    rw [hkeepsItem.blankFrom_eq, List.append_cancel_left_eq] at hbefore
    have hquotes : ∀ c ∈ gapChars ++ ',' :: lead, ¬ IsQuote c :=
      List.forall_mem_append.2 ⟨hgap.notQuote, List.forall_mem_cons.2 ⟨by decide, hlead.notQuote⟩⟩
    obtain ⟨more, hkeepsGap⟩ := gap hquotes hc hbefore
    refine ⟨more, ?_⟩
    have hall := hkeeps.trans (hkeepsItem.trans hkeepsGap)
    rwa [List.append_assoc] at hall

end Keeps

/-! ## Specifiers of a stylesheet -/

/-- A specifier with its quotation marks stands in a stylesheet behind `before`: it is the whole
content of a string literal, or a word outside of comments and string literals. -/
structure StandsOutside (lineComments : Bool) (before : List Char) (quote : Option Char)
    (s rest : List Char) : Prop where
  outside : Outside lineComments before (marked quote s ++ rest)
  inside : ∀ q ∈ quote, InsideQuotes q s
  behind : Outside lineComments (before ++ marked quote s) rest

/-- A specifier is read from an import statement of a stylesheet that begins outside of all
comments. If it begins outside of all string literals as well, and no backslash stands in the
specifier and in those before it, then the stylesheet holds it in the same place as the statement
does. -/
def IsReadFrom (lineComments : Bool) (source : List Char) (specifier : String) : Prop :=
  ∃ before rest statement read lead quote s tail,
    IsFound lineComments source before rest statement ∧ specifier = String.ofList s ∧
    Stands (statement.drop importWord.length) read lead quote s tail ∧
    (Outside lineComments before rest → (∀ r ∈ read ++ [s], '\\' ∉ r) →
      ∃ inner behind, rest = inner ++ (marked quote s ++ behind) ∧
        utf8Length inner = utf8Length (importWord ++ lead) ∧
        StandsOutside lineComments (before ++ inner) quote s behind)

/-- Behind a character that is not white, a line break would be left by dropping white space. -/
theorem lineBreak_notMem_of_append {as bs : List Char} {c : Char} (hc : isWhite c = false)
    (h : '\n' ∉ (as ++ c :: bs).dropWhile isWhite) : '\n' ∉ bs := by
  intro hmem
  apply h
  rw [List.dropWhile_append]
  split
  · rw [List.dropWhile_cons_of_neg (by rw [hc]; exact Bool.false_ne_true)]
    exact List.mem_cons_of_mem _ hmem
  · exact List.mem_append_right _ (List.mem_cons_of_mem _ hmem)

/-- Behind the white space at its beginning a statement stands on one line. -/
theorem IsStatement.lineBreak_notMem {statement : List Char} (h : IsStatement statement rest) :
    '\n' ∉ (statement.drop importWord.length).dropWhile isWhite := by
  obtain ⟨white, body, closing, rfl, -, hwhite, hbody, hcloses⟩ := h
  rw [List.drop_left, List.dropWhile_append_of_pos hwhite]
  intro hmem
  rcases List.mem_append.1 ((List.dropWhile_sublist _).mem hmem) with hmem | hmem
  · exact (hbody _ hmem).2 rfl
  · cases hcloses with
    | semicolon => exact absurd (List.mem_singleton.1 hmem) (by decide)
    | lineEnd => exact List.not_mem_nil hmem
    | textEnd => exact List.not_mem_nil hmem

/-- A specifier of a statement has no line break in it. -/
theorem Stands.lineBreak_notMem {read : List (List Char)} (h : Stands cs read before quote s tail)
    (hcs : '\n' ∉ cs.dropWhile isWhite) : '\n' ∉ s := by
  cases quote with
  | some q =>
    have hq : isWhite q = false := by
      rcases (h.item.quoted q rfl).1 with rfl | rfl <;> decide
    rw [h.text_eq, marked, List.cons_append, List.append_assoc] at hcs
    exact fun hmem => lineBreak_notMem_of_append hq hcs (List.mem_append_left _ hmem)
  | none => exact fun hmem => (isVisible_of_isWordChar (h.item.word rfl _ hmem)).2 rfl

/-- A statement outside of comments and string literals is what blanking from there on begins
with. -/
theorem IsFound.exists_blankFrom {statement : List Char}
    (h : IsFound lineComments source before rest statement)
    (houtside : Outside lineComments before rest) :
    ∃ tail, blankFrom lineComments .code rest = statement ++ tail ∧ IsStatement statement tail := by
  obtain ⟨init, tail, hblank, hlength, hstatement⟩ := h.blanked
  refine ⟨tail, ?_, hstatement⟩
  rw [h.source_eq, blankComments, blankFrom_append, outside_iff.1 houtside] at hblank
  have hinit : blankPart lineComments .code before rest = init := by
    apply eq_of_utf8Length_eq (List.prefix_append ..) ⟨statement ++ tail, hblank.symm⟩
    rw [utf8Length_blankPart, hlength]
  rw [hinit] at hblank
  exact List.append_cancel_left hblank

/-- As long as no backslash is met, a specifier stands in the stylesheet where it is read. -/
theorem exists_standsOutside {statement lead : List Char} {read : List (List Char)}
    (hfound : IsFound lineComments source before rest statement)
    (houtside : Outside lineComments before rest)
    (hstands : Stands (statement.drop importWord.length) read lead quote s tail)
    (hread : ∀ r ∈ read ++ [s], '\\' ∉ r ∧ '\n' ∉ r) :
    ∃ inner behind, rest = inner ++ (marked quote s ++ behind) ∧
      utf8Length inner = utf8Length (importWord ++ lead) ∧
      StandsOutside lineComments (before ++ inner) quote s behind := by
  obtain ⟨more, hblank, hstatement⟩ := hfound.exists_blankFrom houtside
  obtain ⟨hread, hs⟩ := List.forall_mem_append.1 hread
  obtain ⟨hbackslash, hbreak⟩ := hs s (List.mem_singleton_self s)
  obtain ⟨c, cs, hcs, hvisible⟩ := hstands.item.exists_head
  have hword : ∀ c ∈ importWord, ¬ IsQuote c := by decide
  have htext : statement = importWord ++ (lead ++ (marked quote s ++ tail)) := by
    obtain ⟨behind, hbehind⟩ := hstatement.importWord_prefix
    rw [← hstands.text_eq, ← hbehind, List.drop_left]
  -- The comments before the first visible character of the specifier are blank by now.
  have hhead : blankFrom lineComments .code rest =
      importWord ++ (lead ++ c :: (cs ++ (tail ++ more))) := by
    rw [hblank, htext, hcs]
    simp only [List.append_assoc, List.cons_append]
  obtain ⟨rest', hkeeps⟩ := Keeps.precedes hword hstands.precedes hread hvisible hhead
  rw [hkeeps.blankFrom_eq, List.append_assoc, List.append_cancel_left_eq,
    List.append_cancel_left_eq, ← List.cons_append, ← hcs] at hhead
  obtain ⟨behind, hbehind, hkeepsItem⟩ := Keeps.item hstands.item hbackslash hbreak hhead
  obtain ⟨inner, rfl, hlength, hinner⟩ := hkeeps.exists_outside houtside
  obtain ⟨part, hpart, -, hpartOutside⟩ := hkeepsItem.exists_outside hinner
  obtain rfl : marked quote s = part := List.append_cancel_right (hbehind.symm.trans hpart)
  rw [hbehind] at hinner
  refine ⟨inner, behind, by rw [hbehind], hlength, hinner, ?_, hpartOutside⟩
  exact fun q hq => .of_notMem (hstands.item.quoted q hq).2 hbackslash hbreak

/-- **The specifiers of a stylesheet stand in its statements.** -/
theorem imports_isReadFrom (lineComments : Bool) (source : List Char) :
    ∀ d ∈ imports lineComments source, IsReadFrom lineComments source d.specifier := by
  intro d hd
  obtain ⟨⟨p, statement⟩, hstatement, hd⟩ := List.mem_flatMap.1 hd
  obtain ⟨s, hs, rfl⟩ := List.mem_map.1 hd
  obtain ⟨before, rest, hfound, -⟩ := isFound_of_mem_statements hstatement
  obtain ⟨read, others, hspecifiers⟩ := List.append_of_mem (List.mem_filter.1 hs).1
  obtain ⟨lead, quote, tail, hstands⟩ := stands_of_specifiers hspecifiers
  refine ⟨before, rest, statement, read, lead, quote, s, tail, hfound, rfl, hstands, ?_⟩
  intro houtside hbackslash
  obtain ⟨_, _, -, -, hisStatement⟩ := hfound.blanked
  apply exists_standsOutside hfound houtside hstands
  intro r hr
  refine ⟨hbackslash r hr, ?_⟩
  have hmem : r ∈ specifiers (statement.drop importWord.length) := by
    rw [hspecifiers, List.append_cons]
    exact List.mem_append_left _ hr
  obtain ⟨read', others', hsplit⟩ := List.append_of_mem hmem
  obtain ⟨_, _, _, hstands'⟩ := stands_of_specifiers hsplit
  exact hstands'.lineBreak_notMem hisStatement.lineBreak_notMem

/-- A list with an address in quotes and a word, and with a comment between them. -/
def listedSheet : List Char := "@import url( \"a b\" ) , /* x */ c;".toList

/-- Both specifiers of a list are read from it. -/
theorem imports_isReadFrom_listedSheet :
    (imports false listedSheet).map Dependency.specifier = ["a b", "c"] ∧
      IsReadFrom false listedSheet "a b" ∧ IsReadFrom false listedSheet "c" := by
  have hread : ∀ s, (∃ d ∈ imports false listedSheet, d.specifier = s) →
      IsReadFrom false listedSheet s := by
    rintro s ⟨d, hd, rfl⟩
    exact imports_isReadFrom false listedSheet d hd
  exact ⟨by decide, hread _ (by decide), hread _ (by decide)⟩

/-- A stylesheet that mentions a statement in a string literal. -/
def mentioningSheet : List Char := "a::before \x7b content: \"@import x\"; \x7d".toList

/-- A statement with a quotation mark behind a backslash. -/
def escapingSheet : List Char := "@import \"a\\\"b\";".toList

/-- A statement that is only mentioned in a string literal is read all the same, what is in quotes
ends at a quotation mark behind a backslash, and of an empty address the opening is read. -/
theorem not_imports_wholeLiteral :
    (¬ ∀ lineComments source, ∀ d ∈ imports lineComments source, ∃ before rest statement s,
      IsFound lineComments source before rest statement ∧ s ∈ reportedSpecifiers statement ∧
        d.specifier = String.ofList s ∧ Outside lineComments before rest) ∧
    (¬ ∀ lineComments source, ∀ d ∈ imports lineComments source, ∃ before quote s rest,
      source = before ++ (marked quote s ++ rest) ∧ d.specifier = String.ofList s ∧
        StandsOutside lineComments before quote s rest) ∧
    ¬ ∀ lineComments source, ∀ d ∈ imports lineComments source, d.specifier ≠ "url(" := by
  refine ⟨fun h => ?_, fun h => ?_, fun h => ?_⟩
  · have hall : ∀ n ≤ mentioningSheet.length, importWord <+: mentioningSheet.drop n →
        ¬ Outside false (mentioningSheet.take n) (mentioningSheet.drop n) := by decide
    obtain ⟨d, hd⟩ := List.exists_mem_of_ne_nil (imports false mentioningSheet) (by decide)
    obtain ⟨before, rest, statement, s, hfound, -, -, houtside⟩ := h false mentioningSheet d hd
    have hsource := hfound.source_eq
    have hn := hall before.length (by rw [hsource, List.length_append]; omega)
    rw [hsource, List.drop_left, List.take_left] at hn
    exact hn hfound.word houtside
  · have hall : ∀ n ≤ escapingSheet.length, ['a', '\\'] <+: escapingSheet.drop n →
        ¬ Outside false (escapingSheet.take n) (escapingSheet.drop n) := by decide
    have hmem : ∃ d ∈ imports false escapingSheet, d.specifier = String.ofList ['a', '\\'] := by
      decide
    obtain ⟨d, hd, hspecifier⟩ := hmem
    obtain ⟨before, quote, s, rest, hsource, hs, hstands⟩ := h false escapingSheet d hd
    obtain rfl : ['a', '\\'] = s := String.ofList_injective (hspecifier.symm.trans hs)
    cases quote with
    | some q =>
      -- the backslash would be the last character of the literal
      cases hstands.inside q rfl with
      | char _ hinside =>
        cases hinside with
        | char hc _ => exact hc.1 rfl
    | none =>
      have hn := hall before.length (by rw [hsource, List.length_append]; omega)
      rw [hsource, List.drop_left, List.take_left] at hn
      exact hn (List.prefix_append ..) hstands.outside
  · have hmem : ∃ d ∈ imports false "@import url();".toList, d.specifier = "url(" := by decide
    obtain ⟨d, hd, hspecifier⟩ := hmem
    exact h _ _ d hd hspecifier

end RefGraph.Style
