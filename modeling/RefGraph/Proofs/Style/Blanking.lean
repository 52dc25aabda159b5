import RefGraph.Style.Comments
import Mathlib.Data.List.Infix

/-!
# What blanking leaves

Text between quotes stays as it is, and so does text outside of quotes in which no comment opens.

* `OpensNone`: no comment opens among the characters of a text.
* `blankFrom_code`, `blankFrom_quote`: the two kinds of text that stay.
-/

namespace RefGraph.Style

variable {lineComments : Bool} {cs rest : List Char}

theorem blankFrom_cons (place : Place) (c : Char) (cs : List Char) :
    blankFrom lineComments place (c :: cs) =
      (if (place.step lineComments c cs.head?).2 then blankChar c else [c]) ++
        blankFrom lineComments (place.step lineComments c cs.head?).1 cs := rfl

/-! ## Outside of quotes -/

/-- No quotation mark and no comment begins among the characters of a text, as long as what comes
behind it begins with `next`. -/
def OpensNone (cs : List Char) (next : Option Char) : Prop :=
  '"' ∉ cs ∧ '\'' ∉ cs ∧ ∀ before after, cs = before ++ '/' :: after →
    ∀ d ∈ after.head?.or next, d ≠ '*' ∧ d ≠ '/'

theorem OpensNone.of_cons {c : Char} {next : Option Char} (h : OpensNone (c :: cs) next) :
    OpensNone cs next := by
  obtain ⟨hdouble, hsingle, hcomment⟩ := h
  refine ⟨fun hmem => hdouble (List.mem_cons_of_mem _ hmem),
    fun hmem => hsingle (List.mem_cons_of_mem _ hmem), fun before after hcs => ?_⟩
  exact hcomment (c :: before) after (by rw [hcs]; rfl)

/-- A character that opens neither a string literal nor a comment stays in code. -/
theorem step_code {c : Char} {next : Option Char} (hdouble : c ≠ '"') (hsingle : c ≠ '\'')
    (hcomment : c = '/' → ∀ d ∈ next, d ≠ '*' ∧ d ≠ '/') :
    Place.code.step lineComments c next = (.code, false) := by
  unfold Place.step
  dsimp only
  rw [if_neg (not_or.2 ⟨hdouble, hsingle⟩), if_neg, if_neg]
  · rintro ⟨hc, hnext, -⟩
    exact (hcomment hc '/' hnext).2 rfl
  · rintro ⟨hc, hnext⟩
    exact (hcomment hc '*' hnext).1 rfl

/-- Text outside of quotes in which nothing opens stays as it is. -/
theorem blankFrom_code (h : OpensNone cs rest.head?) :
    blankFrom lineComments .code (cs ++ rest) = cs ++ blankFrom lineComments .code rest := by
  induction cs with
  | nil => rfl
  | cons c cs ih =>
    have hstep : Place.code.step lineComments c (cs ++ rest).head? = (.code, false) := by
      obtain ⟨hdouble, hsingle, hcomment⟩ := h
      apply step_code
      · rintro rfl
        exact hdouble List.mem_cons_self
      · rintro rfl
        exact hsingle List.mem_cons_self
      · rintro rfl
        rw [List.head?_append]
        exact hcomment [] cs rfl
    rw [List.cons_append, blankFrom_cons, hstep, ih h.of_cons]
    rfl

/-- In a text without a slash no comment opens. -/
theorem opensNone_of_notMem (hdouble : '"' ∉ cs) (hsingle : '\'' ∉ cs) (hslash : '/' ∉ cs)
    (next : Option Char) : OpensNone cs next := by
  refine ⟨hdouble, hsingle, ?_⟩
  rintro before after rfl
  exact absurd (List.mem_append_right _ List.mem_cons_self) hslash

/-- Text without quotation marks and slashes stays as it is. -/
theorem blankFrom_plain (hdouble : '"' ∉ cs) (hsingle : '\'' ∉ cs) (hslash : '/' ∉ cs) :
    blankFrom lineComments .code (cs ++ rest) = cs ++ blankFrom lineComments .code rest :=
  blankFrom_code (opensNone_of_notMem hdouble hsingle hslash _)

/-- In a text without the two openings of comments none opens, unless one does with what follows. -/
theorem opensNone_of_infix (hdouble : '"' ∉ cs) (hsingle : '\'' ∉ cs)
    (hblock : ¬ ['/', '*'] <:+: cs) (hline : ¬ ['/', '/'] <:+: cs) {next : Option Char}
    (hnext : ∀ d ∈ next, d ≠ '*' ∧ d ≠ '/') : OpensNone cs next := by
  refine ⟨hdouble, hsingle, ?_⟩
  rintro before after rfl d hd
  cases after with
  | nil => exact hnext d hd
  | cons a after =>
    rw [← Option.some.inj hd]
    constructor
    · rintro rfl
      exact hblock ⟨before, after, by simp⟩
    · rintro rfl
      exact hline ⟨before, after, by simp⟩

/-! ## Between quotes -/

/-- A string literal on one line and without backslashes is kept up to its end. -/
theorem blankFrom_quoted {q : Char} (hquote : q ∉ cs) (hbackslash : '\\' ∉ cs) (hbreak : '\n' ∉ cs)
    (hq : q ≠ '\\') :
    blankFrom lineComments (.quoted q) (cs ++ q :: rest) =
      cs ++ q :: blankFrom lineComments .code rest := by
  induction cs with
  | nil =>
    have hstep : (Place.quoted q).step lineComments q rest.head? = (.code, false) := by
      unfold Place.step
      dsimp only
      rw [if_neg hq, if_pos (.inl rfl)]
    rw [List.nil_append, blankFrom_cons, hstep]
    rfl
  | cons c cs ih =>
    rw [List.mem_cons, not_or] at hquote hbackslash hbreak
    have hstep : ∀ next, (Place.quoted q).step lineComments c next = (.quoted q, false) := by
      intro next
      unfold Place.step
      dsimp only
      rw [if_neg (Ne.symm hbackslash.1), if_neg (not_or.2 ⟨Ne.symm hquote.1, Ne.symm hbreak.1⟩)]
    rw [List.cons_append, blankFrom_cons, hstep, ih hquote.2 hbackslash.2 hbreak.2]
    rfl

/-- A text in quotes on one line stays as it is, comments in it included. -/
theorem blankFrom_quote {q : Char} (hq : q = '"' ∨ q = '\'') (hquote : q ∉ cs)
    (hbackslash : '\\' ∉ cs) (hbreak : '\n' ∉ cs) :
    blankFrom lineComments .code (q :: (cs ++ [q]) ++ rest) =
      q :: (cs ++ [q]) ++ blankFrom lineComments .code rest := by
  have hstep : ∀ next, Place.code.step lineComments q next = (.quoted q, false) := by
    intro next
    unfold Place.step
    dsimp only
    rw [if_pos hq]
  have hescape : q ≠ '\\' := by
    rcases hq with rfl | rfl <;> decide
  rw [List.cons_append, List.append_assoc, List.singleton_append, blankFrom_cons, hstep,
    blankFrom_quoted hquote hbackslash hbreak hescape]
  simp

/-! ## Block comments -/

theorem blankChar_of_ne {c : Char} (h : c ≠ '\n') : blankChar c = List.replicate c.utf8Size ' ' :=
  if_neg h

/-- A block comment as it is written. -/
def commentText (inside : List Char) : List Char := ['/', '*'] ++ inside ++ ['*', '/']

end RefGraph.Style
