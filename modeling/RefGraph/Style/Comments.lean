import RefGraph.Text

/-!
# Comments of stylesheets

Comments are replaced by spaces, one for each byte, so that every place keeps its line and column.

* `Style.Place.step`: reads one character, knowing the next one.
* `Style.blankComments`: the text of a stylesheet without its comments.
-/

namespace RefGraph.Style

/-- Where a character of a stylesheet lies: outside, in quotes, behind a backslash in quotes, at the
star that opens a block comment, in such a comment, at the slash that closes it, or in a comment to
the end of the line. -/
inductive Place where
  | code
  | quoted (quote : Char)
  | escaped (quote : Char)
  | opening
  | block
  | closing
  | line
deriving DecidableEq, Repr, Inhabited

/-- The place of the next character, and whether this one belongs to a comment. Comments to the end
of the line count only if `lineComments` is set. -/
def Place.step (lineComments : Bool) (place : Place) (c : Char) (next : Option Char) :
    Place × Bool :=
  match place with
  | .code =>
    if c = '"' ∨ c = '\'' then (.quoted c, false)
    else if c = '/' ∧ next = some '*' then (.opening, true)
    else if c = '/' ∧ next = some '/' ∧ lineComments then (.line, true)
    else (.code, false)
  | .quoted q =>
    if c = '\\' then (.escaped q, false)
    else if c = q ∨ c = '\n' then (.code, false)
    else (.quoted q, false)
  | .escaped q => (.quoted q, false)
  | .opening => (.block, true)
  | .block => if c = '*' ∧ next = some '/' then (.closing, true) else (.block, true)
  | .closing => (.code, true)
  | .line => if c = '\n' then (.code, false) else (.line, true)

/-- What stands for a character of a comment: a space for each of its bytes, or the line break. -/
def blankChar (c : Char) : List Char :=
  if c = '\n' then [c] else List.replicate c.utf8Size ' '

/-- Blanks the comments of a text that begins at a given place. -/
def blankFrom (lineComments : Bool) : Place → List Char → List Char
  | _, [] => []
  | place, c :: cs =>
    let (next, isComment) := place.step lineComments c cs.head?
    (if isComment then blankChar c else [c]) ++ blankFrom lineComments next cs

/-- Blanking a character keeps its length. -/
theorem utf8Length_blankChar (c : Char) : utf8Length (blankChar c) = c.utf8Size := by
  unfold blankChar
  split
  · simp [utf8Length]
  · have hspace : (' ' : Char).utf8Size = 1 := by decide
    rw [utf8Length_replicate, hspace, Nat.mul_one]

/-- Blanking keeps the length of a text. -/
theorem utf8Length_blankFrom (lineComments : Bool) (place : Place) (cs : List Char) :
    utf8Length (blankFrom lineComments place cs) = utf8Length cs := by
  induction cs generalizing place with
  | nil => rfl
  | cons c cs ih =>
    simp only [blankFrom, utf8Length_append, ih, utf8Length]
    split
    · rw [utf8Length_blankChar]
    · simp [utf8Length]

/-- The text of a stylesheet with its comments blanked. -/
def blankComments (lineComments : Bool) (source : List Char) : List Char :=
  blankFrom lineComments .code source

end RefGraph.Style
