/-!
# Quoted texts

A text in quotes, with marks for the characters that would not show.

* `quoted`: a text in quotes.
-/

namespace RefGraph

/-- Ranges of characters that do not show or that join the character before: controls, spaces other
than the plain one, marks of direction, combining marks, and characters without a meaning. -/
def unseenRanges : List (Char × Char) :=
  [('\x00', '\x1f'), ('\x7f', '\u00a0'), ('\u00ad', '\u00ad'), ('\u0300', '\u036f'),
    ('\u0483', '\u0489'), ('\u0591', '\u05bd'), ('\u0600', '\u0605'), ('\u061c', '\u061c'),
    ('\u064b', '\u065f'), ('\u1680', '\u1680'), ('\u180b', '\u180f'), ('\u1ab0', '\u1ace'),
    ('\u1dc0', '\u1dff'), ('\u2000', '\u200f'), ('\u2028', '\u202f'), ('\u205f', '\u206f'),
    ('\u20d0', '\u20f0'), ('\u3000', '\u3000'), ('\u302a', '\u302f'), ('\u3099', '\u309a'),
    ('\ue000', '\uf8ff'), ('\ufe00', '\ufe0f'), ('\ufe20', '\ufe2f'), ('\ufeff', '\ufeff'),
    ('\uff9e', '\uff9f'), ('\ufff0', '\ufffb'), ('\ufffe', '\uffff'),
    (Char.ofNat 0xe0000, Char.ofNat 0x10ffff)]

/-- Whether a character does not show by itself. -/
def isUnseen (c : Char) : Bool := unseenRanges.any fun (a, b) => a ≤ c && c ≤ b

/-- A character as it stands in quotes. -/
def quotedChar (c : Char) : List Char :=
  if c = '"' ∨ c = '\\' then ['\\', c]
  else if c = '\n' then ['\\', 'n']
  else if c = '\r' then ['\\', 'r']
  else if c = '\t' then ['\\', 't']
  else if c = '\x00' then ['\\', '0']
  else if isUnseen c then '\\' :: 'u' :: '{' :: Nat.toDigits 16 c.toNat ++ ['}']
  else [c]

/-- A text in quotes. -/
def quoted (s : String) : String :=
  String.ofList ('"' :: s.toList.flatMap quotedChar ++ ['"'])

end RefGraph
