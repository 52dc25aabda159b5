/-!
# Grammar rules

A grammar is a list of named rules. A rule is built from spellings, lexical classes and other rules
by sequence, choice and repetition, and may say how tightly it binds, under which label its parts
appear in the tree, and under which kind they are shown.

* `Rule`: the rules, with `opt`, `many`, `commas` and the like as abbreviations.
* `Grammar`: rules together with the order of their ranks.
-/

namespace RefGraph.Script

/-- The lexical classes: tokens that are described by a pattern or by their context, and not by one
spelling. -/
inductive LexClass where
  | hashBang
  | identifier
  | privateName
  | number
  | doubleFragment
  | singleFragment
  | escape
  | comment
  | regexBody
  | regexClose
  | regexFlags
  | staticGetter
  | dashedName
  | characterReference
  | doubleMarkupFragment
  | singleMarkupFragment
  | automaticSemicolon
  | signatureSemicolon
  | templateFragment
  | ternaryMark
  | htmlComment
  | markupText
deriving DecidableEq, Hashable, Repr, Inhabited

/-- The kind under which a token of the class appears in a tree. A kind that starts with `_` is not
shown. -/
def LexClass.kind : LexClass → String
  | .hashBang => "hash_bang_line"
  | .identifier => "identifier"
  | .privateName => "private_property_identifier"
  | .number => "number"
  | .doubleFragment => "unescaped_double_string_fragment"
  | .singleFragment => "unescaped_single_string_fragment"
  | .escape => "escape_sequence"
  | .comment => "comment"
  | .regexBody => "regex_pattern"
  | .regexClose => "/"
  | .regexFlags => "regex_flags"
  | .staticGetter => "static get"
  | .dashedName => "jsx_identifier"
  | .characterReference => "html_character_reference"
  | .doubleMarkupFragment => "unescaped_double_jsx_string_fragment"
  | .singleMarkupFragment => "unescaped_single_jsx_string_fragment"
  | .automaticSemicolon => "_automatic_semicolon"
  | .signatureSemicolon => "_function_signature_automatic_semicolon"
  | .templateFragment => "_template_chars"
  | .ternaryMark => "_ternary_qmark"
  | .htmlComment => "html_comment"
  | .markupText => "jsx_text"

/-- How tightly a production binds: by number, or by a name that the grammar ranks. -/
inductive Level where
  | number (n : Int)
  | named (name : String)
deriving DecidableEq, Hashable, Repr, Inhabited

instance : Coe String Level := ⟨.named⟩
instance (n : Nat) : OfNat Level n := ⟨.number n⟩
instance : Neg Level := ⟨fun
  | .number n => .number (-n)
  | .named name => .named name⟩

/-- To which side a production groups when it meets itself. -/
inductive Side where
  | left
  | right
deriving DecidableEq, Hashable, Repr, Inhabited

/-- The kind under which a part of a production is shown, and whether that kind names a rule or is
a spelling. -/
structure Shown where
  kind : String
  named : Bool
deriving DecidableEq, Hashable, Repr, Inhabited

/-- A grammar rule. -/
inductive Rule where
  | blank
  | text (spelling : String)
  | lex (c : LexClass)
  | ref (name : String)
  | seq (parts : List Rule)
  | alt (choices : List Rule)
  | many1 (part : Rule)
  | binding (level : Level) (side : Option Side) (part : Rule)
  | weighed (weight : Int) (part : Rule)
  | field (label : String) (part : Rule)
  | shown (as : Shown) (part : Rule)
deriving BEq, Hashable, Repr, Inhabited

namespace Rule

instance : Coe String Rule := ⟨.text⟩

/-- The part or nothing. -/
def opt (part : Rule) : Rule := alt [part, blank]

/-- The part any number of times. -/
def many (part : Rule) : Rule := alt [many1 part, blank]

/-- The part once or more, with a separator between two of them. -/
def separated1 (separator part : Rule) : Rule := seq [part, many (seq [separator, part])]

/-- The part once or more, with commas between. -/
def commas1 (part : Rule) : Rule := separated1 "," part

/-- The part any number of times, with commas between. -/
def commas (part : Rule) : Rule := opt (commas1 part)

/-- The part binds at a level and groups to neither side. -/
def binds (level : Level) (part : Rule) : Rule := binding level none part

/-- The part binds at a level and groups to the left. -/
def bindsLeft (level : Level) (part : Rule) : Rule := binding level (some .left) part

/-- The part binds at a level and groups to the right. -/
def bindsRight (level : Level) (part : Rule) : Rule := binding level (some .right) part

/-- The part is shown as a node of another kind. -/
def renamed (kind : String) (part : Rule) : Rule := shown ⟨kind, true⟩ part

/-- The part is shown as if it had another spelling. -/
def spelled (spelling : String) (part : Rule) : Rule := shown ⟨spelling, false⟩ part

end Rule

/-- An entry of a ranking: a level by its name, or the productions of a rule. -/
inductive Rank where
  | level (name : String)
  | rule (name : String)
deriving DecidableEq, Repr, Inhabited

/-- Named rules in order; the first one is the whole text. -/
abbrev Rules := List (String × Rule)

/-- Replaces rules of the same name where they stand and adds the others at the end. -/
def Rules.amend (base changes : Rules) : Rules :=
  base.map (fun (name, rule) => (name, (changes.lookup name).getD rule)) ++
    changes.filter fun (name, _) => (base.lookup name).isNone

/-- A grammar. Each ranking lists, from tight to loose, levels and rules that compete; `inlined`
rules are replaced by their choices wherever they are used; `categories` are rules that only group
others and are not shown; `words` are rules that stand for a token of one spelling. -/
structure Grammar where
  rules : Rules
  rankings : List (List Rank)
  inlined : List String
  categories : List String
  words : List (String × String)
deriving Inhabited

end RefGraph.Script
