import RefGraph.Script.Dialect
import Std.Data.HashMap
import Std.Data.HashSet

/-!
# Productions

A grammar whose rules are written with choices and repetitions is turned into productions: plain
sequences of symbols. A repetition becomes a rule of its own that is shared by all places that
repeat the same thing, and the rules that the grammar marks as inlined are replaced by their
productions.

* `Productions.ofGrammar`: the productions of a grammar, with tokens and rules numbered.
-/

namespace RefGraph.Script

open Std (HashMap HashSet)

/-- A token of a grammar. -/
inductive Token where
  | endOfInput
  | text (spelling : String)
  | lex (c : LexClass)
deriving DecidableEq, Hashable, Repr, Inhabited

/-- A token or a rule, by its number. -/
inductive Symbol where
  | token (i : Nat)
  | rule (i : Nat)
deriving DecidableEq, Hashable, Repr, Inhabited

/-- How a part of a production appears in its node: under which field and as what kind. -/
structure Label where
  field : Option String := none
  shown : Option Shown := none
deriving DecidableEq, Hashable, Repr, Inhabited

/-- One part of a production, with the level and the side that hold once it has been read. -/
structure Step where
  symbol : Symbol
  level : Option Level := none
  side : Option Side := none
  label : Label := {}
deriving DecidableEq, Hashable, Repr, Inhabited

/-- A production: its parts, and the weight that decides between two readings of the same text. -/
structure Production where
  weight : Int
  steps : List Step
deriving DecidableEq, Hashable, Repr, Inhabited

/-- Of two weights the one of larger magnitude; the first one if they are equally large. -/
def heavier (a b : Int) : Int := if b.natAbs > a.natAbs then b else a

/-! ## Repetitions -/

mutual

/-- Replaces every repetition in a rule by a reference to the rule that stands for it. These rules
are collected, one for all repetitions of the same thing. -/
def Rule.nameRepetitions (owner : String) : Rule → StateM Rules Rule
  | .seq parts => return .seq (← nameRepetitionsList owner parts)
  | .alt choices => return .alt (← nameRepetitionsList owner choices)
  | .many1 part => do
    let part ← part.nameRepetitions owner
    let met : Rules ← get
    match met.find? fun known => known.2 == part with
    | some known => return .ref known.1
    | none =>
      let name := owner ++ "+" ++ toString met.length
      set (met ++ [(name, part)])
      return .ref name
  | .binding level side part => return .binding level side (← part.nameRepetitions owner)
  | .weighed weight part => return .weighed weight (← part.nameRepetitions owner)
  | .field label part => return .field label (← part.nameRepetitions owner)
  | .shown as part => return .shown as (← part.nameRepetitions owner)
  | rule => return rule

/-- `Rule.nameRepetitions` for each rule of a list. -/
def nameRepetitionsList (owner : String) : List Rule → StateM Rules (List Rule)
  | [] => return []
  | rule :: rules => return (← rule.nameRepetitions owner) :: (← nameRepetitionsList owner rules)

end

/-- `Rule.nameRepetitions` for each of the named rules. -/
def Rules.nameRepetitions : Rules → StateM Rules Rules
  | [] => return []
  | (name, rule) :: rules => return (name, ← rule.nameRepetitions name) :: (← nameRepetitions rules)

/-- The rules of a grammar without repetitions: its own ones, and then those that stand for what is
repeated. -/
def Grammar.plainRules (g : Grammar) : Rules :=
  let (own, met) := g.rules.nameRepetitions.run []
  own ++ met

/-! ## Numbering -/

mutual

/-- The tokens of a rule, in the order in which they are written. -/
def Rule.tokens : Rule → List Token
  | .text spelling => [.text spelling]
  | .lex c => [.lex c]
  | .seq parts => tokensOfList parts
  | .alt choices => tokensOfList choices
  | .many1 part | .binding _ _ part | .weighed _ part | .field _ part | .shown _ part =>
    part.tokens
  | .blank | .ref _ => []

/-- The tokens of a list of rules. -/
def tokensOfList : List Rule → List Token
  | [] => []
  | rule :: rules => rule.tokens ++ tokensOfList rules

end

/-- Tokens in the order of their numbers, and the number of each. -/
abbrev NumberedTokens := Array Token × HashMap Token Nat

/-- Gives a token the next number, unless it has one. -/
def NumberedTokens.add (found : NumberedTokens) (token : Token) : NumberedTokens :=
  if found.2.contains token then found
  else (found.1.push token, found.2.insert token found.1.size)

/-- The tokens of a list, each of them once. -/
def numberTokens (tokens : List Token) : NumberedTokens := tokens.foldl NumberedTokens.add (#[], {})

/-- The numbers of names in the order of a list. -/
def numberNames (names : List String) : HashMap String Nat :=
  names.zipIdx.foldl (fun numbers (name, i) => numbers.insert name i) {}

/-- Numbers for the tokens and rules of a grammar. -/
structure Numbering where
  tokens : Array Token
  tokenNumber : HashMap Token Nat
  ruleNumber : HashMap String Nat
  ruleCount : Nat
  words : HashMap String String

/-- The tokens of a grammar whose rules are given: the end of the text comes first. -/
def Grammar.tokens (g : Grammar) (rules : Rules) : List Token :=
  [.endOfInput, .lex .identifier] ++ rules.flatMap (fun (_, rule) => rule.tokens) ++
    g.words.map (fun (_, spelling) => .text spelling) ++ [.lex .comment, .lex .htmlComment]

/-- The numbers for a grammar whose rules are given, in the order in which tokens and rules are
written. The first rule describes the whole text. -/
def Numbering.ofRules (g : Grammar) (rules : Rules) : Numbering :=
  let tokens := numberTokens (g.tokens rules)
  { tokens := tokens.1
    tokenNumber := tokens.2
    ruleNumber := numberNames (rules.map Prod.fst)
    ruleCount := rules.length
    words := HashMap.ofList g.words }

/-- The symbol to which a name refers: the token of a word, or a rule. A name of neither refers to a
rule with no productions. -/
def Numbering.symbolOf (n : Numbering) (name : String) : Symbol :=
  match n.words[name]? with
  | some spelling => .token (n.tokenNumber.getD (.text spelling) 0)
  | none => .rule (n.ruleNumber.getD name n.ruleCount)

/-! ## Choices -/

/-- What holds around a part of a rule. -/
structure Surroundings where
  level : Option Level := none
  side : Option Side := none
  label : Label := {}

/-- Changes the last step of a production. -/
def Production.mapLast (f : Step → Step) (p : Production) : Production :=
  match p.steps.reverse with
  | [] => p
  | last :: before => { p with steps := (f last :: before).reverse }

/-- Keeps the first of several equal productions. -/
def distinctProductions (ps : List Production) : List Production :=
  (ps.foldl (fun (acc : Array Production × HashSet Production) p =>
    if acc.2.contains p then acc else (acc.1.push p, acc.2.insert p)) (#[], {})).1.toList

/-- Writes every production of one list before every one of another. -/
def joinProductions (ps qs : List Production) : List Production :=
  ps.flatMap fun p => qs.map fun q => ⟨heavier p.weight q.weight, p.steps ++ q.steps⟩

mutual

/-- The productions of a rule without repetitions. Inside a rule that is given a level every step
takes it, except for the last one if the rule does not end its production: it keeps the level of
the surroundings. -/
def Rule.productions (n : Numbering) (around : Surroundings) (atEnd : Bool) :
    Rule → List Production
  | .blank => [⟨0, []⟩]
  | .text spelling =>
    [⟨0, [⟨.token (n.tokenNumber.getD (.text spelling) 0), around.level, around.side,
      around.label⟩]⟩]
  | .lex c =>
    [⟨0, [⟨.token (n.tokenNumber.getD (.lex c) 0), around.level, around.side, around.label⟩]⟩]
  | .ref name => [⟨0, [⟨n.symbolOf name, around.level, around.side, around.label⟩]⟩]
  | .seq parts => sequenceProductions n around atEnd parts
  | .alt choices => choiceProductions n around atEnd choices
  | .many1 part => part.productions n around atEnd
  | .binding level side part =>
    let inner := part.productions n
      { around with level := some level, side := side.orElse fun _ => around.side } atEnd
    if atEnd then inner
    else inner.map (Production.mapLast fun step =>
      { step with
        level := around.level
        side := if side.isSome then around.side else step.side })
  | .weighed weight part =>
    (part.productions n around atEnd).map fun p => { p with weight := heavier weight p.weight }
  | .field label part =>
    part.productions n { around with label := { around.label with field := some label } } atEnd
  | .shown as part =>
    part.productions n { around with label := { around.label with shown := some as } } atEnd

/-- The productions of rules that follow each other. -/
def sequenceProductions (n : Numbering) (around : Surroundings) (atEnd : Bool) :
    List Rule → List Production
  | [] => [⟨0, []⟩]
  | part :: parts =>
    joinProductions (part.productions n around (atEnd && parts.isEmpty))
      (sequenceProductions n around atEnd parts)

/-- The productions of rules of which one is chosen. -/
def choiceProductions (n : Numbering) (around : Surroundings) (atEnd : Bool) :
    List Rule → List Production
  | [] => []
  | choice :: choices =>
    choice.productions n around atEnd ++ choiceProductions n around atEnd choices

end

/-! ## Inlined rules -/

/-- Puts a production where a step of another one stands. The labels of the step go to all parts
put in, its level and side to the last one if that has none. -/
def Step.replaceBy (step : Step) (p : Production) : Production :=
  let labelled := p.steps.map fun inner =>
    { inner with label :=
      { field := step.label.field.orElse fun _ => inner.label.field
        shown := step.label.shown.orElse fun _ => inner.label.shown } }
  Production.mapLast (fun last =>
    { last with
      level := last.level.orElse fun _ => step.level
      side := last.side.orElse fun _ => step.side }) { p with steps := labelled }

/-- The productions that arise when every step with an inlined rule is replaced. -/
def inlineSteps (inlined : HashMap Nat (List Production)) : List Step → List Production
  | [] => [⟨0, []⟩]
  | step :: steps =>
    let rest := inlineSteps inlined steps
    let here : List Production :=
      match step.symbol with
      | .token _ => [⟨0, [step]⟩]
      | .rule i =>
        match inlined[i]? with
        | none => [⟨0, [step]⟩]
        | some ps => ps.map step.replaceBy
    joinProductions here rest

/-- The productions of one rule, with the inlined rules replaced. -/
def inlineProductions (inlined : HashMap Nat (List Production)) (ps : List Production) :
    List Production :=
  distinctProductions (ps.flatMap fun p => (inlineSteps inlined p.steps).map fun q =>
    { q with weight := heavier p.weight q.weight })

/-- Inlined rules may use each other. After as many passes as there are of them, none is left. -/
def settleInlined (numbers : List Nat) (productions : Array (List Production)) :
    Nat → HashMap Nat (List Production) → HashMap Nat (List Production)
  | 0, settled => settled
  | passes + 1, settled =>
    let next := numbers.foldl (fun (m : HashMap Nat (List Production)) i =>
      m.insert i (inlineProductions settled (productions.getD i []))) {}
    settleInlined numbers productions passes next

/-! ## The whole grammar -/

/-- The productions of a grammar. `hidden` tells which rules do not appear in the tree, and
`repetition` which rules stand for a repetition. -/
structure Productions where
  tokens : Array Token
  wordKinds : HashMap Nat String
  ruleNames : Array String
  hidden : Array Bool
  repetition : Array Bool
  ofRule : Array (List Production)
deriving Inhabited

/-- The productions of a rule that repeats a part: the part, or more of the same and the part. -/
def repetitionProductions (self : Nat) (ps : List Production) : List Production :=
  ps ++ ps.map fun p => { p with steps := { symbol := .rule self } :: p.steps }

/-- The productions of each rule as it is written. Behind the grammar's own rules are those that
stand for a repetition. -/
def writtenProductions (n : Numbering) (own : Nat) (rules : Rules) : Array (List Production) :=
  (rules.zipIdx.map fun ((_, rule), i) =>
    let ps := distinctProductions (rule.productions n {} true)
    if own ≤ i then repetitionProductions i ps else ps).toArray

/-- The productions of each rule with the inlined rules replaced. The inlined rules have none. -/
def settledProductions (inlined : List Nat) (written : Array (List Production)) :
    Array (List Production) :=
  let settled := settleInlined inlined written inlined.length {}
  (written.toList.zipIdx.map fun (ps, i) =>
    if inlined.contains i then [] else inlineProductions settled ps).toArray

/-- The productions of a grammar. -/
def Productions.ofGrammar (g : Grammar) : Productions :=
  let rules := g.plainRules
  let own := g.rules.length
  let n := Numbering.ofRules g rules
  { tokens := n.tokens
    wordKinds := HashMap.ofList (g.words.map fun (kind, spelling) =>
      (n.tokenNumber.getD (.text spelling) 0, kind))
    ruleNames := (rules.map Prod.fst).toArray
    repetition := (rules.zipIdx.map fun (_, i) => decide (own ≤ i)).toArray
    hidden := (rules.zipIdx.map fun ((name, _), i) =>
      name.startsWith "_" || g.categories.contains name || decide (own ≤ i)).toArray
    ofRule := settledProductions (g.inlined.filterMap (n.ruleNumber[·]?))
      (writtenProductions n own rules) }

end RefGraph.Script
