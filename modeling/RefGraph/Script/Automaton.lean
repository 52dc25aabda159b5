import RefGraph.Script.Production

/-!
# The automaton of a grammar

An item is a production that has been read up to some point. A state is a set of items, each with
the tokens that may follow the production once it is complete. States are computed when they are
reached.

* `Table.ofGrammar`: what is needed to compute states.
* `Table.start`, `Table.move?`: the first state, and the state after a symbol.
* `Table.actions`: what may be done in a state when a token comes next. Where both reading on and
  completing a production are possible, levels and sides decide; where they do not, all remain.
-/

namespace RefGraph.Script

open Std (HashMap)

/-- A set of tokens: the bits of a number. -/
abbrev TokenSet := Nat

/-- The set of one token. -/
def TokenSet.single (i : Nat) : TokenSet := 1 <<< i

/-- A production that has been read up to some point: the labels of its parts so far, last first,
the level and side of the last one, and what is left. -/
structure Item where
  rule : Nat
  weight : Int
  labels : List Label := []
  level : Option Level := none
  side : Option Side := none
  rest : List Step
deriving DecidableEq, Hashable, Repr, Inhabited

/-- The item after one more part, if a part is left. -/
def Item.next? (item : Item) : Option Item :=
  match item.rest with
  | [] => none
  | step :: rest =>
    some { item with
      labels := step.label :: item.labels
      level := step.level
      side := step.side
      rest }

/-- An item as the automaton needs it: with the symbol that comes next, the number of the item
behind that symbol, and the tokens with which the part behind the symbol may begin, if there is
such a part. -/
structure ItemEntry where
  item : Item
  symbol : Option Symbol := none
  after : Nat := 0
  follow : Option TokenSet := none
deriving Inhabited

/-- A rule with which a rule may begin: the tokens that may follow there, and whether what follows
the outer rule may follow too. -/
structure Opening where
  rule : Nat
  tokens : TokenSet
  inherits : Bool
deriving Inhabited

/-- An entry of a ranking, with rules by their number. -/
inductive RankEntry where
  | level (name : String)
  | rule (i : Nat)
deriving DecidableEq, Inhabited

/-- All that is needed to compute states. -/
structure Table where
  productions : Productions
  rankings : List (List RankEntry)
  entries : Array ItemEntry
  initial : List Nat
  first : Array TokenSet
  openings : Array (Array Opening)
  beginWithToken : Array (Array (Nat × Nat))
  beginWithRule : Array (Array (Nat × Nat))
deriving Inhabited

/-! ## First tokens -/

/-- The tokens with which a symbol may begin. -/
def firstOf (first : Array TokenSet) : Symbol → TokenSet
  | .token i => .single i
  | .rule i => first.getD i 0

/-- One round of adding to each rule the tokens with which its productions may begin. -/
def growFirst (productions : Array (List Production)) (first : Array TokenSet) :
    Array TokenSet :=
  (List.range productions.size).foldl (fun first i =>
    let here := (productions.getD i []).foldl (fun set p =>
      match p.steps with
      | [] => set
      | step :: _ => set ||| firstOf first step.symbol) (first.getD i 0)
    first.setIfInBounds i here) first

/-- The tokens with which each rule may begin: rounds until nothing changes. -/
def firstSets (productions : Array (List Production)) : Nat → Array TokenSet → Array TokenSet
  | 0, first => first
  | rounds + 1, first =>
    let next := growFirst productions first
    if next == first then first else firstSets productions rounds next

/-! ## Openings -/

/-- Both of two openings with the same rule. -/
def Opening.or (a b : Opening) : Opening :=
  ⟨a.rule, a.tokens ||| b.tokens, a.inherits || b.inherits⟩

/-- An opening of a rule that itself opens something. -/
def Opening.inside (outer inner : Opening) : Opening :=
  ⟨inner.rule, if inner.inherits then inner.tokens ||| outer.tokens else inner.tokens,
    inner.inherits && outer.inherits⟩

/-- The opening of a production that begins with a rule. -/
def Production.opening? (first : Array TokenSet) (p : Production) : Option Opening :=
  match p.steps with
  | { symbol := .rule i, .. } :: [] => some ⟨i, 0, true⟩
  | { symbol := .rule i, .. } :: second :: _ => some ⟨i, firstOf first second.symbol, false⟩
  | _ => none

/-- Adds an opening to a list that has one for each rule. -/
def joinOpening (found : List Opening) (o : Opening) : List Opening :=
  match found.find? (·.rule == o.rule) with
  | none => o :: found
  | some _ => found.map fun a => if a.rule == o.rule then a.or o else a

/-- The rules with which the productions of a rule directly begin. -/
def directOpenings (first : Array TokenSet) (ps : List Production) : List Opening :=
  (ps.filterMap (Production.opening? first)).foldl joinOpening []

/-- The rules that are to be visited, and the openings that were found. -/
abbrev OpeningSearch := List Nat × HashMap Nat Opening

/-- Adds an opening to the ones that were found. If that is something new, its rule is to be
visited. -/
def OpeningSearch.add (search : OpeningSearch) (o : Opening) : OpeningSearch :=
  match search.2[o.rule]? with
  | none => (o.rule :: search.1, search.2.insert o.rule o)
  | some old =>
    let both := o.or old
    if both.tokens == old.tokens && both.inherits == old.inherits then search
    else (o.rule :: search.1, search.2.insert o.rule both)

/-- Follows the direct openings from the rules that are still to be visited, until nothing new is
found. -/
def growOpenings (direct : Array (List Opening)) :
    Nat → List Nat → HashMap Nat Opening → HashMap Nat Opening
  | 0, _, found => found
  | _ + 1, [], found => found
  | fuel + 1, i :: work, found =>
    let here := found.getD i ⟨i, 0, false⟩
    let search : OpeningSearch :=
      (direct.getD i []).foldl (fun search o => search.add (here.inside o)) (work, found)
    growOpenings direct fuel search.1 search.2

/-! ## Items -/

/-- The items that were numbered so far. -/
structure ItemNumbers where
  number : HashMap Item Nat := {}
  entries : Array ItemEntry := #[]

/-- Gives an item the next number. -/
def ItemNumbers.push (numbers : ItemNumbers) (e : ItemEntry) : Nat × ItemNumbers :=
  (numbers.entries.size,
    { number := numbers.number.insert e.item numbers.entries.size
      entries := numbers.entries.push e })

/-- Numbers an item and all that come after it in its production. -/
def ItemNumbers.add (first : Array TokenSet) (rule : Nat) (weight : Int) :
    List Label → Option Level → Option Side → List Step → ItemNumbers → Nat × ItemNumbers
  | labels, level, side, rest, numbers =>
    let item : Item := { rule, weight, labels, level, side, rest }
    match numbers.number[item]? with
    | some i => (i, numbers)
    | none =>
      match rest with
      | [] => numbers.push { item }
      | step :: steps =>
        let added :=
          ItemNumbers.add first rule weight (step.label :: labels) step.level step.side steps
            numbers
        let follow := steps.head?.map fun second => firstOf first second.symbol
        added.2.push { item, symbol := some step.symbol, after := added.1, follow }

/-- The items of all productions after their first part, with the symbols of that part. -/
structure Beginnings where
  numbers : ItemNumbers := {}
  withToken : Array (Array (Nat × Nat))
  withRule : Array (Array (Nat × Nat))

/-- Adds an item to those that begin with a symbol, unless it is among them. -/
def addBeginning (begun : Array (Array (Nat × Nat))) (symbol : Nat) (item : Nat × Nat) :
    Array (Array (Nat × Nat)) :=
  begun.modify symbol fun found => if found.contains item then found else found.push item

/-- Numbers the items of one production of a rule. -/
def Beginnings.add (first : Array TokenSet) (rule : Nat) (p : Production) (b : Beginnings) :
    Beginnings :=
  match p.steps with
  | [] => b
  | step :: rest =>
    let added :=
      ItemNumbers.add first rule p.weight [step.label] step.level step.side rest b.numbers
    match step.symbol with
    | .token n =>
      { b with numbers := added.2, withToken := addBeginning b.withToken n (rule, added.1) }
    | .rule n =>
      { b with numbers := added.2, withRule := addBeginning b.withRule n (rule, added.1) }

/-- The items of all productions of a grammar after their first part. -/
def Beginnings.ofProductions (first : Array TokenSet) (tokenCount : Nat)
    (ofRule : Array (List Production)) : Beginnings :=
  (List.range ofRule.size).foldl (fun b i =>
    (ofRule.getD i []).foldl (fun b p => b.add first i p) b)
    { withToken := Array.replicate tokenCount #[]
      withRule := Array.replicate ofRule.size #[] }

/-- Numbers the items of the whole text of which nothing has been read. -/
def initialItems (first : Array TokenSet) (ps : List Production) (numbers : ItemNumbers) :
    List Nat × ItemNumbers :=
  ps.foldl (fun acc p =>
    let added := ItemNumbers.add first 0 p.weight [] none none p.steps acc.2
    (added.1 :: acc.1, added.2)) ([], numbers)

/-- The rules with which each rule may begin, the rule itself among them. -/
def openingsOf (first : Array TokenSet) (tokenCount : Nat) (ofRule : Array (List Production)) :
    Array (Array Opening) :=
  let direct := ofRule.map (directOpenings first)
  (Array.range ofRule.size).map fun i =>
    (growOpenings direct (ofRule.size * (tokenCount + 2)) [i]
      (HashMap.ofList [(i, ⟨i, 0, true⟩)])).toArray.map Prod.snd

/-- The table of a grammar. -/
def Table.ofGrammar (g : Grammar) : Table :=
  let productions := Productions.ofGrammar g
  let ofRule := productions.ofRule
  let tokenCount := productions.tokens.size
  let first := firstSets ofRule (ofRule.size * tokenCount) (Array.replicate ofRule.size 0)
  let begun := Beginnings.ofProductions first tokenCount ofRule
  let initial := initialItems first (ofRule.getD 0 []) begun.numbers
  let ruleNumber := numberNames productions.ruleNames.toList
  { productions
    rankings := g.rankings.map fun ranking => ranking.map fun
      | .level name => .level name
      | .rule name => .rule (ruleNumber.getD name ofRule.size)
    entries := initial.2.entries
    initial := initial.1
    first
    openings := openingsOf first tokenCount ofRule
    beginWithToken := begun.withToken
    beginWithRule := begun.withRule }

/-! ## States -/

/-- A state: its items by number, each with the tokens that may follow its production, and for each
rule that may begin here the tokens that may follow it. -/
structure State where
  kernel : List (Nat × TokenSet)
  ahead : Array TokenSet
  tokens : TokenSet
deriving Inhabited

/-- States are told apart by their items. -/
def State.same (a b : State) : Bool := a.kernel == b.kernel

/-- Adds an item to a list that is ordered by number. -/
def insertItem (i : Nat) (follow : TokenSet) : List (Nat × TokenSet) → List (Nat × TokenSet)
  | [] => [(i, follow)]
  | (j, set) :: rest =>
    if i < j then (i, follow) :: (j, set) :: rest
    else if i == j then (j, set ||| follow) :: rest
    else (j, set) :: insertItem i follow rest

namespace Table

/-- The item of a number. -/
def entry (t : Table) (i : Nat) : ItemEntry := t.entries.getD i default

/-- The tokens with which a symbol may begin. -/
def firstOf (t : Table) (s : Symbol) : TokenSet := Script.firstOf t.first s

/-- The rules that come next in a set of items, each with the tokens that may follow it. -/
def rulesNext (t : Table) (kernel : List (Nat × TokenSet)) : List (Nat × TokenSet) :=
  kernel.foldl (fun found (i, set) =>
    let e := t.entry i
    match e.symbol with
    | some (.rule r) => insertItem r (e.follow.getD set) found
    | _ => found) []

/-- Adds the tokens that may follow a rule that is opened, given those that may follow the outer
one. -/
def addAhead (set : TokenSet) (ahead : Array TokenSet) (o : Opening) : Array TokenSet :=
  ahead.modify o.rule fun old =>
    if o.inherits then old ||| o.tokens ||| set else old ||| o.tokens

/-- The tokens that may follow each rule if certain rules come next. -/
def tokensAhead (t : Table) (next : List (Nat × TokenSet)) : Array TokenSet :=
  next.foldl (fun ahead (r, set) => (t.openings.getD r #[]).foldl (addAhead set) ahead)
    (Array.replicate t.openings.size 0)

/-- The state of a set of items. -/
def stateOf (t : Table) (kernel : List (Nat × TokenSet)) : State :=
  { kernel
    ahead := t.tokensAhead (t.rulesNext kernel)
    tokens := kernel.foldl (fun set (i, follow) =>
      match (t.entry i).symbol with
      | none => set ||| follow
      | some s => set ||| t.firstOf s) 0 }

/-- The state in which nothing has been read. -/
def start (t : Table) : State :=
  t.stateOf (t.initial.foldl (fun kernel i => insertItem i (.single 0) kernel) [])

/-- The items of a state behind a symbol. -/
def moved (t : Table) (s : State) (symbol : Symbol) : List (Nat × TokenSet) :=
  s.kernel.foldl (fun kernel (i, follow) =>
    let e := t.entry i
    if e.symbol == some symbol then insertItem e.after follow kernel else kernel) []

/-- The items that begin with a symbol, with their rules. -/
def beginWith (t : Table) : Symbol → Array (Nat × Nat)
  | .token n => t.beginWithToken.getD n #[]
  | .rule n => t.beginWithRule.getD n #[]

/-- Adds an item of a rule that may begin in a state. -/
def addBegun (s : State) (kernel : List (Nat × TokenSet)) : Nat × Nat → List (Nat × TokenSet)
  | (rule, i) =>
    let follow := s.ahead.getD rule 0
    if follow == 0 then kernel else insertItem i follow kernel

/-- The state behind a symbol, if the symbol may come next. -/
def move? (t : Table) (s : State) (symbol : Symbol) : Option State :=
  let kernel := (t.beginWith symbol).foldl (addBegun s) (t.moved s symbol)
  if kernel.isEmpty then none else some (t.stateOf kernel)

/-! ## Levels -/

/-- A level together with the rules whose productions have it. -/
structure Claim where
  level : Option Level
  rules : List Nat
deriving Inhabited

/-- Whether an entry of a ranking speaks of a claim. -/
def RankEntry.speaksOf (e : RankEntry) (c : Claim) : Bool :=
  match e with
  | .level name => c.level == some (.named name)
  | .rule i => c.rules.contains i

/-- Which of two claims comes first in a ranking that names both. -/
def compareIn (a b : Claim) (sawA sawB : Bool) : List RankEntry → Option Ordering
  | [] => none
  | e :: es =>
    if RankEntry.speaksOf e a then
      if sawB then some .lt else compareIn a b true sawB es
    else if RankEntry.speaksOf e b then
      if sawA then some .gt else compareIn a b sawA true es
    else compareIn a b sawA sawB es

/-- Compares two claims: numbers by size, where a missing level counts as zero, and all else by the
first ranking that names both. -/
def compareClaims (t : Table) (a b : Claim) : Ordering :=
  let byRanking := (t.rankings.findSome? (compareIn a b false false)).getD .eq
  match a.level, b.level with
  | some (.number m), some (.number n) => if m ≠ 0 ∨ n ≠ 0 then compare m n else byRanking
  | some (.number m), none => if m ≠ 0 then compare m 0 else byRanking
  | none, some (.number n) => if n ≠ 0 then compare 0 n else byRanking
  | _, _ => byRanking

/-! ## Actions -/

/-- What may be done when a token comes next: complete the production of an item, or read the token
and go to a state. -/
inductive Action where
  | complete (item : Nat)
  | shift (target : State)
deriving Inhabited

/-- The items that may be completed, as long as no tighter one is found, with what they claim. -/
structure Completions where
  items : List Nat := []
  claim : Claim := ⟨none, []⟩
  sides : List (Option Side) := []

/-- Adds an item that may be completed: a tighter one drives out the others, a looser one is
dropped. -/
def Completions.add (t : Table) (c : Completions) (i : Nat) (item : Item) : Completions :=
  let alone : Completions := ⟨[i], ⟨item.level, [item.rule]⟩, [item.side]⟩
  if c.items.isEmpty then alone
  else
    match t.compareClaims ⟨item.level, [item.rule]⟩ c.claim with
    | .gt => alone
    | .lt => c
    | .eq =>
      { items := c.items ++ [i]
        claim := ⟨item.level,
          if c.claim.rules.contains item.rule then c.claim.rules else item.rule :: c.claim.rules⟩
        sides := item.side :: c.sides }

/-- The productions that may be completed in a state when a token comes next. -/
def completions (t : Table) (s : State) (token : Nat) : Completions :=
  s.kernel.foldl (fun c (i, follow) =>
    let e := t.entry i
    if e.symbol.isNone && follow.testBit token then c.add t i e.item else c) {}

/-- What is done in a state when a token comes next. -/
def actions (t : Table) (s : State) (token : Nat) : List Action :=
  let done := t.completions s token
  let completions := done.items.map Action.complete
  match t.move? s (.token token) with
  | none => completions
  | some target =>
    if done.items.isEmpty then [.shift target]
    else
      let begun := s.kernel.filterMap fun (i, follow) =>
        let e := t.entry i
        if e.item.labels.isEmpty then none
        else
          match e.symbol with
          | some symbol => if (t.firstOf symbol).testBit token then some (e.item, true) else none
          | none => if follow.testBit token then some (e.item, false) else none
      let involved := (begun.map fun (item, _) => item.rule).eraseDups
      let repeats := match involved with
        | [r] => t.productions.repetition.getD r false
        | _ => false
      if repeats then completions
      else
        let reading := begun.filter Prod.snd
        let readers := (reading.map fun (item, _) => (item.level, item.rule)).eraseDups
        let orders := readers.map fun (level, rule) => t.compareClaims done.claim ⟨level, [rule]⟩
        let looser := orders.contains .lt
        let tighter := orders.contains .gt
        if looser && !tighter then [.shift target]
        else if tighter && !looser then completions
        else if tighter && looser then completions ++ [.shift target]
        else if done.sides.all (· == some .left) then completions
        else if done.sides.all (· == some .right) then [.shift target]
        else completions ++ [.shift target]

end Table

end RefGraph.Script
