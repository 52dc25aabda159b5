import RefGraph.Script.Automaton
import RefGraph.Script.Contextual
import RefGraph.Script.Node

/-!
# Reading scripts

A script is read from left to right by following the automaton of its dialect. Where the automaton
allows several actions, all readings are followed side by side; readings that meet again in the
same states are merged, and of two ways to read the same text the weightier one is kept.

* `parse?`: the syntax tree of a script, if it is well formed.
-/

namespace RefGraph.Script

open Std (HashMap)

/-! ## Trees while they are read -/

/-- A tree with all its nodes, the ones that are not shown included. `extra` marks comments. -/
inductive Tree where
  | leaf (token start stop : Nat) (extra : Bool)
  | branch (item rule start stop : Nat) (weight : Int) (children : List Tree)
deriving Inhabited

namespace Tree

/-- Where a tree begins. -/
def start : Tree → Nat
  | leaf _ start _ _ => start
  | branch _ _ start _ _ _ => start

/-- Where a tree ends. -/
def stop : Tree → Nat
  | leaf _ _ stop _ => stop
  | branch _ _ _ stop _ _ => stop

/-- The weight of a tree: the sum of the weights of its productions. -/
def weight : Tree → Int
  | leaf .. => 0
  | branch _ _ _ _ weight _ => weight

/-- Whether a tree is a comment. -/
def isExtra : Tree → Bool
  | leaf _ _ _ extra => extra
  | branch .. => false

/-- The children of a tree. -/
def children : Tree → List Tree
  | leaf .. => []
  | branch _ _ _ _ _ children => children

mutual

/-- Compares two trees by their symbols, tokens before rules, then by the number of their children,
then child by child. -/
def order : Tree → Tree → Ordering
  | leaf a _ _ _, leaf b _ _ _ => compare a b
  | leaf .., branch .. => .lt
  | branch .., leaf .. => .gt
  | branch _ a _ _ _ as, branch _ b _ _ _ bs =>
    (compare a b).then ((compare as.length bs.length).then (orderList as bs))

/-- `Tree.order` for the trees of two lists. -/
def orderList : List Tree → List Tree → Ordering
  | a :: as, b :: bs => (a.order b).then (orderList as bs)
  | _, _ => .eq

end

/-- Whether two trees have the same symbol, place and number of children. -/
def alike : Tree → Tree → Bool
  | leaf a s e _, leaf b s' e' _ => a == b && s == s' && e == e'
  | branch _ a s e _ as, branch _ b s' e' _ bs =>
    a == b && s == s' && e == e' && as.length == bs.length
  | _, _ => false

end Tree

/-! ## Readings -/

/-- A tree that has been read, with the state behind it and the place where it ends. -/
structure Frame where
  state : State
  tree : Tree
  stop : Nat
deriving Inhabited

/-- One reading of the text so far: the trees that were read, last first, and what is left. -/
structure Reading where
  frames : List Frame := []
  rest : List Char
  place : Nat := 0
  weight : Int := 0
deriving Inhabited

/-- A dialect ready for reading: its table and what finding tokens needs. -/
structure Reader where
  table : Table
  typed : Bool
  start : State
  spellings : Array (Option (List Char))
  isWord : Array Bool
  words : HashMap String Nat
  classes : HashMap LexClass Nat
deriving Inhabited

/-- Prepares a dialect for reading. -/
def Reader.ofDialect (d : Dialect) : Reader :=
  let table := Table.ofGrammar d.grammar
  let tokens := table.productions.tokens
  let numbered := tokens.toList.zipIdx
  let isWord (spelling : String) : Bool :=
    Lexeme.identifier spelling.toList == some spelling.length
  { table
    typed := d != .javaScript
    start := table.start
    spellings := tokens.map fun
      | .text spelling => some spelling.toList
      | _ => none
    isWord := tokens.map fun
      | .text spelling => isWord spelling
      | _ => false
    words := HashMap.ofList (numbered.filterMap fun
      | (.text spelling, i) => if isWord spelling then some (spelling, i) else none
      | _ => none)
    classes := HashMap.ofList (numbered.filterMap fun
      | (.lex c, i) => some (c, i)
      | _ => none) }

/-! ## Finding the next token -/

/-- The next token of a reading: its number, its place, and what follows it. `word` tells that it
is an identifier that is spelled like the token. -/
structure Lexed where
  token : Nat
  start : Nat
  stop : Nat
  rest : List Char
  word : Bool := false

/-- A token that may come next: how it ranks against others, and how many characters it takes. -/
structure Candidate where
  rank : Int
  length : Nat
  precision : Nat
  token : Nat
deriving Inhabited

/-- Whether a candidate goes before another one: by rank, then by length, then by how exactly it is
described. -/
def Candidate.beats (a b : Candidate) : Bool :=
  a.rank > b.rank || a.rank == b.rank &&
    (a.length > b.length || a.length == b.length && a.precision > b.precision)

/-- The best of a list of candidates; the first one of equals. -/
def bestCandidate (cs : List Candidate) : Option Candidate :=
  cs.foldl (fun best c =>
    match best with
    | none => some c
    | some b => if c.beats b then some c else some b) none

namespace Reader

/-- The number of a lexical class; the number of no token if the dialect does not have it. -/
def classNumber (r : Reader) (c : LexClass) : Nat :=
  r.classes.getD c r.spellings.size

/-- The tokens that may stand anywhere: comments. -/
def extras (r : Reader) : List Nat := [r.classNumber .comment, r.classNumber .htmlComment]

/-- The tokens that are allowed in a state. -/
def allowed (r : Reader) (s : State) : TokenSet :=
  r.extras.foldl (fun set i => set ||| .single i) s.tokens

/-- The tokens of a set that attach to the token before. -/
def attached (r : Reader) (set : TokenSet) (cs : List Char) : List Candidate :=
  [LexClass.doubleFragment, .singleFragment, .escape, .regexBody, .regexClose, .regexFlags,
    .doubleMarkupFragment, .singleMarkupFragment].filterMap fun c =>
    let i := r.classNumber c
    if set.testBit i then
      match c.lexeme? cs, c.attached? with
      | some n, some rank => some ⟨rank, n, 3, i⟩
      | _, _ => none
    else none

/-- The tokens of a set at the beginning of a text, apart from the ones that attach to the token
before. Words are found as identifiers. -/
def detached (r : Reader) (set : TokenSet) (cs : List Char) : List Candidate :=
  let identifier := r.classNumber .identifier
  let spelled := (List.range r.spellings.size).filterMap fun i =>
    if set.testBit i && !r.isWord.getD i false then
      match r.spellings.getD i none with
      | some spelling => if spelling.isPrefixOf cs then some ⟨0, spelling.length, 2, i⟩ else none
      | none => none
    else none
  let described := [LexClass.hashBang, .privateName, .number, .comment, .staticGetter,
    .dashedName, .characterReference].filterMap fun c =>
    let i := r.classNumber c
    if set.testBit i then (c.lexeme? cs).map fun n => ⟨0, n, 0, i⟩ else none
  let someWord := (List.range r.isWord.size).any fun i => r.isWord.getD i false && set.testBit i
  let named := if someWord || set.testBit identifier then
      ((Lexeme.identifier cs).map fun n => (⟨0, n, 0, identifier⟩ : Candidate)).toList
    else []
  spelled ++ described ++ named

/-- The token of a candidate behind some characters that are skipped. An identifier may be a word
that is allowed. -/
def lexedAt (r : Reader) (set : TokenSet) (cs : List Char) (place skipped : Nat) (c : Candidate) :
    Lexed :=
  let text := cs.drop skipped
  let lexed : Lexed :=
    { token := c.token
      start := place + skipped
      stop := place + skipped + c.length
      rest := text.drop c.length }
  if c.token == r.classNumber .identifier then
    match r.words[String.ofList (text.take c.length)]? with
    | some i => if set.testBit i then { lexed with token := i, word := true } else lexed
    | none => lexed
  else lexed

/-- The next token of a text in a state. -/
def next? (r : Reader) (s : State) (cs : List Char) (place : Nat) : Option Lexed :=
  let set := r.allowed s
  let context : Contextual.Allowed :=
    { lex := fun c => set.testBit (r.classNumber c)
      logicalOr := r.spellings.toList.zipIdx.any fun (spelling, i) =>
        spelling == some ['|', '|'] && set.testBit i }
  match Contextual.scan? r.typed context cs with
  | some found =>
    some
      { token := r.classNumber found.token
        start := place + found.skipped
        stop := place + found.skipped + found.length
        rest := cs.drop (found.skipped + found.length) }
  | none =>
    let blanks := Lexeme.run Lexeme.isBlank cs
    let here := cs.drop blanks
    match bestCandidate (r.attached set cs) with
    | some c =>
      if 1 ≤ c.rank || 0 < blanks then some (r.lexedAt set cs place 0 c)
      else (bestCandidate (c :: r.detached set here)).map (r.lexedAt set cs place 0)
    | none =>
      if here.isEmpty then
        if set.testBit 0 then some ⟨0, place + blanks, place + blanks, [], false⟩ else none
      else (bestCandidate (r.detached set here)).map (r.lexedAt set cs place blanks)

/-! ## Following the automaton -/

/-- The state that a reading is in. -/
def stateOf (r : Reader) (reading : Reading) : State :=
  match reading.frames with
  | [] => r.start
  | frame :: _ => frame.state

/-- Adds a tree to a reading. -/
def push (state : State) (tree : Tree) (reading : Reading) : Reading :=
  { reading with
    frames := ⟨state, tree, tree.stop⟩ :: reading.frames
    weight := reading.weight + tree.weight }

/-- Takes frames until a number of trees that are no comments were taken. The trees come first to
last. -/
def takeTrees : Nat → List Frame → List Tree → List Tree × List Frame
  | 0, frames, taken => (taken, frames)
  | _, [], taken => (taken, [])
  | n + 1, frame :: frames, taken =>
    if frame.tree.isExtra then takeTrees (n + 1) frames (frame.tree :: taken)
    else takeTrees n frames (frame.tree :: taken)

/-- Completes the production of an item: its trees become one tree. Comments behind them stay
behind it. -/
def complete (r : Reader) (item : Nat) (reading : Reading) : Option Reading :=
  let e := (r.table.entry item).item
  let trailing := reading.frames.takeWhile (·.tree.isExtra)
  let taken := takeTrees e.labels.length (reading.frames.dropWhile (·.tree.isExtra)) []
  let trees := taken.1
  let below : Reading :=
    { reading with
      frames := taken.2
      weight := reading.weight - (trees.foldl (fun sum tree => sum + tree.weight) 0) }
  let start := (trees.head?.map Tree.start).getD reading.place
  let stop := (trees.getLast?.map Tree.stop).getD reading.place
  let weight := trees.foldl (fun sum tree => sum + tree.weight) e.weight
  (r.table.move? (r.stateOf below) (.rule e.rule)).map fun state =>
    (trailing.reverse.foldl (fun reading frame => push state frame.tree reading)
      (push state (.branch item e.rule start stop weight trees) below))

/-- Whether two readings went through the same states at the same places. -/
def sameFrames : List Frame → List Frame → Bool
  | [], [] => true
  | a :: as, b :: bs => a.stop == b.stop && a.state.same b.state && sameFrames as bs
  | _, _ => false

/-- Whether two readings are in the same states at the same place. -/
def meets (a b : Reading) : Bool := a.place == b.place && sameFrames a.frames b.frames

/-- Compares the trees of two readings that meet, first to last. Trees that are alike count as
equal. -/
def orderFrames : List Frame → List Frame → Ordering
  | a :: as, b :: bs =>
    (orderFrames as bs).then (if a.tree.alike b.tree then .eq else a.tree.order b.tree)
  | _, _ => .eq

/-- Of two readings that meet, the weightier one; of equally weighty ones the one whose trees come
first, and else the older one. -/
def choose (older newer : Reading) : Reading :=
  if newer.weight > older.weight then newer
  else if newer.weight < older.weight then older
  else if orderFrames older.frames newer.frames == .gt then newer else older

/-- Merges a reading into the first one of a list that it meets. -/
def merge? (new : Reading) : List Reading → Option (List Reading)
  | [] => none
  | old :: others =>
    if meets old new then some (choose old new :: others)
    else (merge? new others).map (old :: ·)

/-- Adds a reading to a list that is ordered by weight, merging it if it meets one. -/
def insertReading (new : Reading) : List Reading → List Reading
  | [] => [new]
  | old :: others =>
    if meets old new then choose old new :: others
    else if new.weight > old.weight then new :: insertReading old others
    else old :: insertReading new others

/-- The most readings that are followed side by side. -/
def maxReadings : Nat := 32

/-- All readings in a round: the ones that have been advanced, the ones that have not, and the best
complete one. -/
structure Round where
  advanced : List Reading := []
  waiting : List Reading := []
  complete : Option Reading := none

/-- Adds a new reading to a round, merging it if it meets another one. The new readings stand apart
until the present one is done with. -/
def Round.offer (round : Round) (fresh : List Reading) (new : Reading) : Round × List Reading :=
  match merge? new round.advanced with
  | some advanced => ({ round with advanced }, fresh)
  | none =>
    match merge? new round.waiting with
    | some waiting => ({ round with waiting }, fresh)
    | none =>
      match merge? new fresh with
      | some fresh => (round, fresh)
      | none => (round, fresh ++ [new])

/-- A reading after one more token. -/
def readToken (lexed : Lexed) (reading : Reading) (target : State) (extra : Bool) : Reading :=
  { push target (.leaf lexed.token lexed.start lexed.stop extra) reading with
    rest := lexed.rest
    place := lexed.stop }

/-- What has come of a reading when a token is next: its round, the readings in which a production
was completed, and the one that has read the token. -/
structure Outcome where
  round : Round
  fresh : List Reading := []
  shifted : Option Reading := none

/-- Does one more thing with a reading when a token is next. -/
def act (r : Reader) (lexed : Lexed) (reading : Reading) (o : Outcome) :
    Table.Action → Outcome
  | .shift target => { o with shifted := some (readToken lexed reading target false) }
  | .complete item =>
    if (r.table.entry item).item.rule == 0 then
      { o with round.complete := some (match o.round.complete with
          | none => reading
          | some other => choose other reading) }
    else
      match r.complete item reading with
      | none => o
      | some new =>
        let offered := o.round.offer o.fresh new
        { o with round := offered.1, fresh := offered.2 }

/-- Advances one reading until it has read a token or comes to an end. -/
def advance (r : Reader) : Nat → Option Lexed → Reading → Round → Round
  | 0, _, _, round => round
  | fuel + 1, ahead, reading, round =>
    let state := r.stateOf reading
    match ahead.orElse fun _ => r.next? state reading.rest reading.place with
    | none => round
    | some lexed =>
      if r.extras.contains lexed.token then
        { round with advanced := round.advanced ++ [readToken lexed reading state true] }
      else
        match r.table.actions state lexed.token with
        | [] =>
          if lexed.word then
            r.advance fuel (some { lexed with token := r.classNumber .identifier, word := false })
              reading round
          else round
        | actions =>
          let outcome := actions.foldl (r.act lexed reading) { round }
          match outcome.shifted with
          | some shifted =>
            { outcome.round with
              advanced := outcome.round.advanced ++ [shifted]
              waiting := outcome.round.waiting ++ outcome.fresh }
          | none =>
            match outcome.fresh.reverse with
            | [] => outcome.round
            | last :: others =>
              r.advance fuel (some lexed) last
                { outcome.round with waiting := outcome.round.waiting ++ others.reverse }

/-- Advances all readings of a round. -/
def advanceAll (r : Reader) (steps : Nat) : Nat → Round → Round
  | 0, round => round
  | fuel + 1, round =>
    match round.waiting with
    | [] => round
    | reading :: waiting =>
      r.advanceAll steps fuel (r.advance steps none reading { round with waiting })

/-- Rounds until no reading is left. -/
def rounds (r : Reader) (steps : Nat) : Nat → List Reading → Option Reading → Option Reading
  | 0, _, complete => complete
  | _, [], complete => complete
  | fuel + 1, readings, complete =>
    let round := r.advanceAll steps steps { waiting := readings, complete }
    let next := round.advanced.foldl (fun sorted reading => insertReading reading sorted) []
    r.rounds steps fuel (next.take maxReadings) round.complete

/-! ## From trees to nodes -/

/-- The kind and name of a token. -/
def tokenKind (r : Reader) (token : Nat) : Shown :=
  match r.table.productions.wordKinds[token]? with
  | some kind => ⟨kind, true⟩
  | none =>
    match r.table.productions.tokens.getD token .endOfInput with
    | .endOfInput => ⟨"end", false⟩
    | .text spelling => ⟨spelling, false⟩
    | .lex c => ⟨c.kind, c != .regexClose⟩

mutual

/-- The nodes that a tree shows: one, none, or those of its children if its rule is not shown. -/
def nodesOf (r : Reader) (label : Label) : Tree → List Node
  | .leaf token start stop _ =>
    let shown := label.shown.getD (r.tokenKind token)
    if label.shown.isNone && shown.kind.startsWith "_" then []
    else [{ kind := shown.kind, named := shown.named, field := label.field, start, stop }]
  | .branch item rule start stop _ children =>
    let nodes := nodesOfList r (r.table.entry item).item.labels.reverse children
    if label.shown.isNone && r.table.productions.hidden.getD rule false then
      nodes.map fun node =>
        if node.field.isNone && node.kind != "comment" && node.kind != "html_comment" then
          { node with field := label.field }
        else node
    else
      let shown := label.shown.getD ⟨r.table.productions.ruleNames.getD rule "", true⟩
      [{ kind := shown.kind, named := shown.named, field := label.field, start, stop
         children := nodes }]

/-- The nodes that the children of a tree show. Comments have no label of their own. -/
def nodesOfList (r : Reader) : List Label → List Tree → List Node
  | _, [] => []
  | labels, tree :: trees =>
    if tree.isExtra then nodesOf r {} tree ++ nodesOfList r labels trees
    else nodesOf r (labels.headD {}) tree ++ nodesOfList r labels.tail trees

end

/-- The tree of a whole text. -/
def parse? (r : Reader) (source : List Char) : Option Node :=
  let bound := source.length + 8
  (r.rounds (64 * bound) (4 * bound) [{ rest := source }] none).map fun reading =>
    { kind := "program"
      start := (reading.frames.getLast?.map (·.tree.start)).getD source.length
      stop := source.length
      children := nodesOfList r [] (reading.frames.map (·.tree)).reverse }

end Reader

/-- The readers of the three dialects. -/
def Dialect.reader : Dialect → Reader
  | .javaScript => javaScriptReader
  | .typeScript => typeScriptReader
  | .tsx => tsxReader
where
  javaScriptReader : Reader := .ofDialect .javaScript
  typeScriptReader : Reader := .ofDialect .typeScript
  tsxReader : Reader := .ofDialect .tsx

/-- The syntax tree of a script, if it is well formed. A script without text is an empty program. -/
def parse? (d : Dialect) (source : List Char) : Option Node :=
  if source.isEmpty then some { kind := "program", start := 0, stop := 0 }
  else d.reader.parse? source

end RefGraph.Script
