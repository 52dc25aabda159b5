import RefGraph.Graph.Model

/-!
# Arguments of the command line

Arguments are options and words. An option has a long name, which follows two dashes, and may have a
letter, which follows one; letters may stand together. The value of an option follows it, or an
equals sign. Behind two dashes alone everything is a word.

* `Arguments.read?`: the options and words among arguments.
* `Request.ofArguments?`: what the arguments ask for.
-/

namespace RefGraph

/-- A natural number of 64 bits; a plus sign may stand before it. -/
def natural? (text : String) : Option Nat :=
  let digits : List Char := match text.toList with
    | '+' :: cs => cs
    | cs => cs
  let n : Nat := digits.foldl (fun n c => 10 * n + (c.toNat - '0'.toNat)) 0
  if digits ≠ [] ∧ digits.all Char.isDigit ∧ n < UInt64.size then some n else none

/-- The options. -/
inductive Switch where
  | verbose
  | root
  | maxFiles
  | external
  | granularity
  | output
  | settle
  | help
deriving DecidableEq, Repr, Inhabited

namespace Switch

/-- The long name of an option. -/
def name : Switch → String
  | verbose => "verbose"
  | root => "root"
  | maxFiles => "max-files"
  | external => "external"
  | granularity => "granularity"
  | output => "output"
  | settle => "settle-ms"
  | help => "help"

/-- The letter of an option, if it has one. -/
def letter? : Switch → Option Char
  | verbose => some 'v'
  | root => some 'r'
  | output => some 'o'
  | help => some 'h'
  | _ => none

/-- Whether an option has a value. -/
def hasValue : Switch → Bool
  | verbose | external | help => false
  | root | maxFiles | granularity | output | settle => true

/-- Whether an option can have a value. Paths are not empty. -/
def accepts (s : Switch) (value : String) : Bool :=
  match s with
  | verbose | external | help => true
  | root | output => value ≠ ""
  | maxFiles | settle => (natural? value).isSome
  | granularity => (Granularity.read value).toBool

end Switch

/-- Arguments that were read: the options with their values, empty where there is none, and the
words. -/
structure Arguments where
  switches : List (Switch × String) := []
  words : List String := []
deriving Repr, Inhabited

/-- Why arguments are no request: they cannot be understood, or they ask for help. -/
inductive UsageError where
  | invalid
  | helpWanted
deriving DecidableEq, Repr, Inhabited

namespace Arguments

/-- Whether an argument is an option and no word. -/
def isSwitch (arg : List Char) : Bool := arg.head? == some '-' && arg != ['-']

/-- Adds an option, which may be given only once. A call for help ends the reading. -/
def add (a : Arguments) (s : Switch) (value : String) : Except UsageError Arguments :=
  if s = .help then .error .helpWanted
  else if a.switches.any fun t => t.1 = s then .error .invalid
  else if s.accepts value then .ok { a with switches := a.switches ++ [(s, value)] }
  else .error .invalid

/-- Adds a word, of which there may be `most`. Words are paths, and so not empty. -/
def addWord (most : Nat) (a : Arguments) (word : String) : Except UsageError Arguments :=
  if a.words.length < most ∧ word ≠ "" then .ok { a with words := a.words ++ [word] }
  else .error .invalid

/-- Reads letters. The last one may have a value, for which `next` stands ready; tells whether that
was used. -/
def readLetters (allowed : List Switch) (next : Option String) :
    Arguments → List Char → Except UsageError (Arguments × Bool)
  | a, [] => .ok (a, false)
  | a, c :: cs =>
    match allowed.find? fun s => s.letter? = some c with
    | none => .error .invalid
    | some s =>
      if s.hasValue then
        match cs, next with
        | '=' :: value, _ => (a.add s (String.ofList value)).map fun a => (a, false)
        | d :: value, _ => (a.add s (String.ofList (d :: value))).map fun a => (a, false)
        | [], some value => (a.add s value).map fun a => (a, true)
        | [], none => .error .invalid
      else
        match a.add s "" with
        | .error e => .error e
        | .ok a => readLetters allowed next a cs

/-- Reads a long name, and its value if that follows an equals sign; `next` stands ready for it
otherwise. Tells whether that was used. -/
def readName (allowed : List Switch) (next : Option String) (a : Arguments) (cs : List Char) :
    Except UsageError (Arguments × Bool) :=
  let name := String.ofList (cs.takeWhile (· ≠ '='))
  let value? := match cs.dropWhile (· ≠ '=') with
    | [] => none
    | _ :: value => some (String.ofList value)
  match allowed.find? fun s => s.name = name with
  | none => .error .invalid
  | some s =>
    match s.hasValue, value?, next with
    | false, none, _ => (a.add s "").map fun a => (a, false)
    | false, some _, _ => .error .invalid
    | true, some value, _ => (a.add s value).map fun a => (a, false)
    | true, none, some value => (a.add s value).map fun a => (a, true)
    | true, none, none => .error .invalid

/-- Reads one option, for whose value `next` stands ready. Tells whether that was used. -/
def readSwitch (allowed : List Switch) (next : Option String) (a : Arguments) (cs : List Char) :
    Except UsageError (Arguments × Bool) :=
  let next := next.filter fun s => !isSwitch s.toList
  if ['-', '-'].isPrefixOf cs then readName allowed next a (cs.drop 2)
  else readLetters allowed next a (cs.drop 1)

/-- Reads the options before the first word, and gives back that word and what follows it. The first
argument is skipped if it was a value. -/
def readSwitches (allowed : List Switch) :
    Arguments → Bool → List String → Except UsageError (Arguments × List String)
  | a, _, [] => .ok (a, [])
  | a, true, _ :: rest => readSwitches allowed a false rest
  | a, false, arg :: rest =>
    if arg = "--" then .error .invalid
    else if isSwitch arg.toList then
      match readSwitch allowed rest.head? a arg.toList with
      | .error e => .error e
      | .ok (a, used) => readSwitches allowed a used rest
    else .ok (a, arg :: rest)

/-- Reads all arguments. The first one is skipped if it was a value. -/
def read? (allowed : List Switch) (most : Nat) :
    Arguments → Bool → List String → Except UsageError Arguments
  | a, _, [] => .ok a
  | a, true, _ :: rest => read? allowed most a false rest
  | a, false, arg :: rest =>
    if arg = "--" then rest.foldlM (addWord most) a
    else if isSwitch arg.toList then
      match readSwitch allowed rest.head? a arg.toList with
      | .error e => .error e
      | .ok (a, used) => read? allowed most a used rest
    else
      match addWord most a arg with
      | .error e => .error e
      | .ok a => read? allowed most a false rest

/-- The value of an option, if it is given. -/
def value? (a : Arguments) (s : Switch) : Option String :=
  (a.switches.find? fun t => t.1 = s).map Prod.snd

end Arguments

/-- What takes the place of options from a file. -/
structure Overrides where
  maxFiles : Option Nat := none
  includeExternal : Bool := false
  granularity : Option Granularity := none
deriving DecidableEq, Repr, Inhabited

/-- What is asked for. -/
inductive Task where
  | extract (overrides : Overrides) (output : Option Path)
  | watch (overrides : Overrides) (quiet : Nat)
  | root (start : Option Path)
  | summary (snapshot : Path)
  | version
deriving DecidableEq, Repr, Inhabited

/-- A request: a task, and the directory that it is about. -/
structure Request where
  root : Path
  task : Task
deriving DecidableEq, Repr, Inhabited

namespace Request

/-- The commands. -/
inductive Command where
  | extract
  | watch
  | root
  | summary
  | version
deriving DecidableEq, Repr, Inhabited

namespace Command

/-- All commands. -/
def all : List Command := [extract, watch, root, summary, version]

/-- The name of a command. -/
def name : Command → String
  | extract => "extract"
  | watch => "watch"
  | root => "root"
  | summary => "import"
  | version => "version"

/-- The command with a name. -/
def ofName? (name : String) : Option Command := all.find? fun c => c.name = name

/-- The options of every command. -/
def sharedSwitches : List Switch := [.verbose, .root, .help]

/-- The options of a command. -/
def switches : Command → List Switch
  | extract => sharedSwitches ++ [.maxFiles, .external, .granularity, .output]
  | watch => sharedSwitches ++ [.maxFiles, .external, .granularity, .settle]
  | _ => sharedSwitches

/-- How many words a command has at most. -/
def mostWords : Command → Nat
  | root | summary => 1
  | _ => 0

end Command

/-- What takes the place of options from a file. -/
def overridesOf (a : Arguments) : Overrides where
  maxFiles := (a.value? .maxFiles).bind natural?
  includeExternal := (a.value? .external).isSome
  granularity := (a.value? .granularity).bind fun word => (Granularity.read word).toOption

/-- The task of a command. Only a snapshot to read has to be named. -/
def taskOf? (c : Command) (a : Arguments) : Option Task :=
  match c with
  | .extract => some (.extract (overridesOf a) ((a.value? .output).map Path.mk))
  | .watch => some (.watch (overridesOf a) (((a.value? .settle).bind natural?).getD 250))
  | .root => some (.root (a.words.head?.map Path.mk))
  | .summary => a.words.head?.map fun file => .summary ⟨file⟩
  | .version => some .version

/-- The request for help, about everything or about one command. -/
def helpFor (words : List String) : UsageError :=
  match words with
  | [] => .helpWanted
  | [word] => if word = "help" ∨ (Command.ofName? word).isSome then .helpWanted else .invalid
  | _ => .invalid

/-- What arguments ask for. Options of every command may stand before the command and behind it; the
latter ones win. -/
def ofArguments? (args : List String) : Except UsageError Request :=
  match Arguments.readSwitches Command.sharedSwitches {} false args with
  | .error e => .error e
  | .ok (_, []) => .error .invalid
  | .ok (before, word :: rest) =>
    if word = "help" then .error (helpFor rest)
    else
      match Command.ofName? word with
      | none => .error .invalid
      | some c =>
        match Arguments.read? c.switches c.mostWords {} false rest with
        | .error e => .error e
        | .ok behind =>
          match taskOf? c behind with
          | none => .error .invalid
          | some task =>
            .ok {
              root := ⟨((behind.value? .root).orElse fun _ => before.value? .root).getD "."⟩
              task }

end Request

end RefGraph
