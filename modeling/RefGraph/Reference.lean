import RefGraph.Graph.Model
import RefGraph.Text

/-!
# What is found in a file

The records that the analyses of single files produce: references to other modules as they are
written, and exported names.
-/

namespace RefGraph

/-- How an import brings in a name. -/
inductive BindingKind where
  | default
  | named
  | namespace
deriving DecidableEq, Repr, Inhabited

/-- The word for a kind of binding. -/
def BindingKind.word : BindingKind → String
  | .default => "default"
  | .named => "named"
  | .namespace => "namespace"

/-- The kinds of bindings. -/
def BindingKind.all : List BindingKind := [.default, .named, .namespace]

/-- A name that an import brings in: as it is exported there, `default` for the default export and
`*` for all of it, and as it is called here. -/
structure Binding where
  kind : BindingKind
  imported : String
  localName : String
deriving DecidableEq, Repr, Inhabited

/-- A reference from a file to a module, as it is written. -/
structure Dependency where
  specifier : String
  kind : EdgeKind
  statement : Option String
  location : Option Location
  bindings : List Binding := []
deriving DecidableEq, Repr, Inhabited

/-- A name that a file exports, `default` for the default export. `displayName` is the local name
behind a default export, if it has one. -/
structure ExportedSymbol where
  name : String
  kind : SymbolKind
  displayName : Option String := none
deriving DecidableEq, Repr, Inhabited

/-- All that is found in one file. -/
structure Findings where
  dependencies : List Dependency := []
  symbols : List ExportedSymbol := []
deriving DecidableEq, Repr, Inhabited

/-- Whether a specifier is an address on the network. -/
def isRemote (specifier : List Char) : Bool := ['h', 't', 't', 'p'].isPrefixOf specifier

/-! ## Statements as they are shown -/

/-- The number of characters of a statement that are shown. -/
def maxStatementLength : Nat := 200

/-- A statement as it is shown: without white space at its ends, and cut with a mark if it is too
long. -/
def shownStatement (text : String) : String :=
  let cs := trimChars text.toList
  if maxStatementLength < cs.length then
    String.ofList (cs.take maxStatementLength ++ ['.', '.', '.'])
  else String.ofList cs

end RefGraph
