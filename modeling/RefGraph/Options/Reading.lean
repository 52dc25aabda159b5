import RefGraph.FileSystem
import RefGraph.Mismatch
import RefGraph.Options
import RefGraph.Toml.Document

/-!
# Reading options

Options are read from a TOML document. What is absent keeps its default, what is not known does not
matter, and the first value that does not fit is reported.

* `Options.ofToml?`: the options of a document.
* `Options.load?`: the options of the tree below a root.
-/

namespace RefGraph

/-- Why there are no options: their file cannot be read, it is no TOML, or a value does not fit. -/
inductive OptionsError where
  | unreadable (e : FileError)
  | malformed
  | mismatch (m : Mismatch)
deriving DecidableEq, Repr, Inhabited

namespace OptionsError

/-- The text about a document that cannot be used. -/
def message : String := "Invalid extraction options"

/-- The text about a file that cannot be used. -/
def fileMessage (path : Path) : OptionsError → String
  | unreadable _ => "Failed to read " ++ path.text
  | _ => "Failed to load " ++ path.text

end OptionsError

/-- What a value is found to be. -/
def Toml.Value.found : Toml.Value → Found
  | .text s => .text s
  | .integer n => .integer n
  | .decimal shown => .decimal shown
  | .boolean b => .boolean b
  | .moment => .mapping
  | .array _ => .sequence
  | .table _ _ => .mapping
  | .tables _ => .sequence

namespace Options

/-- A natural number. -/
def naturalOf : Toml.Value → Except Mismatch Nat
  | .integer n => if 0 ≤ n then .ok n.toNat else .error (.value (.integer n) "usize")
  | v => .error (.type v.found "usize")

/-- A boolean. -/
def booleanOf : Toml.Value → Except Mismatch Bool
  | .boolean b => .ok b
  | v => .error (.type v.found "a boolean")

/-- A text. -/
def textOf : Toml.Value → Except Mismatch String
  | .text s => .ok s
  | v => .error (.type v.found "a string")

/-- A list of texts. -/
def textsOf : Toml.Value → Except Mismatch (List String)
  | .array items => items.mapM textOf
  | .tables items => items.mapM fun es => textOf (.table .header es)
  | v => .error (.type v.found "a sequence")

/-- The granularity that a word stands for. -/
def granularityOfWord (word : String) : Except Mismatch Granularity :=
  match Granularity.ofWord? word with
  | some g => .ok g
  | none => .error (.unknownWord word (Granularity.all.map Granularity.word))

/-- A granularity, as a word or as the only key of a table, whose value is an empty table. -/
def granularityOf : Toml.Value → Except Mismatch Granularity
  | .text word => granularityOfWord word
  | .table _ [] => .error .emptyTable
  | .table _ [(word, content)] =>
    match granularityOfWord word with
    | .error m => .error m
    | .ok g =>
      match content with
      | .table _ [] => .ok g
      | .table _ _ => .error .wordWithContent
      | v => .error (.wordWithoutTable v.word)
  | .table _ _ => .error .severalWords
  | _ => .error .noWord

/-- Sets the option of a name. -/
def set (o : Options) (name : String) (v : Toml.Value) : Except Mismatch Options :=
  if name = "max_files" then (naturalOf v).map fun x => { o with maxFiles := x }
  else if name = "include_external" then (booleanOf v).map fun x => { o with includeExternal := x }
  else if name = "granularity" then (granularityOf v).map fun x => { o with granularity := x }
  else if name = "aliases" then (textsOf v).map fun x => { o with aliases := x }
  else if name = "route_patterns" then (textsOf v).map fun x => { o with routePatterns := x }
  else .ok o

/-- The options of a document. -/
def ofToml? (text : String) : Except OptionsError Options :=
  match Toml.parse? text with
  | none => .error .malformed
  | some entries =>
    match entries.foldlM (fun o (name, v) => set o name v) ({} : Options) with
    | .ok o => .ok o
    | .error m => .error (.mismatch m)

/-- The path of the options file of a tree. -/
def fileIn (root : Path) : Path := root.join ⟨optionsFileName⟩

/-- The options of the tree below a root: the defaults if it has no options file. -/
def load? (fs : FileSystem) (root : Path) : Except OptionsError Options :=
  if fs.isFile (fileIn root) then
    match fs.read (fileIn root) with
    | .ok text => ofToml? text
    | .error e => .error (.unreadable e)
  else .ok {}

end Options

end RefGraph
