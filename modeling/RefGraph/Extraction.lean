import RefGraph.Script.Parser
import RefGraph.Script.Exports
import RefGraph.Style.Imports

/-!
# Analysing one file

The analysis of a file depends on the extension of its path alone.

* `analyse?`: the references and exported names of a file.
-/

namespace RefGraph

/-- The dialect of a script by its extension. -/
def Script.Dialect.ofPath? (p : Path) : Option Script.Dialect :=
  match p.extension? with
  | some "ts" => some .typeScript
  | some "tsx" => some .tsx
  | some "js" | some "jsx" | some "mjs" | some "cjs" => some .javaScript
  | _ => none

/-- Why a file was not analysed. -/
inductive AnalysisError where
  | unsupported (path : Path)
  | malformed (path : Path)
deriving DecidableEq, Repr, Inhabited

/-- The text of an error. -/
def AnalysisError.message : AnalysisError → String
  | unsupported path => "unsupported file type: " ++ path.text
  | malformed path => "syntax error in " ++ path.text

/-- The syntax tree of a script. An untyped one that is not well formed may still carry types. -/
def scriptTree? (d : Script.Dialect) (source : List Char) : Option Script.Node :=
  (Script.parse? d source).orElse fun _ =>
    if d = .javaScript then Script.parse? .tsx source else none

/-- What is found in a syntax tree; exported names only if they are asked for. -/
def findingsOfTree (source : List Char) (withSymbols : Bool) (root : Script.Node) : Findings :=
  { dependencies := Script.references source root
    symbols := if withSymbols then Script.exportedSymbols source root else [] }

/-- Whether a stylesheet may have comments to the end of the line, by its extension. -/
def hasLineComments (p : Path) : Bool :=
  p.extension? == some "scss" || p.extension? == some "sass"

/-- The references and, if they are asked for, the exported names of a file. -/
def analyse? (p : Path) (text : String) (withSymbols : Bool) : Except AnalysisError Findings :=
  match SourceKind.ofPath? p with
  | none => .error (.unsupported p)
  | some .style => .ok { dependencies := Style.imports (hasLineComments p) text.toList }
  | some .script =>
    match (Script.Dialect.ofPath? p).bind fun d => scriptTree? d text.toList with
    | none => .error (.malformed p)
    | some root => .ok (findingsOfTree text.toList withSymbols root)

end RefGraph
