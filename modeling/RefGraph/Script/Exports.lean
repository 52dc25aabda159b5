import RefGraph.Script.References

/-!
# Exported names of a script

The names that a script exports, in the order of their first export. The kind of a name that is
exported by a clause comes from the declaration of the local name, wherever in the script it stands.

* `exportedSymbols`: the exported names of a tree.
-/

namespace RefGraph.Script

/-- The kind of names that a declaration introduces. -/
def declarationKind? (source : List Char) (node : Node) : Option SymbolKind :=
  match node.kind with
  | "function_declaration" | "generator_function_declaration" | "function_signature" =>
    some .function
  | "class_declaration" | "abstract_class_declaration" => some .classLike
  | "interface_declaration" => some .interface
  | "type_alias_declaration" => some .typeAlias
  | "enum_declaration" => some .enumeration
  | "variable_declaration" => some .varBinding
  | "lexical_declaration" =>
    match node.children.head?.map (Node.text source) with
    | some "const" => some .constant
    | some "let" => some .letBinding
    | _ => none
  | _ => none

/-- The names that the declarators of a declaration of variables introduce. -/
def declaratorNames (source : List Char) (node : Node) : List String :=
  node.namedChildren.filterMap fun declarator =>
    if declarator.kind = "variable_declarator" then
      match declarator.childByField? "name" with
      | some name => if name.kind = "identifier" then some (name.text source) else none
      | none => none
    else none

/-- The names that a declaration introduces, apart from the ones inside an ambient declaration. -/
def plainDeclaredNames (source : List Char) (node : Node) : List (String × SymbolKind) :=
  match declarationKind? source node with
  | none => []
  | some kind =>
    if node.kind = "lexical_declaration" || node.kind = "variable_declaration" then
      (declaratorNames source node).map fun name => (name, kind)
    else
      match node.childByField? "name" with
      | some name => [(name.text source, kind)]
      | none => []

mutual

/-- The names that a top-level node introduces, with their kinds. -/
def declaredNames (source : List Char) (node : Node) : List (String × SymbolKind) :=
  match node with
  | ⟨kind, named, field, start, stop, children⟩ =>
    if kind = "ambient_declaration" then declaredNamesOfList source children
    else plainDeclaredNames source ⟨kind, named, field, start, stop, children⟩

/-- The names that the named ones of a list of nodes introduce. -/
def declaredNamesOfList (source : List Char) : List Node → List (String × SymbolKind)
  | [] => []
  | node :: nodes =>
    (if node.named then declaredNames source node else []) ++ declaredNamesOfList source nodes

end

/-- An export: of a known kind, or of a local name whose declaration tells the kind. -/
inductive Export where
  | known (symbol : ExportedSymbol)
  | ofLocal (localName exported : String)
deriving DecidableEq, Repr, Inhabited

/-- Whether an export statement exports the default. -/
def isDefaultExport (node : Node) : Bool := node.children.any fun c => c.kind = "default"

/-- The exports of a declaration that is exported. -/
def declarationExports (source : List Char) (isDefault : Bool) (declaration : Node) :
    List Export :=
  let names := declaredNames source declaration
  if isDefault then
    match names with
    | (name, kind) :: _ => [.known ⟨"default", kind, some name⟩]
    | [] =>
      [.known ⟨"default", (declarationKind? source declaration).getD .exported, none⟩]
  else names.map fun (name, kind) => .known ⟨name, kind, none⟩

/-- The export of an expression as the default. -/
def defaultValueExport (source : List Char) (value : Node) : Export :=
  let named (kind : SymbolKind) : Export :=
    .known ⟨"default", kind, (value.childByField? "name").map (Node.text source)⟩
  match value.kind with
  | "identifier" => .ofLocal (value.text source) "default"
  | "function_expression" | "function" | "generator_function" | "arrow_function" =>
    named .function
  | "class" => named .classLike
  | _ => .known ⟨"default", .exported, none⟩

/-- The export of one name of an export clause. -/
def specifierExport? (source : List Char) (node : Node) : Option Export :=
  if node.kind ≠ "export_specifier" then none
  else
    (node.childByField? "name").map fun name =>
      let localName := nameValue source name
      .ofLocal localName (((node.childByField? "alias").map (nameValue source)).getD localName)

/-- The exports of an export statement. One that takes its names from another module has none. -/
def statementExports (source : List Char) (node : Node) : List Export :=
  if (node.childByField? "source").isSome then []
  else
    match node.childByField? "declaration" with
    | some declaration => declarationExports source (isDefaultExport node) declaration
    | none =>
      if isDefaultExport node then
        (node.childByField? "value").toList.map (defaultValueExport source)
      else
        match node.childOfKind? "export_clause" with
        | some clause => clause.namedChildren.filterMap (specifierExport? source)
        | none => []

/-- The names that a top-level node declares: itself, or the declaration that it exports. -/
def localsOf (source : List Char) (node : Node) : List (String × SymbolKind) :=
  if node.kind = "export_statement" then
    if (node.childByField? "source").isSome then []
    else ((node.childByField? "declaration").map (declaredNames source)).getD []
  else declaredNames source node

/-- The symbol of an export, given the declared names in order. -/
def Export.symbol (locals : List (String × SymbolKind)) : Export → ExportedSymbol
  | .known symbol => symbol
  | .ofLocal localName exported =>
    { name := exported
      kind := (locals.lookup localName).getD .exported
      displayName :=
        if exported = "default" && localName ≠ "default" then some localName else none }

/-- Keeps the first symbol of each name. -/
def firstOfEachName : List ExportedSymbol → List ExportedSymbol
  | [] => []
  | s :: rest => s :: (firstOfEachName rest).filter fun t => t.name ≠ s.name

/-- The exported names of a tree, in the order of their first export. -/
def exportedSymbols (source : List Char) (root : Node) : List ExportedSymbol :=
  let top := root.namedChildren
  let locals := top.flatMap (localsOf source)
  let exports := (top.filter fun n => n.kind = "export_statement").flatMap
    (statementExports source)
  firstOfEachName (exports.map (Export.symbol locals))

end RefGraph.Script
