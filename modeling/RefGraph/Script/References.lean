import RefGraph.Reference
import RefGraph.Script.Cursor

/-!
# References of a script

The references that a syntax tree holds: import statements, exports from another module, and calls
of `import` and `require` with a single text.

* `reference?`: the reference that a single node makes.
* `references`: all references of a tree, collected on one way through it.
* `references_eq_filterMap`: each node is asked once, before the ones below it.
-/

namespace RefGraph.Script

/-- The text of a string literal without its quotes. -/
def stringValue? (source : List Char) (node : Node) : Option String :=
  if node.kind ≠ "string" then none
  else
    match (node.text source).toList with
    | _ :: c :: cs => some (String.ofList (c :: cs).dropLast)
    | _ => none

/-- A name, which may be written as a string literal. -/
def nameValue (source : List Char) (node : Node) : String :=
  (stringValue? source node).getD (node.text source)

/-- The reference of a statement to a module; none if the module has no name or is remote. -/
def dependencyOf? (source : List Char) (statement specifier : Node) (kind : EdgeKind)
    (bindings : List Binding) : Option Dependency :=
  match stringValue? source specifier with
  | none => none
  | some name =>
    if name = "" || isRemote name.toList then none
    else
      some
        { specifier := name
          kind
          statement := some (shownStatement (statement.text source))
          location := some ⟨statement.line source, statement.column source⟩
          bindings }

/-- The name that one part of a list of imports brings in. -/
def specifierBinding? (source : List Char) (node : Node) : Option Binding :=
  if node.kind ≠ "import_specifier" then none
  else
    (node.childByField? "name").map fun name =>
      let imported := nameValue source name
      { kind := if imported = "default" then .default else .named
        imported
        localName := ((node.childByField? "alias").map (Node.text source)).getD imported }

/-- The binding of a whole module under the name that a node holds. -/
def namespaceBinding (source : List Char) (node : Node) : List Binding :=
  (node.childOfKind? "identifier").toList.map fun name => ⟨.namespace, "*", name.text source⟩

/-- The names that one part of an import clause brings in. -/
def clausePartBindings (source : List Char) (node : Node) : List Binding :=
  if node.kind = "identifier" then [⟨.default, "default", node.text source⟩]
  else if node.kind = "namespace_import" then namespaceBinding source node
  else if node.kind = "named_imports" then
    node.namedChildren.filterMap (specifierBinding? source)
  else []

/-- The names that an import clause brings in. -/
def clauseBindings (source : List Char) (clause : Node) : List Binding :=
  clause.namedChildren.flatMap (clausePartBindings source)

/-- The reference of an import statement. -/
def importReference? (source : List Char) (node : Node) : Option Dependency :=
  match node.childByField? "source" with
  | some specifier =>
    let bindings := ((node.childOfKind? "import_clause").map (clauseBindings source)).getD []
    dependencyOf? source node specifier .static bindings
  | none =>
    (node.childOfKind? "import_require_clause").bind fun clause =>
      (clause.childByField? "source").bind fun specifier =>
        dependencyOf? source node specifier .static (namespaceBinding source clause)

/-- How a call refers to a module, if it does. -/
def callKind? (source : List Char) (function : Node) : Option EdgeKind :=
  if function.kind = "import" then some .dynamic
  else if function.kind = "identifier" && function.text source = "require" then some .static
  else none

/-- The reference of a call. -/
def callReference? (source : List Char) (node : Node) : Option Dependency :=
  (node.childByField? "function").bind fun function =>
    (callKind? source function).bind fun kind =>
      (node.childByField? "arguments").bind fun arguments =>
        match arguments.namedChildren.filter fun a => a.kind ≠ "comment" with
        | [only] =>
          if only.kind = "string" then dependencyOf? source node only kind [] else none
        | _ => none

/-- The reference that a node itself makes. -/
def reference? (source : List Char) (node : Node) : Option Dependency :=
  if node.kind = "import_statement" then importReference? source node
  else if node.kind = "export_statement" then
    (node.childByField? "source").bind fun specifier =>
      dependencyOf? source node specifier .static []
  else if node.kind = "call_expression" then callReference? source node
  else none

/-- All references of a tree, in the order in which their nodes begin. What has been found on the
way through the tree is kept last first. -/
def references (source : List Char) (root : Node) : List Dependency :=
  (Cursor.fold (fun found node => (reference? source node).toList ++ found) []
    { node := root }).reverse

/-- The references are those of the nodes, each before the ones below it. -/
theorem references_eq_filterMap (source : List Char) (root : Node) :
    references source root = root.preorder.filterMap (reference? source) := by
  have hcollect : ∀ (nodes : List Node) (found : List Dependency),
      (nodes.foldl (fun found node => (reference? source node).toList ++ found) found).reverse =
        found.reverse ++ nodes.filterMap (reference? source) := by
    intro nodes
    induction nodes with
    | nil => intro found; simp
    | cons node nodes ih =>
      intro found
      rw [List.foldl_cons, ih, List.reverse_append, List.append_assoc]
      cases hnode : reference? source node <;> simp [hnode]
  rw [references, Cursor.fold_top, hcollect, List.reverse_nil, List.nil_append]

end RefGraph.Script
