import RefGraph.Text

/-!
# Syntax trees

A syntax tree as the analyses of scripts see it: nodes of any kind, some of them named, some under
a field of their parent, each with the range of the source that it covers.

* `Node`: the trees.
* `Node.childByField?`, `Node.childOfKind?`, `Node.namedChildren`: ways to the children.
* `Node.text`, `Node.line`, `Node.column`: what a node covers and where it begins.
-/

namespace RefGraph.Script

/-- A node of a syntax tree. Its range counts characters of the source; `field` is the field of the
parent under which it stands, if it stands under one. -/
structure Node where
  kind : String
  named : Bool := true
  field : Option String := none
  start : Nat
  stop : Nat
  children : List Node := []
deriving Inhabited

namespace Node

/-- The children that stand for rules, and not for spellings. -/
def namedChildren (node : Node) : List Node := node.children.filter (·.named)

/-- The first child under a field. -/
def childByField? (node : Node) (field : String) : Option Node :=
  node.children.find? fun child => child.field == some field

/-- The first named child of a kind. -/
def childOfKind? (node : Node) (kind : String) : Option Node :=
  node.namedChildren.find? fun child => child.kind == kind

/-- The part of the source that a node covers. -/
def text (source : List Char) (node : Node) : String :=
  String.ofList ((source.drop node.start).take (node.stop - node.start))

/-- The line on which a node begins, counted from 1. -/
def line (source : List Char) (node : Node) : Nat :=
  (source.take node.start).count '\n' + 1

/-- The bytes between the beginning of the line and the node. -/
def column (source : List Char) (node : Node) : Nat :=
  columnOf (source.take node.start)

mutual

/-- The node and all below it, each before its children. -/
def preorder (node : Node) : List Node :=
  match node with
  | ⟨kind, named, field, start, stop, children⟩ =>
    ⟨kind, named, field, start, stop, children⟩ :: preorderList children

/-- `Node.preorder` for each node of a list. -/
def preorderList : List Node → List Node
  | [] => []
  | node :: nodes => node.preorder ++ preorderList nodes

end

end Node

end RefGraph.Script
