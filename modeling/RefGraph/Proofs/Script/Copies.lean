import RefGraph.Proofs.RelatedLists
import RefGraph.Proofs.Script.Declarations

/-!
# Trees at other places

A part of a script that is moved to another place keeps its tree, but for the range of the source
that its nodes cover. What such a tree declares and exports does not depend on its place.

* `IsCopy`: two trees of the same shape that cover the same texts.
* `Node.movedBy`, `isCopy_movedBy`: the tree of a part of a source, wherever that part stands.
* `IsCopy.localsOf_eq`, `IsCopy.statementExports_eq`: copies declare and export the same.
-/

namespace RefGraph.Script

variable {source source' : List Char}

/-- A tree and a copy of it, maybe in another source: nodes of the same kinds under the same fields,
each of which covers the same text. -/
inductive IsCopy (source source' : List Char) : Node → Node → Prop where
  | intro {node node' : Node} (kind : node.kind = node'.kind) (named : node.named = node'.named)
      (field : node.field = node'.field) (text : node.text source = node'.text source')
      (children : List.Forall₂ (IsCopy source source') node.children node'.children) :
      IsCopy source source' node node'

/-! ## Moved trees -/

mutual

/-- A tree with the ranges of all its nodes moved on in the source. -/
def Node.movedBy (distance : Nat) (node : Node) : Node :=
  match node with
  | ⟨kind, named, field, start, stop, children⟩ =>
    ⟨kind, named, field, distance + start, distance + stop, Node.movedByList distance children⟩

/-- `Node.movedBy` for each node of a list. -/
def Node.movedByList (distance : Nat) : List Node → List Node
  | [] => []
  | node :: nodes => node.movedBy distance :: Node.movedByList distance nodes

end

theorem Node.movedByList_eq (distance : Nat) (nodes : List Node) :
    Node.movedByList distance nodes = nodes.map (Node.movedBy distance) := by
  induction nodes with
  | nil => rfl
  | cons node nodes ih => rw [Node.movedByList, ih, List.map_cons]

/-- A tree is moved by moving its range and its children. -/
theorem Node.movedBy_eq (distance : Nat) (node : Node) : node.movedBy distance =
    { node with
      start := distance + node.start
      stop := distance + node.stop
      children := node.children.map (Node.movedBy distance) } := by
  cases node
  rw [Node.movedBy, Node.movedByList_eq]

/-- A node that is moved with the text around it covers the same text. -/
theorem Node.text_movedBy {part : List Char} {node : Node} (h : node.stop ≤ part.length)
    (before after : List Char) :
    (node.movedBy before.length).text (before ++ (part ++ after)) = node.text part := by
  rw [Node.movedBy_eq, Node.text, Node.text]
  dsimp only
  rw [List.drop_length_add_append, Nat.add_sub_add_left]
  rcases Nat.lt_or_ge node.stop node.start with hlt | hle
  · -- such a node covers nothing
    rw [Nat.sub_eq_zero_of_le (Nat.le_of_lt hlt), List.take_zero, List.take_zero]
  · rw [List.drop_append_of_le_length (Nat.le_trans hle h), List.take_append_of_le_length]
    rw [List.length_drop]
    exact Nat.sub_le_sub_right h _

/-- What is in a child is in the tree. -/
theorem Node.mem_preorder_of_mem_children {node child n : Node} (hchild : child ∈ node.children)
    (hn : n ∈ child.preorder) : n ∈ node.preorder := by
  obtain ⟨before, after, hchildren⟩ := List.append_of_mem hchild
  rw [Cursor.preorder_eq, hchildren, Cursor.preorderList_append, Node.preorderList]
  exact List.mem_cons_of_mem _ (List.mem_append_right _ (List.mem_append_left _ hn))

/-- **The trees of a part that stands at two places are copies of each other.** -/
theorem isCopy_movedBy (part : List Char) (node : Node)
    (h : ∀ n ∈ node.preorder, n.stop ≤ part.length) (before after before' after' : List Char) :
    IsCopy (before ++ (part ++ after)) (before' ++ (part ++ after')) (node.movedBy before.length)
      (node.movedBy before'.length) := by
  induction node using Node.induct with
  | h node ih =>
    have hstop : node.stop ≤ part.length := by
      apply h
      rw [Cursor.preorder_eq]
      exact List.mem_cons_self
    have htext := Node.text_movedBy hstop before after
    rw [← Node.text_movedBy hstop before' after'] at htext
    have hchildren : List.Forall₂ (IsCopy (before ++ (part ++ after)) (before' ++ (part ++ after')))
        (node.movedBy before.length).children (node.movedBy before'.length).children := by
      rw [Node.movedBy_eq, Node.movedBy_eq, List.forall₂_map_left_iff, List.forall₂_map_right_iff,
        List.forall₂_same]
      intro child hchild
      exact ih child hchild fun n hn => h n (Node.mem_preorder_of_mem_children hchild hn)
    refine .intro ?_ ?_ ?_ htext hchildren <;> rw [Node.movedBy_eq, Node.movedBy_eq]

namespace IsCopy

variable {node node' : Node}

theorem kind_eq (h : IsCopy source source' node node') : node.kind = node'.kind := by
  cases h with
  | intro kind => exact kind

theorem named_eq (h : IsCopy source source' node node') : node.named = node'.named := by
  cases h with
  | intro _ named => exact named

theorem field_eq (h : IsCopy source source' node node') : node.field = node'.field := by
  cases h with
  | intro _ _ field => exact field

theorem text_eq (h : IsCopy source source' node node') :
    node.text source = node'.text source' := by
  cases h with
  | intro _ _ _ text => exact text

/-- The children of a copy are copies. -/
theorem children (h : IsCopy source source' node node') :
    List.Forall₂ (IsCopy source source') node.children node'.children := by
  cases h with
  | intro _ _ _ _ children => exact children

/-! ## Ways to the children -/

/-- The named children of a copy are copies. -/
theorem namedChildren (h : IsCopy source source' node node') :
    List.Forall₂ (IsCopy source source') node.namedChildren node'.namedChildren := by
  apply List.rel_filter _ h.children
  intro child child' hchild
  exact Bool.eq_iff_iff.1 hchild.named_eq

/-- A field holds copies, or is missing in both trees. -/
theorem childByField? (h : IsCopy source source' node node') (field : String) :
    Option.Rel (IsCopy source source') (node.childByField? field) (node'.childByField? field) := by
  apply rel_find? h.children
  intro child child' hchild
  rw [hchild.field_eq]

/-- The first children of a kind are copies, or are missing in both trees. -/
theorem childOfKind? (h : IsCopy source source' node node') (kind : String) :
    Option.Rel (IsCopy source source') (node.childOfKind? kind) (node'.childOfKind? kind) := by
  apply rel_find? h.namedChildren
  intro child child' hchild
  rw [hchild.kind_eq]

theorem map_eq {α : Type} {f g : Node → α} {a b : Option Node}
    (h : Option.Rel (IsCopy source source') a b)
    (hfg : ∀ node node', IsCopy source source' node node' → f node = g node') :
    a.map f = b.map g := by
  cases h with
  | none => rfl
  | some h => rw [Option.map_some, Option.map_some, hfg _ _ h]

theorem isSome_eq (h : IsCopy source source' node node') (field : String) :
    (node.childByField? field).isSome = (node'.childByField? field).isSome := by
  have hchild := h.childByField? field
  generalize node.childByField? field = a at hchild ⊢
  generalize node'.childByField? field = b at hchild ⊢
  cases hchild <;> rfl

theorem map_text_eq (h : IsCopy source source' node node') (field : String) :
    (node.childByField? field).map (Node.text source) =
      (node'.childByField? field).map (Node.text source') :=
  map_eq (h.childByField? field) fun _ _ hchild => hchild.text_eq

/-! ## Declarations -/

/-- Copies declare things of the same kind. -/
theorem declarationKind?_eq (h : IsCopy source source' node node') :
    declarationKind? source node = declarationKind? source' node' := by
  have hhead := map_eq (rel_head? h.children) fun _ _ hchild => hchild.text_eq
  unfold declarationKind?
  rw [h.kind_eq, hhead]

/-- Copies declare a variable of the same name. -/
theorem declaratorName?_eq (h : IsCopy source source' node node') :
    declaratorName? source node = declaratorName? source' node' := by
  have hname := h.childByField? "name"
  unfold declaratorName?
  rw [h.kind_eq]
  generalize node.childByField? "name" = name at hname ⊢
  generalize node'.childByField? "name" = name' at hname ⊢
  cases hname with
  | none => rfl
  | some hname =>
    dsimp only
    rw [hname.kind_eq, hname.text_eq]

/-- Copies that are no ambient declarations declare the same names. -/
theorem plainDeclaredNames_eq (h : IsCopy source source' node node') :
    plainDeclaredNames source node = plainDeclaredNames source' node' := by
  have hnames : declaratorNames source node = declaratorNames source' node' := by
    rw [declaratorNames_eq, declaratorNames_eq]
    exact filterMap_eq_of_forall₂ h.namedChildren fun _ _ hchild => hchild.declaratorName?_eq
  have hname := h.childByField? "name"
  unfold plainDeclaredNames
  rw [h.declarationKind?_eq, h.kind_eq, hnames]
  generalize node.childByField? "name" = name at hname ⊢
  generalize node'.childByField? "name" = name' at hname ⊢
  cases hname with
  | none => rfl
  | some hname =>
    dsimp only
    rw [hname.text_eq]

/-- A copy declares the same names. The induction is on the tree, for the sake of what stands in an
ambient declaration. -/
theorem declaredNames_eq (h : IsCopy source source' node node') :
    declaredNames source node = declaredNames source' node' := by
  induction node using Node.induct generalizing node' with
  | h node ih =>
    rw [Script.declaredNames_eq, Script.declaredNames_eq, h.kind_eq, h.plainDeclaredNames_eq]
    have hinside : node.namedChildren.flatMap (Script.declaredNames source) =
        node'.namedChildren.flatMap (Script.declaredNames source') := by
      apply flatMap_eq_of_forall₂ h.namedChildren
      intro child hchild child' _ hcopy
      exact ih child (List.mem_of_mem_filter hchild) hcopy
    rw [hinside]

/-- **A copy declares the same names at the top of a script.** -/
theorem localsOf_eq (h : IsCopy source source' node node') :
    localsOf source node = localsOf source' node' := by
  have hdeclaration := map_eq (h.childByField? "declaration") fun _ _ hchild =>
    hchild.declaredNames_eq
  unfold localsOf
  rw [h.kind_eq, h.isSome_eq, hdeclaration, h.declaredNames_eq]

/-! ## Exports -/

/-- Copies are the same name. -/
theorem nameValue_eq (h : IsCopy source source' node node') :
    nameValue source node = nameValue source' node' := by
  rw [nameValue, nameValue, stringValue?, stringValue?, h.kind_eq, h.text_eq]

/-- Copies of a part of a list of exports export the same. -/
theorem specifierExport?_eq (h : IsCopy source source' node node') :
    specifierExport? source node = specifierExport? source' node' := by
  have halias := map_eq (h.childByField? "alias") fun _ _ hchild => hchild.nameValue_eq
  unfold specifierExport?
  rw [h.kind_eq, halias]
  split
  · rfl
  · apply map_eq (h.childByField? "name")
    intro name name' hname
    rw [hname.nameValue_eq]

theorem isDefaultExport_eq (h : IsCopy source source' node node') :
    isDefaultExport node = isDefaultExport node' := by
  apply any_eq_of_forall₂ h.children
  intro child child' hchild
  rw [hchild.kind_eq]

/-- Copies of an exported declaration export the same. -/
theorem declarationExports_eq (h : IsCopy source source' node node') (isDefault : Bool) :
    declarationExports source isDefault node = declarationExports source' isDefault node' := by
  unfold declarationExports
  rw [h.declaredNames_eq, h.declarationKind?_eq]

/-- Copies of an exported value export the same. -/
theorem defaultValueExport_eq (h : IsCopy source source' node node') :
    defaultValueExport source node = defaultValueExport source' node' := by
  unfold defaultValueExport
  rw [h.kind_eq, h.text_eq, h.map_text_eq]

/-- **A copy of an export statement exports the same.** -/
theorem statementExports_eq (h : IsCopy source source' node node') :
    statementExports source node = statementExports source' node' := by
  have hvalue := map_eq (h.childByField? "value") fun _ _ hchild => hchild.defaultValueExport_eq
  have hvalues : (node.childByField? "value").toList.map (defaultValueExport source) =
      (node'.childByField? "value").toList.map (defaultValueExport source') := by
    rw [← Option.toList_map, hvalue, Option.toList_map]
  have hdeclaration := h.childByField? "declaration"
  have hclause := h.childOfKind? "export_clause"
  unfold statementExports
  rw [h.isSome_eq, h.isDefaultExport_eq, hvalues]
  generalize node.childByField? "declaration" = declaration at hdeclaration ⊢
  generalize node'.childByField? "declaration" = declaration' at hdeclaration ⊢
  generalize node.childOfKind? "export_clause" = clause at hclause ⊢
  generalize node'.childOfKind? "export_clause" = clause' at hclause ⊢
  cases hdeclaration with
  | some hdeclaration =>
    dsimp only
    rw [hdeclaration.declarationExports_eq]
  | none =>
    cases hclause with
    | none => rfl
    | some hclause =>
      dsimp only
      rw [filterMap_eq_of_forall₂ hclause.namedChildren fun _ _ hpart => hpart.specifierExport?_eq]

end IsCopy

end RefGraph.Script
