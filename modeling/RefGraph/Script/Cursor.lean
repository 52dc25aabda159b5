import RefGraph.Script.Node

/-!
# Going through a tree

A cursor stands on a node of a syntax tree. It moves to the first child, to the next sibling or back
to the parent, and with these moves from each node to the next one of the tree, until it is back at
the top.

* `Cursor.firstChild?`, `Cursor.nextSibling?`, `Cursor.parent?`: the moves.
* `Cursor.advance?`: down if there is a child, otherwise along, and up as far as needed.
* `Cursor.fold`: a state that is updated at each node on the way.
* `Cursor.fold_top`: the way leads through the whole tree, each node before the ones below it.
-/

namespace RefGraph.Script

/-- A place in a tree: the node there, the siblings behind it, and the nodes above it, nearest
first, each with the siblings behind it. -/
structure Cursor where
  node : Node
  behind : List Node := []
  above : List (Node × List Node) := []

namespace Cursor

/-! ## Moves -/

/-- Down to the first child. -/
def firstChild? (c : Cursor) : Option Cursor :=
  match c.node.children with
  | [] => none
  | node :: behind => some ⟨node, behind, (c.node, c.behind) :: c.above⟩

/-- Along to the next sibling. -/
def nextSibling? (c : Cursor) : Option Cursor :=
  match c.behind with
  | [] => none
  | node :: behind => some ⟨node, behind, c.above⟩

/-- Back to the parent. -/
def parent? (c : Cursor) : Option Cursor :=
  match c.above with
  | [] => none
  | (node, behind) :: above => some ⟨node, behind, above⟩

theorem length_above_lt {c p : Cursor} (h : c.parent? = some p) :
    p.above.length < c.above.length := by
  rw [parent?] at h
  split at h
  · cases h
  · rename_i node behind above habove
    rw [← Option.some.inj h, habove]
    exact Nat.lt_succ_self _

/-- The next sibling of the node or, if it has none, of the nearest node above that has one. -/
def climb? (c : Cursor) : Option Cursor :=
  match c.nextSibling? with
  | some next => some next
  | none =>
    match _h : c.parent? with
    | some parent => climb? parent
    | none => none
termination_by c.above.length
decreasing_by exact length_above_lt _h

/-- The next node of the tree. -/
def advance? (c : Cursor) : Option Cursor :=
  match c.firstChild? with
  | some child => some child
  | none => c.climb?

/-! ## What is left -/

/-- The nodes that come after the node and all below it. -/
def rest (c : Cursor) : List Node := Node.preorderList (c.behind ++ c.above.flatMap Prod.snd)

/-- The nodes from the cursor on, each before the ones below it. -/
def pending (c : Cursor) : List Node := c.node.preorder ++ c.rest

/-- Behind a node comes its next sibling. -/
theorem rest_of_nextSibling? {c next : Cursor} (h : c.nextSibling? = some next) :
    c.rest = next.pending := by
  rw [nextSibling?] at h
  split at h
  · cases h
  · rename_i node behind hbehind
    rw [← Option.some.inj h, pending, rest, rest, hbehind, List.cons_append, Node.preorderList]

/-- Behind the last child comes what is behind its parent. -/
theorem rest_of_parent? {c parent : Cursor} (hnext : c.nextSibling? = none)
    (h : c.parent? = some parent) : c.rest = parent.rest := by
  rw [nextSibling?] at hnext
  rw [parent?] at h
  split at hnext
  · rename_i hbehind
    split at h
    · cases h
    · rename_i node behind above habove
      rw [← Option.some.inj h, rest, rest, hbehind, habove, List.nil_append, List.flatMap_cons]
  · cases hnext

theorem rest_of_top {c : Cursor} (hnext : c.nextSibling? = none) (h : c.parent? = none) :
    c.rest = [] := by
  rw [nextSibling?] at hnext
  rw [parent?] at h
  split at hnext
  · rename_i hbehind
    split at h
    · rename_i habove
      rw [rest, hbehind, habove]
      rfl
    · cases h
  · cases hnext

/-- Climbing leads to what comes after the node and all below it. -/
theorem rest_eq_climb? (c : Cursor) : c.rest = (c.climb?.map pending).getD [] := by
  fun_induction climb? c with
  | case1 c next hnext => exact rest_of_nextSibling? hnext
  | case2 c hnext parent hparent ih => rw [rest_of_parent? hnext hparent, ih]
  | case3 c hnext hparent => exact rest_of_top hnext hparent

theorem preorder_eq (node : Node) : node.preorder = node :: Node.preorderList node.children := by
  cases node
  rw [Node.preorder]

theorem preorderList_append (nodes more : List Node) :
    Node.preorderList (nodes ++ more) = Node.preorderList nodes ++ Node.preorderList more := by
  induction nodes with
  | nil => rfl
  | cons node nodes ih =>
    rw [List.cons_append, Node.preorderList, Node.preorderList, ih, List.append_assoc]

/-- **Each move to the next node takes one node away from what is left**, and there is such a move
as long as another one is left. -/
theorem pending_eq_advance? (c : Cursor) :
    c.pending = c.node :: (c.advance?.map pending).getD [] := by
  rw [advance?, firstChild?, pending, preorder_eq]
  split
  · rename_i hsplit
    split at hsplit
    · cases hsplit
    · rename_i node behind hchildren
      rw [← Option.some.inj hsplit, hchildren, Option.map_some, Option.getD_some, pending, rest,
        rest, List.flatMap_cons, Node.preorderList, preorderList_append behind, List.cons_append,
        List.append_assoc]
  · rename_i hsplit
    split at hsplit
    · rename_i hchildren
      rw [hchildren, rest_eq_climb?]
      rfl
    · cases hsplit

/-- Every step of the cursor leaves less to be visited. -/
theorem length_pending_lt {c next : Cursor} (h : c.advance? = some next) :
    next.pending.length < c.pending.length := by
  rw [c.pending_eq_advance?, h]
  exact Nat.lt_succ_self _

/-! ## The way through the tree -/

/-- A state that is updated at the node and at each one after it. -/
def fold {α : Type} (update : α → Node → α) (state : α) (c : Cursor) : α :=
  match _h : c.advance? with
  | some next => next.fold update (update state c.node)
  | none => update state c.node
termination_by c.pending.length
decreasing_by exact length_pending_lt _h

/-- **Folding with a cursor visits all nodes that are left**, in order. -/
theorem fold_eq_foldl {α : Type} (update : α → Node → α) (state : α) (c : Cursor) :
    c.fold update state = c.pending.foldl update state := by
  fun_induction fold update state c with
  | case1 state c next hnext ih => rw [c.pending_eq_advance?, hnext, List.foldl_cons, ih]; rfl
  | case2 state c hnext => rw [c.pending_eq_advance?, hnext]; rfl

/-- **From the top the way leads through the whole tree**, each node before the ones below it. -/
theorem fold_top {α : Type} (update : α → Node → α) (state : α) (root : Node) :
    fold update state { node := root } = root.preorder.foldl update state := by
  have hrest : rest { node := root } = [] := rfl
  rw [fold_eq_foldl, pending, hrest, List.append_nil]

end Cursor

end RefGraph.Script
