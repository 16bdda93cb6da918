import JavaRefactor.Tree.Cursor
import JavaRefactor.Tree.Kind

/-! # Numbered nodes

The nodes of a parse tree are numbered in preorder and kept in an array, so a parent has a
smaller number than its children and siblings stand in source order. Each node knows its
children and all nodes above it. A cursor goes over the parse tree once, and a stack holds the
numbers of the nodes above it.
-/

namespace JavaRefactor

/-- The number of a node in preorder. -/
abbrev NodeId := Nat

structure Node where
  kind : NodeKind
  grammar : String
  span : Span
  /-- The nodes above, nearest first. -/
  ancestors : List NodeId
  children : List NodeId
  field : Option String
  isNamed : Bool
  isError : Bool
  isMissing : Bool
  deriving DecidableEq, Repr, Inhabited

namespace Node

/-- What is read of a node that does not exist. -/
def absent : Node :=
  { kind := .other, grammar := "", span := ⟨0, 0⟩, ancestors := [], children := [], field := none,
    isNamed := false, isError := false, isMissing := false }

/-- The node with a label, in its place in the tree. -/
def ofLabel (label : Label) (ancestors children : List NodeId) : Node :=
  { kind := if label.isError then .error else .ofGrammar label.grammar
    grammar := label.grammar
    span := ⟨label.span.start, max label.span.stop label.span.start⟩
    ancestors
    children
    field := label.field
    isNamed := label.isNamed
    isError := label.isError
    isMissing := label.isMissing }

def parent? (n : Node) : Option NodeId := n.ancestors.head?

end Node

/-- Hangs nodes below another one, behind the children it has. -/
def Arena.adopt (nodes : Array Node) (ids : List NodeId) : Option NodeId → Array Node
  | none => nodes
  | some parent => nodes.modify parent fun n => { n with children := n.children ++ ids }

namespace Cursor

variable {c next : Cursor} {stack above : List NodeId}

/-- The next sibling of the node, or of the nearest node above that has one. Each step up takes
a number off the stack. -/
def leave (stack : List NodeId) (c : Cursor) : Option (List NodeId × Cursor) :=
  match c.nextSibling? with
  | some next => some (stack, next)
  | none =>
    match c with
    | root _ => none
    | child parent _ _ => parent.leave stack.tail

/-- The node that follows the node numbered `i` in preorder. -/
def next? (stack : List NodeId) (i : NodeId) (c : Cursor) : Option (List NodeId × Cursor) :=
  match c.firstChild? with
  | some first => some (i :: stack, first)
  | none => c.leave stack

theorem remaining_leave (h : c.leave stack = some (above, next)) : next.remaining ≤ c.ahead := by
  fun_induction leave stack c with
  | case1 stack c sibling hs =>
    obtain ⟨-, rfl⟩ := Prod.mk.inj (Option.some.inj h)
    exact remaining_nextSibling? hs
  | case2 => simp at h
  | case3 stack parent tree later hs ih =>
    have := ih h
    simp only [ahead]
    omega

theorem remaining_next? {i : NodeId} (h : c.next? stack i = some (above, next)) :
    next.remaining < c.remaining := by
  unfold next? at h
  split at h
  next first hf =>
    obtain ⟨-, rfl⟩ := Prod.mk.inj (Option.some.inj h)
    exact remaining_firstChild? hf
  next =>
    calc
      next.remaining ≤ c.ahead := remaining_leave h
      _ < c.remaining := Nat.lt_add_of_pos_left c.tree.size_pos

end Cursor

/-- Adds the node under the cursor and all that follow it. The node hangs below the one on top
of the stack. -/
def Arena.copy (nodes : Array Node) (stack : List NodeId) (c : Cursor) : Array Node :=
  let i := nodes.size
  let nodes := adopt (nodes.push (.ofLabel c.label stack [])) [i] stack.head?
  match _h : c.next? stack i with
  | none => nodes
  | some (stack, next) => copy nodes stack next
termination_by c.remaining
decreasing_by exact Cursor.remaining_next? _h

/-- The nodes of a parse tree. -/
def RawTree.arena (raw : RawTree) : Array Node := Arena.copy #[] [] (.root raw)

end JavaRefactor
