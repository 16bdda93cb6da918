import JavaRefactor.Text.Span

/-! # Parse trees

The grammar's parser is not part of this library. What it makes of a text is a tree
of labelled nodes, which is also handed over as a list of rows: the labels in
preorder, each with its depth.
-/

namespace JavaRefactor

/-- What the parser says of one node. -/
structure Label where
  /-- The kind of the node, as the grammar names it. -/
  grammar : String
  span : Span
  /-- The field of the parent that holds the node. -/
  field : Option String
  isNamed : Bool
  isError : Bool
  isMissing : Bool
  deriving DecidableEq, Repr, Inhabited

inductive RawTree where
  | node (label : Label) (children : List RawTree)
  deriving Repr, Inhabited

/-- The parser gave no tree for a text. -/
structure ParseError where
  reason : String
  offset : Option Nat
  deriving DecidableEq, Repr

/-- A parser makes a tree of every text it can handle. -/
abbrev Parser := String → Except ParseError RawTree

namespace RawTree

def label : RawTree → Label
  | .node label _ => label

def children : RawTree → List RawTree
  | .node _ children => children

/-- A label and the depth of its node. -/
abbrev Row := Nat × Label

/-- Puts a row before the trees that follow it. The deeper ones among the first of them
are its children. -/
def attach (row : Row) (trees : List (Nat × RawTree)) : List (Nat × RawTree) :=
  let below (tree : Nat × RawTree) : Bool := row.1 < tree.1
  (row.1, .node row.2 ((trees.takeWhile below).map (·.2))) :: trees.dropWhile below

/-- The tree of a list of rows in preorder, none if they do not form one tree. -/
def ofRows? (rows : List Row) : Option RawTree :=
  match rows.foldr attach [] with
  | [(_, tree)] => some tree
  | _ => none

mutual

/-- Number of nodes. -/
def size : RawTree → Nat
  | .node _ children => 1 + sizeAll children

def sizeAll : List RawTree → Nat
  | [] => 0
  | tree :: trees => tree.size + sizeAll trees

end

theorem size_eq (tree : RawTree) : tree.size = 1 + sizeAll tree.children := by
  cases tree
  rfl

theorem size_pos (tree : RawTree) : 0 < tree.size := by
  rw [size_eq]
  omega

end RawTree

end JavaRefactor
