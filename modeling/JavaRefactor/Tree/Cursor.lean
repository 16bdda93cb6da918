import JavaRefactor.Tree.Raw

/-! # Cursors

A cursor stands on a node of a parse tree. It moves to the first child, to the next sibling or
back up to the parent.
-/

namespace JavaRefactor

inductive Cursor where
  | root (tree : RawTree)
  /-- A node below another one, with the siblings that follow it. -/
  | child (parent : Cursor) (tree : RawTree) (later : List RawTree)
  deriving Repr, Inhabited

namespace Cursor

/-- The node under the cursor, with all below it. -/
def tree : Cursor → RawTree
  | root tree => tree
  | child _ tree _ => tree

def label (c : Cursor) : Label := c.tree.label

def firstChild? (c : Cursor) : Option Cursor :=
  match c.tree.children with
  | [] => none
  | first :: later => some (child c first later)

def nextSibling? : Cursor → Option Cursor
  | child parent _ (next :: later) => some (child parent next later)
  | _ => none

/-- Number of nodes that come after the node under the cursor and all below it. -/
def ahead : Cursor → Nat
  | root _ => 0
  | child parent _ later => RawTree.sizeAll later + parent.ahead

/-- Number of nodes from the cursor on. -/
def remaining (c : Cursor) : Nat := c.tree.size + c.ahead

variable {c next : Cursor}

theorem remaining_child (parent : Cursor) (tree : RawTree) (later : List RawTree) :
    (child parent tree later).remaining = tree.size + RawTree.sizeAll later + parent.ahead :=
  (Nat.add_assoc _ _ _).symm

theorem remaining_firstChild? (h : c.firstChild? = some next) :
    next.remaining < c.remaining := by
  unfold firstChild? at h
  cases hc : c.tree.children with
  | nil => simp [hc] at h
  | cons first later =>
    obtain rfl : child c first later = next := by simpa [hc] using h
    rw [remaining_child, remaining, c.tree.size_eq, hc, RawTree.sizeAll]
    omega

theorem remaining_nextSibling? (h : c.nextSibling? = some next) : next.remaining ≤ c.ahead := by
  cases c with
  | root => simp [nextSibling?] at h
  | child parent current later =>
    cases later with
    | nil => simp [nextSibling?] at h
    | cons sibling later =>
      obtain rfl := Option.some.inj h
      exact Nat.le_of_eq (by rw [remaining_child, ahead, RawTree.sizeAll])

end Cursor

end JavaRefactor
