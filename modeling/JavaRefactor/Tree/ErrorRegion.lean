import JavaRefactor.Sorting
import JavaRefactor.Tree.Basic

/-! # Error regions

The grammar never fails. Around what it cannot read it puts error nodes, and for a
token that it had to make up it puts a missing node. The error regions of a tree are
the spans of its error nodes, and for each missing node the construct that it leaves
incomplete. Of incomplete constructs within each other only the innermost count.
-/

namespace JavaRefactor.Tree

/-- The spans of the error nodes. -/
def errorSpans (t : Tree) : List Span := (t.ids.filter t.isError).map t.span

/-- The node is missing and not itself an error. -/
def isMissing (t : Tree) (i : NodeId) : Bool := !t.isError i && (t.node i).isMissing

/-- The construct that a missing node leaves incomplete: its parent, unless that is the
root. -/
def incompleteSpan (t : Tree) (i : NodeId) : Span :=
  match t.parent? i with
  | some p => if p = root then t.span i else t.span p
  | none => t.span i

/-- The incomplete constructs. -/
def incompleteSpans (t : Tree) : List Span := (t.ids.filter t.isMissing).map t.incompleteSpan

/-- Leaves out each span that equals the one before it. -/
def dropRepeats : List Span → List Span
  | a :: b :: rest => if a = b then dropRepeats (b :: rest) else a :: dropRepeats (b :: rest)
  | spans => spans

/-- The spans of the unreadable parts of a text, in ascending order. -/
def errorRegions (t : Tree) : List Span :=
  let errors := t.errorSpans
  let incomplete := t.incompleteSpans
  let innermost := incomplete.filter fun outer => !(incomplete ++ errors).any outer.strictlyContains
  dropRepeats (sortBy Span.le (innermost ++ errors))

def hasErrors (t : Tree) : Bool := !t.errorRegions.isEmpty

/-- The first of the shortest spans. -/
def shortest? : List Span → Option Span
  | [] => none
  | s :: rest =>
    match shortest? rest with
    | none => some s
    | some best => if s.length ≤ best.length then some s else some best

/-- The smallest error region that contains an offset. -/
def errorRegionAt? (t : Tree) (offset : Nat) : Option Span :=
  shortest? (t.errorRegions.filter (·.containsOffset offset))

end JavaRefactor.Tree
