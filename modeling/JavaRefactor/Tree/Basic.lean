import JavaRefactor.Text.Position
import JavaRefactor.Tree.Arena

/-! # Trees

A tree is a text with the numbered nodes of its parse tree. The root spans the whole text.
-/

namespace JavaRefactor

/-- A text and the nodes of its parse tree. -/
structure Tree where
  source : String
  nodes : Array Node
  deriving Repr, Inhabited

namespace Tree

/-- The number of the root. -/
def root : NodeId := 0

/-- The tree of a text. -/
def ofRaw (source : String) (raw : RawTree) : Tree :=
  ⟨source, raw.arena.modify root fun n => { n with span := ⟨0, Text.byteLength source⟩ }⟩

def size (t : Tree) : Nat := t.nodes.size

/-- All nodes in preorder. -/
def ids (t : Tree) : List NodeId := List.range t.size

def node (t : Tree) (i : NodeId) : Node := t.nodes.getD i .absent

def kind (t : Tree) (i : NodeId) : NodeKind := (t.node i).kind

def span (t : Tree) (i : NodeId) : Span := (t.node i).span

def field (t : Tree) (i : NodeId) : Option String := (t.node i).field

def isNamed (t : Tree) (i : NodeId) : Bool := (t.node i).isNamed

def isError (t : Tree) (i : NodeId) : Bool := (t.node i).isError

/-- The text of a node, empty if its span does not cut the source between characters. -/
def text (t : Tree) (i : NodeId) : String := (Text.slice? t.source (t.span i)).getD ""

def children (t : Tree) (i : NodeId) : List NodeId := (t.node i).children

/-- The nodes above a node, nearest first. -/
def ancestors (t : Tree) (i : NodeId) : List NodeId := (t.node i).ancestors

def parent? (t : Tree) (i : NodeId) : Option NodeId := (t.node i).parent?

/-- The kind of the node above. -/
def parentKind? (t : Tree) (i : NodeId) : Option NodeKind := (t.parent? i).map t.kind

/-- The children that are not punctuation or keywords. -/
def namedChildren (t : Tree) (i : NodeId) : List NodeId := (t.children i).filter t.isNamed

/-- The children that a field holds. -/
def childrenByField (t : Tree) (i : NodeId) (field : String) : List NodeId :=
  (t.children i).filter fun c => t.field c == some field

/-- The first child that a field holds. -/
def childByField? (t : Tree) (i : NodeId) (field : String) : Option NodeId :=
  (t.children i).find? fun c => t.field c == some field

/-- The first child of a kind. -/
def childOfKind? (t : Tree) (i : NodeId) (kind : NodeKind) : Option NodeId :=
  (t.children i).find? fun c => t.kind c == kind

/-- The node is an error node or lies below one. -/
def isInError (t : Tree) (i : NodeId) : Bool := t.isError i || (t.ancestors i).any t.isError

/-- A child of `current` that is not empty and contains the offset. -/
def leadsTo (t : Tree) (offset : Nat) (current i : NodeId) : Bool :=
  let span := t.span i
  t.parent? i == some current && !span.isEmpty && span.start ≤ offset && offset < span.stop

/-- The deepest node that contains an offset, by descent from the root into the first child
that contains it. In preorder the children of a node come before all that follows it, so
one pass over the nodes makes the descent. -/
def nodeAt (t : Tree) (offset : Nat) : NodeId :=
  t.ids.foldl (fun current i => if t.leadsTo offset current i then i else current) root

end Tree

end JavaRefactor
