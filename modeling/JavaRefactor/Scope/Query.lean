import JavaRefactor.Scope.Lookup
import JavaRefactor.Tree.ErrorRegion

/-! # Queries at an offset

A query first makes sure that its offset lies in the text and in no error region. A
symbol is sought at the offset, then right before it, then in the header of the
declaration around it.
-/

namespace JavaRefactor

/-- Why a query has no answer. -/
inductive QueryError where
  | positionInErrorRegion (offset : Nat) (region : Span)
  | notFound (offset : Nat)
  | outOfRange (offset length : Nat)
  deriving DecidableEq, Repr

namespace QueryError

def message : QueryError → String
  | positionInErrorRegion offset region =>
    s!"offset {offset} is inside a syntax error region {region.display}"
  | notFound offset => s!"nothing found at offset {offset}"
  | outOfRange offset length => s!"offset {offset} is past the end of the text ({length} bytes)"

end QueryError

namespace Tree

/-- The offset lies in the text and in no error region. -/
def checkOffset (t : Tree) (offset : Nat) : Except QueryError Unit :=
  let length := Text.byteLength t.source
  if length < offset then .error (.outOfRange offset length)
  else
    match t.errorRegionAt? offset with
    | some region => .error (.positionInErrorRegion offset region)
    | none => .ok ()

/-- A node and the nodes above it, nearest first. -/
def upwards (t : Tree) (i : NodeId) : List NodeId := i :: t.ancestors i

/-- A header ends at the bodies and lists that the search for it must not leave. -/
def endsHeader (t : Tree) (i : NodeId) : Bool :=
  match t.kind i with
  | .program | .block | .constructorBody | .switchBlock | .formalParameters => true
  | kind => kind.isTypeBody || (t.node i).grammar == "argument_list"

/-- The node that declares the first name of a declaration of variables. -/
def firstDeclarator? (t : Tree) (i : NodeId) : Option NodeId :=
  match t.kind i with
  | .fieldDeclaration | .constantDeclaration | .localVariableDeclaration =>
    t.childByField? i "declarator"
  | .spreadParameter => t.childOfKind? i .variableDeclarator
  | _ => none

/-- The name that a declaration declares, of several the first. -/
def declarationName? (t : Tree) (i : NodeId) : Option String :=
  let named :=
    match t.kind i with
    | .fieldDeclaration | .constantDeclaration | .localVariableDeclaration | .spreadParameter =>
      t.firstDeclarator? i
    | _ => some i
  (named.bind (t.childByField? · "name")).map t.text

/-- The innermost declaration of a kind around an offset. -/
def enclosingDeclaration (t : Tree) (offset : Nat) (kind : DeclarationKind) :
    Except QueryError NodeId := do
  t.checkOffset offset
  match (t.upwards (t.nodeAt offset)).find? fun i => (t.kind i).declarationKind? == some kind with
  | some i => return i
  | none => throw (.notFound offset)

end Tree

namespace Resolution

/-- The symbol whose declaration has its header at a node. The header of a constructor stands
for its type, unless it declares a method. -/
def headerSymbol? (r : Resolution) (t : Tree) (i : NodeId) : Option SymbolId :=
  match r.declaredBy? i with
  | some symbol => some symbol
  | none =>
    if (t.kind i).isConstructor then
      ((t.ancestors i).find? fun a => (t.kind a).isTypeDeclaration).bind r.declaredBy?
    else (t.firstDeclarator? i).bind r.declaredBy?

/-- The symbol whose header contains a node. -/
def headerAround? (r : Resolution) (t : Tree) (i : NodeId) : Option SymbolId :=
  ((t.upwards i).takeWhile fun a => !t.endsHeader a).findSome? (r.headerSymbol? t)

/-- The symbol at an offset. -/
def symbolAt (r : Resolution) (t : Tree) (offset : Nat) : Except QueryError SymbolId := do
  t.checkOffset offset
  match r.occurrenceAt? offset with
  | some (_, symbol) => return symbol
  | none =>
    match r.occurrenceEndingAt? offset with
    | some (_, symbol) => return symbol
    | none =>
      match r.headerAround? t (t.nodeAt offset) with
      | some symbol => return symbol
      | none => throw (.notFound offset)

end Resolution

end JavaRefactor
