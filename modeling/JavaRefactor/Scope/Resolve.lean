import JavaRefactor.Tree.Role

/-! # Resolving names

A stack of frames takes the resolver through the tree in preorder, and a second stack holds the
scopes it is in. A node that opens a scope declares at once the names that are known in all of
it; other names are known from their declaration on. A use is bound when it is reached. The
subtrees of error nodes are passed over.
-/

namespace JavaRefactor

/-- A tree whose root is an error opens no file scope, so a name in it may have no scope to
be declared in. -/
inductive ResolveError where
  | noScope
  deriving DecidableEq, Repr

/-- What has been recorded so far. -/
structure Walk extends Resolution where
  /-- The names of declarations and constructors that have been accounted for. -/
  handled : List NodeId := []
  /-- A name came up that had no scope to be declared in. -/
  stray : Bool := false
  deriving Repr, Inhabited

namespace Walk

/-- The scope that declarations go to. -/
def current (stack : List ScopeId) : ScopeId := stack.headD 0

/-- The symbol of a name in the scopes around a place. -/
def lookup? (w : Walk) (stack : List ScopeId) (space : Namespace) (name : String) :
    Option SymbolId :=
  stack.findSome? fun s => w.boundIn? s space name

/-- The innermost type around a place. -/
def innermostType? (w : Walk) (stack : List ScopeId) : Option ScopeId :=
  stack.find? fun s => (w.scopes[s]?.map (·.kind)) == some .type

/-- The symbol of the innermost type around a place. -/
def typeOwner? (w : Walk) (stack : List ScopeId) : Option SymbolId :=
  (w.innermostType? stack).bind fun s => w.scopes[s]?.bind (·.owner)

/-- The symbol that a use finds. -/
def find? (w : Walk) (stack : List ScopeId) (name : String) : Target → Option SymbolId
  | .lexical space => w.lookup? stack space name
  | .expression => (w.lookup? stack .var name).or (w.lookup? stack .type name)
  | .member space => (w.innermostType? stack).bind fun s => w.boundIn? s space name

def addOccurrence (w : Walk) (occurrence : Occurrence) : Walk :=
  { w with occurrences := w.occurrences.push occurrence }

/-- Two symbols name each other as duplicates. -/
def pair (twins : Array (List SymbolId)) (first second : SymbolId) : Array (List SymbolId) :=
  (twins.modify first (· ++ [second])).modify second (· ++ [first])

/-- Declares a name in the current scope. Methods of one name share a symbol; any other
second declaration of a key is a duplicate and stays unbound. -/
def declare (t : Tree) (stack : List ScopeId) (w : Walk) (d : Declaration) : Walk :=
  let scope := current stack
  match w.scopes[scope]? with
  | none => { w with stray := true }
  | some home =>
    let name := t.text d.name
    let span := t.span d.name
    let found := w.boundIn? scope d.kind.space name
    let overloaded := if d.kind = .method then found else none
    let id := overloaded.getD w.symbols.size
    let w := { w.addOccurrence ⟨id, d.name, span, .declaration, scope⟩ with
      declared := (d.node, id) :: w.declared
      handled := d.name :: w.handled }
    if overloaded.isSome then w
    else
      let container := if home.kind = .type then home.owner else none
      let w := { w with
        symbols := w.symbols.push ⟨id, name, d.kind, d.node, scope, container⟩
        twins := w.twins.push [] }
      match found with
      | some first =>
        { w with
          twins := pair w.twins first id
          findings := w.findings.push (.duplicate name d.name span id first) }
      | none => { w with bindings := w.bindings.push ⟨scope, d.kind.space, name, id⟩ }

/-- The identifier has been accounted for. -/
def isSettled (w : Walk) (i : NodeId) : Bool := w.handled.contains i

/-- Binds a use, or reports that it has no declaration. -/
def bindUse (t : Tree) (stack : List ScopeId) (w : Walk) (i : NodeId) (target : Target) : Walk :=
  let name := t.text i
  let span := t.span i
  let scope := current stack
  match w.find? stack name target with
  | some symbol => w.addOccurrence ⟨symbol, i, span, .reference, scope⟩
  | none =>
    let use : UnresolvedUse := ⟨name, i, span, scope, target.space, target == .expression⟩
    { w with findings := w.findings.push (.unresolved use) }

/-- Acts on an identifier by its role. -/
def visitIdentifier (t : Tree) (stack : List ScopeId) (w : Walk) (i : NodeId) : Walk :=
  if w.isSettled i then w
  else
    match t.role i with
    | .ignored => w
    | .declares d => w.declare t stack d
    | .uses target => w.bindUse t stack i target

/-- The name of a constructor is an occurrence of its type, if it is the type's name. -/
def nameConstructor (t : Tree) (stack : List ScopeId) (w : Walk) (i : NodeId) : Walk :=
  match t.childByField? i "name" with
  | none => w
  | some name =>
    if w.isSettled name then w
    else
      match w.typeOwner? stack with
      | none => w
      | some owner =>
        if (w.symbols[owner]?.map (·.name)) == some (t.text name) then
          { w.addOccurrence ⟨owner, name, t.span name, .constructor, current stack⟩ with
            handled := name :: w.handled }
        else w

/-- Declares the name of a node around its scope, unless that was done before. -/
def announce (t : Tree) (stack : List ScopeId) (w : Walk) (i : NodeId) : Walk :=
  let own (kind : SymbolKind) : Walk :=
    if (w.declaredBy? i).isSome then w
    else (t.declaration? i kind).elim w (w.declare t stack)
  match t.kind i with
  | .classDeclaration | .interfaceDeclaration | .enumDeclaration | .recordDeclaration
  | .annotationTypeDeclaration => own .type
  | .methodDeclaration => own .method
  | .constructorDeclaration | .compactConstructorDeclaration => w.nameConstructor t stack i
  | _ => w

/-- The scope that a node opens. Only a type has an owner. -/
def newScope (t : Tree) (stack : List ScopeId) (w : Walk) (i : NodeId) (kind : ScopeKind) : Scope :=
  { kind
    parent? := stack.head?
    node := i
    span := t.span i
    owner := if (t.kind i).isTypeDeclaration then w.declaredBy? i else none }

/-- Lists a scope below the one it lies in. -/
def nest (nested : Array (List ScopeId)) (scope : ScopeId) : Option ScopeId → Array (List ScopeId)
  | none => nested
  | some parent => nested.modify parent (· ++ [scope])

/-- Opens the scope of a node within the scopes around it. -/
def openScope (t : Tree) (stack : List ScopeId) (w : Walk) (i : NodeId) (kind : ScopeKind) : Walk :=
  { w with
    scopes := w.scopes.push (w.newScope t stack i kind)
    nested := nest (w.nested.push []) w.scopes.size stack.head? }

/-- Enters a node, and gives the scopes around its children. -/
def enter (t : Tree) (stack : List ScopeId) (w : Walk) (i : NodeId) : Walk × List ScopeId :=
  match t.opens? i with
  | none => (w.visitIdentifier t stack i, stack)
  | some kind =>
    let w := w.announce t stack i
    let inner := w.scopes.size :: stack
    ((t.hoisted i).foldl (declare t inner) (w.openScope t stack i kind), inner)

end Walk

/-- What is left to do: a node to enter or a scope to leave. -/
inductive Frame where
  | enter (i : NodeId)
  | leave
  deriving DecidableEq, Repr

/-- The resolver on its way through a tree. -/
structure Resolver where
  walk : Walk := {}
  /-- The scopes that have been opened and not left, innermost first. -/
  stack : List ScopeId := []
  /-- The frames that are left, the next one first. -/
  work : List Frame := [.enter Tree.root]
  deriving Repr, Inhabited

namespace Resolver

/-- Takes the next frame. The children of a node come before all else that is left, and behind
them the end of the scope that the node opened. -/
def step (t : Tree) (m : Resolver) : Resolver :=
  match m.work with
  | [] => m
  | .leave :: work => { m with stack := m.stack.tail, work }
  | .enter i :: work =>
    if t.isError i && i != Tree.root then { m with work }
    else
      let entered := m.walk.enter t m.stack i
      let close := if (t.opens? i).isSome then [Frame.leave] else []
      { walk := entered.1
        stack := entered.2
        work := (t.children i).map .enter ++ close ++ work }

def run (t : Tree) : Nat → Resolver → Resolver
  | 0, m => m
  | steps + 1, m => run t steps (m.step t)

end Resolver

/-- Resolves the names of a tree. Each node is entered once and each scope left once, so no more
than two steps are made for a node. -/
def resolve (t : Tree) : Except ResolveError Resolution :=
  let w := (Resolver.run t (2 * t.size) {}).walk
  if w.stray then .error .noScope else .ok w.toResolution

end JavaRefactor
