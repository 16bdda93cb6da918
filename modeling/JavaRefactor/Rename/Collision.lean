import JavaRefactor.Scope.Lookup

/-! # Collisions of a new name

A rename is refused if it would change what some occurrence is bound to, or if it would
give two local variables of one body the same name.
-/

namespace JavaRefactor

/-- Why a new name cannot be used. Offsets are those of the uses concerned. -/
inductive CollisionCause where
  /-- The scope of the declaration binds the name already. -/
  | declared (kind : SymbolKind)
  /-- A reference would find an inner declaration of the name. -/
  | innerDeclaration (offset : Nat) (kind : SymbolKind)
  /-- A type used as an expression would find a variable of the name. -/
  | variableAround (offset : Nat)
  /-- Two locals of one body would have the name. -/
  | shadowing (kind : SymbolKind)
  /-- A use of the name would find the renamed declaration. -/
  | existingUse (offset : Nat) (kind : SymbolKind)
  /-- A use of the name that had no declaration would find one. -/
  | unresolvedUse (offset : Nat) (kind : SymbolKind)
  deriving DecidableEq, Repr

/-- A cause, with the place of the declaration or use that the name clashes with. -/
structure Collision where
  cause : CollisionCause
  existing : Span
  deriving DecidableEq, Repr

namespace CollisionCause

def reason (name : String) : CollisionCause → String
  | declared kind => s!"a {kind.name} named '{name}' is already declared in the same scope"
  | innerDeclaration offset kind =>
    s!"the reference at byte {offset} would resolve to the {kind.name} '{name}' " ++
      "declared closer to it"
  | variableAround offset =>
    s!"the reference at byte {offset} would resolve to the variable '{name}'"
  | shadowing kind =>
    s!"the {kind.name} '{name}' is already in scope and Java locals cannot shadow each other"
  | existingUse offset kind =>
    s!"the existing use of '{name}' at byte {offset} would resolve to the renamed {kind.name}"
  | unresolvedUse offset kind =>
    s!"the unresolved use of '{name}' at byte {offset} would resolve to the renamed {kind.name}"

end CollisionCause

namespace Tree

/-- The identifier at a span stands behind `this`, so it is looked up in its type only. -/
def isThisQualified (t : Tree) (span : Span) : Bool :=
  let i := t.nodeAt span.start
  match t.parent? i with
  | none => false
  | some p =>
    (t.kind p == .fieldAccess || t.kind p == .methodInvocation) && t.field i != some "object" &&
      t.isOnThis p

/-- The identifier at a span is the name of an expression. -/
def isExpressionName (t : Tree) (span : Span) : Bool :=
  t.kind (t.nodeAt span.start) == .identifier

end Tree

namespace Resolution

/-- Local variables are visible from their declaration on, all else everywhere. -/
def visibleAt (r : Resolution) (symbol : Symbol) (offset : Nat) : Bool :=
  !(symbol.kind == .localVariable && offset < (r.declarationSpan symbol.id).start)

/-- The symbols that a name stands for in some scopes. -/
def boundAlong (r : Resolution) (scopes : List ScopeId) (space : Namespace) (name : String) :
    List Symbol :=
  scopes.filterMap fun s => (r.boundIn? s space name).bind fun id => r.symbols[id]?

/-- A use in a scope would see the symbol under a new name. -/
def captures (r : Resolution) (symbol : Symbol) (scope : ScopeId) (span : Span) : Bool :=
  r.encloses symbol.scope scope && r.visibleAt symbol span.start

/-- The scope lies in a body, with no type between. -/
def isWithinBody (r : Resolution) (body scope : ScopeId) : Bool :=
  (((r.chain scope).takeWhile (· != body)).all fun s => r.scopeKind? s != some .type) &&
    r.encloses body scope

/-- A reference that is looked up in the scopes around it. -/
def isLexicalReference (t : Tree) (o : Occurrence) : Bool :=
  o.kind == .reference && !t.isThisQualified o.span

/-- The name is bound in the scope of the declaration. -/
def declaredCollision? (r : Resolution) (symbol : Symbol) (name : String) : Option Collision :=
  ((r.boundIn? symbol.scope symbol.kind.space name).bind fun id => r.symbols[id]?).bind fun other =>
    if other.id = symbol.id then none
    else some ⟨.declared other.kind, r.declarationSpan other.id⟩

/-- A declaration of the name between a reference and the declaration of the symbol. -/
def innerCollision? (r : Resolution) (symbol : Symbol) (name : String) (o : Occurrence) :
    Option Collision :=
  let between := (r.chain o.scope).takeWhile (· != symbol.scope)
  ((r.boundAlong between symbol.kind.space name).find? (r.visibleAt · o.span.start)).map
    fun inner => ⟨.innerDeclaration o.span.start inner.kind, r.declarationSpan inner.id⟩

/-- A variable of the name around a type that is used as an expression. -/
def variableCollision? (r : Resolution) (t : Tree) (symbol : Symbol) (name : String)
    (o : Occurrence) : Option Collision :=
  if symbol.kind = .type && t.isExpressionName o.span then
    (r.lookup? o.scope .var name).map fun id => ⟨.variableAround o.span.start, r.declarationSpan id⟩
  else none

/-- The first reference of the symbol that the name would bind to something else. -/
def referenceCollision? (r : Resolution) (t : Tree) (symbol : Symbol) (name : String) :
    Option Collision :=
  ((r.occurrencesOf symbol.id).filter (isLexicalReference t)).findSome? fun o =>
    (r.innerCollision? symbol name o).or (r.variableCollision? t symbol name o)

/-- A local of the name around the declaration of a local, in the same body. -/
def outerLocal? (r : Resolution) (symbol : Symbol) (name : String) : Option Symbol :=
  let offset := (r.declarationSpan symbol.id).start
  let around := ((r.chain symbol.scope).drop 1).takeWhile fun s => r.scopeKind? s != some .type
  (r.boundAlong around .var name).find? fun outer =>
    outer.kind.isLocal && r.visibleAt outer offset

/-- A local of the name within the scope of a local, in the same body. -/
def innerLocal? (r : Resolution) (symbol : Symbol) (name : String) : Option Symbol :=
  (r.symbolsNamed .var name).find? fun other =>
    other.kind.isLocal && other.scope != symbol.scope && r.isWithinBody symbol.scope other.scope &&
      r.visibleAt symbol (r.declarationSpan other.id).start

/-- A local may not have the name of another one that is in scope with it. -/
def shadowingCollision? (r : Resolution) (symbol : Symbol) (name : String) : Option Collision :=
  if symbol.kind.isLocal then
    ((r.outerLocal? symbol name).or (r.innerLocal? symbol name)).map fun other =>
      ⟨.shadowing other.kind, r.declarationSpan other.id⟩
  else none

/-- A use of the name, bound further out, that the renamed symbol would take. -/
def existingUseCollision? (r : Resolution) (t : Tree) (symbol : Symbol) (name : String) :
    Option Collision :=
  let others := (r.symbolsNamed symbol.kind.space name).filter fun other =>
    other.id != symbol.id && other.scope != symbol.scope && r.encloses other.scope symbol.scope
  others.findSome? fun other =>
    ((r.occurrencesOf other.id).find? fun o =>
      isLexicalReference t o && r.captures symbol o.scope o.span).map fun o =>
        ⟨.existingUse o.span.start symbol.kind, o.span⟩

/-- A use of the name without a declaration that the renamed symbol would take. -/
def unresolvedCollision? (r : Resolution) (symbol : Symbol) (name : String) : Option Collision :=
  (r.unresolved.find? fun use =>
    use.name == name &&
      (use.space == symbol.kind.space || (symbol.kind == .type && use.typeFallback)) &&
      r.captures symbol use.scope use.span).map fun use =>
        ⟨.unresolvedUse use.span.start symbol.kind, use.span⟩

/-- The first reason to refuse a new name for a symbol. -/
def collision? (r : Resolution) (t : Tree) (symbol : Symbol) (name : String) : Option Collision :=
  (((r.declaredCollision? symbol name).or (r.referenceCollision? t symbol name)).or
    (r.shadowingCollision? symbol name)).or
      ((r.existingUseCollision? t symbol name).or (r.unresolvedCollision? symbol name))

end Resolution

end JavaRefactor
