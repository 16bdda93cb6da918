import JavaRefactor.Scope.Basic

/-! # What nodes mean for names

The tree alone tells which nodes open scopes, which names a scope declares as soon as
it is entered, and whether an identifier declares a name, uses one or does neither.
-/

namespace JavaRefactor

/-- A name to be declared: the identifier, the node that declares it and the kind of
symbol. -/
structure Declaration where
  name : NodeId
  node : NodeId
  kind : SymbolKind
  deriving DecidableEq, Repr, Inhabited

/-- How the name of a use is looked up. -/
inductive Target where
  /-- In the scopes around the use, from the inside out. -/
  | lexical (space : Namespace)
  /-- The name of an expression: a variable if there is one, else a type. -/
  | expression
  /-- Behind `this`: only in the innermost type. -/
  | member (space : Namespace)
  deriving DecidableEq, Repr, Inhabited

namespace Target

/-- The namespace in which a use that finds nothing is reported. -/
def space : Target → Namespace
  | lexical space => space
  | expression => .var
  | member space => space

end Target

/-- What an identifier does where it stands. -/
inductive Role where
  | ignored
  | declares (declaration : Declaration)
  | uses (target : Target)
  deriving DecidableEq, Repr, Inhabited

namespace Tree

/-- The body of a class without a name. -/
def isAnonymousBody (t : Tree) (i : NodeId) : Bool :=
  match t.parentKind? i with
  | some .objectCreationExpression | some .enumConstant => true
  | _ => false

/-- The block is the body of a method, constructor or lambda, and shares its scope. -/
def isCallableBody (t : Tree) (i : NodeId) : Bool :=
  match t.parentKind? i with
  | some kind => kind.isCallableDeclaration || kind == .lambdaExpression
  | none => false

/-- The kind of scope that a node opens. -/
def opens? (t : Tree) (i : NodeId) : Option ScopeKind :=
  match t.kind i with
  | .program => if i = root then some .file else none
  | .classDeclaration | .interfaceDeclaration | .enumDeclaration | .recordDeclaration
  | .annotationTypeDeclaration => some .type
  | .classBody => if t.isAnonymousBody i then some .type else none
  | .methodDeclaration | .constructorDeclaration | .compactConstructorDeclaration => some .method
  | .lambdaExpression => some .lambda
  | .block => if t.isCallableBody i then none else some .block
  | .switchBlock | .forStatement | .enhancedForStatement | .catchClause
  | .tryWithResourcesStatement => some .block
  | _ => none

/-- The declaration of a node's own name. -/
def declaration? (t : Tree) (node : NodeId) (kind : SymbolKind) : Option Declaration :=
  (t.childByField? node "name").map fun name => ⟨name, node, kind⟩

/-- The type parameters that a declaration introduces. -/
def typeParameters (t : Tree) (i : NodeId) : List Declaration :=
  match t.childByField? i "type_parameters" with
  | none => []
  | some params =>
    ((t.namedChildren params).filter fun p => t.kind p == .typeParameter).filterMap fun p =>
      (t.childOfKind? p .typeIdentifier).map fun name => ⟨name, p, .type⟩

/-- The components of a record, which are fields of it. -/
def recordComponents (t : Tree) (i : NodeId) : List Declaration :=
  match t.childByField? i "parameters" with
  | none => []
  | some params =>
    ((t.namedChildren params).filter fun p => t.kind p == .formalParameter).filterMap
      (t.declaration? · .field)

/-- The node is a member of a body: only nodes that merely group members stand between. -/
def isMember (t : Tree) (body i : NodeId) : Bool :=
  let above := t.ancestors i
  let between := above.takeWhile (· != body)
  between.length < above.length && t.isNamed i &&
    between.all fun a => t.isNamed a && t.kind a == .enumBodyDeclarations

/-- The members of a body, in source order. -/
def members (t : Tree) (body : NodeId) : List NodeId := t.ids.filter (t.isMember body)

/-- The names that a member declares in its type. A constructor that does not have the name
of the type is a method without a return type. -/
def memberDeclarations (t : Tree) (typeName : Option String) (i : NodeId) : List Declaration :=
  match t.kind i with
  | .fieldDeclaration | .constantDeclaration =>
    (t.childrenByField i "declarator").filterMap (t.declaration? · .field)
  | .methodDeclaration | .annotationTypeElementDeclaration => (t.declaration? i .method).toList
  | .constructorDeclaration | .compactConstructorDeclaration =>
    (t.declaration? i .method).toList.filter fun d => typeName != some (t.text d.name)
  | .enumConstant => (t.declaration? i .field).toList
  | .classDeclaration | .interfaceDeclaration | .enumDeclaration | .recordDeclaration
  | .annotationTypeDeclaration => (t.declaration? i .type).toList
  | _ => []

/-- The names that the members of a body declare. -/
def bodyDeclarations (t : Tree) (typeName : Option String) (body : NodeId) : List Declaration :=
  (t.members body).flatMap (t.memberDeclarations typeName)

/-- The names that a type declares in its own scope. -/
def typeDeclarations (t : Tree) (i : NodeId) : List Declaration :=
  let components := if t.kind i == .recordDeclaration then t.recordComponents i else []
  let typeName := (t.childByField? i "name").map t.text
  let inBody :=
    match t.childByField? i "body" with
    | none => []
    | some body => t.bodyDeclarations typeName body
  t.typeParameters i ++ components ++ inBody

/-- The names that are declared as soon as the scope of a node is entered, so that they can
be used before the place where they stand. -/
def hoisted (t : Tree) (i : NodeId) : List Declaration :=
  match t.kind i with
  | .program =>
    ((t.namedChildren i).filter fun c => (t.kind c).isTypeDeclaration).filterMap
      (t.declaration? · .type)
  | .classDeclaration | .interfaceDeclaration | .enumDeclaration | .recordDeclaration
  | .annotationTypeDeclaration => t.typeDeclarations i
  | .classBody => t.bodyDeclarations none i
  | .methodDeclaration | .constructorDeclaration | .compactConstructorDeclaration =>
    t.typeParameters i
  | _ => []

/-- The object of a field access or a method call is `this`. -/
def isOnThis (t : Tree) (access : NodeId) : Bool :=
  match t.childByField? access "object" with
  | none => false
  | some object => t.kind object == .this

/-- The declaration that an identifier makes for a variable of a body or a parameter. Where
the parent also holds a body or operands, the identifier declares itself. -/
def localDeclaration? (t : Tree) (i parent : NodeId) : Option Declaration :=
  match t.kind parent, t.field i with
  | .variableDeclarator, some "name" =>
    match t.parentKind? parent with
    | some .spreadParameter => some ⟨i, parent, .parameter⟩
    | _ => some ⟨i, parent, .localVariable⟩
  | .formalParameter, some "name" => some ⟨i, parent, .parameter⟩
  | .catchFormalParameter, some "name" => some ⟨i, parent, .parameter⟩
  | .lambdaExpression, some "parameters" => some ⟨i, i, .parameter⟩
  | .inferredParameters, _ => some ⟨i, i, .parameter⟩
  | .typePattern, _ => some ⟨i, parent, .localVariable⟩
  | .enhancedForStatement, some "name" => some ⟨i, i, .localVariable⟩
  | .resource, some "name" => some ⟨i, parent, .localVariable⟩
  | .instanceofExpression, some "name" => some ⟨i, i, .localVariable⟩
  | _, _ => none

/-- The role of an identifier that declares nothing. -/
def useRole (t : Tree) (i parent : NodeId) : Role :=
  match t.kind parent with
  | .packageDeclaration | .importDeclaration | .scopedIdentifier | .labeledStatement
  | .breakStatement | .continueStatement => .ignored
  | .elementValuePair => if t.field i == some "key" then .ignored else .uses .expression
  | .annotationMarker | .annotationCall =>
    if t.field i == some "name" then .uses (.lexical .type) else .uses .expression
  | .methodReference =>
    if (t.children parent).head? == some i then .uses .expression else .ignored
  | .fieldAccess =>
    if t.field i == some "field" then
      if t.isOnThis parent then .uses (.member .var) else .ignored
    else .uses .expression
  | .methodInvocation =>
    if t.field i == some "name" then
      match t.childByField? parent "object" with
      | none => .uses (.lexical .method)
      | some _ => if t.isOnThis parent then .uses (.member .method) else .ignored
    else .uses .expression
  | _ => .uses .expression

/-- The role of a plain identifier. -/
def identifierRole (t : Tree) (i : NodeId) : Role :=
  match t.parent? i with
  | none => .ignored
  | some parent =>
    match t.localDeclaration? i parent with
    | some declaration => .declares declaration
    | none => t.useRole i parent

/-- The role of an identifier that names a type. Of a dotted name only the first part is
looked up. -/
def typeIdentifierRole (t : Tree) (i : NodeId) : Role :=
  match t.parent? i with
  | none => .uses (.lexical .type)
  | some parent =>
    if t.kind parent == .scopedTypeIdentifier && (t.children parent).head? != some i then .ignored
    else .uses (.lexical .type)

/-- The role of a node; nodes other than identifiers have none. -/
def role (t : Tree) (i : NodeId) : Role :=
  match t.kind i with
  | .identifier => t.identifierRole i
  | .typeIdentifier => t.typeIdentifierRole i
  | _ => .ignored

end Tree

end JavaRefactor
