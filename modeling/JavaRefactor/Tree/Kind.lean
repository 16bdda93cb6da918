/-! # Kinds of nodes

The Java grammar has a few hundred kinds of nodes. Those that open scopes, declare
names or hold uses of names have a kind of their own here, and all the rest is
`other`.
-/

namespace JavaRefactor

inductive NodeKind where
  | program
  | packageDeclaration
  | importDeclaration
  | classDeclaration
  | interfaceDeclaration
  | enumDeclaration
  | recordDeclaration
  | annotationTypeDeclaration
  | classBody
  | interfaceBody
  | enumBody
  | enumBodyDeclarations
  | annotationTypeBody
  | enumConstant
  | typeParameter
  | fieldDeclaration
  | constantDeclaration
  | annotationTypeElementDeclaration
  | methodDeclaration
  | constructorDeclaration
  | compactConstructorDeclaration
  | constructorBody
  | formalParameters
  | formalParameter
  | spreadParameter
  | inferredParameters
  | catchFormalParameter
  | localVariableDeclaration
  | variableDeclarator
  | resource
  | block
  | staticInitializer
  | switchBlock
  | forStatement
  | enhancedForStatement
  | catchClause
  | tryWithResourcesStatement
  | lambdaExpression
  | instanceofExpression
  | typePattern
  | methodInvocation
  | fieldAccess
  | objectCreationExpression
  | methodReference
  | scopedIdentifier
  | scopedTypeIdentifier
  | identifier
  | typeIdentifier
  | this
  | labeledStatement
  | breakStatement
  | continueStatement
  | annotationMarker
  | annotationCall
  | elementValuePair
  | error
  | other
  deriving DecidableEq, Repr, Inhabited

/-- What a declaration declares, as far as queries tell declarations apart. -/
inductive DeclarationKind where
  | type
  | method
  | constructor
  | field
  | localVariable
  | parameter
  | lambda
  deriving DecidableEq, Repr, Inhabited

namespace DeclarationKind

def name : DeclarationKind → String
  | type => "type"
  | method => "method"
  | constructor => "constructor"
  | field => "field"
  | localVariable => "local_variable"
  | parameter => "parameter"
  | lambda => "lambda"

def all : List DeclarationKind :=
  [type, method, constructor, field, localVariable, parameter, lambda]

/-- The kind of a name. -/
def ofName? (s : String) : Option DeclarationKind := all.find? fun kind => kind.name == s

end DeclarationKind

namespace NodeKind

/-- The kinds with their names in the grammar. -/
def table : List (String × NodeKind) :=
  [("program", program),
   ("package_declaration", packageDeclaration),
   ("import_declaration", importDeclaration),
   ("class_declaration", classDeclaration),
   ("interface_declaration", interfaceDeclaration),
   ("enum_declaration", enumDeclaration),
   ("record_declaration", recordDeclaration),
   ("annotation_type_declaration", annotationTypeDeclaration),
   ("class_body", classBody),
   ("interface_body", interfaceBody),
   ("enum_body", enumBody),
   ("enum_body_declarations", enumBodyDeclarations),
   ("annotation_type_body", annotationTypeBody),
   ("enum_constant", enumConstant),
   ("type_parameter", typeParameter),
   ("field_declaration", fieldDeclaration),
   ("constant_declaration", constantDeclaration),
   ("annotation_type_element_declaration", annotationTypeElementDeclaration),
   ("method_declaration", methodDeclaration),
   ("constructor_declaration", constructorDeclaration),
   ("compact_constructor_declaration", compactConstructorDeclaration),
   ("constructor_body", constructorBody),
   ("formal_parameters", formalParameters),
   ("formal_parameter", formalParameter),
   ("spread_parameter", spreadParameter),
   ("inferred_parameters", inferredParameters),
   ("catch_formal_parameter", catchFormalParameter),
   ("local_variable_declaration", localVariableDeclaration),
   ("variable_declarator", variableDeclarator),
   ("resource", resource),
   ("block", block),
   ("static_initializer", staticInitializer),
   ("switch_block", switchBlock),
   ("for_statement", forStatement),
   ("enhanced_for_statement", enhancedForStatement),
   ("catch_clause", catchClause),
   ("try_with_resources_statement", tryWithResourcesStatement),
   ("lambda_expression", lambdaExpression),
   ("instanceof_expression", instanceofExpression),
   ("type_pattern", typePattern),
   ("method_invocation", methodInvocation),
   ("field_access", fieldAccess),
   ("object_creation_expression", objectCreationExpression),
   ("method_reference", methodReference),
   ("scoped_identifier", scopedIdentifier),
   ("scoped_type_identifier", scopedTypeIdentifier),
   ("identifier", identifier),
   ("type_identifier", typeIdentifier),
   ("this", this),
   ("labeled_statement", labeledStatement),
   ("break_statement", breakStatement),
   ("continue_statement", continueStatement),
   ("marker_annotation", annotationMarker),
   ("annotation", annotationCall),
   ("element_value_pair", elementValuePair),
   ("ERROR", error)]

/-- The kind of a node by its name in the grammar. -/
def ofGrammar (name : String) : NodeKind := (table.lookup name).getD other

/-- Class, interface, enum, record or annotation type declaration. -/
def isTypeDeclaration : NodeKind → Bool
  | classDeclaration | interfaceDeclaration | enumDeclaration | recordDeclaration
  | annotationTypeDeclaration => true
  | _ => false

/-- Declarations that have parameters and a body of statements. -/
def isCallableDeclaration : NodeKind → Bool
  | methodDeclaration | constructorDeclaration | compactConstructorDeclaration => true
  | _ => false

/-- A constructor, with or without a parameter list. -/
def isConstructor : NodeKind → Bool
  | constructorDeclaration | compactConstructorDeclaration => true
  | _ => false

/-- Nodes whose children are members of a type. -/
def isTypeBody : NodeKind → Bool
  | classBody | interfaceBody | enumBody | enumBodyDeclarations | annotationTypeBody => true
  | _ => false

/-- What a node declares, if it is a declaration. -/
def declarationKind? : NodeKind → Option DeclarationKind
  | classDeclaration | interfaceDeclaration | enumDeclaration | recordDeclaration
  | annotationTypeDeclaration => some .type
  | methodDeclaration | annotationTypeElementDeclaration => some .method
  | constructorDeclaration | compactConstructorDeclaration => some .constructor
  | fieldDeclaration | constantDeclaration | enumConstant => some .field
  | localVariableDeclaration => some .localVariable
  | formalParameter | spreadParameter | catchFormalParameter => some .parameter
  | lambdaExpression => some .lambda
  | _ => none

end NodeKind

end JavaRefactor
