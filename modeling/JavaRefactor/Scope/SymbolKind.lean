/-! # Kinds of symbols

Java keeps the names of types, methods and variables apart.
-/

namespace JavaRefactor

/-- Names of different namespaces never meet. -/
inductive Namespace where
  | type
  | method
  | var
  deriving DecidableEq, Repr, Inhabited

namespace Namespace

def name : Namespace → String
  | type => "type"
  | method => "method"
  | var => "variable"

def all : List Namespace := [type, method, var]

/-- The namespace of a name. -/
def ofName? (s : String) : Option Namespace := all.find? fun n => n.name == s

/-- The place of a namespace among all. -/
def rank : Namespace → Nat
  | type => 0
  | method => 1
  | var => 2

end Namespace

inductive SymbolKind where
  /-- A class, interface, enum, record, annotation type or type parameter. -/
  | type
  | method
  /-- A field, enum constant or record component. -/
  | field
  | localVariable
  | parameter
  deriving DecidableEq, Repr, Inhabited

namespace SymbolKind

def name : SymbolKind → String
  | type => "type"
  | method => "method"
  | field => "field"
  | localVariable => "local_variable"
  | parameter => "parameter"

def all : List SymbolKind := [type, method, field, localVariable, parameter]

def space : SymbolKind → Namespace
  | type => .type
  | method => .method
  | field | localVariable | parameter => .var

/-- A variable of a method body or its parameters. -/
def isLocal : SymbolKind → Bool
  | localVariable | parameter => true
  | _ => false

end SymbolKind

end JavaRefactor
