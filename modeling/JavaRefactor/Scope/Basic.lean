import JavaRefactor.Scope.SymbolKind
import JavaRefactor.Tree.Basic

/-! # Scopes, symbols and occurrences

The resolution of a tree tells which scopes it opens, which symbols are declared in
them, and for each identifier which symbol it names. Scopes and symbols are numbered
in the order in which they come up in the source.
-/

namespace JavaRefactor

abbrev ScopeId := Nat

abbrev SymbolId := Nat

/-- The name of a scope in answers. -/
def ScopeId.label (id : ScopeId) : String := s!"scope_{id}"

/-- The name of a symbol in answers. -/
def SymbolId.label (id : SymbolId) : String := s!"sym_{id}"

inductive ScopeKind where
  | file
  | type
  | method
  | lambda
  | block
  deriving DecidableEq, Repr, Inhabited

namespace ScopeKind

def name : ScopeKind → String
  | file => "file"
  | type => "type"
  | method => "method"
  | lambda => "lambda"
  | block => "block"

end ScopeKind

/-- A region in which names are declared. -/
structure Scope where
  kind : ScopeKind
  /-- The scope it lies in. -/
  parent? : Option ScopeId
  /-- The node that opened it. -/
  node : NodeId
  span : Span
  /-- The symbol of the type that opened it, if the type has a name. -/
  owner : Option SymbolId
  deriving DecidableEq, Repr, Inhabited

/-- A declared name. -/
structure Symbol where
  id : SymbolId
  name : String
  kind : SymbolKind
  /-- The node that declares it. -/
  node : NodeId
  /-- The scope it is declared in. -/
  scope : ScopeId
  /-- The type it is a member of. -/
  container : Option SymbolId
  deriving DecidableEq, Repr, Inhabited

namespace Symbol

def label (s : Symbol) : String := SymbolId.label s.id

end Symbol

inductive OccurrenceKind where
  | declaration
  | reference
  /-- The name of a constructor, which is the name of its type. -/
  | constructor
  deriving DecidableEq, Repr, Inhabited

namespace OccurrenceKind

def name : OccurrenceKind → String
  | declaration => "declaration"
  | reference => "reference"
  | constructor => "constructor"

end OccurrenceKind

/-- One place where a symbol is named. -/
structure Occurrence where
  symbol : SymbolId
  /-- The identifier. -/
  node : NodeId
  span : Span
  kind : OccurrenceKind
  /-- The innermost scope around the identifier. -/
  scope : ScopeId
  deriving DecidableEq, Repr, Inhabited

/-- What a name stands for in a scope. -/
structure Binding where
  scope : ScopeId
  space : Namespace
  name : String
  symbol : SymbolId
  deriving DecidableEq, Repr, Inhabited

/-- A use of a name that is declared nowhere in the file. -/
structure UnresolvedUse where
  name : String
  node : NodeId
  span : Span
  scope : ScopeId
  space : Namespace
  /-- The name of an expression, which a type would bind too. -/
  typeFallback : Bool
  deriving DecidableEq, Repr, Inhabited

/-- What the resolution has to report. -/
inductive Finding where
  /-- The symbol has the key of another one that was declared before in its scope. -/
  | duplicate (name : String) (node : NodeId) (span : Span) (symbol first : SymbolId)
  | unresolved (use : UnresolvedUse)
  deriving DecidableEq, Repr

namespace Finding

def code : Finding → String
  | duplicate .. => "duplicate_declaration"
  | unresolved _ => "unresolved_reference"

def name : Finding → String
  | duplicate name .. => name
  | unresolved use => use.name

def span : Finding → Span
  | duplicate _ _ span _ _ => span
  | unresolved use => use.span

def node : Finding → NodeId
  | duplicate _ node _ _ _ => node
  | unresolved use => use.node

/-- The symbol that is reported. -/
def symbol? : Finding → Option SymbolId
  | duplicate _ _ _ symbol _ => some symbol
  | unresolved _ => none

def isDuplicate : Finding → Bool
  | duplicate .. => true
  | unresolved _ => false

def unresolved? : Finding → Option UnresolvedUse
  | duplicate .. => none
  | unresolved use => some use

def message : Finding → String
  | duplicate name .. => s!"'{name}' is already declared in this scope"
  | unresolved use => s!"'{use.name}' does not resolve to a declaration in this file"

end Finding

/-- Everything that is known about the names of a file. All lists stand in the order in
which their items came up. -/
structure Resolution where
  scopes : Array Scope := #[]
  /-- For each scope the scopes directly within it. -/
  nested : Array (List ScopeId) := #[]
  symbols : Array Symbol := #[]
  /-- For each symbol the symbols that share its key in its scope. -/
  twins : Array (List SymbolId) := #[]
  bindings : Array Binding := #[]
  occurrences : Array Occurrence := #[]
  findings : Array Finding := #[]
  /-- The symbols that nodes declare; of two for one node the first in the list counts. -/
  declared : List (NodeId × SymbolId) := []
  deriving Repr, Inhabited

namespace Resolution

/-- The symbol that a name stands for in one scope. -/
def boundIn? (r : Resolution) (scope : ScopeId) (space : Namespace) (name : String) :
    Option SymbolId :=
  (r.bindings.find? fun b => b.scope == scope && b.space == space && b.name == name).map (·.symbol)

/-- The symbol that a node declares. -/
def declaredBy? (r : Resolution) (node : NodeId) : Option SymbolId := r.declared.lookup node

end Resolution

end JavaRefactor
