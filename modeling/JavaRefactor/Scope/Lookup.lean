import JavaRefactor.Scope.Resolve
import JavaRefactor.Searching
import JavaRefactor.Sorting

/-! # Asking a resolution

Occurrences of a symbol, the index of all occurrences by offset, and the look-up of
names from a scope outwards.
-/

namespace JavaRefactor.Resolution

/-- The scope that a scope lies in. -/
def parent? (r : Resolution) (scope : ScopeId) : Option ScopeId :=
  r.scopes[scope]?.bind (·.parent?)

/-- The scope followed by the scopes around it. A scope is opened after the one it lies in. -/
def chain (r : Resolution) (scope : ScopeId) : List ScopeId :=
  scope :: match r.parent? scope with
    | none => []
    | some parent => if parent < scope then r.chain parent else []
termination_by scope

/-- The scopes directly within a scope. -/
def children (r : Resolution) (scope : ScopeId) : List ScopeId := r.nested.getD scope []

def scopeKind? (r : Resolution) (scope : ScopeId) : Option ScopeKind :=
  r.scopes[scope]?.map (·.kind)

/-- The symbol of a name, from a scope outwards. -/
def lookup? (r : Resolution) (scope : ScopeId) (space : Namespace) (name : String) :
    Option SymbolId :=
  (r.chain scope).findSome? fun s => r.boundIn? s space name

/-- The scope `outer` is `inner` or lies around it. -/
def encloses (r : Resolution) (outer inner : ScopeId) : Bool := (r.chain inner).contains outer

/-- The bindings of a scope, by namespace and name. -/
def bindingsOf (r : Resolution) (scope : ScopeId) : List Binding :=
  let before (a b : Binding) : Bool :=
    a.space.rank < b.space.rank || (a.space.rank == b.space.rank && a.name ≤ b.name)
  sortBy before (r.bindings.toList.filter fun b => b.scope == scope)

/-- The symbols of a name in a namespace. -/
def symbolsNamed (r : Resolution) (space : Namespace) (name : String) : List Symbol :=
  r.symbols.toList.filter fun s => s.name == name && s.kind.space == space

/-- The occurrences of a symbol: its declaration, then all others in source order. -/
def occurrencesOf (r : Resolution) (symbol : SymbolId) : List Occurrence :=
  match r.occurrences.toList.filter fun o => o.symbol == symbol with
  | [] => []
  | first :: rest => first :: sortBy (fun a b => a.span.start ≤ b.span.start) rest

/-- The span of the identifier that declares a symbol. -/
def declarationSpan (r : Resolution) (symbol : SymbolId) : Span :=
  match r.occurrencesOf symbol with
  | [] => ⟨0, 0⟩
  | first :: _ => first.span

/-- The symbols that share the key of a symbol in its scope. -/
def duplicatesOf (r : Resolution) (symbol : SymbolId) : List SymbolId := r.twins.getD symbol []

/-- The findings about a symbol and the symbols that share its key. -/
def findingsFor (r : Resolution) (symbol : SymbolId) : List Finding :=
  let duplicates := r.duplicatesOf symbol
  r.findings.toList.filter fun f =>
    match f.symbol? with
    | none => false
    | some s => s == symbol || duplicates.contains s

/-- The uses that have no declaration in the file. -/
def unresolved (r : Resolution) : List UnresolvedUse := r.findings.toList.filterMap (·.unresolved?)

/-- The spans of all occurrences with their symbols, in ascending order of start. -/
def index (r : Resolution) : List (Span × SymbolId) :=
  sortBy (fun a b => a.1.start ≤ b.1.start)
    (r.symbols.toList.flatMap fun s => (r.occurrencesOf s.id).map fun o => (o.span, s.id))

/-- The last entry of the index whose start passes a test that holds up to some offset. -/
def lastStarting? (r : Resolution) (test : Nat → Bool) : Option (Span × SymbolId) :=
  let entries := r.index.toArray
  match partitionPoint (fun entry => test entry.1.start) entries with
  | 0 => none
  | k + 1 => entries[k]?

/-- The occurrence that contains an offset. -/
def occurrenceAt? (r : Resolution) (offset : Nat) : Option (Span × SymbolId) :=
  (r.lastStarting? (· ≤ offset)).filter fun entry => entry.1.containsOffset offset

/-- The occurrence that ends at an offset. -/
def occurrenceEndingAt? (r : Resolution) (offset : Nat) : Option (Span × SymbolId) :=
  (r.lastStarting? (· < offset)).filter fun entry => entry.1.stop == offset

end JavaRefactor.Resolution
