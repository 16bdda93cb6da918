import JavaRefactor.Name.Letter
import JavaRefactor.Name.Numeral
import JavaRefactor.Scope.SymbolKind

/-! # Java identifiers

A new name must be an identifier of the language and not one of its reserved words. A
few words are free for all names but those of types.
-/

namespace JavaRefactor

/-- Why a name is refused. -/
inductive NameFault where
  | empty
  | badStart
  | badCharacter (c : Char)
  | keyword
  | restrictedTypeName
  deriving DecidableEq, Repr

/-- A name and what is wrong with it. -/
structure NameError where
  name : String
  fault : NameFault
  deriving DecidableEq, Repr

namespace NameFault

def reason : NameFault → String
  | empty => "name cannot be empty"
  | badStart => "must start with a letter, '_' or '$'"
  | badCharacter c => s!"invalid character: '{c}'"
  | keyword => "cannot use a Java keyword as identifier"
  | restrictedTypeName => "restricted identifier cannot name a type"

end NameFault

namespace NameError

def message (e : NameError) : String := s!"invalid name '{e.name}': {e.fault.reason}"

end NameError

namespace Identifier

/-- The reserved words, with the literals that look like names. -/
def keywords : List String :=
  ["_", "abstract", "assert", "boolean", "break", "byte", "case", "catch", "char", "class",
   "const", "continue", "default", "do", "double", "else", "enum", "extends", "false", "final",
   "finally", "float", "for", "goto", "if", "implements", "import", "instanceof", "int",
   "interface", "long", "native", "new", "null", "package", "private", "protected", "public",
   "return", "short", "static", "strictfp", "super", "switch", "synchronized", "this", "throw",
   "throws", "transient", "true", "try", "void", "volatile", "while"]

/-- Words that have a meaning only in some places and cannot name a type. -/
def restrictedTypeNames : List String := ["permits", "record", "sealed", "var", "yield"]

def isKeyword (name : String) : Bool := keywords.contains name

def isStart (c : Char) : Bool := Letter.isLetter c || c = '_' || c = '$'

def isPart (c : Char) : Bool := isStart c || Numeral.isNumeral c

/-- What is wrong with a name as an identifier. -/
def fault? (name : String) : Option NameFault :=
  match name.toList with
  | [] => some .empty
  | first :: rest =>
    if !isStart first then some .badStart
    else
      match rest.find? fun c => !isPart c with
      | some c => some (.badCharacter c)
      | none => if isKeyword name then some .keyword else none

/-- What is wrong with a name for a symbol of some kind. -/
def faultFor? (kind : SymbolKind) (name : String) : Option NameFault :=
  (fault? name).or
    (if kind = .type && restrictedTypeNames.contains name then some .restrictedTypeName else none)

/-- Accepts the identifiers. -/
def validate (name : String) : Except NameError Unit :=
  match fault? name with
  | some fault => .error ⟨name, fault⟩
  | none => .ok ()

/-- Accepts the names for symbols of some kind. -/
def validateFor (kind : SymbolKind) (name : String) : Except NameError Unit :=
  match faultFor? kind name with
  | some fault => .error ⟨name, fault⟩
  | none => .ok ()

end Identifier

end JavaRefactor
