import JavaRefactor.Tree.Basic

/-! # Packages and main classes

What a build tool asks of a single source: the package it belongs to, and whether it
declares a class that a program can start with.
-/

namespace JavaRefactor.Tree

/-- The name in the package declaration. -/
def packageName? (t : Tree) : Option String :=
  (t.childOfKind? root .packageDeclaration).bind fun package =>
    ((t.namedChildren package).find? fun i =>
      t.kind i == .scopedIdentifier || t.kind i == .identifier).map t.text

/-- The node is a direct member of a class. -/
def isClassMember (t : Tree) (i : NodeId) : Bool :=
  match t.ancestors i with
  | body :: owner :: _ => t.kind body == .classBody && t.kind owner == .classDeclaration
  | _ => false

/-- The keywords among the modifiers of a declaration are `public` and `static`. -/
def isPublicStatic (t : Tree) (i : NodeId) : Bool :=
  match (t.children i).find? fun c => (t.node c).grammar == "modifiers" with
  | none => false
  | some modifiers =>
    let keywords := ((t.children modifiers).filter fun c => !t.isNamed c).map fun c =>
      (t.node c).grammar
    keywords == ["public", "static"] || keywords == ["static", "public"]

/-- The node is a parameter of type `String[]` or `String...`. -/
def takesStrings (t : Tree) (i : NodeId) : Bool :=
  match t.kind i with
  | .formalParameter =>
    match (t.childByField? i "type").filter fun c => (t.node c).grammar == "array_type" with
    | none => false
    | some array => ((t.childByField? array "element").map t.text) == some "String"
  | .spreadParameter => ((t.childOfKind? i .typeIdentifier).map t.text) == some "String"
  | _ => false

/-- The method is `public static void main` with strings as its only parameter. -/
def isMainMethod (t : Tree) (i : NodeId) : Bool :=
  ((t.childByField? i "name").map t.text) == some "main" &&
    ((t.childByField? i "type").map fun c => (t.node c).grammar) == some "void_type" &&
    t.isPublicStatic i &&
    match (t.childByField? i "parameters").map t.namedChildren with
    | some [parameter] => t.takesStrings parameter
    | _ => false

/-- Some class of the text has a main method. -/
def declaresMain (t : Tree) : Bool :=
  t.ids.any fun i => t.kind i == .methodDeclaration && t.isClassMember i && t.isMainMethod i

end JavaRefactor.Tree
