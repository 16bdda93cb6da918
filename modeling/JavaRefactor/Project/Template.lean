/-! # Templates for new files

A new file declares one empty public type in its package.
-/

namespace JavaRefactor

/-- The kind of type that a new file declares. -/
inductive Template where
  | classType
  | interfaceType
  | enumType
  | recordType
  | annotationType
  deriving DecidableEq, Repr, Inhabited

namespace Template

def name : Template → String
  | classType => "class"
  | interfaceType => "interface"
  | enumType => "enum"
  | recordType => "record"
  | annotationType => "annotation"

def all : List Template := [classType, interfaceType, enumType, recordType, annotationType]

/-- The template of a name. -/
def ofName? (s : String) : Option Template := all.find? fun t => t.name == s

/-- The template of a name in capital or small letters, or why there is none. -/
def parse (s : String) : Except String Template :=
  let lower := s.map Char.toLower
  match ofName? lower with
  | some t => .ok t
  | none => .error s!"unknown file type: {lower}"

/-- The words that introduce the type. -/
def keyword : Template → String
  | annotationType => "@interface"
  | t => t.name

/-- The header and the braces of a type. -/
def declaration (t : Template) (name : String) : String :=
  let components := if t = recordType then "(\n\n)" else ""
  s!"{t.keyword} {name}{components} \x7b\n\n\x7d"

/-- The text of a new file. -/
def render (t : Template) (package name : String) : String :=
  s!"package {package};\n\npublic " ++ t.declaration name

end Template

/-- The source trees of a project. -/
inductive SourceTree where
  | production
  | testing
  deriving DecidableEq, Repr, Inhabited

namespace SourceTree

def name : SourceTree → String
  | production => "main"
  | testing => "test"

def all : List SourceTree := [production, testing]

/-- The tree of a name. -/
def ofName? (s : String) : Option SourceTree := all.find? fun t => t.name == s

/-- The directory of the tree within a project. -/
def directory : SourceTree → String
  | production => "src/main/java"
  | testing => "src/test/java"

end SourceTree

end JavaRefactor
