import JavaRefactor.Disk.Walk
import JavaRefactor.Disk.Write
import JavaRefactor.Name.Identifier
import JavaRefactor.Project.Template
import JavaRefactor.Sorting
import JavaRefactor.Text.Blank

/-! # The layout of a project

Sources of a project stand below directories with conventional names, those of a package
in a directory for each part of its name. Output of build tools and hidden directories
hold no sources.
-/

namespace JavaRefactor.Project

/-- Directories that build tools write. -/
def outputDirectories : List String := ["build", "target", "out", "node_modules"]

def isHidden (name : String) : Bool := name.toList.head? == some '.'

/-- The Java files below a directory, by path. A path that is a file itself counts too. -/
def javaFiles (d : Disk) (root : String) : List String :=
  let kept (v : Visit) : Bool :=
    v.isFile && !v.directories.any fun name => isHidden name || outputDirectories.contains name
  let paths := ((d.walk root).filter kept).map (Visit.path root)
  sortBy Path.le (paths.filter fun path => Path.extension? path == some "java")

/-- The directory of a source tree. It is sought below the root, so that nested modules work;
if there is none it is right below the root. -/
def sourceDirectory (d : Disk) (root : String) (tree : SourceTree) : String :=
  let visible (v : Visit) : Bool := v.isDirectory && !v.names.any isHidden
  let paths := ((d.walk root).filter visible).map (Visit.path root)
  match paths.find? fun path => Path.endsWith path tree.directory with
  | some path => path
  | none => Path.join root tree.directory

/-- The parts of a package name. -/
def packageParts (package : String) : List String :=
  (Text.split '.' package.toList).map String.ofList

/-- The directory of a package below a source directory. -/
def packagePath (source package : String) : String := (packageParts package).foldl Path.join source

/-- Finds or makes the directory of a package. -/
def packageDirectory (d : Disk) (root package : String) (tree : SourceTree) :
    Outcome Failure String :=
  if !d.isDirectory root then ⟨.error (.fileNotFound root), d⟩
  else
    let package := Text.trim package
    if package = "" then ⟨.error (.invalidArguments "package name cannot be empty" none), d⟩
    else
      let path := packagePath (sourceDirectory d root tree) package
      ((d.makeDirectories path).map fun _ => path).mapError fun e => .ofDevice e.message

/-- A file that is to be added. -/
structure NewFile where
  path : String
  typeName : String
  contents : String
  deriving DecidableEq, Repr

/-- The name of the type that a file name stands for. -/
def typeNameOf (fileName : String) : String := (Path.stem? (Text.trim fileName)).getD ""

/-- Prepares a new file: its type gets a valid name and its package a directory. -/
def newFile (d : Disk) (root package fileName : String) (template : Template) (tree : SourceTree) :
    Outcome Failure NewFile :=
  let name := typeNameOf fileName
  match Identifier.validateFor .type name with
  | .error e => ⟨.error (.ofName e), d⟩
  | .ok _ =>
    (packageDirectory d root package tree).map fun directory =>
      ⟨Path.join directory (name ++ ".java"), name, template.render (Text.trim package) name⟩

end JavaRefactor.Project
