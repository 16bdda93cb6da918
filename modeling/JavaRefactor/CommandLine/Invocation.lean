import JavaRefactor.Command.Project
import JavaRefactor.Command.Rename
import JavaRefactor.CommandLine.Arguments

/-! # Invocations

A command line names a command and its options. Options about the output may stand
before the command or behind it, where they count more.
-/

namespace JavaRefactor.CommandLine

/-- How an answer is printed. -/
inductive Format where
  | json
  /-- A diff, a text or a short sentence, for commands that edit. -/
  | text
  deriving DecidableEq, Repr, Inhabited

namespace Format

def name : Format → String
  | json => "json"
  | text => "text"

def all : List Format := [json, text]

/-- The format of a name. -/
def ofName? (s : String) : Option Format := all.find? fun f => f.name == s

end Format

/-- A command with all that it needs. -/
inductive Invocation where
  | locate (file : String) (position : Position)
  | references (file : String) (position : Position)
  | rename (request : Command.RenameRequest)
  | applyPlan (file plan : String) (dryRun : Bool)
  | enclosing (file : String) (position : Position) (kind : DeclarationKind)
  | check (target : Command.CheckTarget)
  | mainClass (root : String)
  | createFile (request : Command.NewFileRequest)
  deriving DecidableEq, Repr

/-- The words of a command line have dashes where names have underscores. -/
def dashed (name : String) : String := name.map fun c => if c = '_' then '-' else c

/-- Options of every command. -/
def commonOptions : List OptionSpec :=
  [⟨"format", .word (Format.all.map Format.name)⟩,
   ⟨"log-level", .word ["trace", "debug", "info", "warn", "error"]⟩]

/-- Options that name a position. -/
def positionOptions : List OptionSpec := [⟨"file", .path⟩, ⟨"line", .number⟩, ⟨"col", .number⟩]

/-- The options of each command. -/
def commands : List (String × List OptionSpec) :=
  [("locate", positionOptions),
   ("references", positionOptions),
   ("rename", positionOptions ++ [⟨"to", .text⟩, ⟨"apply", .flag⟩, ⟨"plan-out", .path⟩]),
   ("apply-plan", [⟨"file", .path⟩, ⟨"plan", .path⟩, ⟨"dry-run", .flag⟩]),
   ("enclosing", positionOptions ++
     [⟨"kind", .word (DeclarationKind.all.map fun k => dashed k.name)⟩]),
   ("check", [⟨"file", .path⟩, ⟨"cwd", .path⟩]),
   ("get-main-class", [⟨"cwd", .path⟩]),
   ("create-new-file", [⟨"cwd", .path⟩, ⟨"package-name", .text⟩, ⟨"file-name", .text⟩,
     ⟨"file-type", .word (Template.all.map Template.name)⟩,
     ⟨"source-directory-type", .word (SourceTree.all.map SourceTree.name)⟩])]

/-- The position that options name. -/
def position? (options : List Given) : Option Position := do
  let line ← (value? options "line").bind number?
  let col ← (value? options "col").bind number?
  return ⟨line, col⟩

/-- The command of a name with its options. Options that it cannot do without must be
there. -/
def invocation? (name : String) (options : List Given) : Option Invocation :=
  match name with
  | "locate" => do return .locate (← value? options "file") (← position? options)
  | "references" => do return .references (← value? options "file") (← position? options)
  | "rename" => do
    return .rename {
      file := ← value? options "file"
      position := ← position? options
      newName := ← value? options "to"
      apply := isSet options "apply"
      planOut := value? options "plan-out" }
  | "apply-plan" => do
    return .applyPlan (← value? options "file") (← value? options "plan") (isSet options "dry-run")
  | "enclosing" => do
    let word ← value? options "kind"
    let kind ← DeclarationKind.all.find? fun k => dashed k.name == word
    return .enclosing (← value? options "file") (← position? options) kind
  | "check" =>
    match value? options "file", value? options "cwd" with
    | some file, none => some (.check (.file file))
    | none, some directory => some (.check (.directory directory))
    | _, _ => none
  | "get-main-class" => do return .mainClass (← value? options "cwd")
  | "create-new-file" => do
    let template ← (value? options "file-type").bind Template.ofName?
    let tree ← SourceTree.ofName? ((value? options "source-directory-type").getD "main")
    return .createFile {
      root := ← value? options "cwd"
      package := ← value? options "package-name"
      fileName := ← value? options "file-name"
      template
      tree }
  | _ => none

/-- What a command line asks for. -/
inductive Request where
  | run (invocation : Invocation) (format : Format)
  | help
  | version
  | refused
  deriving DecidableEq, Repr

/-- The format that options ask for. -/
def format? (options : List Given) : Option Format := (value? options "format").bind Format.ofName?

/-- Reads what follows the name of a command. -/
def parseCommand (before : List Given) (name : String) (args : List String) : Request :=
  match commands.lookup name with
  | none => .refused
  | some specs =>
    match read (specs ++ commonOptions) [] none args with
    | .given options [] =>
      match invocation? name options with
      | none => .refused
      | some invocation =>
        .run invocation (((format? options).or (format? before)).getD .json)
    | .help => .help
    | _ => .refused

/-- Help is there for all commands together, for one of them, and for itself. -/
def parseHelp : List String → Request
  | [] => .help
  | [name] => if name = "help" || (commands.lookup name).isSome then .help else .refused
  | _ => .refused

/-- Reads a command line. -/
def parse (args : List String) : Request :=
  match read commonOptions [] none args with
  | .given _ ("help" :: rest) => parseHelp rest
  | .given options (name :: rest) => parseCommand options name rest
  | .given _ [] => .refused
  | .help => .help
  | .version => .version
  | .refused => .refused

end JavaRefactor.CommandLine
