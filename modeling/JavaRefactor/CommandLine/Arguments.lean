import JavaRefactor.Text.Decimal

/-! # Options on a command line

An option has a long name. Its value stands behind an equals sign or is the next
argument, which then must not look like an option itself. Options come in any order and
each at most once; the bad ones among them end the reading at once.
-/

namespace JavaRefactor.CommandLine

/-- What an option takes. -/
inductive OptionKind where
  /-- Nothing: the option is there or not. -/
  | flag
  | text
  /-- A text that is not empty. -/
  | path
  | number
  /-- One of some words. -/
  | word (words : List String)
  deriving DecidableEq, Repr

/-- Reads a line or column. A sign is allowed as long as the number is not negative. -/
def number? (s : String) : Option Nat :=
  match s.toList with
  | '-' :: digits => (Decimal.natural? digits).filter (· == 0)
  | cs => Decimal.below? Decimal.word32 cs

namespace OptionKind

/-- The value is one that the option takes. -/
def accepts (value : String) : OptionKind → Bool
  | flag => false
  | text => true
  | path => value != ""
  | number => (number? value).isSome
  | word words => words.contains value

end OptionKind

/-- An option that a command has. -/
structure OptionSpec where
  name : String
  kind : OptionKind
  deriving DecidableEq, Repr

/-- An option that was given. -/
structure Given where
  name : String
  value : String
  deriving DecidableEq, Repr

/-- What options come to. -/
inductive Reading where
  /-- The options up to the first argument that is none, with that and all that follow. -/
  | given (options : List Given) (rest : List String)
  | help
  | version
  | refused
  deriving DecidableEq, Repr

/-- An argument at its face value. -/
inductive Shape where
  /-- Two dashes alone: what follows are no options. -/
  | escape
  | long (name : String) (value : Option String)
  /-- One dash and the characters of short options. -/
  | short (first : Char)
  | plain
  deriving DecidableEq, Repr

namespace Shape

def of (arg : String) : Shape :=
  match arg.toList with
  | ['-', '-'] => escape
  | '-' :: '-' :: cs =>
    let name := String.ofList (cs.takeWhile (· != '='))
    match cs.dropWhile (· != '=') with
    | [] => long name none
    | _ :: value => long name (some (String.ofList value))
  | '-' :: c :: _ => short c
  | _ => plain

end Shape

/-- Takes the value of an option. -/
def take (spec : OptionSpec) (value : String) (options : List Given) : Option (List Given) :=
  if spec.kind.accepts value then some (options ++ [⟨spec.name, value⟩]) else none

/-- Reads options. An option that waits for its value is `pending`. -/
def read (specs : List OptionSpec) (options : List Given) (pending : Option OptionSpec) :
    List String → Reading
  | [] => if pending.isSome then .refused else .given options []
  | arg :: args =>
    match pending, Shape.of arg with
    | some spec, .plain =>
      match take spec arg options with
      | none => .refused
      | some options => read specs options none args
    | some _, _ => .refused
    | none, .plain => .given options (arg :: args)
    | none, .escape => if args.isEmpty then .given options [] else .refused
    | none, .short c => if c = 'h' then .help else if c = 'V' then .version else .refused
    | none, .long "help" none => .help
    | none, .long "version" none => .version
    | none, .long name value =>
      match specs.find? fun spec => spec.name == name with
      | none => .refused
      | some spec =>
        if options.any fun o => o.name == name then .refused
        else
          match spec.kind, value with
          | .flag, none => read specs (options ++ [⟨name, ""⟩]) none args
          | .flag, some _ => .refused
          | _, none => read specs options (some spec) args
          | _, some value =>
            match take spec value options with
            | none => .refused
            | some options => read specs options none args

/-- The value of an option. -/
def value? (options : List Given) (name : String) : Option String :=
  (options.find? fun o => o.name == name).map (·.value)

/-- A flag is set. -/
def isSet (options : List Given) (name : String) : Bool := options.any fun o => o.name == name

end JavaRefactor.CommandLine
