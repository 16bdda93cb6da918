import JavaRefactor.Json.Basic
import JavaRefactor.Sorting

/-! # Writing JSON

The one layout in use: two blanks for each level, one field or item to a line,
and nothing between the brackets of an empty object or array.
-/

namespace JavaRefactor.Json

/-- The characters that stand for a character inside a string. -/
def escape (c : Char) : List Char :=
  if c = '"' then ['\\', '"']
  else if c = '\\' then ['\\', '\\']
  else if c = '\n' then ['\\', 'n']
  else if c = '\r' then ['\\', 'r']
  else if c = '\t' then ['\\', 't']
  else if c = '\x08' then ['\\', 'b']
  else if c = '\x0c' then ['\\', 'f']
  else if c.toNat < 0x20 then
    ['\\', 'u', '0', '0', Nat.digitChar (c.toNat / 16), Nat.digitChar (c.toNat % 16)]
  else [c]

/-- A string in quotes. -/
def quote (s : String) : List Char := '"' :: s.toList.flatMap escape ++ ['"']

/-- A new line at a level of nesting. -/
def newline (level : Nat) : List Char := '\n' :: List.replicate (2 * level) ' '

mutual

/-- A value at a level of nesting. A value of no use is written as null. -/
def render (level : Nat) : Json → List Char
  | .null | .other => "null".toList
  | .bool true => "true".toList
  | .bool false => "false".toList
  | .int n => Decimal.ofInt n
  | .str s => quote s
  | .arr [] => ['[', ']']
  | .arr (item :: items) =>
    '[' :: newline (level + 1) ++ render (level + 1) item ++ renderItems (level + 1) items ++
      newline level ++ [']']
  | .obj [] => ['\x7b', '\x7d']
  | .obj ((name, value) :: fields) =>
    '\x7b' :: newline (level + 1) ++ quote name ++ ':' :: ' ' :: render (level + 1) value ++
      renderFields (level + 1) fields ++ newline level ++ ['\x7d']

/-- The items behind the first one. -/
def renderItems (level : Nat) : List Json → List Char
  | [] => []
  | item :: items => ',' :: newline level ++ render level item ++ renderItems level items

/-- The fields behind the first one. -/
def renderFields (level : Nat) : List (String × Json) → List Char
  | [] => []
  | (name, value) :: fields =>
    ',' :: newline level ++ quote name ++ ':' :: ' ' :: render level value ++
      renderFields level fields

end

/-- The text of a value. -/
def pretty (value : Json) : String := String.ofList (render 0 value)

mutual

/-- Sorts the fields of every object by name. -/
def sortFields : Json → Json
  | .arr items => .arr (sortItems items)
  | .obj fields => .obj (sortBy (fun a b => a.1 ≤ b.1) (sortMembers fields))
  | value => value

def sortItems : List Json → List Json
  | [] => []
  | item :: items => sortFields item :: sortItems items

def sortMembers : List (String × Json) → List (String × Json)
  | [] => []
  | (name, value) :: fields => (name, sortFields value) :: sortMembers fields

end

end JavaRefactor.Json
