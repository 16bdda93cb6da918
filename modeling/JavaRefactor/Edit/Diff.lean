import JavaRefactor.Edit.Plan
import JavaRefactor.Sorting
import JavaRefactor.Text.Decimal
import JavaRefactor.Text.Position

/-! # Plans as diffs

A plan is shown as the list of its edits with their old texts, and as a unified
diff without context lines. A hunk of the diff is a block of whole lines; edits
that touch a common line share a hunk.
-/

namespace JavaRefactor

/-- One edit as it is shown. -/
structure OutputEdit where
  file : String
  span : Span
  oldText : String
  newText : String
  line : Nat
  col : Nat
  deriving DecidableEq, Repr

structure Patch where
  edits : List OutputEdit
  unifiedDiff : String
  deriving DecidableEq, Repr

/-- Edits that meet can leave no text to replace, and then there is no diff. -/
inductive PatchError where
  | editsMeet
  deriving DecidableEq, Repr

namespace Diff

/-- Edits with the block of lines, counted from zero, that they touch. -/
structure Hunk where
  firstLine : Nat
  lastLine : Nat
  edits : List TextEdit

/-- Adds an edit to the last hunk if that reaches its first line, else opens a hunk.
Hunks are kept last first. -/
def addEdit (source : String) (hunks : List Hunk) (edit : TextEdit) : List Hunk :=
  let range := Text.lineRange source edit.span
  let first := range.1 - 1
  let last := range.2 - 1
  match hunks with
  | hunk :: others =>
    if first ≤ hunk.lastLine then
      ⟨hunk.firstLine, max hunk.lastLine last, hunk.edits ++ [edit]⟩ :: others
    else ⟨first, last, [edit]⟩ :: hunks
  | [] => [⟨first, last, [edit]⟩]

/-- Groups edits in ascending order into hunks. -/
def hunks (source : String) (edits : List TextEdit) : List Hunk :=
  (edits.foldl (addEdit source) []).reverse

/-- The pieces of a text, each with the line break that ends it. -/
def pieces : List Char → List (List Char)
  | [] => []
  | c :: cs =>
    if c = '\n' then [c] :: pieces cs
    else
      match pieces cs with
      | [] => [[c]]
      | piece :: rest => (c :: piece) :: rest

/-- A line without the break that ends it. A carriage return before a line feed is
part of the break. -/
def stripBreak (piece : List Char) : List Char :=
  match piece.reverse with
  | '\n' :: '\r' :: rest => rest.reverse
  | '\n' :: rest => rest.reverse
  | _ => piece

/-- The lines of a text, without their breaks. -/
def lines (text : List Char) : List (List Char) := (pieces text).map stripBreak

/-- The text does not end in a line break. -/
def lacksBreak (text : List Char) : Bool := !text.isEmpty && text.getLast? != some '\n'

/-- Lines behind a mark, with a note if the last of them is not ended by a break. -/
def markedLines (mark : Char) (text : List Char) : List Char :=
  let marked := (lines text).flatMap fun line => mark :: line ++ ['\n']
  if lacksBreak text then marked ++ "\\ No newline at end of file\n".toList else marked

/-- The text of a block after its edits, which are made from the last to the first. -/
def edited (start : Nat) (old : List Char) (edits : List TextEdit) :
    Except PatchError (List Char) :=
  edits.foldr
    (fun edit text =>
      match text with
      | .error e => .error e
      | .ok text =>
        let span : Span := ⟨edit.span.start - start, edit.span.stop - start⟩
        match Text.splice? text span edit.newText.toList with
        | none => .error .editsMeet
        | some next => .ok next)
    (.ok old)

/-- Old and new text of a hunk, with the number of its first line. -/
structure Block where
  line : Nat
  old : List Char
  new : List Char

/-- Cuts the lines of a hunk out of the source and makes its edits. -/
def Hunk.block (source : String) (hunk : Hunk) : Except PatchError Block :=
  let starts := Text.lineStarts source
  let stop := Text.byteLength source
  let start := starts.getD hunk.firstLine stop
  let span : Span := ⟨start, starts.getD (hunk.lastLine + 1) stop⟩
  match Text.divide? source.toList span with
  | none => .error .editsMeet
  | some parts =>
    (edited start parts.middle hunk.edits).map fun new => ⟨hunk.firstLine + 1, parts.middle, new⟩

/-- The line of a block in the new text, when the blocks before it made the text
`shift` lines longer. -/
def Block.render (shift : Int) (block : Block) : List Char :=
  let old := (lines block.old).length
  let new := (lines block.new).length
  "@@ -".toList ++ Decimal.ofNat block.line ++ ',' :: Decimal.ofNat old ++
    " +".toList ++ Decimal.ofInt (block.line + shift) ++ ',' :: Decimal.ofNat new ++
    " @@\n".toList ++ markedLines '-' block.old ++ markedLines '+' block.new

/-- How many lines longer a block makes the text. -/
def Block.growth (block : Block) : Int := (lines block.new).length - (lines block.old).length

def renderBlocks (shift : Int) : List Block → List Char
  | [] => []
  | block :: rest => block.render shift ++ renderBlocks (shift + block.growth) rest

/-- The unified diff of edits in ascending order. There is none if some edit does not
cut the source between characters. -/
def unified (path source : String) (edits : List TextEdit) : Except PatchError String :=
  if edits.isEmpty || edits.any fun edit => (Text.slice? source edit.span).isNone then .ok ""
  else
    ((hunks source edits).mapM (Hunk.block source)).map fun blocks =>
      String.ofList (s!"--- a/{path}\n+++ b/{path}\n".toList ++ renderBlocks 0 blocks)

end Diff

namespace EditPlan

/-- The edits from the beginning of the text to its end. -/
def ascending (plan : EditPlan) : List TextEdit :=
  sortBy (fun a b => a.span.start ≤ b.span.start) plan.edits

/-- An edit with the text it replaces and its position. -/
def outputEdit (source path : String) (edit : TextEdit) : OutputEdit :=
  let position := Position.ofOffset source edit.span.start
  { file := path
    span := edit.span
    oldText := (Text.slice? source edit.span).getD ""
    newText := edit.newText
    line := position.line
    col := position.col }

/-- The plan as it is shown for a source under a path. -/
def materialize (plan : EditPlan) (source path : String) : Except PatchError Patch :=
  let edits := plan.ascending
  (Diff.unified path source edits).map fun diff =>
    ⟨edits.map (outputEdit source path), diff⟩

end EditPlan

end JavaRefactor
