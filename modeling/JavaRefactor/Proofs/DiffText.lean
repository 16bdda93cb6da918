import JavaRefactor.Proofs.Decimal
import JavaRefactor.Proofs.Pieces

/-! # Reading diffs

A diff consists of two lines that name the file, and of hunks: the numbers of their lines, the
lines that go and the lines that come. A note behind a line says that no break ends it, so the
lines are read from the last to the first. What was written for a block of lines is read as the
lines of the block, but a carriage return before a break is lost.
-/

namespace JavaRefactor.Diff

open Text

/-- A hunk as it stands in a diff. The lines have the breaks that end them. -/
structure HunkText where
  oldStart : Nat
  old : List (List Char)
  newStart : Nat
  new : List (List Char)
  deriving DecidableEq, Repr

def breakNote : List Char := '\\' :: " No newline at end of file".toList

def range? (cs : List Char) : Option (Nat × Nat) :=
  match split ',' cs with
  | [start, count] => do return (← Decimal.natural? start, ← Decimal.natural? count)
  | _ => none

/-- The ranges of `@@ -12,3 +12,4 @@`. -/
def ranges? (line : List Char) : Option ((Nat × Nat) × (Nat × Nat)) :=
  match split ' ' line with
  | [['@', '@'], '-' :: old, '+' :: new, ['@', '@']] => do return (← range? old, ← range? new)
  | _ => none

/-- What has been read of a diff, from its end on: whole hunks, and lines whose ranges are still
to come. -/
structure Reading where
  hunks : List HunkText := []
  old : List (List Char) := []
  new : List (List Char) := []
  /-- The line before is not ended by a break. -/
  bare : Bool := false
  deriving DecidableEq, Repr

namespace Reading

def ended (r : Reading) (text : List Char) : List Char := if r.bare then text else text ++ ['\n']

def close? (r : Reading) (ranges : (Nat × Nat) × (Nat × Nat)) : Option Reading :=
  if r.bare = false ∧ ranges.1.2 = r.old.length ∧ ranges.2.2 = r.new.length then
    some { hunks := ⟨ranges.1.1, r.old, ranges.2.1, r.new⟩ :: r.hunks }
  else none

def line? (line : List Char) (r : Reading) : Option Reading :=
  match line with
  | '-' :: text => some { r with old := r.ended text :: r.old, bare := false }
  | '+' :: text => some { r with new := r.ended text :: r.new, bare := false }
  | '\\' :: _ => if line = breakNote ∧ r.bare = false then some { r with bare := true } else none
  | _ => (ranges? line).bind r.close?

def lines? : List (List Char) → Option Reading
  | [] => some {}
  | line :: rest => (lines? rest).bind (line? line)

end Reading

def read? (diff : String) : Option (List HunkText) :=
  match split '\n' diff.toList with
  | [[]] => some []
  | old :: new :: body =>
    if "--- ".toList <+: old ∧ "+++ ".toList <+: new ∧ body.getLast? = some [] then
      (Reading.lines? body.dropLast).bind fun r =>
        if r.old = [] ∧ r.new = [] ∧ r.bare = false then some r.hunks else none
    else none
  | _ => none

variable {line rest text : List Char} {block : Block} {blocks : List Block} {r : Reading}

/-- A line as it is read from a diff. Of its break only the line feed is left. -/
def plain (piece : List Char) : List Char :=
  if lacksBreak piece then piece else stripBreak piece ++ ['\n']

def plainLines (text : List Char) : List (List Char) := (pieces text).map plain

/-- The block as it is read, if the blocks before it made the text `shift` lines longer. -/
def Block.readAt (shift : Int) (block : Block) : HunkText :=
  ⟨block.line, plainLines block.old, (block.line + shift).toNat, plainLines block.new⟩

def readBlocks (shift : Int) : List Block → List HunkText
  | [] => []
  | block :: rest => block.readAt shift :: readBlocks (shift + block.growth) rest

def Block.asRead (block : Block) : HunkText :=
  ⟨block.line, pieces block.old, block.line, pieces block.new⟩

theorem stripBreak_return (line : List Char) : stripBreak (line ++ ['\r'] ++ ['\n']) = line := by
  simp [stripBreak]

theorem stripBreak_line (h : line.getLast? ≠ some '\r') : stripBreak (line ++ ['\n']) = line := by
  have hrev : (line ++ ['\n']).reverse = '\n' :: line.reverse := by simp
  unfold stripBreak
  rw [hrev]
  split
  next heq =>
    obtain ⟨-, hr⟩ := List.cons.inj heq
    rw [List.getLast?_eq_head?_reverse, hr] at h
    exact absurd rfl h
  next heq =>
    obtain ⟨-, hr⟩ := List.cons.inj heq
    simp [← hr]
  next hne => exact absurd rfl (hne _)

theorem stripBreak_subset (line : List Char) : stripBreak (line ++ ['\n']) ⊆ line := by
  by_cases h : line.getLast? = some '\r'
  · obtain ⟨x, rfl⟩ := List.getLast?_eq_some_iff.mp h
    rw [stripBreak_return]
    exact List.subset_append_left x _
  · rw [stripBreak_line h]
    exact List.Subset.refl line

theorem stripBreak_of_not_mem (h : '\n' ∉ line) : stripBreak line = line := by
  have hrev : '\n' ∉ line.reverse := by simpa using h
  unfold stripBreak
  split
  next heq => simp [heq] at hrev
  next heq => simp [heq] at hrev
  next => rfl

theorem lacksBreak_of_not_mem (h : '\n' ∉ line) (hne : line ≠ []) : lacksBreak line := by
  have hlast : line.getLast? ≠ some '\n' := fun he => h (List.mem_of_getLast? he)
  simp [lacksBreak, hne, hlast]

theorem lacksBreak_line (line rest : List Char) :
    lacksBreak (line ++ '\n' :: rest) = lacksBreak rest := by
  cases rest with
  | nil => simp [lacksBreak]
  | cons c rest =>
    have hlast : (line ++ '\n' :: c :: rest).getLast? = (c :: rest).getLast? := by
      rw [List.append_cons, List.getLast?_append, List.getLast?_eq_some_getLast (by simp),
        Option.some_or]
    simp [lacksBreak, hlast]

def marked (mark : Char) (text : List Char) : List (List Char) :=
  (lines text).map (mark :: ·) ++ if lacksBreak text then [breakNote] else []

theorem marked_of_not_mem (mark : Char) (h : '\n' ∉ line) (hne : line ≠ []) :
    marked mark line = [mark :: line, breakNote] := by
  simp [marked, lines, pieces_of_not_mem h hne, stripBreak_of_not_mem h,
    lacksBreak_of_not_mem h hne]

theorem marked_line (mark : Char) (h : '\n' ∉ line) (rest : List Char) :
    marked mark (line ++ '\n' :: rest) =
      (mark :: stripBreak (line ++ ['\n'])) :: marked mark rest := by
  simp [marked, lines, pieces_line h, lacksBreak_line]

theorem plainLines_of_not_mem (h : '\n' ∉ line) (hne : line ≠ []) : plainLines line = [line] := by
  simp [plainLines, plain, pieces_of_not_mem h hne, lacksBreak_of_not_mem h hne]

theorem plainLines_line (h : '\n' ∉ line) (rest : List Char) :
    plainLines (line ++ '\n' :: rest) =
      (stripBreak (line ++ ['\n']) ++ ['\n']) :: plainLines rest := by
  simp [plainLines, plain, pieces_line h, lacksBreak]

theorem length_plainLines (text : List Char) : (plainLines text).length = (lines text).length := by
  simp [plainLines, lines]

theorem returns_line (h : '\n' ∉ line) (rest : List Char) :
    ['\r', '\n'] <:+: line ++ '\n' :: rest ↔
      line.getLast? = some '\r' ∨ ['\r', '\n'] <:+: rest := by
  induction line with
  | nil => simp [List.infix_cons_iff]
  | cons c line ih =>
    obtain ⟨hc, hline⟩ := List.ne_and_not_mem_of_not_mem_cons h
    rw [List.cons_append, List.infix_cons_iff, ih hline, List.cons_prefix_cons]
    cases line with
    | nil => simp [eq_comm]
    | cons d line =>
      have hd : d ≠ '\n' := fun hd => hline (by simp [hd])
      simp [hd.symm]

theorem plainLines_eq (h : ¬ ['\r', '\n'] <:+: text) : plainLines text = pieces text := by
  induction text using line_induction with
  | nil => rfl
  | last line hne hline => rw [plainLines_of_not_mem hline hne, pieces_of_not_mem hline hne]
  | cons line rest hline ih =>
    rw [returns_line hline, not_or] at h
    rw [plainLines_line hline, pieces_line hline, stripBreak_line h.1, ih h.2]

theorem length_flatten_plainLines_lt (h : ['\r', '\n'] <:+: text) :
    (plainLines text).flatten.length < text.length := by
  induction text using line_induction with
  | nil => simp at h
  | last line hne hline => exact absurd (h.subset (by simp)) hline
  | cons line rest hline ih =>
    have hrest : (plainLines rest).flatten.length ≤ rest.length := by
      by_cases hr : ['\r', '\n'] <:+: rest
      · exact Nat.le_of_lt (ih hr)
      · exact Nat.le_of_eq (by rw [plainLines_eq hr, flatten_pieces])
    rw [plainLines_line hline]
    by_cases hlast : line.getLast? = some '\r'
    · obtain ⟨x, rfl⟩ := List.getLast?_eq_some_iff.mp hlast
      rw [stripBreak_return]
      simp only [List.flatten_cons, List.length_append, List.length_cons, List.length_nil]
      omega
    · have hlt := ih (((returns_line hline rest).mp h).resolve_left hlast)
      rw [stripBreak_line hlast]
      simp only [List.flatten_cons, List.length_append, List.length_cons, List.length_nil]
      omega

theorem length_flatten_plainLines_le (text : List Char) :
    (plainLines text).flatten.length ≤ text.length := by
  by_cases h : ['\r', '\n'] <:+: text
  · exact Nat.le_of_lt (length_flatten_plainLines_lt h)
  · exact Nat.le_of_eq (by rw [plainLines_eq h, flatten_pieces])

theorem flatten_plainLines_eq_iff :
    (plainLines text).flatten = text ↔ ¬ ['\r', '\n'] <:+: text := by
  constructor
  · intro h hreturn
    have hlt := length_flatten_plainLines_lt hreturn
    rw [h] at hlt
    exact Nat.lt_irrefl _ hlt
  · intro h
    rw [plainLines_eq h, flatten_pieces]

theorem markedLines_eq (mark : Char) (text : List Char) :
    markedLines mark text = (marked mark text).flatMap (· ++ ['\n']) := by
  have hnote : "\\ No newline at end of file\n".toList = breakNote ++ ['\n'] := by decide
  simp only [markedLines, marked, hnote, List.flatMap_append, List.flatMap_map, List.cons_append]
  split <;> simp

theorem not_mem_of_mem_marked {mark : Char} (hmark : mark ≠ '\n') (text : List Char) :
    ∀ line ∈ marked mark text, '\n' ∉ line := by
  have hnote : '\n' ∉ breakNote := by decide
  induction text using line_induction with
  | nil => simp [marked, lines, pieces, lacksBreak]
  | last line hne h =>
    rw [marked_of_not_mem mark h hne]
    simp [h, hnote, hmark.symm]
  | cons line rest h ih =>
    have hstrip : '\n' ∉ stripBreak (line ++ ['\n']) := fun hc => h (stripBreak_subset line hc)
    rw [marked_line mark h]
    exact List.forall_mem_cons.mpr ⟨by simp [hstrip, hmark.symm], ih⟩

/-- Lines behind a mark are read as the lines of their text, if the mark puts lines in front of
those that were read before. -/
theorem lines?_marked {mark : Char} (put : List (List Char) → Reading) {below l : List (List Char)}
    (hread : ∀ text l bare, Reading.line? (mark :: text) { put l with bare } =
      some (put ((if bare then text else text ++ ['\n']) :: l)))
    (hput : ∀ l, (put l).bare = false) (text : List Char)
    (hbelow : Reading.lines? below = some (put l)) :
    Reading.lines? (marked mark text ++ below) = some (put (plainLines text ++ l)) := by
  have hended (text : List Char) (l : List (List Char)) :
      Reading.line? (mark :: text) (put l) = some (put ((text ++ ['\n']) :: l)) := by
    have hsame : { put l with bare := false } = put l := by rw [← hput l]
    rw [← hsame]
    exact hread text l false
  induction text using line_induction with
  | nil => simpa [marked, lines, pieces, plainLines, lacksBreak] using hbelow
  | last line hne h =>
    have hlast : Reading.line? breakNote (put l) = some { put l with bare := true } :=
      if_pos ⟨rfl, hput l⟩
    rw [marked_of_not_mem mark h hne, plainLines_of_not_mem h hne]
    simp [Reading.lines?, hbelow, hlast, hread]
  | cons line rest h ih =>
    rw [marked_line mark h, plainLines_line h]
    simp [Reading.lines?, ih, hended]

def Block.ranges (shift : Int) (block : Block) : List Char :=
  ['@', '@'] ++ ' ' :: ('-' :: (Decimal.ofNat block.line ++
    ',' :: Decimal.ofNat (lines block.old).length) ++ ' ' :: ('+' ::
    (Decimal.ofInt (block.line + shift) ++ ',' :: Decimal.ofNat (lines block.new).length) ++
    ' ' :: ['@', '@']))

def Block.written (shift : Int) (block : Block) : List (List Char) :=
  block.ranges shift :: (marked '-' block.old ++ marked '+' block.new)

def writtenBlocks (shift : Int) : List Block → List (List Char)
  | [] => []
  | block :: rest => block.written shift ++ writtenBlocks (shift + block.growth) rest

theorem render_eq (shift : Int) (block : Block) :
    block.render shift = (block.written shift).flatMap (· ++ ['\n']) := by
  have hopen : "@@ -".toList = ['@', '@', ' ', '-'] := by decide
  have hplus : " +".toList = [' ', '+'] := by decide
  have hclose : " @@\n".toList = [' ', '@', '@', '\n'] := by decide
  unfold Block.render
  rw [hopen, hplus, hclose, markedLines_eq, markedLines_eq, Block.written, Block.ranges,
    List.flatMap_cons, List.flatMap_append]
  simp only [List.append_assoc, List.cons_append, List.nil_append]

theorem renderBlocks_eq (shift : Int) (blocks : List Block) :
    renderBlocks shift blocks = (writtenBlocks shift blocks).flatMap (· ++ ['\n']) := by
  induction blocks generalizing shift with
  | nil => rfl
  | cons block blocks ih =>
    rw [renderBlocks, writtenBlocks, render_eq, ih, List.flatMap_append]

theorem not_mem_ofNat {c : Char} (hc : c.isDigit = false) (n : Nat) : c ∉ Decimal.ofNat n := by
  intro h
  simp [Decimal.isDigit_of_mem_ofNat h] at hc

theorem range?_eq (start count : Nat) :
    range? (Decimal.ofNat start ++ ',' :: Decimal.ofNat count) = some (start, count) := by
  rw [range?, split_append (not_mem_ofNat rfl start), split_of_not_mem (not_mem_ofNat rfl count)]
  simp [Decimal.natural?_ofNat]

/-- No block begins before the new text does. -/
def Numbered (shift : Int) : List Block → Prop
  | [] => True
  | block :: rest => 0 ≤ block.line + shift ∧ Numbered (shift + block.growth) rest

theorem ofInt_of_nonneg {n : Int} (h : 0 ≤ n) : Decimal.ofInt n = Decimal.ofNat n.toNat := by
  obtain ⟨n, rfl⟩ := Int.eq_ofNat_of_zero_le h
  rfl

theorem ranges?_eq {shift : Int} (h : 0 ≤ block.line + shift) : ranges? (block.ranges shift) =
    some ((block.line, (lines block.old).length),
      ((block.line + shift).toNat, (lines block.new).length)) := by
  have hblank (mark : Char) (hmark : mark ≠ ' ') (a b : Nat) :
      ' ' ∉ mark :: (Decimal.ofNat a ++ ',' :: Decimal.ofNat b) := by
    simp [hmark.symm, not_mem_ofNat (c := ' ') rfl]
  rw [ranges?, Block.ranges, ofInt_of_nonneg h, split_append (by decide),
    split_append (hblank _ (by decide) _ _), split_append (hblank _ (by decide) _ _),
    split_of_not_mem (by decide)]
  simp [range?_eq]

theorem not_mem_of_mem_written {shift : Int} (h : 0 ≤ block.line + shift) :
    ∀ line ∈ block.written shift, '\n' ∉ line := by
  have hranges : '\n' ∉ block.ranges shift := by
    simp [Block.ranges, ofInt_of_nonneg h, not_mem_ofNat (c := '\n') rfl]
  rw [Block.written, List.forall_mem_cons]
  refine ⟨hranges, fun line hline => ?_⟩
  rcases List.mem_append.mp hline with hline | hline
  · exact not_mem_of_mem_marked (by decide) block.old line hline
  · exact not_mem_of_mem_marked (by decide) block.new line hline

theorem lines?_written {shift : Int} {below : List (List Char)} {hunks : List HunkText}
    (h : 0 ≤ block.line + shift) (hbelow : Reading.lines? below = some { hunks }) :
    Reading.lines? (block.written shift ++ below) =
      some { hunks := block.readAt shift :: hunks } := by
  have hplus : Reading.lines? (marked '+' block.new ++ below) =
      some { hunks, new := plainLines block.new } := by
    simpa using lines?_marked (fun l => { hunks, new := l }) (fun _ _ _ => rfl) (fun _ => rfl)
      block.new hbelow
  have hminus : Reading.lines? (marked '-' block.old ++ (marked '+' block.new ++ below)) =
      some { hunks, old := plainLines block.old, new := plainLines block.new } := by
    simpa using lines?_marked (fun l => { hunks, old := l, new := plainLines block.new })
      (fun _ _ _ => rfl) (fun _ => rfl) block.old hplus
  have hread (r : Reading) :
      Reading.line? (block.ranges shift) r = (ranges? (block.ranges shift)).bind r.close? := rfl
  rw [Block.written, List.cons_append, List.append_assoc, Reading.lines?, hminus, Option.bind_some,
    hread, ranges?_eq h, Option.bind_some]
  simp [Reading.close?, length_plainLines, Block.readAt]

theorem lines?_writtenBlocks {shift : Int} (h : Numbered shift blocks) :
    Reading.lines? (writtenBlocks shift blocks) = some { hunks := readBlocks shift blocks } := by
  induction blocks generalizing shift with
  | nil => rfl
  | cons block blocks ih => exact lines?_written h.1 (ih h.2)

theorem not_mem_of_mem_writtenBlocks {shift : Int} (h : Numbered shift blocks) :
    ∀ line ∈ writtenBlocks shift blocks, '\n' ∉ line := by
  induction blocks generalizing shift with
  | nil => simp [writtenBlocks]
  | cons block blocks ih =>
    intro line hline
    rcases List.mem_append.mp hline with hline | hline
    · exact not_mem_of_mem_written h.1 line hline
    · exact ih h.2 line hline

theorem read?_renderBlocks {path : String} (hpath : '\n' ∉ path.toList)
    (hnumbered : Numbered 0 blocks) :
    read? (String.ofList (s!"--- a/{path}\n+++ b/{path}\n".toList ++ renderBlocks 0 blocks)) =
      some (readBlocks 0 blocks) := by
  have htext : s!"--- a/{path}\n+++ b/{path}\n".toList ++ renderBlocks 0 blocks =
      (("--- a/".toList ++ path.toList) :: ("+++ b/".toList ++ path.toList) ::
        writtenBlocks 0 blocks).flatMap (· ++ ['\n']) := by
    have hheading : s!"--- a/{path}\n+++ b/{path}\n" =
        "--- a/" ++ path ++ "\n+++ b/" ++ path ++ "\n" := rfl
    rw [hheading, renderBlocks_eq]
    simp
  have hparts : ∀ part ∈ ("--- a/".toList ++ path.toList) :: ("+++ b/".toList ++ path.toList) ::
      writtenBlocks 0 blocks, '\n' ∉ part := by
    rw [List.forall_mem_cons, List.forall_mem_cons]
    exact ⟨by simp [hpath], by simp [hpath], not_mem_of_mem_writtenBlocks hnumbered⟩
  rw [read?, String.toList_ofList, htext, split_flatMap hparts]
  simp [lines?_writtenBlocks hnumbered]

/-- Blocks that follow each other begin in the new text: none takes more lines than it has. -/
theorem numbered_of_pairwise {shift : Int}
    (hp : blocks.Pairwise fun b b' => b.line + (lines b.old).length ≤ b'.line)
    (h : ∀ block ∈ blocks, 0 ≤ block.line + shift) : Numbered shift blocks := by
  induction blocks generalizing shift with
  | nil => trivial
  | cons block blocks ih =>
    obtain ⟨hfirst, hp⟩ := List.pairwise_cons.mp hp
    obtain ⟨hblock, -⟩ := List.forall_mem_cons.mp h
    refine ⟨hblock, ih hp fun next hnext => ?_⟩
    have := hfirst next hnext
    rw [Block.growth]
    omega

theorem readBlocks_eq (hreturn : ∀ block ∈ blocks, '\r' ∉ block.old ∧ '\r' ∉ block.new)
    (h : blocks.Pairwise fun block _ => block.growth = 0) :
    readBlocks 0 blocks = blocks.map Block.asRead := by
  have hplain {text : List Char} (hr : '\r' ∉ text) : plainLines text = pieces text :=
    plainLines_eq fun hc => hr (hc.subset List.mem_cons_self)
  induction blocks with
  | nil => rfl
  | cons block blocks ih =>
    obtain ⟨hfirst, hrest⟩ := List.pairwise_cons.mp h
    obtain ⟨⟨hold, hnew⟩, hreturn⟩ := List.forall_mem_cons.mp hreturn
    have hblock : block.readAt 0 = block.asRead := by
      simp [Block.readAt, Block.asRead, hplain hold, hplain hnew]
    rw [readBlocks, hblock, List.map_cons]
    cases blocks with
    | nil => rfl
    | cons next blocks => rw [hfirst next List.mem_cons_self, Int.add_zero, ih hreturn hrest]

end JavaRefactor.Diff
