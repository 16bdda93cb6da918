import JavaRefactor.Proofs.LineStarts
import JavaRefactor.Text.Decimal

/-! # Line numbers

The line of an offset can be found by a walk over characters, by a walk over bytes, or in the table
of line starts. All three give the same line, also for an offset that cuts a character or lies past
the end. The lines that a span touches are found by a walk over bytes, and their block can be cut
out of the text by the table.
-/

namespace JavaRefactor

namespace Text

variable {text : String} {n : Nat}

/-- In UTF-8 a line feed is a byte of no other character. -/
theorem lineFeed_not_mem {c : Char} (h : c ≠ '\n') : 10 ∉ String.utf8EncodeChar c := by
  have hc : c.toNat ≠ 10 := fun hv => h (Char.toNat_inj.mp hv)
  have hbyte {k : Nat} (hk : k < 256) (hne : k ≠ 10) : 10 ≠ UInt8.ofNat k := by
    intro he
    have := congrArg UInt8.toNat he
    simp only [UInt8.reduceToNat, UInt8.toNat_ofNat', Nat.reducePow] at this
    omega
  rw [String.utf8EncodeChar]
  simp only [Char.toNat_val]
  split
  · simpa using hbyte (by omega) hc
  split
  · simp only [List.mem_cons, List.not_mem_nil, or_false, not_or]
    exact ⟨hbyte (by omega) (by omega), hbyte (by omega) (by omega)⟩
  split
  · simp only [List.mem_cons, List.not_mem_nil, or_false, not_or]
    exact ⟨hbyte (by omega) (by omega), hbyte (by omega) (by omega), hbyte (by omega) (by omega)⟩
  · simp only [List.mem_cons, List.not_mem_nil, or_false, not_or]
    exact ⟨hbyte (by omega) (by omega), hbyte (by omega) (by omega), hbyte (by omega) (by omega),
      hbyte (by omega) (by omega)⟩

theorem toList_toUTF8 (text : String) :
    text.toUTF8.data.toList = text.toList.flatMap String.utf8EncodeChar := by
  conv => lhs; rw [← String.ofList_toList (s := text)]
  rw [String.toUTF8_eq_toByteArray, String.toByteArray_ofList]
  exact List.toList_data_toByteArray

theorem le_byteLength_of_mem_lineStarts {x : Nat} (h : x ∈ lineStarts text) :
    x ≤ byteLength text :=
  (isBoundary_of_mem_lineStarts h).le_width

theorem length_lineStarts_le (text : String) : (lineStarts text).length ≤ byteLength text + 1 := by
  have hcount := List.count_le_length (a := '\n') (l := text.toList)
  have hwidth := length_le_width text.toList
  rw [lineStarts, List.length_cons, length_startsAfterBreaks, byteLength]
  omega

end Text

namespace Position

open Text

variable {p q : Position}

/-- A walk by characters passes the same lines as a walk by bytes, and no more columns. -/
theorem walk_walkBytes (hline : p.line = q.line) (hcol : p.col ≤ q.col) (n : Nat)
    (cs : List Char) : (p.walk n cs).line = (q.walkBytes n cs).line ∧
      (p.walk n cs).col ≤ (q.walkBytes n cs).col := by
  induction cs generalizing p q n with
  | nil => cases n <;> exact ⟨hline, hcol⟩
  | cons c cs ih =>
    cases n with
    | zero => exact ⟨hline, hcol⟩
    | succ n =>
      have hc := c.utf8Size_pos
      rw [walk, walkBytes]
      apply ih
      · simp only [advance]
        split <;> simp [hline]
      · simp only [advance]
        split
        · exact Nat.le_refl _
        · simp only
          omega

theorem line_walkBytes_count (p : Position) (n : Nat) (cs : List Char) :
    (p.walkBytes n cs).line = p.line + ((cs.flatMap String.utf8EncodeChar).take n).count 10 := by
  induction cs generalizing p n with
  | nil => cases n <;> simp [walkBytes]
  | cons c cs ih =>
    cases n with
    | zero => simp [walkBytes]
    | succ n =>
      rw [walkBytes, ih, List.flatMap_cons, List.take_append, List.count_append,
        String.length_utf8EncodeChar]
      by_cases hc : c = '\n'
      · have hbytes : String.utf8EncodeChar '\n' = [10] := rfl
        simp [hc, hbytes]
        omega
      · have hnone : ((String.utf8EncodeChar c).take (n + 1)).count 10 = 0 :=
          List.count_eq_zero_of_not_mem fun hmem => lineFeed_not_mem hc (List.mem_of_mem_take hmem)
        simp [hc, hnone]

theorem col_walkBytes_le (hp : 0 < p.col) (n : Nat) (cs : List Char) :
    (p.walkBytes n cs).col ≤ p.col + width cs := by
  induction cs generalizing p n with
  | nil => cases n <;> exact Nat.le_refl _
  | cons c cs ih =>
    cases n with
    | zero => exact Nat.le_add_right _ _
    | succ n =>
      rw [walkBytes, width_cons]
      split
      · have := ih (p := ⟨p.line + 1, 1⟩) Nat.one_pos (n + 1 - c.utf8Size)
        simp only at this ⊢
        omega
      · have := ih (p := ⟨p.line, p.col + min (n + 1) c.utf8Size⟩) (Nat.add_pos_left hp _)
          (n + 1 - c.utf8Size)
        simp only at this ⊢
        omega

theorem line_ofOffset (text : String) (n : Nat) :
    (ofOffset text n).line = (ofOffsetInBytes text n).line :=
  (walk_walkBytes rfl (Nat.le_refl _) n text.toList).1

/-- No line starts past the end, so an offset past the end counts as the end. -/
theorem line_ofOffset_eq_countP (text : String) (n : Nat) :
    (ofOffset text n).line = (lineStarts text).countP (· ≤ min n (byteLength text)) := by
  rw [line_ofOffset, line_ofOffsetInBytes]
  apply List.countP_congr
  intro x hx
  have := le_byteLength_of_mem_lineStarts hx
  simp only [decide_eq_true_eq]
  omega

theorem line_ofOffset_eq_count (text : String) (n : Nat) :
    (ofOffset text n).line = 1 + (text.toUTF8.data.toList.take n).count 10 := by
  rw [line_ofOffset, toList_toUTF8]
  exact line_walkBytes_count first n text.toList

theorem ofOffsetInBytes_le (text : String) (n : Nat) :
    (ofOffsetInBytes text n).line ≤ byteLength text + 1 ∧
      (ofOffsetInBytes text n).col ≤ byteLength text + 1 := by
  constructor
  · rw [line_ofOffsetInBytes]
    exact Nat.le_trans List.countP_le_length (length_lineStarts_le text)
  · have := col_walkBytes_le (p := first) Nat.one_pos n text.toList
    rw [Nat.add_comm]
    exact this

end Position

namespace Text

open Position

variable {text : String} {span : Span} {n : Nat}

/-- The offset stands in a line, counted from one: the line starts there or before it, and the next
line, if there is one, starts behind it. -/
structure OnLine (text : String) (line n : Nat) : Prop where
  pos : 0 < line
  started : ∃ start, (lineStarts text)[line - 1]? = some start ∧ start ≤ n
  unfinished : ∀ next, (lineStarts text)[line]? = some next → n < next

def Touches (text : String) (span : Span) (line : Nat) : Prop :=
  ∃ n, span.containsOffset n ∧ OnLine text line n

/-- The block of the lines from the first to the last contains the span, and neither of these two
lines can be left off. -/
structure IsLineRange (text : String) (span : Span) (range : Nat × Nat) : Prop where
  le : range.1 ≤ range.2
  start : lineStart text (range.1 - 1) ≤ span.start
  stop : span.stop ≤ lineStart text range.2
  first : Touches text span range.1
  last : Touches text span range.2

theorem onLine_ofOffsetInBytes (text : String) (n : Nat) :
    OnLine text (ofOffsetInBytes text n).line n := by
  have hsorted := pairwise_lineStarts text
  have hpos := line_ofOffsetInBytes_pos text n
  have hline := line_ofOffsetInBytes text n
  have hlt : (ofOffsetInBytes text n).line - 1 < (lineStarts text).length := by
    have := List.countP_le_length (p := (· ≤ n)) (l := lineStarts text)
    omega
  refine ⟨hpos, ⟨_, List.getElem?_eq_getElem hlt, ?_⟩, fun next hnext => ?_⟩
  · rw [le_iff_lt_countP hsorted (List.getElem?_eq_getElem hlt), ← hline]
    omega
  · have := le_iff_lt_countP (n := n) hsorted hnext
    omega

theorem containsOffset_last (h : span.start ≤ span.stop) :
    span.containsOffset (max (span.stop - 1) span.start) := by
  unfold Span.containsOffset
  split
  next he =>
    simp only [Span.isEmpty, beq_iff_eq] at he ⊢
    omega
  next he =>
    simp only [Span.isEmpty, beq_iff_eq, Bool.and_eq_true, decide_eq_true_eq] at he ⊢
    omega

theorem containsOffset_start (h : span.start ≤ span.stop) : span.containsOffset span.start := by
  unfold Span.containsOffset
  split
  next => simp
  next he =>
    simp only [Span.isEmpty, beq_iff_eq, Bool.and_eq_true, decide_eq_true_eq] at he ⊢
    omega

theorem isLineRange_lineRange (h : span.start ≤ span.stop) (hlen : span.stop ≤ byteLength text) :
    IsLineRange text span (lineRange text span) := by
  have hstart := lineAt_add_one text span.start
  have hlast := lineAt_add_one text (max (span.stop - 1) span.start)
  constructor
  · have hle : lineAt text span.start ≤ lineAt text (max (span.stop - 1) span.start) :=
      lineAt_mono (Nat.le_max_right _ _)
    simp only [lineRange]
    omega
  · exact lineStart_lineAt_le text span.start
  · have := min_le_lineStart_succ text (max (span.stop - 1) span.start)
    rw [hlast] at this
    simp only [lineRange]
    omega
  · exact ⟨_, containsOffset_start h, onLine_ofOffsetInBytes text _⟩
  · exact ⟨_, containsOffset_last h, onLine_ofOffsetInBytes text _⟩

/-- The line of an offset is the same by characters, by bytes, in the table of line starts and by
the line feeds among the bytes. The line range of a span is the least block of lines around it. All
numbers fit into 32 bits if the text has fewer than `2³² - 1` bytes. -/
theorem lines_agree (text : String) :
    (∀ n, (ofOffsetInBytes text n).line = (ofOffset text n).line ∧
      (ofOffset text n).line = (lineStarts text).countP (· ≤ min n (byteLength text)) ∧
      (ofOffset text n).line = 1 + (text.toUTF8.data.toList.take n).count 10) ∧
    (∀ span : Span, span.start ≤ span.stop → span.stop ≤ byteLength text →
      IsLineRange text span (lineRange text span)) ∧
    (byteLength text < Decimal.word32 - 1 → ∀ n,
      (ofOffsetInBytes text n).line < Decimal.word32 ∧
      (ofOffsetInBytes text n).col < Decimal.word32 ∧ (ofOffset text n).col < Decimal.word32) := by
  refine ⟨fun n => ?_, fun span => isLineRange_lineRange, fun hlen n => ?_⟩
  · exact ⟨(line_ofOffset text n).symm, line_ofOffset_eq_countP text n,
      line_ofOffset_eq_count text n⟩
  · obtain ⟨hline, hcol⟩ := ofOffsetInBytes_le text n
    have hle := (walk_walkBytes (p := first) rfl (Nat.le_refl _) n text.toList).2
    rw [← ofOffset, ← ofOffsetInBytes] at hle
    omega

/-- A span from within a letter of two bytes up to the end of the text, behind the last break. -/
theorem lines_agree_sample :
    ((ofOffsetInBytes "é\nb\n" 1).line = (ofOffset "é\nb\n" 1).line ∧
      (ofOffset "é\nb\n" 9).line = (lineStarts "é\nb\n").countP (· ≤ 5)) ∧
    (lineRange "é\nb\n" ⟨1, 5⟩ = (1, 2) ∧ IsLineRange "é\nb\n" ⟨1, 5⟩ (1, 2)) ∧
    (lineRange "é\nb\n" ⟨5, 5⟩ = (3, 3) ∧ IsLineRange "é\nb\n" ⟨5, 5⟩ (3, 3)) ∧
    (byteLength "é\nb\n" < Decimal.word32 - 1 ∧ (ofOffset "é\nb\n" 9).col < Decimal.word32) := by
  obtain ⟨hlines, hrange, hfit⟩ := lines_agree "é\nb\n"
  have hlen : byteLength "é\nb\n" < Decimal.word32 - 1 := by decide
  exact ⟨⟨(hlines 1).1, (hlines 9).2.1⟩,
    ⟨by decide, hrange ⟨1, 5⟩ (by decide) (by decide)⟩,
    ⟨by decide, hrange ⟨5, 5⟩ (by decide) (by decide)⟩, hlen, (hfit hlen 9).2.2⟩

end Text

end JavaRefactor
