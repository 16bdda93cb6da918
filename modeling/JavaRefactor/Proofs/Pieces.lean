import JavaRefactor.Edit.Diff
import JavaRefactor.Proofs.LineStarts
import JavaRefactor.Text.Split

/-! # Texts as lines

A text consists of lines, each ended by a break except perhaps the last. Cutting it into its
lines, into parts between breaks, and at the offset of a line all come to the same.
-/

namespace JavaRefactor

namespace Text

variable {a b cs pre line tail : List Char} {text : String} {n : Nat}

theorem EndsLine.of_append (h : EndsLine (a ++ b)) : EndsLine b := by
  rcases List.eq_nil_or_concat b with rfl | ⟨x, c, rfl⟩
  · exact Or.inl rfl
  · rcases h with h | ⟨y, hy⟩
    · simp at h
    · rw [List.concat_eq_append, ← List.append_assoc] at hy
      obtain ⟨-, hc⟩ := List.append_inj' hy rfl
      exact Or.inr ⟨x, by simpa using hc⟩

theorem EndsLine.append (ha : EndsLine a) (hb : EndsLine b) : EndsLine (a ++ b) := by
  rcases hb with rfl | ⟨x, rfl⟩
  · rwa [List.append_nil]
  · exact Or.inr ⟨a ++ x, by simp⟩

theorem EndsLine.of_line {c : Char} (h : EndsLine (a ++ c :: b)) : EndsLine b := by
  have : EndsLine ((a ++ [c]) ++ b) := by simpa using h
  exact this.of_append

theorem EndsLine.eq_nil (h : EndsLine a) (hcount : a.count '\n' = 0) : a = [] := by
  rcases h with rfl | ⟨x, rfl⟩
  · rfl
  · simp at hcount

theorem EndsLine.exists_append {c d : List Char} (ha : EndsLine a) (hb : EndsLine b)
    (h : a ++ c = b ++ d) (hle : a.count '\n' ≤ b.count '\n') : ∃ x, b = a ++ x ∧ EndsLine x := by
  rcases List.append_eq_append_iff.mp h with ⟨x, rfl, -⟩ | ⟨x, rfl, -⟩
  · exact ⟨x, rfl, hb.of_append⟩
  · have hx : x = [] := by
      apply ha.of_append.eq_nil
      rw [List.count_append] at hle
      omega
    exact ⟨[], by simp [hx], Or.inl rfl⟩

def IsWholeLine (cs : List Char) : Prop := ∃ line, '\n' ∉ line ∧ cs = line ++ ['\n']

theorem IsWholeLine.count_eq (h : IsWholeLine a) : a.count '\n' = 1 := by
  obtain ⟨line, hline, rfl⟩ := h
  simp [List.count_eq_zero.mpr hline]

theorem IsWholeLine.endsLine_append (h : IsWholeLine a) (b : List Char) : EndsLine (b ++ a) := by
  obtain ⟨line, -, rfl⟩ := h
  exact Or.inr ⟨b ++ line, by simp⟩

theorem exists_firstLine (cs : List Char) :
    ∃ line tail, cs = line ++ tail ∧ '\n' ∉ line ∧ (tail = [] ∨ ∃ rest, tail = '\n' :: rest) := by
  by_cases h : '\n' ∈ cs
  · obtain ⟨line, rest, rfl, hline⟩ := List.eq_append_cons_of_mem h
    exact ⟨line, _, rfl, hline, Or.inr ⟨rest, rfl⟩⟩
  · exact ⟨cs, [], by simp, h, Or.inl rfl⟩

/-- The text has a line between `pre` and `tail`, which begins with the break of the line. -/
structure IsLine (cs pre line tail : List Char) : Prop where
  text : cs = pre ++ (line ++ tail)
  before : EndsLine pre
  line : '\n' ∉ line
  after : tail = [] ∨ ∃ rest, tail = '\n' :: rest

theorem exists_isLine (h : IsBoundary cs n) : ∃ pre line tail, IsLine cs pre line tail ∧
    width pre ≤ n ∧ n ≤ width (pre ++ line) := by
  obtain ⟨a, b, rfl, rfl⟩ := h
  obtain ⟨pre, first, rfl, hpre, hfirst⟩ := exists_lastLine a
  obtain ⟨second, tail, rfl, hsecond, htail⟩ := exists_firstLine b
  refine ⟨pre, first ++ second, tail, ⟨by simp, hpre, by simp [hfirst, hsecond], htail⟩, ?_, ?_⟩
  · simp
  · simp only [width_append]
    omega

namespace IsLine

variable {pre' line' tail' : List Char}

theorem next {rest : List Char} (h : IsLine cs pre line ('\n' :: rest)) :
    ∃ line' tail', IsLine cs (pre ++ (line ++ ['\n'])) line' tail' := by
  obtain ⟨line', tail', rfl, hline, htail⟩ := exists_firstLine rest
  exact ⟨line', tail', by simp [h.text], Or.inr ⟨pre ++ line, by simp⟩, hline, htail⟩

/-- A line before another one has a break, and the other one stands behind that. -/
theorem exists_between (h : IsLine cs pre line tail) (h' : IsLine cs pre' line' tail')
    (hlt : pre.count '\n' < pre'.count '\n') :
    ∃ rest x, tail = '\n' :: rest ∧ pre' = (pre ++ (line ++ ['\n'])) ++ x := by
  have hline : line.count '\n' = 0 := List.count_eq_zero.mpr h.line
  have htext := h.text.symm.trans h'.text
  rcases h.after with rfl | ⟨rest, rfl⟩
  · have hcount := congrArg (List.count '\n') htext
    simp only [List.count_append, List.count_nil, hline] at hcount
    omega
  · have hends : EndsLine (pre ++ (line ++ ['\n'])) := Or.inr ⟨pre ++ line, by simp⟩
    have hcount : (pre ++ (line ++ ['\n'])).count '\n' ≤ pre'.count '\n' := by
      simpa [hline] using Nat.succ_le_of_lt hlt
    have hsplit : (pre ++ (line ++ ['\n'])) ++ rest = pre' ++ (line' ++ tail') := by
      simpa using htext
    obtain ⟨x, hx, -⟩ := hends.exists_append h'.before hsplit hcount
    exact ⟨rest, x, rfl, hx⟩

variable (h : IsLine text.toList pre line tail)
include h

theorem lineAt_eq (hlow : width pre ≤ n) (hhigh : n ≤ width (pre ++ line)) :
    lineAt text n = pre.count '\n' := by
  have hline : startsAfterBreaks (0 + width pre) line = [] := by
    rw [← List.length_eq_zero_iff, length_startsAfterBreaks]
    exact List.count_eq_zero.mpr h.line
  have hpre : (startsAfterBreaks 0 pre).countP (· ≤ n) = pre.count '\n' := by
    rw [← length_startsAfterBreaks 0, List.countP_eq_length]
    intro x hx
    obtain ⟨m, rfl, hm⟩ := isBoundary_of_mem_startsAfterBreaks hx
    have := hm.le_width
    simp only [decide_eq_true_eq]
    omega
  have htail : (startsAfterBreaks (0 + width pre + width line) tail).countP (· ≤ n) = 0 := by
    rw [List.countP_eq_zero]
    intro x hx
    have := lt_of_mem_startsAfterBreaks hx
    rw [width_append] at hhigh
    simp only [decide_eq_true_eq]
    omega
  have hcount := Text.lineAt_eq text n
  rw [lineStarts, h.text, startsAfterBreaks_append, startsAfterBreaks_append, hline,
    List.nil_append, List.countP_cons, List.countP_append, hpre, htail] at hcount
  simpa using hcount

theorem lineStart_eq : lineStart text (pre.count '\n') = width pre := by
  rw [lineStart, List.getD_eq_getElem?_getD, getElem?_lineStarts h.text h.before]
  rfl

theorem lineStart_succ :
    lineStart text (pre.count '\n' + 1) = width (pre ++ (line ++ tail.take 1)) := by
  have hline : line.count '\n' = 0 := List.count_eq_zero.mpr h.line
  rcases h.after with rfl | ⟨rest, rfl⟩
  · have hlength : (lineStarts text).length = pre.count '\n' + 1 := by
      rw [lineStarts, List.length_cons, length_startsAfterBreaks, h.text]
      simp [hline]
    rw [lineStart, List.getD_eq_getElem?_getD, List.getElem?_eq_none_iff.mpr (Nat.le_of_eq hlength)]
    simp [byteLength, h.text]
  · have hbefore : text.toList = (pre ++ (line ++ ['\n'])) ++ rest := by simp [h.text]
    have hstart := getElem?_lineStarts hbefore (Or.inr ⟨pre ++ line, by simp⟩)
    have hcount : (pre ++ (line ++ ['\n'])).count '\n' = pre.count '\n' + 1 := by simp [hline]
    rw [hcount] at hstart
    rw [lineStart, List.getD_eq_getElem?_getD, hstart]
    rfl

theorem bounds_of_lineAt_eq (hn : n ≤ byteLength text) (hline : lineAt text n = pre.count '\n') :
    width pre ≤ n ∧ n ≤ width (pre ++ line) := by
  have hlow := lineStart_lineAt_le text n
  rw [hline, h.lineStart_eq] at hlow
  refine ⟨hlow, ?_⟩
  rcases h.after with rfl | ⟨rest, rfl⟩
  · simpa [byteLength, h.text] using hn
  · apply Nat.le_of_not_lt
    intro hlong
    obtain ⟨line', tail', hnext⟩ := h.next
    have hstart : width (pre ++ (line ++ ['\n'])) ≤ n := by
      have hbreak : '\n'.utf8Size = 1 := by decide
      simp only [width_append, width_cons, width_nil, hbreak] at hlong ⊢
      omega
    have hcount := hnext.lineAt_eq (Nat.le_refl _) (by simp)
    have hmono : lineAt text _ ≤ lineAt text n := lineAt_mono hstart
    rw [hcount, hline, List.count_append, List.count_append, List.count_singleton_self] at hmono
    omega

end IsLine

end Text

namespace Diff

open Text

variable {cs a b line rest : List Char}

theorem pieces_of_not_mem (h : '\n' ∉ line) (hne : line ≠ []) : pieces line = [line] := by
  induction line with
  | nil => exact absurd rfl hne
  | cons c line ih =>
    obtain ⟨hc, hline⟩ := List.ne_and_not_mem_of_not_mem_cons h
    rw [pieces, if_neg (Ne.symm hc)]
    cases line with
    | nil => rfl
    | cons d line => rw [ih hline (by simp)]

theorem pieces_line (h : '\n' ∉ line) (rest : List Char) :
    pieces (line ++ '\n' :: rest) = (line ++ ['\n']) :: pieces rest := by
  induction line with
  | nil => simp [pieces]
  | cons c line ih =>
    obtain ⟨hc, hline⟩ := List.ne_and_not_mem_of_not_mem_cons h
    rw [List.cons_append, pieces, if_neg (Ne.symm hc), ih hline]
    rfl

/-- Every text is empty, a line without a break, or a line with its break and a text behind. -/
theorem line_induction {P : List Char → Prop} (nil : P [])
    (last : ∀ line, line ≠ [] → '\n' ∉ line → P line)
    (cons : ∀ line rest, '\n' ∉ line → P rest → P (line ++ '\n' :: rest)) (cs : List Char) :
    P cs := by
  induction h : cs.length using Nat.strongRecOn generalizing cs with
  | ind n ih =>
    obtain ⟨line, tail, rfl, hline, rfl | ⟨rest, rfl⟩⟩ := exists_firstLine cs
    · rw [List.append_nil]
      by_cases hne : line = []
      · rw [hne]
        exact nil
      · exact last line hne hline
    · refine cons line rest hline (ih rest.length ?_ rest rfl)
      simp at h
      omega

theorem flatten_pieces (cs : List Char) : (pieces cs).flatten = cs := by
  induction cs using line_induction with
  | nil => rfl
  | last line hne h => simp [pieces_of_not_mem h hne]
  | cons line rest h ih => simp [pieces_line h, ih]

theorem pieces_append (ha : EndsLine a) (b : List Char) :
    pieces (a ++ b) = pieces a ++ pieces b := by
  induction a using line_induction with
  | nil => rfl
  | last line hne h =>
    rcases ha with rfl | ⟨x, rfl⟩
    · rfl
    · simp at h
  | cons line rest h ih =>
    rw [List.append_assoc, List.cons_append, pieces_line h, pieces_line h, ih ha.of_line,
      List.cons_append]

theorem length_pieces (ha : EndsLine a) : (pieces a).length = a.count '\n' := by
  induction a using line_induction with
  | nil => rfl
  | last line hne h => exact absurd (ha.eq_nil (List.count_eq_zero.mpr h)) hne
  | cons line rest h ih =>
    simp [pieces_line h, ih ha.of_line, List.count_eq_zero.mpr h]

theorem pieces_wholeLine (h : IsWholeLine line) : pieces line = [line] := by
  obtain ⟨x, hx, rfl⟩ := h
  exact pieces_line hx []

theorem pieces_isLine {pre tail : List Char} (h : IsLine cs pre line tail) :
    pieces (line ++ tail) = pieces (line ++ tail.take 1) ++ pieces (tail.drop 1) := by
  rcases h.after with rfl | ⟨rest, rfl⟩
  · simp [pieces]
  · simp [pieces_line h.line, pieces]

end Diff

end JavaRefactor
