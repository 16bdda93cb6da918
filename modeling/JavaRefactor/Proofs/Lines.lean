import JavaRefactor.Proofs.Cut
import JavaRefactor.Text.Position

/-! # Lines and columns of offsets

Cut at an offset, a text ends in an unfinished line. The line starts where the part before it
ends, and the column is the number of characters of the unfinished line. So a position leads back
to the offset it was made from.
-/

namespace JavaRefactor

namespace Text

variable {a b cs last : List Char} {m n : Nat}

theorem startsAfterBreaks_append (n : Nat) (a b : List Char) :
    startsAfterBreaks n (a ++ b) = startsAfterBreaks n a ++ startsAfterBreaks (n + width a) b := by
  induction a generalizing n with
  | nil => simp [startsAfterBreaks]
  | cons c a ih =>
    simp only [List.cons_append, startsAfterBreaks, ih, width_cons, Nat.add_assoc]
    split <;> simp

theorem length_startsAfterBreaks (n : Nat) (cs : List Char) :
    (startsAfterBreaks n cs).length = cs.count '\n' := by
  induction cs generalizing n with
  | nil => rfl
  | cons c cs ih =>
    simp only [startsAfterBreaks, List.count_cons, beq_iff_eq]
    split <;> simp [ih]

theorem length_le_width (cs : List Char) : cs.length ≤ width cs := by
  induction cs with
  | nil => exact Nat.le_refl _
  | cons c cs ih =>
    have hc := c.utf8Size_pos
    simp only [List.length_cons, width_cons]
    omega

/-- What comes before a line: nothing, or a text that ends in a break. -/
def EndsLine (a : List Char) : Prop := a = [] ∨ ∃ x, a = x ++ ['\n']

theorem exists_lastLine (cs : List Char) :
    ∃ a last, cs = a ++ last ∧ EndsLine a ∧ '\n' ∉ last := by
  induction cs with
  | nil => exact ⟨[], [], rfl, Or.inl rfl, List.not_mem_nil⟩
  | cons c cs ih =>
    obtain ⟨a, last, rfl, hends, hlast⟩ := ih
    rcases hends with rfl | ⟨x, rfl⟩
    · by_cases hc : c = '\n'
      · exact ⟨[c], last, rfl, Or.inr ⟨[], by simp [hc]⟩, hlast⟩
      · refine ⟨[], c :: last, rfl, Or.inl rfl, ?_⟩
        simp [hlast, Ne.symm hc]
    · exact ⟨c :: x ++ ['\n'], last, rfl, Or.inr ⟨c :: x, rfl⟩, hlast⟩

theorem getElem?_lineStarts {text : String} (h : text.toList = a ++ b) (ha : EndsLine a) :
    (lineStarts text)[a.count '\n']? = some (width a) := by
  rcases ha with rfl | ⟨x, rfl⟩
  · rfl
  · have hx := length_startsAfterBreaks 0 x
    simp [lineStarts, h, startsAfterBreaks_append, startsAfterBreaks, ← hx]

theorem columnWidth?_append (h : '\n' ∉ last) (b : List Char) :
    columnWidth? last.length (last ++ b) = some (width last) := by
  induction last with
  | nil => cases b <;> rfl
  | cons c last ih =>
    obtain ⟨hc, hlast⟩ := List.ne_and_not_mem_of_not_mem_cons h
    simp [columnWidth?, Ne.symm hc, ih hlast]

end Text

namespace Position

open Text

variable {a b last : List Char} {p : Position} {text : String} {n : Nat}

theorem walk_append (p : Position) (a b : List Char) :
    p.walk (width a) (a ++ b) = a.foldl advance p := by
  induction a generalizing p with
  | nil => cases b <;> rfl
  | cons c a ih =>
    have hc := c.utf8Size_pos
    obtain ⟨k, hk⟩ : ∃ k, width (c :: a) = k + 1 := ⟨width (c :: a) - 1, by simp; omega⟩
    have hrest : k + 1 - c.utf8Size = width a := by
      rw [← hk, width_cons]
      omega
    rw [hk, List.cons_append, walk, hrest, ih, List.foldl_cons]

theorem line_foldl_advance (p : Position) (a : List Char) :
    (a.foldl advance p).line = p.line + a.count '\n' := by
  induction a generalizing p with
  | nil => rfl
  | cons c a ih =>
    simp only [List.foldl_cons, ih, advance, List.count_cons, beq_iff_eq]
    split <;> simp
    omega

theorem foldl_advance_last (h : '\n' ∉ last) (p : Position) :
    last.foldl advance p = ⟨p.line, p.col + last.length⟩ := by
  induction last generalizing p with
  | nil => rfl
  | cons c last ih =>
    obtain ⟨hc, hlast⟩ := List.ne_and_not_mem_of_not_mem_cons h
    rw [List.foldl_cons, ih hlast, advance, if_neg (Ne.symm hc)]
    simp
    omega

theorem foldl_advance_endsLine (h : EndsLine a) :
    a.foldl advance first = ⟨a.count '\n' + 1, 1⟩ := by
  have hline := line_foldl_advance first a
  have hcol : (a.foldl advance first).col = 1 := by
    rcases h with rfl | ⟨x, rfl⟩
    · rfl
    · simp [advance]
  generalize a.foldl advance first = q at hline hcol
  obtain ⟨line, col⟩ := q
  simp only [first] at hline hcol
  simp [hcol, hline, Nat.add_comm]

theorem ofOffset_eq (h : text.toList = a ++ (last ++ b)) (ha : EndsLine a) (hlast : '\n' ∉ last) :
    ofOffset text (width (a ++ last)) = ⟨a.count '\n' + 1, last.length + 1⟩ := by
  rw [ofOffset, h, ← List.append_assoc, walk_append, List.foldl_append, foldl_advance_endsLine ha,
    foldl_advance_last hlast, Nat.add_comm 1]

theorem toOffset?_ofOffset (h : IsBoundary text.toList n) :
    (ofOffset text n).toOffset? text = some n := by
  obtain ⟨cs, b, hcs, rfl⟩ := h
  obtain ⟨a, last, rfl, ha, hlast⟩ := exists_lastLine cs
  rw [List.append_assoc] at hcs
  rw [ofOffset_eq hcs ha hlast]
  simp [toOffset?, getElem?_lineStarts hcs ha, hcs, splitAt?_append, columnWidth?_append hlast]

theorem ofOffset_le (h : IsBoundary text.toList n) :
    (ofOffset text n).line ≤ byteLength text + 1 ∧ (ofOffset text n).col ≤ byteLength text + 1 := by
  obtain ⟨cs, b, hcs, rfl⟩ := h
  obtain ⟨a, last, rfl, ha, hlast⟩ := exists_lastLine cs
  rw [List.append_assoc] at hcs
  rw [ofOffset_eq hcs ha hlast, byteLength, hcs]
  have hcount := List.count_le_length (a := '\n') (l := a)
  have hwa := length_le_width a
  have hwl := length_le_width last
  simp only [width_append]
  omega

end Position

end JavaRefactor
