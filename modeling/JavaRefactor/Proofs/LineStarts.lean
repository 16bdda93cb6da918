import JavaRefactor.Proofs.Lines
import JavaRefactor.Searching

/-! # Lines of byte offsets

The lines of a text start in ascending order, each between two characters. An offset lies in the
last of the lines that start at it or before it, also if the offset cuts a character.
-/

namespace JavaRefactor

namespace Text

variable {a b cs : List Char} {text : String} {m n i j off x : Nat} {l : List Nat}

theorem lt_of_mem_startsAfterBreaks (h : x ∈ startsAfterBreaks off cs) : off < x := by
  induction cs generalizing off with
  | nil => simp [startsAfterBreaks] at h
  | cons c cs ih =>
    have hc := c.utf8Size_pos
    simp only [startsAfterBreaks] at h
    split at h
    · rcases List.mem_cons.mp h with rfl | h
      · omega
      · have := ih h
        omega
    · have := ih h
      omega

theorem pairwise_startsAfterBreaks (off : Nat) (cs : List Char) :
    (startsAfterBreaks off cs).Pairwise (· < ·) := by
  induction cs generalizing off with
  | nil => exact List.Pairwise.nil
  | cons c cs ih =>
    simp only [startsAfterBreaks]
    split
    · exact List.pairwise_cons.mpr ⟨fun x hx => lt_of_mem_startsAfterBreaks hx, ih _⟩
    · exact ih _

theorem isBoundary_append_right (h : IsBoundary b n) : IsBoundary (a ++ b) (width a + n) := by
  obtain ⟨x, y, rfl, rfl⟩ := h
  exact ⟨a ++ x, y, by simp, by simp⟩

theorem isBoundary_of_mem_startsAfterBreaks (h : x ∈ startsAfterBreaks off cs) :
    ∃ n, x = off + n ∧ IsBoundary cs n := by
  induction cs generalizing off with
  | nil => simp [startsAfterBreaks] at h
  | cons c cs ih =>
    have step (h : x ∈ startsAfterBreaks (off + c.utf8Size) cs) :
        ∃ n, x = off + n ∧ IsBoundary (c :: cs) n := by
      obtain ⟨n, rfl, hn⟩ := ih h
      exact ⟨width [c] + n, by simp [Nat.add_assoc], isBoundary_append_right (a := [c]) hn⟩
    simp only [startsAfterBreaks] at h
    split at h
    · rcases List.mem_cons.mp h with rfl | h
      · exact ⟨width [c], by simp, [c], cs, rfl, rfl⟩
      · exact step h
    · exact step h

theorem le_iff_lt_countP (hl : l.Pairwise (· < ·)) (hx : l[i]? = some x) :
    x ≤ n ↔ i < l.countP (· ≤ n) := by
  have htest : l.Pairwise fun a b => decide (b ≤ n) → decide (a ≤ n) := by
    apply hl.imp
    intro a b hab hb
    simp only [decide_eq_true_eq] at hb ⊢
    omega
  rw [← test_iff_lt_countP htest hx, decide_eq_true_iff]

/-- The offset at which a line starts, counted from zero, or the end of the text. -/
def lineStart (text : String) (i : Nat) : Nat := (lineStarts text).getD i (byteLength text)

def lineAt (text : String) (n : Nat) : Nat := (Position.ofOffsetInBytes text n).line - 1

theorem isBoundary_of_mem_lineStarts (h : x ∈ lineStarts text) : IsBoundary text.toList x := by
  rcases List.mem_cons.mp h with rfl | h
  · exact isBoundary_zero _
  · obtain ⟨n, rfl, hn⟩ := isBoundary_of_mem_startsAfterBreaks h
    rwa [Nat.zero_add]

theorem pairwise_lineStarts (text : String) : (lineStarts text).Pairwise (· < ·) :=
  List.pairwise_cons.mpr
    ⟨fun _ hx => lt_of_mem_startsAfterBreaks hx, pairwise_startsAfterBreaks 0 _⟩

/-- A line starts at one of the line starts, or there is no such line. -/
theorem lineStart_cases (text : String) (i : Nat) :
    (lineStarts text)[i]? = some (lineStart text i) ∨
      (lineStarts text).length ≤ i ∧ lineStart text i = byteLength text := by
  rw [lineStart, List.getD_eq_getElem?_getD]
  cases h : (lineStarts text)[i]? with
  | none => exact Or.inr ⟨List.getElem?_eq_none_iff.mp h, rfl⟩
  | some x => exact Or.inl rfl

theorem isBoundary_lineStart (text : String) (i : Nat) :
    IsBoundary text.toList (lineStart text i) := by
  rcases lineStart_cases text i with h | ⟨-, h⟩
  · exact isBoundary_of_mem_lineStarts (List.mem_of_getElem? h)
  · rw [h]
    exact isBoundary_width _

theorem lineStart_mono (text : String) (h : i ≤ j) : lineStart text i ≤ lineStart text j := by
  rcases lineStart_cases text j with hj | ⟨-, hj⟩
  · rcases lineStart_cases text i with hi | ⟨hi, -⟩
    · rcases Nat.eq_or_lt_of_le h with rfl | hlt
      · exact Nat.le_refl _
      · obtain ⟨hi', hi⟩ := List.getElem?_eq_some_iff.mp hi
        obtain ⟨hj', hj⟩ := List.getElem?_eq_some_iff.mp hj
        rw [← hi, ← hj]
        exact Nat.le_of_lt (List.pairwise_iff_getElem.mp (pairwise_lineStarts text) i j hi' hj' hlt)
    · have := (List.getElem?_eq_some_iff.mp hj).1
      omega
  · rw [hj]
    exact (isBoundary_lineStart text i).le_width

end Text

namespace Position

open Text

theorem line_walkBytes (p : Position) (n off : Nat) (cs : List Char) :
    (p.walkBytes n cs).line = p.line + (startsAfterBreaks off cs).countP (· ≤ off + n) := by
  induction cs generalizing p n off with
  | nil => cases n <;> simp [walkBytes, startsAfterBreaks]
  | cons c cs ih =>
    cases n with
    | zero =>
      have hzero : (startsAfterBreaks off (c :: cs)).countP (· ≤ off + 0) = 0 := by
        rw [List.countP_eq_zero]
        intro x hx
        have := lt_of_mem_startsAfterBreaks hx
        simpa using this
      rw [hzero]
      rfl
    | succ n =>
      -- a character that is cut is no line break, and no line starts within the reach behind it
      have hreach : (startsAfterBreaks (off + c.utf8Size) cs).countP
          (· ≤ off + c.utf8Size + (n + 1 - c.utf8Size)) =
            (startsAfterBreaks (off + c.utf8Size) cs).countP (· ≤ off + (n + 1)) := by
        apply List.countP_congr
        intro x hx
        have := lt_of_mem_startsAfterBreaks hx
        simp only [decide_eq_true_eq]
        omega
      rw [walkBytes, ih _ _ (off + c.utf8Size), hreach, startsAfterBreaks]
      by_cases hc : c = '\n'
      · have hsize : c.utf8Size ≤ n + 1 := by
          rw [hc]
          exact Nat.le_add_left 1 n
        simp only [hc] at hsize ⊢
        simp [hsize]
        omega
      · simp [hc]

theorem line_ofOffsetInBytes (text : String) (n : Nat) :
    (ofOffsetInBytes text n).line = (lineStarts text).countP (· ≤ n) := by
  rw [ofOffsetInBytes, line_walkBytes first n 0, lineStarts, Nat.zero_add]
  simp [first, Nat.add_comm]

end Position

namespace Text

open Position

variable {text : String} {m n : Nat}

theorem line_ofOffsetInBytes_pos (text : String) (n : Nat) : 0 < (ofOffsetInBytes text n).line := by
  rw [line_ofOffsetInBytes, lineStarts]
  simp

theorem lineAt_add_one (text : String) (n : Nat) :
    lineAt text n + 1 = (ofOffsetInBytes text n).line :=
  Nat.sub_add_cancel (line_ofOffsetInBytes_pos text n)

theorem lineAt_eq (text : String) (n : Nat) :
    lineAt text n + 1 = (lineStarts text).countP (· ≤ n) := by
  rw [lineAt_add_one, line_ofOffsetInBytes]

theorem lineAt_mono (h : m ≤ n) : lineAt text m ≤ lineAt text n := by
  have hcount : (lineStarts text).countP (· ≤ m) ≤ (lineStarts text).countP (· ≤ n) := by
    apply List.countP_mono_left
    intro x _ hx
    simp only [decide_eq_true_eq] at hx ⊢
    omega
  rw [← lineAt_eq, ← lineAt_eq] at hcount
  omega

theorem lineStart_lineAt_le (text : String) (n : Nat) : lineStart text (lineAt text n) ≤ n := by
  have hcount := lineAt_eq text n
  rcases lineStart_cases text (lineAt text n) with h | ⟨h, -⟩
  · rw [le_iff_lt_countP (pairwise_lineStarts text) h]
    omega
  · have := List.countP_le_length (p := (· ≤ n)) (l := lineStarts text)
    omega

theorem min_le_lineStart_succ (text : String) (n : Nat) :
    min (n + 1) (byteLength text) ≤ lineStart text (lineAt text n + 1) := by
  rcases lineStart_cases text (lineAt text n + 1) with h | ⟨-, h⟩
  · have hle := le_iff_lt_countP (n := n) (pairwise_lineStarts text) h
    rw [← lineAt_eq] at hle
    omega
  · omega

end Text

end JavaRefactor
