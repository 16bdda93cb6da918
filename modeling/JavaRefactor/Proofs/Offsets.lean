import Mathlib.Order.Bounds.Defs
import JavaRefactor.Proofs.Lines
import JavaRefactor.Text.Decimal

/-! # Positions and offsets

The positions of a text are those of the places between its characters, one for each place. An
offset that cuts a character has the position of the place behind the character, and an offset past
the text that of its end.
-/

namespace JavaRefactor

namespace Text

variable {cs : List Char} {text : String} {i m n off : Nat}

theorem exists_of_getElem?_startsAfterBreaks (h : (startsAfterBreaks off cs)[i]? = some m) :
    ∃ x b, cs = (x ++ ['\n']) ++ b ∧ x.count '\n' = i ∧ off + width (x ++ ['\n']) = m := by
  induction cs generalizing off i with
  | nil => simp [startsAfterBreaks] at h
  | cons c cs ih =>
    rw [startsAfterBreaks] at h
    split at h
    next hc =>
      subst hc
      cases i with
      | zero => exact ⟨[], cs, rfl, rfl, by simpa using h⟩
      | succ i =>
        obtain ⟨x, b, rfl, rfl, rfl⟩ := ih (by simpa using h)
        exact ⟨'\n' :: x, b, by simp, by simp, by simp [Nat.add_assoc]⟩
    next hc =>
      obtain ⟨x, b, rfl, rfl, rfl⟩ := ih h
      exact ⟨c :: x, b, by simp, by simp [hc], by simp [Nat.add_assoc]⟩

theorem exists_of_getElem?_lineStarts (h : (lineStarts text)[i]? = some m) :
    ∃ a b, text.toList = a ++ b ∧ EndsLine a ∧ a.count '\n' = i ∧ width a = m := by
  cases i with
  | zero => exact ⟨[], text.toList, rfl, Or.inl rfl, rfl, by simpa [lineStarts] using h⟩
  | succ i =>
    obtain ⟨x, b, hx, rfl, rfl⟩ :=
      exists_of_getElem?_startsAfterBreaks (by simpa [lineStarts] using h)
    exact ⟨x ++ ['\n'], b, hx, Or.inr ⟨x, rfl⟩, by simp, by simp⟩

theorem exists_of_columnWidth? (h : columnWidth? n cs = some m) :
    ∃ last b, cs = last ++ b ∧ '\n' ∉ last ∧ last.length = n ∧ width last = m := by
  induction cs generalizing n m with
  | nil =>
    cases n with
    | zero => exact ⟨[], [], rfl, List.not_mem_nil, rfl, Option.some.inj h⟩
    | succ n => cases h
  | cons c cs ih =>
    cases n with
    | zero => exact ⟨[], c :: cs, rfl, List.not_mem_nil, rfl, Option.some.inj h⟩
    | succ n =>
      rw [columnWidth?] at h
      split at h
      next => cases h
      next hc =>
        obtain ⟨k, hk, rfl⟩ := Option.map_eq_some_iff.mp h
        obtain ⟨last, b, rfl, hlast, rfl, rfl⟩ := ih hk
        exact ⟨c :: last, b, rfl, by simp [hlast, Ne.symm hc], rfl, rfl⟩

end Text

namespace Position

open Text

variable {p : Position} {text : String} {n : Nat}

theorem of_toOffset?_eq_some (h : p.toOffset? text = some n) :
    IsBoundary text.toList n ∧ ofOffset text n = p := by
  obtain ⟨line, col⟩ := p
  unfold toOffset? at h
  split at h
  next line' col' hline hcol =>
    simp only at hline hcol
    subst hline hcol
    split at h
    next => cases h
    next start hstart =>
      split at h
      next => cases h
      next x rest hcut =>
        obtain ⟨k, hk, rfl⟩ := Option.map_eq_some_iff.mp h
        obtain ⟨a, b, hab, ha, rfl, rfl⟩ := exists_of_getElem?_lineStarts hstart
        obtain ⟨hx, hwidth⟩ := splitAt?_sound hcut
        obtain ⟨rfl, rfl⟩ := append_inj_of_width (hx.symm.trans hab) hwidth
        obtain ⟨last, c, rfl, hlast, rfl, rfl⟩ := exists_of_columnWidth? hk
        refine ⟨⟨x ++ last, c, by rw [hab, List.append_assoc], by simp⟩, ?_⟩
        rw [← width_append]
        exact ofOffset_eq hab ha hlast
  next => cases h

/-- A walk passes the characters up to the first place that is far enough, or all. -/
theorem exists_walk (p : Position) (n : Nat) (cs : List Char) :
    ∃ a b, cs = a ++ b ∧ p.walk n cs = a.foldl advance p ∧ min n (width cs) ≤ width a ∧
      ∀ m, IsBoundary cs m → min n (width cs) ≤ m → width a ≤ m := by
  induction cs generalizing p n with
  | nil => exact ⟨[], [], rfl, by cases n <;> rfl, by simp, by simp⟩
  | cons c cs ih =>
    cases n with
    | zero => exact ⟨[], c :: cs, rfl, rfl, by simp, by simp⟩
    | succ n =>
      obtain ⟨a, b, rfl, hwalk, hle, hleast⟩ := ih (p.advance c) (n + 1 - c.utf8Size)
      have hc := c.utf8Size_pos
      refine ⟨c :: a, b, rfl, hwalk, by simp only [width_cons]; omega, ?_⟩
      rintro m ⟨x, y, hxy, rfl⟩ hm
      cases x with
      | nil =>
        simp only [width_cons, width_nil] at hm
        omega
      | cons d x =>
        obtain ⟨rfl, htail⟩ := List.cons.inj hxy
        have := hleast (width x) ⟨x, y, htail, rfl⟩
        simp only [width_cons] at hm ⊢
        omega

theorem exists_ofOffset_eq (text : String) (n : Nat) :
    ∃ m, IsLeast {m | IsBoundary text.toList m ∧ min n (byteLength text) ≤ m} m ∧
      ofOffset text n = ofOffset text m := by
  obtain ⟨a, b, hab, hwalk, hle, hleast⟩ := exists_walk first n text.toList
  refine ⟨width a, ⟨⟨⟨a, b, hab, rfl⟩, hle⟩, fun m hm => hleast m hm.1 hm.2⟩, ?_⟩
  have hend : ofOffset text (width a) = a.foldl advance first := by
    rw [ofOffset, hab]
    exact walk_append first a b
  rw [hend]
  exact hwalk

/-- Positions and the places between characters correspond to each other: a place is found at its
position, and only there. Any other offset is taken for the next place. The numbers of all positions
fit into 32 bits if the text has fewer than `2³² - 1` bytes. -/
theorem offset_position_inverse (text : String) :
    (∀ n, IsBoundary text.toList n → (ofOffset text n).toOffset? text = some n) ∧
    (∀ p n, p.toOffset? text = some n → IsBoundary text.toList n ∧ ofOffset text n = p) ∧
    (∀ n, ∃ m, IsLeast {m | IsBoundary text.toList m ∧ min n (byteLength text) ≤ m} m ∧
      (ofOffset text n).toOffset? text = some m) ∧
    (byteLength text < Decimal.word32 - 1 → ∀ n,
      (ofOffset text n).line < Decimal.word32 ∧ (ofOffset text n).col < Decimal.word32) := by
  refine ⟨fun n => toOffset?_ofOffset, fun p n => of_toOffset?_eq_some, fun n => ?_,
    fun hlen n => ?_⟩
  · obtain ⟨m, hm, he⟩ := exists_ofOffset_eq text n
    exact ⟨m, hm, by rw [he, toOffset?_ofOffset hm.1.1]⟩
  · obtain ⟨m, hm, he⟩ := exists_ofOffset_eq text n
    obtain ⟨hline, hcol⟩ := ofOffset_le hm.1.1
    rw [he]
    omega

/-- A letter of two bytes before a line break: the offset inside it stands for the place behind. -/
theorem offset_position_inverse_sample :
    (IsBoundary "é\nb".toList 2 ∧ (ofOffset "é\nb" 2).toOffset? "é\nb" = some 2) ∧
    (toOffset? ⟨2, 2⟩ "é\nb" = some 4 ∧ ofOffset "é\nb" 4 = ⟨2, 2⟩) ∧
    ((ofOffset "é\nb" 1).toOffset? "é\nb" = some 2 ∧
      IsLeast {m | IsBoundary "é\nb".toList m ∧ min 1 (byteLength "é\nb") ≤ m} 2) ∧
    (byteLength "é\nb" < Decimal.word32 - 1 ∧ (ofOffset "é\nb" 9).line < Decimal.word32) := by
  obtain ⟨hto, hof, hnext, hfit⟩ := offset_position_inverse "é\nb"
  have hcut : IsBoundary "é\nb".toList 2 := ⟨['é'], ['\n', 'b'], by decide, by decide⟩
  have hlen : byteLength "é\nb" < Decimal.word32 - 1 := by decide
  have hpos : toOffset? ⟨2, 2⟩ "é\nb" = some 4 := by decide
  have hone : (ofOffset "é\nb" 1).toOffset? "é\nb" = some 2 := by decide
  obtain ⟨m, hleast, hm⟩ := hnext 1
  obtain rfl : m = 2 := Option.some.inj (hm.symm.trans hone)
  exact ⟨⟨hcut, hto 2 hcut⟩, ⟨hpos, (hof _ _ hpos).2⟩, ⟨hone, hleast⟩, hlen, (hfit hlen 9).1⟩

end Position

end JavaRefactor
