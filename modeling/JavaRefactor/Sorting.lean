/-! # Stable sorting

Lists are sorted by insertion. Items that the order does not tell apart keep the order
in which they stood.
-/

namespace JavaRefactor

variable {α : Type}

/-- Puts an item before the first one that it may stand before. -/
def insertBy (le : α → α → Bool) (a : α) : List α → List α
  | [] => [a]
  | b :: bs => if le a b then a :: b :: bs else b :: insertBy le a bs

/-- Sorts a list. -/
def sortBy (le : α → α → Bool) : List α → List α
  | [] => []
  | a :: as => insertBy le a (sortBy le as)

theorem insertBy_perm (le : α → α → Bool) (a : α) (l : List α) :
    (insertBy le a l).Perm (a :: l) := by
  induction l with
  | nil => exact .refl _
  | cons b bs ih =>
    simp only [insertBy]
    split
    · exact .refl _
    · exact (ih.cons b).trans (.swap a b bs)

theorem sortBy_perm (le : α → α → Bool) (l : List α) : (sortBy le l).Perm l := by
  induction l with
  | nil => exact .refl _
  | cons a as ih => exact (insertBy_perm le a _).trans (ih.cons a)

@[simp]
theorem mem_sortBy (le : α → α → Bool) {a : α} {l : List α} : a ∈ sortBy le l ↔ a ∈ l :=
  (sortBy_perm le l).mem_iff

theorem pairwise_insertBy {le : α → α → Bool} (total : ∀ a b, le a b || le b a)
    (trans : ∀ a b c, le a b → le b c → le a c) (a : α) {l : List α}
    (h : l.Pairwise fun x y => le x y) : (insertBy le a l).Pairwise fun x y => le x y := by
  induction l with
  | nil => simp [insertBy]
  | cons b bs ih =>
    obtain ⟨hb, hs⟩ := List.pairwise_cons.mp h
    simp only [insertBy]
    split
    next hab =>
      refine List.pairwise_cons.mpr ⟨fun c hc => ?_, h⟩
      rcases List.mem_cons.mp hc with rfl | hc
      · exact hab
      · exact trans a b c hab (hb c hc)
    next hab =>
      refine List.pairwise_cons.mpr ⟨fun c hc => ?_, ih hs⟩
      rcases List.mem_cons.mp ((insertBy_perm le a bs).mem_iff.mp hc) with rfl | hc
      · have := total c b
        simp_all
      · exact hb c hc

theorem pairwise_sortBy {le : α → α → Bool} (total : ∀ a b, le a b || le b a)
    (trans : ∀ a b c, le a b → le b c → le a c) (l : List α) :
    (sortBy le l).Pairwise fun x y => le x y := by
  induction l with
  | nil => exact .nil
  | cons a as ih => exact pairwise_insertBy total trans a ih

theorem pairwise_sortBy_le (key : α → Nat) (l : List α) :
    (sortBy (fun a b => key a ≤ key b) l).Pairwise fun a b => key a ≤ key b := by
  have total (a b : α) : (decide (key a ≤ key b) || decide (key b ≤ key a)) = true := by
    simp; omega
  have trans (a b c : α) (h : decide (key a ≤ key b) = true) (h' : decide (key b ≤ key c) = true) :
      decide (key a ≤ key c) = true := by
    simp at *; omega
  exact (pairwise_sortBy total trans l).imp of_decide_eq_true

theorem pairwise_sortBy_ge (key : α → Nat) (l : List α) :
    (sortBy (fun a b => key b ≤ key a) l).Pairwise fun a b => key b ≤ key a := by
  have total (a b : α) : (decide (key b ≤ key a) || decide (key a ≤ key b)) = true := by
    simp; omega
  have trans (a b c : α) (h : decide (key b ≤ key a) = true) (h' : decide (key c ≤ key b) = true) :
      decide (key c ≤ key a) = true := by
    simp at *; omega
  exact (pairwise_sortBy total trans l).imp of_decide_eq_true

end JavaRefactor
