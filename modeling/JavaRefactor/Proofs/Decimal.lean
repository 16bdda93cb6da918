import JavaRefactor.Text.Decimal

/-! # Digits of numbers

The digits of a number are digits, begin with a zero for zero alone, and are read as the number.
-/

namespace JavaRefactor.Decimal

theorem digits?_eq {cs : List Char} (h : ∀ c ∈ cs, c.isDigit) (value : Nat) :
    digits? value cs = some (Nat.ofDigitChars 10 cs value) := by
  induction cs generalizing value with
  | nil => rfl
  | cons c cs ih =>
    obtain ⟨hc, hcs⟩ := List.forall_mem_cons.mp h
    simp [digits?, digit?, hc, ih hcs, Nat.ofDigitChars]

theorem isDigit_of_mem_ofNat {n : Nat} {c : Char} (h : c ∈ ofNat n) : c.isDigit :=
  Nat.isDigit_of_mem_toDigits (by decide) (by decide) h

theorem ofNat_ne_nil (n : Nat) : ofNat n ≠ [] :=
  List.ne_nil_of_length_pos Nat.length_toDigits_pos

theorem natural?_ofNat (n : Nat) : natural? (ofNat n) = some n := by
  have hdigits := digits?_eq (fun c hc => isDigit_of_mem_ofNat (n := n) hc) 0
  rw [ofNat, Nat.ofDigitChars_toDigits (by decide) (by decide), ← ofNat] at hdigits
  unfold natural?
  split
  next h => exact absurd h (ofNat_ne_nil n)
  next => exact hdigits

theorem head?_ofNat_ne_zero {n : Nat} (h : 0 < n) : (ofNat n).head? ≠ some '0' := by
  induction n using Nat.strongRecOn with
  | ind n ih =>
    rw [ofNat, Nat.toDigits_eq_if (by decide)]
    split
    next => simpa using Nat.ne_of_gt h
    next hn =>
      have hrec := ih (n / 10) (by omega) (by omega)
      have hne := ofNat_ne_nil (n / 10)
      rw [ofNat] at hrec hne
      simpa [List.head?_append, List.head?_eq_some_head hne] using hrec

end JavaRefactor.Decimal
