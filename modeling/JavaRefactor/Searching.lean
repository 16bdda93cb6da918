/-! # Binary search

In a list whose first items pass a test and the others do not, the place where the test begins to
fail is found by halving.
-/

namespace JavaRefactor

variable {α : Type}

/-- A place among the `size` ones from `base` on, such that the test begins to fail there or right
behind it. -/
def narrow (test : Nat → Bool) (base size : Nat) : Nat :=
  if size ≤ 1 then base
  else
    let half := size / 2
    if test (base + half) then narrow test (base + half) (size - half)
    else narrow test base (size - half)
termination_by size

/-- The number of items that stand before the first one that fails a test. -/
def partitionPoint (test : α → Bool) (items : Array α) : Nat :=
  let passes (i : Nat) : Bool := items[i]?.any test
  if items.isEmpty then 0
  else
    let last := narrow passes 0 items.size
    if passes last then last + 1 else last

/-- While the halving goes on, the place that is sought stays within its bounds. -/
theorem narrow_spec {test : Nat → Bool} {k base size : Nat} (h : ∀ i, test i ↔ i < k)
    (hsize : 0 < size) (hlow : base ≤ k) (hhigh : k ≤ base + size) :
    narrow test base size ≤ k ∧ k ≤ narrow test base size + 1 := by
  fun_induction narrow test base size with
  | case1 base size hle => omega
  | case2 base size hgt half hpass ih =>
    have hmid := (h (base + half)).mp hpass
    exact ih (by omega) (by omega) (by omega)
  | case3 base size hgt half hfail ih =>
    have hmid := mt (h (base + half)).mpr hfail
    exact ih (by omega) hlow (by omega)

variable {test : α → Bool} {l : List α} {i : Nat} {x : α}

/-- If the items that pass stand first, they are those at the first places. -/
theorem test_iff_lt_countP (hl : l.Pairwise fun a b => test b → test a) (hx : l[i]? = some x) :
    test x ↔ i < l.countP test := by
  induction l generalizing i with
  | nil => simp at hx
  | cons y l ih =>
    obtain ⟨hy, hl⟩ := List.pairwise_cons.mp hl
    by_cases hpass : test y
    · cases i with
      | zero =>
        obtain rfl : y = x := by simpa using hx
        simp [hpass]
      | succ i =>
        rw [ih hl (by simpa using hx)]
        simp [hpass]
    · have hfail : ∀ z ∈ y :: l, ¬ test z := by
        intro z hz
        rcases List.mem_cons.mp hz with rfl | hz
        · exact hpass
        · exact fun hz' => hpass (hy z hz hz')
      rw [List.countP_eq_zero.mpr hfail]
      simpa using hfail x (List.mem_of_getElem? hx)

/-- Halving finds the number of the items that pass. -/
theorem partitionPoint_eq_countP (hl : l.Pairwise fun a b => test b → test a) :
    partitionPoint test l.toArray = l.countP test := by
  have hpass (i : Nat) : l.toArray[i]?.any test ↔ i < l.countP test := by
    rw [List.getElem?_toArray]
    cases hx : l[i]? with
    | none =>
      have := List.countP_le_length (p := test) (l := l)
      have := List.getElem?_eq_none_iff.mp hx
      simp
      omega
    | some x => simpa using test_iff_lt_countP hl hx
  unfold partitionPoint
  simp only [hpass]
  split
  next hempty =>
    obtain rfl : l = [] := by simpa using hempty
    rfl
  next hne =>
    have hsize : 0 < l.toArray.size := by
      simpa [List.length_pos_iff] using hne
    obtain ⟨hle, hge⟩ := narrow_spec hpass hsize (Nat.zero_le _)
      (by simpa using List.countP_le_length)
    split <;> omega

end JavaRefactor
