import JavaRefactor.Text.Utf8

/-! # Cutting texts at byte offsets

A text can be cut at the offsets between its characters and nowhere else. Cuts that
lie within the first part of a text do not depend on what follows.
-/

namespace JavaRefactor.Text

variable {cs ds a b : List Char} {m n : Nat}

@[simp] theorem width_nil : width [] = 0 := rfl

@[simp] theorem width_cons (c : Char) (cs : List Char) : width (c :: cs) = c.utf8Size + width cs :=
  rfl

@[simp] theorem width_append (a b : List Char) : width (a ++ b) = width a + width b := by
  induction a with
  | nil => simp
  | cons c a ih => simp [ih, Nat.add_assoc]

theorem width_eq_zero : width cs = 0 ↔ cs = [] := by
  cases cs with
  | nil => simp
  | cons c cs =>
    have := c.utf8Size_pos
    simp only [width_cons, reduceCtorEq, iff_false]
    omega

theorem append_inj_of_width : ∀ {a a' b b' : List Char}, a ++ b = a' ++ b' →
    width a = width a' → a = a' ∧ b = b'
  | [], a', b, b', h, hw => by
      obtain rfl := width_eq_zero.mp (hw.symm.trans width_nil)
      exact ⟨rfl, h⟩
  | c :: a, [], b, b', _, hw => by
      have := c.utf8Size_pos
      simp only [width_cons, width_nil] at hw
      omega
  | c :: a, c' :: a', b, b', h, hw => by
      simp only [List.cons_append, List.cons.injEq] at h
      obtain ⟨rfl, h⟩ := h
      simp only [width_cons, Nat.add_left_cancel_iff] at hw
      obtain ⟨rfl, rfl⟩ := append_inj_of_width h hw
      exact ⟨rfl, rfl⟩

theorem splitAt?_append (a b : List Char) : splitAt? (a ++ b) (width a) = some (a, b) := by
  induction a with
  | nil => cases b <;> rfl
  | cons c a ih =>
    have hc := c.utf8Size_pos
    obtain ⟨k, hk⟩ : ∃ k, width (c :: a) = k + 1 := ⟨width (c :: a) - 1, by simp; omega⟩
    have hrest : k + 1 - c.utf8Size = width a := by
      rw [← hk, width_cons]; omega
    have hle : c.utf8Size ≤ k + 1 := by rw [← hk, width_cons]; omega
    rw [hk, List.cons_append, splitAt?, if_pos hle, hrest, ih]
    rfl

theorem splitAt?_sound (h : splitAt? cs n = some (a, b)) : cs = a ++ b ∧ width a = n := by
  fun_induction splitAt? cs n generalizing a b with
  | case1 cs => obtain ⟨rfl, rfl⟩ := Prod.mk.inj (Option.some.inj h); simp
  | case2 => simp at h
  | case3 c cs n hle ih =>
    obtain ⟨⟨x, y⟩, hxy, he⟩ := Option.map_eq_some_iff.mp h
    obtain ⟨rfl, rfl⟩ := Prod.mk.inj he
    obtain ⟨rfl, hw⟩ := ih hxy
    refine ⟨rfl, ?_⟩
    simp only [width_cons, hw]
    omega
  | case4 => simp at h

theorem splitAt?_eq_some_iff : splitAt? cs n = some (a, b) ↔ cs = a ++ b ∧ width a = n := by
  constructor
  · exact splitAt?_sound
  · rintro ⟨rfl, rfl⟩
    exact splitAt?_append a b

/-- The offset stands between two characters or at an end of the text. -/
def IsBoundary (cs : List Char) (n : Nat) : Prop := ∃ a b, cs = a ++ b ∧ width a = n

theorem isBoundary_iff : IsBoundary cs n ↔ (splitAt? cs n).isSome := by
  constructor
  · rintro ⟨a, b, h⟩
    rw [splitAt?_eq_some_iff.mpr h]
    rfl
  · intro h
    obtain ⟨⟨a, b⟩, hab⟩ := Option.isSome_iff_exists.mp h
    exact ⟨a, b, splitAt?_eq_some_iff.mp hab⟩

instance (cs : List Char) (n : Nat) : Decidable (IsBoundary cs n) :=
  decidable_of_iff _ isBoundary_iff.symm

theorem IsBoundary.le_width (h : IsBoundary cs n) : n ≤ width cs := by
  obtain ⟨a, b, rfl, rfl⟩ := h
  simp

theorem isBoundary_zero (cs : List Char) : IsBoundary cs 0 := ⟨[], cs, rfl, rfl⟩

theorem isBoundary_width (cs : List Char) : IsBoundary cs (width cs) := ⟨cs, [], by simp, rfl⟩

theorem isBoundary_append (hn : n ≤ width a) : IsBoundary (a ++ b) n ↔ IsBoundary a n := by
  constructor
  · rintro ⟨x, y, h, rfl⟩
    rcases List.append_eq_append_iff.mp h with ⟨z, rfl, rfl⟩ | ⟨z, rfl, rfl⟩
    · obtain rfl : z = [] := by
        rw [← width_eq_zero]
        simp only [width_append] at hn
        omega
      exact ⟨a, [], by simp, by simp⟩
    · exact ⟨x, z, rfl, rfl⟩
  · rintro ⟨x, y, rfl, rfl⟩
    exact ⟨x, y ++ b, by simp, rfl⟩

theorem divide?_eq_some_iff {span : Span} {parts : Parts} :
    divide? cs span = some parts ↔
      cs = parts.before ++ (parts.middle ++ parts.after) ∧ width parts.before = span.start ∧
        width (parts.before ++ parts.middle) = span.stop := by
  obtain ⟨before, middle, after⟩ := parts
  unfold divide?
  constructor
  · intro h
    split at h
    next hle =>
      split at h
      next => simp at h
      next x y hxy =>
        obtain ⟨⟨u, v⟩, huv, he⟩ := Option.map_eq_some_iff.mp h
        obtain ⟨rfl, rfl, rfl⟩ := Parts.mk.inj he
        obtain ⟨rfl, hx⟩ := splitAt?_sound hxy
        obtain ⟨rfl, hu⟩ := splitAt?_sound huv
        refine ⟨rfl, hx, ?_⟩
        simp only [width_append, hx, hu, Span.length]
        omega
    next => simp at h
  · rintro ⟨rfl, hs, he⟩
    simp only [width_append] at hs he
    have hmid : splitAt? (middle ++ after) span.length = some (middle, after) := by
      rw [splitAt?_eq_some_iff, Span.length]
      exact ⟨rfl, by omega⟩
    have hfirst : splitAt? (before ++ (middle ++ after)) span.start
        = some (before, middle ++ after) := splitAt?_eq_some_iff.mpr ⟨rfl, hs⟩
    rw [if_pos (by omega), hfirst]
    simp [hmid]

theorem isSome_divide?_iff {span : Span} :
    (divide? cs span).isSome ↔
      span.start ≤ span.stop ∧ IsBoundary cs span.start ∧ IsBoundary cs span.stop := by
  constructor
  · intro h
    obtain ⟨parts, hp⟩ := Option.isSome_iff_exists.mp h
    obtain ⟨hcs, hs, he⟩ := divide?_eq_some_iff.mp hp
    refine ⟨?_, ⟨_, _, hcs, hs⟩, ⟨_, parts.after, by rw [hcs, List.append_assoc], he⟩⟩
    simp only [width_append] at he
    omega
  · rintro ⟨hle, ⟨x, y, rfl, hs⟩, ⟨u, v, h, he⟩⟩
    apply Option.isSome_iff_exists.mpr
    rcases List.append_eq_append_iff.mp h with ⟨z, rfl, rfl⟩ | ⟨z, rfl, rfl⟩
    · exact ⟨⟨x, z, v⟩, divide?_eq_some_iff.mpr ⟨rfl, hs, he⟩⟩
    · obtain rfl : z = [] := by
        rw [← width_eq_zero]
        simp only [width_append] at hs
        omega
      exact ⟨⟨u, [], y⟩, divide?_eq_some_iff.mpr ⟨by simp, by simpa using hs, by simpa using he⟩⟩

theorem divide?_append {span : Span} (h : span.stop ≤ width a) :
    divide? (a ++ b) span =
      (divide? a span).map fun parts => { parts with after := parts.after ++ b } := by
  ext ⟨x, y, z⟩
  simp only [divide?_eq_some_iff, Option.map_eq_some_iff]
  constructor
  · rintro ⟨he, hs, ht⟩
    rw [← List.append_assoc] at he
    rcases List.append_eq_append_iff.mp he with ⟨u, hu, hz⟩ | ⟨u, rfl, rfl⟩
    · obtain rfl : u = [] := by
        have hw := congrArg width hu
        rw [ht, width_append] at hw
        exact width_eq_zero.mp (by omega)
      refine ⟨⟨x, y, []⟩, ⟨by simpa using hu.symm, hs, ht⟩, by simpa using hz⟩
    · exact ⟨⟨x, y, u⟩, ⟨by simp, hs, ht⟩, rfl⟩
  · rintro ⟨⟨x', y', z'⟩, ⟨rfl, hs, ht⟩, he⟩
    obtain ⟨rfl, rfl, rfl⟩ := Parts.mk.inj he
    exact ⟨by simp, hs, ht⟩

def between (cs : List Char) (m n : Nat) : List Char :=
  ((divide? cs ⟨m, n⟩).map (·.middle)).getD []

theorem between_eq {x y z : List Char} (hm : width x = m) (hn : width (x ++ y) = n) :
    between (x ++ (y ++ z)) m n = y := by
  have h : divide? (x ++ (y ++ z)) ⟨m, n⟩ = some ⟨x, y, z⟩ :=
    divide?_eq_some_iff.mpr ⟨rfl, hm, hn⟩
  simp [between, h]

theorem between_append (h : n ≤ width a) : between (a ++ b) m n = between a m n := by
  rw [between, divide?_append h, between]
  cases divide? a ⟨m, n⟩ <;> rfl

@[simp] theorem between_all (cs : List Char) : between cs 0 (width cs) = cs := by
  simpa using between_eq (z := []) (rfl : width [] = 0) (rfl : width ([] ++ cs) = width cs)

end JavaRefactor.Text
