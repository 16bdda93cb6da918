/-! # Splitting a text at a character -/

namespace JavaRefactor.Text

/-- The parts between the occurrences of a character. -/
def split (sep : Char) : List Char → List (List Char)
  | [] => [[]]
  | c :: cs =>
    if c = sep then [] :: split sep cs
    else
      match split sep cs with
      | [] => [[c]]
      | part :: rest => (c :: part) :: rest

variable {sep c : Char} {a cs part : List Char}

theorem split_ne_nil (sep : Char) (cs : List Char) : split sep cs ≠ [] := by
  cases cs with
  | nil => simp [split]
  | cons c cs =>
    rw [split]
    split
    · simp
    · split <;> simp

theorem split_append_cons (sep : Char) (a b : List Char) :
    split sep (a ++ sep :: b) = split sep a ++ split sep b := by
  induction a with
  | nil => simp [split]
  | cons c a ih =>
    rw [List.cons_append, split, split, ih]
    split
    · rfl
    · cases h : split sep a with
      | nil => exact absurd h (split_ne_nil sep a)
      | cons part rest => rfl

theorem split_of_not_mem (h : sep ∉ a) : split sep a = [a] := by
  induction a with
  | nil => rfl
  | cons c a ih =>
    rw [List.mem_cons, not_or] at h
    rw [split, if_neg (Ne.symm h.1), ih h.2]

theorem split_append (h : sep ∉ a) (b : List Char) :
    split sep (a ++ sep :: b) = a :: split sep b := by
  rw [split_append_cons, split_of_not_mem h, List.singleton_append]

/-- Parts that are all ended by the character come back, with nothing behind the last. -/
theorem split_flatMap {l : List (List Char)} (h : ∀ part ∈ l, sep ∉ part) :
    split sep (l.flatMap (· ++ [sep])) = l ++ [[]] := by
  induction l with
  | nil => rfl
  | cons part l ih =>
    rw [List.forall_mem_cons] at h
    have hcons : (part :: l).flatMap (· ++ [sep]) = part ++ sep :: l.flatMap (· ++ [sep]) := by simp
    rw [hcons, split_append h.1, ih h.2, List.cons_append]

/-- The parts are made of the other characters of the text. -/
theorem mem_of_mem_split (h : part ∈ split sep cs) (hc : c ∈ part) : c ∈ cs ∧ c ≠ sep := by
  induction cs generalizing part with
  | nil => simp_all [split]
  | cons x cs ih =>
    rw [split] at h
    split at h
    next hx =>
      rcases List.mem_cons.mp h with rfl | h
      · cases hc
      · exact (ih h hc).imp (List.mem_cons_of_mem x) id
    next hx =>
      cases hcs : split sep cs with
      | nil => exact absurd hcs (split_ne_nil sep cs)
      | cons first rest =>
        rw [hcs] at h ih
        rcases List.mem_cons.mp h with rfl | h
        · rcases List.mem_cons.mp hc with rfl | hc
          · exact ⟨List.mem_cons_self, hx⟩
          · exact (ih List.mem_cons_self hc).imp (List.mem_cons_of_mem x) id
        · exact (ih (List.mem_cons_of_mem first h) hc).imp (List.mem_cons_of_mem x) id

end JavaRefactor.Text
