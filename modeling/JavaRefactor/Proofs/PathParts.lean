import JavaRefactor.Path

/-! # The parts of joined paths

A relative path that is joined to another one adds its steps to the parts that are there. If it
holds no hidden names and no dots, these steps are names, and the result leads down from where the
first path leads. An absolute path begins anew, and what was joined before it is forgotten.
-/

namespace JavaRefactor.Path

variable {a b cs : List Char} {path next root : String} {texts : List String}

def lead (path : List Char) : List Component :=
  if isAbsolute path then [.root]
  else if (segments path).head? == some ['.'] then [.here]
  else []

def steps (path : List Char) : List Component :=
  ((segments path).filter fun s => !isVoid s).map ofSegment

theorem components_eq (path : String) :
    components path = lead path.toList ++ steps path.toList := by
  simp only [components, lead, steps]
  split
  · rfl
  · split <;> rfl

theorem root_mem_components_iff : Component.root ∈ components path ↔ isAbsolute path.toList := by
  have hsteps : Component.root ∉ steps path.toList := by
    intro h
    obtain ⟨s, -, hs⟩ := List.mem_map.mp h
    unfold ofSegment at hs
    split at hs <;> cases hs
  rw [components_eq, List.mem_append, or_iff_left hsteps, lead]
  split
  next h => simp [h]
  next h => split <;> simp [h]

theorem of_normal_mem_components {name : List Char} (h : Component.normal name ∈ components path) :
    isVoid name = false ∧ name ≠ ['.', '.'] := by
  have hlead : Component.normal name ∉ lead path.toList := by
    unfold lead
    split
    · simp
    · split <;> simp
  rw [components_eq, List.mem_append, or_iff_right hlead] at h
  obtain ⟨s, hs, he⟩ := List.mem_map.mp h
  unfold ofSegment at he
  split at he
  · cases he
  next hup =>
    obtain rfl := Component.normal.inj he
    exact ⟨by simpa using (List.mem_filter.mp hs).2, hup⟩

theorem segments_append (a b : List Char) : segments (a ++ '/' :: b) = segments a ++ segments b :=
  Text.split_append_cons '/' a b

theorem steps_append (a b : List Char) : steps (a ++ '/' :: b) = steps a ++ steps b := by
  simp only [steps, segments_append, List.filter_append, List.map_append]

theorem lead_append (h : a ≠ []) : lead (a ++ '/' :: b) = lead a := by
  have habsolute : isAbsolute (a ++ '/' :: b) = isAbsolute a := by
    cases a with
    | nil => exact absurd rfl h
    | cons c a => rfl
  have hfirst : (segments a ++ segments b).head? = (segments a).head? := by
    cases hs : segments a with
    | nil => exact absurd hs (Text.split_ne_nil '/' a)
    | cons s rest => rfl
  rw [lead, habsolute, segments_append, hfirst, lead]

/-! ### Joining -/

theorem exists_join_eq (hpath : path ≠ "") (hnext : isAbsolute next.toList = false) :
    ∃ a, (join path next).toList = a ++ '/' :: next.toList ∧
      (path.toList = a ∧ a ≠ [] ∨ path.toList = a ++ ['/']) := by
  have hne : path.toList ≠ [] := by simpa using hpath
  unfold join
  rw [hnext, if_neg Bool.false_ne_true]
  split
  next hslash =>
    have hlast : path.toList.getLast? = some '/' := by simpa [hpath] using hslash
    obtain ⟨a, ha⟩ := List.getLast?_eq_some_iff.mp hlast
    exact ⟨a, by rw [String.toList_append, ha]; simp, Or.inr ha⟩
  next => exact ⟨path.toList, by simp [String.toList_append], Or.inl ⟨rfl, hne⟩⟩

theorem components_join (hpath : path ≠ "") (hnext : isAbsolute next.toList = false) :
    components (join path next) = components path ++ steps next.toList := by
  obtain ⟨a, hjoin, ⟨ha, hne⟩ | ha⟩ := exists_join_eq hpath hnext
  · rw [components_eq, hjoin, steps_append, lead_append hne, components_eq, ha, List.append_assoc]
  · have hlead : lead (a ++ '/' :: next.toList) = lead (a ++ ['/']) := by
      cases a with
      | nil => rfl
      | cons c a => rw [lead_append (by simp), lead_append (by simp)]
    have hsteps : steps (a ++ ['/']) = steps a := by
      rw [steps_append]
      exact List.append_nil _
    rw [components_eq, hjoin, steps_append, hlead, components_eq, ha, hsteps, List.append_assoc]

theorem join_ne_empty (hpath : path ≠ "") : join path next ≠ "" := by
  intro h
  unfold join at h
  split at h
  next hnext => simp [h, isAbsolute] at hnext
  next => split at h <;> simp_all

/-! ### Leading down -/

def namesIn (path : List Char) : List (List Char) := (segments path).filter fun s => !s.isEmpty

/-- A relative path in which no name is hidden or stands for a step up. -/
structure IsPlain (path : List Char) : Prop where
  relative : isAbsolute path = false
  visible : ∀ s ∈ segments path, s.head? ≠ some '.'

/-- One path leads down from another if it adds names to its parts. -/
def IsBelow (root path : String) : Prop :=
  ∃ names : List (List Char), components path = components root ++ names.map .normal

theorem IsPlain.steps_eq (h : IsPlain cs) : steps cs = (namesIn cs).map .normal := by
  have hvoid : ∀ s ∈ segments cs, (!isVoid s) = !s.isEmpty := by
    intro s hs
    have hdot := h.visible s hs
    cases s with
    | nil => rfl
    | cons c s =>
      have hc : c ≠ '.' := by simpa using hdot
      simp [isVoid, hc]
  rw [steps, List.filter_congr hvoid, namesIn]
  apply List.map_congr_left
  intro s hs
  have hdot := h.visible s (List.mem_filter.mp hs).1
  apply if_neg
  rintro rfl
  exact hdot rfl

theorem isAbsolute_eq_false_of_not_mem (h : '/' ∉ cs) : isAbsolute cs = false := by
  cases cs with
  | nil => rfl
  | cons c cs =>
    have hc : c ≠ '/' := fun he => h (he ▸ List.mem_cons_self)
    simpa [isAbsolute] using hc

theorem isPlain_of_name (hslash : '/' ∉ cs) (hdot : cs.head? ≠ some '.') : IsPlain cs := by
  refine ⟨isAbsolute_eq_false_of_not_mem hslash, fun s hs => ?_⟩
  rw [segments, Text.split_of_not_mem hslash, List.mem_singleton] at hs
  exact hs ▸ hdot

theorem isPlain_of_no_dots (hrelative : isAbsolute cs = false) (hdot : '.' ∉ cs) :
    IsPlain cs := by
  refine ⟨hrelative, fun s hs hhead => hdot ?_⟩
  exact (Text.mem_of_mem_split hs (List.mem_of_head? hhead)).1

theorem components_foldl_join (h : ∀ s ∈ texts, IsPlain s.toList) (hpath : path ≠ "") :
    components (texts.foldl join path) =
      components path ++ (texts.flatMap fun s => namesIn s.toList).map .normal := by
  induction texts generalizing path with
  | nil => simp
  | cons s texts ih =>
    obtain ⟨hs, htexts⟩ := List.forall_mem_cons.mp h
    rw [List.foldl_cons, ih htexts (join_ne_empty hpath), components_join hpath hs.relative,
      hs.steps_eq, List.flatMap_cons, List.map_append, List.append_assoc]

theorem foldl_join_ne_empty (hpath : path ≠ "") : texts.foldl join path ≠ "" := by
  induction texts generalizing path with
  | nil => exact hpath
  | cons s texts ih => exact ih (join_ne_empty hpath)

/-! ### Beginning anew -/

theorem isAbsolute_join (h : isAbsolute path.toList ∨ isAbsolute next.toList) :
    isAbsolute (join path next).toList := by
  cases hnext : isAbsolute next.toList with
  | true => rw [join, if_pos hnext, hnext]
  | false =>
    have hpath : isAbsolute path.toList := h.resolve_right (by simp [hnext])
    have hne : path ≠ "" := by
      rintro rfl
      cases hpath
    rw [← root_mem_components_iff] at hpath ⊢
    rw [components_join hne hnext]
    exact List.mem_append_left _ hpath

theorem isAbsolute_foldl_join (h : isAbsolute path.toList ∨ ∃ s ∈ texts, isAbsolute s.toList) :
    isAbsolute (texts.foldl join path).toList := by
  induction texts generalizing path with
  | nil => exact h.resolve_right (by simp)
  | cons s texts ih =>
    apply ih
    rcases h with h | ⟨x, hx, h⟩
    · exact Or.inl (isAbsolute_join (Or.inl h))
    · rcases List.mem_cons.mp hx with rfl | hx
      · exact Or.inl (isAbsolute_join (Or.inr h))
      · exact Or.inr ⟨x, hx, h⟩

/-- What an absolute path is joined to makes no difference. -/
theorem foldl_join_of_absolute (h : ∃ s ∈ texts, isAbsolute s.toList) (path path' : String) :
    texts.foldl join path = texts.foldl join path' := by
  induction texts generalizing path path' with
  | nil =>
    obtain ⟨s, hs, -⟩ := h
    cases hs
  | cons s texts ih =>
    rw [List.foldl_cons, List.foldl_cons]
    cases hs : isAbsolute s.toList with
    | true => rw [join, if_pos hs, join, if_pos hs]
    | false =>
      obtain ⟨x, hx, habsolute⟩ := h
      rcases List.mem_cons.mp hx with rfl | hx
      · simp [hs] at habsolute
      · exact ih ⟨x, hx, habsolute⟩ _ _

theorem IsBelow.isAbsolute_eq (h : IsBelow root path) :
    isAbsolute path.toList = isAbsolute root.toList := by
  obtain ⟨names, hnames⟩ := h
  rw [Bool.eq_iff_iff, ← root_mem_components_iff, ← root_mem_components_iff, hnames]
  simp

end JavaRefactor.Path
