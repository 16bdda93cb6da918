import JavaRefactor.Tree.Basic

/-! # Trees in preorder

Nodes are numbered in preorder: a node hangs below the node numbered just before it or
below a node above that one. Of two nodes either the first lies above the second, or they
lie below two children of one node, in the same order.
-/

namespace JavaRefactor.Tree

variable {t : Tree} {i j p a b : Nat}

/-- The nodes are numbered in preorder and agree about who is above whom. -/
structure InPreorder (t : Tree) : Prop where
  ancestors_root : t.ancestors root = []
  above : ∀ i : Nat, 0 < i → i < t.size →
    ∃ p : Nat, t.ancestors i = p :: t.ancestors p ∧ (p = i - 1 ∨ p ∈ t.ancestors (i - 1))
  mem_children : ∀ p i : Nat, i ∈ t.children p ↔ i < t.size ∧ t.parent? i = some p
  sorted : ∀ p : Nat, (t.children p).Pairwise (· < ·)

theorem node_of_size_le (h : t.size ≤ i) : t.node i = .absent := by
  exact dif_neg (Nat.not_lt.mpr h)

theorem ancestors_of_size_le (h : t.size ≤ i) : t.ancestors i = [] := by
  rw [ancestors, node_of_size_le h]
  rfl

theorem parent?_eq_some_iff : t.parent? i = some p ↔ ∃ rest, t.ancestors i = p :: rest := by
  rw [parent?, Node.parent?, List.head?_eq_some_iff]
  rfl

namespace InPreorder

variable (h : t.InPreorder)
include h

theorem lt_size_of_ancestors_ne (hi : t.ancestors i ≠ []) : 0 < i ∧ i < t.size := by
  constructor
  · apply Nat.pos_of_ne_zero
    rintro rfl
    exact hi h.ancestors_root
  · apply Nat.lt_of_not_le
    intro hs
    exact hi (ancestors_of_size_le hs)

theorem ancestors_of_parent (hp : t.parent? i = some p) : t.ancestors i = p :: t.ancestors p := by
  obtain ⟨rest, hr⟩ := parent?_eq_some_iff.mp hp
  obtain ⟨h0, hs⟩ := h.lt_size_of_ancestors_ne (by rw [hr]; simp)
  obtain ⟨q, hq, -⟩ := h.above i h0 hs
  obtain ⟨rfl, -⟩ := List.cons.inj (hr.symm.trans hq)
  exact hq

theorem exists_parent (h0 : 0 < i) (hs : i < t.size) : ∃ p : Nat, t.parent? i = some p := by
  obtain ⟨p, hp, -⟩ := h.above i h0 hs
  exact ⟨p, parent?_eq_some_iff.mpr ⟨_, hp⟩⟩

theorem lt_size_of_parent (hp : t.parent? i = some p) : i < t.size := by
  obtain ⟨rest, hr⟩ := parent?_eq_some_iff.mp hp
  exact (h.lt_size_of_ancestors_ne (by rw [hr]; simp)).2

theorem mem_ancestors_iff (hp : t.parent? i = some p) :
    a ∈ t.ancestors i ↔ a = p ∨ a ∈ t.ancestors p := by
  rw [h.ancestors_of_parent hp, List.mem_cons]

theorem parent_of_mem (ha : a ∈ t.ancestors i) : ∃ p : Nat, t.parent? i = some p := by
  obtain ⟨h0, hs⟩ := h.lt_size_of_ancestors_ne (List.ne_nil_of_mem ha)
  exact h.exists_parent h0 hs

theorem lt_of_mem_ancestors (ha : a ∈ t.ancestors i) : a < i := by
  induction i using Nat.strongRecOn generalizing a with
  | ind i ih =>
    obtain ⟨h0, hs⟩ := h.lt_size_of_ancestors_ne (List.ne_nil_of_mem ha)
    obtain ⟨p, hp, hprev⟩ := h.above i h0 hs
    have hpi : p < i := by
      rcases hprev with rfl | hprev
      · omega
      · have := ih (i - 1) (by omega) hprev
        omega
    rcases (List.mem_cons.mp (hp ▸ ha)) with rfl | ha
    · exact hpi
    · exact Nat.lt_trans (ih p hpi ha) hpi

theorem parent_lt (hp : t.parent? i = some p) : p < i :=
  h.lt_of_mem_ancestors ((h.mem_ancestors_iff hp).mpr (Or.inl rfl))

theorem ancestors_trans : ∀ {i : Nat}, a ∈ t.ancestors b → b ∈ t.ancestors i →
    a ∈ t.ancestors i := by
  intro i
  induction i using Nat.strongRecOn with
  | ind i ih =>
    intro ha hb
    obtain ⟨p, hp⟩ := h.parent_of_mem hb
    rw [h.mem_ancestors_iff hp] at hb ⊢
    rcases hb with rfl | hb
    · exact Or.inr ha
    · exact Or.inr (ih p (h.parent_lt hp) ha hb)

theorem ancestors_linear : ∀ {i : Nat}, a ∈ i :: t.ancestors i → b ∈ i :: t.ancestors i →
    a < b → a ∈ t.ancestors b := by
  intro i
  induction i using Nat.strongRecOn with
  | ind i ih =>
    intro ha hb hab
    rcases List.mem_cons.mp ha with rfl | ha
    · rcases List.mem_cons.mp hb with rfl | hb
      · omega
      · have := h.lt_of_mem_ancestors hb
        omega
    · rcases List.mem_cons.mp hb with rfl | hb
      · exact ha
      · obtain ⟨p, hp⟩ := h.parent_of_mem ha
        rw [h.ancestors_of_parent hp] at ha hb
        exact ih p (h.parent_lt hp) ha hb hab

theorem ancestors_of_append {l rest : List NodeId} : ∀ {i : Nat},
    t.ancestors i = l ++ a :: rest → rest = t.ancestors a := by
  induction l with
  | nil =>
    intro i hi
    have hp := h.ancestors_of_parent (parent?_eq_some_iff.mpr ⟨rest, hi⟩)
    exact (List.cons.inj (hi.symm.trans hp)).2
  | cons b l ih =>
    intro i hi
    have hp := h.ancestors_of_parent (parent?_eq_some_iff.mpr ⟨_, hi⟩)
    exact ih (List.cons.inj (hp.symm.trans hi)).2

/-- The nodes below a node are numbered without gaps. -/
theorem mem_ancestors_of_le (ha : a ∈ t.ancestors i) (hj : a < j) (hji : j ≤ i) :
    a ∈ t.ancestors j := by
  induction i using Nat.strongRecOn with
  | ind i ih =>
    rcases Nat.lt_or_eq_of_le hji with hlt | rfl
    · obtain ⟨h0, hs⟩ := h.lt_size_of_ancestors_ne (List.ne_nil_of_mem ha)
      obtain ⟨p, hp, hprev⟩ := h.above i h0 hs
      have hmem : a ∈ (i - 1) :: t.ancestors (i - 1) := by
        rw [hp, List.mem_cons] at ha
        rcases hprev with rfl | hprev
        · simpa using ha
        · rcases ha with rfl | ha
          · exact List.mem_cons_of_mem _ hprev
          · exact List.mem_cons_of_mem _ (h.ancestors_trans ha hprev)
      rcases List.mem_cons.mp hmem with rfl | hmem
      · omega
      · exact ih (i - 1) (by omega) hmem (by omega)
    · exact ha

theorem exists_child_above (ha : a ∈ t.ancestors i) :
    ∃ c : Nat, t.parent? c = some a ∧ c ∈ i :: t.ancestors i := by
  induction i using Nat.strongRecOn with
  | ind i ih =>
    obtain ⟨p, hp⟩ := h.parent_of_mem ha
    rw [h.mem_ancestors_iff hp] at ha
    rcases ha with rfl | ha
    · exact ⟨i, hp, List.mem_cons_self⟩
    · obtain ⟨c, hc, hmem⟩ := ih p (h.parent_lt hp) ha
      refine ⟨c, hc, List.mem_cons_of_mem _ ?_⟩
      rw [h.ancestors_of_parent hp]
      exact hmem

/-- A node lies above a later one, or both lie below different children of one node. -/
theorem above_or_apart (hij : i < j) (hs : j < t.size) :
    i ∈ t.ancestors j ∨ ∃ p c d : Nat, t.parent? c = some p ∧ t.parent? d = some p ∧ c < d ∧
      c ∈ i :: t.ancestors i ∧ d ∈ j :: t.ancestors j := by
  induction j using Nat.strongRecOn with
  | ind j ih =>
    obtain ⟨p, hp⟩ := h.exists_parent (by omega) hs
    have hpj := h.parent_lt hp
    rcases Nat.lt_trichotomy i p with hip | rfl | hpi
    · rcases ih p hpj hip (by omega) with ha | ⟨q, c, d, hc, hd, hcd, hci, hdp⟩
      · exact Or.inl ((h.mem_ancestors_iff hp).mpr (Or.inr ha))
      · refine Or.inr ⟨q, c, d, hc, hd, hcd, hci, List.mem_cons_of_mem _ ?_⟩
        rw [h.ancestors_of_parent hp]
        exact hdp
    · exact Or.inl ((h.mem_ancestors_iff hp).mpr (Or.inl rfl))
    · -- the parent of `j` stands before `i`, so `i` lies below it too
      have hmem : p ∈ t.ancestors i :=
        h.mem_ancestors_of_le ((h.mem_ancestors_iff hp).mpr (Or.inl rfl)) hpi (by omega)
      obtain ⟨c, hc, hci⟩ := h.exists_child_above hmem
      refine Or.inr ⟨p, c, j, hc, hp, ?_, hci, List.mem_cons_self⟩
      rcases List.mem_cons.mp hci with rfl | hci
      · exact hij
      · exact Nat.lt_trans (h.lt_of_mem_ancestors hci) hij

theorem root_mem_ancestors : ∀ {i : Nat}, 0 < i → i < t.size → root ∈ t.ancestors i := by
  intro i
  induction i using Nat.strongRecOn with
  | ind i ih =>
    intro h0 hs
    obtain ⟨p, hp⟩ := h.exists_parent h0 hs
    have hpi := h.parent_lt hp
    rw [h.mem_ancestors_iff hp]
    rcases Nat.eq_zero_or_pos p with rfl | hp0
    · exact Or.inl rfl
    · exact Or.inr (ih p hpi hp0 (Nat.lt_trans hpi hs))

theorem not_mem_ancestors_of_parent (hp : t.parent? i = some p) (hpa : p < a) :
    a ∉ t.ancestors i := by
  rw [h.mem_ancestors_iff hp]
  rintro (rfl | ha)
  · omega
  · have := h.lt_of_mem_ancestors ha
    omega

end InPreorder

/-- The nodes below `i` are those from `i` on that come before `k`. -/
structure SubtreeEnds (t : Tree) (i k : Nat) : Prop where
  lt : i < k
  le : k ≤ t.size
  below : ∀ j : Nat, i < j → j < t.size → (i ∈ t.ancestors j ↔ j < k)

namespace SubtreeEnds

variable {k c : Nat} {before after : List NodeId}

theorem root (h : t.InPreorder) (h0 : 0 < t.size) : t.SubtreeEnds root t.size where
  lt := h0
  le := Nat.le_refl _
  below _ hj hs := iff_of_true (h.root_mem_ancestors hj hs) hs

theorem mem_cons_ancestors (hi : t.SubtreeEnds i k) (hij : i ≤ j) (hjk : j < k) :
    i ∈ j :: t.ancestors j := by
  rcases Nat.lt_or_eq_of_le hij with hlt | rfl
  · exact List.mem_cons_of_mem _ ((hi.below j hlt (Nat.lt_of_lt_of_le hjk hi.le)).mpr hjk)
  · exact List.mem_cons_self

variable (hi : t.SubtreeEnds i k) (h : t.InPreorder)
include hi h

theorem exists_child (hj : i < j) (hjk : j < k) :
    ∃ c : Nat, c ∈ t.children i ∧ t.parent? c = some i ∧ c ∈ j :: t.ancestors j := by
  have hs := Nat.lt_of_lt_of_le hjk hi.le
  obtain ⟨c, hc, hcj⟩ := h.exists_child_above ((hi.below j hj hs).mpr hjk)
  exact ⟨c, (h.mem_children i c).mpr ⟨h.lt_size_of_parent hc, hc⟩, hc, hcj⟩

theorem child_lt (hc : c ∈ t.children i) : i < c ∧ c < k ∧ t.parent? c = some i := by
  obtain ⟨hs, hp⟩ := (h.mem_children i c).mp hc
  have hlt := h.parent_lt hp
  exact ⟨hlt, (hi.below c hlt hs).mp ((h.mem_ancestors_iff hp).mpr (Or.inl rfl)), hp⟩

theorem headD_children : (t.children i).headD k = i + 1 := by
  rcases Nat.lt_or_eq_of_le hi.lt with hlt | heq
  · obtain ⟨c, hc, hp, hmem⟩ := hi.exists_child h (Nat.lt_succ_self i) hlt
    have hpc := h.parent_lt hp
    have hci : c ≤ i + 1 := by
      rcases List.mem_cons.mp hmem with rfl | hmem
      · exact Nat.le_refl _
      · exact Nat.le_of_lt (h.lt_of_mem_ancestors hmem)
    cases hl : t.children i with
    | nil => simp [hl] at hc
    | cons first rest =>
      have hfirst : i < first := (hi.child_lt h (hl ▸ List.mem_cons_self)).1
      have hsorted := h.sorted i
      rw [hl] at hc hsorted
      rcases List.mem_cons.mp hc with rfl | hc
      · exact Nat.le_antisymm hci hpc
      · have hfc : first < c := (List.pairwise_cons.mp hsorted).1 c hc
        exact absurd hci (Nat.not_le.mpr (Nat.lt_of_le_of_lt hfirst hfc))
  · cases hl : t.children i with
    | nil => exact heq.symm
    | cons first rest =>
      have := hi.child_lt h (hl ▸ List.mem_cons_self : first ∈ t.children i)
      omega

/-- The subtree of a child ends where the next child stands, and that of the last child with the
subtree of its parent. -/
theorem child (hl : t.children i = before ++ c :: after) : t.SubtreeEnds c (after.headD k) := by
  have hmem {d : Nat} (hd : d ∈ before ++ c :: after) : i < d ∧ d < k ∧ t.parent? d = some i :=
    hi.child_lt h (hl ▸ hd)
  obtain ⟨hic, hck, hpc⟩ := hmem (d := c) (by simp)
  have hsorted := h.sorted i
  rw [hl, List.pairwise_append, List.pairwise_cons] at hsorted
  obtain ⟨-, ⟨hafter, hrest⟩, hbefore⟩ := hsorted
  have hnext : c < after.headD k ∧ after.headD k ≤ k := by
    cases after with
    | nil => exact ⟨hck, Nat.le_refl k⟩
    | cons d rest => exact ⟨hafter d List.mem_cons_self, Nat.le_of_lt (hmem (d := d) (by simp)).2.1⟩
  refine ⟨hnext.1, Nat.le_trans hnext.2 hi.le, fun j hj hs => ⟨fun hc => ?_, fun hjn => ?_⟩⟩
  · cases after with
    | nil =>
      have hij := h.ancestors_trans ((h.mem_ancestors_iff hpc).mpr (Or.inl rfl)) hc
      exact (hi.below j (Nat.lt_trans hic hj) hs).mp hij
    | cons d rest =>
      apply Nat.lt_of_not_le
      intro hdj
      have hcd := h.mem_ancestors_of_le hc hnext.1 hdj
      exact h.not_mem_ancestors_of_parent (hmem (d := d) (by simp)).2.2 hic hcd
  · obtain ⟨d, hd, hpd, hdj⟩ :=
      hi.exists_child h (Nat.lt_trans hic hj) (Nat.lt_of_lt_of_le hjn hnext.2)
    have hle : d ≤ j := by
      rcases List.mem_cons.mp hdj with rfl | hdj
      · exact Nat.le_refl _
      · exact Nat.le_of_lt (h.lt_of_mem_ancestors hdj)
    rcases List.mem_append.mp (hl ▸ hd) with hd | hd
    · -- an earlier child cannot have `j` below it, since `c` stands in between
      have hdc := hbefore d hd c List.mem_cons_self
      have hdj := (List.mem_cons.mp hdj).resolve_left (Nat.ne_of_lt (Nat.lt_trans hdc hj))
      have := h.mem_ancestors_of_le hdj hdc (Nat.le_of_lt hj)
      exact absurd this (h.not_mem_ancestors_of_parent hpc (h.parent_lt hpd))
    rcases List.mem_cons.mp hd with rfl | hd
    · exact (List.mem_cons.mp hdj).resolve_left (Nat.ne_of_lt hj)
    · cases after with
      | nil => simp at hd
      | cons e rest =>
        have hed : e ≤ d := by
          rcases List.mem_cons.mp hd with rfl | hd
          · exact Nat.le_refl _
          · exact Nat.le_of_lt ((List.pairwise_cons.mp hrest).1 d hd)
        exact absurd hjn (Nat.not_lt.mpr (Nat.le_trans hed hle))

end SubtreeEnds

end JavaRefactor.Tree
