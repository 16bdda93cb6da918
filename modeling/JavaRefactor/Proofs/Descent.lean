import JavaRefactor.Proofs.Preorder

/-! # The descent to an offset

Where children lie in their parents, one after the other, the nodes around an offset stand one
above the other. The descent from the root comes past all of them and ends at the last.
-/

namespace JavaRefactor.Tree

variable {t : Tree} {i j p a k c offset : Nat}

/-- Children lie in their parents, one after the other. -/
structure Laminar (t : Tree) : Prop extends t.InPreorder where
  nested : ∀ i p : Nat, t.parent? i = some p →
    (t.span p).start ≤ (t.span i).start ∧ (t.span i).stop ≤ (t.span p).stop
  disjoint : ∀ p : Nat, (t.children p).Pairwise fun c d => (t.span c).stop ≤ (t.span d).start

def Surrounds (t : Tree) (offset : Nat) (i : NodeId) : Prop :=
  (t.span i).isEmpty = false ∧ (t.span i).containsOffset offset

theorem surrounds_iff :
    t.Surrounds offset i ↔ (t.span i).start ≤ offset ∧ offset < (t.span i).stop := by
  simp only [Surrounds, Span.containsOffset, Span.isEmpty, beq_eq_false_iff_ne, beq_iff_eq]
  constructor
  · rintro ⟨hne, h⟩
    simpa [hne] using h
  · rintro ⟨hs, he⟩
    have hne : (t.span i).start ≠ (t.span i).stop := by omega
    simp [hne, hs, he]

theorem leadsTo_iff : t.leadsTo offset c i ↔ t.parent? i = some c ∧ t.Surrounds offset i := by
  simp only [leadsTo, surrounds_iff, Bool.and_eq_true, beq_iff_eq, Bool.not_eq_true',
    decide_eq_true_eq, Span.isEmpty, beq_eq_false_iff_ne]
  constructor
  · rintro ⟨⟨⟨hp, -⟩, hs⟩, he⟩
    exact ⟨hp, hs, he⟩
  · rintro ⟨hp, hs, he⟩
    exact ⟨⟨⟨hp, by omega⟩, hs⟩, he⟩

theorem lt_size_of_surrounds (h : t.Surrounds offset i) : i < t.size := by
  apply Nat.lt_of_not_le
  intro hs
  rw [surrounds_iff, span, node_of_size_le hs] at h
  exact Nat.not_lt_zero _ h.2

/-- What the descent knows when it stands at `c` and has gone through the first `k` nodes. -/
structure Descended (t : Tree) (offset k c : Nat) : Prop where
  reached : c = root ∨ c < k ∧ t.Surrounds offset c
  passed : ∀ b < k, t.Surrounds offset b → b ∈ c :: t.ancestors c

namespace Laminar

variable (h : t.Laminar)
include h

theorem span_mono (ha : a ∈ i :: t.ancestors i) :
    (t.span a).start ≤ (t.span i).start ∧ (t.span i).stop ≤ (t.span a).stop := by
  induction i using Nat.strongRecOn with
  | ind i ih =>
    rcases List.mem_cons.mp ha with rfl | ha
    · exact ⟨Nat.le_refl _, Nat.le_refl _⟩
    · obtain ⟨p, hp⟩ := h.parent_of_mem ha
      rw [h.ancestors_of_parent hp] at ha
      obtain ⟨hs, he⟩ := ih p (h.parent_lt hp) ha
      obtain ⟨hs', he'⟩ := h.nested i p hp
      exact ⟨Nat.le_trans hs hs', Nat.le_trans he' he⟩

theorem siblings_before (hi : t.parent? i = some p) (hj : t.parent? j = some p) (hij : i < j) :
    (t.span i).stop ≤ (t.span j).start := by
  have hmi := (h.mem_children p i).mpr ⟨h.lt_size_of_parent hi, hi⟩
  have hmj := (h.mem_children p j).mpr ⟨h.lt_size_of_parent hj, hj⟩
  have hboth := (h.sorted p).and (h.disjoint p)
  -- the later of the two in the list of children has the larger number
  obtain ⟨x, y, hl⟩ := List.append_of_mem hmi
  rw [hl] at hmj hboth
  rcases List.mem_append.mp hmj with hmj | hmj
  · have : j < i := ((List.pairwise_append.mp hboth).2.2 j hmj i List.mem_cons_self).1
    omega
  · rcases List.mem_cons.mp hmj with rfl | hmj
    · omega
    · exact (List.rel_of_pairwise_cons (List.pairwise_append.mp hboth).2.1 hmj).2

theorem surrounds_of_mem (ha : a ∈ i :: t.ancestors i) (hi : t.Surrounds offset i) :
    t.Surrounds offset a := by
  obtain ⟨hs, he⟩ := h.span_mono ha
  rw [surrounds_iff] at hi ⊢
  omega

theorem eq_of_surrounds (hi : t.parent? i = some p) (hj : t.parent? j = some p)
    (hsi : t.Surrounds offset i) (hsj : t.Surrounds offset j) : i = j := by
  rw [surrounds_iff] at hsi hsj
  rcases Nat.lt_trichotomy i j with hij | hij | hij
  · have := h.siblings_before hi hj hij
    omega
  · exact hij
  · have := h.siblings_before hj hi hij
    omega

theorem passed_of_not_leadsTo (hd : Descended t offset k c) (hk : t.Surrounds offset k)
    (hl : ¬ t.leadsTo offset c k) : k ∈ c :: t.ancestors c := by
  have hsize := lt_size_of_surrounds hk
  rcases Nat.eq_zero_or_pos k with rfl | h0
  · rcases hd.reached with rfl | ⟨hlt, -⟩
    · exact List.mem_cons_self
    · exact absurd hlt (Nat.not_lt_zero c)
  obtain ⟨p, hp⟩ := h.exists_parent h0 hsize
  have hpk : p ∈ k :: t.ancestors k := by
    rw [h.ancestors_of_parent hp]
    simp
  exfalso
  rcases List.mem_cons.mp (hd.passed p (h.parent_lt hp) (h.surrounds_of_mem hpk hk)) with rfl | hpc
  · exact hl (leadsTo_iff.mpr ⟨hp, hk⟩)
  -- the descent has turned to another child of the parent, which is not around the offset then
  · obtain ⟨d, hdp, hdc⟩ := h.exists_child_above hpc
    have hpc := h.lt_of_mem_ancestors hpc
    rcases hd.reached with rfl | ⟨hck, hc⟩
    · exact absurd hpc (Nat.not_lt_zero p)
    · have hle : d ≤ c := by
        rcases List.mem_cons.mp hdc with rfl | hdc
        · exact Nat.le_refl _
        · exact Nat.le_of_lt (h.lt_of_mem_ancestors hdc)
      have := h.eq_of_surrounds hdp hp (h.surrounds_of_mem hdc hc) hk
      omega

theorem descended_step (hd : Descended t offset k c) :
    Descended t offset (k + 1) (if t.leadsTo offset c k then k else c) := by
  split
  next hl =>
    obtain ⟨hp, hk⟩ := leadsTo_iff.mp hl
    refine ⟨Or.inr ⟨Nat.lt_succ_self k, hk⟩, fun b hb hs => ?_⟩
    rcases Nat.lt_or_eq_of_le (Nat.le_of_lt_succ hb) with hlt | rfl
    · rw [h.ancestors_of_parent hp]
      exact List.mem_cons_of_mem _ (hd.passed b hlt hs)
    · exact List.mem_cons_self
  next hl =>
    constructor
    · exact hd.reached.imp_right fun ⟨hlt, hs⟩ => ⟨Nat.lt_succ_of_lt hlt, hs⟩
    · intro b hb hs
      rcases Nat.lt_or_eq_of_le (Nat.le_of_lt_succ hb) with hlt | rfl
      · exact hd.passed b hlt hs
      · exact h.passed_of_not_leadsTo hd hs hl

theorem descended_nodeAt (offset : Nat) : Descended t offset t.size (t.nodeAt offset) := by
  suffices ∀ k, Descended t offset k ((List.range k).foldl
      (fun current i => if t.leadsTo offset current i then i else current) root) from this t.size
  intro k
  induction k with
  | zero => exact ⟨Or.inl rfl, fun b hb => absurd hb (Nat.not_lt_zero b)⟩
  | succ k ih =>
    rw [List.range_succ, List.foldl_append]
    exact h.descended_step ih

/-- The nodes around an offset are the node found there and those above it, but for the root,
which is found where there is nothing else. -/
theorem surrounds_iff_mem_nodeAt (hi : i ≠ root) :
    t.Surrounds offset i ↔ i ∈ t.nodeAt offset :: t.ancestors (t.nodeAt offset) := by
  obtain ⟨hreached, hpassed⟩ := h.descended_nodeAt offset
  constructor
  · intro hs
    exact hpassed i (lt_size_of_surrounds hs) hs
  · intro hmem
    rcases hreached with hroot | ⟨-, hs⟩
    · rw [hroot, h.ancestors_root, List.mem_singleton] at hmem
      exact absurd hmem hi
    · exact h.surrounds_of_mem hmem hs

end Laminar

end JavaRefactor.Tree
