import JavaRefactor.Proofs.Arena
import JavaRefactor.Proofs.Preorder

/-! # The numbered tree of a parse tree is in preorder

A parse tree is laid out as a stretch of nodes with consecutive numbers. Within a stretch
every node but the topmost ones hangs below an earlier node of the stretch, and the
children of a node are the nodes that hang below it.
-/

namespace JavaRefactor

open JavaRefactor.Tree

/-- The nodes numbered from `first` on, the topmost of which are `tops` and lie below
`above`. -/
structure Stretch (above : List Nat) (first : Nat) (tops : List Nat) (nodes : List Node) :
    Prop where
  placed : ∀ (k : Nat) (n : Node), nodes[k]? = some n → (n.ancestors = above ∧ first + k ∈ tops) ∨
    ∃ j m, j < k ∧ nodes[j]? = some m ∧ n.ancestors = (first + j) :: m.ancestors ∧
      (j + 1 = k ∨ ∃ l, nodes[k - 1]? = some l ∧ first + j ∈ l.ancestors)
  tops_placed : ∀ i ∈ tops, ∃ k n, nodes[k]? = some n ∧ i = first + k ∧ n.ancestors = above
  children : ∀ (k : Nat) (n : Node) (i : Nat), nodes[k]? = some n →
    (i ∈ n.children ↔ ∃ m c, nodes[m]? = some c ∧ i = first + m ∧
      c.ancestors.head? = some (first + k))
  sorted : ∀ (k : Nat) (n : Node), nodes[k]? = some n → n.children.Pairwise (· < ·)
  tops_sorted : tops.Pairwise (· < ·)

namespace Stretch

variable {above tops tops' : List Nat} {first : Nat} {nodes nodes' : List Node}

theorem nil (above : List Nat) (first : Nat) : Stretch above first [] [] := by
  constructor <;> simp

theorem suffix (h : Stretch above first tops nodes) {k : Nat} {n : Node}
    (hn : nodes[k]? = some n) : above <:+ n.ancestors := by
  induction k using Nat.strongRecOn generalizing n with
  | ind k ih =>
    rcases h.placed k n hn with ⟨ha, -⟩ | ⟨j, m, hj, hm, ha, -⟩
    · exact ha ▸ List.suffix_rfl
    · rw [ha]
      exact (ih j hj hm).trans (List.suffix_cons _ _)

/-- A node hangs below a node of the stretch, or below the nearest of those above all. -/
theorem head_cases (h : Stretch above first tops nodes) {k : Nat} {n : Node}
    (hn : nodes[k]? = some n) :
    n.ancestors.head? = above.head? ∨ ∃ j < k, n.ancestors.head? = some (first + j) := by
  rcases h.placed k n hn with ⟨ha, -⟩ | ⟨j, m, hj, -, ha, -⟩
  · exact Or.inl (by rw [ha])
  · exact Or.inr ⟨j, hj, by rw [ha]; rfl⟩

theorem tops_lt (h : Stretch above first tops nodes) {i : Nat} (hi : i ∈ tops) :
    first ≤ i ∧ i < first + nodes.length := by
  obtain ⟨k, n, hn, rfl, -⟩ := h.tops_placed i hi
  have := (List.getElem?_eq_some_iff.mp hn).1
  omega

theorem head?_ne (habove : ∀ a ∈ above, a < first) {i : Nat} (hi : first ≤ i) :
    above.head? ≠ some i := by
  intro he
  have := habove i (List.mem_of_head? he)
  omega

section

variable (h : Stretch above first tops nodes)
  (h' : Stretch above (first + nodes.length) tops' nodes') (habove : ∀ a ∈ above, a < first)
include h h' habove

-- a node of one part never hangs below a node of the other
theorem children_append_left {k i : Nat} {n : Node} (hn : nodes[k]? = some n) :
    i ∈ n.children ↔ ∃ m c, (nodes ++ nodes')[m]? = some c ∧ i = first + m ∧
      c.ancestors.head? = some (first + k) := by
  have hk := (List.getElem?_eq_some_iff.mp hn).1
  rw [h.children k n i hn]
  constructor
  · rintro ⟨m, c, hc, rfl, hp⟩
    have hm := (List.getElem?_eq_some_iff.mp hc).1
    exact ⟨m, c, by rw [List.getElem?_append_left hm]; exact hc, rfl, hp⟩
  · rintro ⟨m, c, hc, rfl, hp⟩
    rcases Nat.lt_or_ge m nodes.length with hm | hm
    · exact ⟨m, c, by rwa [List.getElem?_append_left hm] at hc, rfl, hp⟩
    · rw [List.getElem?_append_right hm] at hc
      rcases h'.head_cases hc with he | ⟨j, -, he⟩
      · exact absurd (he.symm.trans hp) (head?_ne habove (by omega))
      · have := Option.some.inj (he.symm.trans hp)
        omega

theorem children_append_right {k i : Nat} {n : Node} (hn : nodes'[k]? = some n) :
    i ∈ n.children ↔ ∃ m c, (nodes ++ nodes')[m]? = some c ∧ i = first + m ∧
      c.ancestors.head? = some (first + (nodes.length + k)) := by
  rw [h'.children k n i hn, Nat.add_assoc]
  constructor
  · rintro ⟨m, c, hc, rfl, hp⟩
    refine ⟨nodes.length + m, c, ?_, by omega, hp⟩
    rw [List.getElem?_append_right (by omega), Nat.add_sub_cancel_left]
    exact hc
  · rintro ⟨m, c, hc, rfl, hp⟩
    rcases Nat.lt_or_ge m nodes.length with hm | hm
    · rw [List.getElem?_append_left hm] at hc
      rcases h.head_cases hc with he | ⟨j, hj, he⟩
      · exact absurd (he.symm.trans hp) (head?_ne habove (by omega))
      · have := Option.some.inj (he.symm.trans hp)
        omega
    · rw [List.getElem?_append_right hm] at hc
      exact ⟨m - nodes.length, c, hc, by omega, hp⟩

end

theorem append (h : Stretch above first tops nodes)
    (h' : Stretch above (first + nodes.length) tops' nodes') (habove : ∀ a ∈ above, a < first) :
    Stretch above first (tops ++ tops') (nodes ++ nodes') := by
  constructor
  · intro k n hn
    rcases Nat.lt_or_ge k nodes.length with hk | hk
    · rw [List.getElem?_append_left hk] at hn
      rcases h.placed k n hn with ⟨ha, ht⟩ | ⟨j, m, hj, hm, ha, hprev⟩
      · exact Or.inl ⟨ha, List.mem_append_left _ ht⟩
      · refine Or.inr ⟨j, m, hj, by rw [List.getElem?_append_left (by omega)]; exact hm, ha, ?_⟩
        rcases hprev with hprev | ⟨l, hl, hmem⟩
        · exact Or.inl hprev
        · exact Or.inr ⟨l, by rw [List.getElem?_append_left (by omega)]; exact hl, hmem⟩
    · rw [List.getElem?_append_right hk] at hn
      rcases h'.placed _ n hn with ⟨ha, ht⟩ | ⟨j, m, hj, hm, ha, hprev⟩
      · refine Or.inl ⟨ha, List.mem_append_right _ ?_⟩
        rwa [show first + nodes.length + (k - nodes.length) = first + k by omega] at ht
      · refine Or.inr ⟨nodes.length + j, m, by omega, ?_, ?_, ?_⟩
        · rw [List.getElem?_append_right (by omega), Nat.add_sub_cancel_left]
          exact hm
        · rw [ha, Nat.add_assoc]
        · rcases hprev with hprev | ⟨l, hl, hmem⟩
          · exact Or.inl (by omega)
          · refine Or.inr ⟨l, ?_, by rwa [← Nat.add_assoc]⟩
            rw [List.getElem?_append_right (by omega),
              show k - 1 - nodes.length = k - nodes.length - 1 by omega]
            exact hl
  · intro i hi
    rcases List.mem_append.mp hi with hi | hi
    · obtain ⟨k, n, hn, rfl, ha⟩ := h.tops_placed i hi
      have hk := (List.getElem?_eq_some_iff.mp hn).1
      exact ⟨k, n, by rw [List.getElem?_append_left hk]; exact hn, rfl, ha⟩
    · obtain ⟨k, n, hn, rfl, ha⟩ := h'.tops_placed i hi
      refine ⟨nodes.length + k, n, ?_, by omega, ha⟩
      rw [List.getElem?_append_right (by omega), Nat.add_sub_cancel_left]
      exact hn
  · intro k n i hn
    rcases Nat.lt_or_ge k nodes.length with hk | hk
    · exact h.children_append_left h' habove (by rwa [List.getElem?_append_left hk] at hn)
    · rw [List.getElem?_append_right hk] at hn
      rw [h.children_append_right h' habove hn, Nat.add_sub_cancel' hk]
  · intro k n hn
    rcases Nat.lt_or_ge k nodes.length with hk | hk
    · exact h.sorted k n (by rwa [List.getElem?_append_left hk] at hn)
    · exact h'.sorted _ n (by rwa [List.getElem?_append_right hk] at hn)
  · refine List.pairwise_append.mpr ⟨h.tops_sorted, h'.tops_sorted, fun i hi j hj => ?_⟩
    exact Nat.lt_of_lt_of_le (h.tops_lt hi).2 (h'.tops_lt hj).1

section

variable {node : Node} (ha : node.ancestors = above)
  (h : Stretch (first :: above) (first + 1) node.children nodes) (habove : ∀ a ∈ above, a < first)
include ha h habove

theorem children_cons_node {i : Nat} :
    i ∈ node.children ↔ ∃ m c, (node :: nodes)[m]? = some c ∧ i = first + m ∧
      c.ancestors.head? = some (first + 0) := by
  constructor
  · intro hi
    obtain ⟨m, c, hc, rfl, hp⟩ := h.tops_placed i hi
    exact ⟨m + 1, c, by simpa using hc, by omega, by rw [hp]; rfl⟩
  · rintro ⟨m, c, hc, rfl, hp⟩
    cases m with
    | zero =>
      obtain rfl : node = c := by simpa using hc
      exact absurd (ha ▸ hp) (head?_ne habove (by omega))
    | succ m =>
      rw [List.getElem?_cons_succ] at hc
      rcases h.placed m c hc with ⟨-, ht⟩ | ⟨j, l, -, -, hl, -⟩
      · rwa [show first + (m + 1) = first + 1 + m by omega]
      · rw [hl, List.head?_cons] at hp
        have : first + 1 + j = first + 0 := Option.some.inj hp
        omega

theorem children_cons {k i : Nat} {n : Node} (hn : nodes[k]? = some n) :
    i ∈ n.children ↔ ∃ m c, (node :: nodes)[m]? = some c ∧ i = first + m ∧
      c.ancestors.head? = some (first + (k + 1)) := by
  rw [h.children k n i hn]
  constructor
  · rintro ⟨m, c, hc, rfl, hp⟩
    exact ⟨m + 1, c, by simpa using hc, by omega, by rw [hp]; congr 1; omega⟩
  · rintro ⟨m, c, hc, rfl, hp⟩
    cases m with
    | zero =>
      obtain rfl : node = c := by simpa using hc
      exact absurd (ha ▸ hp) (head?_ne habove (by omega))
    | succ m => exact ⟨m, c, by simpa using hc, by omega, by rw [hp]; congr 1; omega⟩

end

theorem cons {node : Node} (ha : node.ancestors = above)
    (h : Stretch (first :: above) (first + 1) node.children nodes)
    (habove : ∀ a ∈ above, a < first) : Stretch above first [first] (node :: nodes) := by
  constructor
  · intro k n hn
    cases k with
    | zero =>
      obtain rfl : node = n := by simpa using hn
      exact Or.inl ⟨ha, by simp⟩
    | succ k =>
      rw [List.getElem?_cons_succ] at hn
      rcases h.placed k n hn with ⟨hp, -⟩ | ⟨j, m, hj, hm, hp, hprev⟩
      · refine Or.inr ⟨0, node, by omega, rfl, by rw [hp, ha, Nat.add_zero], ?_⟩
        cases k with
        | zero => exact Or.inl rfl
        | succ k =>
          have hk := (List.getElem?_eq_some_iff.mp hn).1
          refine Or.inr ⟨nodes[k], by simp, ?_⟩
          exact (h.suffix (List.getElem?_eq_getElem (by omega))).subset (by simp)
      · refine Or.inr ⟨j + 1, m, by omega, by simpa using hm, by rw [hp]; congr 1; omega, ?_⟩
        rcases hprev with hprev | ⟨l, hl, hmem⟩
        · exact Or.inl (by omega)
        · refine Or.inr ⟨l, ?_, by rwa [show first + (j + 1) = first + 1 + j by omega]⟩
          rw [show k + 1 - 1 = k - 1 + 1 by omega, List.getElem?_cons_succ]
          exact hl
  · intro i hi
    obtain rfl := List.mem_singleton.mp hi
    exact ⟨0, node, rfl, rfl, ha⟩
  · intro k n i hn
    cases k with
    | zero =>
      obtain rfl : node = n := by simpa using hn
      exact h.children_cons_node ha habove
    | succ k => exact h.children_cons ha habove (by simpa using hn)
  · intro k n hn
    cases k with
    | zero =>
      obtain rfl : node = n := by simpa using hn
      exact h.tops_sorted
    | succ k => exact h.sorted k n (by simpa using hn)
  · simp

end Stretch

namespace RawTree

mutual

theorem stretch_layout {above : List Nat} {first : Nat} (habove : ∀ a ∈ above, a < first) :
    ∀ tree : RawTree, Stretch above first [first] (tree.layout above first)
  | .node label children => by
      have hbelow : ∀ a ∈ first :: above, a < first + 1 := by
        intro a ha
        rcases List.mem_cons.mp ha with rfl | ha
        · omega
        · have := habove a ha
          omega
      rw [layout]
      exact .cons rfl (stretch_layoutAll hbelow children) habove

theorem stretch_layoutAll {above : List Nat} {first : Nat} (habove : ∀ a ∈ above, a < first) :
    ∀ trees : List RawTree, Stretch above first (roots first trees) (layoutAll above first trees)
  | [] => .nil above first
  | tree :: trees => by
      have hlater : ∀ a ∈ above, a < first + tree.size := fun a ha =>
        Nat.lt_of_lt_of_le (habove a ha) (Nat.le_add_right _ _)
      have h' := stretch_layoutAll hlater trees
      rw [← length_layout above first tree] at h'
      have h := (stretch_layout habove tree).append h' habove
      rwa [length_layout] at h

end

end RawTree

namespace Tree

theorem inPreorder_of_stretch {t : Tree} {nodes : List Node} (h : Stretch [] 0 [0] nodes)
    (hsize : t.size = nodes.length)
    (hancestors : ∀ i, t.ancestors i = ((nodes[i]?).map (·.ancestors)).getD [])
    (hchildren : ∀ i, t.children i = ((nodes[i]?).map (·.children)).getD []) : t.InPreorder := by
  have hat {i : Nat} {n : Node} (hn : nodes[i]? = some n) : t.ancestors i = n.ancestors := by
    rw [hancestors, hn]
    rfl
  constructor
  · obtain ⟨k, n, hn, hk, ha⟩ := h.tops_placed 0 (by simp)
    obtain rfl : k = 0 := by omega
    rw [root, hat hn, ha]
  · intro i h0 hi
    have hn := List.getElem?_eq_getElem (hsize ▸ hi)
    rcases h.placed i _ hn with ⟨-, ht⟩ | ⟨j, m, hj, hm, ha, hprev⟩
    · simp at ht
      omega
    · rw [Nat.zero_add] at ha hprev
      refine ⟨j, by rw [hat hn, ha, hat hm], ?_⟩
      rcases hprev with hprev | ⟨l, hl, hmem⟩
      · exact Or.inl (by omega)
      · exact Or.inr (hat hl ▸ hmem)
  · intro p i
    rw [hchildren, parent?, Node.parent?]
    change _ ↔ i < t.size ∧ (t.ancestors i).head? = some p
    cases hp : nodes[p]? with
    | none =>
      simp only [Option.map_none, Option.getD_none, List.not_mem_nil, false_iff]
      rintro ⟨hi, hh⟩
      have hn := List.getElem?_eq_getElem (hsize ▸ hi)
      rw [hat hn] at hh
      rcases h.head_cases hn with he | ⟨j, hj, he⟩
      · simp [he] at hh
      · have hj' : 0 + j = p := Option.some.inj (he.symm.trans hh)
        rw [List.getElem?_eq_none_iff] at hp
        omega
    | some n =>
      simp only [Option.map_some, Option.getD_some, h.children p n i hp, Nat.zero_add]
      constructor
      · rintro ⟨m, c, hc, rfl, hh⟩
        exact ⟨hsize ▸ (List.getElem?_eq_some_iff.mp hc).1, hat hc ▸ hh⟩
      · rintro ⟨hi, hh⟩
        have hn := List.getElem?_eq_getElem (hsize ▸ hi)
        exact ⟨i, _, hn, rfl, hat hn ▸ hh⟩
  · intro p
    rw [hchildren]
    cases hp : nodes[p]? with
    | none => simp
    | some n => exact h.sorted p n hp

theorem ofRaw_inPreorder (source : String) (raw : RawTree) : (ofRaw source raw).InPreorder := by
  apply inPreorder_of_stretch (RawTree.stretch_layout (by simp) raw)
  · rw [size_ofRaw, RawTree.length_layout]
  · intro i
    rw [ancestors, node_ofRaw]
    cases (raw.layout [] 0)[i]? <;> rfl
  · intro i
    rw [children, node_ofRaw]
    cases (raw.layout [] 0)[i]? <;> rfl

end Tree

end JavaRefactor
