import JavaRefactor.Proofs.Constructor

/-! # The scopes around a node

The walk comes to every node that does not lie in an error. The stack that it has then can be
read off the finished resolution: it holds the scopes that the nodes above have opened, the
innermost first.
-/

namespace JavaRefactor

def Resolution.openedBy? (r : Resolution) (i : NodeId) : Option ScopeId :=
  r.scopes.toList.findIdx? fun s => s.node == i

/-- The scopes that the nodes above a node open, the innermost first. -/
def Resolution.scopesAround (r : Resolution) (t : Tree) (i : NodeId) : List ScopeId :=
  (t.ancestors i).filterMap r.openedBy?

/-- The node is no error and lies below none, the root apart. -/
def Tree.IsReached (t : Tree) (i : NodeId) : Prop :=
  i < t.size ∧ ∀ a ∈ i :: t.ancestors i, t.isError a → a = Tree.root

instance (t : Tree) (i : NodeId) : Decidable (t.IsReached i) :=
  inferInstanceAs (Decidable (_ ∧ _))

theorem Tree.IsReached.of_mem_ancestors {t : Tree} {i a : NodeId} (hi : t.IsReached i)
    (ht : t.InPreorder) (ha : a ∈ t.ancestors i) : t.IsReached a := by
  refine ⟨Nat.lt_trans (ht.lt_of_mem_ancestors ha) hi.1, fun b hb => hi.2 b ?_⟩
  rcases List.mem_cons.mp hb with rfl | hb
  · exact List.mem_cons_of_mem _ ha
  · exact List.mem_cons_of_mem _ (ht.ancestors_trans hb ha)

theorem Tree.IsReached.of_parent {t : Tree} {i p : NodeId} (hi : t.IsReached i) (ht : t.InPreorder)
    (hp : t.parent? i = some p) : t.IsReached p :=
  hi.of_mem_ancestors ht ((ht.mem_ancestors_iff hp).mpr (Or.inl rfl))

namespace Walk

variable {t : Tree} {v : Trail} {i j k p c : Nat} {stack : List ScopeId}

structure Numbered (t : Tree) (k : Nat) (scopes : List Scope) : Prop where
  opens : ∀ s ∈ scopes, s.node < k ∧ (t.opens? s.node).isSome
  sorted : (scopes.map (·.node)).Pairwise (· < ·)

theorem Numbered.visit (h : Numbered t k v.scopes.toList) :
    Numbered t (k + 1) (visit t v k).scopes.toList := by
  have hlt (s : Scope) (hs : s ∈ v.scopes.toList) : s.node < k + 1 ∧ (t.opens? s.node).isSome :=
    ⟨Nat.lt_succ_of_lt (h.opens s hs).1, (h.opens s hs).2⟩
  by_cases ho : v.reached? t k = none ∨ t.opens? k = none
  · rw [visit_scopes_of_not_opens ho]
    exact ⟨hlt, h.sorted⟩
  · obtain ⟨hr, ho⟩ := not_or.mp ho
    obtain ⟨stack, hr⟩ := Option.ne_none_iff_exists'.mp hr
    obtain ⟨kind, ho⟩ := Option.ne_none_iff_exists'.mp ho
    rw [visit_scopes_of_opens hr ho, Array.toList_push]
    constructor
    · intro s hs
      rcases List.mem_append.mp hs with hs | hs
      · exact hlt s hs
      · obtain rfl := List.mem_singleton.mp hs
        exact ⟨Nat.lt_succ_self k, by simp [newScope, ho]⟩
    · rw [List.map_append, List.pairwise_append]
      refine ⟨h.sorted, List.pairwise_singleton _ _, fun a ha b hb => ?_⟩
      obtain ⟨s, hs, rfl⟩ := List.mem_map.mp ha
      obtain rfl : b = k := by simpa [newScope] using hb
      exact (h.opens s hs).1

theorem numbered_upTo (t : Tree) (k : Nat) : Numbered t k (upTo t k).scopes.toList := by
  induction k with
  | zero => exact ⟨by simp [upTo_zero], by simp [upTo_zero]⟩
  | succ k ih => exact upTo_succ t k ▸ ih.visit

theorem openedBy?_eq_some_iff :
    (upTo t k).openedBy? i = some c ↔ ∃ s, (upTo t k).scopes[c]? = some s ∧ s.node = i := by
  have hsorted := (numbered_upTo t k).sorted
  rw [Resolution.openedBy?, List.findIdx?_eq_some_iff_getElem]
  simp only [beq_iff_eq, ← Array.getElem?_toList]
  constructor
  · rintro ⟨hc, hn, -⟩
    exact ⟨_, List.getElem?_eq_getElem hc, hn⟩
  · rintro ⟨s, hs, rfl⟩
    obtain ⟨hc, rfl⟩ := List.getElem?_eq_some_iff.mp hs
    refine ⟨hc, rfl, fun j hj he => ?_⟩
    rw [List.pairwise_map] at hsorted
    exact Nat.ne_of_lt (List.pairwise_iff_getElem.mp hsorted j c (Nat.lt_trans hj hc) hc hj) he

theorem opens?_of_openedBy? (h : (upTo t k).openedBy? i = some c) : (t.opens? i).isSome := by
  obtain ⟨s, hs, rfl⟩ := openedBy?_eq_some_iff.mp h
  rw [← Array.getElem?_toList] at hs
  exact ((numbered_upTo t k).opens s (List.mem_of_getElem? hs)).2

theorem openedBy?_eq_none (h : t.opens? i = none) : (upTo t k).openedBy? i = none := by
  rw [Option.eq_none_iff_forall_ne_some]
  intro c hc
  simpa [h] using opens?_of_openedBy? hc

theorem openedBy?_of_reached (ht : t.IsProgram) (hik : i < k) (hk : k ≤ t.size)
    (hr : (upTo t i).reached? t i = some stack) (ho : (t.opens? i).isSome) :
    (upTo t k).openedBy? i = some (upTo t i).scopes.size := by
  obtain ⟨kind, ho⟩ := Option.isSome_iff_exists.mp ho
  refine openedBy?_eq_some_iff.mpr
    ⟨((upTo t i).announce t stack i).newScope t stack i kind, ?_, rfl⟩
  refine getElem?_mono (upTo_extends ht hik hk).scopes ?_
  rw [upTo_succ, visit_scopes_of_opens hr ho, Array.getElem?_push_size]

theorem scopesAround_of_parent {r : Resolution} (ht : t.InPreorder) (hp : t.parent? i = some p) :
    r.scopesAround t i = (r.openedBy? p).toList ++ r.scopesAround t p := by
  rw [Resolution.scopesAround, ht.ancestors_of_parent hp]
  cases h : r.openedBy? p <;> simp [h, Resolution.scopesAround]

/-- The walk comes to a node that lies in no error, with the scopes around the node. -/
theorem reached?_eq_scopesAround (ht : t.IsProgram) (hi : t.IsReached i) (hik : i ≤ k)
    (hk : k ≤ t.size) :
    (upTo t i).reached? t i = some ((upTo t k).scopesAround t i) := by
  induction i using Nat.strongRecOn with
  | ind i ih =>
    rcases Nat.eq_zero_or_pos i with rfl | h0
    · have hroot : t.ancestors 0 = [] := ht.ancestors_root
      have hp : t.parent? 0 = none := List.head?_eq_none_iff.mpr hroot
      simp [Trail.reached?, Trail.outside, hp, Tree.root, Resolution.scopesAround, hroot]
    · obtain ⟨p, hp⟩ := ht.exists_parent h0 hi.1
      have hpi := ht.parent_lt hp
      have he : t.isError i = false := by
        by_contra he
        exact Nat.ne_of_gt h0 (hi.2 i List.mem_cons_self (by simpa using he))
      have hrp := ih p hpi (hi.of_parent ht.toInPreorder hp) (by lia)
      rw [reached?_eq_frame? ht.toInPreorder hp he, Trail.frame?, hrp,
        scopesAround_of_parent ht.toInPreorder hp]
      cases ho : t.opens? p with
      | none => simp [openedBy?_eq_none ho]
      | some kind =>
        simp [openedBy?_of_reached ht (Nat.lt_of_lt_of_le hpi hik) hk hrp (by simp [ho])]

theorem isReached_of_reached? (ht : t.IsProgram) (hi : i < t.size)
    (hr : (upTo t i).reached? t i = some stack) : t.IsReached i := by
  induction i using Nat.strongRecOn generalizing stack with
  | ind i ih =>
    have herror : t.isError i → i = Tree.root := by
      intro he
      by_contra hne
      simp [Trail.reached?, he, hne] at hr
    refine ⟨hi, fun a ha hea => ?_⟩
    rcases List.mem_cons.mp ha with rfl | ha
    · exact herror hea
    · obtain ⟨p, hp⟩ := ht.parent_of_mem ha
      have hpi := ht.parent_lt hp
      obtain ⟨outer, hrp, -⟩ :=
        Option.map_eq_some_iff.mp (reached?_of_parent ht.toInPreorder hp hr)
      rw [ht.ancestors_of_parent hp] at ha
      exact (ih p hpi (Nat.lt_trans hpi hi) hrp).2 a ha hea

theorem getLast?_scopesAround (ht : t.IsProgram) (hi : t.IsReached i) (h0 : 0 < i) :
    ((upTo t t.size).scopesAround t i).getLast? = some 0 := by
  induction i using Nat.strongRecOn with
  | ind i ih =>
    obtain ⟨p, hp⟩ := ht.exists_parent h0 hi.1
    have hpi := ht.parent_lt hp
    have hrp := hi.of_parent ht.toInPreorder hp
    rw [scopesAround_of_parent ht.toInPreorder hp]
    rcases Nat.eq_zero_or_pos p with rfl | hp0
    · have hroot : t.ancestors 0 = [] := ht.ancestors_root
      have hr := reached?_eq_scopesAround ht hrp (Nat.zero_le _) (Nat.le_refl _)
      have ho : (t.opens? 0).isSome := by simp [opens?_root ht, ← Tree.root.eq_1]
      rw [openedBy?_of_reached ht hrp.1 (Nat.le_refl _) hr ho]
      simp [Resolution.scopesAround, hroot, upTo_zero]
    · rw [List.getLast?_append, ih p hpi hrp hp0]
      rfl

end Walk

end JavaRefactor
