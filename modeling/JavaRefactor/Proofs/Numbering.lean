import JavaRefactor.Proofs.Layout
import Mathlib.Data.List.Induction

/-! # Depth-first preorder

An address in a parse tree says which child to take at each step down from the root. Numbers
follow the lexicographic order of addresses: a node comes before all below it, and these come
before its later siblings. The tree that is built has one node for each address, under the number
of the address, and its links lead to the nodes above and below.
-/

namespace JavaRefactor

abbrev Address := List Nat

namespace RawTree

variable {raw sub sub' child : RawTree} {trees : List RawTree} {p q : Address} {i k l : Nat}

def at? (raw : RawTree) : Address → Option RawTree
  | [] => some raw
  | k :: p => raw.children[k]?.bind fun child => child.at? p

/-- The number of nodes that stand before an address: those above it, and those in the subtrees
to the left of the way down. -/
def number (raw : RawTree) : Address → Nat
  | [] => 0
  | k :: p =>
    1 + sizeAll (raw.children.take k) + raw.children[k]?.elim 0 fun child => child.number p

theorem at?_cons_eq_some_iff : raw.at? (k :: p) = some sub ↔
    ∃ child, raw.children[k]? = some child ∧ child.at? p = some sub := by
  rw [at?, Option.bind_eq_some_iff]

theorem at?_append (raw : RawTree) (p q : Address) :
    raw.at? (p ++ q) = (raw.at? p).bind fun sub => sub.at? q := by
  induction p generalizing raw with
  | nil => rfl
  | cons k p ih =>
    rw [List.cons_append, at?, at?, Option.bind_assoc]
    exact congrArg (Option.bind _) (funext ih)

theorem number_cons (h : raw.children[k]? = some child) (p : Address) :
    raw.number (k :: p) = 1 + sizeAll (raw.children.take k) + child.number p := by
  rw [number, h, Option.elim_some]

theorem number_singleton (raw : RawTree) (k : Nat) :
    raw.number [k] = 1 + sizeAll (raw.children.take k) := by
  rw [number]
  cases raw.children[k]? <;> rfl

theorem number_append (h : raw.at? p = some sub) (q : Address) :
    raw.number (p ++ q) = raw.number p + sub.number q := by
  induction p generalizing raw with
  | nil =>
    obtain rfl := Option.some.inj h
    exact (Nat.zero_add _).symm
  | cons k p ih =>
    obtain ⟨child, hk, hp⟩ := at?_cons_eq_some_iff.mp h
    rw [List.cons_append, number_cons hk, number_cons hk, ih hp]
    exact (Nat.add_assoc _ _ _).symm

theorem sizeAll_take_add_le (h : trees[k]? = some child) (hkl : k < l) :
    sizeAll (trees.take k) + child.size ≤ sizeAll (trees.take l) := by
  induction trees generalizing k l with
  | nil => simp at h
  | cons tree trees ih =>
    obtain ⟨l, rfl⟩ := Nat.exists_eq_add_one_of_ne_zero (Nat.ne_of_gt (Nat.zero_lt_of_lt hkl))
    cases k with
    | zero =>
      obtain rfl : tree = child := by simpa using h
      simp [sizeAll]
    | succ k =>
      have := ih (by simpa using h) (Nat.lt_of_succ_lt_succ hkl)
      simp only [List.take_succ_cons, sizeAll]
      omega

theorem number_add_size_le (h : raw.at? p = some sub) : raw.number p + sub.size ≤ raw.size := by
  induction p generalizing raw with
  | nil =>
    obtain rfl := Option.some.inj h
    simp [number]
  | cons k p ih =>
    obtain ⟨child, hk, hp⟩ := at?_cons_eq_some_iff.mp h
    have hlt := (List.getElem?_eq_some_iff.mp hk).1
    have hle := sizeAll_take_add_le hk hlt
    rw [List.take_length] at hle
    have := ih hp
    rw [number_cons hk, raw.size_eq]
    omega

theorem number_lt_size (h : raw.at? p = some sub) : raw.number p < raw.size := by
  have := number_add_size_le h
  have := sub.size_pos
  omega

theorem number_lt_number (hp : raw.at? p = some sub) (hq : raw.at? q = some sub') (h : p < q) :
    raw.number p < raw.number q := by
  induction p generalizing raw q with
  | nil =>
    cases q with
    | nil => exact absurd h (List.lt_irrefl _)
    | cons l q =>
      rw [number, number]
      omega
  | cons k p ih =>
    cases q with
    | nil => exact absurd h (List.not_lt_nil _)
    | cons l q =>
      obtain ⟨child, hk, hp⟩ := at?_cons_eq_some_iff.mp hp
      obtain ⟨child', hl, hq⟩ := at?_cons_eq_some_iff.mp hq
      rw [number_cons hk, number_cons hl]
      rcases List.cons_lt_cons_iff.mp h with hkl | ⟨rfl, hpq⟩
      · have hle := sizeAll_take_add_le hk hkl
        have hin := number_lt_size hp
        omega
      · obtain rfl := Option.some.inj (hk.symm.trans hl)
        have := ih hp hq hpq
        omega

theorem number_injective (hp : raw.at? p = some sub) (hq : raw.at? q = some sub')
    (h : raw.number p = raw.number q) : p = q := by
  apply List.le_antisymm
  · exact List.not_lt.mp fun hlt => Nat.ne_of_gt (number_lt_number hq hp hlt) h
  · exact List.not_lt.mp fun hlt => Nat.ne_of_lt (number_lt_number hp hq hlt) h

theorem number_lt_iff (hp : raw.at? p = some sub) (hq : raw.at? q = some sub') :
    raw.number p < raw.number q ↔ p < q := by
  constructor
  · intro h
    apply Classical.byContradiction
    intro hpq
    have hqp : ¬ q < p := fun hqp => Nat.lt_asymm h (number_lt_number hq hp hqp)
    have heq : p = q := List.le_antisymm (List.not_lt.mp hqp) (List.not_lt.mp hpq)
    exact Nat.ne_of_lt h (congrArg raw.number heq)
  · exact number_lt_number hp hq

theorem exists_subtree (h : i < sizeAll trees) : ∃ k child, trees[k]? = some child ∧
    sizeAll (trees.take k) ≤ i ∧ i < sizeAll (trees.take k) + child.size := by
  induction trees generalizing i with
  | nil => simp [sizeAll] at h
  | cons tree trees ih =>
    rw [sizeAll] at h
    rcases Nat.lt_or_ge i tree.size with hlt | hge
    · exact ⟨0, tree, rfl, by simp [sizeAll], by simpa [sizeAll] using hlt⟩
    · obtain ⟨k, child, hk, hlow, hhigh⟩ := @ih (i - tree.size) (by omega)
      refine ⟨k + 1, child, by simpa using hk, ?_, ?_⟩ <;>
        simp only [List.take_succ_cons, sizeAll] <;> omega

theorem exists_number (h : i < raw.size) : ∃ p sub, raw.at? p = some sub ∧ raw.number p = i := by
  induction i using Nat.strongRecOn generalizing raw with
  | ind i ih =>
    cases i with
    | zero => exact ⟨[], raw, rfl, rfl⟩
    | succ i =>
      rw [raw.size_eq] at h
      obtain ⟨k, child, hk, hlow, hhigh⟩ := @exists_subtree raw.children i (by omega)
      obtain ⟨p, sub, hp, hn⟩ := @ih (i - sizeAll (raw.children.take k)) (by omega) child (by omega)
      refine ⟨k :: p, sub, at?_cons_eq_some_iff.mpr ⟨child, hk, hp⟩, ?_⟩
      rw [number_cons hk, hn]
      omega

theorem roots_eq_map (first : Nat) (trees : List RawTree) :
    roots first trees = (List.range trees.length).map fun k => first + sizeAll (trees.take k) := by
  induction trees generalizing first with
  | nil => rfl
  | cons tree trees ih =>
    rw [roots, ih, List.length_cons, List.range_succ_eq_map, List.map_cons, List.map_map]
    simp [sizeAll, Nat.add_assoc]

theorem getElem?_layoutAll (above : List Nat) (first : Nat) (h : trees[k]? = some child)
    (hi : i < child.size) : (layoutAll above first trees)[sizeAll (trees.take k) + i]? =
      (child.layout above (first + sizeAll (trees.take k)))[i]? := by
  induction trees generalizing first k with
  | nil => simp at h
  | cons tree trees ih =>
    rw [layoutAll]
    cases k with
    | zero =>
      obtain rfl : tree = child := by simpa using h
      rw [List.getElem?_append_left (by simpa [sizeAll, length_layout] using hi)]
      simp [sizeAll]
    | succ k =>
      rw [List.getElem?_append_right (by simp [sizeAll, length_layout]; omega), length_layout,
        List.take_succ_cons, sizeAll, Nat.add_assoc, Nat.add_sub_cancel_left,
        ih _ (by simpa using h), Nat.add_assoc]

theorem getElem?_layout (above : List Nat) (first : Nat) (h : raw.at? p = some sub) :
    ∃ above', (raw.layout above first)[raw.number p]? =
      some (.ofLabel sub.label above' (roots (first + raw.number p + 1) sub.children)) := by
  induction p generalizing raw above first with
  | nil =>
    obtain rfl := Option.some.inj h
    exact ⟨above, by rw [layout_eq]; rfl⟩
  | cons k p ih =>
    obtain ⟨child, hk, hp⟩ := at?_cons_eq_some_iff.mp h
    have hn : raw.number (k :: p) = sizeAll (raw.children.take k) + child.number p + 1 := by
      rw [number_cons hk]
      omega
    obtain ⟨above', ha⟩ := ih (first :: above) (first + 1 + sizeAll (raw.children.take k)) hp
    refine ⟨above', ?_⟩
    have hfirst : first + 1 + sizeAll (raw.children.take k) + child.number p + 1 =
        first + raw.number (k :: p) + 1 := by omega
    rw [← hfirst, ← ha, layout_eq, hn, List.getElem?_cons_succ,
      getElem?_layoutAll _ _ hk (number_lt_size hp)]

end RawTree

namespace Tree

variable {t : Tree} {sub sub' : RawTree} {p q : Address} {i k : Nat}

namespace InPreorder

variable (h : t.InPreorder)
include h

theorem pairwise_ancestors (i : Nat) : (i :: t.ancestors i).Pairwise (· > ·) := by
  induction i using Nat.strongRecOn with
  | ind i ih =>
    refine List.pairwise_cons.mpr ⟨fun a ha => h.lt_of_mem_ancestors ha, ?_⟩
    cases hp : t.parent? i with
    | none =>
      have hnil : t.ancestors i = [] := List.head?_eq_none_iff.mp hp
      rw [hnil]
      exact List.Pairwise.nil
    | some p =>
      rw [h.ancestors_of_parent hp]
      exact ih p (h.parent_lt hp)

theorem getLast?_ancestors (h0 : 0 < i) (hs : i < t.size) :
    (t.ancestors i).getLast? = some root := by
  induction i using Nat.strongRecOn with
  | ind i ih =>
    obtain ⟨p, hp⟩ := h.exists_parent h0 hs
    have hlt := h.parent_lt hp
    rw [h.ancestors_of_parent hp, List.getLast?_cons]
    rcases Nat.eq_zero_or_pos p with rfl | hpos
    · rw [show t.ancestors 0 = [] from h.ancestors_root]
      rfl
    · rw [ih p hlt hpos (by omega)]
      rfl

end InPreorder

/-- The nodes know each other as parents and children, and the way up from each of them ends at
the root. -/
structure Linked (t : Tree) : Prop where
  parent_root : t.parent? root = none
  parent_lt : ∀ i < t.size, i ≠ root → ∃ p, t.parent? i = some p ∧ p < i
  mem_children : ∀ p c, c ∈ t.children p ↔ t.parent? c = some p
  sorted : ∀ p, (t.children p).Pairwise (· < ·)
  /-- The way up goes from parent to parent. -/
  ancestors : ∀ i, t.ancestors i = (t.parent? i).elim [] fun p => p :: t.ancestors p
  decreasing : ∀ i, (i :: t.ancestors i).Pairwise (· > ·)
  last : ∀ i < t.size, i ≠ root → (t.ancestors i).getLast? = some root
  ancestors_root : t.ancestors root = []

theorem InPreorder.linked (h : t.InPreorder) : t.Linked where
  parent_root := by rw [parent?, Node.parent?, List.head?_eq_none_iff]; exact h.ancestors_root
  parent_lt i hi hr := by
    obtain ⟨p, hp⟩ := h.exists_parent (Nat.pos_of_ne_zero hr) hi
    exact ⟨p, hp, h.parent_lt hp⟩
  mem_children p c := by
    rw [h.mem_children]
    exact and_iff_right_of_imp h.lt_size_of_parent
  sorted := h.sorted
  ancestors i := by
    cases hp : t.parent? i with
    | none => exact List.head?_eq_none_iff.mp hp
    | some p => exact h.ancestors_of_parent hp
  decreasing := h.pairwise_ancestors
  last i hi hr := h.getLast?_ancestors (Nat.pos_of_ne_zero hr) hi
  ancestors_root := h.ancestors_root

/-- The nodes are those of a parse tree in depth-first preorder: one for each address, numbered
in the order of the addresses. -/
structure Copies (t : Tree) (raw : RawTree) : Prop where
  size : t.size = raw.size
  lt_size_iff : ∀ i, i < t.size ↔ ∃ p, (raw.at? p).isSome ∧ raw.number p = i
  number_lt_iff : ∀ p q, (raw.at? p).isSome → (raw.at? q).isSome →
    (raw.number p < raw.number q ↔ p < q)
  node_root : t.node root = { Node.ofLabel raw.label [] (t.children root) with
    span := ⟨0, Text.byteLength t.source⟩ }
  node : ∀ p sub, raw.at? p = some sub → p ≠ [] → t.node (raw.number p) =
    .ofLabel sub.label (t.ancestors (raw.number p)) (t.children (raw.number p))
  /-- Children stand in the order of the parse tree. -/
  children : ∀ p sub, raw.at? p = some sub → t.children (raw.number p) =
    (List.range sub.children.length).map fun k => raw.number (p ++ [k])
  /-- What lies below a node has the numbers that follow. -/
  mem_ancestors_iff : ∀ p sub, raw.at? p = some sub → ∀ i, raw.number p ∈ t.ancestors i ↔
    raw.number p < i ∧ i < raw.number p + sub.size

section

variable (source : String) (raw : RawTree)

theorem children_ofRaw (h : raw.at? p = some sub) : (ofRaw source raw).children (raw.number p) =
    (List.range sub.children.length).map fun k => raw.number (p ++ [k]) := by
  obtain ⟨above, hn⟩ := RawTree.getElem?_layout [] 0 h
  rw [children, node_ofRaw, hn]
  change RawTree.roots (0 + raw.number p + 1) sub.children = _
  rw [RawTree.roots_eq_map]
  refine List.map_congr_left fun k _ => ?_
  rw [RawTree.number_append h, RawTree.number_singleton]
  omega

theorem node_ofRaw_number (h : raw.at? p = some sub) (hp : p ≠ []) :
    (ofRaw source raw).node (raw.number p) = .ofLabel sub.label
      ((ofRaw source raw).ancestors (raw.number p))
      ((ofRaw source raw).children (raw.number p)) := by
  obtain ⟨above, hn⟩ := RawTree.getElem?_layout [] 0 h
  have hroot : raw.number p ≠ root := fun he => hp (RawTree.number_injective h rfl he)
  rw [ancestors, children, node_ofRaw_of_ne source raw hroot, hn]
  rfl

theorem parent?_ofRaw (h : raw.at? (p ++ [k]) = some sub) :
    (ofRaw source raw).parent? (raw.number (p ++ [k])) = some (raw.number p) := by
  obtain ⟨sub', hp, hk⟩ := Option.bind_eq_some_iff.mp (raw.at?_append p [k] ▸ h)
  obtain ⟨child, hchild, -⟩ := RawTree.at?_cons_eq_some_iff.mp hk
  have hlt := (List.getElem?_eq_some_iff.mp hchild).1
  refine (((ofRaw_inPreorder source raw).mem_children _ _).mp ?_).2
  rw [children_ofRaw source raw hp]
  exact List.mem_map.mpr ⟨k, List.mem_range.mpr hlt, rfl⟩

theorem number_mem_ancestors_iff (hp : raw.at? p = some sub) (hq : raw.at? q = some sub') :
    raw.number p ∈ (ofRaw source raw).ancestors (raw.number q) ↔ p <+: q ∧ p ≠ q := by
  have ht := ofRaw_inPreorder source raw
  induction q using List.reverseRecOn generalizing sub' with
  | nil =>
    rw [show (ofRaw source raw).ancestors (raw.number []) = [] from ht.ancestors_root]
    simp
  | append_singleton q k ih =>
    obtain ⟨above, hq', -⟩ := Option.bind_eq_some_iff.mp (raw.at?_append q [k] ▸ hq)
    have heq : raw.number p = raw.number q ↔ p = q :=
      ⟨RawTree.number_injective hp hq', congrArg raw.number⟩
    have habove : raw.number p ∈ (ofRaw source raw).ancestors (raw.number q) ↔ p <+: q ∧ p ≠ q :=
      ih hq'
    rw [ht.mem_ancestors_iff (parent?_ofRaw source raw hq), heq, habove, List.prefix_concat_iff]
    constructor
    · rintro (rfl | ⟨hpre, -⟩)
      · exact ⟨Or.inr List.prefix_rfl, by simp⟩
      · refine ⟨Or.inr hpre, ?_⟩
        rintro rfl
        have := hpre.length_le
        rw [List.length_append, List.length_singleton] at this
        omega
    · rintro ⟨hpre | hpre, hne⟩
      · exact absurd hpre hne
      · exact (Decidable.em (p = q)).imp_right fun hpq => ⟨hpre, hpq⟩

/-- The nodes below a node are those of its subtree, and their numbers follow. -/
theorem number_mem_ancestors_iff_lt (hp : raw.at? p = some sub) :
    raw.number p ∈ (ofRaw source raw).ancestors i ↔
      raw.number p < i ∧ i < raw.number p + sub.size := by
  have ht := ofRaw_inPreorder source raw
  constructor
  · intro hmem
    have hi := (ht.lt_size_of_ancestors_ne (List.ne_nil_of_mem hmem)).2
    obtain ⟨q, sub', hq, rfl⟩ := RawTree.exists_number (size_ofRaw source raw ▸ hi)
    -- the address of the lower node goes on below `p`, within the subtree there
    obtain ⟨⟨r, rfl⟩, -⟩ := (number_mem_ancestors_iff source raw hp hq).mp hmem
    have hr : sub.at? r = some sub' := by rwa [RawTree.at?_append, hp] at hq
    have := RawTree.number_lt_size hr
    have := ht.lt_of_mem_ancestors hmem
    rw [RawTree.number_append hp] at this ⊢
    omega
  · rintro ⟨hlow, hhigh⟩
    obtain ⟨r, sub', hr, hn⟩ := @RawTree.exists_number sub (i - raw.number p) (by omega)
    have hq : raw.at? (p ++ r) = some sub' := by rw [RawTree.at?_append, hp]; exact hr
    have hi : raw.number (p ++ r) = i := by
      rw [RawTree.number_append hp, hn]
      omega
    rw [← hi] at hlow ⊢
    refine (number_mem_ancestors_iff source raw hp hq).mpr ⟨List.prefix_append p r, ?_⟩
    intro he
    exact Nat.ne_of_lt hlow (congrArg raw.number he)

theorem lt_size_ofRaw_iff :
    i < (ofRaw source raw).size ↔ ∃ p, (raw.at? p).isSome ∧ raw.number p = i := by
  rw [size_ofRaw]
  constructor
  · intro hi
    obtain ⟨p, sub, hp, hn⟩ := RawTree.exists_number hi
    exact ⟨p, by rw [hp]; rfl, hn⟩
  · rintro ⟨p, hp, rfl⟩
    obtain ⟨sub, hp⟩ := Option.isSome_iff_exists.mp hp
    exact RawTree.number_lt_size hp

/-- The walk over a parse tree copies it in depth-first preorder: there is one node for each node
of the parse, numbered by its address, the subtree of a node has the numbers that follow it,
parents and children agree, and the way up from a node leads through falling numbers to the root,
which alone has no parent. -/
theorem ofRaw_copies : (ofRaw source raw).Copies raw ∧ (ofRaw source raw).Linked := by
  refine ⟨?_, (ofRaw_inPreorder source raw).linked⟩
  refine
    { size := size_ofRaw source raw
      lt_size_iff := fun i => lt_size_ofRaw_iff source raw
      number_lt_iff := ?_
      node_root := ?_
      node := fun p sub => node_ofRaw_number source raw
      children := fun p sub => children_ofRaw source raw
      mem_ancestors_iff := fun p sub hp i => number_mem_ancestors_iff_lt source raw hp }
  · intro p q hp hq
    obtain ⟨sub, hp⟩ := Option.isSome_iff_exists.mp hp
    obtain ⟨sub', hq⟩ := Option.isSome_iff_exists.mp hq
    exact RawTree.number_lt_iff hp hq
  · rw [children, node_ofRaw_root, RawTree.layout_eq]
    rfl

end

end Tree

end JavaRefactor
