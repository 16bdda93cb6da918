import JavaRefactor.Proofs.Frames
import JavaRefactor.Proofs.Surroundings
import JavaRefactor.Proofs.Visibility

/-! # Scopes are nested as the nodes are

Scopes stand in the order of the nodes that open them. The parent of a scope is the scope of the
nearest node above that opens one, so the scopes form a tree with the scope of the file at its root,
and an identifier stands in the scope of the nearest node above it. The list that a scope keeps of
the scopes within it holds those whose parent it is.
-/

namespace JavaRefactor

def Tree.openers (t : Tree) : List NodeId :=
  t.ids.filter fun i => decide (t.IsReached i) && (t.opens? i).isSome

namespace Resolution

/-- The scope that is opened by the nearest of the nodes above that open one. -/
def scopeAround? (r : Resolution) (t : Tree) (i : NodeId) : Option ScopeId :=
  (t.ancestors i).findSome? r.openedBy?

theorem scopeAround?_eq_head? (r : Resolution) (t : Tree) (i : NodeId) :
    r.scopeAround? t i = (r.scopesAround t i).head? := List.head?_filterMap.symm

/-- The scopes form a tree that mirrors the tree of nodes. -/
structure Mirrors (r : Resolution) (t : Tree) : Prop where
  openers : r.scopes.toList.map (·.node) = t.openers
  kind : ∀ s ∈ r.scopes.toList, t.opens? s.node = some s.kind ∧ s.span = t.span s.node
  file : ∃ s, r.scopes[0]? = some s ∧ s.kind = .file ∧ s.node = Tree.root
  parent : ∀ (c : ScopeId) (s : Scope), r.scopes[c]? = some s →
    s.parent? = r.scopeAround? t s.node ∧ (s.parent? = none ↔ c = 0) ∧
      ∀ p, s.parent? = some p → p < c
  /-- A chain follows the parents up to the scope of the file. -/
  chain : ∀ c < r.scopes.size,
    r.chain c = c :: (r.parent? c).elim [] r.chain ∧ (r.chain c).getLast? = some 0
  children : ∀ c, (r.children c).Pairwise (· < ·) ∧ ∀ x, x ∈ r.children c ↔
    ∃ s, r.scopes[x]? = some s ∧ s.parent? = some c ∧ r.scopeAround? t s.node = some c
  reference : ∀ o ∈ r.occurrences.toList, o.kind = .reference →
    r.scopeAround? t o.node = some o.scope
  unresolved : ∀ u ∈ r.unresolved, r.scopeAround? t u.node = some u.scope

end Resolution

namespace Walk

variable {t : Tree} {w w' : Walk} {u i k c : Nat} {stack : List ScopeId} {target : Target}
  {s : Scope} {d : Declaration}

/-- The lists that are kept of the scopes within each scope agree with the parents. -/
structure Nested (w : Walk) : Prop where
  size : w.nested.size = w.scopes.size
  parent : ∀ c p : ScopeId, w.parent? c = some p → p < w.scopes.size
  children : ∀ c, w.children c = (List.range w.scopes.size).filter (w.parent? · == some c)

theorem getD_nest {nested : Array (List ScopeId)} {p? : Option ScopeId} (c n : ScopeId)
    (hp : ∀ p ∈ p?, p < nested.size) : (nest nested n p?).getD c [] =
      nested.getD c [] ++ if p? = some c then [n] else [] := by
  cases p? with
  | none => simp [nest]
  | some p =>
    rw [nest, getD_modify_append (hp p rfl)]
    simp

theorem parent?_openScope (n : ScopeId) (kind : ScopeKind) :
    (w.openScope t stack i kind).parent? n =
      if n = w.scopes.size then stack.head? else w.parent? n := by
  simp only [Resolution.parent?, openScope, Array.getElem?_push]
  split <;> rfl

theorem Nested.openScope (h : w.Nested) (hin : ∀ x ∈ stack, x < w.scopes.size)
    (kind : ScopeKind) : (w.openScope t stack i kind).Nested := by
  have hhead : ∀ p ∈ stack.head?, p < w.scopes.size := fun p hp => hin p (List.mem_of_mem_head? hp)
  have hscopes : (w.openScope t stack i kind).scopes.size = w.scopes.size + 1 := by
    simp [Walk.openScope]
  constructor
  · rw [hscopes, Walk.openScope]
    cases stack.head? <;> simp [nest, h.size]
  · intro c p hp
    rw [parent?_openScope] at hp
    rw [hscopes]
    split at hp
    · exact Nat.lt_succ_of_lt (hhead p hp)
    · exact Nat.lt_succ_of_lt (h.parent c p hp)
  · intro c
    have hold : (w.nested.push []).getD c [] = w.children c := getD_push_nil _ c
    have hrest : (List.range w.scopes.size).filter
        ((w.openScope t stack i kind).parent? · == some c) = w.children c := by
      rw [h.children]
      refine List.filter_congr fun n hn => ?_
      rw [parent?_openScope, if_neg (Nat.ne_of_lt (List.mem_range.mp hn))]
    have hnew : [w.scopes.size].filter ((w.openScope t stack i kind).parent? · == some c) =
        if stack.head? = some c then [w.scopes.size] else [] := by
      by_cases hc : stack.head? = some c <;> simp [parent?_openScope, hc]
    have hin' : ∀ p ∈ stack.head?, p < (w.nested.push []).size := fun p hp => by
      simpa [h.size] using Nat.lt_succ_of_lt (hhead p hp)
    rw [hscopes, List.range_succ, List.filter_append, hrest, hnew, ← hold]
    exact getD_nest c _ hin'

theorem Nested.declared (h : w.Nested) (hd : Declared t stack w d w') : w'.Nested := by
  cases hd <;> exact ⟨h.size, h.parent, h.children⟩

theorem Nested.pairwise_children (h : w.Nested) (c : ScopeId) :
    (w.children c).Pairwise (· < ·) := by
  rw [h.children]
  exact List.pairwise_lt_range.filter _

theorem Nested.mem_children_iff (h : w.Nested) {x : ScopeId} :
    x ∈ w.children c ↔ ∃ s, w.scopes[x]? = some s ∧ s.parent? = some c := by
  simp only [h.children, Resolution.parent?, List.mem_filter, List.mem_range, beq_iff_eq,
    Option.bind_eq_some_iff]
  refine and_iff_right_of_imp ?_
  rintro ⟨s, hs, -⟩
  exact (Array.getElem?_eq_some_iff.mp hs).1

theorem nested_upTo (ht : t.IsProgram) (hk : k ≤ t.size) : Nested (upTo t k) := by
  refine upTo_preserves ht hk ?_ (fun _ _ _ kind hin h => h.openScope hin kind)
    (fun _ _ h => ⟨h.size, h.parent, h.children⟩) (fun _ _ hd h => h.declared hd)
    (fun _ _ h => ⟨h.size, h.parent, h.children⟩)
  exact ⟨rfl, by simp [Resolution.parent?], fun c => by simp [Resolution.children]⟩

theorem isSome_reached?_iff (ht : t.IsProgram) (hi : i < t.size) :
    ((upTo t i).reached? t i).isSome ↔ t.IsReached i := by
  constructor
  · intro h
    obtain ⟨stack, hr⟩ := Option.isSome_iff_exists.mp h
    exact isReached_of_reached? ht hi hr
  · intro h
    rw [reached?_eq_scopesAround ht h (Nat.le_refl _) (Nat.le_of_lt hi)]
    rfl

theorem map_node_upTo (ht : t.IsProgram) (hk : k ≤ t.size) :
    (upTo t k).scopes.toList.map (·.node) =
      (List.range k).filter fun i => decide (t.IsReached i) && (t.opens? i).isSome := by
  induction k with
  | zero => rfl
  | succ k ih =>
    have hreach := isSome_reached?_iff ht hk
    rw [upTo_succ, List.range_succ, List.filter_append, ← ih (Nat.le_of_lt hk)]
    cases hr : (upTo t k).reached? t k with
    | none =>
      have hnot : ¬ t.IsReached k := by simpa [hr] using hreach
      simp [visit_scopes_of_not_opens (Or.inl hr), hnot]
    | some stack =>
      have hin : t.IsReached k := by simpa [hr] using hreach
      cases ho : t.opens? k with
      | none => simp [visit_scopes_of_not_opens (Or.inr ho), ho]
      | some kind => simp [visit_scopes_of_opens hr ho, newScope, ho, hin]

theorem scope_of_node (ht : t.IsProgram) (hs : (upTo t t.size).scopes[c]? = some s) :
    t.IsReached s.node ∧ t.opens? s.node = some s.kind ∧ s.span = t.span s.node ∧
      s.parent? = (upTo t t.size).scopeAround? t s.node ∧ c = (upTo t s.node).scopes.size := by
  have hmem : s.node ∈ (upTo t t.size).scopes.toList.map (·.node) := by
    rw [← Array.getElem?_toList] at hs
    exact List.mem_map_of_mem (List.mem_of_getElem? hs)
  rw [map_node_upTo ht (Nat.le_refl _), List.mem_filter, Bool.and_eq_true,
    decide_eq_true_eq] at hmem
  obtain ⟨-, hreached, hopens⟩ := hmem
  obtain ⟨kind, ho⟩ := Option.isSome_iff_exists.mp hopens
  have hr := reached?_eq_scopesAround ht hreached (Nat.le_of_lt hreached.1) (Nat.le_refl _)
  have hc : c = (upTo t s.node).scopes.size := by
    have hopened := openedBy?_of_reached ht hreached.1 (Nat.le_refl _) hr hopens
    exact Option.some.inj ((openedBy?_eq_some_iff.mpr ⟨s, hs, rfl⟩).symm.trans hopened)
  have hnew : (upTo t (s.node + 1)).scopes[c]? = some (((upTo t s.node).announce t
      ((upTo t t.size).scopesAround t s.node) s.node).newScope t
        ((upTo t t.size).scopesAround t s.node) s.node kind) := by
    rw [upTo_succ, visit_scopes_of_opens hr ho, hc, Array.getElem?_push_size]
  have hfinal := getElem?_mono (upTo_extends ht hreached.1 (Nat.le_refl _)).scopes hnew
  rw [hs] at hfinal
  have he := Option.some.inj hfinal
  refine ⟨hreached, ?_, congrArg Scope.span he, ?_, hc⟩
  · rw [ho, congrArg Scope.kind he]
    rfl
  · rw [Resolution.scopeAround?_eq_head?]
    exact congrArg Scope.parent? he

/-- The scopes around a node stand one around the other when the walk comes to the node, and from
then on, with the scope of the file outermost. -/
theorem linked_scopesAround (ht : t.IsProgram) (hi : t.IsReached i) (h0 : i ≠ Tree.root) :
    Linked (upTo t i).scopes ((upTo t t.size).scopesAround t i) ∧
      Linked (upTo t t.size).scopes ((upTo t t.size).scopesAround t i) ∧
      ((upTo t t.size).scopesAround t i).getLast? = some 0 := by
  have hle := Nat.le_of_lt hi.1
  have hr := reached?_eq_scopesAround ht hi hle (Nat.le_refl _)
  rcases (framed_upTo ht hle).reached ht.toInPreorder hi.1 hr with ⟨he, -⟩ | ⟨-, hl⟩
  · exact absurd he h0
  · exact ⟨hl, hl.mono (upTo_extends ht hle (Nat.le_refl _)).scopes,
      getLast?_scopesAround ht hi (Nat.pos_of_ne_zero h0)⟩

theorem openedBy?_root (ht : t.IsProgram) (h0 : 0 < t.size) :
    (upTo t t.size).openedBy? Tree.root = some 0 := by
  have hroot : t.IsReached Tree.root := ⟨h0, fun a ha _ => by simpa [ht.ancestors_root] using ha⟩
  have hr := reached?_eq_scopesAround ht hroot (Nat.zero_le _) (Nat.le_refl _)
  exact openedBy?_of_reached ht h0 (Nat.le_refl _) hr (by simp [opens?_root ht])

theorem eq_zero_iff_root (ht : t.IsProgram) (hs : (upTo t t.size).scopes[c]? = some s) :
    c = 0 ↔ s.node = Tree.root := by
  have h0 := Nat.lt_of_le_of_lt (Nat.zero_le _) (scope_of_node ht hs).1.1
  have hroot := openedBy?_root ht h0
  constructor
  · rintro rfl
    obtain ⟨s', hs', hn⟩ := openedBy?_eq_some_iff.mp hroot
    obtain rfl := Option.some.inj (hs.symm.trans hs')
    exact hn
  · intro hn
    exact Option.some.inj ((openedBy?_eq_some_iff.mpr ⟨s, hs, hn⟩).symm.trans hroot)

theorem parent?_file (ht : t.IsProgram) (hs : (upTo t t.size).scopes[0]? = some s) :
    s.parent? = none := by
  rw [(scope_of_node ht hs).2.2.2.1, (eq_zero_iff_root ht hs).mp rfl, Resolution.scopeAround?,
    ht.ancestors_root]
  rfl

/-- A scope other than that of the file has a parent, which was opened before, and from there the
parents lead to the scope of the file. -/
theorem exists_parent_scope (ht : t.IsProgram) (hs : (upTo t t.size).scopes[c]? = some s)
    (hc : c ≠ 0) : ∃ p, s.parent? = some p ∧ p < c ∧
      ((upTo t t.size).chain p).getLast? = some 0 := by
  obtain ⟨hreached, -, -, hparent, hsize⟩ := scope_of_node ht hs
  obtain ⟨hearly, hlinked, hlast⟩ :=
    linked_scopesAround ht hreached (mt (eq_zero_iff_root ht hs).mpr hc)
  rw [hparent, Resolution.scopeAround?_eq_head?]
  cases he : (upTo t t.size).scopesAround t s.node with
  | nil => simp [he] at hlast
  | cons p rest =>
    rw [he] at hearly hlinked hlast
    have hlt : p < c := hsize ▸ hearly.lt p List.mem_cons_self
    exact ⟨p, rfl, hlt, Linked.chain [] hlinked ▸ hlast⟩

theorem chain_eq (ht : t.IsProgram) (hc : c < (upTo t t.size).scopes.size) :
    (upTo t t.size).chain c = c :: ((upTo t t.size).parent? c).elim [] (upTo t t.size).chain ∧
      ((upTo t t.size).chain c).getLast? = some 0 := by
  have hs : (upTo t t.size).scopes[c]? = some (upTo t t.size).scopes[c] := by simp [hc]
  generalize (upTo t t.size).scopes[c] = s at hs
  have hparent : (upTo t t.size).parent? c = s.parent? := by simp [Resolution.parent?, hs]
  rw [Resolution.chain, hparent]
  by_cases h0 : c = 0
  · subst h0
    simp [parent?_file ht hs]
  · obtain ⟨p, hp, hlt, hlast⟩ := exists_parent_scope ht hs h0
    simp [hp, hlt, List.getLast?_cons, hlast]

theorem UseAt.scopeAround? (hu : UseAt t u stack target) (ht : t.IsProgram) :
    (upTo t t.size).scopeAround? t u = some (current stack) := by
  have hreached := isReached_of_reached? ht hu.lt hu.reached
  have hr := reached?_eq_scopesAround ht hreached (Nat.le_of_lt hu.lt) (Nat.le_refl _)
  obtain rfl := Option.some.inj (hu.reached.symm.trans hr)
  rw [Resolution.scopeAround?_eq_head?]
  cases he : (upTo t t.size).scopesAround t u with
  | nil => exact absurd he (hu.linked ht).1
  | cons c rest => rfl

theorem mirrors_upTo (ht : t.IsProgram) : (upTo t t.size).Mirrors t := by
  have hk := Nat.le_refl t.size
  exact {
    openers := map_node_upTo ht hk
    kind := fun s hs => by
      obtain ⟨c, hc⟩ := List.getElem?_of_mem hs
      rw [Array.getElem?_toList] at hc
      obtain ⟨-, hkind, hspan, -⟩ := scope_of_node ht hc
      exact ⟨hkind, hspan⟩
    file := by
      obtain ⟨s, hs, hn⟩ := openedBy?_eq_some_iff.mp (openedBy?_root ht ht.size_pos)
      have hkind := (scope_of_node ht hs).2.1
      rw [hn, opens?_root ht] at hkind
      exact ⟨s, hs, (Option.some.inj hkind).symm, hn⟩
    parent := fun c s hs => by
      refine ⟨(scope_of_node ht hs).2.2.2.1, ?_⟩
      by_cases hc : c = 0
      · subst hc
        simp [parent?_file ht hs]
      · obtain ⟨p, hp, hlt, -⟩ := exists_parent_scope ht hs hc
        simp [hp, hc, hlt]
    chain := fun c hc => chain_eq ht hc
    children := fun c => by
      have hnested := nested_upTo ht hk
      refine ⟨hnested.pairwise_children c, fun x => ?_⟩
      rw [hnested.mem_children_iff]
      refine exists_congr fun s => and_congr_right fun hs => ?_
      rw [← (scope_of_node ht hs).2.2.2.1, and_self]
    reference := fun o ho hkind => by
      obtain ⟨-, stack, target, hu, -, he⟩ := (mem_references_iff ht hk hkind).mp ho
      rw [hu.scopeAround? ht, he]
      rfl
    unresolved := fun x hx => by
      obtain ⟨-, stack, target, hu, -, he⟩ := (mem_unresolved_iff ht hk).mp hx
      rw [hu.scopeAround? ht, he]
      rfl }

end Walk

/-- The scopes that the resolver opens are nested as the nodes that open them. It comes to every
node outside errors, and then its stack holds the scopes of the nodes above; it comes to an end,
with no frame and no scope left over; and the scopes form a tree that mirrors the tree of nodes. -/
theorem resolve_mirrors {t : Tree} (ht : t.IsProgram) :
    (∀ i, t.IsReached i → (∃ m, Resolver.Enters t i m) ∧
      ∀ m, Resolver.Enters t i m → m.stack = m.walk.scopesAround t i) ∧
    (Resolver.run t (2 * t.size) {}).work = [] ∧ (Resolver.run t (2 * t.size) {}).stack = [] ∧
    ∃ r, resolve t = .ok r ∧ r.Mirrors t := by
  have hend := Resolver.run_eq ht.toInPreorder ht.size_pos
  refine ⟨fun i hi => ?_, by rw [hend], by rw [hend], _, resolve_eq_ok ht, Walk.mirrors_upTo ht⟩
  have hr := Walk.reached?_eq_scopesAround ht hi (Nat.le_refl _) (Nat.le_of_lt hi.1)
  refine ⟨Resolver.exists_enters ht hi.1 (by simp [hr]), fun m hm => ?_⟩
  obtain ⟨hwalk, hstack⟩ := hm.eq ht
  rw [Walk.outside_of_reached? hr] at hstack
  rw [hwalk, ← Option.some.inj hstack]

/-- In the sample the scopes of the file, the class and the method lie in each other, and the name
of the class is used in the method. When the resolver comes to the end of the class, it has left
the method. -/
theorem resolve_mirrors_sample :
    (Resolver.run Sample.tree 36 {}).work = [.enter 35, .leave, .leave] ∧
    (Resolver.run Sample.tree 36 {}).stack =
      (Resolver.run Sample.tree 36 {}).walk.scopesAround Sample.tree 35 ∧
    Sample.tree.openers = [0, 1, 12] ∧ ∃ r, resolve Sample.tree = .ok r ∧
      r.scopes.toList.map (·.node) = [0, 1, 12] ∧
      ∀ o ∈ r.occurrences.toList, o.kind = .reference →
        r.scopeAround? Sample.tree o.node = some o.scope := by
  have heval : (Resolver.run Sample.tree 36 {}).work = [.enter 35, .leave, .leave] ∧
      Sample.tree.IsReached 35 ∧ Sample.tree.openers = [0, 1, 12] := by decide +kernel
  obtain ⟨hwork, hreached, hopeners⟩ := heval
  obtain ⟨hstack, -, -, r, hr, hmirrors⟩ := resolve_mirrors Sample.tree_isProgram
  have henters : Resolver.Enters Sample.tree 35 (Resolver.run Sample.tree 36 {}) :=
    ⟨⟨36, rfl⟩, by rw [hwork, List.head?_cons]⟩
  exact ⟨hwork, (hstack 35 hreached).2 _ henters, hopeners, r, hr, hopeners ▸ hmirrors.openers,
    hmirrors.reference⟩

end JavaRefactor
