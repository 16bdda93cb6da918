import JavaRefactor.Proofs.Surroundings

/-! # Errors stand apart

No field holds an error. What a scope hoists and what an identifier declares is therefore found
on ways that lead through no error, and all that the walk records comes from nodes outside
errors.
-/

namespace JavaRefactor

namespace RawTree

mutual

theorem kind_of_mem_layout (ancestors : List NodeId) (first : NodeId) :
    ∀ (raw : RawTree), ∀ n ∈ raw.layout ancestors first, n.isError → n.kind = .error
  | .node label children, n, hn, he => by
      rw [layout, List.mem_cons] at hn
      rcases hn with rfl | hn
      · exact if_pos he
      · exact kind_of_mem_layoutAll _ _ children n hn he

theorem kind_of_mem_layoutAll (ancestors : List NodeId) (first : NodeId) :
    ∀ (trees : List RawTree), ∀ n ∈ layoutAll ancestors first trees, n.isError → n.kind = .error
  | [], n, hn, _ => by simp [layoutAll] at hn
  | tree :: trees, n, hn, he => by
      rw [layoutAll, List.mem_append] at hn
      rcases hn with hn | hn
      · exact kind_of_mem_layout _ _ tree n hn he
      · exact kind_of_mem_layoutAll _ _ trees n hn he

end

end RawTree

namespace Tree

variable {t : Tree} {i p c m : Nat} {d : Declaration} {field : String}

/-- The tree of a program in which errors are known by their kind and held by no field, and
names are leaves. -/
structure ErrorsApart (t : Tree) : Prop extends t.IsProgram where
  errorKind : ∀ i : Nat, t.isError i → t.kind i = .error
  errorField : ∀ i : Nat, t.isError i → t.field i = none
  leaf : ∀ i, t.IsName i → t.children i = []

theorem kind_of_isError (source : String) (raw : RawTree) (he : (ofRaw source raw).isError i) :
    (ofRaw source raw).kind i = .error := by
  rw [isError, node_ofRaw] at he
  rw [kind, node_ofRaw]
  cases hi : (raw.layout [] 0)[i]? with
  | none => simp [hi, Node.absent] at he
  | some n =>
    rw [hi] at he
    exact RawTree.kind_of_mem_layout [] 0 raw n (List.mem_of_getElem? hi) he

/-- The node lies below no error, though it may be one. -/
def IsOuter (t : Tree) (i : NodeId) : Prop :=
  i < t.size ∧ ∀ a ∈ t.ancestors i, t.isError a → a = root

instance (t : Tree) (i : NodeId) : Decidable (t.IsOuter i) :=
  inferInstanceAs (Decidable (_ ∧ _))

theorem isReached_iff : t.IsReached i ↔ t.IsOuter i ∧ (t.isError i → i = root) := by
  constructor
  · rintro ⟨hs, h⟩
    exact ⟨⟨hs, fun a ha => h a (List.mem_cons_of_mem _ ha)⟩, h i List.mem_cons_self⟩
  · rintro ⟨⟨hs, h⟩, hi⟩
    exact ⟨hs, List.forall_mem_cons.mpr ⟨hi, h⟩⟩

theorem IsReached.isOuter (h : t.IsReached i) : t.IsOuter i := (isReached_iff.mp h).1

theorem IsOuter.reached (h : t.IsOuter i) (he : t.isError i = false) : t.IsReached i :=
  isReached_iff.mpr ⟨h, by simp [he]⟩

theorem IsReached.isOuter_of_child (hp : t.IsReached p) (ht : t.InPreorder)
    (hc : c ∈ t.children p) : t.IsOuter c := by
  obtain ⟨hs, hpc⟩ := (ht.mem_children p c).mp hc
  refine ⟨hs, ?_⟩
  rw [ht.ancestors_of_parent hpc]
  exact hp.2

namespace ErrorsApart

variable (ht : t.ErrorsApart)
include ht

theorem isError_of_kind (h : t.kind i ≠ .error) : t.isError i = false := by
  by_contra he
  exact h (ht.errorKind i (by simpa using he))

theorem isError_of_field (h : t.field i = some field) : t.isError i = false := by
  by_contra he
  simp [ht.errorField i (by simpa using he)] at h

theorem isError_of_isName (h : t.IsName i) : t.isError i = false := by
  rcases h with hk | hk | ⟨p, -, hc⟩
  · exact ht.isError_of_kind (by simp [hk])
  · exact ht.isError_of_kind (by simp [hk])
  · exact ht.isError_of_field (field_of_childByField? hc)

theorem reached_of_kind (hp : t.IsReached p) (hc : c ∈ t.children p) (hk : t.kind c ≠ .error) :
    t.IsReached c :=
  (hp.isOuter_of_child ht.toInPreorder hc).reached (ht.isError_of_kind hk)

theorem reached_of_field (hp : t.IsReached p) (hc : c ∈ t.children p)
    (hf : t.field c = some field) : t.IsReached c :=
  (hp.isOuter_of_child ht.toInPreorder hc).reached (ht.isError_of_field hf)

theorem reached_of_childByField? (hp : t.IsReached p) (hc : t.childByField? p field = some c) :
    t.IsReached c :=
  ht.reached_of_field hp (mem_children_of_childByField? hc) (field_of_childByField? hc)

theorem isOuter_of_isMember {body : NodeId} (hb : t.IsReached body) (hm : t.isMember body m) :
    t.IsOuter m := by
  obtain ⟨-, between, rest, he, hall⟩ := isMember_iff.mp hm
  refine ⟨(ht.lt_size_of_ancestors_ne (by simp [he])).2, fun a ha hea => ?_⟩
  rw [he, ht.ancestors_of_append he] at ha
  rcases List.mem_append.mp ha with ha | ha
  · simp [ht.isError_of_kind (i := a) (by simp [(hall a ha).2])] at hea
  · exact hb.2 a ha hea

theorem reached_of_hoistsMember (hi : t.IsReached i) (hm : t.HoistsMember i m)
    (hk : t.kind m ≠ .error) : t.IsReached m := by
  obtain ⟨body, hmember, ⟨-, hb⟩ | ⟨-, rfl⟩⟩ := hm
  · exact (ht.isOuter_of_isMember (ht.reached_of_childByField? hi hb) hmember).reached
      (ht.isError_of_kind hk)
  · exact (ht.isOuter_of_isMember hi hmember).reached (ht.isError_of_kind hk)

theorem reached_of_hoists (hi : t.IsReached i) (h : t.Hoists i d) :
    t.IsReached d.node ∧ t.IsReached d.name := by
  have named (hn : t.IsReached d.node) (hc : t.childByField? d.node "name" = some d.name) :
      t.IsReached d.node ∧ t.IsReached d.name :=
    ⟨hn, ht.reached_of_childByField? hn hc⟩
  cases h with
  | typeParameter _ field child node name _ =>
    have hn := ht.reached_of_kind (ht.reached_of_childByField? hi field) child (by simp [node])
    have hk : t.kind d.name = .typeIdentifier := by simpa using List.find?_some name
    exact ⟨hn, ht.reached_of_kind hn (List.mem_of_find?_eq_some name) (by simp [hk])⟩
  | component _ field child node name _ =>
    exact named
      (ht.reached_of_kind (ht.reached_of_childByField? hi field) child (by simp [node])) name
  | top _ child node name _ =>
    refine named (ht.reached_of_kind hi child fun hk => ?_) name
    simp [hk, NodeKind.isTypeDeclaration] at node
  | member member name kind =>
    refine named (ht.reached_of_hoistsMember hi member fun hk => ?_) name
    simp [hk, memberKind?] at kind
  | declarator member field child node name _ =>
    have hm := ht.reached_of_hoistsMember hi member (by rcases field with h | h <;> simp [h])
    exact named (ht.reached_of_field hm child node) name

theorem reached_of_makes (hi : t.IsReached i) (h : t.Makes i d) :
    t.IsReached d.node ∧ t.IsReached d.name := by
  cases h with
  | hoisted mem => exact ht.reached_of_hoists hi (hoists_of_mem_hoisted mem)
  | own name =>
    obtain ⟨hname, hnode, -⟩ := ownDeclaration?_eq_some name
    exact ⟨hnode ▸ hi, ht.reached_of_childByField? hi hname⟩
  | here role =>
    obtain ⟨-, p, hp, hlocal⟩ := role_declares role
    obtain ⟨hname, -, hnode | hnode, -⟩ := localDeclaration?_name hlocal
    · exact ⟨hnode ▸ hi, hname ▸ hi⟩
    · exact ⟨hnode ▸ hi.of_parent ht.toInPreorder hp, hname ▸ hi⟩

end ErrorsApart

end Tree

structure Resolution.OutsideErrors (r : Resolution) (t : Tree) : Prop where
  scopes : ∀ s ∈ r.scopes, t.IsReached s.node
  symbols : ∀ s ∈ r.symbols, t.IsReached s.node
  occurrences : ∀ o ∈ r.occurrences, t.IsReached o.node
  findings : ∀ f ∈ r.findings, t.IsReached f.node
  declared : ∀ p ∈ r.declared, t.IsReached p.1

namespace Resolution.OutsideErrors

variable {t : Tree} {w w' : Walk} {i : Nat} {stack : List ScopeId} {d : Declaration}

theorem declared_by (h : w.OutsideErrors t) (hd : t.IsReached d.node ∧ t.IsReached d.name)
    (hw : Walk.Declared t stack w d w') : w'.OutsideErrors t := by
  have hdecl (id : SymbolId) : ∀ p ∈ (d.node, id) :: w.declared, t.IsReached p.1 :=
    List.forall_mem_cons.mpr ⟨hd.1, h.declared⟩
  have hocc (id : SymbolId) : ∀ o ∈ w.occurrences.push (Walk.declaredAs t stack d id),
      t.IsReached o.node :=
    Array.forall_mem_push.mpr ⟨hd.2, h.occurrences⟩
  have hsym (container : Option SymbolId) : ∀ s ∈ w.symbols.push
      (Walk.newSymbol t stack d w.symbols.size container), t.IsReached s.node :=
    Array.forall_mem_push.mpr ⟨hd.1, h.symbols⟩
  cases hw with
  | overload => exact ⟨h.scopes, h.symbols, hocc _, h.findings, hdecl _⟩
  | duplicate =>
    exact ⟨h.scopes, hsym _, hocc _, Array.forall_mem_push.mpr ⟨hd.2, h.findings⟩, hdecl _⟩
  | fresh => exact ⟨h.scopes, hsym _, hocc _, h.findings, hdecl _⟩

theorem declare (h : w.OutsideErrors t) (hd : t.IsReached d.node ∧ t.IsReached d.name) :
    (w.declare t stack d).OutsideErrors t := by
  rcases Nat.lt_or_ge (Walk.current stack) w.scopes.size with hs | hs
  · exact h.declared_by hd (Walk.declare_declared hs)
  · rw [Walk.declare_of_size_le hs]
    exact h

theorem foldl_declare {l : List Declaration} (h : w.OutsideErrors t)
    (hl : ∀ d ∈ l, t.IsReached d.node ∧ t.IsReached d.name) :
    (l.foldl (Walk.declare t stack) w).OutsideErrors t := by
  induction l generalizing w with
  | nil => exact h
  | cons d l ih =>
    rw [List.forall_mem_cons] at hl
    exact ih (h.declare hl.1) hl.2

theorem addOccurrence {o : Occurrence} (h : w.OutsideErrors t) (ho : t.IsReached o.node) :
    (w.addOccurrence o).OutsideErrors t :=
  ⟨h.scopes, h.symbols, Array.forall_mem_push.mpr ⟨ho, h.occurrences⟩, h.findings, h.declared⟩

theorem visitIdentifier (h : w.OutsideErrors t) (ht : t.ErrorsApart) (hi : t.IsReached i) :
    (w.visitIdentifier t stack i).OutsideErrors t := by
  unfold Walk.visitIdentifier
  split
  · exact h
  · split
    next => exact h
    next d hd => exact h.declare (ht.reached_of_makes hi (.here hd))
    next target _ =>
      unfold Walk.bindUse
      simp only
      split
      · exact h.addOccurrence hi
      · exact ⟨h.scopes, h.symbols, h.occurrences, Array.forall_mem_push.mpr ⟨hi, h.findings⟩,
          h.declared⟩

theorem nameConstructor (h : w.OutsideErrors t) (ht : t.ErrorsApart) (hi : t.IsReached i) :
    (w.nameConstructor t stack i).OutsideErrors t := by
  unfold Walk.nameConstructor
  split
  · exact h
  next name hname =>
    split
    · exact h
    · split
      · exact h
      · split
        · exact h.addOccurrence (ht.reached_of_childByField? hi hname)
        · exact h

theorem announce (h : w.OutsideErrors t) (ht : t.ErrorsApart) (hi : t.IsReached i) :
    (w.announce t stack i).OutsideErrors t := by
  rw [Walk.announce_eq]
  split
  · exact h.nameConstructor ht hi
  · split
    · exact h
    · cases hd : t.ownDeclaration? i with
      | none => exact h
      | some d => exact h.declare (ht.reached_of_makes hi (.own hd))

theorem enter (h : w.OutsideErrors t) (ht : t.ErrorsApart) (hi : t.IsReached i) :
    (w.enter t stack i).1.OutsideErrors t := by
  unfold Walk.enter
  split
  next => exact h.visitIdentifier ht hi
  next kind _ =>
    have ha : (w.announce t stack i).OutsideErrors t := h.announce ht hi
    refine foldl_declare ?_ fun d hd => ht.reached_of_makes hi (.hoisted hd)
    exact ⟨Array.forall_mem_push.mpr ⟨hi, ha.scopes⟩, ha.symbols, ha.occurrences, ha.findings,
      ha.declared⟩

end Resolution.OutsideErrors

/-- The walk records nothing that lies in an error. -/
theorem Walk.outsideErrors_upTo {t : Tree} (ht : t.ErrorsApart) {k : Nat} (hk : k ≤ t.size) :
    (upTo t k).OutsideErrors t := by
  refine upTo_induction (P := fun _ w => w.OutsideErrors t) ht.toIsProgram ?_ ?_ hk
  · constructor <;> simp
  · rintro k w hk - rfl h
    cases hr : (upTo t k).reached? t k with
    | none =>
      rw [visit_of_passed hr]
      exact h
    | some stack =>
      rw [visit_of_reached hr]
      exact h.enter ht (isReached_of_reached? ht.toIsProgram hk hr)

end JavaRefactor
