import JavaRefactor.Proofs.Use

/-! # What the grammar gives

Beyond the shape of a tree, the grammar of the language tells where some nodes stand: types
have bodies, constructors are members of bodies, and the names in accesses stand in known
fields. With this no name is hoisted by two nodes, so every identifier has one occurrence at
most, and the name of a constructor is settled when the constructor has been visited.
-/

namespace JavaRefactor

namespace Tree

variable {t : Tree} {i j m p : Nat} {d d' : Declaration}

/-- What stands as the body of a type is a body. -/
def TypesHaveBodies (t : Tree) : Prop :=
  ∀ i body : Nat, (t.kind i).isTypeDeclaration → t.childByField? i "body" = some body →
    (t.kind body).isTypeBody

/-- What is taken for granted of the grammar. -/
structure Grammatical (t : Tree) : Prop where
  errorKind : ∀ i : Nat, t.isError i → t.kind i = .error
  typesHaveBodies : t.TypesHaveBodies
  constructorMember : ∀ m : Nat, (t.kind m).isConstructor → t.isInError m = false →
    ∃ i : Nat, (t.opens? i).isSome ∧ t.HoistsMember i m
  fieldAccess : ∀ u p : Nat, t.parent? u = some p → t.kind p = .fieldAccess →
    t.kind u ≠ .typeIdentifier ∧
      (t.kind u = .identifier → t.field u = some "object" ∨ t.field u = some "field")
  methodInvocation : ∀ u p : Nat, t.parent? u = some p → t.kind p = .methodInvocation →
    t.kind u ≠ .typeIdentifier ∧
      (t.kind u = .identifier → t.field u = some "object" ∨ t.field u = some "name")

theorem parent_of_isMember {body : NodeId} (hm : t.isMember body m)
    (hk : (t.kind body).isTypeBody) : ∃ p : Nat, t.parent? m = some p ∧ (t.kind p).isTypeBody := by
  obtain ⟨-, between, rest, he, hall⟩ := isMember_iff.mp hm
  cases between with
  | nil => exact ⟨body, parent?_eq_some_iff.mpr ⟨rest, he⟩, hk⟩
  | cons a between =>
    refine ⟨a, parent?_eq_some_iff.mpr ⟨_, he⟩, ?_⟩
    rw [(hall a List.mem_cons_self).2]
    rfl

theorem TypesHaveBodies.parent_of_member (h : t.TypesHaveBodies) (hm : t.HoistsMember i m) :
    ∃ p : Nat, t.parent? m = some p ∧ (t.kind p).isTypeBody := by
  obtain ⟨body, hmember, ⟨hk, hb⟩ | ⟨hk, rfl⟩⟩ := hm
  · exact parent_of_isMember hmember (h i body hk hb)
  · exact parent_of_isMember hmember (by rw [hk]; rfl)

theorem isAnonymousBody_of_opens (hk : t.kind i = .classBody) (ho : (t.opens? i).isSome) :
    t.isAnonymousBody i := by
  by_contra hn
  simp [opens?, hk, hn] at ho

theorem not_isAnonymousBody (hp : t.parent? m = some i) (hi : (t.kind i).isTypeDeclaration) :
    t.isAnonymousBody m = false := by
  cases hk : t.kind i <;> simp [hk, NodeKind.isTypeDeclaration] at hi <;>
    simp [isAnonymousBody, parentKind?, hp, hk]

theorem not_isTypeBody (hi : (t.kind i).isTypeDeclaration) : (t.kind i).isTypeBody = false := by
  cases hk : t.kind i <;> simp [hk, NodeKind.isTypeDeclaration] at hi <;> rfl

theorem find?_of_isMember (ht : t.InPreorder) {body : NodeId} (hm : t.isMember body m) :
    (t.ancestors m).find? (fun a => t.kind a != .enumBodyDeclarations) =
      (body :: t.ancestors body).find? fun a => t.kind a != .enumBodyDeclarations := by
  obtain ⟨-, between, rest, he, hall⟩ := isMember_iff.mp hm
  rw [he, List.find?_append, List.find?_eq_none.mpr fun a ha => by simp [(hall a ha).2],
    Option.none_or, ht.ancestors_of_append he]

/-- The node that opens the scope of a member can be told from the first node above the member
that does not merely group members. -/
theorem opener_of_member (ht : t.InPreorder) (hm : t.HoistsMember i m) (ho : (t.opens? i).isSome) :
    ∃ x : Nat, (t.ancestors m).find? (fun a => t.kind a != .enumBodyDeclarations) = some x ∧
      ((t.kind x).isTypeDeclaration ∧ i = x ∨
        (t.kind i).isTypeDeclaration ∧ t.childByField? i "body" = some x ∨
        i = x ∧ t.isAnonymousBody x) := by
  obtain ⟨body, hmember, ⟨hk, hb⟩ | ⟨hk, rfl⟩⟩ := hm
  · rw [find?_of_isMember ht hmember]
    by_cases hkb : t.kind body = .enumBodyDeclarations
    · -- the body itself is a group, and the type stands above it
      refine ⟨i, ?_, Or.inl ⟨hk, rfl⟩⟩
      rw [List.find?_cons_of_neg (by simp [hkb]),
        ht.ancestors_of_parent (ht.parent_of_childByField? hb)]
      refine List.find?_cons_of_pos ?_
      cases hki : t.kind i <;> simp [hki, NodeKind.isTypeDeclaration] at hk ⊢
    · exact ⟨body, List.find?_cons_of_pos (by simp [hkb]), Or.inr (Or.inl ⟨hk, hb⟩)⟩
  · rw [find?_of_isMember ht hmember]
    exact ⟨body, List.find?_cons_of_pos (by simp [hk]),
      Or.inr (Or.inr ⟨rfl, isAnonymousBody_of_opens hk ho⟩)⟩

theorem member_unique (ht : t.InPreorder) (h : t.TypesHaveBodies) (hi : t.HoistsMember i m)
    (hj : t.HoistsMember j m) (hoi : (t.opens? i).isSome) (hoj : (t.opens? j).isSome) : i = j := by
  obtain ⟨x, hx, hcase⟩ := opener_of_member ht hi hoi
  obtain ⟨y, hy, hcase'⟩ := opener_of_member ht hj hoj
  obtain rfl : x = y := Option.some.inj (hx.symm.trans hy)
  have hbody {q : Nat} (hd : (t.kind q).isTypeDeclaration)
      (hb : t.childByField? q "body" = some x) :
      (t.kind x).isTypeDeclaration = false ∧ t.isAnonymousBody x = false := by
    refine ⟨?_, not_isAnonymousBody (ht.parent_of_childByField? hb) hd⟩
    by_contra hx
    have hb := h q x hd hb
    simp [not_isTypeBody (by simpa using hx)] at hb
  rcases hcase with ⟨hd, rfl⟩ | ⟨hd, hb⟩ | ⟨rfl, ha⟩ <;>
    rcases hcase' with ⟨hd', rfl⟩ | ⟨hd', hb'⟩ | ⟨rfl, ha'⟩
  · rfl
  · simp [(hbody hd' hb').1] at hd
  · rfl
  · simp [(hbody hd hb).1] at hd'
  · exact Option.some.inj
      ((ht.parent_of_childByField? hb).symm.trans (ht.parent_of_childByField? hb'))
  · simp [(hbody hd hb).2] at ha'
  · rfl
  · simp [(hbody hd' hb').2] at ha
  · rfl

/-- Where the node of a hoisted declaration stands below the node that hoists it. -/
inductive Place (t : Tree) (i n : NodeId) : Prop where
  | parameter {q : NodeId} (node : memberKind? (t.kind n) = none) (parent : t.parent? n = some q)
      (above : t.parent? q = some i) (opener : (t.kind i).isTypeBody = false)
  | top (parent : t.parent? n = some i) (opener : i = root) (kind : t.kind i = .program)
  | member (node : memberKind? (t.kind n) ≠ none) (member : t.HoistsMember i n)
  | declarator {m : NodeId} (parent : t.parent? n = some m) (kind : (t.kind m).isTypeBody = false)
      (group : t.kind m ≠ .program) (member : t.HoistsMember i m)

theorem Hoists.place (h : t.Hoists i d) (ht : t.InPreorder) (ho : (t.opens? i).isSome) :
    t.Place i d.node := by
  have hchild {a b : Nat} (hab : a ∈ t.children b) : t.parent? a = some b :=
    ((ht.mem_children b a).mp hab).2
  cases h with
  | typeParameter opener field child node _ _ =>
    refine .parameter (by rw [node]; rfl) (hchild child) (ht.parent_of_childByField? field) ?_
    cases hk : t.kind i <;>
      simp [hk, NodeKind.isTypeDeclaration, NodeKind.isCallableDeclaration] at opener <;> rfl
  | component opener field child node _ _ =>
    exact .parameter (by rw [node]; rfl) (hchild child) (ht.parent_of_childByField? field)
      (by rw [opener]; rfl)
  | top opener child node _ _ =>
    refine .top (hchild child) ?_ opener
    by_contra hne
    simp [opens?, opener, hne] at ho
  | member member _ kind => exact .member (by simp [kind]) member
  | declarator member field child _ _ _ =>
    rcases field with hk | hk
    · exact .declarator (hchild child) (by rw [hk]; rfl) (by simp [hk]) member
    · exact .declarator (hchild child) (by rw [hk]; rfl) (by simp [hk]) member

theorem Place.unique (ht : t.InPreorder) (h : t.TypesHaveBodies) {n : Nat} (hi : t.Place i n)
    (hj : t.Place j n) (hoi : (t.opens? i).isSome) (hoj : (t.opens? j).isSome) : i = j := by
  have hsame {a b : NodeId} (ha : t.parent? n = some a) (hb : t.parent? n = some b) : a = b :=
    Option.some.inj (ha.symm.trans hb)
  have hroot {a : NodeId} : t.parent? root ≠ some a := by
    intro ha
    obtain ⟨rest, hr⟩ := parent?_eq_some_iff.mp ha
    simp [ht.ancestors_root] at hr
  -- a node that hangs in a body is a member, any other is not
  have hbody {i m q : NodeId} (hm : t.HoistsMember i m) (hq : t.parent? m = some q) :
      (t.kind q).isTypeBody := by
    obtain ⟨p, hp, hk⟩ := h.parent_of_member hm
    rwa [Option.some.inj (hq.symm.trans hp)]
  cases hi with
  | parameter node parent above opener =>
    cases hj with
    | parameter _ parent' above' _ =>
      rw [hsame parent parent', above'] at above
      exact (Option.some.inj above).symm
    | top parent' opener' _ =>
      rw [hsame parent parent', opener'] at above
      exact absurd above hroot
    | member node' _ => exact absurd node node'
    | declarator parent' _ _ member =>
      rw [hsame parent parent'] at above
      simp [hbody member above] at opener
  | top parent opener kind =>
    cases hj with
    | parameter _ parent' above _ =>
      rw [hsame parent' parent, opener] at above
      exact absurd above hroot
    | top parent' _ _ => exact hsame parent parent'
    | member _ member =>
      have := hbody member parent
      simp [kind, NodeKind.isTypeBody] at this
    | declarator parent' _ group _ =>
      rw [hsame parent parent'] at kind
      exact absurd kind group
  | member node member =>
    cases hj with
    | parameter node' _ _ _ => exact absurd node' node
    | top parent' _ kind' =>
      have := hbody member parent'
      simp [kind', NodeKind.isTypeBody] at this
    | member _ member' => exact member_unique ht h member member' hoi hoj
    | declarator parent' kind' _ _ =>
      simp [hbody member parent'] at kind'
  | declarator parent kind group member =>
    cases hj with
    | parameter _ parent' above opener' =>
      rw [← hsame parent parent'] at above
      simp [hbody member above] at opener'
    | top parent' _ kind' =>
      rw [hsame parent parent'] at group
      exact absurd kind' group
    | member _ member' => simp [hbody member' parent] at kind
    | declarator parent' _ _ member' =>
      rw [← hsame parent parent'] at member'
      exact member_unique ht h member member' hoi hoj

theorem hoister_unique (ht : t.InPreorder) (h : t.TypesHaveBodies) (hd : d ∈ t.hoisted i)
    (hd' : d' ∈ t.hoisted j) (hoi : (t.opens? i).isSome) (hoj : (t.opens? j).isSome)
    (hname : d.name = d'.name) : i = j := by
  have hh := hoists_of_mem_hoisted hd
  have hh' := hoists_of_mem_hoisted hd'
  have hnode : d.node = d'.node := by
    have hp := hh.name_parent ht
    rw [hname, hh'.name_parent ht] at hp
    exact (Option.some.inj hp).symm
  have hplace' := hh'.place ht hoj
  rw [← hnode] at hplace'
  exact (hh.place ht hoi).unique ht h hplace' hoi hoj

theorem hoistsMember_iff : t.HoistsMember i m ↔
    (t.kind i).isTypeDeclaration ∧ (∃ body ∈ t.childByField? i "body", t.isMember body m) ∨
      t.kind i = .classBody ∧ t.isMember i m := by
  constructor
  · rintro ⟨body, hm, ⟨hk, hb⟩ | ⟨hk, rfl⟩⟩
    · exact Or.inl ⟨hk, body, hb, hm⟩
    · exact Or.inr ⟨hk, hm⟩
  · rintro (⟨hk, body, hb, hm⟩ | ⟨hk, hm⟩)
    · exact ⟨body, hm, Or.inl ⟨hk, hb⟩⟩
    · exact ⟨i, hm, Or.inr ⟨hk, rfl⟩⟩

instance (t : Tree) (i m : NodeId) : Decidable (t.HoistsMember i m) :=
  decidable_of_iff _ hoistsMember_iff.symm

def FollowsAt (t : Tree) (i : NodeId) : Prop :=
  (t.isError i → t.kind i = .error) ∧
    ((t.kind i).isTypeDeclaration → ∀ body ∈ t.childByField? i "body", (t.kind body).isTypeBody) ∧
    ((t.kind i).isConstructor → t.isInError i = false →
      ∃ j ∈ t.ids, (t.opens? j).isSome ∧ t.HoistsMember j i) ∧
    ∀ p ∈ t.parent? i,
      (t.kind p = .fieldAccess → t.kind i ≠ .typeIdentifier ∧
        (t.kind i = .identifier → t.field i = some "object" ∨ t.field i = some "field")) ∧
      (t.kind p = .methodInvocation → t.kind i ≠ .typeIdentifier ∧
        (t.kind i = .identifier → t.field i = some "object" ∨ t.field i = some "name"))

instance (t : Tree) (i : NodeId) : Decidable (t.FollowsAt i) :=
  inferInstanceAs (Decidable (_ ∧ _ ∧ _ ∧ _))

theorem grammatical_of_followsAt (h : ∀ i ∈ t.ids, t.FollowsAt i) : t.Grammatical := by
  have hat (i : Nat) : t.FollowsAt i := by
    rcases Nat.lt_or_ge i t.size with hlt | hge
    · exact h i (List.mem_range.mpr hlt)
    · simp [FollowsAt, isError, kind, childByField?, children, parent?, node_of_size_le hge,
        Node.absent, Node.parent?, NodeKind.isTypeDeclaration, NodeKind.isConstructor]
  refine ⟨fun i => (hat i).1, fun i body hk hb => (hat i).2.1 hk body hb, fun m hk he => ?_,
    fun u p hp => ((hat u).2.2.2 p hp).1, fun u p hp => ((hat u).2.2.2 p hp).2⟩
  obtain ⟨i, -, hm⟩ := (hat m).2.2.1 hk he
  exact ⟨i, hm⟩

end Tree

namespace Sample

theorem tree_grammatical : tree.Grammatical :=
  Tree.grammatical_of_followsAt (by decide +kernel)

def localSymbol : Symbol := ⟨3, "x", .localVariable, 22, 2, none⟩

/-- What the walk over the sample records, and what it has bound when it comes to the two uses of
the class. -/
theorem tree_recorded :
    (Walk.upTo tree tree.size).occurrences = #[⟨0, 3, ⟨6, 9⟩, .declaration, 0⟩,
      ⟨1, 10, ⟨16, 17⟩, .declaration, 1⟩, ⟨2, 14, ⟨24, 25⟩, .declaration, 1⟩,
      ⟨0, 21, ⟨30, 33⟩, .reference, 2⟩, ⟨3, 23, ⟨34, 35⟩, .declaration, 2⟩,
      ⟨0, 27, ⟨37, 40⟩, .reference, 2⟩] ∧
    (Walk.upTo tree tree.size).symbols = #[⟨0, "Foo", .type, 1, 0, none⟩,
      ⟨1, "b", .field, 9, 1, some 0⟩, ⟨2, "m", .method, 12, 1, some 0⟩, localSymbol] ∧
    (Walk.upTo tree tree.size).bindings = #[⟨0, .type, "Foo", 0⟩, ⟨1, .var, "b", 1⟩,
      ⟨1, .method, "m", 2⟩, ⟨2, .var, "x", 3⟩] ∧
    (Walk.upTo tree tree.size).chain 2 = [2, 1, 0] ∧
    (tree.span 21 = ⟨30, 33⟩ ∧ (Walk.upTo tree 21).bindings =
      #[⟨0, .type, "Foo", 0⟩, ⟨1, .var, "b", 1⟩, ⟨1, .method, "m", 2⟩]) ∧
    (tree.span 27 = ⟨37, 40⟩ ∧
      (Walk.upTo tree 27).bindings = (Walk.upTo tree tree.size).bindings) := by
  decide +kernel

end Sample

namespace Outline

variable {t : Tree} {o : Outline} {stack : List ScopeId} {i k : Nat} {d : Declaration}

theorem lt_of_mem_hoisted (ht : t.InPreorder) (hd : d ∈ t.hoisted i) :
    i < d.node ∧ d.node < d.name ∧ t.parent? d.name = some d.node := by
  have hh := Tree.hoists_of_mem_hoisted hd
  have hp := hh.name_parent ht
  exact ⟨ht.lt_of_mem_ancestors (hh.mem_ancestors ht), ht.parent_lt hp, hp⟩

theorem parent_of_own (ht : t.InPreorder) (hd : t.ownDeclaration? i = some d) :
    t.parent? d.name = some i :=
  ht.parent_of_childByField? (Tree.ownDeclaration?_eq_some hd).1

theorem nodup_added (ht : t.InPreorder) : ((o.added t stack i).map (·.node)).Nodup := by
  unfold added
  cases t.opens? i with
  | none =>
    cases t.role i with
    | declares d => cases hd : o.declares d.name <;> simp [hd]
    | _ => simp
  | some kind =>
    simp only [List.map_append, List.map_map, List.nodup_append]
    refine ⟨?_, Tree.nodup_hoisted ht i, ?_⟩
    · cases t.ownDeclaration? i with
      | none => simp
      | some d => cases hd : o.declares d.name <;> simp [hd]
    · rintro x hx y hy rfl
      obtain ⟨d, hd, rfl⟩ := List.mem_map.mp hx
      obtain ⟨d', hd', he⟩ := List.mem_map.mp hy
      have hp := parent_of_own ht (Option.mem_toList.mp (List.mem_filter.mp hd).1)
      obtain ⟨hlt, -, hp'⟩ := lt_of_mem_hoisted ht hd'
      simp only [Function.comp_apply] at he
      rw [he, hp] at hp'
      exact absurd (Option.some.inj hp') (Nat.ne_of_lt hlt)

theorem disjoint_added (ht : t.InPreorder) (h : t.TypesHaveBodies) {e e' : OutlineEntry}
    (he : e ∈ (upTo t k).entries) (he' : e' ∈ (upTo t k).added t stack k) : e.node ≠ e'.node := by
  have hdeclared {x : NodeId} (hx : (upTo t k).declares x = false) : e.node ≠ x := by
    rintro rfl
    rw [declares, List.any_eq_false] at hx
    simpa using hx e he
  rcases mem_added_iff.mp he' with ⟨-, d, -, hd, rfl⟩ | ⟨ho, ⟨d, -, hd, rfl⟩ | ⟨d, hd, rfl⟩⟩
  · exact hdeclared hd
  · exact hdeclared hd
  · -- what is hoisted at `k` was not declared at any earlier node
    obtain ⟨hlt, hlt', hp⟩ := lt_of_mem_hoisted ht hd
    obtain ⟨j, hj, stack', -, hadd⟩ := mem_entries_upTo_iff.mp he
    intro hname
    rcases mem_added_iff.mp hadd with
      ⟨-, d', hrole, -, rfl⟩ | ⟨ho', ⟨d', hown, -, rfl⟩ | ⟨d', hd', rfl⟩⟩
    · have := Tree.name_of_role hrole
      simp only at hname
      lia
    · have hp' := parent_of_own ht hown
      simp only at hname
      rw [hname, hp] at hp'
      have := Option.some.inj hp'
      lia
    · exact Nat.ne_of_lt hj (Tree.hoister_unique ht h hd' hd ho' ho hname)

theorem nodup_entries (ht : t.InPreorder) (h : t.TypesHaveBodies) (k : Nat) :
    ((upTo t k).entries.map (·.node)).Nodup := by
  induction k with
  | zero => simp [upTo_zero]
  | succ k ih =>
    rw [upTo_succ, visit_entries]
    cases (upTo t k).reached? t k with
    | none => simpa using ih
    | some stack =>
      rw [Option.elim_some, List.map_append, List.nodup_append]
      refine ⟨ih, nodup_added ht, ?_⟩
      intro x hx y hy
      obtain ⟨e, he, rfl⟩ := List.mem_map.mp hx
      obtain ⟨e', he', rfl⟩ := List.mem_map.mp hy
      exact disjoint_added ht h he he'

end Outline

namespace Walk

variable {t : Tree} {k : Nat}

theorem nodup_occurrences (ht : t.IsProgram) (h : t.TypesHaveBodies) (hk : k ≤ t.size) :
    ((upTo t k).occurrences.toList.map (·.node)).Nodup := by
  have htidy := tidy_upTo ht hk
  have hentries := Outline.nodup_entries ht.toInPreorder h k
  rw [← outline_upTo ht hk, List.Nodup, List.pairwise_map] at hentries
  have hpair := List.pairwise_filterMap.mp hentries
  have hentry {o : Occurrence} (ho : o ∈ (upTo t k).occurrences.toList)
      (hd : o.kind = .declaration) :
      ∃ s : Symbol, (upTo t k).entryOf? o = some ⟨o.scope, s.kind, o.node⟩ := by
    obtain ⟨s, hs, -⟩ := htidy.occurs o ho
    exact ⟨s, by simp [entryOf?, hd, hs]⟩
  rw [List.Nodup, List.pairwise_map]
  refine (htidy.apart.and hpair).imp_of_mem fun {o o'} ho ho' hboth he => ?_
  obtain ⟨hd, hd', -⟩ := hboth.1 he
  obtain ⟨s, hs⟩ := hentry ho hd
  obtain ⟨s', hs'⟩ := hentry ho' hd'
  exact hboth.2 _ hs _ hs' he

theorem eq_of_node_eq (ht : t.IsProgram) (h : t.Grammatical) (hk : k ≤ t.size) {o o' : Occurrence}
    (ho : o ∈ (upTo t k).occurrences.toList) (ho' : o' ∈ (upTo t k).occurrences.toList)
    (he : o.node = o'.node) : o = o' :=
  List.inj_on_of_nodup_map (nodup_occurrences ht h.typesHaveBodies hk) ho ho' he

end Walk

end JavaRefactor
