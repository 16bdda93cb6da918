import JavaRefactor.Proofs.WellFormed
import JavaRefactor.Tree.Role
import Mathlib.Data.List.Nodup

/-! # Where hoisted names come from

A scope declares names as soon as it is entered: type parameters, record components, the
types at the top of a file and the members of a body. Each such name hangs below the node
that declares it, no name stands twice in one list, and where bodies are bodies no name is
hoisted by two nodes.
-/

namespace JavaRefactor.Tree

variable {t : Tree} {i j m c x : Nat} {d d' : Declaration}

theorem isMember_iff {body : NodeId} : t.isMember body m ↔
    t.isNamed m ∧ ∃ between rest, t.ancestors m = between ++ body :: rest ∧
      ∀ a ∈ between, t.isNamed a ∧ t.kind a = .enumBodyDeclarations := by
  simp only [isMember, Bool.and_eq_true, decide_eq_true_eq, List.all_eq_true, beq_iff_eq]
  constructor
  · rintro ⟨⟨hlen, hm⟩, hall⟩
    refine ⟨hm, (t.ancestors m).takeWhile (· != body), ?_⟩
    cases hd : (t.ancestors m).dropWhile (· != body) with
    | nil =>
      have := congrArg List.length (List.takeWhile_append_dropWhile (p := (· != body))
        (l := t.ancestors m))
      simp [hd] at this
      omega
    | cons b rest =>
      have hb : b = body := by
        simpa [hd] using List.head_dropWhile_not (· != body) (l := t.ancestors m) (by simp [hd])
      subst hb
      refine ⟨rest, ?_, hall⟩
      rw [← hd, List.takeWhile_append_dropWhile]
  · rintro ⟨hm, between, rest, he, hall⟩
    have hpre : (t.ancestors m).takeWhile (· != body) <+: between := by
      rw [he, List.takeWhile_append]
      split
      · simp
      · exact List.takeWhile_prefix _
    refine ⟨⟨?_, hm⟩, fun a ha => hall a (hpre.subset ha)⟩
    have := hpre.length_le
    rw [he] at this ⊢
    simp only [List.length_append, List.length_cons]
    omega

/-- The node `m` is a member of the type that `i` opens. -/
def HoistsMember (t : Tree) (i m : NodeId) : Prop :=
  ∃ body, t.isMember body m ∧
    ((t.kind i).isTypeDeclaration ∧ t.childByField? i "body" = some body ∨
      t.kind i = .classBody ∧ body = i)

def memberKind? : NodeKind → Option SymbolKind
  | .methodDeclaration | .annotationTypeElementDeclaration | .constructorDeclaration
  | .compactConstructorDeclaration => some .method
  | .enumConstant => some .field
  | .classDeclaration | .interfaceDeclaration | .enumDeclaration | .recordDeclaration
  | .annotationTypeDeclaration => some .type
  | _ => none

/-- The ways in which the node `i` hoists a declaration. -/
inductive Hoists (t : Tree) (i : NodeId) (d : Declaration) : Prop where
  | typeParameter {params : NodeId} (opener : (t.kind i).isTypeDeclaration ∨
      (t.kind i).isCallableDeclaration) (field : t.childByField? i "type_parameters" = some params)
      (child : d.node ∈ t.children params) (node : t.kind d.node = .typeParameter)
      (name : t.childOfKind? d.node .typeIdentifier = some d.name) (kind : d.kind = .type)
  | component {params : NodeId} (opener : t.kind i = .recordDeclaration)
      (field : t.childByField? i "parameters" = some params) (child : d.node ∈ t.children params)
      (node : t.kind d.node = .formalParameter) (name : t.childByField? d.node "name" = some d.name)
      (kind : d.kind = .field)
  | top (opener : t.kind i = .program) (child : d.node ∈ t.children i)
      (node : (t.kind d.node).isTypeDeclaration)
      (name : t.childByField? d.node "name" = some d.name) (kind : d.kind = .type)
  | member (member : t.HoistsMember i d.node) (name : t.childByField? d.node "name" = some d.name)
      (kind : memberKind? (t.kind d.node) = some d.kind)
  | declarator {m : NodeId} (member : t.HoistsMember i m)
      (field : t.kind m = .fieldDeclaration ∨ t.kind m = .constantDeclaration)
      (child : d.node ∈ t.children m) (node : t.field d.node = some "declarator")
      (name : t.childByField? d.node "name" = some d.name) (kind : d.kind = .field)

theorem declaration?_eq_some_iff {kind : SymbolKind} : t.declaration? i kind = some d ↔
    t.childByField? i "name" = some d.name ∧ d.node = i ∧ d.kind = kind := by
  obtain ⟨name, node, k⟩ := d
  simp only [declaration?, Option.map_eq_some_iff, Declaration.mk.injEq]
  constructor
  · rintro ⟨_, h, rfl, rfl, rfl⟩
    exact ⟨h, rfl, rfl⟩
  · rintro ⟨h, rfl, rfl⟩
    exact ⟨_, h, rfl, rfl, rfl⟩

theorem mem_memberDeclarations {typeName : Option String}
    (h : d ∈ t.memberDeclarations typeName m) :
    t.childByField? d.node "name" = some d.name ∧
      (d.node = m ∧ memberKind? (t.kind m) = some d.kind ∨
        (t.kind m = .fieldDeclaration ∨ t.kind m = .constantDeclaration) ∧
          d.node ∈ t.children m ∧ t.field d.node = some "declarator" ∧ d.kind = .field) := by
  unfold memberDeclarations at h
  split at h
  case h_1 hk | h_2 hk =>
    obtain ⟨c, hc, hd⟩ := List.mem_filterMap.mp h
    obtain ⟨hname, rfl, hkind⟩ := declaration?_eq_some_iff.mp hd
    simp only [childrenByField, List.mem_filter, beq_iff_eq] at hc
    exact ⟨hname, Or.inr ⟨by simp [hk], hc.1, hc.2, hkind⟩⟩
  case h_5 hk | h_6 hk =>
    obtain ⟨hname, rfl, hkind⟩ :=
      declaration?_eq_some_iff.mp (Option.mem_toList.mp (List.mem_filter.mp h).1)
    exact ⟨hname, Or.inl ⟨rfl, by rw [hk, hkind]; rfl⟩⟩
  case h_13 => simp at h
  all_goals
    rename_i hk
    obtain ⟨hname, rfl, hkind⟩ := declaration?_eq_some_iff.mp (Option.mem_toList.mp h)
    exact ⟨hname, Or.inl ⟨rfl, by rw [hk, hkind]; rfl⟩⟩

theorem hoists_of_mem_body {typeName : Option String} {body : NodeId}
    (hbody : (t.kind i).isTypeDeclaration ∧ t.childByField? i "body" = some body ∨
      t.kind i = .classBody ∧ body = i)
    (h : d ∈ t.bodyDeclarations typeName body) : t.Hoists i d := by
  obtain ⟨m, hm, hd⟩ := List.mem_flatMap.mp h
  have hmember : t.HoistsMember i m := ⟨body, (List.mem_filter.mp hm).2, hbody⟩
  obtain ⟨hname, ⟨rfl, hkind⟩ | ⟨hfield, hchild, hnode, hkind⟩⟩ := mem_memberDeclarations hd
  · exact .member hmember hname hkind
  · exact .declarator hmember hfield hchild hnode hname hkind

theorem hoists_of_mem_typeParameters
    (hi : (t.kind i).isTypeDeclaration ∨ (t.kind i).isCallableDeclaration)
    (h : d ∈ t.typeParameters i) : t.Hoists i d := by
  unfold typeParameters at h
  split at h
  next => simp at h
  next params hparams =>
    obtain ⟨p, hp, hd⟩ := List.mem_filterMap.mp h
    obtain ⟨name, hname, rfl⟩ := Option.map_eq_some_iff.mp hd
    simp only [namedChildren, List.mem_filter, beq_iff_eq] at hp
    exact .typeParameter hi hparams hp.1.1 hp.2 hname rfl

theorem hoists_of_mem_recordComponents (hi : t.kind i = .recordDeclaration)
    (h : d ∈ t.recordComponents i) : t.Hoists i d := by
  unfold recordComponents at h
  split at h
  next => simp at h
  next params hparams =>
    obtain ⟨p, hp, hd⟩ := List.mem_filterMap.mp h
    obtain ⟨hname, rfl, hkind⟩ := declaration?_eq_some_iff.mp hd
    simp only [namedChildren, List.mem_filter, beq_iff_eq] at hp
    exact .component hi hparams hp.1.1 hp.2 hname hkind

theorem hoists_of_mem_typeDeclarations (hi : (t.kind i).isTypeDeclaration)
    (h : d ∈ t.typeDeclarations i) : t.Hoists i d := by
  simp only [typeDeclarations, List.mem_append] at h
  rcases h with (h | h) | h
  · exact hoists_of_mem_typeParameters (Or.inl hi) h
  · split at h
    next hk => exact hoists_of_mem_recordComponents (by simpa using hk) h
    next => simp at h
  · split at h
    next => simp at h
    next body hbody => exact hoists_of_mem_body (Or.inl ⟨hi, hbody⟩) h

theorem hoists_of_mem_hoisted (h : d ∈ t.hoisted i) : t.Hoists i d := by
  unfold hoisted at h
  split at h
  case h_1 hk =>
    obtain ⟨c, hc, hd⟩ := List.mem_filterMap.mp h
    obtain ⟨hname, rfl, hkind⟩ := declaration?_eq_some_iff.mp hd
    simp only [namedChildren, List.mem_filter] at hc
    exact .top hk hc.1.1 hc.2 hname hkind
  case h_2 hk | h_3 hk | h_4 hk | h_5 hk | h_6 hk =>
    exact hoists_of_mem_typeDeclarations (by rw [hk]; rfl) h
  case h_7 hk => exact hoists_of_mem_body (Or.inr ⟨hk, rfl⟩) h
  case h_8 hk | h_9 hk | h_10 hk =>
    exact hoists_of_mem_typeParameters (Or.inr (by rw [hk]; rfl)) h
  case h_11 => simp at h

namespace Hoists

theorem isName (h : t.Hoists i d) : t.IsName d.name := by
  cases h with
  | typeParameter _ _ _ _ name _ => exact Or.inr (Or.inl (by simpa using List.find?_some name))
  | component _ _ _ node name _ => exact Or.inr (Or.inr ⟨_, by simp [isDeclaring, node], name⟩)
  | top _ _ node name _ => exact Or.inr (Or.inr ⟨_, by simp [isDeclaring, node], name⟩)
  | member _ name kind =>
    refine Or.inr (Or.inr ⟨_, ?_, name⟩)
    unfold memberKind? at kind
    split at kind <;> simp_all [isDeclaring, NodeKind.isTypeDeclaration,
      NodeKind.isCallableDeclaration]
  | declarator _ _ _ node name _ => exact Or.inr (Or.inr ⟨_, by simp [isDeclaring, node], name⟩)

theorem not_isLocal (h : t.Hoists i d) : d.kind.isLocal = false := by
  cases h with
  | member _ _ kind =>
    unfold memberKind? at kind
    split at kind <;> simp_all [SymbolKind.isLocal]
    all_goals rw [← kind]
  | typeParameter _ _ _ _ _ kind => rw [kind]; rfl
  | component _ _ _ _ _ kind => rw [kind]; rfl
  | top _ _ _ _ kind => rw [kind]; rfl
  | declarator _ _ _ _ _ kind => rw [kind]; rfl

theorem name_parent (h : t.Hoists i d) (ht : t.InPreorder) : t.parent? d.name = some d.node := by
  cases h with
  | typeParameter _ _ _ _ name _ =>
    exact ((ht.mem_children _ _).mp (List.mem_of_find?_eq_some name)).2
  | component _ _ _ _ name _ => exact ht.parent_of_childByField? name
  | top _ _ _ name _ => exact ht.parent_of_childByField? name
  | member _ name _ => exact ht.parent_of_childByField? name
  | declarator _ _ _ _ name _ => exact ht.parent_of_childByField? name

end Hoists

theorem HoistsMember.mem_ancestors (h : t.HoistsMember i m) (ht : t.InPreorder) :
    i ∈ t.ancestors m := by
  obtain ⟨body, hm, hbody⟩ := h
  obtain ⟨-, between, rest, he, -⟩ := isMember_iff.mp hm
  have hmem : body ∈ t.ancestors m := by rw [he]; simp
  rcases hbody with ⟨-, hbody⟩ | ⟨-, rfl⟩
  · have hp := ht.parent_of_childByField? hbody
    exact ht.ancestors_trans ((ht.mem_ancestors_iff hp).mpr (Or.inl rfl)) hmem
  · exact hmem

theorem mem_ancestors_of_children (ht : t.InPreorder) (h : m ∈ t.children i) :
    i ∈ t.ancestors m :=
  (ht.mem_ancestors_iff ((ht.mem_children i m).mp h).2).mpr (Or.inl rfl)

theorem Hoists.mem_ancestors (h : t.Hoists i d) (ht : t.InPreorder) : i ∈ t.ancestors d.node := by
  cases h with
  | typeParameter _ field child _ _ _ =>
    exact ht.ancestors_trans (mem_ancestors_of_children ht (mem_children_of_childByField? field))
      (mem_ancestors_of_children ht child)
  | component _ field child _ _ _ =>
    exact ht.ancestors_trans (mem_ancestors_of_children ht (mem_children_of_childByField? field))
      (mem_ancestors_of_children ht child)
  | top _ child _ _ _ => exact mem_ancestors_of_children ht child
  | member member _ _ => exact member.mem_ancestors ht
  | declarator member _ child _ _ _ =>
    exact ht.ancestors_trans (member.mem_ancestors ht) (mem_ancestors_of_children ht child)

theorem nodup_children (ht : t.InPreorder) (i : Nat) : (t.children i).Nodup :=
  (ht.sorted i).imp fun h => Nat.ne_of_lt h

theorem branch_unique (ht : t.InPreorder) {b b' : Nat} (hb : t.parent? b = some i)
    (hb' : t.parent? b' = some i) (hx : b ∈ t.ancestors x) (hx' : b' ∈ t.ancestors x) : b = b' := by
  have key : ∀ {b b' : Nat}, t.parent? b = some i → t.parent? b' = some i → b ∈ t.ancestors x →
      b' ∈ t.ancestors x → ¬ b < b' := by
    intro b b' hb hb' hx hx' hlt
    have hmem := ht.ancestors_linear (List.mem_cons_of_mem _ hx) (List.mem_cons_of_mem _ hx') hlt
    have hib := ht.parent_lt hb
    rcases (ht.mem_ancestors_iff hb').mp hmem with rfl | hmem
    · omega
    · have := ht.lt_of_mem_ancestors hmem
      omega
  rcases Nat.lt_trichotomy b b' with h | h | h
  · exact absurd h (key hb hb' hx hx')
  · exact h
  · exact absurd h (key hb' hb hx' hx)

theorem nodup_names {l : List Declaration} (hl : (l.map (·.node)).Nodup)
    (h : ∀ d ∈ l, t.parent? d.name = some d.node) : (l.map (·.name)).Nodup := by
  rw [List.Nodup, List.pairwise_map] at hl ⊢
  refine hl.imp_of_mem fun {d d'} hd hd' hne he => hne ?_
  have h' := h d' hd'
  rw [← he, h d hd] at h'
  exact Option.some.inj h'

theorem map_node_filterMap_sublist {f : NodeId → Option Declaration}
    (hf : ∀ p d, f p = some d → d.node = p) (l : List NodeId) :
    ((l.filterMap f).map (·.node)).Sublist l := by
  induction l with
  | nil => exact .slnil
  | cons p l ih =>
    cases hp : f p with
    | none =>
      rw [List.filterMap_cons_none hp]
      exact ih.cons p
    | some d =>
      rw [List.filterMap_cons_some hp, List.map_cons, hf p d hp]
      exact ih.cons_cons p

theorem node_of_declaration? {kind : SymbolKind} (p : NodeId) (d : Declaration)
    (h : t.declaration? p kind = some d) : d.node = p := (declaration?_eq_some_iff.mp h).2.1

theorem namedChildren_sublist (t : Tree) (i : NodeId) :
    (t.namedChildren i).Sublist (t.children i) := List.filter_sublist

theorem nodup_typeParameters (ht : t.InPreorder) (i : Nat) :
    ((t.typeParameters i).map (·.node)).Nodup := by
  unfold typeParameters
  split
  next => simp
  next params _ =>
    have hf : ∀ (p : NodeId) (d : Declaration), ((t.childOfKind? p .typeIdentifier).map
        fun name => (⟨name, p, .type⟩ : Declaration)) = some d → d.node = p := by
      intro p d hd
      obtain ⟨name, -, rfl⟩ := Option.map_eq_some_iff.mp hd
      rfl
    exact (nodup_children ht params).sublist ((map_node_filterMap_sublist hf _).trans
      (List.filter_sublist.trans (namedChildren_sublist t params)))

theorem nodup_recordComponents (ht : t.InPreorder) (i : Nat) :
    ((t.recordComponents i).map (·.node)).Nodup := by
  unfold recordComponents
  split
  next => simp
  next params _ =>
    exact (nodup_children ht params).sublist
      ((map_node_filterMap_sublist node_of_declaration? _).trans
        (List.filter_sublist.trans (namedChildren_sublist t params)))

theorem nodup_memberDeclarations (ht : t.InPreorder) (typeName : Option String) (m : Nat) :
    ((t.memberDeclarations typeName m).map (·.node)).Nodup := by
  have hsingle (o : Option Declaration) : (o.toList.map (·.node)).Nodup := by cases o <;> simp
  unfold memberDeclarations
  split
  case h_1 | h_2 =>
    exact (nodup_children ht m).sublist ((map_node_filterMap_sublist node_of_declaration? _).trans
      List.filter_sublist)
  case h_5 | h_6 => exact (hsingle _).sublist (List.filter_sublist.map _)
  case h_13 => simp
  all_goals exact hsingle _

theorem parent_ne_of_isMember (ht : t.InPreorder) {body : NodeId} (hm : t.isMember body m)
    (hj : t.isMember body j) (hk : t.kind j ≠ .enumBodyDeclarations) : t.parent? m ≠ some j := by
  intro hp
  obtain ⟨-, between, rest, he, hall⟩ := isMember_iff.mp hm
  obtain ⟨-, between', rest', he', -⟩ := isMember_iff.mp hj
  rw [ht.ancestors_of_parent hp] at he
  cases between with
  | nil =>
    obtain ⟨rfl, -⟩ := List.cons.inj he
    have hmem : j ∈ t.ancestors j := by rw [he']; simp
    exact Nat.lt_irrefl j (ht.lt_of_mem_ancestors hmem)
  | cons a between =>
    obtain ⟨rfl, -⟩ := List.cons.inj he
    exact hk (hall j List.mem_cons_self).2

theorem nodup_bodyDeclarations (ht : t.InPreorder) (typeName : Option String) (body : NodeId) :
    ((t.bodyDeclarations typeName body).map (·.node)).Nodup := by
  rw [bodyDeclarations, List.map_flatMap, List.nodup_flatMap]
  refine ⟨fun m _ => nodup_memberDeclarations ht typeName m, ?_⟩
  have hmembers : (t.members body).Nodup := List.nodup_range.filter _
  refine hmembers.imp_of_mem fun {m j} hm hj hne => ?_
  have hm := (List.mem_filter.mp hm).2
  have hj := (List.mem_filter.mp hj).2
  intro x hx hx'
  obtain ⟨d, hd, rfl⟩ := List.mem_map.mp hx
  obtain ⟨d', hd', he⟩ := List.mem_map.mp hx'
  have hparent : ∀ {c q : Nat}, c ∈ t.children q → t.parent? c = some q :=
    fun {c q} hc => ((ht.mem_children q c).mp hc).2
  rcases (mem_memberDeclarations hd).2 with ⟨h, -⟩ | ⟨hk, hc, -⟩
  · rcases (mem_memberDeclarations hd').2 with ⟨h', -⟩ | ⟨hk', hc', -⟩
    · exact hne (h.symm.trans (he.symm.trans h'))
    · rw [he, h] at hc'
      exact parent_ne_of_isMember ht hm hj (by rcases hk' with h | h <;> simp [h]) (hparent hc')
  · rcases (mem_memberDeclarations hd').2 with ⟨h', -⟩ | ⟨-, hc', -⟩
    · rw [← he, h'] at hc
      exact parent_ne_of_isMember ht hj hm (by rcases hk with h | h <;> simp [h]) (hparent hc)
    · rw [he] at hc'
      exact hne (Option.some.inj ((hparent hc).symm.trans (hparent hc')))

theorem branch_typeParameters (ht : t.InPreorder) (h : d ∈ t.typeParameters i) :
    ∃ b, t.childByField? i "type_parameters" = some b ∧ b ∈ t.ancestors d.node := by
  unfold typeParameters at h
  split at h
  next => simp at h
  next params hparams =>
    obtain ⟨p, hp, hd⟩ := List.mem_filterMap.mp h
    obtain ⟨name, -, rfl⟩ := Option.map_eq_some_iff.mp hd
    exact ⟨params, hparams, mem_ancestors_of_children ht
      ((namedChildren_sublist t params).subset (List.mem_filter.mp hp).1)⟩

theorem branch_recordComponents (ht : t.InPreorder) (h : d ∈ t.recordComponents i) :
    ∃ b, t.childByField? i "parameters" = some b ∧ b ∈ t.ancestors d.node := by
  unfold recordComponents at h
  split at h
  next => simp at h
  next params hparams =>
    obtain ⟨p, hp, hd⟩ := List.mem_filterMap.mp h
    rw [node_of_declaration? p d hd]
    exact ⟨params, hparams, mem_ancestors_of_children ht
      ((namedChildren_sublist t params).subset (List.mem_filter.mp hp).1)⟩

theorem branch_bodyDeclarations (ht : t.InPreorder) {typeName : Option String} {body : NodeId}
    (h : d ∈ t.bodyDeclarations typeName body) : body ∈ t.ancestors d.node := by
  obtain ⟨m, hm, hd⟩ := List.mem_flatMap.mp h
  obtain ⟨-, between, rest, he, -⟩ := isMember_iff.mp (List.mem_filter.mp hm).2
  have hmem : body ∈ t.ancestors m := by rw [he]; simp
  rcases (mem_memberDeclarations hd).2 with ⟨rfl, -⟩ | ⟨-, hc, -⟩
  · exact hmem
  · exact ht.ancestors_trans hmem (mem_ancestors_of_children ht hc)

/-- Declarations below different fields of a node are made for different nodes. -/
theorem node_ne_of_branch (ht : t.InPreorder) {f f' : String} (hf : f ≠ f')
    (h : ∃ b, t.childByField? i f = some b ∧ b ∈ t.ancestors d.node)
    (h' : ∃ b, t.childByField? i f' = some b ∧ b ∈ t.ancestors d'.node) : d.node ≠ d'.node := by
  obtain ⟨b, hb, hx⟩ := h
  obtain ⟨b', hb', hx'⟩ := h'
  intro he
  rw [← he] at hx'
  have hbb := branch_unique ht (ht.parent_of_childByField? hb) (ht.parent_of_childByField? hb')
    hx hx'
  have hfield := field_of_childByField? hb'
  rw [← hbb, field_of_childByField? hb] at hfield
  exact hf (Option.some.inj hfield)

theorem nodup_typeDeclarations (ht : t.InPreorder) (i : Nat) :
    ((t.typeDeclarations i).map (·.node)).Nodup := by
  have hcomponents : ∀ d ∈ (if t.kind i == .recordDeclaration then t.recordComponents i else []),
      d ∈ t.recordComponents i := by
    intro d hd
    split at hd
    · exact hd
    · simp at hd
  have hfront : ((t.typeParameters i ++ if t.kind i == .recordDeclaration then t.recordComponents i
      else []).map (·.node)).Nodup := by
    rw [List.map_append]
    refine List.nodup_append.mpr ⟨nodup_typeParameters ht i, ?_, ?_⟩
    · split
      · exact nodup_recordComponents ht i
      · simp
    · intro x hx y hy
      obtain ⟨d, hd, rfl⟩ := List.mem_map.mp hx
      obtain ⟨d', hd', rfl⟩ := List.mem_map.mp hy
      exact node_ne_of_branch ht (by decide) (branch_typeParameters ht hd)
        (branch_recordComponents ht (hcomponents d' hd'))
  unfold typeDeclarations
  cases hb : t.childByField? i "body" with
  | none =>
    rw [List.append_nil]
    exact hfront
  | some body =>
    rw [List.map_append]
    refine List.nodup_append.mpr ⟨hfront, nodup_bodyDeclarations ht _ _, ?_⟩
    intro x hx y hy
    obtain ⟨d, hd, rfl⟩ := List.mem_map.mp hx
    obtain ⟨d', hd', rfl⟩ := List.mem_map.mp hy
    have hbody : ∃ b, t.childByField? i "body" = some b ∧ b ∈ t.ancestors d'.node :=
      ⟨body, hb, branch_bodyDeclarations ht hd'⟩
    rcases List.mem_append.mp hd with hd | hd
    · exact node_ne_of_branch ht (by decide) (branch_typeParameters ht hd) hbody
    · exact node_ne_of_branch ht (by decide) (branch_recordComponents ht (hcomponents d hd)) hbody

theorem nodup_hoisted (ht : t.InPreorder) (i : Nat) : ((t.hoisted i).map (·.name)).Nodup := by
  refine nodup_names ?_ fun d hd => (hoists_of_mem_hoisted hd).name_parent ht
  unfold hoisted
  split
  case h_1 =>
    exact (nodup_children ht i).sublist ((map_node_filterMap_sublist node_of_declaration? _).trans
      (List.filter_sublist.trans (namedChildren_sublist t i)))
  case h_7 => exact nodup_bodyDeclarations ht none i
  case h_8 | h_9 | h_10 => exact nodup_typeParameters ht i
  case h_11 => simp
  all_goals exact nodup_typeDeclarations ht i

end JavaRefactor.Tree
