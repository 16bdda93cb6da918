import JavaRefactor.Proofs.Constructor

/-! # Trees of one shape

Two trees of one shape differ in their texts and spans only. Roles, scopes and what a node
could hoist are the same in both. The text decides which constructors count as methods, so
the outlines of the two agree in all entries but those.
-/

namespace JavaRefactor

namespace Tree

/-- The trees differ in texts and spans only. -/
structure SameShape (t t' : Tree) : Prop where
  size : t'.size = t.size
  kind : t'.kind = t.kind
  field : t'.field = t.field
  children : t'.children = t.children
  ancestors : t'.ancestors = t.ancestors
  isNamed : t'.isNamed = t.isNamed
  isError : t'.isError = t.isError

namespace SameShape

variable {t t' : Tree} {i m : Nat} (h : SameShape t t')
include h

theorem parent? : t'.parent? = t.parent? := by
  funext i
  exact congrArg List.head? (congrFun h.ancestors i)

theorem parentKind? : t'.parentKind? = t.parentKind? := by
  funext i
  simp only [Tree.parentKind?, h.parent?, h.kind]

theorem childByField? : t'.childByField? = t.childByField? := by
  funext i field
  simp only [Tree.childByField?, h.children, h.field]

theorem opens? : t'.opens? = t.opens? := by
  have hanon : t'.isAnonymousBody = t.isAnonymousBody := by
    funext i
    simp only [isAnonymousBody, h.parentKind?]
  have hcallable : t'.isCallableBody = t.isCallableBody := by
    funext i
    simp only [isCallableBody, h.parentKind?]
  funext i
  simp only [Tree.opens?, h.kind, hanon, hcallable]

theorem declaration? : t'.declaration? = t.declaration? := by
  funext i kind
  simp only [Tree.declaration?, h.childByField?]

theorem ownDeclaration? : t'.ownDeclaration? = t.ownDeclaration? := by
  funext i
  simp only [Tree.ownDeclaration?, h.kind, h.declaration?]

theorem isMember : t'.isMember = t.isMember := by
  funext body i
  simp only [Tree.isMember, h.ancestors, h.isNamed, h.kind]

theorem members : t'.members = t.members := by
  funext body
  simp only [Tree.members, ids, h.size, h.isMember]

theorem namedChildren : t'.namedChildren = t.namedChildren := by
  funext i
  simp only [Tree.namedChildren, h.children, h.isNamed]

theorem role : t'.role = t.role := by
  have hthis : t'.isOnThis = t.isOnThis := by
    funext i
    simp only [isOnThis, h.childByField?, h.kind]
  have hlocal : t'.localDeclaration? = t.localDeclaration? := by
    funext i p
    simp only [localDeclaration?, h.kind, h.field, h.parentKind?]
  have huse : t'.useRole = t.useRole := by
    funext i p
    simp only [useRole, h.kind, h.field, h.children, h.childByField?, hthis]
  funext i
  simp only [Tree.role, identifierRole, typeIdentifierRole, h.kind, h.parent?, h.children, hlocal,
    huse]

theorem typeParameters : t'.typeParameters = t.typeParameters := by
  funext i
  simp only [Tree.typeParameters, childOfKind?, h.childByField?, h.namedChildren, h.kind,
    h.children]

theorem recordComponents : t'.recordComponents = t.recordComponents := by
  funext i
  simp only [Tree.recordComponents, h.childByField?, h.namedChildren, h.kind, h.declaration?]

theorem bodyDeclarations : t'.bodyDeclarations none = t.bodyDeclarations none := by
  have hmember : t'.memberDeclarations none = t.memberDeclarations none := by
    funext i
    simp only [memberDeclarations, childrenByField, h.kind, h.children, h.field, h.declaration?]
    rfl
  funext body
  simp only [Tree.bodyDeclarations, h.members, hmember]

theorem hoistable : t'.hoistable = t.hoistable := by
  funext i
  simp only [Tree.hoistable, h.kind, h.typeParameters, h.recordComponents, h.childByField?,
    h.bodyDeclarations]
  split
  · rfl
  next hk =>
    simp only [hoisted, h.kind, h.namedChildren, h.declaration?, h.bodyDeclarations,
      h.typeParameters]
    cases hki : t.kind i <;> simp [hki, NodeKind.isTypeDeclaration] at hk ⊢

theorem inPreorder (ht : t.InPreorder) : t'.InPreorder := by
  refine ⟨?_, ?_, ?_, ?_⟩
  · rw [h.ancestors]; exact ht.ancestors_root
  · rw [h.ancestors, h.size]; exact ht.above
  · rw [h.children, h.size, h.parent?]; exact ht.mem_children
  · rw [h.children]; exact ht.sorted

theorem isProgram (ht : t.IsProgram) : t'.IsProgram :=
  ⟨h.inPreorder ht.toInPreorder, by rw [h.kind]; exact ht.program⟩

theorem hoistsMember_iff : t'.HoistsMember i m ↔ t.HoistsMember i m := by
  rw [HoistsMember, HoistsMember, h.isMember, h.kind, h.childByField?]

theorem typesHaveBodies (hb : t.TypesHaveBodies) : t'.TypesHaveBodies := by
  rw [TypesHaveBodies, h.kind, h.childByField?]
  exact hb

theorem grammatical (hg : t.Grammatical) : t'.Grammatical := by
  refine ⟨?_, ?_, ?_, ?_, ?_⟩
  · rw [h.isError, h.kind]; exact hg.errorKind
  · exact h.typesHaveBodies hg.typesHaveBodies
  · intro m hk he
    rw [h.kind] at hk
    rw [isInError, h.isError, h.ancestors] at he
    obtain ⟨i, ho, hm⟩ := hg.constructorMember m hk he
    exact ⟨i, by rw [h.opens?]; exact ho, h.hoistsMember_iff.mpr hm⟩
  · rw [h.parent?, h.kind, h.field]; exact hg.fieldAccess
  · rw [h.parent?, h.kind, h.field]; exact hg.methodInvocation

end SameShape

/-- The declaration is none of a constructor that counts as a method. -/
def isCore (t : Tree) (d : Declaration) : Bool :=
  !(d.kind == .method && (t.kind d.node).isConstructor)

theorem keeps_of_isCore {t : Tree} {d : Declaration} (hd : t.isCore d) (typeName : Option String) :
    t.keeps typeName d := by
  simp only [isCore, Bool.not_eq_true', Bool.and_eq_false_iff] at hd
  rcases hd with hd | hd <;> simp [keeps, hd]

theorem SameShape.filter_hoisted {t t' : Tree} (h : SameShape t t') (i : NodeId) :
    (t'.hoisted i).filter t.isCore = (t.hoisted i).filter t.isCore := by
  have key {t₁ : Tree} (ht₁ : t₁.isCore = t.isCore) : (t₁.hoisted i).filter t.isCore =
      (t₁.hoistable i).filter t.isCore := by
    rw [hoisted_eq_filter, List.filter_filter]
    refine List.filter_congr fun d _ => ?_
    cases hd : t.isCore d with
    | false => rfl
    | true => rw [keeps_of_isCore (by rw [ht₁]; exact hd), Bool.and_true]
  have hcore : t'.isCore = t.isCore := by
    funext d
    simp only [isCore, h.kind]
  rw [key hcore, key rfl, h.hoistable]

end Tree

namespace Outline

variable {t t' : Tree} {o o' : Trail} {stack : List ScopeId} {i k : Nat} {e : OutlineEntry}
  {d : Declaration}

/-- The entry is none of a constructor that counts as a method. -/
def isCore (t : Tree) (e : OutlineEntry) : Bool :=
  !(e.kind == .method && (t.parentKind? e.node).any NodeKind.isConstructor)

/-- The outlines agree but for constructors that count as methods. -/
structure Alike (t : Tree) (o o' : Trail) : Prop where
  inside : o'.inside = o.inside
  kinds : o'.kinds = o.kinds
  core : o'.entries.filter (isCore t) = o.entries.filter (isCore t)

theorem isCore_of_parent {p : Nat} (hp : t.parent? e.node = some p)
    (hk : (t.kind p).isConstructor = false) : isCore t e := by
  simp [isCore, Tree.parentKind?, hp, hk]

theorem exists_constructor (ht : t.InPreorder) (he : e ∈ (upTo t k).entries)
    (hcore : isCore t e = false) :
    ∃ m : NodeId, (t.kind m).isConstructor ∧ t.childByField? m "name" = some e.node := by
  have hparent {p : Nat} (hp : t.parent? e.node = some p) : (t.kind p).isConstructor := by
    by_contra hk
    simp [isCore_of_parent hp (by simpa using hk)] at hcore
  obtain ⟨j, -, stack, -, hadd⟩ := mem_entries_upTo_iff.mp he
  rcases mem_added_iff.mp hadd with ⟨-, d, hrole, -, rfl⟩ | ⟨-, ⟨d, hown, -, rfl⟩ | ⟨d, hd, rfl⟩⟩
  · obtain ⟨-, p, hp, hlocal⟩ := Tree.role_declares hrole
    obtain ⟨hname, -, -, -, hcallable⟩ := Tree.localDeclaration?_name hlocal
    simp [(NodeKind.isCallable_of_isConstructor (hparent (hname ▸ hp))).1] at hcallable
  · have := hparent (parent_of_own ht hown)
    simp [(Tree.ownDeclaration?_eq_some hown).2.2.2.1] at this
  · have hh := Tree.hoists_of_mem_hoisted hd
    refine ⟨d.node, hparent (hh.name_parent ht), ?_⟩
    cases hh with
    | typeParameter _ _ _ _ _ kind => simp [isCore, kind] at hcore
    | component _ _ _ _ name _ => exact name
    | top _ _ _ name _ => exact name
    | member _ name _ => exact name
    | declarator _ _ _ _ name _ => exact name

theorem isCore_hoisted (ht : t.InPreorder) (hd : d ∈ t.hoisted i) (scope : ScopeId) :
    isCore t ⟨scope, d.kind, d.name⟩ = t.isCore d := by
  simp [isCore, Tree.isCore, Tree.parentKind?, (Tree.hoists_of_mem_hoisted hd).name_parent ht]

namespace Alike

theorem declares_eq (h : Alike t o o') {x p : Nat} (hp : t.parent? x = some p)
    (hk : (t.kind p).isConstructor = false) : o'.declares x = o.declares x := by
  have key (o : Outline) :
      o.declares x = (o.entries.filter (isCore t)).any fun e => e.node == x := by
    rw [declares, List.any_filter]
    refine List.any_congr rfl fun e => ?_
    by_cases he : e.node = x
    · rw [isCore_of_parent (he ▸ hp) hk, Bool.true_and]
    · simp [he]
  rw [key, key, h.core]

theorem declares_of_role (h : Alike t o o') (hr : t.role i = .declares d) :
    o'.declares d.name = o.declares d.name := by
  obtain ⟨-, p, hp, hlocal⟩ := Tree.role_declares hr
  obtain ⟨hname, -, -, -, hcallable⟩ := Tree.localDeclaration?_name hlocal
  refine h.declares_eq (hname ▸ hp) ?_
  by_contra hk
  simp [(NodeKind.isCallable_of_isConstructor (by simpa using hk)).1] at hcallable

theorem declares_of_own (h : Alike t o o') (ht : t.InPreorder) (hd : t.ownDeclaration? i = some d) :
    o'.declares d.name = o.declares d.name :=
  h.declares_eq (parent_of_own ht hd) (Tree.ownDeclaration?_eq_some hd).2.2.2.1

theorem reached?_eq (h : Alike t o o') (hs : t.SameShape t') :
    o'.reached? t' i = o.reached? t i := by
  simp only [Trail.reached?, hs.isError, hs.parent?, h.inside]

theorem filter_added (h : Alike t o o') (hs : t.SameShape t') (ht : t.InPreorder) :
    (o'.added t' stack i).filter (isCore t) = (o.added t stack i).filter (isCore t) := by
  simp only [added, hs.opens?, hs.role, hs.ownDeclaration?, h.kinds]
  cases t.opens? i with
  | none =>
    cases hr : t.role i with
    | declares d => simp only [h.declares_of_role hr]
    | _ => rfl
  | some kind =>
    have hown : (t.ownDeclaration? i).toList.filter (fun d => !o'.declares d.name) =
        (t.ownDeclaration? i).toList.filter fun d => !o.declares d.name := by
      refine List.filter_congr fun d hd => ?_
      rw [h.declares_of_own ht (Option.mem_toList.mp hd)]
    have hhoisted :
        ((t'.hoisted i).map fun d => (⟨o.kinds.size, d.kind, d.name⟩ : OutlineEntry)).filter
          (isCore t) =
        ((t.hoisted i).map fun d => ⟨o.kinds.size, d.kind, d.name⟩).filter (isCore t) := by
      have key (t₁ : Tree) (h₁ : t.SameShape t₁) :
          ((t₁.hoisted i).map fun d => (⟨o.kinds.size, d.kind, d.name⟩ : OutlineEntry)).filter
            (isCore t) =
          ((t₁.hoisted i).filter t.isCore).map fun d => ⟨o.kinds.size, d.kind, d.name⟩ := by
        rw [List.filter_map]
        refine congrArg _ (List.filter_congr fun d hd => ?_)
        have := isCore_hoisted (h₁.inPreorder ht) hd o.kinds.size
        simp only [isCore, Tree.isCore, h₁.parentKind?, h₁.kind] at this
        exact this
      rw [key t' hs, key t ⟨rfl, rfl, rfl, rfl, rfl, rfl, rfl⟩, hs.filter_hoisted]
    simp only [List.filter_append, hown, hhoisted]

theorem visit (h : Alike t o o') (hs : t.SameShape t') (ht : t.InPreorder) :
    Alike t (Outline.visit t o i) (Outline.visit t' o' i) := by
  unfold Outline.visit
  rw [h.reached?_eq hs]
  cases o.reached? t i with
  | none => exact ⟨by simp [h.inside], h.kinds, h.core⟩
  | some stack =>
    refine ⟨by simp [h.inside, h.kinds, hs.opens?], by simp [h.kinds, hs.opens?], ?_⟩
    simp only [List.filter_append, h.core, h.filter_added hs ht]

end Alike

theorem alike_upTo (hs : t.SameShape t') (ht : t.InPreorder) (k : Nat) :
    Alike t (upTo t k) (upTo t' k) := by
  induction k with
  | zero => exact ⟨rfl, rfl, rfl⟩
  | succ k ih =>
    rw [upTo_succ, upTo_succ]
    exact ih.visit hs ht

/-- If nothing more is hoisted in the second tree, nothing more is declared. -/
theorem entries_subset (hs : t.SameShape t') (ht : t.InPreorder)
    (hh : ∀ i < k, ∀ stack, (upTo t i).reached? t i = some stack → (t.opens? i).isSome →
      t'.hoisted i ⊆ t.hoisted i) : (upTo t' k).entries ⊆ (upTo t k).entries := by
  intro e he
  obtain ⟨j, hj, stack, hr, hadd⟩ := mem_entries_upTo_iff.mp he
  have halike := alike_upTo hs ht j
  rw [halike.reached?_eq hs] at hr
  refine mem_entries_upTo_iff.mpr ⟨j, hj, stack, hr, mem_added_iff.mpr ?_⟩
  rw [mem_added_iff, hs.opens?, hs.role, hs.ownDeclaration?, halike.kinds] at hadd
  rcases hadd with ⟨ho, d, hrole, hd, rfl⟩ | ⟨ho, ⟨d, hown, hd, rfl⟩ | ⟨d, hd, rfl⟩⟩
  · rw [halike.declares_of_role hrole] at hd
    exact Or.inl ⟨ho, d, hrole, hd, rfl⟩
  · rw [halike.declares_of_own ht hown] at hd
    exact Or.inr ⟨ho, Or.inl ⟨d, hown, hd, rfl⟩⟩
  · exact Or.inr ⟨ho, Or.inr ⟨d, hh j hj stack hr ho hd, rfl⟩⟩

theorem upTo_eq (hs : t.SameShape t')
    (hh : ∀ i < k, ∀ stack, (upTo t i).reached? t i = some stack → (t.opens? i).isSome →
      t'.hoisted i = t.hoisted i) : upTo t' k = upTo t k := by
  induction k with
  | zero => rfl
  | succ k ih =>
    rw [upTo_succ, upTo_succ, ih fun i hi => hh i (by omega)]
    have hreach : (upTo t k).reached? t' k = (upTo t k).reached? t k := by
      simp only [Trail.reached?, hs.isError, hs.parent?]
    unfold visit
    rw [hreach, hs.opens?]
    cases hr : (upTo t k).reached? t k with
    | none => rfl
    | some stack =>
      have hadd : (upTo t k).added t' stack k = (upTo t k).added t stack k := by
        simp only [added, hs.opens?, hs.role, hs.ownDeclaration?]
        cases ho : t.opens? k with
        | none => rfl
        | some kind => rw [hh k (by omega) stack hr (by simp [ho])]
      simp only [hadd]

end Outline

end JavaRefactor
