import JavaRefactor.Proofs.Occurrence

/-! # Where names stand

An identifier that declares nothing is looked up, unless it stands where the names of a file do
not count: in a header, in a label, or behind a dot. The two sides are told here by the place of
the identifier alone, and agree with the role that the walk reads.
-/

namespace JavaRefactor

/-- Identifiers right below such a node are parts of dotted names, or labels. -/
def NodeKind.holdsForeignNames : NodeKind → Bool
  | packageDeclaration | importDeclaration | scopedIdentifier | labeledStatement | breakStatement
  | continueStatement => true
  | _ => false

namespace Tree

variable {t : Tree} {u p : Nat} {target : Target}

def IsOnOther (t : Tree) (access : NodeId) : Prop :=
  ∃ object, t.childByField? access "object" = some object ∧ t.kind object ≠ .this

/-- The places where an identifier is not looked up. -/
inductive IsForeign (t : Tree) (u : NodeId) : Prop where
  | header {p : NodeId} (kind : t.kind u = .identifier) (parent : t.parent? u = some p)
      (above : (t.kind p).holdsForeignNames)
  | key {p : NodeId} (kind : t.kind u = .identifier) (parent : t.parent? u = some p)
      (above : t.kind p = .elementValuePair) (field : t.field u = some "key")
  | methodReference {p : NodeId} (kind : t.kind u = .identifier) (parent : t.parent? u = some p)
      (above : t.kind p = .methodReference) (later : (t.children p).head? ≠ some u)
  | access {p : NodeId} (kind : t.kind u = .identifier) (parent : t.parent? u = some p)
      (above : t.kind p = .fieldAccess) (field : t.field u = some "field") (object : ¬ t.isOnThis p)
  | call {p : NodeId} (kind : t.kind u = .identifier) (parent : t.parent? u = some p)
      (above : t.kind p = .methodInvocation) (field : t.field u = some "name")
      (object : t.IsOnOther p)
  | typePart {p : NodeId} (kind : t.kind u = .typeIdentifier) (parent : t.parent? u = some p)
      (above : t.kind p = .scopedTypeIdentifier) (later : (t.children p).head? ≠ some u)

def IsSelector (t : Tree) (u p : NodeId) : Prop :=
  (t.kind p = .annotationMarker ∨ t.kind p = .annotationCall ∨ t.kind p = .methodInvocation) ∧
      t.field u = some "name" ∨
    t.kind p = .fieldAccess ∧ t.field u = some "field"

/-- How an identifier is looked up, by the place where it stands. -/
inductive Refers (t : Tree) (u : NodeId) : Target → Prop where
  | type (kind : t.kind u = .typeIdentifier) (native : ¬ t.IsForeign u) :
      Refers t u (.lexical .type)
  | annotates {p : NodeId} (kind : t.kind u = .identifier) (parent : t.parent? u = some p)
      (above : t.kind p = .annotationMarker ∨ t.kind p = .annotationCall)
      (field : t.field u = some "name") : Refers t u (.lexical .type)
  | call {p : NodeId} (kind : t.kind u = .identifier) (parent : t.parent? u = some p)
      (above : t.kind p = .methodInvocation) (field : t.field u = some "name")
      (object : t.childByField? p "object" = none) : Refers t u (.lexical .method)
  | ownCall {p : NodeId} (kind : t.kind u = .identifier) (parent : t.parent? u = some p)
      (above : t.kind p = .methodInvocation) (field : t.field u = some "name")
      (object : t.isOnThis p) : Refers t u (.member .method)
  | ownField {p : NodeId} (kind : t.kind u = .identifier) (parent : t.parent? u = some p)
      (above : t.kind p = .fieldAccess) (field : t.field u = some "field")
      (object : t.isOnThis p) : Refers t u (.member .var)
  | expression {p : NodeId} (kind : t.kind u = .identifier) (parent : t.parent? u = some p)
      (undeclared : t.localDeclaration? u p = none) (native : ¬ t.IsForeign u)
      (plain : ¬ t.IsSelector u p) : Refers t u .expression

theorem isOnThis_iff : t.isOnThis p ↔
    ∃ object, t.childByField? p "object" = some object ∧ t.kind object = .this := by
  unfold isOnThis
  cases t.childByField? p "object" <;> simp

theorem isOnOther_iff : t.IsOnOther p ↔
    (t.childByField? p "object").isSome ∧ t.isOnThis p = false := by
  unfold IsOnOther isOnThis
  cases t.childByField? p "object" <;> simp

theorem role_of_identifier (hk : t.kind u = .identifier) (hp : t.parent? u = some p) :
    t.role u = (t.localDeclaration? u p).elim (t.useRole u p) .declares := by
  simp only [role, hk, identifierRole, hp]
  cases t.localDeclaration? u p <;> rfl

theorem useRole_eq_ignored_iff (hk : t.kind u = .identifier) (hp : t.parent? u = some p) :
    t.useRole u p = .ignored ↔ t.IsForeign u := by
  constructor
  · intro h
    unfold useRole at h
    split at h
    case h_7 hkp =>
      split at h
      next hf => exact .key hk hp hkp (by simpa using hf)
      next => simp at h
    case h_8 | h_9 => split at h <;> simp at h
    case h_10 hkp =>
      split at h
      next => simp at h
      next hlater => exact .methodReference hk hp hkp (by simpa using hlater)
    case h_11 hkp =>
      split at h
      next hf =>
        split at h
        next => simp at h
        next hobject => exact .access hk hp hkp (by simpa using hf) hobject
      next => simp at h
    case h_12 hkp =>
      split at h
      next hf =>
        split at h
        next => simp at h
        next object hobject =>
          split at h
          next => simp at h
          next hthis =>
            exact .call hk hp hkp (by simpa using hf) (isOnOther_iff.mpr (by simp [hobject, hthis]))
      next => simp at h
    case h_13 => simp at h
    all_goals
      rename_i hkp
      exact .header hk hp (by rw [hkp]; rfl)
  · intro h
    have same {q : NodeId} (hq : t.parent? u = some q) : q = p := Option.some.inj (hq.symm.trans hp)
    cases h with
    | header _ parent above =>
      rw [same parent] at above
      cases hkp : t.kind p <;> simp [hkp, NodeKind.holdsForeignNames] at above <;>
        simp [useRole, hkp]
    | key _ parent above field =>
      rw [same parent] at above
      simp [useRole, above, field]
    | methodReference _ parent above later =>
      rw [same parent] at above later
      simp [useRole, above, later]
    | access _ parent above field object =>
      rw [same parent] at above object
      simp [useRole, above, field, object]
    | call _ parent above field object =>
      rw [same parent] at above object
      obtain ⟨hsome, hthis⟩ := isOnOther_iff.mp object
      obtain ⟨object, hobject⟩ := Option.isSome_iff_exists.mp hsome
      simp [useRole, above, field, hobject, hthis]
    | typePart kind => simp [hk] at kind

theorem IsForeign.localDeclaration?_eq_none (h : t.IsForeign u) (hk : t.kind u = .identifier)
    (hp : t.parent? u = some p) : t.localDeclaration? u p = none := by
  have same {q : NodeId} (hq : t.parent? u = some q) : q = p := Option.some.inj (hq.symm.trans hp)
  cases h with
  | header _ parent above =>
    rw [same parent] at above
    cases hkp : t.kind p <;> simp [hkp, NodeKind.holdsForeignNames] at above <;>
      simp [localDeclaration?, hkp]
  | key _ parent above | methodReference _ parent above | access _ parent above
  | call _ parent above =>
    rw [same parent] at above
    simp [localDeclaration?, above]
  | typePart kind => simp [hk] at kind

theorem typeIdentifierRole_eq (hk : t.kind u = .typeIdentifier) :
    (t.IsForeign u ∧ t.role u = .ignored) ∨
      (¬ t.IsForeign u ∧ t.role u = .uses (.lexical .type)) := by
  have hrole : t.role u = t.typeIdentifierRole u := by simp [role, hk]
  rw [hrole, typeIdentifierRole]
  cases hp : t.parent? u with
  | none =>
    refine Or.inr ⟨fun h => ?_, rfl⟩
    cases h <;> simp_all
  | some p =>
    by_cases hlater : t.kind p = .scopedTypeIdentifier ∧ (t.children p).head? ≠ some u
    · exact Or.inl ⟨.typePart hk hp hlater.1 hlater.2, by simp [hlater.1, hlater.2]⟩
    · refine Or.inr ⟨fun h => hlater ?_, ?_⟩
      · cases h with
        | typePart _ parent above later =>
          obtain rfl := Option.some.inj (hp.symm.trans parent)
          exact ⟨above, later⟩
        | header kind | key kind | methodReference kind | access kind | call kind =>
          simp [hk] at kind
      · simpa using hlater

/-- An identifier has no role of its own just where names do not count. -/
theorem role_eq_ignored_iff (hk : t.kind u = .identifier ∨ t.kind u = .typeIdentifier)
    (hp : t.parent? u = some p) : t.role u = .ignored ↔ t.IsForeign u := by
  rcases hk with hk | hk
  · rw [role_of_identifier hk hp, ← useRole_eq_ignored_iff hk hp]
    constructor
    · intro h
      cases hd : t.localDeclaration? u p with
      | none => simpa [hd] using h
      | some d => simp [hd] at h
    · intro h
      rw [((useRole_eq_ignored_iff hk hp).mp h).localDeclaration?_eq_none hk hp]
      exact h
  · rcases typeIdentifierRole_eq hk with ⟨hf, hr⟩ | ⟨hf, hr⟩
    · exact iff_of_true hr hf
    · exact iff_of_false (by simp [hr]) hf

theorem useRole_of_not_isSelector (h : ¬ t.IsSelector u p) (hn : t.useRole u p ≠ .ignored) :
    t.useRole u p = .uses .expression := by
  unfold useRole at hn ⊢
  split at hn <;> simp_all [IsSelector]

theorem refers_of_isSelector (hk : t.kind u = .identifier) (hp : t.parent? u = some p)
    (hs : t.IsSelector u p) (h : t.useRole u p = .uses target) : t.Refers u target := by
  rcases hs with ⟨ha | ha | ha, hf⟩ | ⟨ha, hf⟩
  · simp only [useRole, ha, hf, beq_self_eq_true, if_true, Role.uses.injEq] at h
    exact h ▸ .annotates hk hp (Or.inl ha) hf
  · simp only [useRole, ha, hf, beq_self_eq_true, if_true, Role.uses.injEq] at h
    exact h ▸ .annotates hk hp (Or.inr ha) hf
  · simp only [useRole, ha, hf, beq_self_eq_true, if_true] at h
    split at h
    next hobject => exact Role.uses.inj h ▸ .call hk hp ha hf hobject
    next =>
      split at h
      next hthis => exact Role.uses.inj h ▸ .ownCall hk hp ha hf hthis
      next => simp at h
  · simp only [useRole, ha, hf, beq_self_eq_true, if_true] at h
    split at h
    next hthis => exact Role.uses.inj h ▸ .ownField hk hp ha hf hthis
    next => simp at h

theorem refers_of_useRole (hk : t.kind u = .identifier) (hp : t.parent? u = some p)
    (hd : t.localDeclaration? u p = none) (h : t.useRole u p = .uses target) :
    t.Refers u target := by
  by_cases hs : t.IsSelector u p
  · exact refers_of_isSelector hk hp hs h
  · have hn : t.useRole u p ≠ .ignored := by simp [h]
    rw [useRole_of_not_isSelector hs hn] at h
    exact Role.uses.inj h ▸
      .expression hk hp hd (fun hf => hn ((useRole_eq_ignored_iff hk hp).mpr hf)) hs

theorem Refers.role_eq (h : t.Refers u target) : t.role u = .uses target := by
  cases h with
  | type kind native =>
    rcases typeIdentifierRole_eq kind with ⟨hf, -⟩ | ⟨-, hr⟩
    · exact absurd hf native
    · exact hr
  | annotates kind parent above field =>
    rcases above with ha | ha <;>
      simp [role_of_identifier kind parent, localDeclaration?, useRole, ha, field]
  | call kind parent above field object =>
    simp [role_of_identifier kind parent, localDeclaration?, useRole, above, field, object]
  | ownCall kind parent above field object =>
    obtain ⟨o, ho, -⟩ := isOnThis_iff.mp object
    simp [role_of_identifier kind parent, localDeclaration?, useRole, above, field, object, ho]
  | ownField kind parent above field object =>
    simp [role_of_identifier kind parent, localDeclaration?, useRole, above, field, object]
  | expression kind parent undeclared native plain =>
    rw [role_of_identifier kind parent, undeclared]
    exact useRole_of_not_isSelector plain fun hi =>
      native ((useRole_eq_ignored_iff kind parent).mp hi)

theorem role_eq_uses_iff : t.role u = .uses target ↔ t.Refers u target := by
  refine ⟨fun h => ?_, Refers.role_eq⟩
  by_cases hk : t.kind u = .identifier
  · obtain ⟨p, hp⟩ : ∃ p, t.parent? u = some p := by
      cases hp : t.parent? u with
      | none => simp [role, hk, identifierRole, hp] at h
      | some p => exact ⟨p, rfl⟩
    rw [role_of_identifier hk hp] at h
    cases hd : t.localDeclaration? u p with
    | some d => simp [hd] at h
    | none => exact refers_of_useRole hk hp hd (by simpa [hd] using h)
  · have hk' : t.kind u = .typeIdentifier := by
      unfold role at h
      split at h
      next hk' => exact absurd hk' hk
      next hk' => exact hk'
      next => simp at h
    rcases typeIdentifierRole_eq hk' with ⟨-, hr⟩ | ⟨hf, hr⟩
    · simp [hr] at h
    · exact Role.uses.inj (hr.symm.trans h) ▸ .type hk' hf

end Tree

end JavaRefactor
