import JavaRefactor.Proofs.Visibility

/-! # What the collision checks rule out

A new name that passes the collision checks is declared neither in the scope of the symbol nor
between the symbol and its references, and where the name is used already the symbol cannot be
seen.
-/

namespace JavaRefactor

open Walk

variable {t : Tree} {s : Symbol} {name : String}

/-- What a new name for a symbol must not meet. -/
structure Clear (t : Tree) (s : Symbol) (name : String) : Prop where
  declared : (Outline.upTo t t.size).bound? t s.scope s.kind.space name = none
  inner : ∀ {u : Nat} {stack : List ScopeId} {target : Target}, UseAt t u stack target →
    (∀ space, target ≠ .member space) → (upTo t u).find? stack (t.text u) target = some s.id →
    ∀ c ∈ stack.takeWhile (· != s.scope),
      (Outline.upTo t u).bound? t c s.kind.space name = none
  around : ∀ {u : Nat} {stack : List ScopeId}, UseAt t u stack .expression → s.kind = .type →
    (upTo t u).find? stack (t.text u) .expression = some s.id →
    ∀ c ∈ stack, (Outline.upTo t u).bound? t c .var name = none
  existing : ∀ {u : Nat} {stack pre post : List ScopeId} {target : Target} {o : Symbol},
    UseAt t u stack target → (∀ space, target ≠ .member space) → t.text u = name →
    (upTo t u).find? stack (t.text u) target = some o.id → KnownAt t o u →
    o.kind.space = s.kind.space → o.id ≠ s.id → o.scope ≠ s.scope →
    stack = pre ++ s.scope :: post → o.scope ∈ post → ¬ KnownAt t s u
  unresolved : ∀ {u : Nat} {stack : List ScopeId} {target : Target}, UseAt t u stack target →
    t.text u = name → (upTo t u).find? stack (t.text u) target = none →
    target.space = s.kind.space ∨ s.kind = .type ∧ target = .expression →
    s.scope ∈ stack → ¬ KnownAt t s u

namespace Clear

variable {u : Nat} {stack : List ScopeId} {target : Target} {id : SymbolId}

theorem mem_occurrencesOf_of_find? (hu : UseAt t u stack target) (ht : t.IsProgram)
    (hf : (upTo t u).find? stack (t.text u) target = some id) :
    referenceAt t u stack id ∈ (upTo t t.size).occurrencesOf id := by
  refine (perm_occurrencesOf _ _).mem_iff.mpr (List.mem_filter.mpr ⟨?_, by simp [referenceAt]⟩)
  exact (mem_references_iff ht (Nat.le_refl _) rfl).mpr ⟨hu.lt, stack, target, hu, hf, rfl⟩

theorem isLexicalReference_referenceAt (hu : UseAt t u stack target) (ht : t.WellFormed)
    (hg : t.Grammatical) (hmember : ∀ space, target ≠ .member space) :
    Resolution.isLexicalReference t (referenceAt t u stack id) = true := by
  simp [Resolution.isLexicalReference, referenceAt, hu.isThisQualified_eq ht hg hmember]

theorem isExpressionName_of_role (hu : UseAt t u stack .expression) (ht : t.WellFormed) :
    t.isExpressionName (t.span u) = true := by
  have hrole := hu.role
  rw [Tree.isExpressionName, ht.nodeAt_start hu.isName, beq_iff_eq]
  unfold Tree.role at hrole
  split at hrole
  next hk => exact hk
  next =>
    unfold Tree.typeIdentifierRole at hrole
    split at hrole
    · simp at hrole
    · split at hrole <;> simp at hrole
  next => simp at hrole

theorem bound?_of_declaredCollision? (ht : t.IsProgram) (hne : s.name ≠ name)
    (hs : (upTo t t.size).symbols[s.id]? = some s)
    (h : (upTo t t.size).declaredCollision? s name = none) :
    (Outline.upTo t t.size).bound? t s.scope s.kind.space name = none := by
  have hsound := sound_upTo ht (Nat.le_refl t.size)
  have hagree := keyed_upTo ht (Nat.le_refl t.size) s.scope s.kind.space name
  rw [outline_upTo ht (Nat.le_refl _)] at hagree
  cases hb : (upTo t t.size).boundIn? s.scope s.kind.space name with
  | none => exact agrees_none_iff.mp (hb ▸ hagree)
  | some id =>
    obtain ⟨b, hsym, -, -, hname⟩ := hsound.boundIn? hb
    obtain rfl := hsound.ids id b hsym
    have hid : b.id ≠ s.id := by
      intro he
      rw [he, hs] at hsym
      exact hne (Option.some.inj hsym ▸ hname)
    simp [Resolution.declaredCollision?, hb, hsym, hid] at h

theorem of_referenceCollision? (hu : UseAt t u stack target) (ht : t.WellFormed)
    (hg : t.Grammatical) (hmember : ∀ space, target ≠ .member space)
    (hf : (upTo t u).find? stack (t.text u) target = some s.id)
    (h : (upTo t t.size).referenceCollision? t s name = none) :
    (upTo t t.size).innerCollision? s name (referenceAt t u stack s.id) = none ∧
      (upTo t t.size).variableCollision? t s name (referenceAt t u stack s.id) = none := by
  rw [Resolution.referenceCollision?, List.findSome?_eq_none_iff] at h
  refine Option.or_eq_none_iff.mp (h _ (List.mem_filter.mpr ⟨?_, ?_⟩))
  · exact mem_occurrencesOf_of_find? hu ht.toIsProgram hf
  · exact isLexicalReference_referenceAt hu ht hg hmember

theorem bound?_of_innerCollision? (hu : UseAt t u stack target) (ht : t.WellFormed)
    (h : (upTo t t.size).innerCollision? s name (referenceAt t u stack id) = none) :
    ∀ c ∈ stack.takeWhile (· != s.scope),
      (Outline.upTo t u).bound? t c s.kind.space name = none := by
  intro c hc
  by_contra hb
  obtain ⟨b, hbound, hsym, hvisible⟩ := hu.exists_symbol ht hb
  simp only [Resolution.innerCollision?, referenceAt, hu.chain_current ht.toIsProgram,
    Option.map_eq_none_iff, List.find?_eq_none] at h
  refine h b (List.mem_filterMap.mpr ⟨c, hc, ?_⟩) hvisible
  rw [hbound, Option.bind_some, hsym]

theorem bound?_of_variableCollision? (hu : UseAt t u stack .expression) (ht : t.WellFormed)
    (hkind : s.kind = .type)
    (h : (upTo t t.size).variableCollision? t s name (referenceAt t u stack id) = none) :
    ∀ c ∈ stack, (Outline.upTo t u).bound? t c .var name = none := by
  intro c hc
  by_contra hb
  obtain ⟨b, hbound, -, -⟩ := hu.exists_symbol ht hb
  have hexpr : t.isExpressionName (referenceAt t u stack id).span = true :=
    isExpressionName_of_role hu ht
  rw [Resolution.variableCollision?, if_pos (by simp [hkind, hexpr]), Option.map_eq_none_iff,
    Resolution.lookup?, referenceAt, hu.chain_current ht.toIsProgram,
    List.findSome?_eq_none_iff] at h
  simp [h c hc] at hbound

/-- Where the name is bound to something further out, the symbol is not known. -/
theorem not_knownAt_of_existingUse (hu : UseAt t u stack target) (ht : t.WellFormed)
    (hg : t.Grammatical) (hmember : ∀ space, target ≠ .member space) {o : Symbol}
    {pre post : List ScopeId} (htext : t.text u = name)
    (hf : (upTo t u).find? stack (t.text u) target = some o.id) (ho : KnownAt t o u)
    (hspace : o.kind.space = s.kind.space) (hid : o.id ≠ s.id) (hscope : o.scope ≠ s.scope)
    (hstack : stack = pre ++ s.scope :: post) (hpost : o.scope ∈ post)
    (h : (upTo t t.size).existingUseCollision? t s name = none) : ¬ KnownAt t s u := by
  intro hknown
  have hle := Nat.le_of_lt hu.lt
  have hsym := getElem?_mono (upTo_extends ht.toIsProgram hle (Nat.le_refl _)).symbols ho
  have hname : o.name = name := by
    obtain ⟨o', ho', hname⟩ := (sound_upTo ht.toIsProgram hle).find? hf
    rw [ho] at ho'
    rw [Option.some.inj ho', hname, htext]
  have hchain : (upTo t t.size).chain s.scope = s.scope :: post :=
    Linked.chain _ (hstack ▸ (hu.linked ht.toIsProgram).2)
  have hother : o ∈ ((upTo t t.size).symbolsNamed s.kind.space name).filter fun other =>
      other.id != s.id && other.scope != s.scope &&
        (upTo t t.size).encloses other.scope s.scope := by
    refine List.mem_filter.mpr ⟨List.mem_filter.mpr ⟨?_, by simp [hname, hspace]⟩, ?_⟩
    · exact Array.mem_toList_iff.mpr (Array.mem_of_getElem? hsym)
    · simp [hid, hscope, Resolution.encloses, hchain, hpost]
  simp only [Resolution.existingUseCollision?, List.findSome?_eq_none_iff, Option.map_eq_none_iff,
    List.find?_eq_none] at h
  refine h o hother _ (mem_occurrencesOf_of_find? hu ht.toIsProgram hf) ?_
  have hencloses : (upTo t t.size).encloses s.scope (current stack) = true :=
    (hu.encloses_iff ht.toIsProgram).mpr (by simp [hstack])
  rw [isLexicalReference_referenceAt hu ht hg hmember, Bool.true_and]
  simp [Resolution.captures, referenceAt, hencloses, hknown.visibleAt ht.toSeparated hu.lt]

theorem not_knownAt_of_unresolvedCollision? (hu : UseAt t u stack target) (ht : t.WellFormed)
    (htext : t.text u = name) (hf : (upTo t u).find? stack (t.text u) target = none)
    (hspace : target.space = s.kind.space ∨ s.kind = .type ∧ target = .expression)
    (hscope : s.scope ∈ stack) (h : (upTo t t.size).unresolvedCollision? s name = none) :
    ¬ KnownAt t s u := by
  intro hknown
  have hmem : unresolvedAt t u stack target ∈ (upTo t t.size).unresolved :=
    (mem_unresolved_iff ht.toIsProgram (Nat.le_refl _)).mpr ⟨hu.lt, stack, target, hu, hf, rfl⟩
  have hencloses := (hu.encloses_iff ht.toIsProgram).mpr hscope
  simp only [Resolution.unresolvedCollision?, Option.map_eq_none_iff, List.find?_eq_none] at h
  refine h _ hmem ?_
  simp only [unresolvedAt, htext, Resolution.captures, hencloses,
    hknown.visibleAt ht.toSeparated hu.lt, beq_self_eq_true, Bool.true_and, Bool.and_true,
    Bool.or_eq_true, beq_iff_eq, Bool.and_eq_true]
  exact hspace

end Clear

theorem clear_of_collision? (ht : t.WellFormed) (hg : t.Grammatical) (hne : s.name ≠ name)
    (hs : (upTo t t.size).symbols[s.id]? = some s)
    (h : (upTo t t.size).collision? t s name = none) : Clear t s name := by
  simp only [Resolution.collision?, Option.or_eq_none_iff] at h
  obtain ⟨⟨⟨hdeclared, hreference⟩, -⟩, hexisting, hunresolved⟩ := h
  refine ⟨Clear.bound?_of_declaredCollision? ht.toIsProgram hne hs hdeclared, ?_, ?_, ?_, ?_⟩
  · intro u stack target hu hmember hf
    exact Clear.bound?_of_innerCollision? hu ht
      (Clear.of_referenceCollision? hu ht hg hmember hf hreference).1
  · intro u stack hu hkind hf
    exact Clear.bound?_of_variableCollision? hu ht hkind
      (Clear.of_referenceCollision? hu ht hg (by simp) hf hreference).2
  · intro u stack pre post target o hu hmember htext hf ho hspace hid hscope hstack hpost
    exact Clear.not_knownAt_of_existingUse hu ht hg hmember htext hf ho hspace hid hscope hstack
      hpost hexisting
  · intro u stack target hu htext hf hspace hscope
    exact Clear.not_knownAt_of_unresolvedCollision? hu ht htext hf hspace hscope hunresolved

end JavaRefactor
