import JavaRefactor.Proofs.RenameExact

/-! # Fresh names

A name that no symbol has and no unresolved use reads as is bound nowhere. None of the collision
checks finds anything then, and since the edits of a rename lie apart, the rename is accepted.
-/

namespace JavaRefactor

/-- The name stands for nothing in the file and nothing is missing under it. -/
structure Resolution.IsFresh (r : Resolution) (name : String) : Prop where
  symbols : ∀ s ∈ r.symbols, s.name ≠ name
  unresolved : ∀ use ∈ r.unresolved, use.name ≠ name

namespace Walk

variable {t : Tree} {w : Walk} {s : Symbol} {name : String} {space : Namespace}
  (h : Sound t w) (hf : w.IsFresh name)
include h hf

theorem boundIn?_of_isFresh (scope : ScopeId) : w.boundIn? scope space name = none := by
  rw [Option.eq_none_iff_forall_ne_some]
  intro id hb
  obtain ⟨other, hother, -, -, hname⟩ := h.boundIn? hb
  exact hf.symbols other (Array.mem_of_getElem? hother) hname

theorem boundAlong_of_isFresh (scopes : List ScopeId) : w.boundAlong scopes space name = [] := by
  rw [Resolution.boundAlong, List.filterMap_eq_nil_iff]
  intro scope _
  rw [boundIn?_of_isFresh h hf scope, Option.bind_none]

theorem lookup?_of_isFresh (scope : ScopeId) : w.toResolution.lookup? scope space name = none := by
  rw [Resolution.lookup?, List.findSome?_eq_none_iff]
  intro outer _
  exact boundIn?_of_isFresh h hf outer

omit h in
theorem symbolsNamed_of_isFresh : w.symbolsNamed space name = [] := by
  rw [Resolution.symbolsNamed, List.filter_eq_nil_iff]
  intro other hother
  simp [hf.symbols other (Array.mem_toList_iff.mp hother)]

theorem referenceCollision?_of_isFresh : w.referenceCollision? t s name = none := by
  rw [Resolution.referenceCollision?, List.findSome?_eq_none_iff]
  intro o _
  have hinner : w.innerCollision? s name o = none := by
    simp [Resolution.innerCollision?, boundAlong_of_isFresh h hf]
  have hvariable : w.variableCollision? t s name o = none := by
    simp [Resolution.variableCollision?, lookup?_of_isFresh h hf]
  rw [hinner, hvariable, Option.or_none]

theorem shadowingCollision?_of_isFresh : w.shadowingCollision? s name = none := by
  have houter : w.outerLocal? s name = none := by
    simp [Resolution.outerLocal?, boundAlong_of_isFresh h hf]
  have hinner : w.innerLocal? s name = none := by
    simp [Resolution.innerLocal?, symbolsNamed_of_isFresh hf]
  simp [Resolution.shadowingCollision?, houter, hinner]

theorem collision?_of_isFresh : w.collision? t s name = none := by
  have hdeclared : w.declaredCollision? s name = none := by
    rw [Resolution.declaredCollision?, boundIn?_of_isFresh h hf, Option.bind_none, Option.bind_none]
  have hexisting : w.existingUseCollision? t s name = none := by
    simp [Resolution.existingUseCollision?, symbolsNamed_of_isFresh hf]
  have hunresolved : w.unresolvedCollision? s name = none := by
    rw [Resolution.unresolvedCollision?, Option.map_eq_none_iff, List.find?_eq_none]
    intro use huse
    simp [hf.unresolved use huse]
  rw [Resolution.collision?, hdeclared, referenceCollision?_of_isFresh h hf,
    shadowingCollision?_of_isFresh h hf, hexisting, hunresolved]
  rfl

end Walk

/-- Every symbol can be given every fresh name that is valid for its kind. The plan is valid and
has one edit for each occurrence. -/
theorem Resolution.planRename_fresh (t : Tree) (ht : t.WellFormed) (r : Resolution)
    (hr : resolve t = .ok r) (s : Symbol) (hs : s ∈ r.symbols) (name : String)
    (hvalid : Identifier.validateFor s.kind name = .ok ()) (hfresh : r.IsFresh name) :
    ∃ p, r.planRename t s name = .ok p ∧ p.plan.valid ∧
      (p.plan.edits.map (·.span)).Perm ((r.occurrencesOf s.id).map (·.span)) := by
  obtain ⟨rfl, hsym⟩ := of_resolve_eq_ok ht.toIsProgram hr hs
  have htidy := Walk.tidy_upTo ht.toIsProgram (Nat.le_refl t.size)
  have hclear := Walk.collision?_of_isFresh (s := s) htidy.toSound hfresh
  refine ⟨_, planRename_eq_ok htidy ht hsym hvalid hclear, rfl, ?_⟩
  have hedits : ((Walk.upTo t t.size).renameEdits s name).map (·.span) =
      ((Walk.upTo t t.size).occurrencesOf s.id).map (·.span) := by
    rw [renameEdits, if_neg (hfresh.symbols s hs), List.map_map]
    rfl
  rw [← hedits]
  exact (sortBy_perm _ _).map _

theorem Resolution.planRename_fresh_sample :
    ∃ r p, resolve Sample.tree = .ok r ∧ Sample.classSymbol ∈ r.symbols ∧ r.IsFresh "Bar" ∧
      r.planRename Sample.tree Sample.classSymbol "Bar" = .ok p ∧ p.plan.edits.length = 3 := by
  obtain ⟨hsym, hvalid, -, hsymbols, huses, hcount⟩ := Sample.class_walked
  have hr := resolve_eq_ok Sample.tree_isProgram
  have hs := Array.mem_of_getElem? hsym
  have hfresh : (Walk.upTo Sample.tree Sample.tree.size).IsFresh "Bar" :=
    ⟨fun s hs => hsymbols s (Array.mem_toList_iff.mpr hs), huses⟩
  obtain ⟨p, hp, -, hperm⟩ := planRename_fresh Sample.tree Sample.tree_wellFormed _ hr
    Sample.classSymbol hs "Bar" hvalid hfresh
  refine ⟨_, p, hr, hs, hfresh, hp, ?_⟩
  have hlength := hperm.length_eq
  rwa [List.length_map, List.length_map, hcount] at hlength

end JavaRefactor
