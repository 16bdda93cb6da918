import JavaRefactor.Proofs.Consistent
import JavaRefactor.Proofs.Visibility

/-! # The order of bindings

The walk binds a use by what is bound when it comes to it. Afterwards only the places of names are
known, and offsets tell what a use can see. The two views agree: what was bound before a use is
visible at its offset, and a local variable that is visible there was bound before.
-/

namespace JavaRefactor

namespace Resolution

def Binds (r : Resolution) (scope : ScopeId) (id : SymbolId) : Prop :=
  ∃ b ∈ r.bindings.toList, b.scope = scope ∧ b.symbol = id

/-- The identifier is looked up in the scope: it refers to a symbol, or it is reported. -/
def UsedAt (r : Resolution) (u : NodeId) (scope : ScopeId) : Prop :=
  (∃ o ∈ r.occurrences.toList, o.kind = .reference ∧ o.node = u ∧ o.scope = scope) ∨
    ∃ x ∈ r.unresolved, x.node = u ∧ x.scope = scope

end Resolution

namespace Walk

variable {t : Tree} {w : Walk} {u k : Nat} {stack : List ScopeId} {target : Target} {s : Symbol}
  {scope : ScopeId} {space : Namespace} {name : String} {id : SymbolId}

theorem Paired.boundIn?_of_mem (h : Paired w) {b : Binding} (hb : b ∈ w.bindings.toList) :
    w.boundIn? b.scope b.space b.name = some b.symbol := by
  obtain ⟨before, after, hsplit⟩ := List.append_of_mem hb
  have hkeys := h.keys
  rw [hsplit, List.pairwise_append] at hkeys
  have hfind : w.bindings.toList.find? (fun b' => b'.scope == b.scope && b'.space == b.space &&
      b'.name == b.name) = some b := by
    rw [List.find?_eq_some_iff_append]
    refine ⟨by simp, before, after, hsplit, fun a ha => ?_⟩
    have hother := hkeys.2.2 a ha b List.mem_cons_self
    rw [Bool.not_eq_true', ← Bool.not_eq_true]
    simpa only [Bool.and_eq_true, beq_iff_eq, and_assoc] using hother
  rw [Resolution.boundIn?, ← Array.find?_toList, hfind, Option.map_some]

theorem binds_of_boundIn? (h : w.boundIn? scope space name = some id) : w.Binds scope id := by
  obtain ⟨b, hf, hid⟩ := Option.map_eq_some_iff.mp h
  have hkey := Array.find?_some hf
  simp only [Bool.and_eq_true, beq_iff_eq] at hkey
  exact ⟨b, Array.mem_toList_iff.mpr (Array.mem_of_find?_eq_some hf), hkey.1.1, hid⟩

theorem binds_iff (ht : t.IsProgram) (hk : k ≤ t.size) (hs : (upTo t k).symbols[s.id]? = some s) :
    (upTo t k).Binds scope s.id ↔ s.scope = scope ∧ (upTo t k).boundAs? s = some s.id := by
  constructor
  · rintro ⟨b, hb, rfl, hid⟩
    obtain ⟨s', hs', hscope, hspace, hname⟩ := (sound_upTo ht hk).bound b hb
    rw [hid, hs] at hs'
    obtain rfl := Option.some.inj hs'
    refine ⟨hscope, ?_⟩
    rw [Resolution.boundAs?, hscope, hspace, hname, ← hid]
    exact (paired_upTo ht hk).boundIn?_of_mem hb
  · rintro ⟨rfl, hbound⟩
    exact binds_of_boundIn? hbound

theorem knownAt_of_binds (ht : t.IsProgram) (hk : k ≤ t.size)
    (hs : (upTo t t.size).symbols[s.id]? = some s) (hb : (upTo t k).Binds scope s.id) :
    KnownAt t s k := by
  obtain ⟨b, hb, -, hid⟩ := hb
  obtain ⟨s', hs', -⟩ := (sound_upTo ht hk).bound b hb
  rw [hid] at hs'
  have hlast := getElem?_mono (upTo_extends ht hk (Nat.le_refl _)).symbols hs'
  obtain rfl := Option.some.inj (hlast.symm.trans hs)
  exact hs'

theorem usedAt_iff (ht : t.IsProgram) : (upTo t t.size).UsedAt u scope ↔
    ∃ stack target, UseAt t u stack target ∧ current stack = scope := by
  have hk := Nat.le_refl t.size
  constructor
  · rintro (⟨o, ho, hkind, rfl, rfl⟩ | ⟨x, hx, rfl, rfl⟩)
    · obtain ⟨-, stack, target, hu, -, ho⟩ := (mem_references_iff ht hk hkind).mp ho
      exact ⟨stack, target, hu, by rw [ho]; rfl⟩
    · obtain ⟨-, stack, target, hu, -, hx⟩ := (mem_unresolved_iff ht hk).mp hx
      exact ⟨stack, target, hu, by rw [hx]; rfl⟩
  · rintro ⟨stack, target, hu, rfl⟩
    cases hf : (upTo t u).find? stack (t.text u) target with
    | some id =>
      exact Or.inl ⟨referenceAt t u stack id,
        (mem_references_iff ht hk rfl).mpr ⟨hu.lt, stack, target, hu, hf, rfl⟩, rfl, rfl, rfl⟩
    | none =>
      exact Or.inr ⟨unresolvedAt t u stack target,
        (mem_unresolved_iff ht hk).mpr ⟨hu.lt, stack, target, hu, hf, rfl⟩, rfl, rfl⟩

theorem UseAt.entry_of_visibleAt (hu : UseAt t u stack target) (ht : t.Separated)
    (hs : (upTo t t.size).symbols[s.id]? = some s) (hlocal : s.kind = .localVariable)
    (hv : (upTo t t.size).visibleAt s (t.span u).start) :
    ∃ x, t.text x = s.name ∧
      (⟨s.scope, s.kind, x⟩ : OutlineEntry) ∈ (Outline.upTo t u).entries := by
  have hk := Nat.le_refl t.size
  have hsound := sound_upTo ht.toIsProgram hk
  have hknown : KnownAt t s t.size := hs
  obtain ⟨x, hx, hfirst⟩ := hknown.entry ht.toIsProgram hk
  have hocc := (first?_eq_some hfirst).1
  have hentry := hknown.mem_entries ht.toIsProgram hk hx
  have hisLocal : s.kind.isLocal := by simp [hlocal, SymbolKind.isLocal]
  obtain ⟨-, ⟨d, hrole⟩, -⟩ := Outline.added_of_isLocal hentry hisLocal
  have hname : t.IsName x := ((tidy_upTo ht.toIsProgram hk).traced _ hocc).isName
  have hstart : (t.span x).start ≤ (t.span u).start := by
    rw [Resolution.visibleAt, hsound.declarationSpan_eq hx] at hv
    simpa [hlocal] using hv
  -- the name declares and the use does not, so they are two
  have hne : x ≠ u := by
    rintro rfl
    simp [hu.role] at hrole
  have hlt : x < u := by
    apply Nat.lt_of_le_of_ne _ hne
    apply Nat.le_of_not_lt
    intro hafter
    exact Nat.not_lt.mpr hstart ((ht.start_lt_iff hu.isName hname).mpr hafter)
  refine ⟨x, ?_, Outline.mem_entries_of_isLocal hentry hisLocal hlt⟩
  exact hsound.text_of_symbol hs hocc rfl

/-- A local variable that is visible at a use was bound when the walk came to the use. -/
theorem UseAt.binds_of_visibleAt (hu : UseAt t u stack target) (ht : t.Separated)
    (hs : (upTo t t.size).symbols[s.id]? = some s) (hb : (upTo t t.size).Binds scope s.id)
    (hlocal : s.kind = .localVariable) (hv : (upTo t t.size).visibleAt s (t.span u).start) :
    (upTo t u).Binds scope s.id := by
  have hle := Nat.le_of_lt hu.lt
  obtain ⟨rfl, hlast⟩ := (binds_iff ht.toIsProgram (Nat.le_refl _) hs).mp hb
  obtain ⟨x, htext, hentry⟩ := hu.entry_of_visibleAt ht hs hlocal hv
  have hne : (Outline.upTo t u).bound? t s.scope s.kind.space s.name ≠ none :=
    fun hnone => Outline.bound?_eq_none_iff.mp hnone _ hentry rfl rfl htext
  obtain ⟨id, hid⟩ := exists_boundIn? ht.toIsProgram hle hne
  -- the key goes on to stand for the same symbol
  obtain rfl := Option.some.inj ((boundIn?_mono ht.toIsProgram hle hid).symm.trans hlast)
  exact binds_of_boundIn? hid

end Walk

/-- Of a symbol that is bound around a use, the offsets tell what the resolver had bound when it
came to the use: what was bound then is visible, and a local variable is visible only if it was. -/
theorem visibility_agrees {t : Tree} (ht : t.Separated) :
    ∃ r, resolve t = .ok r ∧ ∀ u scope, r.UsedAt u scope → (∃ m, Resolver.Enters t u m) ∧
      ∀ m, Resolver.Enters t u m →
        ∀ home ∈ r.chain scope, ∀ b ∈ r.symbols, r.Binds home b.id →
          (m.walk.Binds home b.id → r.visibleAt b (t.span u).start) ∧
          (b.kind = .localVariable → r.visibleAt b (t.span u).start →
            m.walk.Binds home b.id) := by
  refine ⟨_, resolve_eq_ok ht.toIsProgram, fun u scope hused => ?_⟩
  obtain ⟨stack, target, hu, -⟩ := (Walk.usedAt_iff ht.toIsProgram).mp hused
  refine ⟨Resolver.exists_enters ht.toIsProgram hu.lt (by simp [hu.reached]), ?_⟩
  rintro m hm home - b hb hbinds
  rw [(hm.eq ht.toIsProgram).1]
  have hs := (Walk.sound_upTo ht.toIsProgram (Nat.le_refl t.size)).getElem?_id
    (Array.mem_toList_iff.mpr hb)
  constructor
  · intro hbefore
    have hknown := Walk.knownAt_of_binds ht.toIsProgram (Nat.le_of_lt hu.lt) hs hbefore
    exact hknown.visibleAt ht hu.lt
  · exact hu.binds_of_visibleAt ht hs hbinds

/-- In the sample the local variable is bound, and so visible, where the class stands as an
expression. It is not bound, and so not visible, in the type of its own declaration. -/
theorem visibility_agrees_sample : Sample.tree.Separated ∧ ∃ r, resolve Sample.tree = .ok r ∧
    r.visibleAt Sample.localSymbol 37 ∧ ¬ r.visibleAt Sample.localSymbol 30 := by
  have hsep := Sample.tree_wellFormed.toSeparated
  obtain ⟨hocc, hsym, hbind, hchain, ⟨hspan₁, hearly⟩, ⟨hspan₂, hlate⟩⟩ := Sample.tree_recorded
  obtain ⟨r, hr, hall⟩ := visibility_agrees hsep
  obtain rfl := Except.ok.inj ((resolve_eq_ok Sample.tree_isProgram).symm.trans hr)
  have hbinds : (Walk.upTo Sample.tree Sample.tree.size).Binds 2 Sample.localSymbol.id :=
    ⟨⟨2, .var, "x", 3⟩, by simp [hbind], rfl, rfl⟩
  have hat (u : NodeId) (hu : u = 21 ∨ u = 27) :
      (Walk.upTo Sample.tree u).Binds 2 Sample.localSymbol.id ↔
        (Walk.upTo Sample.tree Sample.tree.size).visibleAt Sample.localSymbol
          (Sample.tree.span u).start := by
    obtain ⟨⟨m, hm⟩, hmoment⟩ := hall u 2 <| by
      rcases hu with rfl | rfl <;> exact Or.inl (by simp [hocc])
    obtain ⟨hvisible, hbound⟩ :=
      hmoment m hm 2 (by simp [hchain]) Sample.localSymbol (by simp [hsym]) hbinds
    rw [← (hm.eq Sample.tree_isProgram).1]
    exact ⟨hvisible, hbound rfl⟩
  have hat₁ := hat 21 (Or.inl rfl)
  have hat₂ := hat 27 (Or.inr rfl)
  rw [hspan₁] at hat₁
  rw [hspan₂] at hat₂
  have hbefore : ¬ (Walk.upTo Sample.tree 21).Binds 2 Sample.localSymbol.id := by
    rw [Resolution.Binds, hearly]
    simp
  have hafter : (Walk.upTo Sample.tree 27).Binds 2 Sample.localSymbol.id := by
    rw [Resolution.Binds, hlate]
    exact hbinds
  exact ⟨hsep, _, hr, hat₂.mp hafter, fun hv => hbefore (hat₁.mpr hv)⟩

end JavaRefactor
