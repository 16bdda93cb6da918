import JavaRefactor.Proofs.Consistent
import JavaRefactor.Proofs.ConstructorNames

/-! # Renaming keeps a program legal

A legal program declares no name twice in one scope, and no local variable hides another one of
the same body. A renamed tree has the same symbols but for methods, in the same scopes and in the
same order, so the two could only clash under the new name. The checks of a rename exclude that: the
scope of the symbol binds the new name to nothing else, and there is no other local of this name
around it or within its scope.
-/

namespace JavaRefactor

namespace Resolution

/-- The local `outer` can be seen where the local `inner` is declared, further inside in the same
body. A parameter can be seen in its whole scope, a variable from its declaration on. -/
structure Sees (r : Resolution) (inner outer : Symbol) : Prop where
  mem : inner ∈ r.symbols ∧ outer ∈ r.symbols
  isLocal : inner.kind.isLocal ∧ outer.kind.isLocal
  inside : inner.scope ≠ outer.scope ∧ outer.scope ∈ r.chain inner.scope
  body : ∀ c ∈ (r.chain inner.scope).takeWhile (· != outer.scope) ++ [outer.scope],
    r.scopeKind? c ≠ some .type
  visible : outer.kind = .parameter ∨
    ∃ x y, r.nameNode? outer.id = some x ∧ r.nameNode? inner.id = some y ∧ x < y

structure Shadows (r : Resolution) (inner outer : Symbol) : Prop extends r.Sees inner outer where
  name : inner.name = outer.name

/-- No name is declared twice in a scope, and no local hides another one. -/
structure Legal (r : Resolution) : Prop where
  distinct : r.pairs = []
  apart : ∀ inner outer, ¬ r.Shadows inner outer

end Resolution

namespace Walk

variable {t t' : Tree} {w w' : Walk} {i k : Nat} {stack : List ScopeId} {d : Declaration}
  {s : Symbol}

/-! ### One declaration for each symbol -/

/-- Only methods are declared more than once under one symbol, and what is paired with an earlier
symbol is no method. -/
structure DeclaredOnce (w : Walk) : Prop where
  once : w.occurrences.toList.Pairwise fun o o' => o.kind = .declaration →
    o'.kind = .declaration → o.symbol = o'.symbol →
      ∃ s, w.symbols[o.symbol]? = some s ∧ s.kind = .method
  later : ∀ p ∈ w.pairs, p.2 < p.1 ∧ ∃ s, w.symbols[p.1]? = some s ∧ s.kind ≠ .method

namespace DeclaredOnce

theorem congr (h : DeclaredOnce w) (hsym : w'.symbols = w.symbols)
    (hocc : w'.occurrences = w.occurrences) (hpairs : w'.pairs = w.pairs) : DeclaredOnce w' :=
  ⟨hsym ▸ hocc ▸ h.once, hsym ▸ hpairs ▸ h.later⟩

theorem records (h : DeclaredOnce w) {o : Occurrence} (hr : Records t i w o) :
    DeclaredOnce (w.recorded o) := by
  refine ⟨?_, h.later⟩
  have hkind : o.kind ≠ .declaration := by
    cases hr <;> simp
  rw [recorded, addOccurrence, Array.toList_push, List.pairwise_append]
  refine ⟨h.once, List.pairwise_singleton _ _, ?_⟩
  rintro a - b hb - hdecl
  rw [List.mem_singleton] at hb
  exact absurd (hb ▸ hdecl) hkind

theorem grow (h : DeclaredOnce w) (hs : Sound t w) {new : Symbol}
    (hsym : w'.symbols = w.symbols.push new)
    (hocc : w'.occurrences = w.occurrences.push (declaredAs t stack d w.symbols.size))
    (hlater : ∀ p ∈ w'.pairs, p.2 < p.1 ∧ ∃ s, w'.symbols[p.1]? = some s ∧ s.kind ≠ .method) :
    DeclaredOnce w' := by
  refine ⟨?_, hlater⟩
  have hmono {id : SymbolId} {s : Symbol} (h : w.symbols[id]? = some s) :
      w'.symbols[id]? = some s := getElem?_mono (by simp [hsym]) h
  rw [hocc, Array.toList_push, List.pairwise_append]
  refine ⟨?_, List.pairwise_singleton _ _, ?_⟩
  · refine h.once.imp ?_
    intro o o' ho hdecl hdecl' hsame
    obtain ⟨s, hs, hkind⟩ := ho hdecl hdecl' hsame
    exact ⟨s, hmono hs, hkind⟩
  · rintro o ho o' ho' - - hsame
    obtain ⟨s, hsym, -⟩ := hs.occurs o ho
    rw [List.mem_singleton.mp ho'] at hsame
    rw [hsame] at hsym
    simp [declaredAs] at hsym

theorem declared (h : DeclaredOnce w) (hs : Sound t w) (hd : Declared t stack w d w') :
    DeclaredOnce w' := by
  cases hd with
  | @overload id home kind found =>
    obtain ⟨s, hsym, -, hspace, -⟩ := hs.boundIn? found
    have hmethod : s.kind = .method := by
      rw [kind] at hspace
      cases hk : s.kind <;> simp [hk, SymbolKind.space] at hspace ⊢
    refine ⟨?_, h.later⟩
    rw [Array.toList_push, List.pairwise_append]
    refine ⟨h.once, List.pairwise_singleton _ _, ?_⟩
    rintro o - o' ho' - - hsame
    rw [List.mem_singleton.mp ho'] at hsame
    exact ⟨s, hsame ▸ hsym, hmethod⟩
  | @duplicate first home kind found =>
    obtain ⟨s, hsym, -⟩ := hs.boundIn? found
    have hlt := (Array.getElem?_eq_some_iff.mp hsym).1
    refine h.grow hs rfl rfl ?_
    simp only [Resolution.pairs, Array.toList_push, List.filterMap_append, List.mem_append]
    rintro p (hp | hp)
    · obtain ⟨hp, s, hs, hkind⟩ := h.later p hp
      exact ⟨hp, s, getElem?_mono (by simp) hs, hkind⟩
    · obtain rfl : p = (w.symbols.size, first) := by simpa [Finding.pair?] using hp
      exact ⟨hlt, _, Array.getElem?_push_size, kind⟩
  | fresh home found =>
    refine h.grow hs rfl rfl ?_
    intro p hp
    obtain ⟨hp, s, hs, hkind⟩ := h.later p hp
    exact ⟨hp, s, getElem?_mono (by simp) hs, hkind⟩

end DeclaredOnce

theorem declaredOnce_upTo (ht : t.IsProgram) (hk : k ≤ t.size) : DeclaredOnce (upTo t k) := by
  refine upTo_preserves ht hk ?_ (fun _ _ _ _ _ h => h.congr rfl rfl rfl) (fun _ _ h => ?_)
    (fun hs _ hd h => h.declared hs hd) (fun _ hr h => h.records hr)
  · constructor <;> simp [Resolution.pairs]
  · exact h.congr rfl rfl (by simp [Resolution.pairs, Finding.pair?])

theorem nameNode?_of_declaration (ht : t.IsProgram) {o : Occurrence}
    (ho : o ∈ (upTo t t.size).occurrences.toList) (hdecl : o.kind = .declaration)
    (hs : (upTo t t.size).symbols[o.symbol]? = some s) (hk : s.kind ≠ .method) :
    (upTo t t.size).nameNode? o.symbol = some o.node := by
  have hsound := sound_upTo ht (Nat.le_refl t.size)
  obtain ⟨first, hfirst, hdecl'⟩ := hsound.named o.symbol (Array.getElem?_eq_some_iff.mp hs).1
  obtain ⟨hmem, hid⟩ := first?_eq_some hfirst
  obtain rfl : first = o := by
    by_contra hne
    have hsymm : Std.Symm fun o o' : Occurrence => o.kind = .declaration →
        o'.kind = .declaration → o.symbol = o'.symbol →
          ∃ s, (upTo t t.size).symbols[o.symbol]? = some s ∧ s.kind = .method :=
      ⟨fun a b h hb ha he => he ▸ h ha hb he.symm⟩
    obtain ⟨s', hs', hmethod⟩ :=
      (declaredOnce_upTo ht (Nat.le_refl _)).once.forall hmem ho hne hdecl' hdecl hid
    rw [hid, hs] at hs'
    exact hk (Option.some.inj hs' ▸ hmethod)
  rw [Resolution.nameNode?, hfirst]
  rfl

theorem boundIn?_of_pairs_eq_nil (ht : t.IsProgram) (h : (upTo t t.size).pairs = [])
    (hs : (upTo t t.size).symbols[s.id]? = some s) :
    (upTo t t.size).boundIn? s.scope s.kind.space s.name = some s.id := by
  have hmem : s ∈ (upTo t t.size).symbols.toList :=
    Array.mem_toList_iff.mpr (Array.mem_of_getElem? hs)
  obtain ⟨first, hbound, rfl | ⟨-, hpair⟩⟩ :=
    (paired_upTo ht (Nat.le_refl _)).bound s hmem
  · exact hbound
  · simp [h] at hpair

/-! ### Scopes of trees of one shape -/

theorem reached?_of_sameShape (h : t.SameShape t') (ht : t.IsProgram) (hk : k ≤ t.size) :
    (upTo t' k).reached? t' i = (upTo t k).reached? t i := by
  rw [← reached?_outline ht hk, ← reached?_outline (h.isProgram ht) (h.size ▸ hk)]
  exact (Outline.alike_upTo h ht.toInPreorder k).reached?_eq h

theorem map_node_of_sameShape (h : t.SameShape t') (ht : t.IsProgram) :
    (upTo t' t'.size).scopes.toList.map (·.node) = (upTo t t.size).scopes.toList.map (·.node) := by
  rw [map_node_upTo (h.isProgram ht) (Nat.le_refl _), map_node_upTo ht (Nat.le_refl _), h.size]
  apply List.filter_congr
  intro i _
  rw [h.opens?, decide_eq_decide.mpr h.isReached_iff]

theorem scopesAround_of_sameShape (h : t.SameShape t') (ht : t.IsProgram) (hi : t.IsReached i) :
    (upTo t' t'.size).scopesAround t' i = (upTo t t.size).scopesAround t i := by
  have hle := Nat.le_of_lt hi.1
  have hr := reached?_eq_scopesAround ht hi hle (Nat.le_refl _)
  have hr' := reached?_eq_scopesAround (h.isProgram ht) (h.isReached_iff.mpr hi)
    (h.size ▸ hle) (Nat.le_refl _)
  rw [reached?_of_sameShape h ht hle, hr] at hr'
  exact (Option.some.inj hr').symm

theorem scope_of_sameShape (h : t.SameShape t') (ht : t.IsProgram) (c : ScopeId) :
    (upTo t' t'.size).parent? c = (upTo t t.size).parent? c ∧
      (upTo t' t'.size).scopeKind? c = (upTo t t.size).scopeKind? c := by
  have hget := congrArg (fun l : List NodeId => l[c]?) (map_node_of_sameShape h ht)
  simp only [List.getElem?_map, Array.getElem?_toList] at hget
  unfold Resolution.parent? Resolution.scopeKind?
  cases hs : (upTo t t.size).scopes[c]? with
  | none =>
    rw [hs, Option.map_none, Option.map_eq_none_iff] at hget
    rw [hget]
    exact ⟨rfl, rfl⟩
  | some s =>
    rw [hs, Option.map_some] at hget
    obtain ⟨s', hs', hnode⟩ := Option.map_eq_some_iff.mp hget
    obtain ⟨hreached, hopens, -, hparent, -⟩ := scope_of_node ht hs
    obtain ⟨-, hopens', -, hparent', -⟩ := scope_of_node (h.isProgram ht) hs'
    have hkind : s'.kind = s.kind := by
      rw [hnode, h.opens?, hopens] at hopens'
      exact (Option.some.inj hopens').symm
    rw [hnode, Resolution.scopeAround?_eq_head?, scopesAround_of_sameShape h ht hreached,
      ← Resolution.scopeAround?_eq_head?, ← hparent] at hparent'
    rw [hs']
    exact ⟨hparent', congrArg some hkind⟩

theorem chain_of_sameShape (h : t.SameShape t') (ht : t.IsProgram) (c : ScopeId) :
    (upTo t' t'.size).chain c = (upTo t t.size).chain c := by
  induction c using Nat.strongRecOn with
  | ind c ih =>
    rw [Resolution.chain, (scope_of_sameShape h ht c).1, Resolution.chain]
    split
    · rfl
    next p _ =>
      split
      next hlt => rw [ih p hlt]
      next => rfl

end Walk

/-! ### Symbols of trees of one shape -/

open Walk

/-- The symbol `u'` of the tree `t'` is declared where the symbol `u` of the tree `t` is. -/
structure Counterpart (t t' : Tree) (u u' : Symbol) : Prop where
  symbol : (upTo t t.size).symbols[u.id]? = some u
  scope : u'.scope = u.scope
  kind : u'.kind = u.kind
  nameNode : ∃ x, (upTo t t.size).nameNode? u.id = some x ∧
    (upTo t' t'.size).nameNode? u'.id = some x ∧ t.text x = u.name ∧ t'.text x = u'.name

theorem exists_counterpart {t t' : Tree} (h : t.SameShape t') (ht : t.IsProgram) {u' : Symbol}
    (hu' : (upTo t' t'.size).symbols[u'.id]? = some u') (hk : u'.kind ≠ .method) :
    ∃ u, Counterpart t t' u u' := by
  have ht' := h.isProgram ht
  have hle := Nat.le_refl t'.size
  have hknown : KnownAt t' u' t'.size := hu'
  obtain ⟨x, hx, hfirst⟩ := hknown.entry ht' hle
  have htext := (sound_upTo ht' hle).text_of_symbol hu' (first?_eq_some hfirst).1 rfl
  -- the entry of the symbol is none of a constructor, so it is in both outlines
  have hentry := hknown.mem_entries ht' hle hx
  have hcore : (⟨u'.scope, u'.kind, x⟩ : OutlineEntry) ∈ (Outline.upTo t t.size).entries := by
    have halike := Outline.alike_upTo h ht.toInPreorder t.size
    have hmem : (⟨u'.scope, u'.kind, x⟩ : OutlineEntry) ∈
        (Outline.upTo t' t.size).entries.filter (Outline.isCore t) :=
      List.mem_filter.mpr ⟨h.size ▸ hentry, by simp [Outline.isCore, hk]⟩
    rw [halike.core] at hmem
    exact (List.mem_filter.mp hmem).1
  obtain ⟨o, ho, hdecl, u, hu, he, hname⟩ := exists_declaration_of_entry ht (Nat.le_refl _) hcore
  obtain ⟨hscope, hkind, hnode⟩ := OutlineEntry.mk.inj he
  have hid := (sound_upTo ht (Nat.le_refl t.size)).ids o.symbol u hu
  have hnameNode := nameNode?_of_declaration ht ho hdecl hu (hkind ▸ hk)
  subst hnode
  rw [← hid] at hu hnameNode
  exact ⟨u, hu, hscope, hkind, o.node, hnameNode, hx, hname, htext⟩

namespace Counterpart

variable {t t' : Tree} {u u' v v' s : Symbol} {name : String}

theorem mem (h : Counterpart t t' u u') : u ∈ (upTo t t.size).symbols :=
  Array.mem_of_getElem? h.symbol

theorem id_ne (h : Counterpart t t' u u') (h' : Counterpart t t' v v') (ht' : t'.IsProgram)
    (hb : t'.TypesHaveBodies) (hne : u'.id ≠ v'.id) : u.id ≠ v.id := by
  intro hid
  obtain ⟨x, hx, hx', -⟩ := h.nameNode
  obtain ⟨y, hy, hy', -⟩ := h'.nameNode
  rw [hid, hy] at hx
  obtain rfl := Option.some.inj hx
  obtain ⟨o, ho, hox⟩ := Option.map_eq_some_iff.mp hx'
  obtain ⟨o', ho', hoy⟩ := Option.map_eq_some_iff.mp hy'
  obtain ⟨hmem, hsym⟩ := first?_eq_some ho
  obtain ⟨hmem', hsym'⟩ := first?_eq_some ho'
  have heq := List.inj_on_of_nodup_map (nodup_occurrences ht' hb (Nat.le_refl _)) hmem hmem'
    (hox.trans hoy.symm)
  exact hne (hsym.symm.trans (heq ▸ hsym'))

theorem name_eq (h : Counterpart t t' u u') (hr : Renamed t s name t') (ht : t.IsProgram)
    (hb : t.TypesHaveBodies) : u'.name = if u.id = s.id then name else u.name := by
  obtain ⟨x, hx, -, htext, htext'⟩ := h.nameNode
  obtain ⟨o, ho, rfl⟩ := Option.map_eq_some_iff.mp hx
  obtain ⟨hmem, hid⟩ := first?_eq_some ho
  rw [← htext', ← htext]
  split
  next hs => exact hr.text_new _ ⟨o, hmem, hid.trans hs, rfl⟩
  next hs =>
    refine hr.text_old _ ((tidy_upTo ht (Nat.le_refl _)).traced o hmem).isName ?_
    rintro ⟨o', hmem', hid', hnode⟩
    have heq := List.inj_on_of_nodup_map (nodup_occurrences ht hb (Nat.le_refl _)) hmem' hmem hnode
    exact hs (hid.symm.trans (heq ▸ hid'))

theorem sees (h : Counterpart t t' u u') (h' : Counterpart t t' v v') (hs : t.SameShape t')
    (ht : t.IsProgram) (hsees : (upTo t' t'.size).Sees u' v') : (upTo t t.size).Sees u v := by
  have hchain (c : ScopeId) := chain_of_sameShape hs ht c
  have hkind (c : ScopeId) := (scope_of_sameShape hs ht c).2
  refine ⟨⟨h.mem, h'.mem⟩, ?_, ?_, ?_, ?_⟩
  · rw [← h.kind, ← h'.kind]
    exact hsees.isLocal
  · rw [← h.scope, ← h'.scope, ← hchain]
    exact hsees.inside
  · intro c
    rw [← h.scope, ← h'.scope, ← hchain, ← hkind]
    exact hsees.body c
  · rw [← h'.kind]
    obtain ⟨x, hx, hx', -⟩ := h'.nameNode
    obtain ⟨y, hy, hy', -⟩ := h.nameNode
    have hvisible := hsees.visible
    rw [hx', hy'] at hvisible
    rw [hx, hy]
    exact hvisible

end Counterpart

/-! ### What the checks exclude -/

namespace Resolution

variable {t : Tree} {r : Resolution} {s u v : Symbol} {name : String} {p : RenamePlan}

theorem collision?_of_planRename (hp : r.planRename t s name = .ok p) (hne : s.name ≠ name) :
    r.collision? t s name = none := by
  cases hc : r.collision? t s name with
  | none => rfl
  | some collision =>
    simp only [planRename, if_neg hne, hc] at hp
    split at hp <;> cases hp

theorem mem_takeWhile_of_mem {l : List ScopeId} {x : ScopeId} {p : ScopeId → Bool} (hx : x ∈ l)
    (h : ∀ c ∈ l.takeWhile (· != x) ++ [x], p c) : x ∈ l.takeWhile p := by
  induction l with
  | nil => cases hx
  | cons a l ih =>
    by_cases ha : a = x
    · subst ha
      rw [List.takeWhile_cons_of_pos (h a (by simp))]
      exact List.mem_cons_self
    · rw [List.takeWhile_cons_of_pos (by simpa using ha)] at h
      rw [List.takeWhile_cons_of_pos (h a List.mem_cons_self)]
      apply List.mem_cons_of_mem
      apply ih ((List.mem_cons.mp hx).resolve_left fun he => ha he.symm)
      exact fun c hc => h c (List.mem_cons_of_mem _ hc)

theorem Sees.visibleAt (h : (upTo t t.size).Sees u v) (ht : t.Ordered) :
    (upTo t t.size).visibleAt v ((upTo t t.size).declarationSpan u.id).start = true := by
  have hsound := sound_upTo ht.toIsProgram (Nat.le_refl t.size)
  rcases h.visible with hk | ⟨x, y, hx, hy, hlt⟩
  · simp [Resolution.visibleAt, hk]
  · obtain ⟨o, ho, rfl⟩ := Option.map_eq_some_iff.mp hx
    obtain ⟨o', ho', rfl⟩ := Option.map_eq_some_iff.mp hy
    have htraced := (tidy_upTo ht.toIsProgram (Nat.le_refl t.size)).traced
    have hname := (htraced o (first?_eq_some ho).1).isName
    have hname' := (htraced o' (first?_eq_some ho').1).isName
    have hle := ht.start_le_of_lt hname hlt (ht.lt_size_of_isName hname')
    simp [Resolution.visibleAt, hsound.declarationSpan_eq hx, hsound.declarationSpan_eq hy, hle]

theorem Sees.space (h : r.Sees u v) : u.kind.space = .var ∧ v.kind.space = .var := by
  have key {k : SymbolKind} (hk : k.isLocal) : k.space = .var := by
    cases k <;> simp [SymbolKind.isLocal] at hk <;> rfl
  exact ⟨key h.isLocal.1, key h.isLocal.2⟩

theorem Sees.innerLocal? (h : (upTo t t.size).Sees u s) (ht : t.Ordered) (hname : u.name = name) :
    (upTo t t.size).innerLocal? s name ≠ none := by
  intro hnone
  rw [Resolution.innerLocal?, List.find?_eq_none] at hnone
  refine hnone u ?_ ?_
  · exact List.mem_filter.mpr ⟨Array.mem_toList_iff.mpr h.mem.1, by simp [hname, h.space.1]⟩
  · have hbody : (upTo t t.size).isWithinBody s.scope u.scope = true := by
      simp only [isWithinBody, encloses, Bool.and_eq_true, List.all_eq_true, bne_iff_ne,
        List.contains_iff_mem]
      exact ⟨fun c hc => h.body c (List.mem_append_left _ hc), h.inside.2⟩
    simp [h.isLocal.1, h.inside.1, hbody, h.visibleAt ht]

theorem Sees.outerLocal? (h : (upTo t t.size).Sees s v) (ht : t.Ordered)
    (hpairs : (upTo t t.size).pairs = []) (hname : v.name = name) :
    (upTo t t.size).outerLocal? s name ≠ none := by
  intro hnone
  rw [Resolution.outerLocal?, List.find?_eq_none] at hnone
  have hv : (upTo t t.size).symbols[v.id]? = some v :=
    (sound_upTo ht.toIsProgram (Nat.le_refl _)).getElem?_id (Array.mem_toList_iff.mpr h.mem.2)
  have hbound := boundIn?_of_pairs_eq_nil ht.toIsProgram hpairs hv
  rw [h.space.2, hname] at hbound
  refine hnone v (List.mem_filterMap.mpr ⟨v.scope, ?_, by rw [hbound, Option.bind_some, hv]⟩) ?_
  · obtain ⟨rest, hchain⟩ : ∃ rest, (upTo t t.size).chain s.scope = s.scope :: rest :=
      ⟨_, by rw [chain]⟩
    have hin := h.inside
    have hbody := h.body
    rw [hchain, List.takeWhile_cons_of_pos (by simpa using hin.1)] at hbody
    rw [hchain, List.mem_cons] at hin
    rw [hchain]
    apply mem_takeWhile_of_mem (hin.2.resolve_left fun he => hin.1 he.symm)
    intro c hc
    rw [bne_iff_ne]
    exact hbody c (List.mem_cons_of_mem _ hc)
  · simp [h.isLocal.2, h.visibleAt ht]

/-- Two locals of one name that see each other are refused as long as one of them is renamed. -/
theorem Sees.not_collision (h : (upTo t t.size).Sees u v) (ht : t.Ordered)
    (hpairs : (upTo t t.size).pairs = []) (hs : u = s ∧ v.name = name ∨ v = s ∧ u.name = name) :
    (upTo t t.size).collision? t s name ≠ none := by
  intro hnone
  simp only [Resolution.collision?, Option.or_eq_none_iff] at hnone
  obtain ⟨⟨-, hshadow⟩, -⟩ := hnone
  rcases hs with ⟨rfl, hname⟩ | ⟨rfl, hname⟩
  · rw [shadowingCollision?, if_pos h.isLocal.1, Option.map_eq_none_iff,
      Option.or_eq_none_iff] at hshadow
    exact h.outerLocal? ht hpairs hname hshadow.1
  · rw [shadowingCollision?, if_pos h.isLocal.2, Option.map_eq_none_iff,
      Option.or_eq_none_iff] at hshadow
    exact h.innerLocal? ht hname hshadow.2

theorem not_collision_of_boundIn? (hv : r.symbols[v.id]? = some v)
    (hbound : r.boundIn? s.scope s.kind.space name = some v.id) (hne : v.id ≠ s.id) :
    r.collision? t s name ≠ none := by
  intro hnone
  simp only [Resolution.collision?, Option.or_eq_none_iff] at hnone
  simp [declaredCollision?, hbound, hv, hne] at hnone

end Resolution

namespace Counterpart

variable {t t' : Tree} {u u' v v' s : Symbol} {name : String}

/-- Two symbols that get one name had one before, or one of them is the renamed one. -/
theorem name_cases (h : Counterpart t t' u u') (h' : Counterpart t t' v v')
    (hr : Renamed t s name t') (ht : t.IsProgram) (hb : t.TypesHaveBodies)
    (hs : (upTo t t.size).symbols[s.id]? = some s) (hname : u'.name = v'.name) :
    u.name = v.name ∨ s.name ≠ name ∧ (u = s ∧ v.name = name ∨ v = s ∧ u.name = name) := by
  have heq {x : Symbol} (hx : (upTo t t.size).symbols[x.id]? = some x) (hid : x.id = s.id) :
      x = s := by
    rw [hid, hs] at hx
    exact (Option.some.inj hx).symm
  rw [h.name_eq hr ht hb, h'.name_eq hr ht hb] at hname
  by_cases hu : u.id = s.id <;> by_cases hv : v.id = s.id <;>
    simp only [hu, hv, if_true, if_false] at hname
  · exact Or.inl (by rw [heq h.symbol hu, heq h'.symbol hv])
  · obtain rfl := heq h.symbol hu
    by_cases hne : u.name = name
    · exact Or.inl (hne.trans hname)
    · exact Or.inr ⟨hne, Or.inl ⟨rfl, hname.symm⟩⟩
  · obtain rfl := heq h'.symbol hv
    by_cases hne : v.name = name
    · exact Or.inl (hname.trans hne.symm)
    · exact Or.inr ⟨hne, Or.inr ⟨rfl, hname⟩⟩
  · exact Or.inl hname

end Counterpart

namespace Renamed

variable {t t' : Tree} {s : Symbol} {name : String}

theorem pairs_eq_nil (h : Renamed t s name t') (ht : t.IsProgram) (hb : t.TypesHaveBodies)
    (hs : (upTo t t.size).symbols[s.id]? = some s)
    (hc : s.name ≠ name → (upTo t t.size).collision? t s name = none)
    (hpairs : (upTo t t.size).pairs = []) : (upTo t' t'.size).pairs = [] := by
  have ht' := h.isProgram ht
  have hsound := sound_upTo ht' (Nat.le_refl t'.size)
  apply List.eq_nil_iff_forall_not_mem.mpr
  intro p hp
  obtain ⟨hlt, u', hu', hkind⟩ := (declaredOnce_upTo ht' (Nat.le_refl _)).later p hp
  obtain ⟨u'', hu'', hbound⟩ := (paired_upTo ht' (Nat.le_refl _)).pairs p hp
  obtain rfl := Option.some.inj (hu'.symm.trans hu'')
  obtain ⟨v', hv', hscope, hspace, hname⟩ := hsound.boundIn? hbound
  have hkind' : v'.kind ≠ .method := by
    intro he
    rw [he] at hspace
    cases hk : u'.kind <;> simp [hk, SymbolKind.space] at hspace hkind
  have hid := hsound.ids _ _ hu'
  have hid' := hsound.ids _ _ hv'
  obtain ⟨u, hu⟩ := exists_counterpart h.toSameShape ht (hid ▸ hu') hkind
  obtain ⟨v, hv⟩ := exists_counterpart h.toSameShape ht (hid' ▸ hv') hkind'
  have hne : u.id ≠ v.id := hu.id_ne hv ht' (h.typesHaveBodies hb) <| by
    rw [hid, hid']
    exact Nat.ne_of_gt hlt
  have hbu := boundIn?_of_pairs_eq_nil ht hpairs hu.symbol
  have hbv := boundIn?_of_pairs_eq_nil ht hpairs hv.symbol
  rw [hu.scope, hv.scope] at hscope
  rw [hu.kind, hv.kind] at hspace
  rw [hscope, hspace] at hbv
  rcases hu.name_cases hv h ht hb hs hname.symm with he | ⟨hnew, ⟨rfl, he⟩ | ⟨rfl, he⟩⟩
  · rw [he, hbv] at hbu
    exact hne (Option.some.inj hbu).symm
  · exact Resolution.not_collision_of_boundIn? hv.symbol (he ▸ hbv) hne.symm (hc hnew)
  · rw [← hscope, ← hspace, he] at hbu
    exact Resolution.not_collision_of_boundIn? hu.symbol hbu hne (hc hnew)

theorem not_shadows (h : Renamed t s name t') (ht : t.Ordered) (hb : t.TypesHaveBodies)
    (hs : (upTo t t.size).symbols[s.id]? = some s)
    (hc : s.name ≠ name → (upTo t t.size).collision? t s name = none)
    (hlegal : (upTo t t.size).Legal) (inner outer : Symbol) :
    ¬ (upTo t' t'.size).Shadows inner outer := by
  rintro ⟨hsees, hname⟩
  have hsound := sound_upTo (h.isProgram ht.toIsProgram) (Nat.le_refl t'.size)
  have hexists {x : Symbol} (hx : x ∈ (upTo t' t'.size).symbols) (hk : x.kind.isLocal) :
      ∃ y, Counterpart t t' y x := by
    apply exists_counterpart h.toSameShape ht.toIsProgram
      (hsound.getElem?_id (Array.mem_toList_iff.mpr hx))
    rintro he
    simp [he, SymbolKind.isLocal] at hk
  obtain ⟨u, hu⟩ := hexists hsees.mem.1 hsees.isLocal.1
  obtain ⟨v, hv⟩ := hexists hsees.mem.2 hsees.isLocal.2
  have hsees := hu.sees hv h.toSameShape ht.toIsProgram hsees
  rcases hu.name_cases hv h ht.toIsProgram hb hs hname with he | ⟨hnew, hcase⟩
  · exact hlegal.apart u v ⟨hsees, he⟩
  · exact hsees.not_collision ht hlegal.distinct hcase (hc hnew)

end Renamed

/-- A rename that is not refused keeps a legal program legal: if no name was declared twice in a
scope and no local hid another one, this is so in the renamed tree too. -/
theorem Resolution.planRename_keeps_legal (t : Tree) (ht : t.Ordered) (hb : t.TypesHaveBodies)
    (r : Resolution) (hr : resolve t = .ok r) (hlegal : r.Legal) (s : Symbol) (hs : s ∈ r.symbols)
    (name : String) (p : RenamePlan) (hp : r.planRename t s name = .ok p) :
    (∀ t', Renamed t s name t' → ∃ r', resolve t' = .ok r' ∧ r'.Legal) ∧
    (t.Readable → s.name ≠ "" → ∃ out, p.plan.apply t.source = .ok out ∧
      Renamed t s name (t.edited p.plan.edits out)) := by
  obtain ⟨rfl, hsym⟩ := of_resolve_eq_ok ht.toIsProgram hr hs
  have hc : s.name ≠ name → (upTo t t.size).collision? t s name = none :=
    collision?_of_planRename hp
  constructor
  · intro t' h
    refine ⟨_, resolve_eq_ok (h.isProgram ht.toIsProgram), ?_, ?_⟩
    · exact h.pairs_eq_nil ht.toIsProgram hb hsym hc hlegal.distinct
    · exact h.not_shadows ht hb hsym hc hlegal
  · exact fun hread hname => exists_renamed hread hsym hname hp

namespace Sample

def lambdaRows : List RawTree.Row :=
  [phrase 0 0 43 "program" none, phrase 1 0 43 "class_declaration" none, token 2 0 5 "class",
   phrase 2 6 7 "identifier" (some "name"), phrase 2 8 43 "class_body" (some "body"),
   token 3 8 9 "\x7b", phrase 3 10 41 "method_declaration" none,
   phrase 4 10 14 "void_type" (some "type"), phrase 4 15 16 "identifier" (some "name"),
   phrase 4 16 23 "formal_parameters" (some "parameters"), token 5 16 17 "(",
   phrase 5 17 22 "formal_parameter" none, phrase 6 17 20 "integral_type" (some "type"),
   token 7 17 20 "int", phrase 6 21 22 "identifier" (some "name"), token 5 22 23 ")",
   phrase 4 24 41 "block" (some "body"), token 5 24 25 "\x7b",
   phrase 5 26 39 "local_variable_declaration" none,
   phrase 6 26 27 "type_identifier" (some "type"),
   phrase 6 28 38 "variable_declarator" (some "declarator"),
   phrase 7 28 29 "identifier" (some "name"), token 7 30 31 "=",
   phrase 7 32 38 "lambda_expression" (some "value"),
   phrase 8 32 33 "identifier" (some "parameters"), token 8 34 36 "->",
   phrase 8 37 38 "identifier" (some "body"), token 6 38 39 ";", token 5 40 41 "\x7d",
   token 3 42 43 "\x7d"]

/-- A method with a parameter, a variable and a function with a parameter of its own. -/
def lambdaTree : Tree :=
  .ofRaw "class A \x7b void m(int a) \x7b F f = b -> b; \x7d \x7d"
    ((RawTree.ofRows? lambdaRows).getD default)

theorem lambdaTree_checked : lambdaTree.kind Tree.root = .program ∧
    (∀ i ∈ lambdaTree.ids, lambdaTree.FitsAt i) ∧
    (∀ i ∈ lambdaTree.ids, lambdaTree.FollowsAt i) := by
  decide +kernel

theorem lambdaTree_isProgram : lambdaTree.IsProgram :=
  ⟨Tree.ofRaw_inPreorder _ _, lambdaTree_checked.1⟩

theorem lambdaTree_wellFormed : lambdaTree.WellFormed :=
  lambdaTree_isProgram.wellFormed_iff.mpr lambdaTree_checked.2.1

theorem lambdaTree_grammatical : lambdaTree.Grammatical :=
  Tree.grammatical_of_followsAt lambdaTree_checked.2.2

def lambdaSymbol : Symbol := ⟨4, "b", .parameter, 24, 3, none⟩

def lambdaVariable : Symbol := ⟨3, "f", .localVariable, 20, 2, none⟩

/-- What is evaluated of the resolution, at once since each evaluation walks over the tree. -/
theorem lambdaTree_walked : let r := upTo lambdaTree lambdaTree.size
    r.pairs = [] ∧
    (∀ u ∈ r.symbols.toList, ∀ v ∈ r.symbols.toList,
      u.kind.isLocal → v.kind.isLocal → u.name = v.name → u.scope = v.scope) ∧
    r.symbols[lambdaSymbol.id]? = some lambdaSymbol ∧
    r.symbols[lambdaVariable.id]? = some lambdaVariable ∧
    lambdaVariable.scope ∈ r.chain lambdaSymbol.scope ∧
    (∀ c ∈ (r.chain lambdaSymbol.scope).takeWhile (· != lambdaVariable.scope) ++
      [lambdaVariable.scope], r.scopeKind? c ≠ some .type) ∧
    r.nameNode? lambdaVariable.id = some 21 ∧ r.nameNode? lambdaSymbol.id = some 24 ∧
    Identifier.validateFor lambdaSymbol.kind "c" = .ok () ∧
    r.collision? lambdaTree lambdaSymbol "c" = none := by
  decide +kernel

theorem lambdaTree_legal : (upTo lambdaTree lambdaTree.size).Legal := by
  obtain ⟨hdistinct, hnames, -⟩ := lambdaTree_walked
  refine ⟨hdistinct, ?_⟩
  rintro u v ⟨hsees, hname⟩
  exact hsees.inside.1 (hnames u (Array.mem_toList_iff.mpr hsees.mem.1) v
    (Array.mem_toList_iff.mpr hsees.mem.2) hsees.isLocal.1 hsees.isLocal.2 hname)

theorem lambda_symbol :
    (upTo lambdaTree lambdaTree.size).symbols[lambdaSymbol.id]? = some lambdaSymbol :=
  lambdaTree_walked.2.2.1

theorem lambda_sees : (upTo lambdaTree lambdaTree.size).Sees lambdaSymbol lambdaVariable := by
  obtain ⟨-, -, hinner, houter, hchain, hbody, hx, hy, -⟩ := lambdaTree_walked
  exact ⟨⟨Array.mem_of_getElem? hinner, Array.mem_of_getElem? houter⟩, by decide,
    ⟨by decide, hchain⟩, hbody, Or.inr ⟨21, 24, hx, hy, by decide⟩⟩

theorem plan_lambda : (upTo lambdaTree lambdaTree.size).planRename lambdaTree lambdaSymbol "c" =
    .ok ⟨lambdaSymbol, "c", Resolution.renamePlan lambdaTree lambdaSymbol
      ((upTo lambdaTree lambdaTree.size).renameEdits lambdaSymbol "c"),
      (upTo lambdaTree lambdaTree.size).findingsFor lambdaSymbol.id⟩ := by
  obtain ⟨-, -, -, -, -, -, -, -, hvalid, hclear⟩ := lambdaTree_walked
  exact Resolution.planRename_eq_ok (tidy_upTo lambdaTree_isProgram (Nat.le_refl _))
    lambdaTree_wellFormed lambda_symbol hvalid hclear

end Sample

/-- The parameter can be named `c`, and the program stays legal; it cannot be named like the
variable that it sees. -/
theorem Resolution.planRename_keeps_legal_sample :
    ∃ r p out r', resolve Sample.lambdaTree = .ok r ∧ r.Legal ∧ Sample.lambdaSymbol ∈ r.symbols ∧
      r.planRename Sample.lambdaTree Sample.lambdaSymbol "c" = .ok p ∧
      p.plan.apply Sample.lambdaTree.source = .ok out ∧
      resolve (Sample.lambdaTree.edited p.plan.edits out) = .ok r' ∧ r'.Legal ∧
      r.Sees Sample.lambdaSymbol Sample.lambdaVariable ∧
      r.collision? Sample.lambdaTree Sample.lambdaSymbol "f" ≠ none := by
  have hr := resolve_eq_ok Sample.lambdaTree_isProgram
  have hs := Array.mem_of_getElem? Sample.lambda_symbol
  obtain ⟨hkept, happly⟩ := planRename_keeps_legal Sample.lambdaTree
    Sample.lambdaTree_wellFormed.ordered Sample.lambdaTree_grammatical.typesHaveBodies _ hr
    Sample.lambdaTree_legal Sample.lambdaSymbol hs "c" _ Sample.plan_lambda
  obtain ⟨out, hout, h⟩ := happly Sample.lambdaTree_wellFormed.readable (by decide)
  obtain ⟨r', hr', hlegal⟩ := hkept _ h
  exact ⟨_, _, out, r', hr, Sample.lambdaTree_legal, hs, Sample.plan_lambda, hout, hr', hlegal,
    Sample.lambda_sees, Sample.lambda_sees.not_collision Sample.lambdaTree_wellFormed.ordered
      Sample.lambdaTree_legal.distinct (Or.inl ⟨rfl, rfl⟩)⟩

end JavaRefactor
