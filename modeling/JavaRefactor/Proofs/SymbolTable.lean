import JavaRefactor.Proofs.Walk

/-! # The symbol table

At every point of the walk the table agrees with the tree: a binding points to a symbol with
its key, an occurrence to a symbol with the name that stands there, and the first occurrence
of a symbol is its declaration.
-/

namespace JavaRefactor

def Resolution.first? (r : Resolution) (id : SymbolId) : Option Occurrence :=
  r.occurrences.toList.find? fun o => o.symbol == id

def Resolution.nameNode? (r : Resolution) (id : SymbolId) : Option NodeId :=
  (r.first? id).map (·.node)

namespace Walk

variable {t : Tree} {w w' : Walk} {i : Nat} {stack : List ScopeId} {d : Declaration}

theorem first?_eq_some {id : SymbolId} {o : Occurrence} (h : w.first? id = some o) :
    o ∈ w.occurrences.toList ∧ o.symbol = id :=
  ⟨List.mem_of_find?_eq_some h, by simpa using List.find?_some h⟩

structure Sound (t : Tree) (w : Walk) : Prop where
  ids : ∀ (k : Nat) (s : Symbol), w.symbols[k]? = some s → s.id = k
  bound : ∀ b ∈ w.bindings.toList, ∃ s, w.symbols[b.symbol]? = some s ∧ s.scope = b.scope ∧
    s.kind.space = b.space ∧ s.name = b.name
  occurs : ∀ o ∈ w.occurrences.toList, ∃ s, w.symbols[o.symbol]? = some s ∧
    t.text o.node = s.name ∧ o.span = t.span o.node ∧ (o.kind = .declaration → o.scope = s.scope)
  named : ∀ id < w.symbols.size, ∃ o, w.first? id = some o ∧ o.kind = .declaration

namespace Sound

theorem boundIn? (h : Sound t w) {scope : ScopeId} {space : Namespace} {name : String}
    {id : SymbolId} (hb : w.boundIn? scope space name = some id) :
    ∃ s, w.symbols[id]? = some s ∧ s.scope = scope ∧ s.kind.space = space ∧ s.name = name := by
  obtain ⟨b, hf, rfl⟩ := Option.map_eq_some_iff.mp hb
  have hkey := Array.find?_some hf
  simp only [Bool.and_eq_true, beq_iff_eq] at hkey
  obtain ⟨s, hs, h₁, h₂, h₃⟩ := h.bound b (by simpa using Array.mem_of_find?_eq_some hf)
  exact ⟨s, hs, h₁.trans hkey.1.1, h₂.trans hkey.1.2, h₃.trans hkey.2⟩

theorem lookup? (h : Sound t w) {space : Namespace} {name : String} {id : SymbolId}
    (hl : w.lookup? stack space name = some id) :
    ∃ s, w.symbols[id]? = some s ∧ s.kind.space = space ∧ s.name = name := by
  obtain ⟨scope, -, hb⟩ := List.exists_of_findSome?_eq_some hl
  obtain ⟨s, hs, -, h₂, h₃⟩ := h.boundIn? hb
  exact ⟨s, hs, h₂, h₃⟩

theorem find? (h : Sound t w) {name : String} {target : Target} {id : SymbolId}
    (hf : w.find? stack name target = some id) : ∃ s, w.symbols[id]? = some s ∧ s.name = name := by
  cases target with
  | lexical space =>
    obtain ⟨s, hs, -, hn⟩ := h.lookup? hf
    exact ⟨s, hs, hn⟩
  | expression =>
    rcases Option.or_eq_some_iff.mp hf with hl | ⟨-, hl⟩
    · obtain ⟨s, hs, -, hn⟩ := h.lookup? hl
      exact ⟨s, hs, hn⟩
    · obtain ⟨s, hs, -, hn⟩ := h.lookup? hl
      exact ⟨s, hs, hn⟩
  | member space =>
    obtain ⟨scope, -, hb⟩ := Option.bind_eq_some_iff.mp hf
    obtain ⟨s, hs, -, -, hn⟩ := h.boundIn? hb
    exact ⟨s, hs, hn⟩

theorem text_of_symbol (h : Sound t w) {s : Symbol} (hs : w.symbols[s.id]? = some s)
    {o : Occurrence} (ho : o ∈ w.occurrences.toList) (hid : o.symbol = s.id) :
    t.text o.node = s.name := by
  obtain ⟨s', hs', htext, -⟩ := h.occurs o ho
  rw [hid, hs] at hs'
  rw [htext, Option.some.inj hs']

theorem exists_nameNode (h : Sound t w) {id : SymbolId} {s : Symbol}
    (hs : w.symbols[id]? = some s) : ∃ x, w.nameNode? id = some x := by
  obtain ⟨o, ho, -⟩ := h.named id (Array.getElem?_eq_some_iff.mp hs).1
  exact ⟨o.node, by rw [Resolution.nameNode?, ho]; rfl⟩

theorem congr (h : Sound t w) (hsym : w'.symbols = w.symbols) (hbind : w'.bindings = w.bindings)
    (hocc : w'.occurrences = w.occurrences) : Sound t w' where
  ids := hsym ▸ h.ids
  bound := hsym ▸ hbind ▸ h.bound
  occurs := hsym ▸ hocc ▸ h.occurs
  named := by
    unfold Resolution.first?
    rw [hsym, hocc]
    exact h.named

theorem first?_size (h : Sound t w) : w.first? w.symbols.size = none := by
  refine List.find?_eq_none.mpr fun o ho he => ?_
  obtain ⟨s, hs, -⟩ := h.occurs o ho
  rw [beq_iff_eq.mp he] at hs
  simp at hs

theorem occur (h : Sound t w) {o : Occurrence} (hsym : w'.symbols = w.symbols)
    (hbind : w'.bindings = w.bindings) (hocc : w'.occurrences = w.occurrences.push o)
    (ho : ∃ s, w.symbols[o.symbol]? = some s ∧ t.text o.node = s.name ∧ o.span = t.span o.node ∧
      (o.kind = .declaration → o.scope = s.scope)) : Sound t w' where
  ids := hsym ▸ h.ids
  bound := hsym ▸ hbind ▸ h.bound
  occurs := by
    rw [hsym, hocc]
    intro o' ho'
    rcases List.mem_append.mp (Array.toList_push ▸ ho') with ho' | ho'
    · exact h.occurs o' ho'
    · exact List.mem_singleton.mp ho' ▸ ho
  named := by
    rw [hsym]
    intro id hid
    obtain ⟨first, hf, hk⟩ := h.named id hid
    refine ⟨first, ?_, hk⟩
    rw [Resolution.first?, hocc, Array.toList_push, List.find?_append]
    exact Option.or_eq_some_iff.mpr (Or.inl hf)

/-- A new symbol with its declaration, which may be bound in its scope. -/
theorem grow (h : Sound t w) {container : Option SymbolId}
    (hsym : w'.symbols = w.symbols.push (newSymbol t stack d w.symbols.size container))
    (hocc : w'.occurrences = w.occurrences.push (declaredAs t stack d w.symbols.size))
    (hbind : ∀ b ∈ w'.bindings.toList, b ∈ w.bindings.toList ∨
      b = ⟨current stack, d.kind.space, t.text d.name, w.symbols.size⟩) : Sound t w' := by
  have hold {k : Nat} {s : Symbol} (hs : w.symbols[k]? = some s) : w'.symbols[k]? = some s :=
    getElem?_mono (by simp [hsym]) hs
  have hnew : w'.symbols[w.symbols.size]? =
      some (newSymbol t stack d w.symbols.size container) := by
    rw [hsym, Array.getElem?_push_size]
  refine ⟨?_, ?_, ?_, ?_⟩
  · intro k s hs
    rw [hsym, Array.getElem?_push] at hs
    split at hs
    next hk => exact Option.some.inj hs ▸ hk.symm
    next => exact h.ids k s hs
  · intro b hb
    rcases hbind b hb with hb | rfl
    · obtain ⟨s, hs, hrest⟩ := h.bound b hb
      exact ⟨s, hold hs, hrest⟩
    · exact ⟨_, hnew, rfl, rfl, rfl⟩
  · rw [hocc]
    intro o ho
    rcases List.mem_append.mp (Array.toList_push ▸ ho) with ho | ho
    · obtain ⟨s, hs, hrest⟩ := h.occurs o ho
      exact ⟨s, hold hs, hrest⟩
    · obtain rfl := List.mem_singleton.mp ho
      exact ⟨_, hnew, rfl, rfl, fun _ => rfl⟩
  · intro id hid
    rw [Resolution.first?, hocc, Array.toList_push, List.find?_append]
    rw [hsym, Array.size_push] at hid
    rcases Nat.lt_or_eq_of_le (Nat.le_of_lt_succ hid) with hlt | rfl
    · obtain ⟨first, hf, hk⟩ := h.named id hlt
      exact ⟨first, Option.or_eq_some_iff.mpr (Or.inl hf), hk⟩
    · have hnone := h.first?_size
      rw [Resolution.first?] at hnone
      exact ⟨declaredAs t stack d w.symbols.size, by simp [hnone, declaredAs], rfl⟩

theorem declared (h : Sound t w) (hd : Declared t stack w d w') : Sound t w' := by
  cases hd with
  | overload _ kind found =>
    obtain ⟨s, hs, hscope, -, hname⟩ := h.boundIn? found
    exact h.occur rfl rfl rfl ⟨s, hs, hname.symm, rfl, fun _ => hscope.symm⟩
  | duplicate => exact h.grow rfl rfl fun b hb => Or.inl hb
  | fresh => exact h.grow rfl rfl fun b hb => by simpa using hb

theorem records (h : Sound t w) {o : Occurrence} (hr : Records t i w o) :
    Sound t (w.recorded o) := by
  cases hr with
  | reference _ _ _ found =>
    obtain ⟨s, hs, hname⟩ := h.find? found
    exact h.occur rfl rfl rfl ⟨s, hs, hname.symm, rfl, fun he => by simp at he⟩
  | constructor _ _ _ _ _ same =>
    obtain ⟨s, hs, hname⟩ := Option.map_eq_some_iff.mp same
    exact h.occur rfl rfl rfl ⟨s, hs, hname.symm, rfl, fun he => by simp at he⟩

end Sound

theorem sound_upTo (ht : t.IsProgram) {k : Nat} (hk : k ≤ t.size) : Sound t (upTo t k) := by
  refine upTo_induction (P := fun _ w => Sound t w) ht ?_ ?_ hk
  · constructor <;> simp
  · intro k v hk hv _ h
    exact visit_preserves ht hk hv (fun _ _ _ h => h.congr rfl rfl rfl)
      (fun _ _ _ _ h => h.congr rfl rfl rfl)
      (fun _ hd h => h.declared hd) (fun hr h => h.records hr) h

/-- What the parts of all visits keep while the table is sound, the walk keeps. -/
theorem upTo_preserves {P : Walk → Prop} (ht : t.IsProgram) {k : Nat} (hk : k ≤ t.size)
    (start : P {})
    (scope : ∀ (w : Walk) stack i kind, (∀ x ∈ stack, x < w.scopes.size) → P w →
      P (w.openScope t stack i kind))
    (finding : ∀ (w : Walk) use, P w →
      P { w with findings := w.findings.push (.unresolved use) })
    (declare : ∀ {w w' : Walk} {i stack d}, Sound t w → Declares t i w stack d →
      Declared t stack w d w' → P w → P w')
    (occur : ∀ {w : Walk} {i o}, Sound t w → Records t i w o → P w → P (w.recorded o)) :
    P (upTo t k) := by
  refine (upTo_induction (P := fun _ v => Sound t v ∧ P v) ht
    ⟨sound_upTo ht (Nat.zero_le _), start⟩ ?_ hk).2
  intro k v hk hv _ h
  refine visit_preserves_opening (P := fun w => Sound t w ∧ P w) ht hk hv ?_ ?_ ?_ ?_ h
  · rintro w stack kind hin ⟨hs, h⟩
    exact ⟨hs.congr rfl rfl rfl, scope w stack k kind hin h⟩
  · rintro w use target - ⟨hs, h⟩
    exact ⟨hs.congr rfl rfl rfl, finding w use h⟩
  · rintro w w' stack d hd hd' ⟨hs, h⟩
    exact ⟨hs.declared hd', declare hs hd hd' h⟩
  · rintro w o hr ⟨hs, h⟩
    exact ⟨hs.records hr, occur hs hr h⟩

end Walk

end JavaRefactor
