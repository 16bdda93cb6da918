import JavaRefactor.Proofs.Outline

/-! # Bindings of an outline

A name is bound to the first declaration of it in the innermost scope that has one. The walk
keeps a table of bindings for this; here it is read off the outline, and the two agree.
-/

namespace JavaRefactor

namespace Outline

def bound? (o : Outline) (t : Tree) (scope : ScopeId) (space : Namespace) (name : String) :
    Option NodeId :=
  (o.entries.find? fun e => e.scope == scope && e.kind.space == space && t.text e.node == name).map
    (·.node)

def lookup? (o : Outline) (t : Tree) (stack : List ScopeId) (space : Namespace) (name : String) :
    Option NodeId :=
  stack.findSome? fun s => o.bound? t s space name

def innermostType? (o : Outline) (stack : List ScopeId) : Option ScopeId :=
  stack.find? fun s => o.kinds[s]? == some .type

def find? (o : Outline) (t : Tree) (stack : List ScopeId) (name : String) : Target → Option NodeId
  | .lexical space => o.lookup? t stack space name
  | .expression => (o.lookup? t stack .var name).or (o.lookup? t stack .type name)
  | .member space => (o.innermostType? stack).bind fun s => o.bound? t s space name

end Outline

namespace Walk

variable {t : Tree} {w w' : Walk} {i k : Nat} {stack : List ScopeId} {d : Declaration}

/-- A symbol, if there is one, is first declared by an identifier, if there is one. -/
def Agrees (w : Walk) (id : Option SymbolId) (x : Option NodeId) : Prop :=
  id.map w.nameNode? = x.map some

theorem agrees_none : w.Agrees none none := rfl

theorem agrees_some_iff {id : SymbolId} {x : Option NodeId} :
    w.Agrees (some id) x ↔ ∃ n, x = some n ∧ w.nameNode? id = some n := by
  cases x <;> simp [Agrees]

theorem agrees_none_iff {x : Option NodeId} : w.Agrees none x ↔ x = none := by
  cases x <;> simp [Agrees]

theorem Agrees.isSome_eq {id : Option SymbolId} {x : Option NodeId} (h : w.Agrees id x) :
    id.isSome = x.isSome := by
  have := congrArg Option.isSome h
  simpa using this

theorem Agrees.or {a a' : Option SymbolId} {b b' : Option NodeId} (h : w.Agrees a b)
    (h' : w.Agrees a' b') : w.Agrees (a.or a') (b.or b') := by
  have hs := h.isSome_eq
  cases a <;> cases b <;> simp_all

theorem agrees_findSome? {f : ScopeId → Option SymbolId} {g : ScopeId → Option NodeId}
    (h : ∀ s, w.Agrees (f s) (g s)) : w.Agrees (stack.findSome? f) (stack.findSome? g) := by
  induction stack with
  | nil => exact agrees_none
  | cons s stack ih =>
    have hs := (h s).isSome_eq
    have h' := (h s).or ih
    cases hf : f s <;> cases hg : g s <;> simp_all

def Keyed (t : Tree) (w : Walk) : Prop :=
  ∀ scope space name, w.Agrees (w.boundIn? scope space name) (w.outline.bound? t scope space name)

theorem Keyed.lookup? (h : Keyed t w) (space : Namespace) (name : String) :
    w.Agrees (w.lookup? stack space name) (w.outline.lookup? t stack space name) :=
  agrees_findSome? fun s => h s space name

theorem innermostType?_outline : w.outline.innermostType? stack = w.innermostType? stack := by
  simp [Outline.innermostType?, innermostType?, outline]

/-- A use finds the symbol that the outline shows. -/
theorem Keyed.find? (h : Keyed t w) (name : String) (target : Target) :
    w.Agrees (w.find? stack name target) (w.outline.find? t stack name target) := by
  cases target with
  | lexical space => exact h.lookup? space name
  | expression => exact (h.lookup? .var name).or (h.lookup? .type name)
  | member space =>
    simp only [Outline.find?, innermostType?_outline, Walk.find?]
    cases w.innermostType? stack with
    | none => exact agrees_none
    | some s => exact h s space name

theorem Sound.nameNode?_eq (h : Sound t w) (hocc : w.occurrences.toList <+: w'.occurrences.toList)
    {id : SymbolId} {s : Symbol} (hs : w.symbols[id]? = some s) :
    w'.nameNode? id = w.nameNode? id := by
  obtain ⟨o, ho, -⟩ := h.named id (Array.getElem?_eq_some_iff.mp hs).1
  obtain ⟨l, hl⟩ := hocc
  have ho' : w'.first? id = some o := by
    rw [Resolution.first?, ← hl, List.find?_append]
    exact Option.or_eq_some_iff.mpr (Or.inl ho)
  rw [Resolution.nameNode?, ho', Resolution.nameNode?, ho]

theorem Sound.agrees (h : Sound t w) (hocc : w.occurrences.toList <+: w'.occurrences.toList)
    {scope : ScopeId} {space : Namespace} {name : String} {x : Option NodeId}
    (hx : w.Agrees (w.boundIn? scope space name) x) :
    w'.Agrees (w.boundIn? scope space name) x := by
  cases hb : w.boundIn? scope space name with
  | none => exact agrees_none_iff.mpr (agrees_none_iff.mp (hb ▸ hx))
  | some id =>
    obtain ⟨n, hn, hid⟩ := agrees_some_iff.mp (hb ▸ hx)
    obtain ⟨s, hs, -⟩ := h.boundIn? hb
    exact agrees_some_iff.mpr ⟨n, hn, (h.nameNode?_eq hocc hs).trans hid⟩

theorem Keyed.congr (h : Keyed t w) (hsym : w'.symbols = w.symbols)
    (hbind : w'.bindings = w.bindings) (hocc : w'.occurrences = w.occurrences) : Keyed t w' := by
  intro scope space name
  have hb : w'.boundIn? scope space name = w.boundIn? scope space name := by
    simp [Resolution.boundIn?, hbind]
  have hn : w'.nameNode? = w.nameNode? := by
    funext id
    simp [Resolution.nameNode?, Resolution.first?, hocc]
  have he : w'.outline.bound? t scope space name = w.outline.bound? t scope space name := by
    simp [Outline.bound?, outline, entries_congr hsym hocc]
  rw [Agrees, hb, hn, he]
  exact h scope space name

theorem Keyed.records (h : Keyed t w) (hs : Sound t w) {o : Occurrence} (hr : Records t i w o) :
    Keyed t (w.recorded o) := by
  intro scope space name
  have he : (w.recorded o).entries = w.entries := entries_push (by cases hr <;> simp) rfl rfl
  have hx : (w.recorded o).outline.bound? t scope space name =
      w.outline.bound? t scope space name := by
    simp [Outline.bound?, outline, he]
  rw [hx]
  have hocc : w.occurrences.toList <+: (w.recorded o).occurrences.toList := by
    simp [recorded, addOccurrence]
  exact hs.agrees hocc (h scope space name)

theorem bound?_of_entries_eq {e : OutlineEntry} (he : w'.entries = w.entries ++ [e])
    (scope : ScopeId) (space : Namespace) (name : String) :
    w'.outline.bound? t scope space name = (w.outline.bound? t scope space name).or
      (if e.scope == scope && e.kind.space == space && t.text e.node == name then some e.node
        else none) := by
  simp only [Outline.bound?, outline, he, List.find?_append]
  cases w.entries.find? fun e =>
      e.scope == scope && e.kind.space == space && t.text e.node == name with
  | some e => simp
  | none =>
    simp only [Option.none_or, List.find?_singleton, Option.map_none]
    split <;> simp

theorem boundIn?_of_bindings_eq {b : Binding} (hb : w'.bindings = w.bindings.push b)
    (scope : ScopeId) (space : Namespace) (name : String) :
    w'.boundIn? scope space name = (w.boundIn? scope space name).or
      (if b.scope == scope && b.space == space && b.name == name then some b.symbol else none) := by
  simp only [Resolution.boundIn?, hb, Array.find?_push]
  cases w.bindings.find? fun b => b.scope == scope && b.space == space && b.name == name with
  | some b => simp
  | none =>
    simp only [Option.none_or, Option.map_none]
    split <;> simp

theorem Keyed.again (h : Keyed t w) (hs : Sound t w) (hd : Declared t stack w d w')
    (hbind : w'.bindings = w.bindings)
    (hfound : (w.boundIn? (current stack) d.kind.space (t.text d.name)).isSome) : Keyed t w' := by
  intro scope space name
  have hb : w'.boundIn? scope space name = w.boundIn? scope space name := by
    simp [Resolution.boundIn?, hbind]
  have hx : w'.outline.bound? t scope space name = w.outline.bound? t scope space name := by
    rw [bound?_of_entries_eq (hs.entries_declared hd)]
    split
    next hkey =>
      simp only [Bool.and_eq_true, beq_iff_eq] at hkey
      obtain ⟨⟨rfl, rfl⟩, rfl⟩ := hkey
      rw [(h _ _ _).isSome_eq] at hfound
      obtain ⟨x, hx⟩ := Option.isSome_iff_exists.mp hfound
      rw [hx, Option.some_or]
    next => exact Option.or_none
  rw [hb, hx]
  exact hs.agrees hd.extends.occurrences (h scope space name)

theorem Keyed.declared (h : Keyed t w) (hs : Sound t w) (hd : Declared t stack w d w') :
    Keyed t w' := by
  have hd' := hd
  cases hd with
  | overload _ _ found => exact h.again hs hd' rfl (by simp [found])
  | duplicate _ _ found => exact h.again hs hd' rfl (by simp [found])
  | fresh =>
    intro scope space name
    rw [boundIn?_of_bindings_eq rfl, bound?_of_entries_eq (hs.entries_declared hd')]
    refine (hs.agrees hd'.extends.occurrences (h scope space name)).or ?_
    split
    next =>
      have hnone := hs.first?_size
      rw [Resolution.first?] at hnone
      refine agrees_some_iff.mpr ⟨_, rfl, ?_⟩
      rw [Resolution.nameNode?, Resolution.first?, Array.toList_push, List.find?_append, hnone]
      simp [declaredAs]
    next => exact agrees_none

theorem keyed_upTo (ht : t.IsProgram) (hk : k ≤ t.size) : Keyed t (upTo t k) := by
  refine upTo_preserves ht hk ?_ (fun _ _ _ _ _ h => h.congr rfl rfl rfl)
    (fun _ _ h => h.congr rfl rfl rfl) (fun hs _ hd h => h.declared hs hd)
    (fun hs hr h => h.records hs hr)
  intro scope space name
  simp [Resolution.boundIn?, Outline.bound?, outline, entries, agrees_none]

end Walk

end JavaRefactor
