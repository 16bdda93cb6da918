import JavaRefactor.Proofs.LexicalScope
import JavaRefactor.Proofs.Nesting

/-! # The finished table

A resolution holds together. No number in it leads nowhere, a scope binds each key once, and a
symbol is bound under its key or is a duplicate of the one that is. What a scope declares belongs to
the type whose scope it is, and the occurrences of a symbol start with its declaration. Nothing that
is declared outside of errors is left out.
-/

namespace JavaRefactor

def Finding.pair? : Finding → Option (SymbolId × SymbolId)
  | duplicate _ _ _ second first => some (second, first)
  | unresolved _ => none

namespace Resolution

def pairs (r : Resolution) : List (SymbolId × SymbolId) := r.findings.toList.filterMap (·.pair?)

/-- The symbol that the key of a symbol stands for in its scope. -/
def boundAs? (r : Resolution) (s : Symbol) : Option SymbolId :=
  r.boundIn? s.scope s.kind.space s.name

def pairedWith (r : Resolution) (id : SymbolId) : List SymbolId :=
  r.pairs.filterMap fun p => if p.2 = id then some p.1 else if p.1 = id then some p.2 else none

/-- All numbers of scopes and symbols in the table lead to a scope or a symbol. -/
structure InRange (r : Resolution) : Prop where
  parent : ∀ s ∈ r.scopes.toList, ∀ p, s.parent? = some p → p < r.scopes.size
  children : ∀ c, ∀ x ∈ r.children c, x < r.scopes.size
  owner : ∀ s ∈ r.scopes.toList, ∀ id, s.owner = some id → id < r.symbols.size
  home : ∀ s ∈ r.symbols.toList, s.scope < r.scopes.size
  duplicates : ∀ id, ∀ x ∈ r.duplicatesOf id, x < r.symbols.size
  binding : ∀ b ∈ r.bindings.toList, b.scope < r.scopes.size ∧ b.symbol < r.symbols.size
  occurrence : ∀ o ∈ r.occurrences.toList, o.scope < r.scopes.size ∧ o.symbol < r.symbols.size
  declared : ∀ p ∈ r.declared, p.2 < r.symbols.size

end Resolution

namespace Walk

variable {t : Tree} {w w' : Walk} {i k : Nat} {stack : List ScopeId} {d : Declaration}
  {container : Option SymbolId}

/-! ### Scopes and members -/

structure Placed (w : Walk) : Prop where
  owner : ∀ s ∈ w.scopes.toList, ∀ id, s.owner = some id → id < w.symbols.size
  home : ∀ s ∈ w.symbols.toList, s.scope < w.scopes.size
  container : ∀ s ∈ w.symbols.toList, s.container = w.containerOf s.scope
  declared : ∀ p ∈ w.declared, p.2 < w.symbols.size

namespace Placed

theorem congr (h : Placed w) (hscopes : w'.scopes = w.scopes) (hsym : w'.symbols = w.symbols)
    (hdecl : w'.declared = w.declared) : Placed w' := by
  have hcontainer : w'.containerOf = w.containerOf := by
    funext scope
    rw [Resolution.containerOf, hscopes, Resolution.containerOf]
  exact ⟨hscopes ▸ hsym ▸ h.owner, hscopes ▸ hsym ▸ h.home,
    hcontainer ▸ hsym ▸ h.container, hsym ▸ hdecl ▸ h.declared⟩

theorem openScope (h : Placed w) (kind : ScopeKind) : Placed (w.openScope t stack i kind) where
  owner := by
    simp only [Walk.openScope, Array.toList_push]
    intro s hs id hid
    rcases List.mem_append.mp hs with hs | hs
    · exact h.owner s hs id hid
    · obtain rfl := List.mem_singleton.mp hs
      simp only [newScope] at hid
      split at hid
      next =>
        obtain ⟨l, l', hl, -⟩ := List.lookup_eq_some_iff.mp hid
        exact h.declared (i, id) (by simp [hl])
      next => cases hid
  home s hs := by
    rw [Walk.openScope, Array.size_push]
    exact Nat.lt_succ_of_lt (h.home s hs)
  container s hs := by
    rw [h.container s hs]
    simp only [Resolution.containerOf, Walk.openScope, Array.getElem?_push_lt (h.home s hs)]
    simp [h.home s hs]
  declared := h.declared

theorem grow (h : Placed w) (home : current stack < w.scopes.size) (hscopes : w'.scopes = w.scopes)
    (hsym : w'.symbols = w.symbols.push
      (newSymbol t stack d w.symbols.size (w.containerOf (current stack))))
    (hdecl : w'.declared = (d.node, w.symbols.size) :: w.declared) : Placed w' := by
  have hmem {s : Symbol} (hs : s ∈ w'.symbols.toList) : s ∈ w.symbols.toList ∨
      s = newSymbol t stack d w.symbols.size (w.containerOf (current stack)) := by
    simpa [hsym] using hs
  have hsize : w'.symbols.size = w.symbols.size + 1 := by rw [hsym, Array.size_push]
  have hcontainer : w'.containerOf = w.containerOf := by
    funext scope
    rw [Resolution.containerOf, hscopes, Resolution.containerOf]
  refine ⟨?_, ?_, ?_, ?_⟩
  · rw [hscopes, hsize]
    intro s hs id hid
    exact Nat.lt_succ_of_lt (h.owner s hs id hid)
  · rw [hscopes]
    intro s hs
    rcases hmem hs with hs | rfl
    · exact h.home s hs
    · exact home
  · rw [hcontainer]
    intro s hs
    rcases hmem hs with hs | rfl
    · exact h.container s hs
    · rfl
  · rw [hdecl, hsize]
    intro p hp
    rcases List.mem_cons.mp hp with rfl | hp
    · exact Nat.lt_succ_self _
    · exact Nat.lt_succ_of_lt (h.declared p hp)

theorem of_declared (h : Placed w) (hs : Sound t w) (hd : Declared t stack w d w') : Placed w' := by
  cases hd with
  | overload home kind found =>
    obtain ⟨s, hs, -⟩ := hs.boundIn? found
    refine ⟨h.owner, h.home, h.container, ?_⟩
    rintro p hp
    rcases List.mem_cons.mp hp with rfl | hp
    · exact (Array.getElem?_eq_some_iff.mp hs).1
    · exact h.declared p hp
  | duplicate home => exact h.grow home rfl rfl rfl
  | fresh home => exact h.grow home rfl rfl rfl

end Placed

/-! ### Keys and duplicates -/

/-- Each key is bound once, and a symbol that is not bound under its key is paired with the one
that is. -/
structure Paired (w : Walk) : Prop where
  keys : w.bindings.toList.Pairwise fun b b' =>
    ¬ (b.scope = b'.scope ∧ b.space = b'.space ∧ b.name = b'.name)
  bound : ∀ s ∈ w.symbols.toList, ∃ first, w.boundAs? s = some first ∧
    (first = s.id ∨ first < s.id ∧ (s.id, first) ∈ w.pairs)
  pairs : ∀ p ∈ w.pairs, ∃ s, w.symbols[p.1]? = some s ∧ w.boundAs? s = some p.2
  nodup : (w.pairs.map (·.1)).Nodup

theorem filterMap_of_nodup {l : List (SymbolId × SymbolId)} {a b : SymbolId}
    (hnodup : (l.map (·.1)).Nodup) (h : (a, b) ∈ l) :
    (l.filterMap fun p => if p.1 = a then some p.2 else none) = [b] := by
  induction l with
  | nil => cases h
  | cons p l ih =>
    rw [List.map_cons, List.nodup_cons] at hnodup
    rw [List.filterMap_cons]
    rcases List.mem_cons.mp h with rfl | h
    · have hnil : (l.filterMap fun p => if p.1 = a then some p.2 else none) = [] := by
        rw [List.filterMap_eq_nil_iff]
        intro q hq
        exact if_neg fun he => hnodup.1 (List.mem_map.mpr ⟨q, hq, he⟩)
      simp [hnil]
    · have hne : p.1 ≠ a := fun he => hnodup.1 (List.mem_map.mpr ⟨_, h, he.symm⟩)
      simp [hne, ih hnodup.2 h]

namespace Paired

theorem congr (h : Paired w) (hsym : w'.symbols = w.symbols) (hbind : w'.bindings = w.bindings)
    (hpairs : w'.pairs = w.pairs) : Paired w' := by
  have hbound : w'.boundAs? = w.boundAs? := by
    funext s
    simp [Resolution.boundAs?, Resolution.boundIn?, hbind]
  exact ⟨hbind ▸ h.keys, hsym ▸ hbound ▸ hpairs ▸ h.bound, hsym ▸ hbound ▸ hpairs ▸ h.pairs,
    hpairs ▸ h.nodup⟩

theorem fst_lt (h : Paired w) {p : SymbolId × SymbolId} (hp : p ∈ w.pairs) :
    p.1 < w.symbols.size := by
  obtain ⟨s, hs, -⟩ := h.pairs p hp
  exact (Array.getElem?_eq_some_iff.mp hs).1

theorem pair (h : Paired w) {first : SymbolId} (hfirst : first < w.symbols.size)
    (hfound : w.boundIn? (current stack) d.kind.space (t.text d.name) = some first)
    (hsym : w'.symbols = w.symbols.push (newSymbol t stack d w.symbols.size container))
    (hbind : w'.bindings = w.bindings) (hpairs : w'.pairs = w.pairs ++ [(w.symbols.size, first)]) :
    Paired w' := by
  have hbound : w'.boundAs? = w.boundAs? := by
    funext s
    simp [Resolution.boundAs?, Resolution.boundIn?, hbind]
  refine ⟨hbind ▸ h.keys, ?_, ?_, ?_⟩
  · rw [hsym, hbound, hpairs, Array.toList_push]
    intro s hs
    rcases List.mem_append.mp hs with hs | hs
    · obtain ⟨b, hb, hcase⟩ := h.bound s hs
      exact ⟨b, hb, hcase.imp_right (And.imp_right (List.mem_append_left _))⟩
    · obtain rfl := List.mem_singleton.mp hs
      exact ⟨first, hfound, Or.inr ⟨hfirst, by simp [newSymbol]⟩⟩
  · rw [hsym, hbound, hpairs]
    intro p hp
    rcases List.mem_append.mp hp with hp | hp
    · obtain ⟨s, hs, hb⟩ := h.pairs p hp
      exact ⟨s, getElem?_mono (by simp) hs, hb⟩
    · obtain rfl := List.mem_singleton.mp hp
      exact ⟨_, Array.getElem?_push_size, hfound⟩
  · rw [hpairs, List.map_append, List.nodup_append]
    refine ⟨h.nodup, List.nodup_singleton _, fun a ha b hb => ?_⟩
    obtain ⟨p, hp, rfl⟩ := List.mem_map.mp ha
    obtain rfl := List.mem_singleton.mp hb
    exact Nat.ne_of_lt (h.fst_lt hp)

theorem bind (h : Paired w)
    (hfound : w.boundIn? (current stack) d.kind.space (t.text d.name) = none)
    (hsym : w'.symbols = w.symbols.push (newSymbol t stack d w.symbols.size container))
    (hbind : w'.bindings = w.bindings.push
      ⟨current stack, d.kind.space, t.text d.name, w.symbols.size⟩)
    (hpairs : w'.pairs = w.pairs) : Paired w' := by
  have hkeep {s : Symbol} {b : SymbolId} (hb : w.boundAs? s = some b) : w'.boundAs? s = some b := by
    rw [Resolution.boundAs?] at hb ⊢
    rw [boundIn?_of_bindings_eq hbind, hb, Option.some_or]
  refine ⟨?_, ?_, ?_, hpairs ▸ h.nodup⟩
  · rw [hbind, Array.toList_push, List.pairwise_append]
    refine ⟨h.keys, List.pairwise_singleton _ _, ?_⟩
    rintro b hb b' hb' ⟨hscope, hspace, hname⟩
    obtain rfl := List.mem_singleton.mp hb'
    rw [Resolution.boundIn?, Option.map_eq_none_iff, Array.find?_eq_none] at hfound
    exact hfound b (Array.mem_toList_iff.mp hb) (by simp [hscope, hspace, hname])
  · rw [hsym, hpairs, Array.toList_push]
    intro s hs
    rcases List.mem_append.mp hs with hs | hs
    · obtain ⟨b, hb, hcase⟩ := h.bound s hs
      exact ⟨b, hkeep hb, hcase⟩
    · obtain rfl := List.mem_singleton.mp hs
      refine ⟨w.symbols.size, ?_, Or.inl rfl⟩
      rw [Resolution.boundAs?, boundIn?_of_bindings_eq hbind]
      simp [newSymbol, hfound]
  · rw [hsym, hpairs]
    intro p hp
    obtain ⟨s, hs, hb⟩ := h.pairs p hp
    exact ⟨s, getElem?_mono (by simp) hs, hkeep hb⟩

theorem declared (h : Paired w) (hs : Sound t w) (hd : Declared t stack w d w') : Paired w' := by
  cases hd with
  | overload => exact h.congr rfl rfl rfl
  | duplicate _ _ found =>
    obtain ⟨s, hs, -⟩ := hs.boundIn? found
    have hfirst := (Array.getElem?_eq_some_iff.mp hs).1
    exact h.pair hfirst found rfl rfl (by simp [Resolution.pairs, Finding.pair?])
  | fresh _ found => exact h.bind found rfl rfl rfl

theorem snd_lt (h : Paired w) (hs : Sound t w) {p : SymbolId × SymbolId} (hp : p ∈ w.pairs) :
    p.2 < w.symbols.size := by
  obtain ⟨s, -, hb⟩ := h.pairs p hp
  obtain ⟨s', hs', -⟩ := hs.boundIn? hb
  exact (Array.getElem?_eq_some_iff.mp hs').1

theorem pairedWith_eq_singleton (h : Paired w) (hs : Sound t w) {s : Symbol} {first : SymbolId}
    (hsym : w.symbols[s.id]? = some s) (hbound : w.boundAs? s = some first)
    (hpair : (s.id, first) ∈ w.pairs) (hlt : first < s.id) :
    w.pairedWith s.id = [first] ∧ s.id ∈ w.pairedWith first := by
  constructor
  · -- whatever comes first in a pair is bound, which the symbol is not
    have hsecond (p : SymbolId × SymbolId) (hp : p ∈ w.pairs) : p.2 ≠ s.id := by
      intro he
      obtain ⟨s', -, hb⟩ := h.pairs p hp
      obtain ⟨s'', hs'', hscope, hspace, hname⟩ := hs.boundIn? hb
      rw [he, hsym] at hs''
      obtain rfl := Option.some.inj hs''
      rw [Resolution.boundAs?, hscope, hspace, hname, ← Resolution.boundAs?, hb, he] at hbound
      exact Nat.ne_of_gt hlt (Option.some.inj hbound)
    rw [Resolution.pairedWith, List.filterMap_congr fun p hp => if_neg (hsecond p hp)]
    exact filterMap_of_nodup h.nodup hpair
  · rw [Resolution.pairedWith, List.mem_filterMap]
    exact ⟨(s.id, first), hpair, by simp⟩

end Paired

/-- The list that a symbol keeps of its duplicates holds the symbols that it is paired with. -/
structure Twinned (w : Walk) : Prop where
  size : w.twins.size = w.symbols.size
  duplicatesOf : ∀ id, w.duplicatesOf id = w.pairedWith id

theorem getD_pair {twins : Array (List SymbolId)} {first second : SymbolId}
    (hfirst : first < twins.size) (hsecond : second < twins.size) (id : SymbolId) :
    (pair twins first second).getD id [] = twins.getD id [] ++
      (if first = id then [second] else []) ++ if second = id then [first] else [] := by
  rw [pair, getD_modify_append (by rwa [Array.size_modify]), getD_modify_append hfirst]

theorem Twinned.declared (h : Twinned w) (hs : Sound t w) (hd : Declared t stack w d w') :
    Twinned w' := by
  cases hd with
  | overload => exact ⟨h.size, h.duplicatesOf⟩
  | fresh =>
    refine ⟨by simp [h.size], fun id => ?_⟩
    exact (getD_push_nil _ id).trans (h.duplicatesOf id)
  | @duplicate first _ _ found =>
    obtain ⟨s, hsym, -⟩ := hs.boundIn? found
    have hlt : first < w.symbols.size := (Array.getElem?_eq_some_iff.mp hsym).1
    refine ⟨by simp [pair, h.size], fun id => ?_⟩
    have hfirst : first < (w.twins.push []).size := by simpa [h.size] using Nat.lt_succ_of_lt hlt
    have hnew : w.symbols.size < (w.twins.push []).size := by simp [h.size]
    rw [Resolution.duplicatesOf, getD_pair hfirst hnew, getD_push_nil,
      ← Resolution.duplicatesOf, h.duplicatesOf]
    have hne : first ≠ w.symbols.size := Nat.ne_of_lt hlt
    by_cases hf : first = id
    · subst hf
      simp [Resolution.pairedWith, Resolution.pairs, Finding.pair?, hne.symm]
    · by_cases hn : w.symbols.size = id <;>
        simp [Resolution.pairedWith, Resolution.pairs, Finding.pair?, hf, hn]

theorem placed_upTo (ht : t.IsProgram) (hk : k ≤ t.size) : Placed (upTo t k) := by
  refine upTo_preserves ht hk ?_ (fun _ _ _ kind _ h => h.openScope kind)
    (fun _ _ h => h.congr rfl rfl rfl) (fun hs _ hd h => h.of_declared hs hd)
    (fun _ _ h => h.congr rfl rfl rfl)
  constructor <;> simp

theorem paired_upTo (ht : t.IsProgram) (hk : k ≤ t.size) : Paired (upTo t k) := by
  refine upTo_preserves ht hk ?_ (fun _ _ _ _ _ h => h.congr rfl rfl rfl) (fun _ _ h => ?_)
    (fun hs _ hd h => h.declared hs hd) (fun _ _ h => h.congr rfl rfl rfl)
  · constructor <;> simp [Resolution.pairs]
  · exact h.congr rfl rfl (by simp [Resolution.pairs, Finding.pair?])

theorem twinned_upTo (ht : t.IsProgram) (hk : k ≤ t.size) : Twinned (upTo t k) := by
  refine upTo_preserves ht hk ?_ (fun _ _ _ _ _ h => ⟨h.size, h.duplicatesOf⟩) (fun _ _ h => ?_)
    (fun hs _ hd h => h.declared hs hd) (fun _ _ h => ⟨h.size, h.duplicatesOf⟩)
  · refine ⟨rfl, fun id => ?_⟩
    simp [Resolution.duplicatesOf, Resolution.pairedWith, Resolution.pairs]
  · refine ⟨h.size, fun id => (h.duplicatesOf id).trans ?_⟩
    simp [Resolution.pairedWith, Resolution.pairs, Finding.pair?]

theorem inRange_upTo (ht : t.IsProgram) (hk : k ≤ t.size) : (upTo t k).InRange := by
  have hplaced := placed_upTo ht hk
  have hpaired := paired_upTo ht hk
  have hnested := nested_upTo ht hk
  have hs := sound_upTo ht hk
  refine ⟨?_, ?_, hplaced.owner, hplaced.home, ?_, ?_, ?_, hplaced.declared⟩
  · intro s hmem p hp
    obtain ⟨c, hc⟩ := List.getElem?_of_mem hmem
    rw [Array.getElem?_toList] at hc
    exact hnested.parent c p (by simp [Resolution.parent?, hc, hp])
  · intro c x hx
    obtain ⟨s, hsc, -⟩ := hnested.mem_children_iff.mp hx
    exact (Array.getElem?_eq_some_iff.mp hsc).1
  · intro id x hx
    rw [(twinned_upTo ht hk).duplicatesOf, Resolution.pairedWith, List.mem_filterMap] at hx
    obtain ⟨p, hp, hcase⟩ := hx
    split_ifs at hcase
    · exact Option.some.inj hcase ▸ hpaired.fst_lt hp
    · exact Option.some.inj hcase ▸ hpaired.snd_lt hs hp
  · intro b hb
    obtain ⟨s, hsym, hscope, -⟩ := hs.bound b hb
    have hmem : s ∈ (upTo t k).symbols.toList :=
      Array.mem_toList_iff.mpr (Array.mem_of_getElem? hsym)
    exact ⟨hscope ▸ hplaced.home s hmem, (Array.getElem?_eq_some_iff.mp hsym).1⟩
  · intro o ho
    obtain ⟨s, hsym, -⟩ := hs.occurs o ho
    exact ⟨(framed_upTo ht hk).within o ho, (Array.getElem?_eq_some_iff.mp hsym).1⟩

end Walk

/-! ### Declarations -/

/-- A node that the walk comes to declares a name: its own as a variable, as a type or method, or
one that it hoists into the scope it opens. -/
def Tree.Announces (t : Tree) (i : NodeId) (d : Declaration) : Prop :=
  t.role i = .declares d ∨ t.ownDeclaration? i = some d ∨
    (t.opens? i).isSome ∧ d ∈ t.hoisted i

theorem Tree.opens?_of_ownDeclaration? {t : Tree} {i : NodeId} {d : Declaration}
    (h : t.ownDeclaration? i = some d) : (t.opens? i).isSome := by
  rcases kind_of_ownDeclaration? h with ⟨hk, -⟩ | ⟨hk, -⟩
  · unfold opens?
    cases hi : t.kind i <;> simp [hi, NodeKind.isTypeDeclaration] at hk ⊢
  · simp [opens?, hk]

namespace Outline

variable {t : Tree} {i k : Nat} {stack : List ScopeId} {d : Declaration}

theorem declares_of_mem {o : Outline} {e : OutlineEntry} (h : e ∈ o.entries) : o.declares e.node :=
  List.any_eq_true.mpr ⟨e, h, beq_self_eq_true _⟩

theorem declares_mono {m : Nat} (hkm : k ≤ m) {x : NodeId} (h : (upTo t k).declares x) :
    (upTo t m).declares x := by
  obtain ⟨e, he, hx⟩ := List.any_eq_true.mp h
  exact List.any_eq_true.mpr ⟨e, (entries_mono hkm).subset he, hx⟩

/-- A name that a visited node declares is in the outline, unless it was there before. -/
theorem declares_of_announces (hik : i < k) (hr : (upTo t i).reached? t i = some stack)
    (h : t.Announces i d) : (upTo t k).declares d.name := by
  have hadd {e : OutlineEntry} (he : e ∈ (upTo t i).added t stack i) :
      (upTo t k).declares e.node :=
    declares_of_mem (mem_entries_upTo_iff.mpr ⟨i, hik, stack, hr, he⟩)
  cases hbefore : (upTo t i).declares d.name with
  | true => exact declares_mono (Nat.le_of_lt hik) hbefore
  | false =>
    rcases h with hrole | hown | ⟨ho, hmem⟩
    · have hnone := Walk.opens?_of_role (t := t) (i := i) (by simp [hrole])
      exact hadd (mem_added_iff.mpr (Or.inl ⟨hnone, d, hrole, hbefore, rfl⟩))
    · have ho := Tree.opens?_of_ownDeclaration? hown
      exact hadd (mem_added_iff.mpr (Or.inr ⟨ho, Or.inl ⟨d, hown, hbefore, rfl⟩⟩))
    · exact hadd (mem_added_iff.mpr (Or.inr ⟨ho, Or.inr ⟨d, hmem, rfl⟩⟩))

end Outline

namespace Resolution

variable {r : Resolution}

theorem occurrencesOf_eq_cons {id : SymbolId} {o : Occurrence} (h : r.first? id = some o) :
    ∃ rest, r.occurrencesOf id = o :: rest ∧
      rest.Pairwise fun a b => a.span.start ≤ b.span.start := by
  rw [first?, ← List.head?_filter] at h
  unfold occurrencesOf
  split
  next hnil => simp [hnil] at h
  next first rest hcons =>
    rw [hcons, List.head?_cons] at h
    obtain rfl := Option.some.inj h
    exact ⟨_, rfl, pairwise_sortBy_le (fun o : Occurrence => o.span.start) rest⟩

/-- What the table of a program says of its names. -/
structure Consistent (t : Tree) (r : Resolution) : Prop where
  inRange : r.InRange
  ids : ∀ (k : Nat) (s : Symbol), r.symbols[k]? = some s → s.id = k
  bound : ∀ b ∈ r.bindings.toList, ∃ s, r.symbols[b.symbol]? = some s ∧ s.scope = b.scope ∧
    s.kind.space = b.space ∧ s.name = b.name
  keys : r.bindings.toList.Pairwise fun b b' =>
    ¬ (b.scope = b'.scope ∧ b.space = b'.space ∧ b.name = b'.name)
  /-- A symbol has its key, or is a duplicate of the one that has it. -/
  duplicates : ∀ s ∈ r.symbols.toList, r.boundAs? s = some s.id ∨
    ∃ first, r.boundAs? s = some first ∧ first < s.id ∧ r.duplicatesOf s.id = [first] ∧
      s.id ∈ r.duplicatesOf first
  container : ∀ s ∈ r.symbols.toList, ∃ home, r.scopes[s.scope]? = some home ∧
    s.container = if home.kind = .type then home.owner else none
  /-- What is declared outside of errors has a symbol. -/
  complete : ∀ i d, t.IsReached i → t.Announces i d → ∃ s ∈ r.symbols.toList,
    ∃ o ∈ r.occurrencesOf s.id, o.kind = .declaration ∧ o.node = d.name
  /-- The first occurrence is the name in the declaration that made the symbol. -/
  declaration : ∀ s ∈ r.symbols.toList, ∃ o rest, r.occurrencesOf s.id = o :: rest ∧
    o.kind = .declaration ∧ (∃ j, t.Makes j ⟨o.node, s.node, s.kind⟩) ∧
    rest.Pairwise fun a b => a.span.start ≤ b.span.start
  text : ∀ s ∈ r.symbols.toList, ∀ o ∈ r.occurrencesOf s.id,
    o.span = t.span o.node ∧ t.text o.node = s.name

end Resolution

namespace Walk

variable {t : Tree} {k : Nat} {s : Symbol}

theorem Sound.getElem?_id {w : Walk} (h : Sound t w) (hs : s ∈ w.symbols.toList) :
    w.symbols[s.id]? = some s := by
  obtain ⟨k, hk⟩ := List.getElem?_of_mem hs
  rw [Array.getElem?_toList] at hk
  rw [h.ids k s hk, hk]

theorem duplicates_upTo (ht : t.IsProgram) (hk : k ≤ t.size)
    (hs : (upTo t k).symbols[s.id]? = some s) :
    (upTo t k).boundAs? s = some s.id ∨ ∃ first, (upTo t k).boundAs? s = some first ∧
      first < s.id ∧ (upTo t k).duplicatesOf s.id = [first] ∧
      s.id ∈ (upTo t k).duplicatesOf first := by
  have hpaired := paired_upTo ht hk
  have hmem : s ∈ (upTo t k).symbols.toList := Array.mem_toList_iff.mpr (Array.mem_of_getElem? hs)
  obtain ⟨first, hbound, rfl | ⟨hlt, hpair⟩⟩ := hpaired.bound s hmem
  · exact Or.inl hbound
  · have hdup := hpaired.pairedWith_eq_singleton (sound_upTo ht hk) hs hbound hpair hlt
    simp only [← (twinned_upTo ht hk).duplicatesOf] at hdup
    exact Or.inr ⟨first, hbound, hlt, hdup⟩

theorem declaration_upTo (ht : t.IsProgram) (hk : k ≤ t.size)
    (hs : (upTo t k).symbols[s.id]? = some s) :
    ∃ o rest, (upTo t k).occurrencesOf s.id = o :: rest ∧ o.kind = .declaration ∧
      (∃ j, t.Makes j ⟨o.node, s.node, s.kind⟩) ∧
      rest.Pairwise fun a b => a.span.start ≤ b.span.start := by
  obtain ⟨o, hfirst, hkind⟩ := (sound_upTo ht hk).named s.id (Array.getElem?_eq_some_iff.mp hs).1
  obtain ⟨rest, hcons, hsorted⟩ := Resolution.occurrencesOf_eq_cons hfirst
  obtain ⟨j, d, hd, hmakes⟩ := rooted_upTo ht hk s.id s hs
  rw [Resolution.declaration?, Resolution.nameNode?, hfirst] at hd
  obtain rfl := Option.some.inj hd
  exact ⟨o, rest, hcons, hkind, ⟨j, hmakes⟩, hsorted⟩

theorem text_upTo (ht : t.IsProgram) (hk : k ≤ t.size) (hs : (upTo t k).symbols[s.id]? = some s)
    {o : Occurrence} (ho : o ∈ (upTo t k).occurrencesOf s.id) :
    o.span = t.span o.node ∧ t.text o.node = s.name := by
  rw [(perm_occurrencesOf _ _).mem_iff, List.mem_filter, beq_iff_eq] at ho
  obtain ⟨s', hs', htext, hspan, -⟩ := (sound_upTo ht hk).occurs o ho.1
  rw [ho.2, hs] at hs'
  obtain rfl := Option.some.inj hs'
  exact ⟨hspan, htext⟩

theorem complete_upTo (ht : t.IsProgram) {i : NodeId} {d : Declaration} (hi : t.IsReached i)
    (hd : t.Announces i d) : ∃ s ∈ (upTo t t.size).symbols.toList,
      ∃ o ∈ (upTo t t.size).occurrencesOf s.id, o.kind = .declaration ∧ o.node = d.name := by
  have hs := sound_upTo ht (Nat.le_refl t.size)
  have hle := Nat.le_of_lt hi.1
  have hr := reached?_eq_scopesAround ht hi (Nat.le_refl _) hle
  rw [← reached?_outline ht hle] at hr
  have hdeclares := Outline.declares_of_announces hi.1 hr hd
  rw [← outline_upTo ht (Nat.le_refl _), hs.declares_iff] at hdeclares
  obtain ⟨o, ho, hkind, hnode⟩ := hdeclares
  obtain ⟨s, hsym, -⟩ := hs.occurs o ho
  refine ⟨s, Array.mem_toList_iff.mpr (Array.mem_of_getElem? hsym), o, ?_, hkind, hnode⟩
  rw [(perm_occurrencesOf _ _).mem_iff, List.mem_filter, hs.ids _ s hsym]
  exact ⟨ho, beq_self_eq_true _⟩

end Walk

/-- Every program has a resolution, and its table is consistent. -/
theorem resolve_consistent (t : Tree) (ht : t.IsProgram) :
    ∃ r, resolve t = .ok r ∧ r.Consistent t := by
  have hk := Nat.le_refl t.size
  have hs := Walk.sound_upTo ht hk
  have hplaced := Walk.placed_upTo ht hk
  refine ⟨_, resolve_eq_ok ht, ?_⟩
  exact {
    inRange := Walk.inRange_upTo ht hk
    ids := hs.ids
    bound := hs.bound
    keys := (Walk.paired_upTo ht hk).keys
    duplicates := fun s hmem => Walk.duplicates_upTo ht hk (hs.getElem?_id hmem)
    container := fun s hmem => by
      have hhome := hplaced.home s hmem
      refine ⟨_, Array.getElem?_eq_getElem hhome, ?_⟩
      rw [hplaced.container s hmem, Resolution.containerOf, Array.getElem?_eq_getElem hhome,
        Option.bind_some]
    complete := fun i d hi hd => Walk.complete_upTo ht hi hd
    declaration := fun s hmem => Walk.declaration_upTo ht hk (hs.getElem?_id hmem)
    text := fun s hmem o ho => Walk.text_upTo ht hk (hs.getElem?_id hmem) ho }

theorem resolve_consistent_sample :
    Sample.tree.IsProgram ∧ ∃ r, resolve Sample.tree = .ok r ∧ r.Consistent Sample.tree :=
  ⟨Sample.tree_isProgram, resolve_consistent Sample.tree Sample.tree_isProgram⟩

end JavaRefactor
