import JavaRefactor.Proofs.Grammar
import JavaRefactor.Rename.Collision

/-! # What a use can see

The collision checks look at a finished resolution and tell by offsets what a use can see; the
walk bound the use when it came to it. The two views agree: the scopes around a use are the
chain of its scope, and whatever had been declared when the walk came to a use is visible
there.
-/

namespace JavaRefactor

namespace Outline

variable {t : Tree} {u : Nat} {e : OutlineEntry}

theorem added_of_isLocal (he : e ∈ (upTo t u).entries) (hl : e.kind.isLocal) :
    e.node < u ∧ (∃ d, t.role e.node = .declares d) ∧ ∃ stack,
      (upTo t e.node).reached? t e.node = some stack ∧
        e ∈ (upTo t e.node).added t stack e.node := by
  obtain ⟨j, hj, stack, hr, hadd⟩ := mem_entries_upTo_iff.mp he
  rcases mem_added_iff.mp hadd with ⟨-, d, hrole, -, rfl⟩ | ⟨-, ⟨d, hown, -, rfl⟩ | ⟨d, hd, rfl⟩⟩
  · obtain rfl : d.name = j := Tree.name_of_role hrole
    exact ⟨hj, ⟨d, hrole⟩, stack, hr, hadd⟩
  · simp [(Tree.ownDeclaration?_eq_some hown).2.2.1] at hl
  · simp [(Tree.hoists_of_mem_hoisted hd).not_isLocal] at hl

theorem lt_of_isLocal (he : e ∈ (upTo t u).entries) (hl : e.kind.isLocal) : e.node < u :=
  (added_of_isLocal he hl).1

theorem mem_entries_of_isLocal {m : Nat} (he : e ∈ (upTo t u).entries) (hl : e.kind.isLocal)
    (hlt : e.node < m) : e ∈ (upTo t m).entries := by
  obtain ⟨-, -, stack, hr, hadd⟩ := added_of_isLocal he hl
  exact mem_entries_upTo_iff.mpr ⟨_, hlt, stack, hr, hadd⟩

theorem bound?_eq_none_iff {o : Outline} {scope : ScopeId} {space : Namespace} {name : String} :
    o.bound? t scope space name = none ↔ ∀ e ∈ o.entries, e.scope = scope →
      e.kind.space = space → t.text e.node ≠ name := by
  simp [bound?, List.find?_eq_none]

end Outline

namespace Walk

variable {t : Tree} {w : Walk} {u c : Nat} {stack post : List ScopeId} {target : Target}
  {space : Namespace} {name : String} {x : NodeId} {id : SymbolId}

theorem Linked.chain {r : Resolution} (pre : List ScopeId)
    (h : Linked r.scopes (pre ++ c :: post)) : r.chain c = c :: post := by
  induction pre with
  | nil =>
    induction post generalizing c with
    | nil =>
      obtain ⟨⟨scope, hs, he⟩, -⟩ := h
      rw [Resolution.chain]
      simp [Resolution.parent?, hs, he]
    | cons p post ih =>
      obtain ⟨⟨scope, hs, he⟩, hlt, hl⟩ := h
      rw [Resolution.chain]
      simp [Resolution.parent?, hs, he, hlt p List.mem_cons_self, ih hl]
  | cons a pre ih => exact ih h.2.2

theorem Linked.nodup {scopes : Array Scope} : ∀ {stack : List ScopeId}, Linked scopes stack →
    stack.Nodup
  | [], _ => List.nodup_nil
  | _ :: _, ⟨_, hlt, hl⟩ => List.nodup_cons.mpr ⟨fun hm => Nat.lt_irrefl _ (hlt _ hm), hl.nodup⟩

theorem UseAt.linked (hu : UseAt t u stack target) (ht : t.IsProgram) :
    stack ≠ [] ∧ Linked (upTo t t.size).scopes stack := by
  have hle := Nat.le_of_lt hu.lt
  rcases (framed_upTo ht hle).reached ht.toInPreorder hu.lt hu.reached with ⟨rfl, -⟩ | ⟨hne, hl⟩
  · have := hu.role
    simp [Tree.role, ht.program] at this
  · exact ⟨hne, hl.mono (upTo_extends ht hle (Nat.le_refl _)).scopes⟩

theorem UseAt.chain_current (hu : UseAt t u stack target) (ht : t.IsProgram) :
    (upTo t t.size).chain (current stack) = stack := by
  obtain ⟨hne, hl⟩ := hu.linked ht
  cases stack with
  | nil => exact absurd rfl hne
  | cons c post => exact Linked.chain [] hl

theorem UseAt.encloses_iff (hu : UseAt t u stack target) (ht : t.IsProgram) :
    (upTo t t.size).encloses c (current stack) ↔ c ∈ stack := by
  rw [Resolution.encloses, hu.chain_current ht, List.contains_iff_mem]

theorem UseAt.isName (hu : UseAt t u stack target) : t.IsName u :=
  Tree.isName_of_role (by simp [hu.role])

theorem Sound.declarationSpan_eq (h : Sound t w) (hx : w.nameNode? id = some x) :
    w.declarationSpan id = t.span x := by
  obtain ⟨o, ho, rfl⟩ := Option.map_eq_some_iff.mp hx
  obtain ⟨-, -, -, hspan, -⟩ := h.occurs o (first?_eq_some ho).1
  have hhead : (w.occurrences.toList.filter fun o => o.symbol == id).head? = some o := by
    rw [List.head?_filter]
    exact ho
  unfold Resolution.declarationSpan Resolution.occurrencesOf
  cases hf : w.occurrences.toList.filter fun o => o.symbol == id with
  | nil => simp [hf] at hhead
  | cons first rest =>
    obtain rfl : first = o := by simpa [hf] using hhead
    simpa using hspan

theorem exists_declaration_of_entry (ht : t.IsProgram) {k : Nat} (hk : k ≤ t.size)
    {e : OutlineEntry} (he : e ∈ (Outline.upTo t k).entries) :
    ∃ o ∈ (upTo t t.size).occurrences.toList, o.kind = .declaration ∧
      ∃ s, (upTo t t.size).symbols[o.symbol]? = some s ∧ e = ⟨s.scope, s.kind, o.node⟩ ∧
        t.text o.node = s.name := by
  have he := (Outline.entries_mono hk).subset he
  rw [← outline_upTo ht (Nat.le_refl _)] at he
  obtain ⟨o, ho, hkind, s, hs, rfl⟩ := mem_entries.mp he
  obtain ⟨s', hs', htext, -, hscope⟩ := (sound_upTo ht (Nat.le_refl _)).occurs o ho
  obtain rfl := Option.some.inj (hs.symm.trans hs')
  exact ⟨o, ho, hkind, s, hs, by rw [hscope hkind], htext⟩

def Names (w : Walk) (id : SymbolId) (x : NodeId) : Prop :=
  ∃ o ∈ w.occurrences.toList, o.symbol = id ∧ o.node = x

/-- The symbol has been declared when the walk comes to the node `u`. -/
def KnownAt (t : Tree) (s : Symbol) (u : Nat) : Prop := (upTo t u).symbols[s.id]? = some s

theorem KnownAt.entry {s : Symbol} (h : KnownAt t s u) (ht : t.IsProgram) (hu : u ≤ t.size) :
    ∃ x, (upTo t t.size).nameNode? s.id = some x ∧
      (upTo t u).first? s.id = some ⟨s.id, x, t.span x, .declaration, s.scope⟩ := by
  have hsound := sound_upTo ht hu
  obtain ⟨o, ho, hkind⟩ := hsound.named s.id (Array.getElem?_eq_some_iff.mp h).1
  obtain ⟨hmem, hid⟩ := first?_eq_some ho
  obtain ⟨s', hs', -, hspan, hscope⟩ := hsound.occurs o hmem
  rw [hid, h] at hs'
  obtain rfl := Option.some.inj hs'
  refine ⟨o.node, ?_, ?_⟩
  · rw [hsound.nameNode?_eq (upTo_extends ht hu (Nat.le_refl _)).occurrences h,
      Resolution.nameNode?, ho]
    rfl
  · rw [ho, ← hid, ← hspan, ← hkind, ← hscope hkind]

theorem KnownAt.mem_entries {s : Symbol} (h : KnownAt t s u) (ht : t.IsProgram) (hu : u ≤ t.size)
    (hx : (upTo t t.size).nameNode? s.id = some x) :
    (⟨s.scope, s.kind, x⟩ : OutlineEntry) ∈ (Outline.upTo t u).entries := by
  obtain ⟨y, hy, hfirst⟩ := h.entry ht hu
  obtain rfl := Option.some.inj (hx.symm.trans hy)
  rw [← outline_upTo ht hu]
  exact Walk.mem_entries.mpr ⟨_, (first?_eq_some hfirst).1, rfl, s, h, rfl⟩

theorem KnownAt.bound?_ne_none {s : Symbol} (h : KnownAt t s u) (ht : t.IsProgram)
    (hu : u ≤ t.size) : (Outline.upTo t u).bound? t s.scope s.kind.space s.name ≠ none := by
  obtain ⟨x, hx, hfirst⟩ := h.entry ht hu
  obtain ⟨s', hs', htext, -⟩ := (sound_upTo ht hu).occurs _ (first?_eq_some hfirst).1
  obtain rfl := Option.some.inj (hs'.symm.trans h)
  intro hnone
  exact Outline.bound?_eq_none_iff.mp hnone _ (h.mem_entries ht hu hx) rfl rfl htext

/-- What has been declared when the walk comes to a use is visible at the use. -/
theorem KnownAt.visibleAt {s : Symbol} (h : KnownAt t s u) (ht : t.Separated) (hu : u < t.size) :
    (upTo t t.size).visibleAt s (t.span u).start = true := by
  have hle := Nat.le_of_lt hu
  obtain ⟨x, hx, hfirst⟩ := h.entry ht.toIsProgram hle
  rw [Resolution.visibleAt, (sound_upTo ht.toIsProgram (Nat.le_refl _)).declarationSpan_eq hx]
  by_cases hlocal : s.kind = .localVariable
  · have hlt : x < u := Outline.lt_of_isLocal (h.mem_entries ht.toIsProgram hle hx)
      (by simp [hlocal, SymbolKind.isLocal])
    have hname := ((tidy_upTo ht.toIsProgram hle).traced _ (first?_eq_some hfirst).1).isName
    have hstart := ht.start_lt_of_lt hname hlt hu
    simp [Nat.le_of_lt hstart]
  · simp [hlocal]

theorem exists_boundIn? (ht : t.IsProgram) {k : Nat} (hk : k ≤ t.size)
    (hb : (Outline.upTo t k).bound? t c space name ≠ none) :
    ∃ id, (upTo t k).boundIn? c space name = some id := by
  have hagree := (keyed_upTo ht hk c space name).isSome_eq
  rw [outline_upTo ht hk, Option.isSome_iff_ne_none.mpr hb] at hagree
  exact Option.isSome_iff_exists.mp hagree

theorem boundIn?_mono (ht : t.IsProgram) {k : Nat} (hk : k ≤ t.size)
    (h : (upTo t k).boundIn? c space name = some id) :
    (upTo t t.size).boundIn? c space name = some id := by
  obtain ⟨b, hf, hb⟩ := Option.map_eq_some_iff.mp h
  obtain ⟨l, hl⟩ := (upTo_extends ht hk (Nat.le_refl _)).bindings
  rw [Resolution.boundIn?, ← Array.find?_toList, ← hl, List.find?_append, Array.find?_toList, hf,
    Option.some_or, Option.map_some, hb]

theorem UseAt.exists_symbol (hu : UseAt t u stack target) (ht : t.WellFormed)
    (hb : (Outline.upTo t u).bound? t c space name ≠ none) :
    ∃ b, (upTo t t.size).boundIn? c space name = some b.id ∧
      (upTo t t.size).symbols[b.id]? = some b ∧
      (upTo t t.size).visibleAt b (t.span u).start = true := by
  have hle := Nat.le_of_lt hu.lt
  have hext := upTo_extends ht.toIsProgram hle (Nat.le_refl _)
  have hsound := sound_upTo ht.toIsProgram hle
  obtain ⟨id, hid⟩ := exists_boundIn? ht.toIsProgram hle hb
  obtain ⟨b, hsym, -, -, -⟩ := hsound.boundIn? hid
  obtain rfl := hsound.ids id b hsym
  exact ⟨b, boundIn?_mono ht.toIsProgram hle hid, getElem?_mono hext.symbols hsym,
    KnownAt.visibleAt hsym ht.toSeparated hu.lt⟩

theorem UseAt.isThisQualified_eq (hu : UseAt t u stack target) (ht : t.WellFormed)
    (hg : t.Grammatical) (hmember : ∀ space, target ≠ .member space) :
    t.isThisQualified (t.span u) = false := by
  unfold Tree.isThisQualified
  simp only [ht.nodeAt_start hu.isName]
  split
  next => rfl
  next p hp =>
    by_contra hthis
    simp only [Bool.not_eq_false, Bool.and_eq_true, Bool.or_eq_true, beq_iff_eq,
      bne_iff_ne] at hthis
    obtain ⟨⟨hkp, hobject⟩, hon⟩ := hthis
    have hfield : t.kind u = .identifier ∧ t.kind p = .fieldAccess ∧ t.field u = some "field" ∨
        t.kind u = .identifier ∧ t.kind p = .methodInvocation ∧ t.field u = some "name" := by
      have hku : t.kind u = .identifier ∨ t.kind u = .typeIdentifier := by
        have hrole := hu.role
        unfold Tree.role at hrole
        split at hrole
        next hk => exact Or.inl hk
        next hk => exact Or.inr hk
        next => simp at hrole
      rcases hkp with hkp | hkp
      · obtain ⟨hno, hf⟩ := hg.fieldAccess u p hp hkp
        have hku := hku.resolve_right hno
        exact Or.inl ⟨hku, hkp, (hf hku).resolve_left hobject⟩
      · obtain ⟨hno, hf⟩ := hg.methodInvocation u p hp hkp
        have hku := hku.resolve_right hno
        exact Or.inr ⟨hku, hkp, (hf hku).resolve_left hobject⟩
    have hrole := hu.role
    rcases hfield with ⟨hku, hkp, hf⟩ | ⟨hku, hkp, hf⟩
    · simp [Tree.role, hku, Tree.identifierRole, hp, Tree.localDeclaration?, hkp, Tree.useRole, hf,
        hon] at hrole
      exact hmember .var hrole.symm
    · have hsome : ∃ object, t.childByField? p "object" = some object := by
        unfold Tree.isOnThis at hon
        split at hon
        next => simp at hon
        next object ho => exact ⟨object, ho⟩
      obtain ⟨object, ho⟩ := hsome
      simp [Tree.role, hku, Tree.identifierRole, hp, Tree.localDeclaration?, hkp, Tree.useRole, hf,
        hon, ho] at hrole
      exact hmember .method hrole.symm

end Walk

end JavaRefactor
