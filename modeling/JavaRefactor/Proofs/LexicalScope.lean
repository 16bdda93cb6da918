import JavaRefactor.Proofs.Account
import JavaRefactor.Proofs.Visibility
import Mathlib.Data.List.Find

/-! # Lexical scoping

A name is in force at a place if its scope hoists it, or if it was declared before. A use means
what the first scope around it binds in force. This rule is stated over the tree and the finished
resolution alone, and the walk, which binds a use by the table that it has when it comes there,
follows it.
-/

namespace JavaRefactor

namespace Resolution

def declaration? (r : Resolution) (s : Symbol) : Option Declaration :=
  (r.nameNode? s.id).map fun name => ⟨name, s.node, s.kind⟩

/-- The scope of a symbol declares it as soon as it is entered. -/
def isHoisted (r : Resolution) (t : Tree) (s : Symbol) (d : Declaration) : Bool :=
  r.scopes[s.scope]?.any fun home => (t.hoisted home.node).contains d

/-- The symbol is known at a place: it is hoisted, or a variable whose name stands before, or a
type or method whose declaration begins before. -/
def isRegistered (r : Resolution) (t : Tree) (u : NodeId) (id : SymbolId) : Bool :=
  r.symbols[id]?.any fun s => (r.declaration? s).any fun d =>
    r.isHoisted t s d || if s.kind.space = .var then d.name < u else d.node < u

/-- What a scope binds a name to, as far as it is known at a place. -/
def inForce? (r : Resolution) (t : Tree) (u : NodeId) (scope : ScopeId) (space : Namespace) :
    Option SymbolId :=
  (r.boundIn? scope space (t.text u)).filter (r.isRegistered t u)

def nearest? (r : Resolution) (t : Tree) (u : NodeId) (space : Namespace) : Option SymbolId :=
  (r.scopesAround t u).findSome? fun scope => r.inForce? t u scope space

def meaning? (r : Resolution) (t : Tree) (u : NodeId) : Target → Option SymbolId
  | .lexical space => r.nearest? t u space
  | .expression => (r.nearest? t u .var).or (r.nearest? t u .type)
  | .member space =>
    ((r.scopesAround t u).find? fun scope => r.scopeKind? scope == some .type).bind fun scope =>
      r.inForce? t u scope space

end Resolution

namespace Walk

variable {t : Tree} {w w' : Walk} {u i j k c : Nat} {stack : List ScopeId} {target : Target}
  {d : Declaration} {s : Symbol} {id : SymbolId} {space : Namespace} {name : String}

def Rooted (t : Tree) (w : Walk) : Prop :=
  ∀ (id : SymbolId) (s : Symbol), w.symbols[id]? = some s →
    ∃ j d, w.declaration? s = some d ∧ t.Makes j d

theorem Rooted.congr (h : Rooted t w) (hsym : w'.symbols = w.symbols)
    (hocc : w'.occurrences = w.occurrences) : Rooted t w' := by
  intro id s hs
  rw [hsym] at hs
  simpa [Resolution.declaration?, Resolution.nameNode?, Resolution.first?, hocc] using h id s hs

theorem Sound.declaration?_eq (hw : Sound t w) {o : Occurrence}
    (hocc : w'.occurrences = w.occurrences.push o) (hs : w.symbols[id]? = some s) :
    w'.declaration? s = w.declaration? s := by
  have hid := hw.ids id s hs
  rw [Resolution.declaration?, hw.nameNode?_eq (by simp [hocc]) (hid ▸ hs),
    ← Resolution.declaration?]

theorem Rooted.push (h : Rooted t w) (hw : Sound t w) (hsym : w'.symbols = w.symbols)
    {o : Occurrence} (hocc : w'.occurrences = w.occurrences.push o) : Rooted t w' := by
  intro id s hs
  rw [hsym] at hs
  obtain ⟨j, d, hd, hmake⟩ := h id s hs
  exact ⟨j, d, (hw.declaration?_eq hocc hs).trans hd, hmake⟩

theorem Rooted.declared (h : Rooted t w) (hw : Sound t w) (hd : Declares t i w stack d)
    (hd' : Declared t stack w d w') : Rooted t w' := by
  have hw' := hw.declared hd'
  have grow {container : Option SymbolId}
      (hsym : w'.symbols = w.symbols.push (newSymbol t stack d w.symbols.size container))
      (hocc : w'.occurrences = w.occurrences.push (declaredAs t stack d w.symbols.size)) :
      Rooted t w' := by
    intro id s hs
    rw [hsym, Array.getElem?_push] at hs
    split at hs
    next =>
      obtain rfl := Option.some.inj hs
      refine ⟨i, d, ?_, hd.makes⟩
      have hnone := hw.first?_size
      rw [Resolution.first?] at hnone
      simp [Resolution.declaration?, Resolution.nameNode?, Resolution.first?, hocc, newSymbol,
        declaredAs, hnone]
    next =>
      obtain ⟨j, d', hd', hmake⟩ := h id s hs
      exact ⟨j, d', (hw.declaration?_eq hocc hs).trans hd', hmake⟩
  cases hd' with
  | overload => exact h.push hw rfl rfl
  | duplicate => exact grow rfl rfl
  | fresh => exact grow rfl rfl

theorem rooted_upTo (ht : t.IsProgram) (hk : k ≤ t.size) : Rooted t (upTo t k) := by
  refine upTo_preserves ht hk ?_ (fun _ _ _ _ _ h => h.congr rfl rfl)
    (fun _ _ h => h.congr rfl rfl) (fun hs hd hd' h => h.declared hs hd hd')
    (fun hs _ h => h.push hs rfl rfl)
  intro id s hs
  simp at hs

theorem size_kinds (ht : t.IsProgram) (hk : k ≤ t.size) :
    (Outline.upTo t k).kinds.size = (upTo t k).scopes.size := by
  rw [← outline_upTo ht hk]
  simp [outline]

/-- How a symbol came to be declared by one of the first `k` visits: as a variable at its name,
as a type or method at its node, or by the node that opened its scope. -/
theorem exists_origin (ht : t.IsProgram) (hk : k ≤ t.size)
    (hs : (upTo t t.size).symbols[id]? = some s)
    (hd : (upTo t t.size).declaration? s = some d)
    (he : ⟨s.scope, s.kind, d.name⟩ ∈ (Outline.upTo t k).entries) :
    ∃ j < k, (∀ m ≤ t.size, j < m → ⟨s.scope, s.kind, d.name⟩ ∈ (Outline.upTo t m).entries) ∧
      (s.kind.space = .var ∧ d.name = j ∨ s.kind.space ≠ .var ∧ d.node = j ∨
        d ∈ t.hoisted j ∧ (upTo t t.size).openedBy? j = some s.scope) := by
  obtain ⟨j, hj, stack, hr, hadd⟩ := Outline.mem_entries_upTo_iff.mp he
  refine ⟨j, hj, fun m _ hjm => Outline.mem_entries_upTo_iff.mpr ⟨j, hjm, stack, hr, hadd⟩, ?_⟩
  obtain ⟨i, d', hd', hmake⟩ := rooted_upTo ht (Nat.le_refl _) id s hs
  obtain rfl := Option.some.inj (hd.symm.trans hd')
  have hkind : d.kind = s.kind := by
    obtain ⟨name, -, rfl⟩ := Option.map_eq_some_iff.mp hd
    rfl
  have hparent (hl : s.kind.isLocal = false) : t.parent? d.name = some d.node :=
    hmake.name_parent ht.toInPreorder (hkind ▸ hl)
  rcases Outline.mem_added_iff.mp hadd with
    ⟨-, e, hrole, -, he⟩ | ⟨ho, ⟨e, hown, -, he⟩ | ⟨e, hmem, he⟩⟩
  · obtain ⟨-, hkind', hname⟩ := OutlineEntry.mk.inj he
    obtain ⟨-, p, -, hlocal⟩ := Tree.role_declares hrole
    have hl := (Tree.localDeclaration?_name hlocal).2.1
    refine Or.inl ⟨?_, hname.trans (Tree.name_of_role hrole)⟩
    rw [hkind']
    cases he : e.kind <;> simp [he, SymbolKind.isLocal] at hl <;> rfl
  · obtain ⟨-, hkind', hname⟩ := OutlineEntry.mk.inj he
    have hl : s.kind.isLocal = false := hkind' ▸ (Tree.ownDeclaration?_eq_some hown).2.2.1
    have hp := hparent hl
    rw [hname, Outline.parent_of_own ht.toInPreorder hown] at hp
    refine Or.inr (Or.inl ⟨?_, (Option.some.inj hp).symm⟩)
    rw [hkind']
    rcases Tree.kind_of_ownDeclaration? hown with ⟨-, hk⟩ | ⟨-, hk⟩ <;> simp [hk, SymbolKind.space]
  · obtain ⟨hscope, hkind', hname⟩ := OutlineEntry.mk.inj he
    have hh := Tree.hoists_of_mem_hoisted hmem
    have hp := hparent (hkind' ▸ hh.not_isLocal)
    rw [hname, hh.name_parent ht.toInPreorder] at hp
    obtain rfl : e = d := by
      obtain ⟨ename, enode, ekind⟩ := e
      obtain ⟨dname, dnode, dkind⟩ := d
      simp only at hkind hkind' hname hp
      rw [hname, hkind, hkind', Option.some.inj hp]
    rw [reached?_outline ht (by lia)] at hr
    refine Or.inr (Or.inr ⟨hmem, ?_⟩)
    rw [hscope, size_kinds ht (by lia)]
    exact openedBy?_of_reached ht (by lia) (Nat.le_refl _) hr ho

theorem mem_entries_of_hoisted (ht : t.IsProgram) (hu : t.IsReached u) (hi : i ∈ t.ancestors u)
    (hc : (upTo t t.size).openedBy? i = some c) (hd : d ∈ t.hoisted i) :
    ⟨c, d.kind, d.name⟩ ∈ (Outline.upTo t u).entries := by
  have hlt := ht.lt_of_mem_ancestors hi
  have hle := Nat.le_of_lt (Nat.lt_trans hlt hu.1)
  have hr := reached?_eq_scopesAround ht (hu.of_mem_ancestors ht.toInPreorder hi)
    (Nat.le_refl _) hle
  have ho := opens?_of_openedBy? hc
  rw [openedBy?_of_reached ht (Nat.lt_trans hlt hu.1) (Nat.le_refl _) hr ho] at hc
  refine Outline.mem_entries_upTo_iff.mpr ⟨i, hlt, _, (reached?_outline ht hle).trans hr, ?_⟩
  refine Outline.mem_added_iff.mpr (Or.inr ⟨ho, Or.inr ⟨d, hd, ?_⟩⟩)
  rw [size_kinds ht hle, Option.some.inj hc]

theorem mem_ancestors_of_openedBy? (hi : (upTo t t.size).openedBy? i = some c)
    (hc : c ∈ (upTo t t.size).scopesAround t u) : i ∈ t.ancestors u := by
  obtain ⟨a, ha, hac⟩ := List.mem_filterMap.mp hc
  obtain ⟨s, hs, rfl⟩ := openedBy?_eq_some_iff.mp hi
  obtain ⟨s', hs', rfl⟩ := openedBy?_eq_some_iff.mp hac
  rwa [Option.some.inj (hs.symm.trans hs')]

theorem isRegistered_iff (hs : (upTo t t.size).symbols[id]? = some s)
    (hd : (upTo t t.size).declaration? s = some d) : (upTo t t.size).isRegistered t u id ↔
      (∃ i, (upTo t t.size).openedBy? i = some s.scope ∧ d ∈ t.hoisted i) ∨
        s.kind.space = .var ∧ d.name < u ∨ s.kind.space ≠ .var ∧ d.node < u := by
  simp only [Resolution.isRegistered, hs, hd, Option.any_some, Bool.or_eq_true,
    Resolution.isHoisted]
  refine or_congr ?_ ?_
  · simp only [openedBy?_eq_some_iff]
    cases (upTo t t.size).scopes[s.scope]? <;> simp
  · split <;> simp_all

/-- A symbol of a scope around a place is registered there just if it has been declared when the
walk comes to the place. -/
theorem isRegistered_iff_mem_entries (ht : t.IsProgram) (hu : t.IsReached u)
    (hs : (upTo t t.size).symbols[id]? = some s) (hd : (upTo t t.size).declaration? s = some d)
    (hc : s.scope ∈ (upTo t t.size).scopesAround t u) : (upTo t t.size).isRegistered t u id ↔
      ⟨s.scope, s.kind, d.name⟩ ∈ (Outline.upTo t u).entries := by
  obtain ⟨x, hx, hdx⟩ := Option.map_eq_some_iff.mp hd
  rw [isRegistered_iff hs hd]
  constructor
  · rintro (⟨i, hi, hmem⟩ | hbefore)
    · have := mem_entries_of_hoisted ht hu (mem_ancestors_of_openedBy? hi hc) hi hmem
      rwa [← hdx] at this ⊢
    · have hid : s.id = id := (sound_upTo ht (Nat.le_refl _)).ids id s hs
      have hknown : KnownAt t s t.size := by rw [KnownAt, hid, hs]
      obtain ⟨j, -, hlate, hcase⟩ := exists_origin ht (Nat.le_refl _) hs hd
        (by rw [← hdx]; exact hknown.mem_entries ht (Nat.le_refl _) hx)
      refine hlate u (Nat.le_of_lt hu.1) ?_
      rcases hcase with ⟨hvar, rfl⟩ | ⟨hvar, rfl⟩ | ⟨-, hopen⟩
      · simpa [hvar] using hbefore
      · simpa [hvar] using hbefore
      · exact ht.lt_of_mem_ancestors (mem_ancestors_of_openedBy? hopen hc)
  · intro he
    obtain ⟨j, hj, -, ⟨hvar, rfl⟩ | ⟨hvar, rfl⟩ | ⟨hmem, hopen⟩⟩ :=
      exists_origin ht (Nat.le_of_lt hu.1) hs hd he
    · exact Or.inr (Or.inl ⟨hvar, hj⟩)
    · exact Or.inr (Or.inr ⟨hvar, hj⟩)
    · exact Or.inl ⟨j, hopen, hmem⟩

theorem exists_declaration_of_symbol (ht : t.IsProgram)
    (hs : (upTo t t.size).symbols[id]? = some s) :
    ∃ d, (upTo t t.size).declaration? s = some d ∧ t.text d.name = s.name := by
  have hsound := sound_upTo ht (Nat.le_refl t.size)
  obtain ⟨-, d, hd, -⟩ := rooted_upTo ht (Nat.le_refl _) id s hs
  obtain ⟨x, hx, rfl⟩ := Option.map_eq_some_iff.mp hd
  obtain ⟨o, ho, rfl⟩ := Option.map_eq_some_iff.mp hx
  obtain ⟨hmem, hid⟩ := first?_eq_some ho
  obtain ⟨s', hs', htext, -⟩ := hsound.occurs o hmem
  rw [hid, hsound.ids id s hs, hs] at hs'
  exact ⟨_, hd, htext.trans (congrArg Symbol.name (Option.some.inj hs').symm)⟩

/-- What a scope around a place binds when the walk comes there is what it binds in force. -/
theorem boundIn?_eq_inForce? (ht : t.IsProgram) (hu : t.IsReached u)
    (hc : c ∈ (upTo t t.size).scopesAround t u) :
    (upTo t u).boundIn? c space (t.text u) = (upTo t t.size).inForce? t u c space := by
  have hle := Nat.le_of_lt hu.1
  rw [Resolution.inForce?]
  cases hb : (upTo t u).boundIn? c space (t.text u) with
  | some id =>
    obtain ⟨s, hs, rfl, -, -⟩ := (sound_upTo ht hle).boundIn? hb
    have hs' := getElem?_mono (upTo_extends ht hle (Nat.le_refl _)).symbols hs
    obtain ⟨d, hd, -⟩ := exists_declaration_of_symbol ht hs'
    obtain ⟨x, hx, rfl⟩ := Option.map_eq_some_iff.mp hd
    have hknown : KnownAt t s u := by rw [KnownAt, (sound_upTo ht hle).ids id s hs, hs]
    have hreg := (isRegistered_iff_mem_entries ht hu hs' hd hc).mpr (hknown.mem_entries ht hle hx)
    rw [boundIn?_mono ht hle hb, Option.filter_some, if_pos hreg]
  | none =>
    cases hf : (upTo t t.size).boundIn? c space (t.text u) with
    | none => rfl
    | some id =>
      obtain ⟨s, hs, rfl, rfl, hname⟩ := (sound_upTo ht (Nat.le_refl _)).boundIn? hf
      obtain ⟨d, hd, htext⟩ := exists_declaration_of_symbol ht hs
      rw [Option.filter_some, if_neg]
      intro hreg
      have hbound := keyed_upTo ht hle s.scope s.kind.space (t.text u)
      rw [hb, agrees_none_iff, outline_upTo ht hle] at hbound
      exact Outline.bound?_eq_none_iff.mp hbound _
        ((isRegistered_iff_mem_entries ht hu hs hd hc).mp hreg) rfl rfl (htext.trans hname)

theorem findSome?_congr {l : List ScopeId} {f g : ScopeId → Option SymbolId}
    (h : ∀ c ∈ l, f c = g c) : l.findSome? f = l.findSome? g := by
  induction l with
  | nil => rfl
  | cons c l ih =>
    rw [List.findSome?_cons, List.findSome?_cons, h c List.mem_cons_self,
      ih fun a ha => h a (List.mem_cons_of_mem _ ha)]

theorem lookup?_eq_nearest? (ht : t.IsProgram) (hu : t.IsReached u) :
    (upTo t u).lookup? ((upTo t t.size).scopesAround t u) space (t.text u) =
      (upTo t t.size).nearest? t u space :=
  findSome?_congr fun _ hc => boundIn?_eq_inForce? ht hu hc

theorem scopeKind?_eq (ht : t.IsProgram) (hu : t.IsReached u)
    (hc : c ∈ (upTo t t.size).scopesAround t u) :
    (upTo t u).scopeKind? c = (upTo t t.size).scopeKind? c := by
  have hle := Nat.le_of_lt hu.1
  have hr := reached?_eq_scopesAround ht hu hle (Nat.le_refl _)
  have hlt : c < (upTo t u).scopes.size := by
    rcases (framed_upTo ht hle).reached ht.toInPreorder hu.1 hr with ⟨-, hnil⟩ | ⟨-, hl⟩
    · simp [hnil] at hc
    · exact hl.lt c hc
  have hs : (upTo t u).scopes[c]? = some (upTo t u).scopes[c] := by simp [hlt]
  have hs' := getElem?_mono (upTo_extends ht hle (Nat.le_refl _)).scopes hs
  rw [Resolution.scopeKind?, Resolution.scopeKind?, hs, hs']

theorem find?_eq_meaning? (ht : t.IsProgram) (hu : t.IsReached u) :
    (upTo t u).find? ((upTo t t.size).scopesAround t u) (t.text u) target =
      (upTo t t.size).meaning? t u target := by
  cases target with
  | lexical space => exact lookup?_eq_nearest? ht hu
  | expression =>
    rw [find?, lookup?_eq_nearest? ht hu, lookup?_eq_nearest? ht hu, Resolution.meaning?]
  | member space =>
    have htype : (upTo t u).innermostType? ((upTo t t.size).scopesAround t u) =
        ((upTo t t.size).scopesAround t u).find? fun c =>
          (upTo t t.size).scopeKind? c == some .type := by
      refine List.find?_congr fun c hc => ?_
      rw [← scopeKind?_eq ht hu hc, Resolution.scopeKind?]
    rw [find?, htype, Resolution.meaning?]
    refine Option.bind_congr fun c hc => ?_
    exact boundIn?_eq_inForce? ht hu (List.mem_of_find?_eq_some hc)

theorem scopeKind?_file (ht : t.IsProgram) (h0 : 0 < t.size) :
    (upTo t t.size).scopeKind? 0 = some .file := by
  have hroot : t.IsReached Tree.root :=
    ⟨h0, fun a ha _ => by simpa [ht.ancestors_root] using ha⟩
  have hr := reached?_eq_scopesAround ht hroot (Nat.le_refl _) (Nat.zero_le _)
  have hs := visit_scopes_of_opens hr (opens?_root ht)
  have hfirst : (upTo t 1).scopes[0]?.map (·.kind) = some .file := by
    rw [upTo_succ, ← Tree.root.eq_1, hs]
    simp [Tree.root, upTo_zero, newScope]
  obtain ⟨s, hs, hk⟩ := Option.map_eq_some_iff.mp hfirst
  rw [Resolution.scopeKind?, getElem?_mono (upTo_extends ht h0 (Nat.le_refl _)).scopes hs, ← hk]
  rfl

theorem useAt_of_refers (ht : t.IsProgram) (hu : t.IsReached u) (hrefers : t.Refers u target)
    (hfree : ∀ o ∈ (upTo t t.size).occurrencesAt u, o.kind = .reference) :
    UseAt t u ((upTo t t.size).scopesAround t u) target := by
  have hle := Nat.le_of_lt hu.1
  have hr := reached?_eq_scopesAround ht hu hle (Nat.le_refl _)
  refine ⟨hu.1, Tree.role_eq_uses_iff.mpr hrefers, hr, ?_⟩
  rw [(framed_upTo ht hle).isSettled_eq_false_iff (Nat.le_refl u)]
  rintro o ho rfl
  have hfinal := (upTo_extends ht hle (Nat.le_refl _)).occurrences.subset ho
  have hkind := hfree o (Resolution.mem_occurrencesAt.mpr ⟨hfinal, rfl⟩)
  exact Nat.lt_irrefl _ ((mem_references_iff ht hle hkind).mp ho).1

end Walk

/-- The walk follows the rule of lexical scoping: a use is a reference to what it means where it
stands, and is reported as unresolved just if it means nothing. -/
theorem resolve_lexically {t : Tree} (ht : t.IsProgram) :
    ∃ r, resolve t = .ok r ∧ ∀ u target, t.Refers u target → t.IsReached u →
      (∀ o ∈ r.occurrencesAt u, o.kind = .reference) →
      ∃ scope, r.chain scope = r.scopesAround t u ∧
        (r.chain scope).getLast?.bind r.scopeKind? = some .file ∧
        (∀ id, r.meaning? t u target = some id →
          r.occurrencesAt u = [⟨id, u, t.span u, .reference, scope⟩] ∧ r.reportsAt u = []) ∧
        (r.meaning? t u target = none →
          r.occurrencesAt u = [] ∧ r.reportsAt u =
            [⟨t.text u, u, t.span u, scope, target.space, target == .expression⟩]) := by
  refine ⟨_, resolve_eq_ok ht, fun u target hrefers hu hfree => ?_⟩
  have huse := Walk.useAt_of_refers ht hu hrefers hfree
  have hpos : 0 < u := by
    apply Nat.pos_of_ne_zero
    rintro rfl
    have hk : t.kind 0 = .program := ht.program
    have hrole := huse.role
    simp [Tree.role, hk] at hrole
  have hchain := huse.chain_current ht
  obtain ⟨hocc, hrep⟩ := huse.recorded ht
  rw [Walk.find?_eq_meaning? ht hu] at hocc hrep
  refine ⟨_, hchain, ?_, fun id hm => ?_, fun hm => ?_⟩
  · rw [hchain, Walk.getLast?_scopesAround ht hu hpos]
    exact Walk.scopeKind?_file ht (Nat.lt_trans hpos hu.1)
  · rw [hocc, hrep, hm]
    exact ⟨rfl, rfl⟩
  · rw [hocc, hrep, hm]
    exact ⟨rfl, rfl⟩

/-- In the sample no variable has the name of the class, and where the name stands as an
expression it means the class. -/
theorem resolve_lexically_sample :
    ∃ r, resolve Sample.tree = .ok r ∧ r.meaning? Sample.tree 27 .expression = some 0 ∧
      ∃ scope, r.chain scope = r.scopesAround Sample.tree 27 ∧
        r.occurrencesAt 27 = [⟨0, 27, ⟨37, 40⟩, .reference, scope⟩] ∧ r.reportsAt 27 = [] := by
  obtain ⟨r, hr, hall⟩ := resolve_lexically Sample.tree_isProgram
  obtain rfl := Except.ok.inj ((resolve_eq_ok Sample.tree_isProgram).symm.trans hr)
  have hvalues :
      (Walk.upTo Sample.tree Sample.tree.size).meaning? Sample.tree 27 .expression = some 0 ∧
      ∀ o ∈ (Walk.upTo Sample.tree Sample.tree.size).occurrencesAt 27, o.kind = .reference := by
    decide +kernel
  obtain ⟨scope, hchain, -, hbound, -⟩ := hall 27 .expression
    (Tree.role_eq_uses_iff.mp (by decide +kernel)) (by decide +kernel) hvalues.2
  have hspan : Sample.tree.span 27 = ⟨37, 40⟩ := by decide +kernel
  rw [hspan] at hbound
  exact ⟨_, hr, hvalues.1, scope, hchain, hbound 0 hvalues.1⟩

end JavaRefactor
