import JavaRefactor.Proofs.Rebinding

/-! # Renames keep bindings

A rename that passes the checks keeps what the uses in the namespace of the symbol are bound to,
and binds no use that had no declaration. A use of another namespace can be lost: the name of a
type that stands as an expression finds a variable first.
-/

namespace JavaRefactor

open Walk

namespace Walk

variable {t : Tree} {u c : Nat} {stack : List ScopeId} {space : Namespace} {m : String}
  {id : SymbolId}

theorem exists_of_boundIn? (ht : t.IsProgram) (hu : u ≤ t.size)
    (hb : (upTo t u).boundIn? c space m = some id) :
    ∃ b x, b.id = id ∧ KnownAt t b u ∧ b.scope = c ∧ b.kind.space = space ∧ b.name = m ∧
      (Outline.upTo t u).bound? t c space m = some x ∧
      (upTo t t.size).nameNode? id = some x := by
  have hsound := sound_upTo ht hu
  obtain ⟨b, hsym, hscope, hspace, hname⟩ := hsound.boundIn? hb
  have hagree := keyed_upTo ht hu c space m
  rw [outline_upTo ht hu, hb] at hagree
  obtain ⟨x, hx, hfirst⟩ := agrees_some_iff.mp hagree
  obtain rfl := hsound.ids id b hsym
  refine ⟨b, x, rfl, hsym, hscope, hspace, hname, hx, ?_⟩
  rw [hsound.nameNode?_eq (upTo_extends ht hu (Nat.le_refl _)).occurrences hsym, hfirst]

theorem bound?_of_boundIn?_none (ht : t.IsProgram) (hu : u ≤ t.size)
    (hb : (upTo t u).boundIn? c space m = none) : (Outline.upTo t u).bound? t c space m = none := by
  have hagree := keyed_upTo ht hu c space m
  rw [outline_upTo ht hu, hb] at hagree
  exact agrees_none_iff.mp hagree

theorem exists_of_lookup? (ht : t.IsProgram) (hu : u ≤ t.size)
    (hl : (upTo t u).lookup? stack space m = some id) :
    ∃ b x pre post, b.id = id ∧ KnownAt t b u ∧ stack = pre ++ b.scope :: post ∧
      (∀ c ∈ pre, (Outline.upTo t u).bound? t c space m = none) ∧ b.kind.space = space ∧
      (upTo t u).boundIn? b.scope space m = some id ∧
      (Outline.upTo t u).bound? t b.scope space m = some x ∧
      (upTo t t.size).nameNode? id = some x := by
  obtain ⟨pre, c, post, rfl, hb, hpre⟩ := List.findSome?_eq_some_iff.mp hl
  obtain ⟨b, x, hid, hknown, rfl, hspace, -, hx, hfirst⟩ := exists_of_boundIn? ht hu hb
  exact ⟨b, x, pre, post, hid, hknown, rfl,
    fun c hc => bound?_of_boundIn?_none ht hu (hpre c hc), hspace, hb, hx, hfirst⟩

theorem bound?_of_lookup?_none (ht : t.IsProgram) (hu : u ≤ t.size)
    (hl : (upTo t u).lookup? stack space m = none) :
    ∀ c ∈ stack, (Outline.upTo t u).bound? t c space m = none :=
  fun c hc => bound?_of_boundIn?_none ht hu (List.findSome?_eq_none_iff.mp hl c hc)

theorem names_nameNode_iff (ht : t.IsProgram) (hg : t.Grammatical) {x : NodeId}
    (hx : (upTo t t.size).nameNode? id = some x) (j : SymbolId) :
    (upTo t t.size).Names j x ↔ j = id := by
  obtain ⟨o, ho, rfl⟩ := Option.map_eq_some_iff.mp hx
  obtain ⟨hmem, hid⟩ := first?_eq_some ho
  constructor
  · rintro ⟨o', ho', rfl, hnode⟩
    rw [← hid, eq_of_node_eq ht hg (Nat.le_refl _) ho' hmem hnode]
  · rintro rfl
    exact ⟨o, hmem, hid, rfl⟩

theorem UseAt.not_declared {target : Target} (hu : UseAt t u stack target) (ht : t.IsProgram)
    {k : Nat} {e : OutlineEntry} (he : e ∈ (Outline.upTo t k).entries) : e.node ≠ u := by
  rintro rfl
  obtain ⟨j, hj, stack', hr, hadd⟩ := Outline.mem_entries_upTo_iff.mp he
  by_cases hju : j < e.node
  · -- an earlier declaration would have settled it
    have he : e ∈ (Outline.upTo t e.node).entries :=
      Outline.mem_entries_upTo_iff.mpr ⟨j, hju, stack', hr, hadd⟩
    rw [← outline_upTo ht (Nat.le_of_lt hu.lt)] at he
    obtain ⟨o, ho, -, _, -, heo⟩ := mem_entries.mp he
    exact hu.node_ne ht ho (congrArg OutlineEntry.node heo).symm
  · rcases Outline.mem_added_iff.mp hadd with
      ⟨-, d, hrole, -, rfl⟩ | ⟨-, ⟨d, hown, -, rfl⟩ | ⟨d, hd, rfl⟩⟩
    · have hu' := hu.role
      rw [Tree.name_of_role hrole, hrole] at hu'
      simp at hu'
    · exact hju (ht.parent_lt (Outline.parent_of_own ht.toInPreorder hown))
    · obtain ⟨hlt, hlt', -⟩ := Outline.lt_of_mem_hoisted ht.toInPreorder hd
      exact hju (Nat.lt_trans hlt hlt')

theorem UseAt.not_names {target : Target} (hu : UseAt t u stack target) (ht : t.IsProgram)
    (hg : t.Grammatical) (hf : (upTo t u).find? stack (t.text u) target = none) (id : SymbolId) :
    ¬ (upTo t t.size).Names id u := by
  rintro ⟨o, ho, -, rfl⟩
  cases (tidy_upTo ht (Nat.le_refl t.size)).traced o ho with
  | reference kind _ _ =>
    obtain ⟨-, stack', target', hu', hf', -⟩ := (mem_references_iff ht (Nat.le_refl _) kind).mp ho
    obtain rfl := Option.some.inj (hu.reached.symm.trans hu'.reached)
    obtain rfl : target = target' := by simpa [hu.role] using hu'.role
    simp [hf] at hf'
  | constructor _ _ node child => exact hu.not_constructor ht hg node child
  | declaration kind =>
    obtain ⟨e, he, hnode⟩ := exists_entry ht (Nat.le_refl _) ho kind
    exact hu.not_declared ht he hnode

end Walk

/-- A renamed tree whose new name has passed the checks. -/
structure SafeRename (t : Tree) (s : Symbol) (name : String) (t' : Tree) : Prop extends
    Renamed t s name t' where
  wellFormed : t.WellFormed
  grammatical : t.Grammatical
  symbol : (upTo t t.size).symbols[s.id]? = some s
  clear : Clear t s name
  notConstructor : s.kind = .method → Renamed.NotConstructor t s

namespace SafeRename

variable {t t' : Tree} {s : Symbol} {name m : String} {u k c : Nat} {stack : List ScopeId}
  {space : Namespace} {target : Target} {x : NodeId} {id : SymbolId} (h : SafeRename t s name t')
include h

theorem isProgram : t.IsProgram := h.wellFormed.toIsProgram

theorem bound?_clear (hk : k ≤ t.size) :
    (Outline.upTo t k).bound? t s.scope s.kind.space name = none := by
  have hclear := h.clear.declared
  rw [Outline.bound?_eq_none_iff] at hclear ⊢
  exact fun e he => hclear e ((Outline.entries_mono hk).subset he)

theorem bound?_none (hk : k ≤ t.size) (hb : (Outline.upTo t k).bound? t c space m = none)
    (hunknown : m = name → c = s.scope → space = s.kind.space → ¬ KnownAt t s k) :
    (Outline.upTo t' k).bound? t' c space m = none := by
  refine h.bound?_eq_none h.isProgram h.grammatical hk ?_
  by_cases hcap : m = name ∧ c = s.scope ∧ space = s.kind.space
  · obtain ⟨rfl, rfl, rfl⟩ := hcap
    exact h.bound?_renamed_none h.isProgram h.grammatical h.symbol hk (hunknown rfl rfl rfl) hb
  · refine h.bound?_kept_none h.isProgram h.grammatical h.symbol hk hb ?_
    rwa [Ne, ← not_and_or]

theorem bound?_some (hk : k ≤ t.size) (hb : (Outline.upTo t k).bound? t c space m = some x)
    (hn : ¬ (upTo t t.size).Names s.id x) (hspace : space ≠ .method ∨ s.kind = .method) :
    (Outline.upTo t' k).bound? t' c space m = some x := by
  rw [h.bound?_eq h.isProgram h.grammatical h.symbol h.notConstructor hk hspace]
  refine h.bound?_kept_some h.isProgram h.grammatical h.symbol hk hb hn ?_
  rw [Ne, ← not_and_or]
  rintro ⟨rfl, rfl, rfl⟩
  simp [h.bound?_clear hk] at hb

theorem bound?_new (hk : k ≤ t.size)
    (hb : (Outline.upTo t k).bound? t s.scope s.kind.space s.name = some x)
    (hn : (upTo t t.size).Names s.id x) :
    (Outline.upTo t' k).bound? t' s.scope s.kind.space name = some x := by
  have hspace : s.kind.space ≠ .method ∨ s.kind = .method := by
    cases s.kind <;> simp [SymbolKind.space]
  rw [h.bound?_eq h.isProgram h.grammatical h.symbol h.notConstructor hk hspace]
  exact h.bound?_renamed_some h.isProgram h.grammatical h.symbol hk hb hn (h.bound?_clear hk)

theorem bound?_own (hk : k ≤ t.size) (hb : (upTo t k).boundIn? c s.kind.space m = some id) :
    (Outline.upTo t' k).bound? t' c s.kind.space (if id = s.id then name else m) =
      (upTo t t.size).nameNode? id := by
  obtain ⟨b, x, rfl, hknown, rfl, hspace, rfl, hx, hfirst⟩ := exists_of_boundIn? h.isProgram hk hb
  have hnames := names_nameNode_iff h.isProgram h.grammatical hfirst s.id
  rw [hfirst]
  split
  next hid =>
    have hsym := getElem?_mono (upTo_extends h.isProgram hk (Nat.le_refl _)).symbols hknown
    rw [hid, h.symbol] at hsym
    obtain rfl := Option.some.inj hsym
    exact h.bound?_new hk hx (hnames.mpr rfl)
  next hid =>
    refine h.bound?_some hk hx (fun hn => hid (hnames.mp hn).symm) ?_
    cases s.kind <;> simp [SymbolKind.space]

/-- The scopes inside that of the symbol do not bind the new name at a reference. -/
theorem bound?_inner (hu : UseAt t u stack target) (hmember : ∀ space, target ≠ .member space)
    (hf : (upTo t u).find? stack (t.text u) target = some s.id) {pre post : List ScopeId}
    (hstack : stack = pre ++ s.scope :: post) (hpre : s.scope ∉ pre) :
    ∀ c ∈ pre, (Outline.upTo t' u).bound? t' c s.kind.space name = none := by
  intro c hc
  have htake : stack.takeWhile (· != s.scope) = pre := by
    have hall : ∀ a ∈ pre, (a != s.scope) = true := fun a ha =>
      bne_iff_ne.mpr fun he => hpre (he ▸ ha)
    rw [hstack, List.takeWhile_append_of_pos hall, List.takeWhile_cons_of_neg (by simp),
      List.append_nil]
  have hb := h.clear.inner hu hmember hf c (htake ▸ hc)
  exact h.bound?_none (Nat.le_of_lt hu.lt) hb fun _ hcs => absurd (hcs ▸ hc) hpre

/-- A use of another symbol is not caught further inside. -/
theorem bound?_outer (hu : UseAt t u stack target) (hmember : ∀ space, target ≠ .member space)
    {b : Symbol} (hf : (upTo t u).find? stack (t.text u) target = some b.id) (hb : KnownAt t b u)
    (hid : b.id ≠ s.id) (hspace : b.kind.space = s.kind.space) {pre post : List ScopeId}
    (hstack : stack = pre ++ b.scope :: post) (hscope : b.scope ∉ pre)
    (hpre : ∀ c ∈ pre, (Outline.upTo t u).bound? t c s.kind.space (t.text u) = none) :
    ∀ c ∈ pre, (Outline.upTo t' u).bound? t' c s.kind.space (t.text u) = none := by
  intro c hc
  refine h.bound?_none (Nat.le_of_lt hu.lt) (hpre c hc) ?_
  rintro htext rfl -
  obtain ⟨p, q, rfl⟩ := List.append_of_mem hc
  refine h.clear.existing hu hmember htext hf hb hspace hid (fun he => hscope (he ▸ hc))
    (show stack = p ++ s.scope :: (q ++ b.scope :: post) by simp [hstack]) (by simp)

theorem lookup?_own (hu : UseAt t u stack target) (hmember : ∀ space, target ≠ .member space)
    (hf : (upTo t u).find? stack (t.text u) target = some id)
    (hl : (upTo t u).lookup? stack s.kind.space (t.text u) = some id) :
    (Outline.upTo t' u).lookup? t' stack s.kind.space (if id = s.id then name else t.text u) =
      (upTo t t.size).nameNode? id := by
  have hle := Nat.le_of_lt hu.lt
  obtain ⟨b, x, pre, post, rfl, hknown, hstack, hpre, hspace, hbound, hx, hfirst⟩ :=
    exists_of_lookup? h.isProgram hle hl
  have hscope : b.scope ∉ pre := fun hm => by simp [hpre _ hm] at hx
  have hown := h.bound?_own hle hbound
  rw [hfirst] at hown ⊢
  rw [Outline.lookup?, List.findSome?_eq_some_iff]
  refine ⟨pre, b.scope, post, hstack, hown, ?_⟩
  split
  next hid =>
    have hsym := getElem?_mono (upTo_extends h.isProgram hle (Nat.le_refl _)).symbols hknown
    rw [hid, h.symbol] at hsym
    obtain rfl := Option.some.inj hsym
    exact h.bound?_inner hu hmember hf hstack hscope
  next hid => exact h.bound?_outer hu hmember hf hknown hid hspace hstack hscope hpre

/-- A look-up that found nothing finds nothing, unless the symbol has come in its way. -/
theorem lookup?_none (hk : k ≤ t.size)
    (hb : ∀ c ∈ stack, (Outline.upTo t k).bound? t c space m = none)
    (hunknown : m = name → s.scope ∈ stack → space = s.kind.space → ¬ KnownAt t s k) :
    (Outline.upTo t' k).lookup? t' stack space m = none := by
  refine List.findSome?_eq_none_iff.mpr fun c hc => h.bound?_none hk (hb c hc) ?_
  rintro hm rfl hspace
  exact hunknown hm hc hspace

theorem lookup?_other (hk : k ≤ t.size) (hl : (upTo t k).lookup? stack space m = some id)
    (hspace : space ≠ s.kind.space) (hmethod : space ≠ .method) :
    (Outline.upTo t' k).lookup? t' stack space m = (upTo t t.size).nameNode? id := by
  obtain ⟨b, x, pre, post, rfl, hknown, hstack, hpre, hspace', -, hx, hfirst⟩ :=
    exists_of_lookup? h.isProgram hk hl
  have hn : ¬ (upTo t t.size).Names s.id x := by
    rw [names_nameNode_iff h.isProgram h.grammatical hfirst]
    intro hid
    have hsym := getElem?_mono (upTo_extends h.isProgram hk (Nat.le_refl _)).symbols hknown
    rw [← hid, h.symbol] at hsym
    exact hspace (Option.some.inj hsym ▸ hspace'.symm)
  rw [hfirst, Outline.lookup?, List.findSome?_eq_some_iff]
  refine ⟨pre, b.scope, post, hstack, h.bound?_some hk hx hn (Or.inl hmethod), fun c hc => ?_⟩
  exact h.bound?_none hk (hpre c hc) fun _ _ he => absurd he hspace

theorem text_reference (hu : UseAt t u stack target)
    (hf : (upTo t u).find? stack (t.text u) target = some id) :
    t'.text u = if id = s.id then name else t.text u :=
  h.text_eq h.isProgram h.grammatical (o := referenceAt t u stack id)
    ((mem_references_iff h.isProgram (Nat.le_refl _) rfl).mpr ⟨hu.lt, stack, target, hu, hf, rfl⟩)

theorem text_unresolved (hu : UseAt t u stack target)
    (hf : (upTo t u).find? stack (t.text u) target = none) : t'.text u = t.text u :=
  h.text_old u hu.isName (hu.not_names h.isProgram h.grammatical hf s.id)

theorem useAt (hu : UseAt t u stack target) : UseAt t' u stack target := by
  have hle := Nat.le_of_lt hu.lt
  have ht' := h.toSameShape.isProgram h.isProgram
  have hsize : u < t'.size := h.size ▸ hu.lt
  have halike := Outline.alike_upTo h.toSameShape h.isProgram.toInPreorder u
  refine ⟨hsize, by rw [h.role, hu.role], ?_, ?_⟩
  · rw [← reached?_outline ht' (Nat.le_of_lt hsize), halike.reached?_eq h.toSameShape,
      reached?_outline h.isProgram hle, hu.reached]
  · rw [(framed_upTo ht' (Nat.le_of_lt hsize)).isSettled_eq_false_iff (Nat.le_refl u)]
    rintro o ho rfl
    cases (tidy_upTo ht' (Nat.le_of_lt hsize)).traced o ho with
    | reference _ visited _ => exact Nat.lt_irrefl _ visited
    | constructor _ _ node child =>
      rw [h.kind] at node
      rw [h.childByField?] at child
      exact hu.not_constructor h.isProgram h.grammatical node child
    | declaration kind =>
      obtain ⟨e, he, hnode⟩ := exists_entry ht' (Nat.le_of_lt hsize) ho kind
      have he := h.entries_subset h.isProgram h.grammatical hle he
      exact hu.not_declared h.isProgram he hnode

theorem useAt_of_useAt (hu : UseAt t' u stack target) : UseAt t u stack target := by
  have ht' := h.toSameShape.isProgram h.isProgram
  have hg' := h.toSameShape.grammatical h.grammatical
  have hsize : u < t.size := h.size ▸ hu.lt
  have hle := Nat.le_of_lt hsize
  have halike := Outline.alike_upTo h.toSameShape h.isProgram.toInPreorder u
  have hctor {m : NodeId} (hk : (t.kind m).isConstructor) : t.childByField? m "name" ≠ some u := by
    rw [← h.kind] at hk
    rw [← h.childByField?]
    exact hu.not_constructor ht' hg' hk
  refine ⟨hsize, by rw [← h.role, hu.role], ?_, ?_⟩
  · rw [← reached?_outline h.isProgram hle, ← halike.reached?_eq h.toSameShape,
      reached?_outline ht' (Nat.le_of_lt hu.lt), hu.reached]
  · rw [(framed_upTo h.isProgram hle).isSettled_eq_false_iff (Nat.le_refl u)]
    rintro o ho rfl
    cases (tidy_upTo h.isProgram hle).traced o ho with
    | reference _ visited _ => exact Nat.lt_irrefl _ visited
    | constructor _ _ node child => exact hctor node child
    | declaration kind =>
      obtain ⟨e, he, hnode⟩ := exists_entry h.isProgram hle ho kind
      cases hcore : Outline.isCore t e with
      | false =>
        obtain ⟨m, hk, hm⟩ := Outline.exists_constructor h.isProgram.toInPreorder he hcore
        exact hctor hk (hnode ▸ hm)
      | true =>
        have hmem : e ∈ (Outline.upTo t o.node).entries.filter (Outline.isCore t) :=
          List.mem_filter.mpr ⟨he, hcore⟩
        rw [← halike.core] at hmem
        exact hu.not_declared ht' (List.mem_filter.mp hmem).1 hnode

theorem innermostType?_eq (hk : k ≤ t.size) :
    (Outline.upTo t' k).innermostType? stack = (upTo t k).innermostType? stack := by
  have halike := Outline.alike_upTo h.toSameShape h.isProgram.toInPreorder k
  rw [← innermostType?_outline, outline_upTo h.isProgram hk, Outline.innermostType?, halike.kinds]
  rfl

theorem find?_own (hu : UseAt t u stack target)
    (hf : (upTo t u).find? stack (t.text u) target = some id) {b : Symbol}
    (hb : (upTo t t.size).symbols[id]? = some b) (hspace : b.kind.space = s.kind.space) :
    (Outline.upTo t' u).find? t' stack (t'.text u) target = (upTo t t.size).nameNode? id := by
  have hle := Nat.le_of_lt hu.lt
  have htext := h.text_reference hu hf
  have hsame {b' : Symbol} (hid : b'.id = id) (hk : KnownAt t b' u) : b' = b := by
    have := getElem?_mono (upTo_extends h.isProgram hle (Nat.le_refl _)).symbols hk
    rw [hid, hb] at this
    exact (Option.some.inj this).symm
  -- a look-up that succeeds does so in the namespace of what it finds
  have hlookup {space : Namespace} (hl : (upTo t u).lookup? stack space (t.text u) = some id) :
      space = s.kind.space := by
    obtain ⟨b', -, -, -, hid, hk, -, -, hspace', -⟩ := exists_of_lookup? h.isProgram hle hl
    rw [← hspace', hsame hid hk, hspace]
  rw [htext]
  cases target with
  | lexical space =>
    obtain rfl := hlookup hf
    exact h.lookup?_own hu (by simp) hf hf
  | expression =>
    obtain ⟨x, hx⟩ := (sound_upTo h.isProgram (Nat.le_refl _)).exists_nameNode hb
    rcases Option.or_eq_some_iff.mp hf with hl | ⟨hnone, hl⟩
    · have hvar := hlookup hl
      rw [hvar] at hl
      rw [Outline.find?, hvar, h.lookup?_own hu (by simp) hf hl, hx, Option.some_or]
    · have htype := hlookup hl
      rw [htype] at hl
      have hvar : (Outline.upTo t' u).lookup? t' stack .var
          (if id = s.id then name else t.text u) = none := by
        refine h.lookup?_none hle ?_ fun _ _ he => ?_
        · split
          next hid =>
            subst hid
            refine h.clear.around hu ?_ hf
            cases hk : s.kind <;> simp [hk, SymbolKind.space] at htype ⊢
          next => exact bound?_of_lookup?_none h.isProgram hle hnone
        · simp [← he] at htype
      rw [Outline.find?, hvar, Option.none_or, htype, h.lookup?_own hu (by simp) hf hl]
  | member space =>
    obtain ⟨c, hc, hbound⟩ := Option.bind_eq_some_iff.mp hf
    obtain ⟨b', -, hid, hk, -, hspace', -⟩ := exists_of_boundIn? h.isProgram hle hbound
    obtain rfl : space = s.kind.space := by rw [← hspace', hsame hid hk, hspace]
    rw [Outline.find?, h.innermostType?_eq hle, hc, Option.bind_some, h.bound?_own hle hbound]

theorem find?_unresolved (hu : UseAt t u stack target)
    (hf : (upTo t u).find? stack (t.text u) target = none) :
    (Outline.upTo t' u).find? t' stack (t'.text u) target = none := by
  have hle := Nat.le_of_lt hu.lt
  rw [h.text_unresolved hu hf]
  cases target with
  | lexical space =>
    refine h.lookup?_none hle (bound?_of_lookup?_none h.isProgram hle hf) ?_
    exact fun htext hscope hspace => h.clear.unresolved hu htext hf (Or.inl hspace) hscope
  | expression =>
    obtain ⟨hvar, htype⟩ := Option.or_eq_none_iff.mp hf
    refine Option.or_eq_none_iff.mpr ⟨?_, ?_⟩
    · refine h.lookup?_none hle (bound?_of_lookup?_none h.isProgram hle hvar) ?_
      exact fun htext hscope hspace => h.clear.unresolved hu htext hf (Or.inl hspace) hscope
    · refine h.lookup?_none hle (bound?_of_lookup?_none h.isProgram hle htype) ?_
      intro htext hscope hspace
      refine h.clear.unresolved hu htext hf (Or.inr ⟨?_, rfl⟩) hscope
      cases hk : s.kind <;> simp [hk, SymbolKind.space] at hspace ⊢
  | member space =>
    rw [Outline.find?, h.innermostType?_eq hle]
    cases hc : (upTo t u).innermostType? stack with
    | none => rfl
    | some c =>
      have hb : (upTo t u).boundIn? c space (t.text u) = none := by simpa [Walk.find?, hc] using hf
      refine h.bound?_none hle (bound?_of_boundIn?_none h.isProgram hle hb) ?_
      rintro htext rfl hspace
      exact h.clear.unresolved hu htext hf (Or.inl hspace) (List.mem_of_find?_eq_some hc)

theorem lookup?_captured (hu : UseAt t u stack target) (hkind : s.kind.space = .var)
    (hvar : (upTo t u).lookup? stack .var name = none) (hscope : s.scope ∈ stack)
    (hknown : KnownAt t s u) :
    (Outline.upTo t' u).lookup? t' stack .var name = (upTo t t.size).nameNode? s.id := by
  have hle := Nat.le_of_lt hu.lt
  obtain ⟨pre, post, hstack⟩ := List.append_of_mem hscope
  have hnodup := (hu.linked h.isProgram).2.nodup
  rw [hstack, List.nodup_append] at hnodup
  have hown : (Outline.upTo t' u).bound? t' s.scope .var name =
      (upTo t t.size).nameNode? s.id := by
    rw [h.bound?_eq h.isProgram h.grammatical h.symbol h.notConstructor hle (by simp), ← hkind]
    exact h.bound?_renamed_known h.isProgram h.grammatical hle hknown (h.bound?_clear hle)
  obtain ⟨x, hx⟩ := (sound_upTo h.isProgram (Nat.le_refl _)).exists_nameNode h.symbol
  rw [hx] at hown ⊢
  rw [Outline.lookup?, List.findSome?_eq_some_iff]
  refine ⟨pre, s.scope, post, hstack, hown, fun c hc => ?_⟩
  have hc' : c ∈ stack := by simp [hstack, hc]
  refine h.bound?_none hle (bound?_of_lookup?_none h.isProgram hle hvar c hc') fun _ he _ => ?_
  exact absurd he (hnodup.2.2 c hc s.scope List.mem_cons_self)

/-- The name of a type that stands as an expression is lost to a variable that gets its name
and can be seen there, and is kept otherwise. -/
theorem find?_expression (hu : UseAt t u stack .expression) (hkind : s.kind.space = .var)
    (hvar : (upTo t u).lookup? stack .var (t.text u) = none)
    (htype : (upTo t u).lookup? stack .type (t.text u) = some id) :
    (t.text u = name ∧ s.scope ∈ stack ∧ KnownAt t s u →
      (Outline.upTo t' u).find? t' stack (t'.text u) .expression =
        (upTo t t.size).nameNode? s.id) ∧
    (¬ (t.text u = name ∧ s.scope ∈ stack ∧ KnownAt t s u) →
      (Outline.upTo t' u).find? t' stack (t'.text u) .expression =
        (upTo t t.size).nameNode? id) := by
  have hle := Nat.le_of_lt hu.lt
  have hf : (upTo t u).find? stack (t.text u) .expression = some id := by
    simp [Walk.find?, hvar, htype]
  have hid : id ≠ s.id := by
    rintro rfl
    obtain ⟨b, hb, hspace, -⟩ := (sound_upTo h.isProgram hle).lookup? htype
    have hb := getElem?_mono (upTo_extends h.isProgram hle (Nat.le_refl _)).symbols hb
    rw [h.symbol] at hb
    rw [← Option.some.inj hb, hkind] at hspace
    simp at hspace
  obtain ⟨x, hx⟩ := (sound_upTo h.isProgram (Nat.le_refl _)).exists_nameNode h.symbol
  rw [h.text_reference hu hf, if_neg hid]
  constructor
  · rintro ⟨htext, hscope, hknown⟩
    rw [htext] at hvar ⊢
    rw [Outline.find?, h.lookup?_captured hu hkind hvar hscope hknown, hx, Option.some_or]
  · intro hfree
    have hnone := h.lookup?_none hle (bound?_of_lookup?_none h.isProgram hle hvar)
      fun htext hscope _ hknown => hfree ⟨htext, hscope, hknown⟩
    rw [Outline.find?, hnone, Option.none_or,
      h.lookup?_other hle htype (by simp [hkind]) (by simp)]

theorem exists_reference {o : Occurrence} (ho : o ∈ (upTo t t.size).occurrences.toList)
    (hkind : o.kind = .reference) {b : Symbol} (hb : (upTo t t.size).symbols[o.symbol]? = some b)
    (hspace : b.kind.space = s.kind.space) :
    ∃ o' ∈ (upTo t' t'.size).occurrences.toList, o'.kind = .reference ∧ o'.node = o.node ∧
      ∃ x, (upTo t t.size).nameNode? o.symbol = some x ∧
        (upTo t' t'.size).nameNode? o'.symbol = some x := by
  obtain ⟨-, stack, target, hu, hf, -⟩ :=
    (mem_references_iff h.isProgram (Nat.le_refl _) hkind).mp ho
  obtain ⟨x, hx⟩ := (sound_upTo h.isProgram (Nat.le_refl _)).exists_nameNode hb
  have hfind := (h.find?_own hu hf hb hspace).trans hx
  obtain ⟨o', ho', hkind', hnode', hx'⟩ :=
    (h.useAt hu).exists_reference (h.toSameShape.isProgram h.isProgram) hfind
  exact ⟨o', ho', hkind', hnode', x, hx, hx'⟩

theorem exists_unresolved {y : UnresolvedUse} (hy : y ∈ (upTo t t.size).unresolved) :
    ∃ y' ∈ (upTo t' t'.size).unresolved, y'.node = y.node := by
  obtain ⟨-, stack, target, hu, hf, -⟩ := (mem_unresolved_iff h.isProgram (Nat.le_refl _)).mp hy
  exact (h.useAt hu).exists_unresolved (h.toSameShape.isProgram h.isProgram)
    (h.find?_unresolved hu hf)

/-- What is bound to the symbol was bound to it or to something of another namespace. -/
theorem reference_of_symbol {o' : Occurrence} (ho : o' ∈ (upTo t' t'.size).occurrences.toList)
    (hkind : o'.kind = .reference)
    (hx : (upTo t' t'.size).nameNode? o'.symbol = (upTo t t.size).nameNode? s.id) :
    ∃ o ∈ (upTo t t.size).occurrences.toList, o.kind = .reference ∧ o.node = o'.node ∧
      (o.symbol = s.id ∨ ∃ b, (upTo t t.size).symbols[o.symbol]? = some b ∧
        b.kind.space ≠ s.kind.space) := by
  have ht' := h.toSameShape.isProgram h.isProgram
  obtain ⟨-, stack, target, hu', hf', -⟩ := (mem_references_iff ht' (Nat.le_refl _) hkind).mp ho
  have hu := h.useAt_of_useAt hu'
  obtain ⟨x, hx₀⟩ := (sound_upTo h.isProgram (Nat.le_refl _)).exists_nameNode h.symbol
  have hfind := (hu'.find?_outline ht' hf').trans (hx.trans hx₀)
  cases hf : (upTo t o'.node).find? stack (t.text o'.node) target with
  | none => simp [h.find?_unresolved hu hf] at hfind
  | some id =>
    refine ⟨referenceAt t o'.node stack id, ?_, rfl, rfl, ?_⟩
    · exact (mem_references_iff h.isProgram (Nat.le_refl _) rfl).mpr
        ⟨hu.lt, stack, target, hu, hf, rfl⟩
    · obtain ⟨b, hb, -⟩ := (sound_upTo h.isProgram (Nat.le_of_lt hu.lt)).find? hf
      have hb := getElem?_mono
        (upTo_extends h.isProgram (Nat.le_of_lt hu.lt) (Nat.le_refl _)).symbols hb
      by_cases hspace : b.kind.space = s.kind.space
      · rw [h.find?_own hu hf hb hspace] at hfind
        refine Or.inl ((names_nameNode_iff h.isProgram h.grammatical hx₀ id).mp ?_)
        exact (names_nameNode_iff h.isProgram h.grammatical hfind id).mpr rfl
      · exact Or.inr ⟨b, hb, hspace⟩

end SafeRename

end JavaRefactor
