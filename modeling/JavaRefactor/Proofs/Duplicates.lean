import JavaRefactor.Proofs.Consistent

/-! # Duplicates are reported

A symbol that shares its key with another one of its scope has findings, whether it was declared
first, last or in between. The findings themselves stand with the symbols that are not bound, one
for each of them and in the order of declaration. So there are as many as there are symbols without
a binding.
-/

namespace JavaRefactor

/-- The symbols are declared in one scope, under the same name of the same namespace. -/
structure Symbol.SharesKey (s s' : Symbol) : Prop where
  scope : s.scope = s'.scope
  space : s.kind.space = s'.kind.space
  name : s.name = s'.name

theorem Symbol.SharesKey.symm {s s' : Symbol} (h : s.SharesKey s') : s'.SharesKey s :=
  ⟨h.scope.symm, h.space.symm, h.name.symm⟩

namespace Resolution

variable {r : Resolution} {s s' : Symbol} {id : SymbolId}

def isBound (r : Resolution) (s : Symbol) : Bool := r.boundAs? s == some s.id

def allBindings (r : Resolution) : List Binding := (List.range r.scopes.size).flatMap r.bindingsOf

theorem boundAs?_congr (h : s.SharesKey s') : r.boundAs? s = r.boundAs? s' := by
  rw [boundAs?, h.scope, h.space, h.name, boundAs?]

theorem isBound_of_bindings_eq {r' : Resolution} (h : r'.bindings = r.bindings) :
    r'.isBound = r.isBound := by
  funext s
  simp only [isBound, boundAs?, boundIn?, h]

theorem perm_allBindings (h : r.InRange) : r.allBindings.Perm r.bindings.toList := by
  have hlt (b : Binding) (hb : b ∈ r.bindings.toList) : b.scope < r.scopes.size :=
    (h.binding b hb).1
  have hgrouped := Walk.perm_flatMap_of_lt hlt
  exact (List.Perm.flatMap_left _ fun scope _ => sortBy_perm _ _).trans hgrouped

theorem findingsFor_ne_nil_iff (htwins : r.duplicatesOf id = r.pairedWith id) :
    r.findingsFor id ≠ [] ↔ ∃ p ∈ r.pairs, p.1 = id ∨ p.2 = id := by
  have hdup (x : SymbolId) : x ∈ r.duplicatesOf id ↔
      ∃ p ∈ r.pairs, p.2 = id ∧ p.1 = x ∨ p.2 ≠ id ∧ p.1 = id ∧ p.2 = x := by
    rw [htwins, pairedWith, List.mem_filterMap]
    apply exists_congr
    intro p
    apply and_congr_right
    intro _
    split_ifs <;> simp_all
  constructor
  · intro hne
    obtain ⟨f, hf⟩ := List.exists_mem_of_ne_nil _ hne
    obtain ⟨hmem, hsymbol⟩ := List.mem_filter.mp hf
    cases f with
    | unresolved => cases hsymbol
    | duplicate name node span second first =>
      have hpair : (second, first) ∈ r.pairs := List.mem_filterMap.mpr ⟨_, hmem, rfl⟩
      simp only [Finding.symbol?, Bool.or_eq_true, beq_iff_eq, List.contains_iff_mem] at hsymbol
      rcases hsymbol with rfl | hx
      · exact ⟨_, hpair, Or.inl rfl⟩
      · obtain ⟨p, hp, ⟨hsecond, -⟩ | ⟨-, hfirst, -⟩⟩ := (hdup _).mp hx
        · exact ⟨p, hp, Or.inr hsecond⟩
        · exact ⟨p, hp, Or.inl hfirst⟩
  · rintro ⟨p, hp, hid⟩
    obtain ⟨f, hmem, hf⟩ := List.mem_filterMap.mp hp
    cases f with
    | unresolved => cases hf
    | duplicate name node span second first =>
      obtain rfl := Option.some.inj hf
      refine List.ne_nil_of_mem (List.mem_filter.mpr ⟨hmem, ?_⟩)
      simp only [Finding.symbol?, Bool.or_eq_true, beq_iff_eq, List.contains_iff_mem]
      rcases hid with rfl | rfl
      · exact Or.inl rfl
      · exact Or.inr ((hdup _).mpr ⟨_, hp, Or.inl ⟨rfl, rfl⟩⟩)

theorem length_filter_isDuplicate : (r.findings.toList.filter (·.isDuplicate)).length =
    (r.findings.toList.filterMap (·.symbol?)).length := by
  rw [List.length_filterMap_eq_countP, List.countP_eq_length_filter]
  congr
  funext f
  cases f <;> rfl

end Resolution

namespace Walk

variable {t : Tree} {w w' : Walk} {k : Nat} {stack : List ScopeId} {d : Declaration}
  {container : Option SymbolId} {s s' : Symbol}

/-- The bindings lead to the symbols that are bound, and the findings stand with the others. -/
structure Reported (w : Walk) : Prop where
  bound : w.bindings.toList.map (·.symbol) = (w.symbols.toList.filter w.isBound).map (·.id)
  unbound : w.findings.toList.filterMap (·.symbol?) =
    (w.symbols.toList.filter fun s => !w.isBound s).map (·.id)

namespace Reported

theorem congr (h : Reported w) (hsym : w'.symbols = w.symbols) (hbind : w'.bindings = w.bindings)
    (hfind : w'.findings.toList.filterMap (·.symbol?) = w.findings.toList.filterMap (·.symbol?)) :
    Reported w' := by
  have hbound := Resolution.isBound_of_bindings_eq hbind
  exact ⟨hsym ▸ hbind ▸ hbound ▸ h.bound, hsym ▸ hfind ▸ hbound ▸ h.unbound⟩

theorem report (h : Reported w) {first : SymbolId} (hfirst : first < w.symbols.size)
    (hfound : w.boundIn? (current stack) d.kind.space (t.text d.name) = some first)
    (hsym : w'.symbols = w.symbols.push (newSymbol t stack d w.symbols.size container))
    (hbind : w'.bindings = w.bindings)
    (hfind : w'.findings.toList.filterMap (·.symbol?) =
      w.findings.toList.filterMap (·.symbol?) ++ [w.symbols.size]) : Reported w' := by
  have hsame := Resolution.isBound_of_bindings_eq hbind
  have hnew : w.isBound (newSymbol t stack d w.symbols.size container) = false := by
    simpa [Resolution.isBound, Resolution.boundAs?, newSymbol, hfound] using Nat.ne_of_lt hfirst
  have hid : (newSymbol t stack d w.symbols.size container).id = w.symbols.size := rfl
  constructor
  · rw [hsame, hbind, hsym, h.bound]
    simp [hnew]
  · rw [hsame, hfind, hsym, h.unbound]
    simp [hnew, hid]

theorem bind (h : Reported w) (hpaired : Paired w)
    (hfound : w.boundIn? (current stack) d.kind.space (t.text d.name) = none)
    (hsym : w'.symbols = w.symbols.push (newSymbol t stack d w.symbols.size container))
    (hbind : w'.bindings = w.bindings.push
      ⟨current stack, d.kind.space, t.text d.name, w.symbols.size⟩)
    (hfind : w'.findings = w.findings) : Reported w' := by
  have hsame : ∀ s ∈ w.symbols.toList, w'.isBound s = w.isBound s := by
    intro s hs
    obtain ⟨first, hfirst, -⟩ := hpaired.bound s hs
    have hkept : w'.boundAs? s = some first := by
      rw [Resolution.boundAs?] at hfirst ⊢
      rw [boundIn?_of_bindings_eq hbind, hfirst, Option.some_or]
    rw [Resolution.isBound, hkept, Resolution.isBound, hfirst]
  have hnew : w'.isBound (newSymbol t stack d w.symbols.size container) = true := by
    rw [Resolution.isBound, Resolution.boundAs?, boundIn?_of_bindings_eq hbind]
    simp [newSymbol, hfound]
  have hid : (newSymbol t stack d w.symbols.size container).id = w.symbols.size := rfl
  constructor
  · rw [hbind, hsym, Array.toList_push, Array.toList_push, List.filter_append,
      List.filter_congr hsame, List.map_append, List.map_append, h.bound]
    simp [hnew, hid]
  · rw [hfind, hsym, Array.toList_push, List.filter_append,
      List.filter_congr fun s hs => congrArg _ (hsame s hs), List.map_append, h.unbound]
    simp [hnew]

theorem declared (h : Reported w) (hs : Sound t w) (hpaired : Paired w)
    (hd : Declared t stack w d w') : Reported w' := by
  cases hd with
  | overload => exact h.congr rfl rfl rfl
  | duplicate _ _ found =>
    obtain ⟨s, hs, -⟩ := hs.boundIn? found
    have hfirst := (Array.getElem?_eq_some_iff.mp hs).1
    exact h.report hfirst found rfl rfl (by simp [Finding.symbol?])
  | fresh _ found => exact h.bind hpaired found rfl rfl rfl

end Reported

theorem reported_upTo (ht : t.IsProgram) (hk : k ≤ t.size) : Reported (upTo t k) := by
  refine (upTo_preserves (P := fun w => Paired w ∧ Reported w) ht hk
    ⟨paired_upTo ht (Nat.zero_le _), ?_⟩ ?_ ?_ ?_ ?_).2
  · constructor <;> simp
  · rintro w stack i kind - ⟨hpaired, hreported⟩
    exact ⟨hpaired.congr rfl rfl rfl, hreported.congr rfl rfl rfl⟩
  · rintro w use ⟨hpaired, hreported⟩
    exact ⟨hpaired.congr rfl rfl (by simp [Resolution.pairs, Finding.pair?]),
      hreported.congr rfl rfl (by simp [Finding.symbol?])⟩
  · rintro w w' i stack d hs - hd ⟨hpaired, hreported⟩
    exact ⟨hpaired.declared hs hd, hreported.declared hs hpaired hd⟩
  · rintro w i o - - ⟨hpaired, hreported⟩
    exact ⟨hpaired.congr rfl rfl rfl, hreported.congr rfl rfl rfl⟩

theorem Sound.id_mem_iff (h : Sound t w) (hsym : w.symbols[s.id]? = some s) {p : Symbol → Bool} :
    s.id ∈ (w.symbols.toList.filter p).map (·.id) ↔ p s = true := by
  constructor
  · intro hmem
    obtain ⟨s', hs', hid⟩ := List.mem_map.mp hmem
    obtain ⟨hmem', hp⟩ := List.mem_filter.mp hs'
    have hget := h.getElem?_id hmem'
    rw [hid, hsym] at hget
    exact Option.some.inj hget ▸ hp
  · intro hp
    have hmem := Array.mem_toList_iff.mpr (Array.mem_of_getElem? hsym)
    exact List.mem_map.mpr ⟨s, List.mem_filter.mpr ⟨hmem, hp⟩, rfl⟩

theorem Reported.symbol_ne (h : Reported w) (hs : Sound t w) (hsym : w.symbols[s.id]? = some s)
    (hunbound : w.isBound s = false) : ∀ b ∈ w.bindings.toList, b.symbol ≠ s.id := by
  intro b hb he
  have hmem : s.id ∈ w.bindings.toList.map (·.symbol) := he ▸ List.mem_map_of_mem hb
  rw [h.bound, hs.id_mem_iff hsym, hunbound] at hmem
  cases hmem

theorem Reported.exists_unbound (h : Reported w) (hs : Sound t w) {f : Finding}
    (hf : f ∈ w.findings.toList) (hdup : f.isDuplicate) : ∃ s ∈ w.symbols.toList,
      f.symbol? = some s.id ∧ w.boundAs? s ≠ some s.id ∧
        ∀ b ∈ w.bindings.toList, b.symbol ≠ s.id := by
  cases f with
  | unresolved => cases hdup
  | duplicate name node span second first =>
    have hmem : second ∈ w.findings.toList.filterMap (·.symbol?) :=
      List.mem_filterMap.mpr ⟨_, hf, rfl⟩
    rw [h.unbound] at hmem
    obtain ⟨s, hsmem, rfl⟩ := List.mem_map.mp hmem
    obtain ⟨hsym, hunbound⟩ := List.mem_filter.mp hsmem
    rw [Bool.not_eq_true'] at hunbound
    refine ⟨s, hsym, rfl, ?_, h.symbol_ne hs (hs.getElem?_id hsym) hunbound⟩
    simpa [Resolution.isBound] using hunbound

theorem Reported.length_add (h : Reported w) (hr : w.InRange) :
    (w.findings.toList.filter (·.isDuplicate)).length + w.allBindings.length =
      w.symbols.size := by
  have hbindings := congrArg List.length h.bound
  rw [List.length_map, List.length_map] at hbindings
  have hsplit := List.length_eq_length_filter_add (l := w.symbols.toList) w.isBound
  rw [Resolution.length_filter_isDuplicate, h.unbound, List.length_map,
    (Resolution.perm_allBindings hr).length_eq, hbindings, ← Array.length_toList, hsplit,
    Nat.add_comm]

theorem fst_mem_of_mem_pairs {p : SymbolId × SymbolId} (hp : p ∈ w.pairs) :
    p.1 ∈ w.findings.toList.filterMap (·.symbol?) := by
  obtain ⟨f, hmem, hf⟩ := List.mem_filterMap.mp hp
  cases f with
  | unresolved => cases hf
  | duplicate =>
    obtain rfl := Option.some.inj hf
    exact List.mem_filterMap.mpr ⟨_, hmem, rfl⟩

theorem Reported.exists_of_mem_pairs (h : Reported w) (hs : Sound t w) (hpaired : Paired w)
    {p : SymbolId × SymbolId} (hp : p ∈ w.pairs) :
    ∃ s s', w.symbols[p.1]? = some s ∧ w.symbols[p.2]? = some s' ∧ p.1 ≠ p.2 ∧ s'.SharesKey s := by
  obtain ⟨s, hsym, hbound⟩ := hpaired.pairs p hp
  obtain ⟨s', hsym', hscope, hspace, hname⟩ := hs.boundIn? hbound
  refine ⟨s, s', hsym, hsym', ?_, ⟨hscope, hspace, hname⟩⟩
  have hid := hs.ids _ _ hsym
  have hreported := fst_mem_of_mem_pairs hp
  rw [h.unbound, ← hid, hs.id_mem_iff (hid ▸ hsym)] at hreported
  intro he
  simp [Resolution.isBound, hbound, hid, he] at hreported

/-- Of two symbols that share their key one is not bound, so each of them is in a pair. The pairs
of one key form a star around the symbol that is bound. -/
theorem Paired.exists_pair (h : Paired w) (hs : s ∈ w.symbols.toList) (hs' : s' ∈ w.symbols.toList)
    (hne : s'.id ≠ s.id) (hkey : s'.SharesKey s) : ∃ p ∈ w.pairs, p.1 = s.id ∨ p.2 = s.id := by
  obtain ⟨first, hbound, rfl | ⟨-, hpair⟩⟩ := h.bound s hs
  · obtain ⟨first', hbound', hcase⟩ := h.bound s' hs'
    rw [Resolution.boundAs?_congr hkey, hbound] at hbound'
    obtain rfl := Option.some.inj hbound'
    rcases hcase with he | ⟨-, hpair⟩
    · exact absurd he.symm hne
    · exact ⟨_, hpair, Or.inr rfl⟩
  · exact ⟨_, hpair, Or.inl rfl⟩

theorem findingsFor_upTo (ht : t.IsProgram) (hk : k ≤ t.size)
    (hsym : s ∈ (upTo t k).symbols.toList) : (upTo t k).findingsFor s.id ≠ [] ↔
      ∃ s' ∈ (upTo t k).symbols.toList, s'.id ≠ s.id ∧ s'.SharesKey s := by
  have hs := sound_upTo ht hk
  have hpaired := paired_upTo ht hk
  have hself := hs.getElem?_id hsym
  rw [Resolution.findingsFor_ne_nil_iff ((twinned_upTo ht hk).duplicatesOf _)]
  constructor
  · rintro ⟨p, hp, hid⟩
    obtain ⟨u, v, hu, hv, hne, hkey⟩ := (reported_upTo ht hk).exists_of_mem_pairs hs hpaired hp
    have humem := Array.mem_toList_iff.mpr (Array.mem_of_getElem? hu)
    have hvmem := Array.mem_toList_iff.mpr (Array.mem_of_getElem? hv)
    rw [← hs.ids _ _ hu, ← hs.ids _ _ hv] at hne
    rcases hid with hid | hid
    · rw [hid, hself] at hu
      obtain rfl := Option.some.inj hu
      exact ⟨v, hvmem, hne.symm, hkey⟩
    · rw [hid, hself] at hv
      obtain rfl := Option.some.inj hv
      exact ⟨u, humem, hne, hkey.symm⟩
  · rintro ⟨s', hs', hne, hkey⟩
    exact hpaired.exists_pair hsym hs' hne hkey

end Walk

/-- Ambiguity shows with every symbol that has a part in it. A symbol has findings just if another
one shares its key; the findings of duplicates are as many as the symbols exceed the bindings; each
stands with a symbol that its scope does not bind, and each such symbol has one. -/
theorem resolve_reports_duplicates (t : Tree) (ht : t.IsProgram) :
    ∃ r, resolve t = .ok r ∧
      (∀ s ∈ r.symbols.toList, r.findingsFor s.id ≠ [] ↔
        ∃ s' ∈ r.symbols.toList, s'.id ≠ s.id ∧ s'.SharesKey s) ∧
      (r.findings.toList.filter (·.isDuplicate)).length + r.allBindings.length =
        r.symbols.size ∧
      (∀ f ∈ r.findings.toList, f.isDuplicate → ∃ s ∈ r.symbols.toList,
        f.symbol? = some s.id ∧ r.boundAs? s ≠ some s.id ∧
          ∀ b ∈ r.bindings.toList, b.symbol ≠ s.id) ∧
      r.findings.toList.filterMap (·.symbol?) =
        (r.symbols.toList.filter fun s => !r.isBound s).map (·.id) := by
  have hk := Nat.le_refl t.size
  have hs := Walk.sound_upTo ht hk
  have hreported := Walk.reported_upTo ht hk
  exact ⟨_, resolve_eq_ok ht, fun s => Walk.findingsFor_upTo ht hk,
    hreported.length_add (Walk.inRange_upTo ht hk),
    fun f hf hdup => hreported.exists_unbound hs hf hdup, hreported.unbound⟩

namespace Sample

def enumRows : List RawTree.Row :=
  [phrase 0 0 24 "program" none, phrase 1 0 24 "enum_declaration" none, token 2 0 4 "enum",
   phrase 2 5 6 "identifier" (some "name"), phrase 2 7 24 "enum_body" (some "body"),
   token 3 7 8 "\x7b", phrase 3 9 10 "enum_constant" none,
   phrase 4 9 10 "identifier" (some "name"), token 3 10 11 ",",
   phrase 3 12 13 "enum_constant" none, phrase 4 12 13 "identifier" (some "name"),
   token 3 13 14 ",", phrase 3 15 16 "enum_constant" none,
   phrase 4 15 16 "identifier" (some "name"), phrase 3 16 22 "enum_body_declarations" none,
   token 4 16 17 ";", phrase 4 18 22 "field_declaration" none,
   phrase 5 18 19 "type_identifier" (some "type"),
   phrase 5 20 21 "variable_declarator" (some "declarator"),
   phrase 6 20 21 "identifier" (some "name"), token 5 21 22 ";", token 3 23 24 "\x7d"]

def enumTree : Tree :=
  .ofRaw "enum E \x7b A, A, B; E A; \x7d" ((RawTree.ofRows? enumRows).getD default)

def enumSymbols : List Symbol :=
  [⟨0, "E", .type, 1, 0, none⟩, ⟨1, "A", .field, 6, 1, some 0⟩, ⟨2, "A", .field, 9, 1, some 0⟩,
    ⟨3, "B", .field, 12, 1, some 0⟩, ⟨4, "A", .field, 18, 1, some 0⟩]

theorem enumTree_walked : enumTree.kind Tree.root = .program ∧
    (Walk.upTo enumTree enumTree.size).symbols.toList = enumSymbols := by
  decide +kernel

theorem enumTree_isProgram : enumTree.IsProgram :=
  ⟨Tree.ofRaw_inPreorder _ _, enumTree_walked.1⟩

end Sample

/-- All three symbols of the name have findings, the first one too, and the other constant has
none. -/
theorem resolve_reports_duplicates_sample : Sample.enumTree.IsProgram ∧
    ∃ r, resolve Sample.enumTree = .ok r ∧ r.findingsFor 1 ≠ [] ∧ r.findingsFor 2 ≠ [] ∧
      r.findingsFor 3 = [] ∧ r.findingsFor 4 ≠ [] := by
  have ht := Sample.enumTree_isProgram
  obtain ⟨r, hr, hfindings, -⟩ := resolve_reports_duplicates Sample.enumTree ht
  obtain rfl := Except.ok.inj ((resolve_eq_ok ht).symm.trans hr)
  rw [Sample.enumTree_walked.2] at hfindings
  refine ⟨ht, _, hr, ?_, ?_, ?_, ?_⟩
  · exact (hfindings ⟨1, "A", .field, 6, 1, some 0⟩ (by decide)).mpr
      ⟨⟨4, "A", .field, 18, 1, some 0⟩, by decide, by decide, ⟨rfl, rfl, rfl⟩⟩
  · exact (hfindings ⟨2, "A", .field, 9, 1, some 0⟩ (by decide)).mpr
      ⟨⟨1, "A", .field, 6, 1, some 0⟩, by decide, by decide, ⟨rfl, rfl, rfl⟩⟩
  · by_contra hne
    obtain ⟨s', hs', hid, hkey⟩ := (hfindings ⟨3, "B", .field, 12, 1, some 0⟩ (by decide)).mp hne
    have hother : ∀ s ∈ Sample.enumSymbols, s.id ≠ 3 → s.name ≠ "B" := by decide
    exact hother s' hs' hid hkey.name
  · exact (hfindings ⟨4, "A", .field, 18, 1, some 0⟩ (by decide)).mpr
      ⟨⟨2, "A", .field, 9, 1, some 0⟩, by decide, by decide, ⟨rfl, rfl, rfl⟩⟩

end JavaRefactor
