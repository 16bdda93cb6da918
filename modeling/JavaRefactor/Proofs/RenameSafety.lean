import JavaRefactor.Proofs.RenameBindings

/-! # What a rename preserves

A rename that is not refused can be applied, and the edited tree can be resolved again. In the
namespace of the renamed symbol every use keeps its binding. The checks do not look at other
namespaces, so a variable may take the name of a type away from an expression.
-/

namespace JavaRefactor

open Walk

namespace Walk

variable {t : Tree} {s : Symbol} {u : Nat} {stack : List ScopeId} {target : Target} {x : NodeId}

theorem UseAt.lt_of_scope (hu : UseAt t u stack target) (ht : t.IsProgram) {j : Nat}
    (hj : (Outline.upTo t j).kinds.size ∈ stack) : j < u := by
  have hle := Nat.le_of_lt hu.lt
  have hsize : (Outline.upTo t u).kinds.size = (upTo t u).scopes.size := by
    rw [← outline_upTo ht hle]
    simp [outline]
  have hlt : (Outline.upTo t j).kinds.size < (upTo t u).scopes.size := by
    rcases (framed_upTo ht hle).reached ht.toInPreorder hu.lt hu.reached with ⟨-, rfl⟩ | ⟨-, hl⟩
    · simp at hj
    · exact hl.lt _ hj
  by_contra huj
  have := (Outline.kinds_mono (t := t) (Nat.le_of_not_lt huj)).length_le
  simp only [Array.length_toList] at this
  omega

/-- A field is known within its type, a local from its declaration on. -/
theorem knownAt_iff (ht : t.WellFormed) (hg : t.Grammatical)
    (hs : (upTo t t.size).symbols[s.id]? = some s) (hu : UseAt t u stack target)
    (hkind : s.kind.space = .var) (hscope : s.scope ∈ stack) :
    KnownAt t s u ↔ s.kind = .field ∨
      ((upTo t t.size).declarationSpan s.id).start < (t.span u).start := by
  have hle := Nat.le_of_lt hu.lt
  have hknown : KnownAt t s t.size := hs
  obtain ⟨x, hx, hfirst⟩ := hknown.entry ht.toIsProgram (Nat.le_refl _)
  have htidy := tidy_upTo ht.toIsProgram (Nat.le_refl t.size)
  have hname := (htidy.traced _ (first?_eq_some hfirst).1).isName
  rw [(sound_upTo ht.toIsProgram (Nat.le_refl _)).declarationSpan_eq hx]
  constructor
  · intro h
    by_cases hfield : s.kind = .field
    · exact Or.inl hfield
    · have hlocal : s.kind.isLocal := by
        cases hk : s.kind <;> simp [hk, SymbolKind.space, SymbolKind.isLocal] at hkind hfield ⊢
      have hlt : x < u := Outline.lt_of_isLocal (h.mem_entries ht.toIsProgram hle hx) hlocal
      exact Or.inr (ht.start_lt_of_lt hname hlt hu.lt)
  · intro h
    obtain ⟨j, hj, stack', hr, hadd⟩ :=
      Outline.mem_entries_upTo_iff.mp (hknown.mem_entries ht.toIsProgram (Nat.le_refl _) hx)
    -- the entry was added by the visit of a node before the use
    have hju : j < u := by
      rcases Outline.mem_added_iff.mp hadd with
        ⟨-, d, hrole, -, he⟩ | ⟨-, ⟨d, hown, -, he⟩ | ⟨d, hd, he⟩⟩
      · obtain ⟨-, hk, hxd⟩ := OutlineEntry.mk.inj he
        obtain ⟨-, p, -, hlocal⟩ := Tree.role_declares hrole
        have hlocal := (Tree.localDeclaration?_name hlocal).2.1
        have hfield : s.kind ≠ .field := by
          rintro hfield
          simp [← hk, hfield, SymbolKind.isLocal] at hlocal
        rw [← Tree.name_of_role hrole, ← hxd]
        exact (ht.start_lt_iff hname hu.isName).mp (h.resolve_left hfield)
      · obtain ⟨-, hk, -⟩ := OutlineEntry.mk.inj he
        rcases Tree.kind_of_ownDeclaration? hown with ⟨-, hd⟩ | ⟨-, hd⟩ <;>
          simp [hk, hd, SymbolKind.space] at hkind
      · obtain ⟨hopen, -, -⟩ := OutlineEntry.mk.inj he
        exact hu.lt_of_scope ht.toIsProgram (hopen ▸ hscope)
    have hentry := Outline.mem_entries_upTo_iff.mpr ⟨j, hju, stack', hr, hadd⟩
    refine (Renamed.of_names ht.toIsProgram hg hs hle hentry ?_).2.2.2
    exact ⟨_, (first?_eq_some hfirst).1, rfl, rfl⟩

end Walk

namespace Resolution

variable {t : Tree} {s : Symbol} {name : String} {p : RenamePlan}

theorem exists_safeRename (ht : t.WellFormed) (hg : t.Grammatical)
    (hs : (upTo t t.size).symbols[s.id]? = some s)
    (hctor : s.kind = .method → Renamed.NotConstructor t s) (hne : s.name ≠ name)
    (hp : (upTo t t.size).planRename t s name = .ok p) :
    ∃ out, p.plan.apply t.source = .ok out ∧ SafeRename t s name (t.edited p.plan.edits out) := by
  have htidy := tidy_upTo ht.toIsProgram (Nat.le_refl t.size)
  obtain ⟨hplan, hc⟩ := of_planRename_eq_ok htidy ht hs hp
  obtain ⟨hfit, hcompat⟩ := renameEdits_fit htidy ht hs name
  have hpos : ∀ o ∈ (upTo t t.size).occurrencesOf s.id,
      (t.span o.node).start < (t.span o.node).stop :=
    fun o ho => ht.nonempty o.node (mem_occurrencesOf htidy hs ho).1
  refine ⟨_, ?_, Renamed.renamed_edited ht.readable hs hpos (clear_of_planRename hp).1 hne hplan,
    ht, hg, hs, clear_of_collision? ht hg hne hs (hc hne), hctor⟩
  rw [hplan]
  exact renamePlan_apply (fun e he => (hfit e he).2.2) hcompat

theorem edited_of_no_edits (t : Tree) (s : Symbol) :
    (renamePlan t s []).apply t.source = .ok t.source ∧
      t.edited (renamePlan t s []).edits t.source = t := by
  rw [renamePlan_apply (by simp) List.Pairwise.nil]
  refine ⟨?_, Tree.edited_nil t⟩
  show Except.ok (String.ofList (Text.between t.source.toList 0 (Text.width t.source.toList))) = _
  rw [Text.between_all, String.ofList_toList]

theorem edited_of_same_name (ht : t.WellFormed) (hs : (upTo t t.size).symbols[s.id]? = some s)
    (hp : (upTo t t.size).planRename t s s.name = .ok p) :
    p.plan.apply t.source = .ok t.source ∧ t.edited p.plan.edits t.source = t := by
  have htidy := tidy_upTo ht.toIsProgram (Nat.le_refl t.size)
  have hnil : (upTo t t.size).renameEdits s s.name = [] := if_pos rfl
  obtain ⟨hplan, -⟩ := of_planRename_eq_ok htidy ht hs hp
  rw [hplan, hnil]
  exact edited_of_no_edits t s

/-- A rename that is not refused makes a renamed tree, unless the old name is empty and takes no
place in the text. -/
theorem exists_renamed (ht : t.Readable) (hs : (upTo t t.size).symbols[s.id]? = some s)
    (hname : s.name ≠ "") (hp : (upTo t t.size).planRename t s name = .ok p) :
    ∃ out, p.plan.apply t.source = .ok out ∧ Renamed t s name (t.edited p.plan.edits out) := by
  have htidy := tidy_upTo ht.toIsProgram (Nat.le_refl t.size)
  obtain ⟨hclear, hplan⟩ := clear_of_planRename hp
  by_cases hne : s.name = name
  · subst hne
    have hnil : (upTo t t.size).renameEdits s s.name = [] := if_pos rfl
    rw [hnil] at hplan
    obtain ⟨happly, hedited⟩ := edited_of_no_edits t s
    rw [hplan]
    refine ⟨t.source, happly, ?_⟩
    rw [hedited]
    refine ⟨⟨rfl, rfl, rfl, rfl, rfl, rfl, rfl⟩, ?_, fun _ _ _ => rfl⟩
    rintro x ⟨o, ho, hid, rfl⟩
    exact htidy.text_of_symbol hs ho hid
  · have hpos : ∀ o ∈ (upTo t t.size).occurrencesOf s.id,
        (t.span o.node).start < (t.span o.node).stop := by
      intro o ho
      obtain ⟨hn, -, htext⟩ := mem_occurrencesOf htidy hs ho
      apply ht.start_lt_stop hn
      rwa [htext]
    have horder := Renamed.inOrder_renamePlan ht hs hpos hclear
    refine ⟨_, ?_, Renamed.renamed_edited ht hs hpos hclear hne hplan⟩
    rw [hplan]
    refine renamePlan_apply (fun e he => ?_) hclear.compatible
    obtain ⟨hle, hstop⟩ := hclear.bounds e he
    exact ⟨hle, hstop, horder.cut e ((mem_sortBy _).mpr ((mem_sortBy _).mpr he))⟩

/-- A rename that is not refused can be applied, and keeps all bindings in the namespace of the
renamed symbol. Symbols of the two trees are the same if the same identifier declares them
first. Every reference to a symbol of the namespace stays a reference to it, every use without
a declaration stays one, and what refers to the symbol after the rename did so before or
referred to something of another namespace. -/
theorem planRename_keeps_bindings (t : Tree) (ht : t.WellFormed) (hg : t.Grammatical)
    (r : Resolution) (hr : resolve t = .ok r) (s : Symbol) (hs : s ∈ r.symbols)
    (hctor : ∀ o ∈ r.occurrences, o.symbol = s.id → o.kind = .declaration →
      ∀ m : NodeId, (t.kind m).isConstructor → t.childByField? m "name" ≠ some o.node)
    (name : String) (p : RenamePlan) (hp : r.planRename t s name = .ok p) :
    ∃ out r', p.plan.apply t.source = .ok out ∧ resolve (t.edited p.plan.edits out) = .ok r' ∧
      (∀ o ∈ r.occurrences, o.kind = .reference →
        ∀ b, r.symbols[o.symbol]? = some b → b.kind.space = s.kind.space →
          ∃ o' ∈ r'.occurrences, o'.kind = .reference ∧ o'.node = o.node ∧
            ∃ x, r.nameNode? o.symbol = some x ∧ r'.nameNode? o'.symbol = some x) ∧
      (∀ y ∈ r.unresolved, ∃ y' ∈ r'.unresolved, y'.node = y.node) ∧
      ∀ o' ∈ r'.occurrences, o'.kind = .reference → r'.nameNode? o'.symbol = r.nameNode? s.id →
        ∃ o ∈ r.occurrences, o.kind = .reference ∧ o.node = o'.node ∧
          (o.symbol = s.id ∨ ∃ b, r.symbols[o.symbol]? = some b ∧ b.kind.space ≠ s.kind.space) := by
  obtain ⟨rfl, hsym⟩ := of_resolve_eq_ok ht.toIsProgram hr hs
  have hsound := sound_upTo ht.toIsProgram (Nat.le_refl t.size)
  by_cases hne : s.name = name
  · subst hne
    obtain ⟨happly, hedited⟩ := edited_of_same_name ht hsym hp
    refine ⟨t.source, (upTo t t.size).toResolution, happly, ?_, ?_, ?_, ?_⟩
    · rw [hedited, resolve_eq_ok ht.toIsProgram]
    · intro o ho hkind b hb _
      obtain ⟨x, hx⟩ := hsound.exists_nameNode hb
      exact ⟨o, ho, hkind, rfl, x, hx, hx⟩
    · exact fun y hy => ⟨y, hy, rfl⟩
    · intro o ho hkind hx
      obtain ⟨x, hx₀⟩ := hsound.exists_nameNode hsym
      refine ⟨o, ho, hkind, rfl, Or.inl ?_⟩
      have hnames := names_nameNode_iff ht.toIsProgram hg (hx.trans hx₀) s.id
      exact (hnames.mp ((names_nameNode_iff ht.toIsProgram hg hx₀ s.id).mpr rfl)).symm
  · have hctor' : Renamed.NotConstructor t s := fun o ho => hctor o (Array.mem_toList_iff.mp ho)
    obtain ⟨out, happly, h⟩ := exists_safeRename ht hg hsym (fun _ => hctor') hne hp
    refine ⟨out, _, happly, resolve_eq_ok (h.toSameShape.isProgram ht.toIsProgram), ?_, ?_, ?_⟩
    · intro o ho hkind b hb hspace
      obtain ⟨o', ho', hrest⟩ := h.exists_reference (Array.mem_toList_iff.mpr ho) hkind hb hspace
      exact ⟨o', Array.mem_toList_iff.mp ho', hrest⟩
    · exact fun y hy => h.exists_unresolved hy
    · intro o' ho' hkind hx
      obtain ⟨o, ho, hrest⟩ := h.reference_of_symbol (Array.mem_toList_iff.mpr ho') hkind hx
      exact ⟨o, Array.mem_toList_iff.mp ho, hrest⟩

end Resolution

namespace Sample

def expression : Occurrence := ⟨0, 27, ⟨37, 40⟩, .reference, 2⟩

def fieldSymbol : Symbol := ⟨1, "b", .field, 9, 1, some 0⟩

/-- What is evaluated of the sample, at once since each evaluation walks over the tree. -/
theorem tree_walked : let r := upTo tree tree.size
    r.occurrences[5]? = some expression ∧
    r.symbols[fieldSymbol.id]? = some fieldSymbol ∧
    Identifier.validateFor fieldSymbol.kind "Foo" = .ok () ∧
    r.collision? tree fieldSymbol "Foo" = none ∧
    ∀ i ∈ tree.ids, (tree.kind i).isConstructor = false := by
  decide +kernel

theorem expression_mem : expression ∈ (upTo tree tree.size).occurrences :=
  Array.mem_of_getElem? tree_walked.1

theorem not_constructor (m : NodeId) : (tree.kind m).isConstructor = false := by
  rcases Nat.lt_or_ge m tree.size with hlt | hge
  · obtain ⟨-, -, -, -, hall⟩ := tree_walked
    exact hall m (List.mem_range.mpr hlt)
  · rw [Tree.kind_of_size_le hge]
    rfl

end Sample

namespace Resolution

variable {t t' : Tree} {s : Symbol} {name : String}

theorem planRename_keeps_bindings_sample :
    ∃ r p out r', resolve Sample.tree = .ok r ∧ Sample.classSymbol ∈ r.symbols ∧
      r.planRename Sample.tree Sample.classSymbol "Bar" = .ok p ∧
      p.plan.apply Sample.tree.source = .ok out ∧
      resolve (Sample.tree.edited p.plan.edits out) = .ok r' ∧
      ∃ o ∈ r'.occurrences, o.kind = .reference ∧ o.node = Sample.expression.node ∧
        r'.nameNode? o.symbol = some 3 := by
  have hr := resolve_eq_ok Sample.tree_isProgram
  have hs := Array.mem_of_getElem? Sample.class_symbol
  obtain ⟨out, r', happly, hr', hkept, -⟩ := planRename_keeps_bindings Sample.tree
    Sample.tree_wellFormed Sample.tree_grammatical _ hr Sample.classSymbol hs
    (fun _ _ _ _ m hm => by simp [Sample.not_constructor m] at hm) "Bar" _ Sample.plan_class
  refine ⟨_, _, out, r', hr, hs, Sample.plan_class, happly, hr', ?_⟩
  obtain ⟨o, ho, hkind, hnode, x, hx, hx'⟩ :=
    hkept Sample.expression Sample.expression_mem rfl Sample.classSymbol Sample.class_symbol rfl
  obtain rfl : x = 3 := Option.some.inj (hx.symm.trans (by decide +kernel))
  exact ⟨o, ho, hkind, hnode, hx'⟩

/-- A variable with a new name takes an expression of this name in its scope, if it is a field
or declared before. -/
def takes (r : Resolution) (t : Tree) (s : Symbol) (name : String) (o : Occurrence) : Bool :=
  t.text o.node == name && r.encloses s.scope o.scope &&
    (s.kind == .field || (r.declarationSpan s.id).start < o.span.start)

theorem exists_useAt_of_type (ht : t.IsProgram) {o : Occurrence} {b : Symbol}
    (ho : o ∈ (upTo t t.size).occurrences.toList) (hkind : o.kind = .reference)
    (hrole : t.role o.node = .uses .expression)
    (hb : (upTo t t.size).symbols[o.symbol]? = some b) (htype : b.kind = .type) :
    ∃ stack, UseAt t o.node stack .expression ∧ o = referenceAt t o.node stack o.symbol ∧
      (upTo t o.node).lookup? stack .var (t.text o.node) = none ∧
      (upTo t o.node).lookup? stack .type (t.text o.node) = some o.symbol := by
  obtain ⟨-, stack, target, hu, hf, he⟩ := (mem_references_iff ht (Nat.le_refl _) hkind).mp ho
  obtain rfl : Target.expression = target := by simpa [hrole] using hu.role
  have hle := Nat.le_of_lt hu.lt
  rcases Option.or_eq_some_iff.mp hf with hl | ⟨hvar, hl⟩
  · obtain ⟨b', hb', hspace, -⟩ := (sound_upTo ht hle).lookup? hl
    have hb' := getElem?_mono (upTo_extends ht hle (Nat.le_refl _)).symbols hb'
    rw [hb] at hb'
    simp [← Option.some.inj hb', htype, SymbolKind.space] at hspace
  · exact ⟨stack, hu, he, hvar, hl⟩

theorem takes_iff (ht : t.WellFormed) (hg : t.Grammatical)
    (hs : (upTo t t.size).symbols[s.id]? = some s) (hkind : s.kind.space = .var) {o : Occurrence}
    {stack : List ScopeId} {target : Target} (hu : UseAt t o.node stack target)
    (he : o = referenceAt t o.node stack o.symbol) :
    (upTo t t.size).takes t s name o ↔
      t.text o.node = name ∧ s.scope ∈ stack ∧ KnownAt t s o.node := by
  have hscope : o.scope = current stack := congrArg Occurrence.scope he
  have hspan : o.span = t.span o.node := congrArg Occurrence.span he
  simp only [takes, Bool.and_eq_true, Bool.or_eq_true, beq_iff_eq, decide_eq_true_eq, hscope, hspan,
    hu.encloses_iff ht.toIsProgram, and_assoc]
  refine and_congr_right fun _ => and_congr_right fun hmem => ?_
  exact (knownAt_iff ht hg hs hu hkind hmem).symm

theorem exists_expression (h : SafeRename t s name t') (hkind : s.kind.space = .var)
    {o : Occurrence} {b : Symbol} (ho : o ∈ (upTo t t.size).occurrences.toList)
    (hkind' : o.kind = .reference) (hrole : t.role o.node = .uses .expression)
    (hb : (upTo t t.size).symbols[o.symbol]? = some b) (htype : b.kind = .type) :
    ∃ o' ∈ (upTo t' t'.size).occurrences.toList, o'.kind = .reference ∧ o'.node = o.node ∧
      ∃ x, (upTo t' t'.size).nameNode? o'.symbol = some x ∧ (upTo t t.size).nameNode?
        (if (upTo t t.size).takes t s name o then s.id else o.symbol) = some x := by
  have hsound := sound_upTo h.isProgram (Nat.le_refl t.size)
  obtain ⟨stack, hu, he, hvar, hl⟩ := exists_useAt_of_type h.isProgram ho hkind' hrole hb htype
  obtain ⟨htaken, hkept⟩ := h.find?_expression hu hkind hvar hl
  have hfind : (Outline.upTo t' o.node).find? t' stack (t'.text o.node) .expression =
      (upTo t t.size).nameNode?
        (if (upTo t t.size).takes t s name o then s.id else o.symbol) := by
    have hiff : (upTo t t.size).takes t s name o ↔ _ :=
      takes_iff h.wellFormed h.grammatical h.symbol hkind hu he
    split
    next hc => exact htaken (hiff.mp hc)
    next hc => exact hkept (mt hiff.mpr hc)
  have hx : ∃ x, (upTo t t.size).nameNode?
      (if (upTo t t.size).takes t s name o then s.id else o.symbol) = some x := by
    split
    · exact hsound.exists_nameNode h.symbol
    · exact hsound.exists_nameNode hb
  obtain ⟨x, hx⟩ := hx
  obtain ⟨o', ho', hkind', hnode, hx'⟩ :=
    (h.useAt hu).exists_reference (h.toSameShape.isProgram h.isProgram) (hfind.trans hx)
  exact ⟨o', ho', hkind', hnode, x, hx', hx⟩

/-- An expression that is bound to a type keeps it when a variable is renamed, unless the
variable gets the name of the type and can be seen there. Then the expression is bound to the
variable. -/
theorem planRename_type_names (t : Tree) (ht : t.WellFormed) (hg : t.Grammatical)
    (r : Resolution) (hr : resolve t = .ok r) (s : Symbol) (hs : s ∈ r.symbols)
    (hkind : s.kind.space = .var) (name : String) (p : RenamePlan)
    (hp : r.planRename t s name = .ok p) :
    ∃ out r', p.plan.apply t.source = .ok out ∧ resolve (t.edited p.plan.edits out) = .ok r' ∧
      ∀ o ∈ r.occurrences, o.kind = .reference → t.role o.node = .uses .expression →
        ∀ b, r.symbols[o.symbol]? = some b → b.kind = .type →
          ∃ o' ∈ r'.occurrences, o'.kind = .reference ∧ o'.node = o.node ∧
            ∃ x, r'.nameNode? o'.symbol = some x ∧
              r.nameNode? (if r.takes t s name o then s.id else o.symbol) = some x := by
  obtain ⟨rfl, hsym⟩ := of_resolve_eq_ok ht.toIsProgram hr hs
  have hsound := sound_upTo ht.toIsProgram (Nat.le_refl t.size)
  by_cases hne : s.name = name
  · subst hne
    obtain ⟨happly, hedited⟩ := edited_of_same_name ht hsym hp
    refine ⟨t.source, (upTo t t.size).toResolution, happly, ?_, ?_⟩
    · rw [hedited, resolve_eq_ok ht.toIsProgram]
    intro o ho hkind' hrole b hb htype
    obtain ⟨stack, hu, he, hvar, -⟩ := exists_useAt_of_type ht.toIsProgram
      (Array.mem_toList_iff.mpr ho) hkind' hrole hb htype
    obtain ⟨x, hx⟩ := hsound.exists_nameNode hb
    refine ⟨o, ho, hkind', rfl, x, hx, ?_⟩
    rw [if_neg, hx]
    -- otherwise the expression would have been bound to a variable
    rw [takes_iff ht hg hsym hkind hu he]
    rintro ⟨htext, hscope, hknown⟩
    have hle := Nat.le_of_lt hu.lt
    refine hknown.bound?_ne_none ht.toIsProgram hle ?_
    rw [hkind, ← htext]
    exact bound?_of_lookup?_none ht.toIsProgram hle hvar s.scope hscope
  · obtain ⟨out, happly, h⟩ := exists_safeRename ht hg hsym
      (fun hm => by simp [hm, SymbolKind.space] at hkind) hne hp
    refine ⟨out, _, happly, resolve_eq_ok (h.toSameShape.isProgram ht.toIsProgram), ?_⟩
    intro o ho hkind' hrole b hb htype
    obtain ⟨o', ho', h'⟩ :=
      exists_expression h hkind (Array.mem_toList_iff.mpr ho) hkind' hrole hb htype
    exact ⟨o', Array.mem_toList_iff.mp ho', h'⟩

end Resolution

namespace Sample

theorem field_symbol : (upTo tree tree.size).symbols[fieldSymbol.id]? = some fieldSymbol :=
  tree_walked.2.1

theorem plan_field : (upTo tree tree.size).planRename tree fieldSymbol "Foo" =
    .ok ⟨fieldSymbol, "Foo", Resolution.renamePlan tree fieldSymbol
      ((upTo tree tree.size).renameEdits fieldSymbol "Foo"),
      (upTo tree tree.size).findingsFor fieldSymbol.id⟩ :=
  Resolution.planRename_eq_ok (tidy_upTo tree_isProgram (Nat.le_refl _)) tree_wellFormed
    field_symbol tree_walked.2.2.1 tree_walked.2.2.2.1

end Sample

/-- The expression stands for the class, and for the field once the field has its name. -/
theorem Resolution.planRename_type_names_sample :
    ∃ r p out r', resolve Sample.tree = .ok r ∧ Sample.fieldSymbol ∈ r.symbols ∧
      r.planRename Sample.tree Sample.fieldSymbol "Foo" = .ok p ∧
      p.plan.apply Sample.tree.source = .ok out ∧
      resolve (Sample.tree.edited p.plan.edits out) = .ok r' ∧
      Sample.expression ∈ r.occurrences ∧ r.nameNode? Sample.expression.symbol = some 3 ∧
      ∃ o ∈ r'.occurrences, o.kind = .reference ∧ o.node = Sample.expression.node ∧
        r'.nameNode? o.symbol = some 10 := by
  have hr := resolve_eq_ok Sample.tree_isProgram
  have hs := Array.mem_of_getElem? Sample.field_symbol
  obtain ⟨out, r', happly, hr', hnames⟩ := planRename_type_names Sample.tree
    Sample.tree_wellFormed Sample.tree_grammatical _ hr Sample.fieldSymbol hs rfl "Foo" _
    Sample.plan_field
  refine ⟨_, _, out, r', hr, hs, Sample.plan_field, happly, hr', Sample.expression_mem,
    by decide +kernel, ?_⟩
  obtain ⟨o, ho, hkind, hnode, x, hx', hx⟩ := hnames Sample.expression Sample.expression_mem rfl
    (by decide +kernel) Sample.classSymbol Sample.class_symbol rfl
  obtain rfl : x = 10 := Option.some.inj (hx.symm.trans (by decide +kernel))
  exact ⟨o, ho, hkind, hnode, hx'⟩

end JavaRefactor
