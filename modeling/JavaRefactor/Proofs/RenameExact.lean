import JavaRefactor.Proofs.Finalize
import JavaRefactor.Proofs.Frames
import JavaRefactor.Proofs.Occurrence
import JavaRefactor.Rename.Plan

/-! # Renames are exact

The occurrences of a symbol cover different names of the tree, so their spans lie apart and a
plan to rename the symbol has no conflicts. Applied, it puts the new name in the place of
every occurrence and leaves all else as it is.
-/

namespace JavaRefactor

namespace Tree

variable {t : Tree} {u v : Nat}

theorem Readable.slice_name (h : t.Readable) (hu : t.IsName u) :
    Text.slice? t.source (t.span u) = some (t.text u) := by
  have hd := Text.isSome_divide?_iff.mpr ⟨h.forward u hu, h.cut u hu⟩
  obtain ⟨parts, hparts⟩ := Option.isSome_iff_exists.mp hd
  simp [text, Text.slice?, hparts]

theorem Readable.start_lt_stop (h : t.Readable) (hu : t.IsName u) (hne : t.text u ≠ "") :
    (t.span u).start < (t.span u).stop := by
  apply Nat.lt_of_le_of_ne (h.forward u hu)
  intro heq
  obtain ⟨a, b, hab, hwidth⟩ := (h.cut u hu).1
  have hd : Text.divide? t.source.toList (t.span u) = some ⟨a, [], b⟩ :=
    Text.divide?_eq_some_iff.mpr ⟨by simpa using hab, hwidth, by simpa using hwidth.trans heq⟩
  exact hne (by simp [text, Text.slice?, hd])

theorem Readable.apart_spans (h : t.Readable) (hu : t.IsName u) (hv : t.IsName v) (hne : u ≠ v) :
    (t.span u).Apart (t.span v) := by
  rcases Nat.lt_or_gt_of_ne hne with huv | hvu
  · exact Or.inl (h.name_before hu huv (h.lt_size_of_isName hv))
  · exact Or.inr (h.name_before hv hvu (h.lt_size_of_isName hu))

theorem WellFormed.compatible_spans (h : t.WellFormed) (hu : t.IsName u) (hv : t.IsName v)
    (hne : u ≠ v) : (t.span u).Compatible (t.span v) := by
  refine ⟨h.readable.apart_spans hu hv hne, ?_⟩
  rcases Nat.lt_or_gt_of_ne hne with huv | hvu
  · exact Nat.ne_of_lt (h.start_lt_of_lt hu huv (h.lt_size_of_isName hv))
  · exact Nat.ne_of_gt (h.start_lt_of_lt hv hvu (h.lt_size_of_isName hu))

end Tree

namespace EditPlan

theorem foldl_push (edits : List TextEdit) (plan : EditPlan) (hv : plan.valid = false) :
    edits.foldl push plan = { plan with edits := plan.edits ++ edits } := by
  induction edits generalizing plan with
  | nil => simp
  | cons e edits ih =>
    rw [List.foldl_cons, ih _ rfl]
    simp [push, hv]

end EditPlan

namespace Resolution

variable {t : Tree} {r : Resolution} {s : Symbol} {name : String}

theorem mem_occurrencesOf {w : Walk} {k : Nat} (h : Walk.Tidy t k w)
    (hs : w.symbols[s.id]? = some s) {o : Occurrence} (ho : o ∈ w.occurrencesOf s.id) :
    t.IsName o.node ∧ o.span = t.span o.node ∧ t.text o.node = s.name := by
  obtain ⟨ho, hid⟩ := List.mem_filter.mp ((Walk.perm_occurrencesOf _ _).mem_iff.mp ho)
  obtain ⟨s', hs', htext, hspan, -⟩ := h.occurs o ho
  rw [beq_iff_eq.mp hid, hs] at hs'
  obtain rfl := Option.some.inj hs'
  exact ⟨(h.traced o ho).isName, hspan, htext⟩

theorem renameEdits_fit {w : Walk} {k : Nat} (h : Walk.Tidy t k w) (ht : t.WellFormed)
    (hs : w.symbols[s.id]? = some s) (name : String) :
    (∀ e ∈ w.renameEdits s name, e.newText = name ∧ Text.slice? t.source e.span = some s.name ∧
      e.span.start ≤ e.span.stop ∧ e.span.stop ≤ Text.byteLength t.source ∧
      Text.IsBoundary t.source.toList e.span.start ∧
      Text.IsBoundary t.source.toList e.span.stop) ∧
    (w.renameEdits s name).Pairwise fun d e => d.span.Compatible e.span := by
  unfold renameEdits
  split
  · simp
  refine ⟨fun e he => ?_, ?_⟩
  · obtain ⟨o, ho, rfl⟩ := List.mem_map.mp he
    obtain ⟨hname, hspan, htext⟩ := mem_occurrencesOf h hs ho
    have hcut := ht.cut o.node hname
    simp only [hspan, true_and]
    exact ⟨by rw [ht.readable.slice_name hname, htext], Nat.le_of_lt (ht.nonempty _ hname),
      hcut.2.le_width, hcut⟩
  · have hnodup := h.nodup_occurrencesOf s.id
    rw [List.Nodup, List.pairwise_map] at hnodup
    rw [List.pairwise_map]
    refine hnodup.imp_of_mem fun {o o'} ho ho' hne => ?_
    obtain ⟨hname, hspan, -⟩ := mem_occurrencesOf h hs ho
    obtain ⟨hname', hspan', -⟩ := mem_occurrencesOf h hs ho'
    simp only [hspan, hspan']
    exact ht.compatible_spans hname hname' hne

def renamePlan (t : Tree) (symbol : Symbol) (edits : List TextEdit) : EditPlan :=
  { sourceHash := .ofText t.source
    sourceLength := Text.byteLength t.source
    edits := sortBy (fun a b => b.span.le a.span) edits
    valid := true
    labels := { operation := some "rename", symbol := some symbol.name } }

theorem finalizeRename_eq_ok_iff {edits : List TextEdit} {plan : EditPlan} :
    finalizeRename t s edits = .ok plan ↔
      EditPlan.Clear (Text.byteLength t.source) edits ∧ plan = renamePlan t s edits := by
  unfold finalizeRename
  simp only
  rw [EditPlan.foldl_push _ _ rfl]
  constructor
  · intro h
    split at h
    next => cases h
    next hok =>
      obtain rfl := Except.ok.inj h
      simpa [renamePlan, EditPlan.sortEdits, EditPlan.withLabels, EditPlan.ofSource] using
        EditPlan.finalize_eq_ok_iff.mp hok
  · rintro ⟨hclear, rfl⟩
    rw [EditPlan.finalize_eq_ok_iff.mpr ⟨?_, rfl⟩]
    · simp [renamePlan, EditPlan.sortEdits, EditPlan.withLabels, EditPlan.ofSource]
    · simpa [EditPlan.withLabels, EditPlan.ofSource] using hclear

/-- A rename is refused for its name or for a collision, never for a conflict of edits. -/
theorem planRename_eq {w : Walk} {k : Nat} (h : Walk.Tidy t k w) (ht : t.WellFormed)
    (hs : w.symbols[s.id]? = some s) :
    w.planRename t s name =
      match Identifier.validateFor s.kind name with
      | .error e => .error (.invalidName e)
      | .ok _ =>
        match if s.name = name then none else w.collision? t s name with
        | some collision => .error (.nameCollision name collision)
        | none => .ok ⟨s, name, renamePlan t s (w.renameEdits s name), w.findingsFor s.id⟩ := by
  obtain ⟨hfit, hcompat⟩ := renameEdits_fit h ht hs name
  have hok : finalizeRename t s (w.renameEdits s name) = .ok _ := finalizeRename_eq_ok_iff.mpr
    ⟨⟨fun e he => ⟨(hfit e he).2.2.1, (hfit e he).2.2.2.1⟩, hcompat⟩, rfl⟩
  unfold planRename
  rw [hok]
  rfl

theorem planRename_eq_ok {w : Walk} {k : Nat} (h : Walk.Tidy t k w) (ht : t.WellFormed)
    (hs : w.symbols[s.id]? = some s) (hvalid : Identifier.validateFor s.kind name = .ok ())
    (hc : w.collision? t s name = none) :
    w.planRename t s name =
      .ok ⟨s, name, renamePlan t s (w.renameEdits s name), w.findingsFor s.id⟩ := by
  rw [planRename_eq h ht hs]
  simp [hvalid, hc]

theorem of_planRename_eq_ok {w : Walk} {k : Nat} (h : Walk.Tidy t k w) (ht : t.WellFormed)
    (hs : w.symbols[s.id]? = some s) {p : RenamePlan} (hp : w.planRename t s name = .ok p) :
    p.plan = renamePlan t s (w.renameEdits s name) ∧
      (s.name ≠ name → w.collision? t s name = none) := by
  rw [planRename_eq h ht hs] at hp
  split at hp
  · simp at hp
  · split at hp
    · simp at hp
    next hc =>
      obtain rfl := Except.ok.inj hp
      exact ⟨rfl, fun hne => by simpa [hne] using hc⟩

/-- Also in a tree with empty names, the edits of a rename that is not refused lie apart. -/
theorem clear_of_planRename {w : Walk} {p : RenamePlan} (hp : w.planRename t s name = .ok p) :
    EditPlan.Clear (Text.byteLength t.source) (w.renameEdits s name) ∧
      p.plan = renamePlan t s (w.renameEdits s name) := by
  unfold planRename at hp
  split at hp
  next => cases hp
  next =>
    simp only at hp
    split at hp
    next => cases hp
    next =>
      cases hplan : finalizeRename t s (w.renameEdits s name) with
      | error e => simp [hplan, Except.map] at hp
      | ok plan =>
        rw [hplan] at hp
        obtain rfl := Except.ok.inj hp
        exact finalizeRename_eq_ok_iff.mp hplan

theorem renamePlan_apply {edits : List TextEdit}
    (hf : ∀ e ∈ edits, e.span.start ≤ e.span.stop ∧ e.span.stop ≤ Text.byteLength t.source ∧
      Text.IsBoundary t.source.toList e.span.start ∧ Text.IsBoundary t.source.toList e.span.stop)
    (hc : edits.Pairwise fun d e => d.span.Compatible e.span) :
    (renamePlan t s edits).apply t.source =
      .ok (String.ofList (EditPlan.weave t.source.toList 0 (renamePlan t s edits).ascending)) := by
  have hperm : (renamePlan t s edits).edits.Perm edits := sortBy_perm _ _
  refine EditPlan.apply_eq_ok_iff.mpr ⟨rfl, rfl, fun e he => hf e (hperm.mem_iff.mp he), ?_, rfl⟩
  exact (hperm.pairwise_iff Span.Compatible.symm).mpr hc

theorem of_resolve_eq_ok (ht : t.IsProgram) (hr : resolve t = .ok r) (hs : s ∈ r.symbols) :
    r = (Walk.upTo t t.size).toResolution ∧ (Walk.upTo t t.size).symbols[s.id]? = some s := by
  rw [resolve_eq_ok ht] at hr
  obtain rfl := Except.ok.inj hr
  obtain ⟨k, hk⟩ := Array.mem_iff_getElem?.mp hs
  rw [(Walk.sound_upTo ht (Nat.le_refl t.size)).ids k s hk]
  exact ⟨rfl, hk⟩

/-- A rename never has conflicting edits. When it is not refused, it has one edit for every
occurrence of the symbol, from the last to the first, and applying them replaces each
occurrence of the old name by the new one and nothing else. -/
theorem planRename_exact (t : Tree) (ht : t.WellFormed) (r : Resolution) (hr : resolve t = .ok r)
    (s : Symbol) (hs : s ∈ r.symbols) (name : String) (hname : s.name ≠ name) :
    (∀ conflicts, r.planRename t s name ≠ .error (.conflict conflicts)) ∧
    ∀ p, r.planRename t s name = .ok p →
      (p.plan.edits.map (·.span)).Perm
        ((r.occurrences.toList.filter fun o => o.symbol == s.id).map (·.span)) ∧
      (∀ e ∈ p.plan.edits, e.newText = name ∧ Text.slice? t.source e.span = some s.name) ∧
      p.plan.edits.Pairwise (fun d e => e.span.start < d.span.start) ∧
      p.plan.apply t.source =
        .ok (String.ofList (EditPlan.weave t.source.toList 0 p.plan.ascending)) := by
  obtain ⟨rfl, hsym⟩ := of_resolve_eq_ok ht.toIsProgram hr hs
  have htidy := Walk.tidy_upTo ht.toIsProgram (Nat.le_refl t.size)
  obtain ⟨hfit, hcompat⟩ := renameEdits_fit htidy ht hsym name
  constructor
  · intro conflicts
    rw [planRename_eq htidy ht hsym]
    split
    · simp
    · split <;> simp
  · intro p hp
    rw [(of_planRename_eq_ok htidy ht hsym hp).1]
    have hperm := sortBy_perm (fun a b : TextEdit => b.span.le a.span)
      ((Walk.upTo t t.size).renameEdits s name)
    refine ⟨(hperm.map _).trans ?_, fun e he => ?_,
      EditPlan.pairwise_sortBy_descending hcompat,
      renamePlan_apply (fun e he => (hfit e he).2.2) hcompat⟩
    · rw [renameEdits, if_neg hname, List.map_map]
      exact (Walk.perm_occurrencesOf _ _).map _
    · obtain ⟨hnew, hold, -⟩ := hfit e (hperm.mem_iff.mp he)
      exact ⟨hnew, hold⟩

end Resolution

namespace Sample

open Walk

def classSymbol : Symbol := ⟨0, "Foo", .type, 1, 0, none⟩

theorem class_walked : let r := upTo tree tree.size
    r.symbols[classSymbol.id]? = some classSymbol ∧
    Identifier.validateFor classSymbol.kind "Bar" = .ok () ∧
    r.collision? tree classSymbol "Bar" = none ∧ (∀ s ∈ r.symbols.toList, s.name ≠ "Bar") ∧
    (∀ use ∈ r.unresolved, use.name ≠ "Bar") ∧ (r.occurrencesOf classSymbol.id).length = 3 := by
  decide +kernel

theorem class_symbol : (upTo tree tree.size).symbols[classSymbol.id]? = some classSymbol :=
  class_walked.1

theorem plan_class : (upTo tree tree.size).planRename tree classSymbol "Bar" =
    .ok ⟨classSymbol, "Bar", Resolution.renamePlan tree classSymbol
      ((upTo tree tree.size).renameEdits classSymbol "Bar"),
      (upTo tree tree.size).findingsFor classSymbol.id⟩ :=
  Resolution.planRename_eq_ok (tidy_upTo tree_isProgram (Nat.le_refl _)) tree_wellFormed
    class_symbol class_walked.2.1 class_walked.2.2.1

end Sample

theorem Resolution.planRename_exact_sample :
    ∃ r p, resolve Sample.tree = .ok r ∧ Sample.classSymbol ∈ r.symbols ∧
      r.planRename Sample.tree Sample.classSymbol "Bar" = .ok p ∧
      p.plan.edits.map (·.span.start) = [37, 30, 6] ∧ p.plan.apply Sample.tree.source =
        .ok "class Bar \x7b int b; void m() \x7b Bar x; Bar.g(); \x7d \x7d" := by
  have hr := resolve_eq_ok Sample.tree_isProgram
  have hs := Array.mem_of_getElem? Sample.class_symbol
  have hp := Sample.plan_class
  refine ⟨_, _, hr, hs, hp, by decide +kernel, ?_⟩
  rw [((planRename_exact Sample.tree Sample.tree_wellFormed _ hr Sample.classSymbol hs "Bar"
    (by decide)).2 _ hp).2.2.2]
  exact congrArg Except.ok (by decide +kernel)

end JavaRefactor
