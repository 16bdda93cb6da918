import JavaRefactor.Analysis
import JavaRefactor.Proofs.Enclosing
import JavaRefactor.Proofs.Lines
import JavaRefactor.Proofs.OccurrenceIndex
import JavaRefactor.Proofs.RenameExact

/-! # Symbols at positions

Whatever position is asked, in a recorded name or right behind it, the index of occurrences leads
to the symbol that is recorded there.
-/

namespace JavaRefactor

namespace Walk

variable {t : Tree} {n : Nat} {o : Occurrence}

theorem start_lt_stop (ht : t.WellFormed) (ho : o ∈ (upTo t t.size).occurrences.toList) :
    o.span.start < o.span.stop := span_lt ht.toSeparated ho

theorem occurs_of_mem (ho : o ∈ (upTo t t.size).occurrences.toList) :
    (upTo t t.size).Occurs o.symbol o.span :=
  Resolution.occurs_iff.mpr ⟨o, ho, rfl, rfl⟩

theorem occurrenceAt?_eq (ht : t.WellFormed) (hb : t.TypesHaveBodies)
    (ho : o ∈ (upTo t t.size).occurrences.toList) (hstart : o.span.start ≤ n)
    (hstop : n < o.span.stop) :
    (upTo t t.size).occurrenceAt? n = some (o.span, o.symbol) := by
  have hcontains := (Span.containsOffset_iff (start_lt_stop ht ho)).mpr ⟨hstart, hstop⟩
  exact (lastStarting?_filter_eq_some_iff ht.toSeparated hb (selects_containsOffset n)).mpr
    ⟨occurs_of_mem ho, hcontains⟩

/-- Right behind a recorded name the index finds it, unless another one starts there. -/
theorem occurrenceEndingAt?_eq (ht : t.WellFormed) (hb : t.TypesHaveBodies)
    (ho : o ∈ (upTo t t.size).occurrences.toList)
    (hfree : ∀ o' ∈ (upTo t t.size).occurrences.toList, o'.span.start ≠ o.span.stop) :
    (upTo t t.size).occurrenceAt? o.span.stop = none ∧
      (upTo t t.size).occurrenceEndingAt? o.span.stop = some (o.span, o.symbol) := by
  constructor
  · apply (scans_lastStarting? ht.toSeparated (selects_containsOffset o.span.stop)).none_iff.mpr
    intro span id hocc hcontains
    obtain ⟨o', ho', -, rfl⟩ := Resolution.occurs_iff.mp hocc
    obtain ⟨hle, hlt⟩ := (Span.containsOffset_iff (start_lt_stop ht ho')).mp hcontains
    have hne := hfree o' ho'
    -- the other name starts before the end of this one and ends behind it
    have hlater : ¬ o.span.start < o'.span.start := fun h => by
      have := stop_le_start ht.toSeparated ho ho' h
      omega
    have hearlier : ¬ o'.span.start < o.span.start := fun h => by
      have := stop_le_start ht.toSeparated ho' ho h
      have := start_lt_stop ht ho
      omega
    have hspan := (node_eq_of_start_eq ht.toSeparated ho' ho (by omega)).2
    rw [hspan] at hlt
    exact Nat.lt_irrefl _ hlt
  · exact (lastStarting?_filter_eq_some_iff ht.toSeparated hb (selects_stop o.span.stop)).mpr
      ⟨occurs_of_mem ho, by simp⟩

end Walk

namespace Resolution

variable {t : Tree} {r : Resolution} {n : Nat} {span : Span} {id : SymbolId}

theorem symbolAt_of_occurrenceAt? (hcheck : t.checkOffset n = .ok ())
    (h : r.occurrenceAt? n = some (span, id)) : r.symbolAt t n = .ok id := by
  simp [symbolAt, hcheck, h, bind, Except.bind, pure, Except.pure]

theorem symbolAt_of_occurrenceEndingAt? (hcheck : t.checkOffset n = .ok ())
    (hnone : r.occurrenceAt? n = none) (h : r.occurrenceEndingAt? n = some (span, id)) :
    r.symbolAt t n = .ok id := by
  simp [symbolAt, hcheck, hnone, h, bind, Except.bind, pure, Except.pure]

end Resolution

theorem Tree.source_ofRaw (source : String) (raw : RawTree) :
    (Tree.ofRaw source raw).source = source := rfl

namespace Analysis

variable {parser : Parser} {path source : String} {a : Analysis} {s : Symbol} {n : Nat}

theorem of_run_eq_ok (h : run parser path source = .ok a) :
    a.path = path ∧ a.source = source ∧ resolve a.tree = .ok a.names ∧
      ∃ raw, parser source = .ok raw ∧ a.tree = Tree.ofRaw source raw := by
  unfold run at h
  split at h
  next => simp at h
  next raw hraw =>
    simp only at h
    split at h
    next => simp at h
    next names hnames =>
      obtain rfl := Except.ok.inj h
      exact ⟨rfl, Tree.source_ofRaw source raw, hnames, raw, hraw, rfl⟩

theorem locate_eq_ok (hcut : Text.IsBoundary a.source.toList n)
    (hat : a.names.symbolAt a.tree n = .ok s.id) (hs : a.names.symbols[s.id]? = some s) :
    a.locate (.ofOffset a.source n) = .ok s := by
  have hoffset : a.offsetAt (.ofOffset a.source n) = .ok n := by
    simp [offsetAt, Position.toOffset?_ofOffset hcut]
  simp [locate, hoffset, hat, hs, bind, Except.bind, pure, Except.pure]

/-- Every entry of the references of a symbol leads back to the symbol: from all positions in the
name, and from the one right behind it unless another name starts there. -/
theorem locate_references (hrun : run parser path source = .ok a) (ht : a.tree.WellFormed)
    (hb : a.tree.TypesHaveBodies) (hlen : Text.byteLength source < Decimal.word32 - 1)
    (hs : s ∈ a.names.symbols) {ref : ReferenceInfo} (href : ref ∈ a.references s) :
    ∃ span : Span, ref.location = .ofSpan path source span ∧ span.start < span.stop ∧
      (∀ n, Text.IsBoundary source.toList n → a.tree.IsReadableAt n →
        span.start ≤ n ∧ n < span.stop ∨
          n = span.stop ∧ (∀ o ∈ a.names.occurrences.toList, o.span.start ≠ n) →
        (Position.ofOffset source n).line < Decimal.word32 ∧
          (Position.ofOffset source n).col < Decimal.word32 ∧
          a.locate (.ofOffset source n) = .ok s) := by
  obtain ⟨rfl, rfl, hr, -⟩ := of_run_eq_ok hrun
  obtain ⟨hnames, hsym⟩ := Resolution.of_resolve_eq_ok ht.toIsProgram hr hs
  rw [← hnames] at hsym
  obtain ⟨o, ho, rfl⟩ := List.mem_map.mp href
  obtain ⟨ho, hid⟩ := List.mem_filter.mp ((Walk.perm_occurrencesOf _ _).mem_iff.mp ho)
  have hid := beq_iff_eq.mp hid
  rw [hnames] at ho
  refine ⟨o.span, rfl, Walk.start_lt_stop ht ho, fun n hcut hread hplace => ?_⟩
  obtain ⟨hline, hcol⟩ := Position.ofOffset_le hcut
  refine ⟨by lia, by lia, locate_eq_ok hcut ?_ hsym⟩
  have hcheck := Tree.checkOffset_eq_ok hcut.le_width hread
  rw [← hid]
  rcases hplace with ⟨hstart, hstop⟩ | ⟨rfl, hfree⟩
  · have hfound := Walk.occurrenceAt?_eq ht hb ho hstart hstop
    rw [← hnames] at hfound
    exact Resolution.symbolAt_of_occurrenceAt? hcheck hfound
  · rw [hnames] at hfree
    obtain ⟨hnone, hfound⟩ := Walk.occurrenceEndingAt?_eq ht hb ho hfree
    rw [← hnames] at hnone hfound
    exact Resolution.symbolAt_of_occurrenceEndingAt? hcheck hnone hfound

end Analysis

namespace Sample

def analysis : Analysis := ⟨"Foo.java", tree, (Walk.upTo tree tree.size).toResolution⟩

theorem run_eq_analysis : Analysis.run parser "Foo.java" tree.source = .ok analysis := by
  have hr := resolve_eq_ok tree_isProgram
  have htree : Tree.ofRaw tree.source ((RawTree.ofRows? rows).getD default) = tree := rfl
  simp only [Analysis.run, parser, htree, hr, analysis]

def classReference : ReferenceInfo := ⟨.ofSpan "Foo.java" tree.source ⟨37, 40⟩, "reference"⟩

theorem class_recorded : classSymbol ∈ analysis.names.symbols ∧
    classReference ∈ analysis.references classSymbol ∧
    ∀ o ∈ analysis.names.occurrences.toList, o.span.start ≠ 40 := by
  obtain ⟨hocc, hsym, -⟩ := tree_recorded
  have hnames : analysis.names = (Walk.upTo tree tree.size).toResolution := by rw [analysis]
  refine ⟨?_, List.mem_map.mpr ⟨⟨0, 27, ⟨37, 40⟩, .reference, 2⟩, ?_, rfl⟩, ?_⟩
  · simp [hnames, hsym, classSymbol]
  · rw [hnames, (Walk.perm_occurrencesOf _ _).mem_iff]
    simp [hocc, classSymbol]
  · simp [hnames, hocc]

end Sample

theorem Analysis.locate_references_sample :
    Sample.classReference ∈ Sample.analysis.references Sample.classSymbol ∧
      Sample.analysis.locate (.ofOffset Sample.tree.source 38) = .ok Sample.classSymbol ∧
      Sample.analysis.locate (.ofOffset Sample.tree.source 40) = .ok Sample.classSymbol := by
  obtain ⟨hmem, href, hfree⟩ := Sample.class_recorded
  obtain ⟨⟨start, stop⟩, hspan, -, hat⟩ := locate_references Sample.run_eq_analysis
    Sample.tree_wellFormed Sample.tree_grammatical.typesHaveBodies (by decide +kernel) hmem href
  obtain ⟨-, -, -, hstart, hstop⟩ := Location.mk.inj hspan
  obtain rfl : 37 = start := Option.some.inj hstart
  obtain rfl : 40 = stop := Option.some.inj hstop
  exact ⟨href, (hat 38 (by decide +kernel) (by decide +kernel) (Or.inl (by decide))).2.2,
    (hat 40 (by decide +kernel) (by decide +kernel) (Or.inr ⟨rfl, hfree⟩)).2.2⟩

end JavaRefactor
