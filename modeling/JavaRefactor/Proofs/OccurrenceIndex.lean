import JavaRefactor.Proofs.Account

/-! # The index of occurrences

The names that are recorded lie apart in the text, and the index holds them in the order of their
starts. So of all occurrences only one can contain an offset or end there, the last one that starts
early enough, and the halving search of the index finds what a scan of all occurrences would find.
-/

namespace JavaRefactor

namespace Resolution

variable {r : Resolution} {test : Nat → Bool} {id : SymbolId} {span : Span}

def Occurs (r : Resolution) (id : SymbolId) (span : Span) : Prop :=
  ∃ o ∈ r.occurrencesOf id, o.span = span

theorem occurs_iff :
    r.Occurs id span ↔ ∃ o ∈ r.occurrences.toList, o.symbol = id ∧ o.span = span := by
  simp only [Occurs, (Walk.perm_occurrencesOf r id).mem_iff, List.mem_filter, beq_iff_eq, and_assoc]

theorem pairwise_index_le (r : Resolution) :
    r.index.Pairwise fun a b => a.1.start ≤ b.1.start :=
  pairwise_sortBy_le (fun e : Span × SymbolId => e.1.start) _

/-- The halving search finds the last entry that starts early enough, if there is one. -/
theorem lastStarting?_cases (r : Resolution) (htest : ∀ m n, m ≤ n → test n → test m) :
    r.lastStarting? test = none ∧ (∀ e ∈ r.index, ¬ test e.1.start) ∨
      ∃ e ∈ r.index, r.lastStarting? test = some e ∧ test e.1.start ∧
        ∀ e' ∈ r.index, test e'.1.start → e'.1.start ≤ e.1.start := by
  have hfirst : r.index.Pairwise fun a b => test b.1.start → test a.1.start :=
    r.pairwise_index_le.imp fun h => htest _ _ h
  have hpoint := partitionPoint_eq_countP hfirst
  unfold lastStarting?
  simp only [hpoint, List.getElem?_toArray]
  cases hk : r.index.countP fun e => test e.1.start with
  | zero => exact Or.inl ⟨rfl, List.countP_eq_zero.mp hk⟩
  | succ k =>
    have hlen : k < r.index.length := by
      have := List.countP_le_length (p := fun e : Span × SymbolId => test e.1.start) (l := r.index)
      omega
    have he := List.getElem?_eq_getElem hlen
    refine Or.inr ⟨_, List.getElem_mem hlen, he, ?_, fun e' he' hpass => ?_⟩
    · rw [test_iff_lt_countP hfirst he]
      omega
    · obtain ⟨i, hi, rfl⟩ := List.mem_iff_getElem.mp he'
      have hik := (test_iff_lt_countP hfirst (List.getElem?_eq_getElem hi)).mp hpass
      rcases Nat.lt_or_eq_of_le (show i ≤ k by omega) with hlt | rfl
      · exact List.pairwise_iff_getElem.mp r.pairwise_index_le i k hi hlen hlt
      · exact Nat.le_refl _

end Resolution

/-- Of spans that lie apart, the last whose start passes the test is the only one that can be
accepted. -/
structure Selects (test : Nat → Bool) (accept : Span → Bool) : Prop where
  before : ∀ m n, m ≤ n → test n → test m
  start : ∀ s : Span, s.start < s.stop → accept s → test s.start
  stop : ∀ s : Span, s.start < s.stop → accept s → ¬ test s.stop

theorem Span.containsOffset_iff {s : Span} {n : Nat} (h : s.start < s.stop) :
    s.containsOffset n ↔ s.start ≤ n ∧ n < s.stop := by
  simp [containsOffset, isEmpty, Nat.ne_of_lt h]

theorem selects_containsOffset (n : Nat) : Selects (· ≤ n) (·.containsOffset n) where
  before := by simp; omega
  start := by
    intro s hs h
    simpa using ((Span.containsOffset_iff hs).mp h).1
  stop := by
    intro s hs h
    simpa using ((Span.containsOffset_iff hs).mp h).2

theorem selects_stop (n : Nat) : Selects (· < n) (·.stop == n) where
  before := by simp; omega
  start := by simp; omega
  stop := by simp; omega

namespace Walk

variable {t : Tree} {w : Walk} {o o' : Occurrence} {test : Nat → Bool} {accept : Span → Bool}

theorem Sound.perm_index (h : Sound t w) :
    w.index.Perm (w.occurrences.toList.map fun o => (o.span, o.symbol)) := by
  refine (sortBy_perm _ _).trans (List.Perm.trans (List.Perm.of_eq ?_) (h.perm_namings.map _))
  rw [Resolution.namings, List.map_flatMap]
  congr 1
  funext s
  refine List.map_congr_left fun o ho => ?_
  have hmem := (perm_occurrencesOf w.toResolution s.id).mem_iff.mp ho
  rw [beq_iff_eq.mp (List.mem_filter.mp hmem).2]

theorem mem_index (ht : t.IsProgram) {e : Span × SymbolId} :
    e ∈ (upTo t t.size).index ↔
      ∃ o ∈ (upTo t t.size).occurrences.toList, (o.span, o.symbol) = e := by
  rw [(sound_upTo ht (Nat.le_refl _)).perm_index.mem_iff, List.mem_map]

theorem isName_of_mem_occurrences (ht : t.IsProgram)
    (ho : o ∈ (upTo t t.size).occurrences.toList) : t.IsName o.node ∧ o.span = t.span o.node := by
  have htidy := tidy_upTo ht (Nat.le_refl t.size)
  obtain ⟨-, -, -, hspan, -⟩ := htidy.occurs o ho
  exact ⟨(htidy.traced o ho).isName, hspan⟩

section Separated

variable (ht : t.Separated)
include ht

theorem span_lt (ho : o ∈ (upTo t t.size).occurrences.toList) : o.span.start < o.span.stop := by
  obtain ⟨hn, hs⟩ := isName_of_mem_occurrences ht.toIsProgram ho
  exact hs ▸ ht.nonempty _ hn

theorem stop_le_start (ho : o ∈ (upTo t t.size).occurrences.toList)
    (ho' : o' ∈ (upTo t t.size).occurrences.toList) (hlt : o.span.start < o'.span.start) :
    o.span.stop ≤ o'.span.start := by
  obtain ⟨hn, hs⟩ := isName_of_mem_occurrences ht.toIsProgram ho
  obtain ⟨hn', hs'⟩ := isName_of_mem_occurrences ht.toIsProgram ho'
  rw [hs, hs'] at hlt ⊢
  exact ht.name_before hn ((ht.start_lt_iff hn hn').mp hlt) (ht.lt_size_of_isName hn')

theorem node_eq_of_start_eq (ho : o ∈ (upTo t t.size).occurrences.toList)
    (ho' : o' ∈ (upTo t t.size).occurrences.toList) (heq : o.span.start = o'.span.start) :
    o.node = o'.node ∧ o.span = o'.span := by
  obtain ⟨hn, hs⟩ := isName_of_mem_occurrences ht.toIsProgram ho
  obtain ⟨hn', hs'⟩ := isName_of_mem_occurrences ht.toIsProgram ho'
  rw [hs, hs'] at heq
  have hnode := ht.eq_of_start_eq hn hn' heq
  exact ⟨hnode, by rw [hs, hs', hnode]⟩

theorem exists_lastStarting? (h : Selects test accept)
    (ho : o ∈ (upTo t t.size).occurrences.toList) (hacc : accept o.span) :
    ∃ o' ∈ (upTo t t.size).occurrences.toList, o'.node = o.node ∧ o'.span = o.span ∧
      (upTo t t.size).lastStarting? test = some (o'.span, o'.symbol) := by
  have hlt := span_lt ht ho
  have hmem := (mem_index ht.toIsProgram).mpr ⟨o, ho, rfl⟩
  rcases (upTo t t.size).lastStarting?_cases h.before with ⟨-, hnone⟩ | ⟨e, he, hlast, hpass, hmax⟩
  · exact absurd (h.start o.span hlt hacc) (hnone _ hmem)
  · obtain ⟨o', ho', rfl⟩ := (mem_index ht.toIsProgram).mp he
    have hle := hmax _ hmem (h.start o.span hlt hacc)
    -- a name that starts later starts behind the accepted one, too late for the test
    have hge : o'.span.start ≤ o.span.start := by
      apply Nat.le_of_not_lt
      intro hlater
      exact h.stop o.span hlt hacc (h.before _ _ (stop_le_start ht ho ho' hlater) hpass)
    obtain ⟨hnode, hspan⟩ := node_eq_of_start_eq ht ho' ho (Nat.le_antisymm hge hle)
    exact ⟨o', ho', hnode, hspan, hlast⟩

end Separated

end Walk

/-- What a search answers is what a scan of all occurrences shows. -/
structure Resolution.Scans (r : Resolution) (accept : Span → Bool)
    (answer : Option (Span × SymbolId)) : Prop where
  found : ∀ span id, answer = some (span, id) → r.Occurs id span ∧ accept span
  none_iff : answer = none ↔ ∀ span id, r.Occurs id span → ¬ accept span

namespace Walk

variable {t : Tree} {test : Nat → Bool} {accept : Span → Bool} {id : SymbolId} {span : Span}

theorem scans_lastStarting? (ht : t.Separated) (h : Selects test accept) :
    (upTo t t.size).Scans accept
      (((upTo t t.size).lastStarting? test).filter fun entry => accept entry.1) := by
  have hfound (span : Span) (id : SymbolId)
      (hsome : ((upTo t t.size).lastStarting? test).filter (fun e => accept e.1) =
        some (span, id)) :
      (upTo t t.size).Occurs id span ∧ accept span := by
    obtain ⟨hlast, hacc⟩ := Option.filter_eq_some_iff.mp hsome
    rcases (upTo t t.size).lastStarting?_cases h.before with ⟨hnone, -⟩ | ⟨e, he, hsome, -⟩
    · simp [hnone] at hlast
    · obtain rfl := Option.some.inj (hlast.symm.trans hsome)
      obtain ⟨o, ho, heq⟩ := (mem_index ht.toIsProgram).mp he
      obtain ⟨rfl, rfl⟩ := Prod.mk.inj heq
      exact ⟨Resolution.occurs_iff.mpr ⟨o, ho, rfl, rfl⟩, hacc⟩
  refine ⟨hfound, ?_⟩
  constructor
  · intro hnone span id hocc hacc
    obtain ⟨o, ho, rfl, rfl⟩ := Resolution.occurs_iff.mp hocc
    obtain ⟨o', -, -, hspan, hlast⟩ := exists_lastStarting? ht h ho hacc
    rw [hlast, Option.filter_some, if_pos (by rw [hspan]; exact hacc)] at hnone
    cases hnone
  · intro hall
    apply Option.eq_none_iff_forall_ne_some.mpr
    rintro ⟨span, id⟩ hsome
    obtain ⟨hocc, hacc⟩ := hfound span id hsome
    exact hall span id hocc hacc

theorem lastStarting?_filter_eq_some_iff (ht : t.Separated) (hb : t.TypesHaveBodies)
    (h : Selects test accept) :
    ((upTo t t.size).lastStarting? test).filter (fun entry => accept entry.1) = some (span, id) ↔
      (upTo t t.size).Occurs id span ∧ accept span := by
  refine ⟨(scans_lastStarting? ht h).found span id, ?_⟩
  rintro ⟨hocc, hacc⟩
  obtain ⟨o, ho, rfl, rfl⟩ := Resolution.occurs_iff.mp hocc
  obtain ⟨o', ho', hnode, -, hlast⟩ := exists_lastStarting? ht h ho hacc
  have hnodup := nodup_occurrences ht.toIsProgram hb (Nat.le_refl t.size)
  obtain rfl := List.inj_on_of_nodup_map hnodup ho' ho hnode
  rw [hlast, Option.filter_some, if_pos hacc]

end Walk

/-- The searches for the occurrence around an offset and for the one that ends there answer what a
scan of all occurrences shows, for every offset. Where bodies are bodies, no name belongs to two
symbols, and the symbol of the answer is the only one. -/
theorem occurrence_search_exact {t : Tree} (ht : t.Separated) :
    ∃ r, resolve t = .ok r ∧ ∀ offset,
      r.Scans (·.containsOffset offset) (r.occurrenceAt? offset) ∧
      r.Scans (·.stop == offset) (r.occurrenceEndingAt? offset) ∧
      (t.TypesHaveBodies → ∀ span id,
        (r.occurrenceAt? offset = some (span, id) ↔
          r.Occurs id span ∧ span.containsOffset offset) ∧
        (r.occurrenceEndingAt? offset = some (span, id) ↔
          r.Occurs id span ∧ span.stop = offset)) := by
  refine ⟨_, resolve_eq_ok ht.toIsProgram, fun offset => ⟨?_, ?_, fun hb span id => ⟨?_, ?_⟩⟩⟩
  · exact Walk.scans_lastStarting? ht (selects_containsOffset offset)
  · exact Walk.scans_lastStarting? ht (selects_stop offset)
  · exact Walk.lastStarting?_filter_eq_some_iff ht hb (selects_containsOffset offset)
  · rw [← beq_iff_eq (a := span.stop)]
    exact Walk.lastStarting?_filter_eq_some_iff ht hb (selects_stop offset)

/-- In the sample the class is found in the middle of its last use and at the end of it, and there
is nothing behind the name of the local variable. -/
theorem occurrence_search_exact_sample : Sample.tree.Separated ∧ Sample.tree.TypesHaveBodies ∧
    ∃ r, resolve Sample.tree = .ok r ∧ r.occurrenceAt? 38 = some (⟨37, 40⟩, 0) ∧
      r.occurrenceEndingAt? 40 = some (⟨37, 40⟩, 0) ∧ r.occurrenceAt? 36 = none := by
  have hsep := Sample.tree_wellFormed.toSeparated
  have hbodies := Sample.tree_grammatical.typesHaveBodies
  obtain ⟨hocc, -⟩ := Sample.tree_recorded
  obtain ⟨r, hr, hall⟩ := occurrence_search_exact hsep
  obtain rfl := Except.ok.inj ((resolve_eq_ok Sample.tree_isProgram).symm.trans hr)
  have hlast : (Walk.upTo Sample.tree Sample.tree.size).Occurs 0 ⟨37, 40⟩ :=
    Resolution.occurs_iff.mpr ⟨⟨0, 27, ⟨37, 40⟩, .reference, 2⟩, by simp [hocc], rfl, rfl⟩
  have hfree : ∀ o ∈ (Walk.upTo Sample.tree Sample.tree.size).occurrences.toList,
      ¬ o.span.containsOffset 36 := by
    rw [hocc]
    decide
  refine ⟨hsep, hbodies, _, hr, ?_, ?_, ?_⟩
  · exact ((hall 38).2.2 hbodies _ _).1.mpr ⟨hlast, rfl⟩
  · exact ((hall 40).2.2 hbodies _ _).2.mpr ⟨hlast, rfl⟩
  · rw [(hall 36).1.none_iff]
    rintro span id hoccurs
    obtain ⟨o, ho, -, rfl⟩ := Resolution.occurs_iff.mp hoccurs
    exact hfree o ho

end JavaRefactor
