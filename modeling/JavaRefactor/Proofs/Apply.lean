import Mathlib.Data.List.Chain
import JavaRefactor.Edit.Apply
import JavaRefactor.Edit.Diff
import JavaRefactor.Proofs.Cut

/-! # What applying a plan makes of a text

Edits are spliced in from the end, each into a text whose end has changed already, and
only neighbours are compared. Nevertheless a plan applies exactly when its edits lie
apart and cut the source between characters, and the result is the source with all of
them made at once.
-/

namespace JavaRefactor

namespace Span

def Apart (s t : Span) : Prop := s.stop ≤ t.start ∨ t.stop ≤ s.start

instance (s t : Span) : Decidable (s.Apart t) := inferInstanceAs (Decidable (_ ∨ _))

def Compatible (s t : Span) : Prop := s.Apart t ∧ s.start ≠ t.start

instance (s t : Span) : Decidable (s.Compatible t) := inferInstanceAs (Decidable (_ ∧ _))

theorem Compatible.symm {s t : Span} (h : s.Compatible t) : t.Compatible s :=
  ⟨h.1.symm, h.2.symm⟩

def Before (s t : Span) : Prop := s.start ≤ s.stop ∧ s.stop ≤ t.start ∧ s.start < t.start

theorem Before.compatible {s t : Span} (h : s.Before t) : s.Compatible t :=
  ⟨Or.inl h.2.1, Nat.ne_of_lt h.2.2⟩

theorem le_total (s t : Span) : s.le t || t.le s := by
  simp only [le, Bool.or_eq_true, decide_eq_true_eq, Bool.and_eq_true, beq_iff_eq]
  omega

theorem le_trans (s t u : Span) (h : s.le t) (h' : t.le u) : s.le u := by
  simp only [le, Bool.or_eq_true, decide_eq_true_eq, Bool.and_eq_true, beq_iff_eq] at *
  omega

theorem le_antisymm (s t : Span) (h : s.le t) (h' : t.le s) : s = t := by
  obtain ⟨start, stop⟩ := s
  obtain ⟨start', stop'⟩ := t
  simp only [le, Bool.or_eq_true, decide_eq_true_eq, Bool.and_eq_true, beq_iff_eq, mk.injEq] at *
  omega

end Span

namespace EditPlan

open Text

theorem meet_eq_false_iff {s t : Span} : meet s t = false ↔ s.Compatible t := by
  simp only [meet, Span.overlaps, Bool.or_eq_false_iff, Bool.and_eq_false_iff,
    decide_eq_false_iff_not, beq_eq_false_iff_ne, Span.Compatible, Span.Apart]
  omega

theorem neighbourConflicts_eq_nil_iff : ∀ {l : List Span},
    neighbourConflicts l = [] ↔ l.IsChain Span.Compatible
  | [] => by simp [neighbourConflicts]
  | [s] => by simp [neighbourConflicts]
  | s :: t :: l => by
      rw [List.isChain_cons_cons, ← neighbourConflicts_eq_nil_iff, ← meet_eq_false_iff,
        neighbourConflicts]
      cases meet s t <;> simp

theorem pairwise_before_of_isChain {l : List Span} (hl : l.Pairwise fun s t => s.le t)
    (hi : ∀ s ∈ l, s.start ≤ s.stop) (hc : l.IsChain Span.Compatible) : l.Pairwise Span.Before := by
  have htrans : ∀ s t u : Span, s.Before t → t.Before u → s.Before u := by
    rintro s t u ⟨_, _, _⟩ ⟨_, _, _⟩
    refine ⟨?_, ?_, ?_⟩ <;> omega
  have : Trans Span.Before Span.Before Span.Before := ⟨htrans _ _ _⟩
  rw [← List.isChain_iff_pairwise]
  induction l with
  | nil => simp
  | cons s l ih =>
    cases l with
    | nil => simp
    | cons t l =>
      rw [List.isChain_cons_cons] at hc ⊢
      refine ⟨?_, ih hl.tail (fun u hu => hi u (List.mem_cons_of_mem _ hu)) hc.2⟩
      have hst := List.rel_of_pairwise_cons hl (List.mem_cons_self)
      have hs := hi s List.mem_cons_self
      have ht := hi t (by simp)
      obtain ⟨⟨h | h, hne⟩, _⟩ := hc <;>
        simp only [Span.le, Bool.or_eq_true, decide_eq_true_eq, Bool.and_eq_true,
          beq_iff_eq] at hst <;>
        refine ⟨hs, ?_, ?_⟩ <;> omega

theorem firstOverlap?_bounds (l : List Span) (length : Nat) (rest : List EditConflict) :
    firstOverlap? (l.map (.outOfBounds · length) ++ rest) = firstOverlap? rest := by
  induction l with
  | nil => rfl
  | cons s l ih => simpa [firstOverlap?] using ih

theorem firstOverlap?_neighbourConflicts : ∀ (l : List Span),
    firstOverlap? (neighbourConflicts l) = none ↔ neighbourConflicts l = []
  | [] => by simp [neighbourConflicts, firstOverlap?]
  | [s] => by simp [neighbourConflicts, firstOverlap?]
  | s :: t :: l => by
      have ih := firstOverlap?_neighbourConflicts (t :: l)
      rw [neighbourConflicts]
      cases meet s t with
      | true => simp [firstOverlap?]
      | false => simpa using ih

theorem firstOverlap?_conflicts_iff (plan : EditPlan) :
    firstOverlap? plan.conflicts = none ↔
      (sortBy Span.le (plan.edits.map (·.span))).IsChain Span.Compatible := by
  rw [conflicts, firstOverlap?_bounds, firstOverlap?_neighbourConflicts,
    neighbourConflicts_eq_nil_iff]

theorem isChain_sortBy_iff {l : List Span} (hi : ∀ s ∈ l, s.start ≤ s.stop) :
    (sortBy Span.le l).IsChain Span.Compatible ↔ l.Pairwise Span.Compatible := by
  have hp := sortBy_perm Span.le l
  rw [← hp.pairwise_iff Span.Compatible.symm]
  constructor
  · intro h
    exact (pairwise_before_of_isChain (pairwise_sortBy Span.le_total Span.le_trans l)
      (fun s hs => hi s (hp.mem_iff.mp hs)) h).imp Span.Before.compatible
  · intro h
    exact h.isChain

theorem splice?_eq_some_iff {cs new out : List Char} {span : Span} :
    splice? cs span new = some out ↔ ∃ x y z, cs = x ++ (y ++ z) ∧ width x = span.start ∧
      width (x ++ y) = span.stop ∧ out = x ++ (new ++ z) := by
  constructor
  · intro h
    obtain ⟨⟨x, y, z⟩, hp, rfl⟩ := Option.map_eq_some_iff.mp h
    obtain ⟨hcs, hs, he⟩ := divide?_eq_some_iff.mp hp
    exact ⟨x, y, z, hcs, hs, he, by simp⟩
  · rintro ⟨x, y, z, rfl, hs, he, rfl⟩
    have hp : divide? (x ++ (y ++ z)) span = some ⟨x, y, z⟩ := divide?_eq_some_iff.mpr ⟨rfl, hs, he⟩
    simp [splice?, hp]

theorem spliceAll_cons_eq_ok_iff {cs out : List Char} {e : TextEdit} {es : List TextEdit} :
    spliceAll cs (e :: es) = .ok out ↔
      ∃ next, splice? cs e.span e.newText.toList = some next ∧ spliceAll next es = .ok out := by
  rw [spliceAll]
  cases splice? cs e.span e.newText.toList <;> simp

theorem not_inverted_of_spliceAll : ∀ {es : List TextEdit} {cs out : List Char},
    spliceAll cs es = .ok out → ∀ e ∈ es, e.span.start ≤ e.span.stop
  | [], _, _, _ => by simp
  | e :: es, cs, out, h => by
      obtain ⟨next, hn, h⟩ := spliceAll_cons_eq_ok_iff.mp h
      obtain ⟨x, y, z, -, hs, he, -⟩ := splice?_eq_some_iff.mp hn
      rw [width_append] at he
      intro d hd
      rcases List.mem_cons.mp hd with rfl | hd
      · omega
      · exact not_inverted_of_spliceAll h d hd

theorem splice?_append {a b new : List Char} {span : Span} (h : span.stop ≤ width a) :
    splice? (a ++ b) span new = (splice? a span new).map (· ++ b) := by
  rw [splice?, divide?_append h, splice?]
  cases divide? a span <;> simp

/-- Edits within the first part of a text, from its end to its beginning, leave the second
part alone. -/
theorem spliceAll_append_eq_ok_iff {b : List Char} : ∀ {es : List TextEdit} {a out : List Char},
    es.Pairwise (fun d e => e.span.Before d.span) → (∀ e ∈ es, e.span.stop ≤ width a) →
    (spliceAll (a ++ b) es = .ok out ↔ ∃ first, spliceAll a es = .ok first ∧ out = first ++ b)
  | [], a, out, _, _ => by simp [spliceAll, eq_comm]
  | e :: es, a, out, hp, hw => by
      obtain ⟨he, hes⟩ := List.pairwise_cons.mp hp
      simp only [spliceAll_cons_eq_ok_iff, splice?_append (hw e List.mem_cons_self)]
      cases hn : splice? a e.span e.newText.toList with
      | none => simp
      | some next =>
        obtain ⟨x, y, z, -, hx, -, rfl⟩ := splice?_eq_some_iff.mp hn
        -- the edits that are left end before the one just made begins
        have hw' : ∀ d ∈ es, d.span.stop ≤ width (x ++ (e.newText.toList ++ z)) := by
          intro d hd
          have := (he d hd).2.1
          simp only [width_append]
          omega
        simp only [Option.map_some, Option.some.injEq, exists_eq_left']
        exact spliceAll_append_eq_ok_iff hes hw'

/-- Makes edits, in ascending order, in what follows an offset of the source. -/
def weave (source : List Char) (start : Nat) : List TextEdit → List Char
  | [] => between source start (width source)
  | e :: es =>
    between source start e.span.start ++ (e.newText.toList ++ weave source e.span.stop es)

theorem weave_append_singleton {x y z : List Char} {e : TextEdit} (hx : width x = e.span.start)
    (hy : width (x ++ y) = e.span.stop) {es : List TextEdit} (h : ∀ d ∈ es, d.span.start ≤ width x)
    (k : Nat) : weave (x ++ (y ++ z)) k (es ++ [e]) = weave x k es ++ (e.newText.toList ++ z) := by
  have hz : between (x ++ (y ++ z)) e.span.stop (width (x ++ (y ++ z))) = z := by
    simpa using between_eq (z := []) hy (rfl : width ((x ++ y) ++ z) = _)
  induction es generalizing k with
  | nil => simp only [List.nil_append, weave, ← hx, between_append (Nat.le_refl (width x)), hz]
  | cons d es ih =>
    have hd := h d List.mem_cons_self
    have hes := ih (fun d' hd' => h d' (List.mem_cons_of_mem d hd')) d.span.stop
    simp only [List.cons_append, weave, between_append hd, hes, List.append_assoc]

/-- Edits that stand before each other, made from the last to the first, give what they give
when they are made at once. -/
theorem spliceAll_reverse_eq_ok_iff {es : List TextEdit} {cs out : List Char}
    (hp : es.Pairwise fun d e => d.span.Before e.span)
    (hi : ∀ e ∈ es, e.span.start ≤ e.span.stop) :
    spliceAll cs es.reverse = .ok out ↔
      (∀ e ∈ es, IsBoundary cs e.span.start ∧ IsBoundary cs e.span.stop) ∧
        out = weave cs 0 es := by
  -- by induction from the last edit on: what stands before it is a text of its own
  induction es using List.reverseRecOn generalizing cs out with
  | nil => simp [spliceAll, weave, eq_comm]
  | append_singleton es e ih =>
    obtain ⟨hes, -, hlast⟩ := List.pairwise_append.mp hp
    have hi' : ∀ d ∈ es, d.span.start ≤ d.span.stop := fun d hd => hi d (by simp [hd])
    have step {x y z : List Char} (hx : width x = e.span.start)
        (hy : width (x ++ y) = e.span.stop) :
        spliceAll (x ++ (e.newText.toList ++ z)) es.reverse = .ok out ↔
          (∀ d ∈ es, IsBoundary (x ++ (y ++ z)) d.span.start ∧
            IsBoundary (x ++ (y ++ z)) d.span.stop) ∧
          out = weave (x ++ (y ++ z)) 0 (es ++ [e]) := by
      have hw : ∀ d ∈ es, d.span.stop ≤ width x := fun d hd => hx ▸ (hlast d hd e (by simp)).2.1
      have hw' : ∀ d ∈ es, d.span.start ≤ width x := fun d hd => Nat.le_trans (hi' d hd) (hw d hd)
      have hb : (∀ d ∈ es, IsBoundary (x ++ (y ++ z)) d.span.start ∧
          IsBoundary (x ++ (y ++ z)) d.span.stop) ↔
          ∀ d ∈ es, IsBoundary x d.span.start ∧ IsBoundary x d.span.stop :=
        forall₂_congr fun d hd => by
          rw [isBoundary_append (hw' d hd), isBoundary_append (hw d hd)]
      rw [spliceAll_append_eq_ok_iff (List.pairwise_reverse.mpr hes)
        (fun d hd => hw d (List.mem_reverse.mp hd)), weave_append_singleton hx hy hw', hb]
      simp only [ih hes hi']
      constructor
      · rintro ⟨first, ⟨hd, rfl⟩, rfl⟩
        exact ⟨hd, rfl⟩
      · rintro ⟨hd, rfl⟩
        exact ⟨_, ⟨hd, rfl⟩, rfl⟩
    rw [List.reverse_append, List.reverse_singleton, List.singleton_append,
      spliceAll_cons_eq_ok_iff]
    constructor
    · rintro ⟨next, hn, h⟩
      obtain ⟨x, y, z, rfl, hx, hy, rfl⟩ := splice?_eq_some_iff.mp hn
      obtain ⟨hd, rfl⟩ := (step hx hy).mp h
      refine ⟨fun d hm => ?_, rfl⟩
      rcases List.mem_append.mp hm with hm | hm
      · exact hd d hm
      · obtain rfl := List.mem_singleton.mp hm
        exact ⟨⟨x, _, rfl, hx⟩, ⟨x ++ y, z, by simp, hy⟩⟩
    · rintro ⟨hb, h⟩
      have hsome : (divide? cs e.span).isSome :=
        isSome_divide?_iff.mpr ⟨hi e (by simp), hb e (by simp)⟩
      obtain ⟨⟨x, y, z⟩, hxyz⟩ := Option.isSome_iff_exists.mp hsome
      obtain ⟨rfl, hx, hy⟩ := divide?_eq_some_iff.mp hxyz
      exact ⟨_, splice?_eq_some_iff.mpr ⟨x, y, z, rfl, hx, hy, rfl⟩,
        (step hx hy).mpr ⟨fun d hd => hb d (by simp [hd]), h⟩⟩

theorem width_spliceAll : ∀ {es : List TextEdit} {cs out : List Char}, spliceAll cs es = .ok out →
    width out + es.foldr (fun e total => e.span.length + total) 0 =
      width cs + es.foldr (fun e total => byteLength e.newText + total) 0
  | [], cs, out, h => by
      obtain rfl : cs = out := by simpa [spliceAll] using h
      rfl
  | e :: es, cs, out, h => by
      obtain ⟨next, hn, h⟩ := spliceAll_cons_eq_ok_iff.mp h
      obtain ⟨x, y, z, rfl, hx, hy, rfl⟩ := splice?_eq_some_iff.mp hn
      have ih := width_spliceAll h
      simp only [width_append] at ih hy ⊢
      simp only [List.foldr_cons, Span.length, byteLength] at ih ⊢
      omega

theorem pairwise_ascending {plan : EditPlan} (hi : ∀ e ∈ plan.edits, e.span.start ≤ e.span.stop)
    (hp : plan.edits.Pairwise fun d e => d.span.Compatible e.span) :
    plan.ascending.Pairwise fun d e => d.span.Before e.span := by
  have hperm := sortBy_perm (fun d e : TextEdit => decide (d.span.start ≤ e.span.start)) plan.edits
  have hc := (hperm.pairwise_iff Span.Compatible.symm).mpr hp
  have hs := pairwise_sortBy_le (fun e : TextEdit => e.span.start) plan.edits
  refine (hc.and hs).imp_of_mem ?_
  rintro d e hd he ⟨⟨h | h, hne⟩, hle⟩
  all_goals
    have := hi d (hperm.mem_iff.mp hd)
    have := hi e (hperm.mem_iff.mp he)
    refine ⟨?_, ?_, ?_⟩ <;> omega

theorem descending_eq_reverse {plan : EditPlan}
    (hp : plan.edits.Pairwise fun d e => d.span.Compatible e.span) :
    plan.descending = plan.ascending.reverse := by
  have hperm : plan.descending.Perm plan.ascending.reverse :=
    (sortBy_perm _ _).trans ((sortBy_perm _ _).symm.trans (List.reverse_perm _).symm)
  have hd := pairwise_sortBy_ge (fun e : TextEdit => e.span.start) plan.edits
  have ha := pairwise_sortBy_le (fun e : TextEdit => e.span.start) plan.edits
  refine hperm.eq_of_pairwise ?_ hd (List.pairwise_reverse.mpr ha)
  intro d e hd he hde hed
  by_contra hne
  have hd' := (mem_sortBy _).mp hd
  have he' := (mem_sortBy _).mp (List.mem_reverse.mp he)
  have : Std.Symm fun d e : TextEdit => d.span.Compatible e.span := ⟨fun _ _ h => h.symm⟩
  exact (hp.forall hd' he' hne).2 (Nat.le_antisymm hed hde)

/-- The edits of a plan cut a text between characters and none of them is inverted. -/
def Fits (plan : EditPlan) (source : String) : Prop :=
  ∀ e ∈ plan.edits, e.span.start ≤ e.span.stop ∧ e.span.stop ≤ byteLength source ∧
    IsBoundary source.toList e.span.start ∧ IsBoundary source.toList e.span.stop

theorem splice_eq_ok_iff {plan : EditPlan} {source : String} {out : List Char} :
    firstOverlap? plan.conflicts = none ∧ spliceAll source.toList plan.descending = .ok out ↔
      plan.Fits source ∧ plan.edits.Pairwise (fun d e => d.span.Compatible e.span) ∧
        out = weave source.toList 0 plan.ascending := by
  have hmem {e : TextEdit} : e ∈ plan.ascending ↔ e ∈ plan.edits := mem_sortBy _
  rw [firstOverlap?_conflicts_iff]
  have hcompat (hi : ∀ e ∈ plan.edits, e.span.start ≤ e.span.stop) :
      (sortBy Span.le (plan.edits.map (·.span))).IsChain Span.Compatible ↔
        plan.edits.Pairwise fun d e => d.span.Compatible e.span := by
    rw [isChain_sortBy_iff (by simpa using hi), List.pairwise_map]
  have hsplice (hi : ∀ e ∈ plan.edits, e.span.start ≤ e.span.stop)
      (hp : plan.edits.Pairwise fun d e => d.span.Compatible e.span) :
      spliceAll source.toList plan.descending = .ok out ↔
        (∀ e ∈ plan.edits, IsBoundary source.toList e.span.start ∧
          IsBoundary source.toList e.span.stop) ∧ out = weave source.toList 0 plan.ascending := by
    rw [descending_eq_reverse hp, spliceAll_reverse_eq_ok_iff (pairwise_ascending hi hp)
      fun e he => hi e (hmem.mp he)]
    simp only [hmem]
  constructor
  · rintro ⟨hc, h⟩
    have hi : ∀ e ∈ plan.edits, e.span.start ≤ e.span.stop :=
      fun e he => not_inverted_of_spliceAll h e ((mem_sortBy _).mpr he)
    have hp := (hcompat hi).mp hc
    obtain ⟨hb, rfl⟩ := (hsplice hi hp).mp h
    exact ⟨fun e he => ⟨hi e he, (hb e he).2.le_width, hb e he⟩, hp, rfl⟩
  · rintro ⟨hf, hp, rfl⟩
    have hi : ∀ e ∈ plan.edits, e.span.start ≤ e.span.stop := fun e he => (hf e he).1
    exact ⟨(hcompat hi).mpr hp, (hsplice hi hp).mpr ⟨fun e he => (hf e he).2.2, rfl⟩⟩

theorem apply_eq_ok_iff {plan : EditPlan} {source out : String} :
    plan.apply source = .ok out ↔
      plan.valid = true ∧ ContentHash.ofText source = plan.sourceHash ∧ plan.Fits source ∧
        plan.edits.Pairwise (fun d e => d.span.Compatible e.span) ∧
        out = String.ofList (weave source.toList 0 plan.ascending) := by
  have key : (∃ cs, firstOverlap? plan.conflicts = none ∧
      spliceAll source.toList plan.descending = .ok cs ∧ out = String.ofList cs) ↔
      plan.Fits source ∧ plan.edits.Pairwise (fun d e => d.span.Compatible e.span) ∧
        out = String.ofList (weave source.toList 0 plan.ascending) := by
    constructor
    · rintro ⟨cs, hc, h, rfl⟩
      obtain ⟨hf, hp, rfl⟩ := splice_eq_ok_iff.mp ⟨hc, h⟩
      exact ⟨hf, hp, rfl⟩
    · rintro ⟨hf, hp, rfl⟩
      obtain ⟨hc, h⟩ := splice_eq_ok_iff.mpr ⟨hf, hp, rfl⟩
      exact ⟨_, hc, h, rfl⟩
  rw [← key]
  unfold apply
  cases hv : plan.valid with
  | false => simp
  | true =>
    by_cases hh : ContentHash.ofText source = plan.sourceHash
    · cases hc : firstOverlap? plan.conflicts with
      | some pair => simp [hh]
      | none =>
        cases hs : spliceAll source.toList plan.descending with
        | error e => simp [hh, Except.map]
        | ok cs => simp [hh, Except.map, eq_comm]
    · simp [hh]

theorem byteLength_of_apply {plan : EditPlan} {source out : String}
    (h : plan.apply source = .ok out) :
    byteLength out + plan.bytesRemoved = byteLength source + plan.bytesAdded := by
  obtain ⟨-, -, hf, hp, rfl⟩ := apply_eq_ok_iff.mp h
  obtain ⟨-, hs⟩ := splice_eq_ok_iff.mpr ⟨hf, hp, rfl⟩
  have hsum (f : TextEdit → Nat) :
      plan.descending.foldr (fun e total => f e + total) 0 =
        plan.edits.foldr (fun e total => f e + total) 0 := by
    refine (sortBy_perm _ plan.edits).foldr_eq' (fun d _ e _ total => ?_) 0
    exact Nat.add_left_comm (f e) (f d) total
  have hw := width_spliceAll hs
  rw [hsum, hsum] at hw
  simpa [byteLength, bytesRemoved, bytesAdded] using hw

/-- Applying is exact for every plan: it succeeds just when the plan is valid for the source
and its edits fit and lie apart, and it makes all edits at once. -/
theorem apply_exact (plan : EditPlan) (source out : String) :
    (plan.apply source = .ok out ↔
      plan.valid = true ∧ ContentHash.ofText source = plan.sourceHash ∧
      (∀ e ∈ plan.edits, e.span.start ≤ e.span.stop ∧ e.span.stop ≤ byteLength source ∧
        IsBoundary source.toList e.span.start ∧ IsBoundary source.toList e.span.stop) ∧
      plan.edits.Pairwise (fun d e => d.span.Apart e.span ∧ d.span.start ≠ e.span.start) ∧
      out = String.ofList (weave source.toList 0 plan.ascending)) ∧
    (plan.apply source = .ok out →
      byteLength out + plan.bytesRemoved = byteLength source + plan.bytesAdded) :=
  ⟨apply_eq_ok_iff, byteLength_of_apply⟩

end EditPlan

end JavaRefactor
