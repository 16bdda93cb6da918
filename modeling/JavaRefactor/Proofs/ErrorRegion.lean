import Mathlib.Order.WellFoundedSet
import JavaRefactor.Proofs.Apply
import JavaRefactor.Tree.ErrorRegion

/-! # Error regions are exact

Every error is a region. A construct that a missing token leaves incomplete is a region unless
some error or another incomplete construct lies within it. That one may be left out in its turn,
but strict containment has no infinite descent among finitely many spans, so there is always a
region within.
-/

namespace JavaRefactor

namespace Span

variable {a b c : Span}

theorem contains_iff : a.contains b ↔ a.start ≤ b.start ∧ b.stop ≤ a.stop := by
  simp [contains]

theorem strictlyContains_iff : a.strictlyContains b ↔ a ≠ b ∧ a.contains b := by
  simp [strictlyContains]

theorem contains_trans (h : a.contains b) (h' : b.contains c) : a.contains c := by
  rw [contains_iff] at *
  omega

theorem contains_antisymm (h : a.contains b) (h' : b.contains a) : a = b := by
  rw [contains_iff] at *
  obtain ⟨start, stop⟩ := a
  obtain ⟨start', stop'⟩ := b
  simp only [mk.injEq] at *
  omega

theorem lt_of_le_of_ne (h : a.le b) (hne : a ≠ b) : a.lt b := by
  obtain ⟨start, stop⟩ := a
  obtain ⟨start', stop'⟩ := b
  simp only [le, lt, Bool.or_eq_true, decide_eq_true_eq, Bool.and_eq_true, beq_iff_eq, ne_eq,
    mk.injEq] at *
  omega

theorem lt_of_lt_of_le (h : a.lt b) (h' : b.le c) : a.lt c := by
  simp only [le, lt, Bool.or_eq_true, decide_eq_true_eq, Bool.and_eq_true, beq_iff_eq] at *
  omega

/-- Lying within another span is a strict order. -/
instance : IsStrictOrder Span fun inner outer => outer.strictlyContains inner where
  irrefl a h := (strictlyContains_iff.mp h).1 rfl
  trans a b c hab hbc := by
    obtain ⟨hne, hab⟩ := strictlyContains_iff.mp hab
    obtain ⟨-, hbc⟩ := strictlyContains_iff.mp hbc
    refine strictlyContains_iff.mpr ⟨?_, contains_trans hbc hab⟩
    rintro rfl
    exact hne (contains_antisymm hab hbc)

theorem exists_innermost {spans : List Span} (ha : a ∈ spans) :
    ∃ m ∈ spans, a.contains m ∧ ∀ s ∈ spans, ¬ m.strictlyContains s := by
  have hwf : {s | s ∈ spans}.WellFoundedOn
      fun inner outer : Span => outer.strictlyContains inner :=
    (List.finite_toSet spans).wellFoundedOn
  -- of the spans within `a`, take one that no other lies in
  obtain ⟨m, ⟨hm, hcontains⟩, hmin⟩ := (Set.wellFoundedOn_iff.mp hwf).has_min
    {s | s ∈ spans ∧ a.contains s} ⟨a, ha, contains_iff.mpr ⟨Nat.le_refl _, Nat.le_refl _⟩⟩
  refine ⟨m, hm, hcontains, fun s hs hstrict => ?_⟩
  have hwithin := contains_trans hcontains (strictlyContains_iff.mp hstrict).2
  exact hmin s ⟨hs, hwithin⟩ ⟨hstrict, hs, hm⟩

end Span

namespace Tree

variable {t : Tree} {i : NodeId} {s : Span} {l : List Span}

theorem mem_dropRepeats : s ∈ dropRepeats l ↔ s ∈ l := by
  fun_induction dropRepeats l with
  | case1 a rest ih => simp [ih]
  | case2 a b rest _ ih => rw [List.mem_cons, ih, ← List.mem_cons]
  | case3 => rfl

theorem pairwise_dropRepeats (h : l.Pairwise fun a b => a.le b) :
    (dropRepeats l).Pairwise fun a b => a.lt b := by
  fun_induction dropRepeats l with
  | case1 a rest ih => exact ih h.of_cons
  | case2 a b rest hne ih =>
    obtain ⟨ha, hrest⟩ := List.pairwise_cons.mp h
    refine List.pairwise_cons.mpr ⟨fun c hc => ?_, ih hrest⟩
    have hab := ha b List.mem_cons_self
    have hbc : b.le c := by
      rcases List.mem_cons.mp (mem_dropRepeats.mp hc) with rfl | hc
      · simp [Span.le]
      · exact List.rel_of_pairwise_cons hrest hc
    exact Span.lt_of_lt_of_le (Span.lt_of_le_of_ne hab hne) hbc
  | case3 l hl =>
    rcases l with _ | ⟨a, _ | ⟨b, rest⟩⟩
    · exact .nil
    · exact List.pairwise_singleton _ _
    · exact absurd rfl (hl a b rest)

/-- What a missing node leaves incomplete: the node above it, and at the top of the tree only
the place where it should stand. -/
inductive LeavesIncomplete (t : Tree) (i : NodeId) : Span → Prop where
  | construct {p : NodeId} (parent : t.parent? i = some p) (inner : p ≠ root) :
      LeavesIncomplete t i (t.span p)
  | place (top : t.parent? i = none ∨ t.parent? i = some root) : LeavesIncomplete t i (t.span i)

theorem leavesIncomplete_iff : t.LeavesIncomplete i s ↔ t.incompleteSpan i = s := by
  unfold incompleteSpan
  constructor
  · rintro (⟨hp, hne⟩ | hp | hp)
    · simp [hp, hne]
    · simp [hp]
    · simp [hp]
  · rintro rfl
    split
    next p hp =>
      split
      next hroot => exact .place (Or.inr (hroot ▸ hp))
      next hne => exact .construct hp hne
    next hp => exact .place (Or.inl hp)

def IsErrorSpan (t : Tree) (s : Span) : Prop := ∃ i < t.size, t.isError i ∧ t.span i = s

def IsIncomplete (t : Tree) (s : Span) : Prop :=
  ∃ i < t.size, t.isMissing i ∧ t.LeavesIncomplete i s

theorem mem_errorSpans : s ∈ t.errorSpans ↔ t.IsErrorSpan s := by
  simp [errorSpans, ids, IsErrorSpan, and_assoc]

theorem mem_incompleteSpans : s ∈ t.incompleteSpans ↔ t.IsIncomplete s := by
  simp [incompleteSpans, ids, IsIncomplete, leavesIncomplete_iff, and_assoc]

/-- The regions are the errors and the innermost incomplete constructs. -/
theorem mem_errorRegions_iff : s ∈ t.errorRegions ↔ t.IsErrorSpan s ∨
    t.IsIncomplete s ∧ ∀ inner, t.IsIncomplete inner ∨ t.IsErrorSpan inner →
      ¬ s.strictlyContains inner := by
  simp only [errorRegions, mem_dropRepeats, mem_sortBy, List.mem_append, List.mem_filter,
    Bool.not_eq_true', List.any_eq_false, mem_errorSpans, mem_incompleteSpans]
  exact or_comm

theorem exists_region_within (hs : t.IsIncomplete s ∨ t.IsErrorSpan s) :
    ∃ r ∈ t.errorRegions, s.contains r := by
  have hmem {s : Span} : s ∈ t.incompleteSpans ++ t.errorSpans ↔
      t.IsIncomplete s ∨ t.IsErrorSpan s := by
    rw [List.mem_append, mem_incompleteSpans, mem_errorSpans]
  obtain ⟨m, hm, hcontains, hmin⟩ := Span.exists_innermost (hmem.mpr hs)
  refine ⟨m, mem_errorRegions_iff.mpr ?_, hcontains⟩
  rcases hmem.mp hm with hincomplete | herror
  · exact Or.inr ⟨hincomplete, fun inner hinner => hmin inner (hmem.mpr hinner)⟩
  · exact Or.inl herror

theorem hasErrors_iff : t.hasErrors ↔ ∃ i < t.size, t.isError i ∨ (t.node i).isMissing := by
  rw [hasErrors, Bool.not_eq_true', List.isEmpty_eq_false_iff_exists_mem]
  constructor
  · rintro ⟨r, hr⟩
    rcases mem_errorRegions_iff.mp hr with ⟨i, hi, he, -⟩ | ⟨⟨i, hi, hm, -⟩, -⟩
    · exact ⟨i, hi, Or.inl he⟩
    · simp only [isMissing, Bool.and_eq_true] at hm
      exact ⟨i, hi, Or.inr hm.2⟩
  · rintro ⟨i, hi, hflag⟩
    by_cases he : t.isError i
    · exact ⟨_, mem_errorRegions_iff.mpr (Or.inl ⟨i, hi, he, rfl⟩)⟩
    · have hm : t.isMissing i := by simpa [isMissing, he] using hflag
      obtain ⟨r, hr, -⟩ :=
        exists_region_within (Or.inl ⟨i, hi, hm, leavesIncomplete_iff.mpr rfl⟩)
      exact ⟨r, hr⟩

/-- The error regions stand in strict order. Every error is one, every incomplete construct
contains one, there are no others, and only an error may have another region within it. So a
tree has error regions just if it has an error or a missing node. -/
theorem errorRegions_exact (t : Tree) :
    t.errorRegions.Pairwise (fun a b => a.lt b) ∧
    (∀ i < t.size, t.isError i → t.span i ∈ t.errorRegions) ∧
    (∀ i < t.size, t.isMissing i → ∀ s, t.LeavesIncomplete i s →
      ∃ r ∈ t.errorRegions, s.contains r) ∧
    (∀ r ∈ t.errorRegions, t.IsErrorSpan r ∨ t.IsIncomplete r) ∧
    (∀ r ∈ t.errorRegions, ¬ t.IsErrorSpan r → ∀ r' ∈ t.errorRegions,
      ¬ r.strictlyContains r') ∧
    (t.hasErrors ↔ ∃ i < t.size, t.isError i ∨ (t.node i).isMissing) := by
  have hsource {r : Span} (hr : r ∈ t.errorRegions) : t.IsErrorSpan r ∨ t.IsIncomplete r :=
    (mem_errorRegions_iff.mp hr).imp_right And.left
  refine ⟨?_, ?_, ?_, fun r hr => hsource hr, ?_, hasErrors_iff⟩
  · exact pairwise_dropRepeats (pairwise_sortBy Span.le_total Span.le_trans _)
  · intro i hi he
    exact mem_errorRegions_iff.mpr (Or.inl ⟨i, hi, he, rfl⟩)
  · intro i hi hm s hs
    exact exists_region_within (Or.inl ⟨i, hi, hm, hs⟩)
  · intro r hr herror r' hr'
    obtain ⟨-, hmin⟩ := (mem_errorRegions_iff.mp hr).resolve_left herror
    exact hmin r' (hsource hr').symm

end Tree

end JavaRefactor
