import JavaRefactor.Proofs.Apply
import JavaRefactor.Proofs.LineStarts

/-! # Hunks hold their edits

A hunk is cut from the start of its first line to the end of its last one. It holds the edits
that were put into it, and they can be made there one by one, from the last to the first. A plan
that applies can therefore be shown as a diff.
-/

namespace JavaRefactor

namespace Text

variable {x y z : List Char} {n : Nat}

theorem IsBoundary.middle (h : IsBoundary (x ++ (y ++ z)) n) (hx : width x ≤ n)
    (hy : n ≤ width (x ++ y)) : IsBoundary y (n - width x) := by
  rw [← List.append_assoc, isBoundary_append hy] at h
  obtain ⟨a, b, hab, rfl⟩ := h
  rcases List.append_eq_append_iff.mp hab with ⟨c, rfl, rfl⟩ | ⟨c, rfl, rfl⟩
  · exact ⟨c, b, rfl, by simp⟩
  · obtain rfl : c = [] := by
      rw [← width_eq_zero]
      simp only [width_append] at hx
      omega
    simpa using isBoundary_zero y

end Text

namespace EditPlan

theorem spliceAll_concat_eq_ok_iff {es : List TextEdit} {e : TextEdit} {cs out : List Char} :
    spliceAll cs (es ++ [e]) = .ok out ↔
      ∃ text, spliceAll cs es = .ok text ∧
        Text.splice? text e.span e.newText.toList = some out := by
  induction es generalizing cs with
  | nil =>
    rw [List.nil_append, spliceAll_cons_eq_ok_iff]
    simp [spliceAll]
  | cons d es ih =>
    simp only [List.cons_append, spliceAll_cons_eq_ok_iff, ih]
    constructor
    · rintro ⟨next, hn, text, ht, h⟩
      exact ⟨text, ⟨next, hn, ht⟩, h⟩
    · rintro ⟨text, ⟨next, hn, ht⟩, h⟩
      exact ⟨next, hn, text, ht, h⟩

end EditPlan

namespace Diff

open Text EditPlan

variable {source : String} {edits rest : List TextEdit} {e : TextEdit} {hunk : Hunk} {start : Nat}

/-- An edit in a block that begins at an offset of the source. -/
def within (start : Nat) (e : TextEdit) : TextEdit :=
  { e with span := ⟨e.span.start - start, e.span.stop - start⟩ }

theorem edited_eq_ok_iff {old new : List Char} :
    edited start old edits = .ok new ↔
      spliceAll old (edits.map (within start)).reverse = .ok new := by
  induction edits generalizing new with
  | nil => simp [edited, spliceAll]
  | cons e edits ih =>
    rw [List.map_cons, List.reverse_cons, spliceAll_concat_eq_ok_iff]
    simp only [← ih]
    rw [edited, List.foldr_cons, ← edited]
    cases edited start old edits with
    | error => simp
    | ok text =>
      simp only [Except.ok.injEq, exists_eq_left', within]
      cases splice? text ⟨e.span.start - start, e.span.stop - start⟩ e.newText.toList <;> simp

theorem edited_eq {old : List Char} (hp : edits.Pairwise fun d e => d.span.Before e.span)
    (hold : ∀ e ∈ edits, start ≤ e.span.start ∧ e.span.start ≤ e.span.stop ∧
      IsBoundary old (e.span.start - start) ∧ IsBoundary old (e.span.stop - start)) :
    edited start old edits = .ok (weave old 0 (edits.map (within start))) := by
  have hordered : (edits.map (within start)).Pairwise fun d e => d.span.Before e.span := by
    rw [List.pairwise_map]
    apply hp.imp_of_mem
    rintro d e hd - ⟨-, hde, hlt⟩
    obtain ⟨hlow, hle, -⟩ := hold d hd
    simp only [Span.Before, within]
    omega
  have hinto : ∀ e ∈ edits.map (within start), e.span.start ≤ e.span.stop ∧
      IsBoundary old e.span.start ∧ IsBoundary old e.span.stop := by
    rw [List.forall_mem_map]
    intro e he
    obtain ⟨-, hle, hb⟩ := hold e he
    exact ⟨Nat.sub_le_sub_right hle start, hb⟩
  exact edited_eq_ok_iff.mpr ((spliceAll_reverse_eq_ok_iff hordered fun e he =>
    (hinto e he).1).mpr ⟨fun e he => (hinto e he).2, rfl⟩)

def lineOfStart (source : String) (e : TextEdit) : Nat := lineAt source e.span.start

def lineOfStop (source : String) (e : TextEdit) : Nat :=
  lineAt source (max (e.span.stop - 1) e.span.start)

theorem lineOfStart_le_lineOfStop (source : String) (e : TextEdit) :
    lineOfStart source e ≤ lineOfStop source e :=
  lineAt_mono (Nat.le_max_right _ _)

/-- The hunk holds some of the edits, in their order and with all their lines, and the edits that
are left come after it. -/
structure Hunk.Holds (source : String) (edits rest : List TextEdit) (hunk : Hunk) : Prop where
  subset : hunk.edits ⊆ edits
  lines : hunk.firstLine ≤ hunk.lastLine
  reaches : ∀ e ∈ hunk.edits,
    hunk.firstLine ≤ lineOfStart source e ∧ lineOfStop source e ≤ hunk.lastLine
  ordered : hunk.edits.Pairwise fun d e => d.span.Before e.span
  first : ∀ e ∈ rest, hunk.firstLine ≤ lineOfStart source e
  before : ∀ d ∈ hunk.edits, ∀ e ∈ rest, d.span.Before e.span

theorem Hunk.Holds.skip (h : hunk.Holds source edits (e :: rest)) :
    hunk.Holds source edits rest where
  subset := h.subset
  lines := h.lines
  reaches := h.reaches
  ordered := h.ordered
  first d hd := h.first d (List.mem_cons_of_mem e hd)
  before c hc d hd := h.before c hc d (List.mem_cons_of_mem e hd)

/-- A hunk that is opened for the first of the edits that are left. -/
theorem Hunk.Holds.open (hrest : ∀ d ∈ rest, e.span.Before d.span) (he : e ∈ edits) :
    Hunk.Holds source edits rest ⟨lineOfStart source e, lineOfStop source e, [e]⟩ where
  subset := by simpa using he
  lines := lineOfStart_le_lineOfStop source e
  reaches := by simp
  ordered := List.pairwise_singleton _ _
  first d hd := lineAt_mono (Nat.le_of_lt (hrest d hd).2.2)
  before := by simpa using hrest

/-- A hunk that the first of the edits that are left is added to. -/
theorem Hunk.Holds.add (h : hunk.Holds source edits (e :: rest))
    (hrest : ∀ d ∈ rest, e.span.Before d.span) (he : e ∈ edits) :
    Hunk.Holds source edits rest
      ⟨hunk.firstLine, max hunk.lastLine (lineOfStop source e), hunk.edits ++ [e]⟩ where
  subset := by
    apply List.append_subset.mpr
    exact ⟨h.subset, by simpa using he⟩
  lines := Nat.le_trans h.lines (Nat.le_max_left _ _)
  reaches := by
    intro d hd
    rcases List.mem_append.mp hd with hd | hd
    · obtain ⟨hfirst, hlast⟩ := h.reaches d hd
      exact ⟨hfirst, Nat.le_trans hlast (Nat.le_max_left _ _)⟩
    · obtain rfl := List.mem_singleton.mp hd
      exact ⟨h.first d List.mem_cons_self, Nat.le_max_right _ _⟩
  ordered := by
    apply List.pairwise_append.mpr
    refine ⟨h.ordered, List.pairwise_singleton _ _, ?_⟩
    rintro d hd _ hd'
    obtain rfl := List.mem_singleton.mp hd'
    exact h.before d hd _ List.mem_cons_self
  first d hd := h.first d (List.mem_cons_of_mem e hd)
  before := by
    intro d hd c hc
    rcases List.mem_append.mp hd with hd | hd
    · exact h.before d hd c (List.mem_cons_of_mem e hc)
    · obtain rfl := List.mem_singleton.mp hd
      exact hrest c hc

theorem holds_addEdit {hunks : List Hunk} (h : ∀ k ∈ hunks, k.Holds source edits (e :: rest))
    (hrest : ∀ d ∈ rest, e.span.Before d.span) (he : e ∈ edits) :
    ∀ k ∈ addEdit source hunks e, k.Holds source edits rest := by
  cases hunks with
  | nil =>
    intro k hk
    obtain rfl := List.mem_singleton.mp hk
    exact Hunk.Holds.open hrest he
  | cons hunk others =>
    have hothers : ∀ k ∈ others, k.Holds source edits rest :=
      fun k hk => (h k (List.mem_cons_of_mem hunk hk)).skip
    intro k hk
    simp only [addEdit] at hk
    split at hk
    · rcases List.mem_cons.mp hk with rfl | hk
      · exact (h hunk List.mem_cons_self).add hrest he
      · exact hothers k hk
    · rcases List.mem_cons.mp hk with rfl | hk
      · exact Hunk.Holds.open hrest he
      · exact (h k hk).skip

theorem holds_of_mem_hunks (source : String) (hp : edits.Pairwise fun d e => d.span.Before e.span) :
    ∀ hunk ∈ hunks source edits, hunk.Holds source edits [] := by
  -- by induction on the edits that are left, of which each hunk keeps track
  have run : ∀ (rest : List TextEdit) (hunks : List Hunk), rest ⊆ edits →
      rest.Pairwise (fun d e => d.span.Before e.span) →
      (∀ k ∈ hunks, k.Holds source edits rest) →
      ∀ k ∈ rest.foldl (addEdit source) hunks, k.Holds source edits [] := by
    intro rest
    induction rest with
    | nil => exact fun hunks _ _ h => h
    | cons e rest ih =>
      intro hunks hsub hp h
      obtain ⟨he, hsub⟩ := List.cons_subset.mp hsub
      obtain ⟨hrest, hp⟩ := List.pairwise_cons.mp hp
      exact ih _ hsub hp (holds_addEdit h hrest he)
  intro hunk hh
  exact run edits [] (List.Subset.refl _) hp (by simp) hunk (List.mem_reverse.mp hh)

theorem Hunk.Holds.bounds (h : hunk.Holds source edits rest) (he : e ∈ hunk.edits)
    (hstop : e.span.stop ≤ byteLength source) :
    lineStart source hunk.firstLine ≤ e.span.start ∧
      e.span.stop ≤ lineStart source (hunk.lastLine + 1) := by
  obtain ⟨hfirst, hlast⟩ := h.reaches e he
  constructor
  · exact Nat.le_trans (lineStart_mono source hfirst) (lineStart_lineAt_le source _)
  · have hnext := min_le_lineStart_succ source (max (e.span.stop - 1) e.span.start)
    have hmono := lineStart_mono source (Nat.succ_le_succ hlast)
    simp only [lineOfStop, Nat.succ_eq_add_one] at hmono
    omega

theorem Hunk.block_eq {before middle after : List Char}
    (hsource : source.toList = before ++ (middle ++ after))
    (hstart : width before = lineStart source hunk.firstLine)
    (hstop : width (before ++ middle) = lineStart source (hunk.lastLine + 1))
    (hp : hunk.edits.Pairwise fun d e => d.span.Before e.span)
    (hinside : ∀ e ∈ hunk.edits, width before ≤ e.span.start ∧ e.span.start ≤ e.span.stop ∧
      e.span.stop ≤ width (before ++ middle) ∧ IsBoundary source.toList e.span.start ∧
      IsBoundary source.toList e.span.stop) :
    hunk.block source = .ok ⟨hunk.firstLine + 1, middle,
      weave middle 0 (hunk.edits.map (within (width before)))⟩ := by
  have hparts : divide? source.toList
      ⟨lineStart source hunk.firstLine, lineStart source (hunk.lastLine + 1)⟩ =
        some ⟨before, middle, after⟩ := divide?_eq_some_iff.mpr ⟨hsource, hstart, hstop⟩
  have hold : ∀ e ∈ hunk.edits, width before ≤ e.span.start ∧ e.span.start ≤ e.span.stop ∧
      IsBoundary middle (e.span.start - width before) ∧
      IsBoundary middle (e.span.stop - width before) := by
    intro e he
    obtain ⟨hlow, hle, hhigh, hbs, hbe⟩ := hinside e he
    rw [hsource] at hbs hbe
    exact ⟨hlow, hle, hbs.middle hlow (by omega), hbe.middle (by omega) hhigh⟩
  have hnew := edited_eq hp hold
  nth_rewrite 1 [hstart] at hnew
  simp only [lineStart] at hparts hnew
  simp only [Hunk.block, hparts, hnew, Except.map]

theorem Hunk.Holds.exists_block (h : hunk.Holds source edits rest)
    (hfits : ∀ e ∈ edits, e.span.start ≤ e.span.stop ∧ e.span.stop ≤ byteLength source ∧
      IsBoundary source.toList e.span.start ∧ IsBoundary source.toList e.span.stop) :
    ∃ block, hunk.block source = .ok block := by
  have hdivide : (divide? source.toList
      ⟨lineStart source hunk.firstLine, lineStart source (hunk.lastLine + 1)⟩).isSome :=
    isSome_divide?_iff.mpr ⟨lineStart_mono source (Nat.le_succ_of_le h.lines),
      isBoundary_lineStart source _, isBoundary_lineStart source _⟩
  obtain ⟨parts, hparts⟩ := Option.isSome_iff_exists.mp hdivide
  obtain ⟨hsource, hstart, hstop⟩ := divide?_eq_some_iff.mp hparts
  simp only at hstart hstop
  refine ⟨_, Hunk.block_eq hsource hstart hstop h.ordered fun e he => ?_⟩
  obtain ⟨hle, hlen, hbs, hbe⟩ := hfits e (h.subset he)
  obtain ⟨hlow, hhigh⟩ := h.bounds he hlen
  exact ⟨by omega, hle, by omega, hbs, hbe⟩

theorem exists_mapM {l : List Hunk} (h : ∀ k ∈ l, ∃ block, k.block source = .ok block) :
    ∃ blocks, l.mapM (Hunk.block source) = .ok blocks := by
  induction l with
  | nil => exact ⟨[], rfl⟩
  | cons k l ih =>
    obtain ⟨block, hk⟩ := h k List.mem_cons_self
    obtain ⟨blocks, hl⟩ := ih fun k' hk' => h k' (List.mem_cons_of_mem k hk')
    refine ⟨block :: blocks, ?_⟩
    rw [List.mapM_cons, hk, hl]
    rfl

end Diff

namespace EditPlan

theorem exists_materialize {plan : EditPlan} {source out : String}
    (h : plan.apply source = .ok out) (path : String) :
    ∃ patch, plan.materialize source path = .ok patch := by
  obtain ⟨-, -, hfits, hcompat, -⟩ := apply_eq_ok_iff.mp h
  have hmem {e : TextEdit} : e ∈ plan.ascending ↔ e ∈ plan.edits := mem_sortBy _
  have hordered := pairwise_ascending (fun e he => (hfits e he).1) hcompat
  have hholds := Diff.holds_of_mem_hunks source hordered
  obtain ⟨blocks, hblocks⟩ := Diff.exists_mapM fun k hk =>
    (hholds k hk).exists_block fun e he => hfits e (hmem.mp he)
  rw [materialize, Diff.unified]
  split
  · exact ⟨_, rfl⟩
  · rw [hblocks]
    exact ⟨_, rfl⟩

end EditPlan

end JavaRefactor
