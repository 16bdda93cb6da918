import JavaRefactor.Proofs.EditedBlocks

/-! # Hunks of one line

Edits that neither take nor bring line breaks are grouped by their lines: a hunk is one line of the
source, and its block is that line with the edits made in it.
-/

namespace JavaRefactor

namespace Diff

open Text EditPlan

variable {source : String} {e : TextEdit} {edits : List TextEdit} {pre line tail : List Char}

/-- An edit that neither takes nor brings a line break. -/
def StaysInLine (source : String) (e : TextEdit) : Prop :=
  ∀ text ∈ [e.newText, (slice? source e.span).getD ""], '\n' ∉ text.toList ∧ '\r' ∉ text.toList

instance : Decidable (StaysInLine source e) :=
  inferInstanceAs (Decidable (∀ text ∈ [e.newText, (slice? source e.span).getD ""],
    '\n' ∉ text.toList ∧ '\r' ∉ text.toList))

theorem stop_le_of_isLine (h : IsLine source.toList pre line tail)
    (hs : IsBoundary source.toList e.span.start) (he : IsBoundary source.toList e.span.stop)
    (hle : e.span.start ≤ e.span.stop) (hplain : StaysInLine source e)
    (hstart : e.span.start ≤ width (pre ++ line)) : e.span.stop ≤ width (pre ++ line) := by
  rcases h.after with rfl | ⟨rest, rfl⟩
  · have := he.le_width
    rwa [h.text, List.append_nil] at this
  obtain ⟨x, y, z, hparts, hx, hy⟩ := exists_parts hs he hle
  have hold : slice? source e.span = some (String.ofList y) := by
    rw [← String.ofList_toList (s := source), hparts]
    exact slice?_ofList hx hy
  have hbreak : '\n' ∉ y := by
    simpa [hold] using (hplain _ (List.mem_of_mem_tail List.mem_cons_self)).1
  -- where the line ends before the edit does, its break is among what the edit takes
  by_contra hlong
  have htext : (pre ++ line) ++ '\n' :: rest = x ++ (y ++ z) := by
    rw [← hparts, h.text, List.append_assoc]
  obtain ⟨u, hu⟩ : ∃ u, pre ++ line = x ++ u := by
    rcases List.append_eq_append_iff.mp htext with ⟨u, hu, -⟩ | ⟨u, hu, -⟩
    · have hnil : u = [] := by
        rw [← width_eq_zero]
        rw [← hx, hu, width_append] at hstart
        omega
      exact ⟨[], by simp [hu, hnil]⟩
    · exact ⟨u, hu⟩
  rw [hu, List.append_assoc] at htext
  rw [← hy, hu] at hlong
  have hbehind := List.append_cancel_left htext
  rcases List.append_eq_append_iff.mp hbehind with ⟨w, rfl, hw⟩ | ⟨w, rfl, -⟩
  · cases w with
    | nil => simp at hlong
    | cons c w =>
      obtain ⟨rfl, -⟩ := List.cons.inj hw
      simp at hbreak
  · simp only [width_append] at hlong
    omega

theorem lineOfStop_eq (hs : IsBoundary source.toList e.span.start)
    (he : IsBoundary source.toList e.span.stop) (hle : e.span.start ≤ e.span.stop)
    (hplain : StaysInLine source e) : lineOfStart source e = lineOfStop source e := by
  obtain ⟨pre, line, tail, h, hlow, hhigh⟩ := exists_isLine hs
  have hstop := stop_le_of_isLine h hs he hle hplain hhigh
  rw [lineOfStart, lineOfStop, h.lineAt_eq hlow hhigh, h.lineAt_eq (by omega) (by omega)]

/-- A line of a text, with edits that lie in it and bring no breaks. -/
structure EditedLine (source : String) where
  pre : List Char
  line : List Char
  tail : List Char
  isLine : IsLine source.toList pre line tail
  edits : List TextEdit
  ordered : edits.Pairwise fun d e => d.span.Before e.span
  inside : ∀ e ∈ edits, width pre ≤ e.span.start ∧ e.span.start ≤ e.span.stop ∧
    e.span.stop ≤ width (pre ++ line) ∧ IsBoundary source.toList e.span.start ∧
    IsBoundary source.toList e.span.stop
  plain : ∀ e ∈ edits, '\n' ∉ e.newText.toList ∧ '\r' ∉ e.newText.toList

namespace EditedLine

variable (l : EditedLine source)

def number : Nat := l.pre.count '\n'

def hunk : Hunk := ⟨l.number, l.number, l.edits⟩

def old : List Char := l.line ++ l.tail.take 1

def new : List Char := weave l.line 0 (l.edits.map (within (width l.pre))) ++ l.tail.take 1

def block : Block := ⟨l.number + 1, l.old, l.new⟩

theorem text : source.toList = l.pre ++ (l.old ++ l.tail.drop 1) := by
  rw [l.isLine.text, old, List.append_assoc, List.take_append_drop]

def toBlock : EditedBlock source where
  hunk := l.hunk
  pre := l.pre
  old := l.old
  post := l.tail.drop 1
  text := l.text
  before := l.isLine.before
  first := rfl
  stop := l.isLine.lineStart_succ.symm
  ordered := l.ordered
  inside := by
    intro e he
    obtain ⟨hlow, hle, hhigh, hs, ht⟩ := l.inside e he
    have hold : width (l.pre ++ l.line) ≤ width (l.pre ++ l.old) := by simp [old]
    exact ⟨hlow, hle, Nat.le_trans hhigh hold, hs, ht⟩

theorem toBlock_new : l.toBlock.new = l.new := by
  have hinside : ∀ e ∈ l.edits.map (within (width l.pre)), IsBoundary l.old e.span.stop ∧
      e.span.start ≤ e.span.stop ∧ e.span.stop ≤ width l.line := by
    rw [List.forall_mem_map]
    intro e he
    obtain ⟨hlow, hle, hhigh, -⟩ := l.inside e he
    rw [width_append] at hhigh
    refine ⟨(l.toBlock.boundary he).2, ?_⟩
    simp only [within]
    omega
  have hbreak : weave l.old (width l.line) [] = l.tail.take 1 := by
    simpa [weave, old] using between_eq (x := l.line) (y := l.tail.take 1) (z := []) rfl rfl
  have hweave : weave l.old 0 (l.edits.map (within (width l.pre)) ++ []) =
      weave l.line 0 (l.edits.map (within (width l.pre))) ++ weave l.old (width l.line) [] :=
    weave_append rfl (isBoundary_zero _) (Nat.zero_le _) hinside (by simp)
  rwa [List.append_nil, hbreak] at hweave

theorem toBlock_block : l.toBlock.block = l.block :=
  congrArg (Block.mk _ _) l.toBlock_new

theorem break_not_mem : '\n' ∉ weave l.line 0 (l.edits.map (within (width l.pre))) := by
  intro hc
  rcases mem_of_mem_weave hc with hc | ⟨d, hd, hc⟩
  · exact l.isLine.line hc
  · obtain ⟨e, he, rfl⟩ := List.mem_map.mp hd
    exact (l.plain e he).1 hc

theorem return_not_mem (hsource : '\r' ∉ source.toList) : '\r' ∉ l.old ∧ '\r' ∉ l.new := by
  rw [← l.toBlock_new]
  exact l.toBlock.not_mem hsource fun e he => (l.plain e he).2

end EditedLine

theorem exists_editedLine (hp : edits.Pairwise fun d e => d.span.Before e.span)
    (hfits : ∀ e ∈ edits, e.span.start ≤ e.span.stop ∧ IsBoundary source.toList e.span.start ∧
      IsBoundary source.toList e.span.stop)
    (hplain : ∀ e ∈ edits, StaysInLine source e) {hunk : Hunk} (hh : hunk ∈ hunks source edits) :
    ∃ l : EditedLine source, l.hunk = hunk := by
  have hgrouped := grouped_hunks source edits
  have hmem := List.mem_reverse.mpr hh
  have hholds := holds_of_mem_hunks source hp hunk hh
  have hlast : hunk.lastLine = hunk.firstLine := by
    refine hgrouped.single (fun e he => ?_) hunk hmem
    obtain ⟨hle, hs, ht⟩ := hfits e he
    exact lineOfStop_eq hs ht hle (hplain e he)
  have hline (e : TextEdit) (he : e ∈ hunk.edits) :
      lineAt source e.span.start = hunk.firstLine := by
    have hreaches := hholds.reaches e he
    have hrange := lineOfStart_le_lineOfStop source e
    change lineOfStart source e = _
    omega
  obtain ⟨d, hd⟩ := List.exists_mem_of_ne_nil _ (hgrouped.nonempty hunk hmem)
  obtain ⟨pre, line, tail, h, hlow, hhigh⟩ := exists_isLine (hfits d (hholds.subset hd)).2.1
  have hfirst : pre.count '\n' = hunk.firstLine := by rw [← hline d hd, h.lineAt_eq hlow hhigh]
  have hinside : ∀ e ∈ hunk.edits, width pre ≤ e.span.start ∧ e.span.start ≤ e.span.stop ∧
      e.span.stop ≤ width (pre ++ line) ∧ IsBoundary source.toList e.span.start ∧
      IsBoundary source.toList e.span.stop := by
    intro e he
    obtain ⟨hle, hs, ht⟩ := hfits e (hholds.subset he)
    obtain ⟨hlow, hhigh⟩ := h.bounds_of_lineAt_eq hs.le_width ((hline e he).trans hfirst.symm)
    exact ⟨hlow, hle, stop_le_of_isLine h hs ht hle (hplain e (hholds.subset he)) hhigh, hs, ht⟩
  have hbrings : ∀ e ∈ hunk.edits, '\n' ∉ e.newText.toList ∧ '\r' ∉ e.newText.toList := by
    intro e he
    exact hplain e (hholds.subset he) e.newText List.mem_cons_self
  refine ⟨⟨pre, line, tail, h, hunk.edits, hholds.ordered, hinside, hbrings⟩, ?_⟩
  change Hunk.mk (pre.count '\n') (pre.count '\n') hunk.edits =
    Hunk.mk hunk.firstLine hunk.lastLine hunk.edits
  rw [hlast, hfirst]

theorem exists_editedLines (hp : edits.Pairwise fun d e => d.span.Before e.span)
    (hfits : ∀ e ∈ edits, e.span.start ≤ e.span.stop ∧ IsBoundary source.toList e.span.start ∧
      IsBoundary source.toList e.span.stop)
    (hplain : ∀ e ∈ edits, StaysInLine source e) :
    ∃ ls : List (EditedLine source), ls.map (·.hunk) = hunks source edits ∧
      ls.Pairwise (fun l l' => l.number < l'.number) ∧ ls.flatMap (·.edits) = edits :=
  exists_map_eq_hunks EditedLine.hunk fun _ hh => exists_editedLine hp hfits hplain hh

end Diff

end JavaRefactor
