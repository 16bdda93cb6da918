import Mathlib.Data.Set.List
import JavaRefactor.Proofs.DiffText
import JavaRefactor.Proofs.Hunks
import JavaRefactor.Proofs.Offsets
import JavaRefactor.Proofs.Shift

/-! # Blocks of lines with their edits

Edits in ascending order are grouped into hunks, and no line belongs to two of them. A hunk is a
block of whole lines of the source: making its edits in the block comes to the same as making them
in the source, and the diff is read as the blocks.
-/

namespace JavaRefactor

namespace EditPlan

open Text

variable {cs pre old : List Char} {k m n : Nat} {c : Char} {es : List TextEdit}

theorem mem_of_mem_between (h : c ∈ between cs m n) : c ∈ cs := by
  unfold between at h
  cases hd : divide? cs ⟨m, n⟩ with
  | none => simp [hd] at h
  | some parts =>
    rw [(divide?_eq_some_iff.mp hd).1]
    simp only [hd, Option.map_some, Option.getD_some] at h
    simp [h]

theorem mem_of_mem_weave (h : c ∈ weave cs k es) : c ∈ cs ∨ ∃ e ∈ es, c ∈ e.newText.toList := by
  induction es generalizing k with
  | nil => exact Or.inl (mem_of_mem_between h)
  | cons e es ih =>
    rw [weave, List.mem_append, List.mem_append] at h
    rcases h with h | h | h
    · exact Or.inl (mem_of_mem_between h)
    · exact Or.inr ⟨e, List.mem_cons_self, h⟩
    · rcases ih h with h | ⟨d, hd, h⟩
      · exact Or.inl h
      · exact Or.inr ⟨d, List.mem_cons_of_mem _ hd, h⟩

theorem between_append_left (hm : IsBoundary old m) (hn : IsBoundary old n) (hmn : m ≤ n) :
    between (pre ++ old) (width pre + m) (width pre + n) = between old m n := by
  obtain ⟨x, y, z, rfl, rfl, rfl⟩ := exists_parts hm hn hmn
  rw [between_eq rfl rfl, ← List.append_assoc pre]
  exact between_eq (by simp) (by simp)

theorem weave_append_left (hp : es.Pairwise fun d e => d.span.Before e.span)
    (hes : ∀ e ∈ es, width pre + k ≤ e.span.start ∧ e.span.start ≤ e.span.stop ∧
      IsBoundary old (e.span.start - width pre) ∧ IsBoundary old (e.span.stop - width pre))
    (hk : IsBoundary old k) :
    weave (pre ++ old) (width pre + k) es = weave old k (es.map (Diff.within (width pre))) := by
  induction es generalizing k with
  | nil =>
    rw [weave, List.map_nil, weave, width_append]
    exact between_append_left hk (isBoundary_width old) hk.le_width
  | cons e es ih =>
    obtain ⟨hfirst, hp⟩ := List.pairwise_cons.mp hp
    rw [List.forall_mem_cons] at hes
    obtain ⟨⟨hlow, hle, hstart, hstop⟩, hes⟩ := hes
    have hs : e.span.start = width pre + (e.span.start - width pre) := by omega
    have he : e.span.stop = width pre + (e.span.stop - width pre) := by omega
    have hrest : ∀ d ∈ es, width pre + (e.span.stop - width pre) ≤ d.span.start ∧
        d.span.start ≤ d.span.stop ∧ IsBoundary old (d.span.start - width pre) ∧
        IsBoundary old (d.span.stop - width pre) := by
      intro d hd
      exact ⟨he ▸ (hfirst d hd).2.1, (hes d hd).2⟩
    have hbetween : between (pre ++ old) (width pre + k) e.span.start =
        between old k (e.span.start - width pre) := by
      conv_lhs => rw [hs]
      exact between_append_left hk hstart (by omega)
    have hweave := ih hp hrest hstop
    rw [← he] at hweave
    rw [weave, List.map_cons, weave, hbetween, hweave]
    rfl

end EditPlan

namespace Diff

open Text EditPlan

variable {source : String} {e : TextEdit} {edits seen : List TextEdit} {hs : List Hunk}

/-- The hunks, last first, hold the edits in their order, and no line belongs to two of them. -/
structure Grouped (source : String) (seen : List TextEdit) (hs : List Hunk) : Prop where
  edits : hs.reverse.flatMap (·.edits) = seen
  nonempty : ∀ h ∈ hs, h.edits ≠ []
  lines : ∀ h ∈ hs, h.firstLine ≤ h.lastLine
  apart : hs.Pairwise fun h g => g.lastLine < h.firstLine
  single : (∀ e ∈ seen, lineOfStart source e = lineOfStop source e) →
    ∀ h ∈ hs, h.lastLine = h.firstLine

theorem addEdit_nil : addEdit source [] e = [⟨lineOfStart source e, lineOfStop source e, [e]⟩] :=
  rfl

theorem addEdit_cons {hunk : Hunk} : addEdit source (hunk :: hs) e =
    if lineOfStart source e ≤ hunk.lastLine then
      ⟨hunk.firstLine, max hunk.lastLine (lineOfStop source e), hunk.edits ++ [e]⟩ :: hs
    else ⟨lineOfStart source e, lineOfStop source e, [e]⟩ :: hunk :: hs :=
  rfl

theorem Grouped.addEdit (h : Grouped source seen hs) (e : TextEdit) :
    Grouped source (seen ++ [e]) (addEdit source hs e) := by
  have hrange := lineOfStart_le_lineOfStop source e
  have hsingle (hall : ∀ d ∈ seen ++ [e], lineOfStart source d = lineOfStop source d) :
      (∀ h ∈ hs, h.lastLine = h.firstLine) ∧ lineOfStop source e = lineOfStart source e :=
    ⟨h.single fun d hd => hall d (List.mem_append_left _ hd), (hall e (by simp)).symm⟩
  cases hs with
  | nil =>
    obtain rfl : [] = seen := h.edits
    rw [addEdit_nil]
    constructor
    case edits => rfl
    case nonempty => simp
    case lines => simpa using hrange
    case apart => exact List.pairwise_singleton _ _
    case single => exact fun hall => by simpa using (hsingle hall).2
  | cons hunk hs =>
    have hseen := h.edits
    have hfilled := List.forall_mem_cons.mp h.nonempty
    obtain ⟨hlines, hothers⟩ := List.forall_mem_cons.mp h.lines
    obtain ⟨hfirst, hrest⟩ := List.pairwise_cons.mp h.apart
    rw [addEdit_cons]
    split
    next hjoin =>
      constructor
      case edits => simp [← hseen]
      case nonempty => exact List.forall_mem_cons.mpr ⟨by simp, hfilled.2⟩
      case lines =>
        exact List.forall_mem_cons.mpr ⟨Nat.le_trans hlines (Nat.le_max_left _ _), hothers⟩
      case apart => exact List.pairwise_cons.mpr ⟨hfirst, hrest⟩
      case single =>
        intro hall
        obtain ⟨hall, he⟩ := hsingle hall
        rw [List.forall_mem_cons] at hall ⊢
        refine ⟨?_, hall.2⟩
        simp only [he]
        omega
    next hopen =>
      constructor
      case edits => simp [← hseen]
      case nonempty => exact List.forall_mem_cons.mpr ⟨by simp, h.nonempty⟩
      case lines => exact List.forall_mem_cons.mpr ⟨hrange, h.lines⟩
      case apart =>
        refine List.pairwise_cons.mpr ⟨List.forall_mem_cons.mpr ⟨by simpa using hopen, ?_⟩, h.apart⟩
        intro g hg
        have := hfirst g hg
        simp only
        omega
      case single =>
        intro hall
        obtain ⟨hall, he⟩ := hsingle hall
        exact List.forall_mem_cons.mpr ⟨he, hall⟩

theorem grouped_hunks (source : String) (edits : List TextEdit) :
    Grouped source edits (hunks source edits).reverse := by
  have run (rest seen : List TextEdit) (hs : List Hunk) (h : Grouped source seen hs) :
      Grouped source (seen ++ rest) (rest.foldl (addEdit source) hs) := by
    induction rest generalizing seen hs with
    | nil => simpa using h
    | cons e rest ih => simpa using ih (seen ++ [e]) _ (h.addEdit e)
  rw [hunks, List.reverse_reverse]
  exact run edits [] [] ⟨rfl, by simp, by simp, List.Pairwise.nil, by simp⟩

/-- Where every hunk is made from something, so are all hunks, in the order of their lines. -/
theorem exists_map_eq_hunks {α : Type} (toHunk : α → Hunk)
    (h : ∀ hunk ∈ hunks source edits, ∃ x, toHunk x = hunk) :
    ∃ l : List α, l.map toHunk = hunks source edits ∧
      l.Pairwise (fun x y => (toHunk x).lastLine < (toHunk y).firstLine) ∧
      l.flatMap (fun x => (toHunk x).edits) = edits := by
  have hgrouped := grouped_hunks source edits
  have hrange : hunks source edits ∈ Set.range (List.map toHunk) := by
    rw [Set.range_list_map]
    exact h
  obtain ⟨l, hl⟩ := hrange
  refine ⟨l, hl, ?_, ?_⟩
  · have hapart := hgrouped.apart
    rwa [List.pairwise_reverse, ← hl, List.pairwise_map] at hapart
  · have hedits := hgrouped.edits
    rwa [List.reverse_reverse, ← hl, List.flatMap_map] at hedits

/-- The lines of a hunk, with edits that lie in them. -/
structure EditedBlock (source : String) where
  hunk : Hunk
  pre : List Char
  old : List Char
  post : List Char
  text : source.toList = pre ++ (old ++ post)
  before : EndsLine pre
  first : pre.count '\n' = hunk.firstLine
  stop : width (pre ++ old) = lineStart source (hunk.lastLine + 1)
  ordered : hunk.edits.Pairwise fun d e => d.span.Before e.span
  inside : ∀ e ∈ hunk.edits, width pre ≤ e.span.start ∧ e.span.start ≤ e.span.stop ∧
    e.span.stop ≤ width (pre ++ old) ∧ IsBoundary source.toList e.span.start ∧
    IsBoundary source.toList e.span.stop

namespace EditedBlock

variable (b : EditedBlock source) {b' : EditedBlock source} {bs : List (EditedBlock source)}
  {a kept : List Char}

def new : List Char := weave b.old 0 (b.hunk.edits.map (within (width b.pre)))

def block : Block := ⟨b.hunk.firstLine + 1, b.old, b.new⟩

theorem start : lineStart source b.hunk.firstLine = width b.pre := by
  rw [← b.first, lineStart, List.getD_eq_getElem?_getD, getElem?_lineStarts b.text b.before]
  rfl

theorem text_append : source.toList = (b.pre ++ b.old) ++ b.post := by
  rw [b.text, List.append_assoc]

theorem endsLine_or : EndsLine (b.pre ++ b.old) ∨ b.post = [] := by
  rcases lineStart_cases source (b.hunk.lastLine + 1) with h | ⟨-, h⟩
  · obtain ⟨a, c, hac, ha, -, hwidth⟩ := exists_of_getElem?_lineStarts h
    have hsplit := b.text_append.symm.trans hac
    obtain ⟨rfl, -⟩ := append_inj_of_width hsplit (b.stop.trans hwidth.symm)
    exact Or.inl ha
  · have hwidth := b.stop.trans h
    rw [byteLength, b.text_append, width_append (b.pre ++ b.old)] at hwidth
    exact Or.inr (width_eq_zero.mp (by omega))

theorem pieces_append : pieces (b.old ++ b.post) = pieces b.old ++ pieces b.post := by
  rcases b.endsLine_or with h | h
  · exact Diff.pieces_append h.of_append b.post
  · simp [h, pieces]

variable {b}

theorem exists_between (h : b.hunk.lastLine < b'.hunk.firstLine) :
    EndsLine (b.pre ++ b.old) ∧ ∃ x, b'.pre = (b.pre ++ b.old) ++ x ∧ EndsLine x := by
  have hwidth : width (b.pre ++ b.old) ≤ width b'.pre := by
    rw [b.stop, ← b'.start]
    exact lineStart_mono source h
  have hsplit := b.text_append.symm.trans b'.text
  have hprefix : ∃ x, b'.pre = (b.pre ++ b.old) ++ x := by
    rcases List.append_eq_append_iff.mp hsplit with ⟨x, hx, -⟩ | ⟨x, hx, -⟩
    · exact ⟨x, hx⟩
    · have hnil : x = [] := by
        rw [← width_eq_zero]
        rw [hx, width_append] at hwidth
        omega
      exact ⟨[], by simp [hx, hnil]⟩
  obtain ⟨x, hx⟩ := hprefix
  have hbefore := b'.before
  rw [hx] at hbefore
  refine ⟨?_, x, hx, hbefore.of_append⟩
  rcases b.endsLine_or with hends | hpost
  · exact hends
  · -- nothing stands behind the block, so the other one begins where it ends
    rw [hx, hpost, List.append_nil, List.append_assoc _ x, List.self_eq_append_right,
      List.append_eq_nil_iff] at hsplit
    rwa [hsplit.1, List.append_nil] at hbefore

theorem stands_behind (h : b.hunk.lastLine < b'.hunk.firstLine) : b.pre ++ b.old <+: b'.pre := by
  obtain ⟨-, x, hx, -⟩ := exists_between h
  exact ⟨x, hx.symm⟩

theorem firstLine_add_length (h : EndsLine (b.pre ++ b.old)) :
    b.hunk.firstLine + (pieces b.old).length = (b.pre ++ b.old).count '\n' := by
  rw [← b.first, length_pieces h.of_append, List.count_append]

theorem firstLine_add_length_le (h : b.hunk.lastLine < b'.hunk.firstLine) :
    b.hunk.firstLine + (pieces b.old).length ≤ b'.hunk.firstLine := by
  rw [firstLine_add_length (exists_between h).1, ← b'.first]
  exact (stands_behind h).sublist.count_le '\n'

variable (b)

theorem boundary (he : e ∈ b.hunk.edits) : IsBoundary b.old (e.span.start - width b.pre) ∧
    IsBoundary b.old (e.span.stop - width b.pre) := by
  obtain ⟨hlow, hle, hhigh, hs, ht⟩ := b.inside e he
  rw [b.text] at hs ht
  exact ⟨hs.middle hlow (by omega), ht.middle (by omega) hhigh⟩

theorem weave_pre : weave (b.pre ++ b.old) (width b.pre) b.hunk.edits = b.new := by
  have hinside : ∀ e ∈ b.hunk.edits, width b.pre + 0 ≤ e.span.start ∧
      e.span.start ≤ e.span.stop ∧ IsBoundary b.old (e.span.start - width b.pre) ∧
      IsBoundary b.old (e.span.stop - width b.pre) := by
    intro e he
    obtain ⟨hlow, hle, -⟩ := b.inside e he
    exact ⟨hlow, hle, b.boundary he⟩
  exact weave_append_left b.ordered hinside (isBoundary_zero _)

theorem block_hunk : b.hunk.block source = .ok b.block :=
  Hunk.block_eq b.text b.start.symm b.stop b.ordered b.inside

theorem mapM_block (bs : List (EditedBlock source)) :
    (bs.map (·.hunk)).mapM (Hunk.block source) = .ok (bs.map block) := by
  induction bs with
  | nil => rfl
  | cons b bs ih =>
    rw [List.map_cons, List.mapM_cons, b.block_hunk, ih]
    rfl

theorem not_mem {c : Char} (hsource : c ∉ source.toList)
    (hedits : ∀ e ∈ b.hunk.edits, c ∉ e.newText.toList) : c ∉ b.old ∧ c ∉ b.new := by
  have hold : c ∉ b.old := by
    intro hc
    rw [b.text] at hsource
    exact hsource (by simp [hc])
  refine ⟨hold, fun hc => ?_⟩
  rcases mem_of_mem_weave hc with hc | ⟨d, hd, hc⟩
  · exact hold hc
  · obtain ⟨e, he, rfl⟩ := List.mem_map.mp hd
    exact hedits e he hc

variable {b}

theorem between_pre (hkept : b.pre = a ++ kept) :
    between source.toList (width a) (width b.pre) = kept := by
  rw [b.text, hkept, List.append_assoc]
  exact between_eq rfl rfl

/-- What edits make of a text from some place before the first of their blocks on. -/
theorem weave_cons (hkept : b.pre = a ++ kept)
    (hbs : ∀ b' ∈ bs, b.hunk.lastLine < b'.hunk.firstLine) :
    weave source.toList (width a) (b.hunk.edits ++ bs.flatMap (·.hunk.edits)) =
      kept ++ (b.new ++
        weave source.toList (width (b.pre ++ b.old)) (bs.flatMap (·.hunk.edits))) := by
  have hlater : ∀ e ∈ bs.flatMap (·.hunk.edits), IsBoundary source.toList e.span.start ∧
      width (b.pre ++ b.old) ≤ e.span.start := by
    intro e he
    obtain ⟨b', hb', he⟩ := List.mem_flatMap.mp he
    obtain ⟨hlow, -, -, hs, -⟩ := b'.inside e he
    obtain ⟨x, hx⟩ := stands_behind (hbs b' hb')
    rw [← hx, width_append] at hlow
    exact ⟨hs, by omega⟩
  have hinside : ∀ e ∈ b.hunk.edits, IsBoundary source.toList e.span.stop ∧
      e.span.start ≤ e.span.stop ∧ e.span.stop ≤ width (b.pre ++ b.old) := by
    intro e he
    obtain ⟨-, hle, hhigh, -, ht⟩ := b.inside e he
    exact ⟨ht, hle, hhigh⟩
  have hall : ∀ e ∈ b.hunk.edits ++ bs.flatMap (·.hunk.edits),
      IsBoundary source.toList e.span.start ∧ width b.pre ≤ e.span.start := by
    intro e he
    rcases List.mem_append.mp he with he | he
    · obtain ⟨hlow, -, -, hs, -⟩ := b.inside e he
      exact ⟨hs, hlow⟩
    · obtain ⟨hs, hlow⟩ := hlater e he
      rw [width_append] at hlow
      exact ⟨hs, by omega⟩
  have ha : IsBoundary source.toList (width a) :=
    ⟨a, kept ++ (b.old ++ b.post), by rw [b.text, hkept, List.append_assoc], rfl⟩
  have hpre : IsBoundary source.toList (width b.pre) := ⟨b.pre, _, b.text, rfl⟩
  rw [weave_from ha hpre (by simp [hkept]) hall, between_pre hkept]
  rw [b.text_append] at hpre hinside hlater ⊢
  rw [weave_append rfl hpre (by simp) hinside hlater, b.weave_pre]

theorem exists_unified {path : String} (hpath : '\n' ∉ path.toList)
    (hfits : ∀ e ∈ edits, (slice? source e.span).isSome)
    (hbs : bs.map (·.hunk) = hunks source edits)
    (hp : bs.Pairwise fun b b' => b.hunk.lastLine < b'.hunk.firstLine) :
    ∃ diff, unified path source edits = .ok diff ∧
      read? diff = some (readBlocks 0 (bs.map block)) := by
  by_cases hempty : edits = []
  · subst hempty
    obtain rfl : bs = [] := List.map_eq_nil_iff.mp hbs
    have hread : read? "" = some [] := by decide
    exact ⟨"", rfl, hread⟩
  · have hnumbered : Numbered 0 (bs.map block) := by
      apply numbered_of_pairwise
      · rw [List.pairwise_map]
        apply hp.imp
        intro b b' h
        have := firstLine_add_length_le h
        simp only [block, lines, List.length_map]
        omega
      · intro block _
        omega
    have hsome : (edits.isEmpty || edits.any fun e => (slice? source e.span).isNone) = false := by
      simp only [Bool.or_eq_false_iff, List.isEmpty_eq_false_iff, List.any_eq_false]
      exact ⟨hempty, fun e he => by simp [Option.isSome_iff_ne_none.mp (hfits e he)]⟩
    refine ⟨_, ?_, read?_renderBlocks hpath hnumbered⟩
    rw [unified, hsome, ← hbs, mapM_block]
    rfl

end EditedBlock

theorem exists_lineStart {i n : Nat} (h : i ≤ lineAt source n) :
    ∃ a c, source.toList = a ++ c ∧ EndsLine a ∧ a.count '\n' = i ∧
      width a = lineStart source i := by
  rcases lineStart_cases source i with hi | ⟨hi, -⟩
  · exact exists_of_getElem?_lineStarts hi
  · have hcount := lineAt_eq source n
    have hle : (lineStarts source).countP (· ≤ n) ≤ (lineStarts source).length :=
      List.countP_le_length
    omega

theorem exists_editedBlock (hp : edits.Pairwise fun d e => d.span.Before e.span)
    (hfits : ∀ e ∈ edits, e.span.start ≤ e.span.stop ∧ IsBoundary source.toList e.span.start ∧
      IsBoundary source.toList e.span.stop) {hunk : Hunk} (hh : hunk ∈ hunks source edits) :
    ∃ b : EditedBlock source, b.hunk = hunk := by
  have hholds := holds_of_mem_hunks source hp hunk hh
  obtain ⟨d, hd⟩ := List.exists_mem_of_ne_nil _
    ((grouped_hunks source edits).nonempty hunk (List.mem_reverse.mpr hh))
  obtain ⟨pre, c, htext, hpre, hcount, hstart⟩ := exists_lineStart (hholds.reaches d hd).1
  obtain ⟨x, old, post, hparts, hx, hstop⟩ := exists_parts (isBoundary_lineStart source _)
    (isBoundary_lineStart source _) (lineStart_mono source (Nat.le_succ_of_le hholds.lines))
  obtain ⟨rfl, -⟩ := append_inj_of_width (hparts.symm.trans htext) (hx.trans hstart.symm)
  have hinside : ∀ e ∈ hunk.edits, width x ≤ e.span.start ∧ e.span.start ≤ e.span.stop ∧
      e.span.stop ≤ width (x ++ old) ∧ IsBoundary source.toList e.span.start ∧
      IsBoundary source.toList e.span.stop := by
    intro e he
    obtain ⟨hle, hs, ht⟩ := hfits e (hholds.subset he)
    obtain ⟨hlow, hhigh⟩ := hholds.bounds he ht.le_width
    exact ⟨hx ▸ hlow, hle, hstop ▸ hhigh, hs, ht⟩
  exact ⟨⟨hunk, x, old, post, hparts, hpre, hcount, hstop, hholds.ordered, hinside⟩, rfl⟩

end Diff

namespace EditPlan

variable {plan : EditPlan} {source out path : String}

theorem exists_editedBlocks (happly : plan.apply source = .ok out) (hpath : '\n' ∉ path.toList) :
    ∃ (bs : List (Diff.EditedBlock source)) (patch : Patch),
      bs.map (·.hunk) = Diff.hunks source plan.ascending ∧
      bs.Pairwise (fun b b' => b.hunk.lastLine < b'.hunk.firstLine) ∧
      bs.flatMap (·.hunk.edits) = plan.ascending ∧ plan.materialize source path = .ok patch ∧
      Diff.read? patch.unifiedDiff = some (Diff.readBlocks 0 (bs.map (·.block))) := by
  obtain ⟨-, -, hfits, hcompat, -⟩ := apply_eq_ok_iff.mp happly
  have hordered := pairwise_ascending (fun e he => (hfits e he).1) hcompat
  have hcut : ∀ e ∈ plan.ascending, e.span.start ≤ e.span.stop ∧
      Text.IsBoundary source.toList e.span.start ∧ Text.IsBoundary source.toList e.span.stop := by
    intro e he
    obtain ⟨hle, -, hb⟩ := hfits e ((mem_sortBy _).mp he)
    exact ⟨hle, hb⟩
  have hsome : ∀ e ∈ plan.ascending, (Text.slice? source e.span).isSome := by
    intro e he
    rw [Text.slice?, Option.isSome_map]
    exact Text.isSome_divide?_iff.mpr (hcut e he)
  obtain ⟨bs, hbs, hp, hedits⟩ := Diff.exists_map_eq_hunks Diff.EditedBlock.hunk fun _ hh =>
    Diff.exists_editedBlock hordered hcut hh
  obtain ⟨diff, hdiff, hread⟩ := Diff.EditedBlock.exists_unified hpath hsome hbs hp
  have hpatch : plan.materialize source path =
      .ok ⟨plan.ascending.map (outputEdit source path), diff⟩ := by
    rw [materialize, hdiff]
    rfl
  exact ⟨bs, _, hbs, hp, hedits, hpatch, hread⟩

end EditPlan

end JavaRefactor
