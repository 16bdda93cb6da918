import JavaRefactor.Proofs.EditedBlocks

/-! # Diffs that take or bring line breaks

The hunks of a diff are carried out as they stand: the old lines are exchanged for the new ones,
and where a note says that no break ends the last of them, the text goes on without a break. This
gives what applying the plan gives, also if lines are joined or split. Only where a carriage return
stands before a line feed the diff does not tell it, and fails to fit the source or loses it.
-/

namespace JavaRefactor

namespace Diff

open Text EditPlan

variable {source : String} {a c out : List Char} {n : Nat} {shift : Int}
  {bs : List (EditedBlock source)}

/-- Exchanges lines in the rest of a text, which begins at a numbered line, if the old lines of
each hunk stand where its number says. -/
def exchangeFrom? (line : Nat) (rest : List (List Char)) : List HunkText → Option (List Char)
  | [] => some rest.flatten
  | hunk :: hunks =>
    let skipped := hunk.oldStart - line
    if line ≤ hunk.oldStart ∧ skipped ≤ rest.length ∧
        (rest.drop skipped).take hunk.old.length = hunk.old then
      (exchangeFrom? (hunk.oldStart + hunk.old.length)
        ((rest.drop skipped).drop hunk.old.length) hunks).map
        fun out => (rest.take skipped).flatten ++ (hunk.new.flatten ++ out)
    else none

def exchange? (source : String) (hunks : List HunkText) : Option String :=
  (exchangeFrom? 1 (pieces source.toList) hunks).map String.ofList

theorem exchangeFrom?_cons {hunk : HunkText} {hunks : List HunkText}
    {skipped old rest : List (List Char)} (hstart : hunk.oldStart = n + skipped.length)
    (hlength : old.length = hunk.old.length) :
    exchangeFrom? n (skipped ++ (old ++ rest)) (hunk :: hunks) = some out ↔
      old = hunk.old ∧ ∃ more,
        exchangeFrom? (hunk.oldStart + hunk.old.length) rest hunks = some more ∧
        out = skipped.flatten ++ (hunk.new.flatten ++ more) := by
  have hskipped : hunk.oldStart - n = skipped.length := by omega
  have hbounds : n ≤ hunk.oldStart ∧ skipped.length ≤ (skipped ++ (old ++ rest)).length := by
    refine ⟨by omega, ?_⟩
    rw [List.length_append]
    omega
  simp only [exchangeFrom?, hskipped, List.take_left, List.drop_left, ← hlength]
  by_cases hold : old = hunk.old
  · rw [if_pos ⟨hbounds.1, hbounds.2, hold⟩]
    simp [hold, eq_comm]
  · rw [if_neg fun h => hold h.2.2]
    simp [hold]

namespace EditedBlock

def replacedBy (b : EditedBlock source) (text : List Char) : TextEdit :=
  ⟨⟨width b.pre, width (b.pre ++ b.old)⟩, String.ofList text⟩

theorem weave_replacedBy {b : EditedBlock source} {kept text : List Char} {es : List TextEdit}
    (hkept : b.pre = a ++ kept) :
    weave source.toList (width a) (b.replacedBy text :: es) =
      kept ++ (text ++ weave source.toList (width (b.pre ++ b.old)) es) := by
  rw [weave, replacedBy, between_pre hkept, String.toList_ofList]

theorem weave_eq (hp : bs.Pairwise fun b b' => b.hunk.lastLine < b'.hunk.firstLine)
    (hahead : ∀ b ∈ bs, a <+: b.pre) :
    weave source.toList (width a) (bs.flatMap (·.hunk.edits)) =
      weave source.toList (width a) (bs.map fun b => b.replacedBy b.new) := by
  induction bs generalizing a with
  | nil => rfl
  | cons b bs ih =>
    obtain ⟨hfirst, hp⟩ := List.pairwise_cons.mp hp
    obtain ⟨kept, hkept⟩ := hahead b List.mem_cons_self
    have hbehind : ∀ b' ∈ bs, b.pre ++ b.old <+: b'.pre :=
      fun b' hb' => stands_behind (hfirst b' hb')
    rw [List.flatMap_cons, weave_cons hkept.symm hfirst, ih hp hbehind, List.map_cons,
      weave_replacedBy hkept.symm]

theorem length_weave_le {f g : EditedBlock source → List Char}
    (h : ∀ b ∈ bs, (f b).length ≤ (g b).length) (k : Nat) :
    let short := (weave source.toList k (bs.map fun b => b.replacedBy (f b))).length
    let long := (weave source.toList k (bs.map fun b => b.replacedBy (g b))).length
    short ≤ long ∧ (short = long → ∀ b ∈ bs, (f b).length = (g b).length) := by
  induction bs generalizing k with
  | nil => simp
  | cons b bs ih =>
    obtain ⟨hb, hbs⟩ := List.forall_mem_cons.mp h
    obtain ⟨hle, heq⟩ := ih hbs (width (b.pre ++ b.old))
    simp only [List.map_cons, weave, replacedBy, String.toList_ofList, List.length_append,
      List.forall_mem_cons] at hle heq ⊢
    constructor
    · omega
    · intro hsame
      exact ⟨by omega, heq (by omega)⟩

/-- The new texts are told by the diff exactly if no carriage return stands before a line feed. -/
theorem weave_plainLines_eq_iff (bs : List (EditedBlock source)) (k : Nat) :
    weave source.toList k (bs.map fun b => b.replacedBy b.new) =
        weave source.toList k (bs.map fun b => b.replacedBy (plainLines b.new).flatten) ↔
      ∀ b ∈ bs, ¬ ['\r', '\n'] <:+: b.new := by
  constructor
  · intro heq b hb hreturn
    -- a return that is lost makes the whole shorter, since no block gets longer
    have hle : ∀ b ∈ bs, (plainLines b.new).flatten.length ≤ b.new.length :=
      fun b _ => length_flatten_plainLines_le b.new
    have hlength := (length_weave_le hle k).2 (congrArg List.length heq.symm) b hb
    exact Nat.ne_of_lt (length_flatten_plainLines_lt hreturn) hlength
  · intro h
    congr 1
    apply List.map_congr_left
    intro b hb
    rw [flatten_plainLines_eq_iff.mpr (h b hb)]

/-- One step: the lines before the block are kept, and those of the block are exchanged if they are
read as they are. -/
theorem exchangeFrom?_block {b : EditedBlock source} {kept : List Char} {hunks : List HunkText}
    (hkept : b.pre = a ++ kept) (hends : EndsLine kept) :
    exchangeFrom? (a.count '\n' + 1) (pieces (kept ++ (b.old ++ b.post)))
        (b.block.readAt shift :: hunks) = some out ↔
      ¬ ['\r', '\n'] <:+: b.old ∧
        ∃ more, exchangeFrom? (b.hunk.firstLine + 1 + (pieces b.old).length) (pieces b.post) hunks =
            some more ∧ out = kept ++ ((plainLines b.new).flatten ++ more) := by
  have hstart : (b.block.readAt shift).oldStart = a.count '\n' + 1 + (pieces kept).length := by
    rw [length_pieces hends]
    simp only [Block.readAt, block, ← b.first, hkept, List.count_append]
    omega
  have hlength : (pieces b.old).length = (b.block.readAt shift).old.length := by
    simp [Block.readAt, block, plainLines]
  have hold : pieces b.old = (b.block.readAt shift).old ↔ ¬ ['\r', '\n'] <:+: b.old := by
    constructor
    · intro h
      rw [← flatten_plainLines_eq_iff]
      exact (congrArg List.flatten h).symm.trans (flatten_pieces b.old)
    · intro h
      exact (plainLines_eq h).symm
  rw [Diff.pieces_append hends, b.pieces_append, exchangeFrom?_cons hstart hlength, hold, ← hlength,
    flatten_pieces]
  rfl

theorem exchangeFrom?_eq_some_iff
    (hp : bs.Pairwise fun b b' => b.hunk.lastLine < b'.hunk.firstLine)
    (htext : source.toList = a ++ c) (hahead : ∀ b ∈ bs, a <+: b.pre)
    (hat : bs ≠ [] → n = a.count '\n' + 1) :
    exchangeFrom? n (pieces c) (readBlocks shift (bs.map block)) = some out ↔
      (∀ b ∈ bs, ¬ ['\r', '\n'] <:+: b.old) ∧
        out = weave source.toList (width a)
          (bs.map fun b => b.replacedBy (plainLines b.new).flatten) := by
  induction bs generalizing a c n shift out with
  | nil =>
    have hweave : weave source.toList (width a) [] = c := by
      simpa [weave, htext] using between_eq (x := a) (y := c) (z := []) rfl rfl
    simp [readBlocks, exchangeFrom?, flatten_pieces, hweave, eq_comm]
  | cons b bs ih =>
    obtain ⟨hfirst, hp⟩ := List.pairwise_cons.mp hp
    obtain ⟨kept, hkept⟩ := hahead b List.mem_cons_self
    obtain rfl := hat (List.cons_ne_nil b bs)
    have hends : EndsLine kept := by
      have hbefore := b.before
      rw [← hkept] at hbefore
      exact hbefore.of_append
    obtain rfl : c = kept ++ (b.old ++ b.post) := by
      have hsame := htext.symm.trans b.text
      rw [← hkept, List.append_assoc] at hsame
      exact List.append_cancel_left hsame
    have hbehind : ∀ b' ∈ bs, b.pre ++ b.old <+: b'.pre :=
      fun b' hb' => stands_behind (hfirst b' hb')
    have hnext : bs ≠ [] → b.hunk.firstLine + 1 + (pieces b.old).length =
        (b.pre ++ b.old).count '\n' + 1 := by
      intro hne
      obtain ⟨b', hb'⟩ := List.exists_mem_of_ne_nil bs hne
      rw [← firstLine_add_length (exists_between (hfirst b' hb')).1]
      omega
    rw [List.map_cons, readBlocks, exchangeFrom?_block hkept.symm hends, List.map_cons,
      weave_replacedBy hkept.symm, List.forall_mem_cons]
    simp only [ih hp b.text_append hbehind hnext]
    constructor
    · rintro ⟨hb, more, ⟨hbs, rfl⟩, rfl⟩
      exact ⟨⟨hb, hbs⟩, rfl⟩
    · rintro ⟨⟨hb, hbs⟩, rfl⟩
      exact ⟨hb, _, ⟨hbs, rfl⟩, rfl⟩

theorem exchange?_eq_some_iff
    (hp : bs.Pairwise fun b b' => b.hunk.lastLine < b'.hunk.firstLine) :
    exchange? source (readBlocks 0 (bs.map block)) =
        some (String.ofList (weave source.toList 0 (bs.flatMap (·.hunk.edits)))) ↔
      ∀ b ∈ bs, ¬ ['\r', '\n'] <:+: b.old ∧ ¬ ['\r', '\n'] <:+: b.new := by
  have hall : ∀ b ∈ bs, [] <+: b.pre := fun b _ => List.nil_prefix
  have hweave := weave_eq hp hall
  rw [width_nil] at hweave
  have hrun (out : List Char) :
      exchangeFrom? 1 (pieces source.toList) (readBlocks 0 (bs.map block)) = some out ↔ _ :=
    exchangeFrom?_eq_some_iff hp (List.nil_append _).symm hall fun _ => rfl
  rw [exchange?, Option.map_eq_some_iff]
  simp only [String.ofList_inj, exists_eq_right, hrun, width_nil, hweave, weave_plainLines_eq_iff]
  rw [forall₂_and]

end EditedBlock

end Diff

namespace EditPlan

variable {plan : EditPlan} {source out path : String}

/-- Carrying out the diff of a plan gives what applying the plan gives, exactly if no carriage
return stands before a line feed in the lines that the diff takes and brings. So it does for every
plan without carriage returns, whatever line breaks its edits take or bring. -/
theorem diff_exchanges_iff (happly : plan.apply source = .ok out) (hpath : '\n' ∉ path.toList) :
    ∃ patch blocks hunks, plan.materialize source path = .ok patch ∧
      (Diff.hunks source plan.ascending).mapM (Diff.Hunk.block source) = .ok blocks ∧
      Diff.read? patch.unifiedDiff = some hunks ∧
      (Diff.exchange? source hunks = some out ↔
        ∀ b ∈ blocks, ¬ ['\r', '\n'] <:+: b.old ∧ ¬ ['\r', '\n'] <:+: b.new) ∧
      ('\r' ∉ source.toList → (∀ e ∈ plan.edits, '\r' ∉ e.newText.toList) →
        Diff.exchange? source hunks = some out) := by
  obtain ⟨bs, patch, hbs, hp, hedits, hpatch, hread⟩ := exists_editedBlocks happly hpath
  obtain ⟨-, -, -, -, rfl⟩ := apply_eq_ok_iff.mp happly
  have hiff := Diff.EditedBlock.exchange?_eq_some_iff hp
  rw [hedits] at hiff
  refine ⟨patch, bs.map (·.block), _, hpatch, ?_, hread, ?_, ?_⟩
  · rw [← hbs]
    exact Diff.EditedBlock.mapM_block bs
  · rw [List.forall_mem_map]
    exact hiff
  · intro hsource hnew
    apply hiff.mpr
    intro b hb
    have hblock : ∀ e ∈ b.hunk.edits, '\r' ∉ e.newText.toList := by
      intro e he
      have hmem : e ∈ plan.ascending := hedits ▸ List.mem_flatMap.mpr ⟨b, hb, he⟩
      exact hnew e ((mem_sortBy _).mp hmem)
    obtain ⟨hold, hnew⟩ := b.not_mem hsource hblock
    exact ⟨fun h => hold (h.subset List.mem_cons_self), fun h => hnew (h.subset List.mem_cons_self)⟩

/-- Two lines are joined, and the last one is split. A carriage return before a line feed is
lost. -/
theorem diff_exchanges_iff_sample :
    (let source := "a\nb\nc"
    let plan : EditPlan := { EditPlan.ofSource source with
      edits := [⟨⟨4, 4⟩, "x\ny"⟩, ⟨⟨1, 2⟩, ""⟩], valid := true }
    plan.apply source = .ok "ab\nx\nyc" ∧
      ∃ patch hunks, plan.materialize source "A.java" = .ok patch ∧
        Diff.read? patch.unifiedDiff = some hunks ∧
        Diff.exchange? source hunks = some "ab\nx\nyc") ∧
    (let source := "a\r\nb\r\n"
    let plan : EditPlan := { EditPlan.ofSource source with edits := [⟨⟨0, 1⟩, "c"⟩], valid := true }
    plan.apply source = .ok "c\r\nb\r\n" ∧
      ∃ patch hunks, plan.materialize source "A.java" = .ok patch ∧
        Diff.read? patch.unifiedDiff = some hunks ∧
        Diff.exchange? source hunks ≠ some "c\r\nb\r\n") := by
  constructor
  · intro source plan
    have happly : plan.apply source = .ok "ab\nx\nyc" := by decide +kernel
    have hpath : '\n' ∉ "A.java".toList := by decide +kernel
    obtain ⟨patch, -, hunks, hpatch, -, hread, -, hplain⟩ := diff_exchanges_iff happly hpath
    exact ⟨happly, patch, hunks, hpatch, hread, hplain (by decide +kernel) (by decide +kernel)⟩
  · intro source plan
    have happly : plan.apply source = .ok "c\r\nb\r\n" := by decide +kernel
    have hpath : '\n' ∉ "A.java".toList := by decide +kernel
    obtain ⟨patch, blocks, hunks, hpatch, hblocks, hread, hiff, -⟩ :=
      diff_exchanges_iff happly hpath
    have hold : ((Diff.hunks source plan.ascending).mapM (Diff.Hunk.block source)).toOption.map
        (·.map (·.old)) = some [['a', '\r', '\n']] := by decide +kernel
    rw [hblocks] at hold
    have holds : blocks.map (·.old) = [['a', '\r', '\n']] := Option.some.inj hold
    obtain ⟨b, hb, hold⟩ := List.mem_map.mp (holds ▸ List.mem_cons_self)
    refine ⟨happly, patch, hunks, hpatch, hread, fun h => (hiff.mp h b hb).1 ?_⟩
    rw [hold]
    exact ⟨['a'], [], rfl⟩

end EditPlan

end JavaRefactor
