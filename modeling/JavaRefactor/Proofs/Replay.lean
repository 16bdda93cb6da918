import JavaRefactor.Proofs.LineHunks

/-! # Replaying diffs

A diff is replayed by exchanging, hunk by hunk, the old lines for the new ones. The diff of a plan
whose edits stay in their lines, replayed on the source, gives what applying the plan gives.
-/

namespace JavaRefactor

namespace Diff

open Text EditPlan

variable {source : String} {a b done kept : List Char} {n : Nat} {ls : List (EditedLine source)}

/-- Exchanges lines in the rest of a text, which begins at a numbered line. Gives the whole text
and the numbers of the lines at which the new lines begin in it, if the old lines of each hunk
stand where its number says. -/
def replayFrom? (done : List Char) (line : Nat) (rest : List (List Char)) :
    List HunkText → Option (List Char × List Nat)
  | [] => some (done ++ rest.flatten, [])
  | hunk :: hunks =>
    let skipped := hunk.oldStart - line
    let before := done ++ (rest.take skipped).flatten
    if line ≤ hunk.oldStart ∧ skipped ≤ rest.length ∧ lacksBreak before = false ∧
        (rest.drop skipped).take hunk.old.length = hunk.old then
      (replayFrom? (before ++ hunk.new.flatten) (hunk.oldStart + hunk.old.length)
        ((rest.drop skipped).drop hunk.old.length) hunks).map
        fun (out, starts) => (out, (before.count '\n' + 1) :: starts)
    else none

def replay? (source : String) (hunks : List HunkText) : Option (String × List Nat) :=
  (replayFrom? [] 1 (pieces source.toList) hunks).map
    fun (out, starts) => (String.ofList out, starts)

theorem lacksBreak_of_endsLine (h : EndsLine a) : lacksBreak a = false := by
  rcases h with rfl | ⟨x, rfl⟩
  · rfl
  · simp [lacksBreak]

theorem replayFrom?_cons {hunk : HunkText} {hunks : List HunkText} {skipped rest : List (List Char)}
    (hstart : hunk.oldStart = n + skipped.length) (hends : EndsLine (done ++ skipped.flatten)) :
    replayFrom? done n (skipped ++ (hunk.old ++ rest)) (hunk :: hunks) =
      (replayFrom? (done ++ skipped.flatten ++ hunk.new.flatten) (hunk.oldStart + hunk.old.length)
        rest hunks).map
        fun (out, starts) => (out, ((done ++ skipped.flatten).count '\n' + 1) :: starts) := by
  have hskipped : hunk.oldStart - n = skipped.length := by omega
  simp only [replayFrom?, hskipped, List.take_left, List.drop_left]
  rw [if_pos]
  exact ⟨by omega, by simp, lacksBreak_of_endsLine hends, trivial⟩

namespace EditedLine

theorem exists_between {l l' : EditedLine source} (h : l.number < l'.number) :
    ∃ rest x, l.tail = '\n' :: rest ∧ l'.pre = (l.pre ++ l.old) ++ x := by
  obtain ⟨rest, x, htail, hpre⟩ := l.isLine.exists_between l'.isLine h
  exact ⟨rest, x, htail, by rw [hpre, old, htail, List.take_succ_cons, List.take_zero]⟩

theorem isWholeLine_old {l l' : EditedLine source} (h : l.number < l'.number) :
    IsWholeLine l.old := by
  obtain ⟨rest, -, htail, -⟩ := exists_between h
  exact ⟨l.line, l.isLine.line, by rw [old, htail, List.take_succ_cons, List.take_zero]⟩

theorem isWholeLine_new {l l' : EditedLine source} (h : l.number < l'.number) :
    IsWholeLine l.new := by
  obtain ⟨rest, -, htail, -⟩ := exists_between h
  exact ⟨_, l.break_not_mem, by rw [new, htail, List.take_succ_cons, List.take_zero]⟩

theorem pairwise_growth (hp : ls.Pairwise fun l l' => l.number < l'.number) :
    (ls.map block).Pairwise fun b _ => b.growth = 0 := by
  rw [List.pairwise_map]
  apply hp.imp
  intro l l' h
  simp [Block.growth, lines, block, pieces_wholeLine (isWholeLine_old h),
    pieces_wholeLine (isWholeLine_new h)]

/-- What edits make of a text from some place before the first of their lines on. -/
theorem weave_cons {l : EditedLine source} (hkept : l.pre = a ++ kept)
    (hls : ∀ l' ∈ ls, l.number < l'.number) :
    weave source.toList (width a) (l.edits ++ ls.flatMap (·.edits)) =
      kept ++ (l.new ++ weave source.toList (width (l.pre ++ l.old)) (ls.flatMap (·.edits))) := by
  have hlater : ∀ b ∈ ls.map toBlock, l.toBlock.hunk.lastLine < b.hunk.firstLine :=
    List.forall_mem_map.mpr hls
  have hweave := EditedBlock.weave_cons (b := l.toBlock) hkept hlater
  rwa [List.flatMap_map, toBlock_new] at hweave

end EditedLine

/-- The replay has come to the end of a line: `a` of the source has been read, `done` has been
made of it, and the lines have kept their numbers. The next line has the number `n`. -/
structure AtLine (a done : List Char) (n : Nat) : Prop where
  source : EndsLine a
  result : EndsLine done
  count : done.count '\n' = a.count '\n'
  line : n = a.count '\n' + 1

theorem AtLine.next {l l' : EditedLine source} (h : AtLine a done n) (hkept : l.pre = a ++ kept)
    (hlt : l.number < l'.number) :
    AtLine (l.pre ++ l.old) (done ++ kept ++ l.new) (l.number + 1 + (pieces l.old).length) := by
  have hold := EditedLine.isWholeLine_old hlt
  have hnew := EditedLine.isWholeLine_new hlt
  constructor
  case source => exact hold.endsLine_append _
  case result => exact hnew.endsLine_append _
  case count => simp [hold.count_eq, hnew.count_eq, hkept, h.count]
  case line => simp [hold.count_eq, pieces_wholeLine hold, EditedLine.number]

/-- One step of the replay: the lines before the block are kept, and those of the block are
exchanged. -/
theorem AtLine.replayFrom?_cons {l : EditedLine source} {hunks : List HunkText}
    (h : AtLine a done n) (hkept : l.pre = a ++ kept) (hends : EndsLine kept) :
    replayFrom? done n (pieces (kept ++ (l.line ++ l.tail))) (l.block.asRead :: hunks) =
      (replayFrom? (done ++ kept ++ l.new) (l.number + 1 + (pieces l.old).length)
        (pieces (l.tail.drop 1)) hunks).map
        fun (out, starts) => (out, (l.number + 1) :: starts) := by
  have hnumber : l.number = a.count '\n' + kept.count '\n' := by
    rw [EditedLine.number, hkept, List.count_append]
  have hstart : l.block.asRead.oldStart = n + (pieces kept).length := by
    rw [length_pieces hends, h.line]
    simp only [Block.asRead, EditedLine.block]
    omega
  have hbefore : EndsLine (done ++ (pieces kept).flatten) := by
    rw [flatten_pieces]
    exact h.result.append hends
  have hcount : (done ++ kept).count '\n' = l.number := by rw [List.count_append, h.count, hnumber]
  have hnew : l.block.asRead.new.flatten = l.new := flatten_pieces l.new
  rw [pieces_append hends, pieces_isLine l.isLine]
  apply (Diff.replayFrom?_cons hstart hbefore).trans
  rw [flatten_pieces, hnew, hcount]
  rfl

theorem replayFrom?_eq (hp : ls.Pairwise fun l l' => l.number < l'.number)
    (htext : source.toList = a ++ b) (hat : ls ≠ [] → AtLine a done n)
    (hahead : ∀ l ∈ ls, a.count '\n' ≤ l.number) :
    replayFrom? done n (pieces b) (ls.map (·.block.asRead)) =
      some (done ++ weave source.toList (width a) (ls.flatMap (·.edits)),
        ls.map (·.number + 1)) := by
  induction ls generalizing a b done n with
  | nil =>
    have hweave : weave source.toList (width a) [] = b := by
      simpa [weave, htext] using between_eq (x := a) (y := b) (z := []) rfl rfl
    simp [replayFrom?, flatten_pieces, hweave]
  | cons l ls ih =>
    obtain ⟨hfirst, hp⟩ := List.pairwise_cons.mp hp
    have hat := hat (List.cons_ne_nil l ls)
    have hsame := htext.symm.trans l.isLine.text
    obtain ⟨kept, hkept, hends⟩ :=
      hat.source.exists_append l.isLine.before hsame (hahead l List.mem_cons_self)
    have hb : b = kept ++ (l.line ++ l.tail) := by
      rw [hkept, List.append_assoc] at hsame
      exact List.append_cancel_left hsame
    have hnext : ls ≠ [] →
        AtLine (l.pre ++ l.old) (done ++ kept ++ l.new) (l.number + 1 + (pieces l.old).length) := by
      intro hne
      obtain ⟨l', hl'⟩ := List.exists_mem_of_ne_nil ls hne
      exact hat.next hkept (hfirst l' hl')
    have hbehind : ∀ l' ∈ ls, (l.pre ++ l.old).count '\n' ≤ l'.number := by
      intro l' hl'
      obtain ⟨-, x, -, hx⟩ := EditedLine.exists_between (hfirst l' hl')
      simp [EditedLine.number, hx]
    have hrest := ih hp (by rw [List.append_assoc]; exact l.text) hnext hbehind
    rw [hb, List.map_cons, hat.replayFrom?_cons hkept hends, hrest, List.flatMap_cons,
      EditedLine.weave_cons hkept hfirst]
    simp

theorem exists_unified {path : String} {edits : List TextEdit} (hpath : '\n' ∉ path.toList)
    (hsource : '\r' ∉ source.toList) (hfits : ∀ e ∈ edits, (slice? source e.span).isSome)
    (hls : ls.map (·.hunk) = hunks source edits)
    (hp : ls.Pairwise fun l l' => l.number < l'.number) :
    ∃ diff, unified path source edits = .ok diff ∧ read? diff = some (ls.map (·.block.asRead)) := by
  have hhunks : (ls.map (·.toBlock)).map (·.hunk) = hunks source edits := by
    rw [List.map_map]
    exact hls
  have hblocks : (ls.map (·.toBlock)).map (·.block) = ls.map (·.block) := by
    rw [List.map_map]
    exact List.map_congr_left fun l _ => l.toBlock_block
  have hreturn : ∀ block ∈ ls.map (·.block), '\r' ∉ block.old ∧ '\r' ∉ block.new := by
    rw [List.forall_mem_map]
    exact fun l _ => l.return_not_mem hsource
  obtain ⟨diff, hdiff, hread⟩ :=
    EditedBlock.exists_unified hpath hfits hhunks (List.pairwise_map.mpr hp)
  rw [hblocks, readBlocks_eq hreturn (EditedLine.pairwise_growth hp), List.map_map] at hread
  exact ⟨diff, hdiff, hread⟩

end Diff

namespace EditPlan

variable {plan : EditPlan} {source out path : String}

/-- The diff of a plan whose edits stay in their lines, replayed on the source, gives what applying
the plan gives. Its hunks stand in the order of their lines, and the numbers of the new lines are
those of the new text. -/
theorem diff_replays (happly : plan.apply source = .ok out) (hsource : '\r' ∉ source.toList)
    (hpath : '\n' ∉ path.toList) (hplain : ∀ e ∈ plan.edits, Diff.StaysInLine source e) :
    ∃ patch hunks, plan.materialize source path = .ok patch ∧
      Diff.read? patch.unifiedDiff = some hunks ∧
      hunks.Pairwise (fun h g => h.oldStart < g.oldStart) ∧
      Diff.replay? source hunks = some (out, hunks.map (·.newStart)) := by
  obtain ⟨-, -, hfits, hcompat, rfl⟩ := apply_eq_ok_iff.mp happly
  have hmem {e : TextEdit} : e ∈ plan.ascending ↔ e ∈ plan.edits := mem_sortBy _
  have hordered := pairwise_ascending (fun e he => (hfits e he).1) hcompat
  have hcut : ∀ e ∈ plan.ascending, e.span.start ≤ e.span.stop ∧
      Text.IsBoundary source.toList e.span.start ∧ Text.IsBoundary source.toList e.span.stop := by
    intro e he
    obtain ⟨hle, -, hb⟩ := hfits e (hmem.mp he)
    exact ⟨hle, hb⟩
  have hsome : ∀ e ∈ plan.ascending, (Text.slice? source e.span).isSome := by
    intro e he
    rw [Text.slice?, Option.isSome_map]
    exact Text.isSome_divide?_iff.mpr (hcut e he)
  obtain ⟨ls, hls, hp, hedits⟩ :=
    Diff.exists_editedLines hordered hcut fun e he => hplain e (hmem.mp he)
  obtain ⟨diff, hdiff, hread⟩ := Diff.exists_unified hpath hsource hsome hls hp
  have hreplay : Diff.replayFrom? [] 1 (Diff.pieces source.toList) (ls.map (·.block.asRead)) = _ :=
    Diff.replayFrom?_eq (a := []) hp rfl (fun _ => ⟨Or.inl rfl, Or.inl rfl, rfl, rfl⟩)
      (by simp)
  have hpatch : plan.materialize source path =
      .ok ⟨plan.ascending.map (outputEdit source path), diff⟩ := by
    rw [materialize, hdiff]
    rfl
  refine ⟨_, _, hpatch, hread, ?_, ?_⟩
  · rw [List.pairwise_map]
    exact hp.imp Nat.succ_lt_succ
  · rw [Diff.replay?, hreplay, hedits, List.map_map]
    rfl

/-- Two edits in one line, a new text in an empty one, and a last line that goes. -/
theorem diff_replays_sample :
    let source := "int a;\nint b = a + a;\n\nreturn a"
    let plan : EditPlan := { EditPlan.ofSource source with
      edits := [⟨⟨23, 31⟩, ""⟩, ⟨⟨22, 22⟩, "// sum"⟩, ⟨⟨19, 20⟩, "first"⟩, ⟨⟨15, 16⟩, "first"⟩,
        ⟨⟨4, 5⟩, "first"⟩]
      valid := true }
    plan.apply source = .ok "int first;\nint b = first + first;\n// sum\n" ∧
    ∃ patch hunks, plan.materialize source "src/A.java" = .ok patch ∧
      Diff.read? patch.unifiedDiff = some hunks ∧
      hunks.Pairwise (fun h g => h.oldStart < g.oldStart) ∧
      Diff.replay? source hunks =
        some ("int first;\nint b = first + first;\n// sum\n", hunks.map (·.newStart)) := by
  intro source plan
  have happly : plan.apply source = .ok "int first;\nint b = first + first;\n// sum\n" := by
    decide +kernel
  exact ⟨happly, diff_replays happly (by decide +kernel) (by decide +kernel) (by decide +kernel)⟩

end EditPlan

end JavaRefactor
