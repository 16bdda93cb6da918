import JavaRefactor.Command.Project
import JavaRefactor.Command.Rename
import JavaRefactor.Proofs.Files
import JavaRefactor.Proofs.Hunks
import JavaRefactor.Proofs.Locate

/-! # Commands change all or nothing

A command that applies a plan writes its file as the last thing that can fail. So the disk is as
it was, or the file holds what the plan makes of its text and nothing else has changed. A new file
is added alone; what is left of an attempt that failed are directories at most.
-/

namespace JavaRefactor

namespace Disk

def file? (d : Disk) (place : Place) : Option ByteArray :=
  match d.entryAt? place with
  | some (.file bytes) => some bytes
  | _ => none

theorem file?_congr {d d' : Disk} {p : Place} (h : d'.entryAt? p = d.entryAt? p) :
    d'.file? p = d.file? p := by
  rw [file?, h, file?]

theorem Grown.file?_eq {d d' : Disk} (h : d.Grown d') (p : Place) : d'.file? p = d.file? p := by
  rcases h p with hp | ⟨hnone, hdir⟩
  · exact file?_congr hp
  · simp [file?, hnone, hdir]

end Disk

namespace Command

variable {parser : Parser} {d d' : Disk} {file planFile text source : String} {plan : EditPlan}
  {before : Nat}

/-- A plan was applied to the file that a path names. -/
structure Rewritten (parser : Parser) (d d' : Disk) (file : String) (plan : EditPlan)
    (place : Place) (source text : String) : Prop where
  /-- The file held a text, and now it holds what the plan makes of it. -/
  found : d.find file = .ok (place, .file source.toUTF8)
  applied : plan.apply source = .ok text
  left : d'.find file = .ok (place, .file text.toUTF8)
  /-- Everything else on the disk is as it was. -/
  others : ∀ p, p ≠ place → d'.entryAt? p = d.entryAt? p
  /-- The new text parses no worse. -/
  parses : ∃ before after, countErrors parser source = .ok before ∧
    countErrors parser text = .ok after ∧ after ≤ before

theorem readText_eq_ok_iff : readText d file = .ok text ↔ d.read file = .ok text := by
  unfold readText
  cases d.read file <;> simp

theorem writeText_eq_ok_iff : writeText d file text = .ok d' ↔ d.write file text = .ok d' := by
  unfold writeText
  cases d.write file text <;> simp

theorem edited_eq_ok_iff : edited file plan source = .ok text ↔ plan.apply source = .ok text := by
  unfold edited
  cases plan.apply source <;> simp

theorem verify_eq_ok_iff : verify parser file before text = .ok () ↔
    ∃ after, countErrors parser text = .ok after ∧ after ≤ before := by
  simp only [verify, bind_eq_ok_iff]
  refine exists_congr fun after => and_congr_right fun _ => ?_
  split
  next h => simpa [throw, throwThe, MonadExceptOf.throw] using h
  next h => simpa [pure, Except.pure] using h

theorem rewritten_of_write (hread : d.read file = .ok source)
    (happly : plan.apply source = .ok text) (hbefore : countErrors parser source = .ok before)
    (hverify : verify parser file before text = .ok ()) (hwrite : d.write file text = .ok d') :
    ∃ place, Rewritten parser d d' file plan place source text := by
  obtain ⟨place, hfind⟩ := Disk.find_of_read hread
  obtain ⟨place', hwrote⟩ := Disk.exists_wrote hwrite
  -- reading and writing follow the path to the same place
  obtain rfl : place' = place :=
    Except.ok.inj (hwrote.placeOf.symm.trans (Disk.find_eq_ok_iff.mp hfind).1)
  obtain ⟨after, hafter, hle⟩ := verify_eq_ok_iff.mp hverify
  exact ⟨place', hfind, happly, hwrote.find, hwrote.others, before, after, hbefore, hafter, hle⟩

theorem prepareApply_eq_ok (h : prepareApply parser d file planFile = .ok (plan, text)) :
    ∃ source before, d.read file = .ok source ∧ readPlan d planFile = .ok plan ∧
      plan.apply source = .ok text ∧ countErrors parser source = .ok before ∧
      verify parser file before text = .ok () := by
  simp only [prepareApply, bind_eq_ok_iff, readText_eq_ok_iff, edited_eq_ok_iff] at h
  obtain ⟨source, hread, plan', hplan, text', happly, before, hbefore, _, hverify, h⟩ := h
  obtain ⟨rfl, rfl⟩ := Prod.mk.inj (Except.ok.inj h)
  exact ⟨source, before, hread, hplan, happly, hbefore, hverify⟩

theorem applyPlan_cases (parser : Parser) (d : Disk) (file planFile : String) (dryRun : Bool) :
    (∃ f, applyPlan parser d file planFile dryRun = ⟨.error f, d⟩) ∨
    ∃ answer left plan, applyPlan parser d file planFile dryRun = ⟨.ok answer, left⟩ ∧
      answer.applied = !dryRun ∧ readPlan d planFile = .ok plan ∧
      if answer.applied then
        ∃ place source text, Rewritten parser d left file plan place source text
      else left = d := by
  generalize houtcome : applyPlan parser d file planFile dryRun = outcome
  unfold applyPlan at houtcome
  split at houtcome
  next f _ => exact Or.inl ⟨f, houtcome.symm⟩
  next plan text hprep =>
    obtain ⟨source, before, hread, hplan, happly, hbefore, hverify⟩ := prepareApply_eq_ok hprep
    cases dryRun with
    | true => exact Or.inr ⟨_, d, plan, houtcome.symm, rfl, hplan, rfl⟩
    | false =>
      simp only [Bool.false_eq_true, if_false] at houtcome
      split at houtcome
      next f _ => exact Or.inl ⟨f, houtcome.symm⟩
      next written hwrite =>
        obtain ⟨place, hrewritten⟩ := rewritten_of_write hread happly hbefore hverify
          (writeText_eq_ok_iff.mp hwrite)
        exact Or.inr ⟨_, written, plan, houtcome.symm, rfl, hplan, place, source, text, hrewritten⟩

theorem load_eq_ok_iff {a : Analysis} : load parser d file = .ok a ↔
    ∃ source, d.read file = .ok source ∧ Analysis.run parser file source = .ok a := by
  unfold load
  cases d.read file with
  | error => simp
  | ok source => cases h : Analysis.run parser file source <;> simp [h]

theorem need_eq_ok_iff {a : Analysis} :
    need parser d file = .ok a ↔ load parser d file = .ok a := by
  unfold need
  cases load parser d file <;> simp

section Rename

variable {request : RenameRequest} {planned : Planned}

theorem prepare_eq_ok (h : Planned.prepare parser d request = .ok planned) :
    planned.analysis.path = request.file ∧ d.read request.file = .ok planned.analysis.source ∧
      countErrors parser planned.analysis.source =
        .ok planned.analysis.tree.errorRegions.length := by
  simp only [Planned.prepare, bind_eq_ok_iff, need_eq_ok_iff, load_eq_ok_iff] at h
  obtain ⟨a, ⟨source, hread, hrun⟩, symbol, -, rename, -, h⟩ := h
  obtain rfl := Except.ok.inj h
  obtain ⟨hpath, rfl, -, raw, hraw, htree⟩ := Analysis.of_run_eq_ok hrun
  refine ⟨hpath, hread, ?_⟩
  simp only [countErrors, hraw, htree]

theorem verified_eq_ok (h : planned.verified parser = .ok text) :
    planned.rename.plan.apply planned.analysis.source = .ok text ∧
      verify parser planned.analysis.path planned.analysis.tree.errorRegions.length text =
        .ok () := by
  simp only [Planned.verified, bind_eq_ok_iff, edited_eq_ok_iff] at h
  obtain ⟨text', happly, _, hverify, h⟩ := h
  obtain rfl := Except.ok.inj h
  exact ⟨happly, hverify⟩

theorem of_answer_eq_ok {applied : Bool} {answer : RenameAnswer}
    (h : planned.answer applied = .ok answer) :
    answer.applied = applied ∧ answer.plan = planned.rename.plan := by
  unfold Planned.answer at h
  split at h
  next => cases h
  next =>
    obtain rfl := Except.ok.inj h
    exact ⟨rfl, rfl⟩

/-- Edits that were made do not meet, so the answer about them cannot fail. -/
theorem exists_answer (h : planned.verified parser = .ok text) (applied : Bool) :
    ∃ answer, planned.answer applied = .ok answer := by
  obtain ⟨patch, hpatch⟩ := EditPlan.exists_materialize (verified_eq_ok h).1 planned.analysis.path
  unfold Planned.answer
  rw [hpatch]
  exact ⟨_, rfl⟩

theorem rename_cases (parser : Parser) (d : Disk) (request : RenameRequest)
    (hout : request.planOut = none) :
    (∃ f, rename parser d request = ⟨.error f, d⟩) ∨
    ∃ answer left, rename parser d request = ⟨.ok answer, left⟩ ∧
      answer.applied = (request.apply && answer.plan.hasEdits) ∧
      if answer.applied then
        ∃ place source text, Rewritten parser d left request.file answer.plan place source text
      else left = d := by
  generalize houtcome : rename parser d request = outcome
  simp only [rename, hout, writePlan] at houtcome
  split at houtcome
  next f _ => exact Or.inl ⟨f, houtcome.symm⟩
  next planned hprep =>
    split at houtcome
    next hasked =>
      split at houtcome
      next f _ => exact Or.inl ⟨f, houtcome.symm⟩
      next text hverified =>
        split at houtcome
        next f _ => exact Or.inl ⟨f, houtcome.symm⟩
        next written hwrite =>
          obtain ⟨hpath, hread, hbefore⟩ := prepare_eq_ok hprep
          obtain ⟨happly, hverify⟩ := verified_eq_ok hverified
          obtain ⟨place, hrewritten⟩ := rewritten_of_write hread happly hbefore (hpath ▸ hverify)
            (writeText_eq_ok_iff.mp hwrite)
          obtain ⟨answer, hanswer⟩ := exists_answer hverified true
          obtain ⟨happlied, hplan⟩ := of_answer_eq_ok hanswer
          refine Or.inr ⟨answer, written, by rw [← houtcome, hanswer], ?_, ?_⟩
          · rw [happlied, hplan, hasked]
          · rw [happlied, hplan, if_pos rfl]
            exact ⟨place, _, text, hrewritten⟩
    next hasked =>
      cases hanswer : planned.answer false with
      | error f => exact Or.inl ⟨f, by rw [← houtcome, hanswer]⟩
      | ok answer =>
        obtain ⟨happlied, hplan⟩ := of_answer_eq_ok hanswer
        refine Or.inr ⟨answer, d, by rw [← houtcome, hanswer], ?_, ?_⟩
        · rw [happlied, hplan]
          simpa using hasked
        · simp [happlied]

end Rename

theorem grown_newFile (d : Disk) (root package fileName : String) (template : Template)
    (tree : SourceTree) :
    d.Grown (Project.newFile d root package fileName template tree).disk := by
  unfold Project.newFile
  simp only
  split
  · exact Disk.Grown.refl d
  · simp only [Outcome.map, Project.packageDirectory]
    split
    · exact Disk.Grown.refl d
    · split
      · exact Disk.Grown.refl d
      · simp only [Outcome.mapError]
        apply Disk.grown_makeDirectories

theorem createFile_cases (d : Disk) (request : NewFileRequest) :
    (∃ f left, createFile d request = ⟨.error f, left⟩ ∧ ∀ p, left.file? p = d.file? p) ∨
    ∃ answer left place bytes, createFile d request = ⟨.ok answer, left⟩ ∧
      d.entryAt? place = none ∧ left.find answer.file = .ok (place, .file bytes) ∧
      ∀ p, p ≠ place → left.file? p = d.file? p := by
  have hgrown := grown_newFile d request.root request.package request.fileName request.template
    request.tree
  unfold createFile
  simp only
  generalize Project.newFile d request.root request.package request.fileName request.template
    request.tree = prepared at hgrown
  split
  next f _ => exact Or.inl ⟨f, _, rfl, hgrown.file?_eq⟩
  next file _ =>
    split
    next => exact Or.inl ⟨_, _, rfl, hgrown.file?_eq⟩
    next hfree =>
      cases hwrite : writeText prepared.disk file.path file.contents with
      | error f => exact Or.inl ⟨f, _, rfl, hgrown.file?_eq⟩
      | ok written =>
        obtain ⟨place, hwrote⟩ := Disk.exists_wrote (writeText_eq_ok_iff.mp hwrite)
        refine Or.inr ⟨_, written, place, _, rfl, ?_, hwrote.find, ?_⟩
        · have hnone := Disk.entryAt?_of_not_holds (by simpa using hfree) hwrote.placeOf
          rcases hgrown place with hsame | ⟨hnew, -⟩
          · rw [← hsame, hnone]
          · exact hnew
        · intro p hp
          rw [Disk.file?_congr (hwrote.others p hp), hgrown.file?_eq]

/-- Whatever the disk, a command that fails or is not asked to apply anything leaves all files as
they are. One that applies a plan changes the file it was asked to change, into what the plan makes
of its text, and one that adds a file adds that file only. -/
theorem all_or_nothing (parser : Parser) (d : Disk) :
    (∀ file planFile dryRun,
      (∃ f, applyPlan parser d file planFile dryRun = ⟨.error f, d⟩) ∨
      ∃ answer left plan, applyPlan parser d file planFile dryRun = ⟨.ok answer, left⟩ ∧
        answer.applied = !dryRun ∧ readPlan d planFile = .ok plan ∧
        if answer.applied then
          ∃ place source text, Rewritten parser d left file plan place source text
        else left = d) ∧
    (∀ request : RenameRequest, request.planOut = none →
      (∃ f, rename parser d request = ⟨.error f, d⟩) ∨
      ∃ answer left, rename parser d request = ⟨.ok answer, left⟩ ∧
        answer.applied = (request.apply && answer.plan.hasEdits) ∧
        if answer.applied then
          ∃ place source text, Rewritten parser d left request.file answer.plan place source text
        else left = d) ∧
    ∀ request : NewFileRequest,
      (∃ f left, createFile d request = ⟨.error f, left⟩ ∧ ∀ p, left.file? p = d.file? p) ∨
      ∃ answer left place bytes, createFile d request = ⟨.ok answer, left⟩ ∧
        d.entryAt? place = none ∧ left.find answer.file = .ok (place, .file bytes) ∧
        ∀ p, p ≠ place → left.file? p = d.file? p :=
  ⟨applyPlan_cases parser d, rename_cases parser d, createFile_cases d⟩

end Command

theorem Outcome.exists_of_toOption {ε α β : Type} {outcome : Outcome ε α} {f : α → β} {b : β}
    (h : outcome.result.toOption.map f = some b) :
    ∃ a left, outcome = ⟨.ok a, left⟩ ∧ f a = b := by
  obtain ⟨result, left⟩ := outcome
  cases result with
  | error => cases h
  | ok a => exact ⟨a, left, rfl, Option.some.inj h⟩

namespace Sample

open Command

def disk : Disk :=
  ⟨[(["work"], .directory), (["work", "Foo.java"], .file tree.source.toUTF8)], ["work"],
    fun _ a b => a < b⟩

def renameClass : RenameRequest :=
  { file := "Foo.java", position := ⟨1, 7⟩, newName := "Bar", apply := true }

theorem renameClass_applied : ∃ answer left,
    rename parser disk renameClass = ⟨.ok answer, left⟩ ∧ answer.applied = true := by
  have happlied : (rename parser disk renameClass).result.toOption.map (·.applied) = some true := by
    decide +kernel
  exact Outcome.exists_of_toOption happlied

end Sample

namespace Command

theorem all_or_nothing_sample : Sample.renameClass.planOut = none ∧ ∃ answer left text,
    rename Sample.parser Sample.disk Sample.renameClass = ⟨.ok answer, left⟩ ∧
    Rewritten Sample.parser Sample.disk left "Foo.java" answer.plan ["work", "Foo.java"]
      Sample.tree.source text := by
  refine ⟨rfl, ?_⟩
  obtain ⟨answer, left, hrename, happlied⟩ := Sample.renameClass_applied
  rcases (all_or_nothing Sample.parser Sample.disk).2.1 Sample.renameClass rfl with
    ⟨f, hf⟩ | ⟨answer', left', hrename', -, hleft⟩
  · cases hf.symm.trans hrename
  · cases hrename'.symm.trans hrename
    rw [if_pos happlied] at hleft
    obtain ⟨place, source, text, hrewritten⟩ := hleft
    have hfound : Sample.disk.find "Foo.java" =
        .ok (["work", "Foo.java"], .file Sample.tree.source.toUTF8) := rfl
    obtain ⟨rfl, hbytes⟩ := Prod.mk.inj (Except.ok.inj (hfound.symm.trans hrewritten.found))
    obtain rfl := String.toByteArray_inj.mp (Entry.file.inj hbytes)
    exact ⟨answer, left, text, hrename, hrewritten⟩

end Command

end JavaRefactor
