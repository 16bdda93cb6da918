import JavaRefactor.Proofs.AllOrNothing
import JavaRefactor.Proofs.PlanRoundTrip

/-! # Plans that are kept

A rename can write its plan to a file instead of making the edits, or before it makes them. The
plan comes back from its file as it was, so applying it later does what the rename would have
done at once. But the plan is written before the changed text is checked: a rename that is then
refused leaves its plan behind, even in the place of the source.
-/

namespace JavaRefactor

namespace EditPlan

variable {plan checked : EditPlan} {source : String}

structure CheckedFor (plan : EditPlan) (source : String) : Prop where
  valid : plan.valid
  hash : plan.sourceHash = .ofText source
  length : plan.sourceLength = Text.byteLength source
  bounds : ∀ e ∈ plan.edits, e.span.start ≤ e.span.stop ∧ e.span.stop ≤ plan.sourceLength

theorem checkedFor_of_finalize (h : plan.finalize = .ok checked)
    (hash : plan.sourceHash = .ofText source)
    (length : plan.sourceLength = Text.byteLength source) : checked.CheckedFor source := by
  obtain ⟨hclear, rfl⟩ := finalize_eq_ok_iff.mp h
  exact ⟨rfl, hash, length, (hclear.perm (perm_sortEdits plan)).bounds⟩

namespace CheckedFor

theorem representable (h : plan.CheckedFor source)
    (hsize : Text.byteLength source < Decimal.word64) : plan.Representable := by
  have hlength : plan.sourceLength < Decimal.word64 := h.length ▸ hsize
  refine ⟨hlength, fun e he => ?_⟩
  obtain ⟨hstart, hstop⟩ := h.bounds e he
  exact ⟨by omega, by omega⟩

theorem apply_eq_source (h : plan.CheckedFor source) (he : plan.hasEdits = false) :
    plan.apply source = .ok source := by
  have hnil : plan.edits = [] := by simpa [hasEdits] using he
  refine apply_eq_ok_iff.mpr ⟨h.valid, h.hash.symm, ?_, ?_, ?_⟩
  · simp [Fits, hnil]
  · simp [hnil]
  · simp [ascending, hnil, sortBy, weave]

end CheckedFor

end EditPlan

namespace Resolution

variable {t : Tree} {s : Symbol}

theorem checkedFor_of_finalizeRename {edits : List TextEdit} {plan : EditPlan}
    (h : finalizeRename t s edits = .ok plan) : plan.CheckedFor t.source := by
  unfold finalizeRename at h
  simp only at h
  rw [EditPlan.foldl_push _ _ rfl] at h
  split at h
  next => cases h
  next hfinal =>
    obtain rfl := Except.ok.inj h
    exact EditPlan.checkedFor_of_finalize hfinal rfl rfl

theorem checkedFor_of_planRename {r : Resolution} {name : String} {p : RenamePlan}
    (h : r.planRename t s name = .ok p) : p.plan.CheckedFor t.source := by
  unfold planRename at h
  split at h
  next => cases h
  next =>
    simp only at h
    split at h
    next => cases h
    next =>
      cases hplan : finalizeRename t s (r.renameEdits s name) with
      | error => simp [hplan, Except.map] at h
      | ok plan =>
        rw [hplan] at h
        obtain rfl := Except.ok.inj h
        exact checkedFor_of_finalizeRename hplan

end Resolution

namespace Command

variable {parser : Parser} {d kept : Disk} {request : RenameRequest} {planned : Planned}
  {file planFile text : String} {f : Failure}

theorem checkedFor_of_prepare (h : Planned.prepare parser d request = .ok planned) :
    planned.rename.plan.CheckedFor planned.analysis.source := by
  simp only [Planned.prepare, bind_eq_ok_iff] at h
  obtain ⟨a, -, symbol, -, rename, hrename, h⟩ := h
  obtain rfl := Except.ok.inj h
  unfold Analysis.planRename at hrename
  split at hrename
  next => cases hrename
  next hplan =>
    obtain rfl := Except.ok.inj hrename
    exact Resolution.checkedFor_of_planRename hplan

theorem verified_of_no_edits (h : Planned.prepare parser d request = .ok planned)
    (he : planned.rename.plan.hasEdits = false) :
    planned.verified parser = .ok planned.analysis.source := by
  obtain ⟨-, -, hbefore⟩ := prepare_eq_ok h
  have happly := (checkedFor_of_prepare h).apply_eq_source he
  have hverify : verify parser planned.analysis.path _ planned.analysis.source = .ok () :=
    verify_eq_ok_iff.mpr ⟨_, hbefore, Nat.le_refl _⟩
  simp only [Planned.verified, bind_eq_ok_iff, edited_eq_ok_iff]
  exact ⟨_, happly, (), hverify, rfl⟩

/-- A rename that is asked to make its edits, once its plan was kept. Without edits it passes the
check that is not made then, so the check can be thought of as always made. -/
theorem rename_eq (happly : request.apply = true)
    (h : Planned.prepare parser d request = .ok planned)
    (hkept : writePlan d planned.rename.plan request.planOut = .ok kept) :
    rename parser d request =
      match planned.verified parser with
      | .error f => ⟨.error f, kept⟩
      | .ok text =>
        if planned.rename.plan.hasEdits then
          match writeText kept request.file text with
          | .error f => ⟨.error f, kept⟩
          | .ok written => ⟨planned.answer true, written⟩
        else ⟨planned.answer false, kept⟩ := by
  unfold rename
  simp only [h, hkept, happly, Bool.true_and]
  cases hedits : planned.rename.plan.hasEdits with
  | true => rfl
  | false => simp [verified_of_no_edits h hedits]

/-! ### Applying the plan later -/

def RenameRequest.keeping (request : RenameRequest) (planFile : String) : RenameRequest :=
  { request with apply := false, planOut := some planFile }

def RenameRequest.atOnce (request : RenameRequest) : RenameRequest :=
  { request with apply := true, planOut := none }

theorem exists_planned {answer : RenameAnswer}
    (h : rename parser d (request.keeping planFile) = ⟨.ok answer, kept⟩) :
    ∃ planned, Planned.prepare parser d request = .ok planned ∧
      d.write planFile (planned.rename.plan.print ++ "\n") = .ok kept := by
  unfold rename at h
  split at h
  next => cases h
  next planned hprep =>
    refine ⟨planned, hprep, ?_⟩
    split at h
    next => cases h
    next hwrite =>
      simp only [RenameRequest.keeping, Bool.false_and, Bool.false_eq_true, if_false,
        Outcome.mk.injEq] at h
      rw [← h.2]
      exact writeText_eq_ok_iff.mp hwrite

theorem readPlan_of_write {plan : EditPlan} (hplan : plan.Representable)
    (hwrite : d.write planFile (plan.print ++ "\n") = .ok kept) :
    readPlan kept planFile = .ok plan := by
  obtain ⟨place, hwrote⟩ := Disk.exists_wrote hwrite
  have hread := readText_eq_ok_iff.mpr (Disk.read_eq_ok_iff.mpr ⟨place, hwrote.find⟩)
  have hparse := EditPlan.parse?_print_append plan (show "\n".toList.all _ from rfl)
  rw [if_pos hplan] at hparse
  simp only [readPlan, hread, hparse, bind, Except.bind]
  rfl

/-- The kept plan finds the text that it was made for, and the text that it makes is checked
against the same number of errors. -/
theorem prepareApply_eq (h : Planned.prepare parser d request = .ok planned)
    (hread : kept.read request.file = .ok planned.analysis.source)
    (hplan : readPlan kept planFile = .ok planned.rename.plan) :
    prepareApply parser kept request.file planFile =
      (planned.verified parser).map (planned.rename.plan, ·) := by
  obtain ⟨hpath, -, hbefore⟩ := prepare_eq_ok h
  simp only [prepareApply, Planned.verified, readText_eq_ok_iff.mpr hread, hplan, hbefore, hpath,
    bind, Except.bind]
  cases edited request.file planned.rename.plan planned.analysis.source with
  | error => rfl
  | ok text =>
    simp only
    cases verify parser request.file planned.analysis.tree.errorRegions.length text with
    | error => rfl
    | ok => rfl

theorem applyPlan_eq (h : Planned.prepare parser d request = .ok planned)
    (hread : kept.read request.file = .ok planned.analysis.source)
    (hplan : readPlan kept planFile = .ok planned.rename.plan) :
    applyPlan parser kept request.file planFile false =
      match planned.verified parser with
      | .error f => ⟨.error f, kept⟩
      | .ok text =>
        match writeText kept request.file text with
        | .error f => ⟨.error f, kept⟩
        | .ok written =>
          ⟨.ok { file := request.file, summary := .ofPlan planned.rename.plan, applied := true },
            written⟩ := by
  unfold applyPlan
  rw [prepareApply_eq h hread hplan]
  cases planned.verified parser with
  | error => rfl
  | ok => rfl

theorem writeText_ne_verification {name : String} {before after : Nat} :
    writeText d file text ≠ .error (.verification name before after) := by
  unfold writeText
  cases d.write file text with
  | error e => simp [WriteError.toFailure]
  | ok => simp

section AtOnce

variable (happly : request.apply = true) (hout : request.planOut = none)
  (hprep : Planned.prepare parser d request = .ok planned)

include happly hout hprep

theorem rename_eq_refused (h : planned.verified parser = .error f) :
    rename parser d request = ⟨.error f, d⟩ := by
  rw [rename_eq happly hprep (by rw [hout]; rfl), h]

theorem rename_of_unwritable (hverified : planned.verified parser = .ok text)
    (hfail : ∀ left, d.write request.file text ≠ .ok left) :
    ∃ result, rename parser d request = ⟨result, d⟩ ∧
      (∀ name before after, result ≠ .error (.verification name before after)) ∧
      ∀ answer, result = .ok answer → answer.applied = false := by
  rw [rename_eq happly hprep (by rw [hout]; rfl), hverified]
  simp only
  split
  next =>
    split
    next f hwrite =>
      refine ⟨_, rfl, ?_, by simp⟩
      rintro name before after ⟨⟩
      exact writeText_ne_verification hwrite
    next left hwrite => exact absurd (writeText_eq_ok_iff.mp hwrite) (hfail left)
  next =>
    obtain ⟨answer, hanswer⟩ := exists_answer hverified false
    refine ⟨_, rfl, by simp [hanswer], fun answer' hanswer' => ?_⟩
    exact (of_answer_eq_ok hanswer').1

/-- The disk that is left is the one with the changed text, also if the rename has no edits and so
writes nothing. -/
theorem rename_of_writable {left : Disk} (hverified : planned.verified parser = .ok text)
    (hwrite : d.write request.file text = .ok left) :
    ∃ answer left', rename parser d request = ⟨.ok answer, left'⟩ ∧
      left'.find request.file = left.find request.file ∧
      ∀ p, left'.entryAt? p = left.entryAt? p := by
  rw [rename_eq happly hprep (by rw [hout]; rfl), hverified]
  simp only [writeText_eq_ok_iff.mpr hwrite]
  split
  next =>
    obtain ⟨answer, hanswer⟩ := exists_answer hverified true
    exact ⟨answer, left, by rw [hanswer], rfl, fun _ => rfl⟩
  next hedits =>
    obtain ⟨answer, hanswer⟩ := exists_answer hverified false
    -- the text that would be written is the text that was read
    have hsource := verified_of_no_edits hprep (by simpa using hedits)
    obtain rfl := Except.ok.inj (hverified.symm.trans hsource)
    obtain ⟨place, hfind⟩ := Disk.find_of_read (prepare_eq_ok hprep).2.1
    obtain ⟨hplace, hentry⟩ := Disk.find_eq_ok_iff.mp hfind
    obtain ⟨place', hwrote⟩ := Disk.exists_wrote hwrite
    obtain rfl : place' = place := Except.ok.inj (hwrote.placeOf.symm.trans hplace)
    refine ⟨answer, d, by rw [hanswer], hfind.trans hwrote.find.symm, fun p => ?_⟩
    by_cases hp : p = place'
    · rw [hp, hentry, (Disk.find_eq_ok_iff.mp hwrote.find).2]
    · exact (hwrote.others p hp).symm

end AtOnce

/-- A plan that was applied later did what the rename at once did to a disk. -/
structure Agree (d : Disk) (file planFile : String) (later : Outcome Failure ApplyAnswer)
    (atOnce : Outcome Failure RenameAnswer) : Prop where
  /-- The file has the same contents. -/
  find : later.disk.find file = atOnce.disk.find file
  /-- Everything else is the same, except for the plan. -/
  others : ∀ p, d.placeOf planFile ≠ .ok p → later.disk.entryAt? p = atOnce.disk.entryAt? p
  /-- The changed text is refused by both or by none, for the same errors. -/
  refused : ∀ name before after, later.result = .error (.verification name before after) ↔
    atOnce.result = .error (.verification name before after)
  unchanged : (∃ name before after, later.result = .error (.verification name before after)) →
    later.disk.find file = d.find file
  applied : ∀ answer, atOnce.result = .ok answer → answer.applied →
    ∃ answer', later.result = .ok answer' ∧ answer'.applied

theorem exists_kept {answer : RenameAnswer}
    (hkept : rename parser d (request.keeping planFile) = ⟨.ok answer, kept⟩)
    (hne : d.placeOf planFile ≠ d.placeOf request.file)
    (hsize : ∀ source, d.read request.file = .ok source →
      Text.byteLength source < Decimal.word64) :
    ∃ planned place, Planned.prepare parser d request = .ok planned ∧
      readPlan kept planFile = .ok planned.rename.plan ∧
      d.find request.file = .ok (place, .file planned.analysis.source.toUTF8) ∧
      kept.find request.file = .ok (place, .file planned.analysis.source.toUTF8) ∧
      (∀ p, d.placeOf planFile ≠ .ok p → kept.entryAt? p = d.entryAt? p) ∧
      ∀ text, (∃ left, kept.write request.file text = .ok left) ↔
        ∃ left, d.write request.file text = .ok left := by
  obtain ⟨planned, hprep, hwrite⟩ := exists_planned hkept
  obtain ⟨-, hread, -⟩ := prepare_eq_ok hprep
  have hplan := readPlan_of_write
    ((checkedFor_of_prepare hprep).representable (hsize _ hread)) hwrite
  obtain ⟨place, hfind⟩ := Disk.find_of_read hread
  obtain ⟨hplace, -⟩ := Disk.find_eq_ok_iff.mp hfind
  obtain ⟨planPlace, hwrote⟩ := Disk.exists_wrote hwrite
  refine ⟨planned, place, hprep, hplan, hfind,
    (Disk.find_write_iff hwrite (hplace ▸ hne)).mpr hfind, fun p hp => hwrote.others p ?_,
    fun text => Disk.exists_write_iff hwrite⟩
  rintro rfl
  exact hp hwrote.placeOf

/-- What a rename would do at once, its plan does when it is applied later: from a file of its own,
and to a source of less than `2 ^ 64` bytes. -/
theorem applyPlan_agrees {answer : RenameAnswer}
    (hkept : rename parser d (request.keeping planFile) = ⟨.ok answer, kept⟩)
    (hne : d.placeOf planFile ≠ d.placeOf request.file)
    (hsize : ∀ source, d.read request.file = .ok source →
      Text.byteLength source < Decimal.word64) :
    Agree d request.file planFile (applyPlan parser kept request.file planFile false)
      (rename parser d request.atOnce) := by
  obtain ⟨planned, place, hprep, hplan, hfind, hfind', hothers, hwritable⟩ :=
    exists_kept hkept hne hsize
  have hprep' : Planned.prepare parser d request.atOnce = .ok planned := hprep
  have hsame : kept.find request.file = d.find request.file := hfind'.trans hfind.symm
  rw [applyPlan_eq hprep (Disk.read_eq_ok_iff.mpr ⟨place, hfind'⟩) hplan]
  cases hverified : planned.verified parser with
  | error f =>
    rw [rename_eq_refused rfl rfl hprep' hverified]
    exact ⟨hsame, hothers, by simp, fun _ => hsame, by simp⟩
  | ok text =>
    simp only
    cases hlater : writeText kept request.file text with
    | error f =>
      have hfail (left : Disk) : d.write request.file text ≠ .ok left := by
        intro hleft
        obtain ⟨left', hleft'⟩ := (hwritable text).mpr ⟨left, hleft⟩
        cases hlater.symm.trans (writeText_eq_ok_iff.mpr hleft')
      obtain ⟨result, hresult, hno, hidle⟩ := rename_of_unwritable rfl rfl hprep' hverified hfail
      rw [hresult]
      refine ⟨hsame, hothers, fun name before after => ?_, fun _ => hsame, fun answer ha happ => ?_⟩
      · constructor
        · rintro ⟨⟩
          exact absurd hlater writeText_ne_verification
        · intro h
          exact absurd h (hno name before after)
      · simp [hidle answer ha] at happ
    | ok left' =>
      have hleft' := writeText_eq_ok_iff.mp hlater
      obtain ⟨left, hleft⟩ := (hwritable text).mp ⟨left', hleft'⟩
      obtain ⟨answer, final, hfinal, hffind, hfothers⟩ :=
        rename_of_writable rfl rfl hprep' hverified hleft
      rw [hfinal]
      -- the changed text stands at one place on both disks
      obtain ⟨p, hp⟩ := Disk.exists_wrote hleft
      obtain ⟨p', hp'⟩ := Disk.exists_wrote hleft'
      obtain rfl : p = place :=
        Except.ok.inj (hp.placeOf.symm.trans (Disk.find_eq_ok_iff.mp hfind).1)
      obtain rfl : p' = p :=
        Except.ok.inj (hp'.placeOf.symm.trans (Disk.find_eq_ok_iff.mp hfind').1)
      refine ⟨?_, fun q hq => ?_, by simp, by simp, fun _ _ _ => ⟨_, rfl, rfl⟩⟩
      · exact hp'.find.trans (hffind.trans hp.find).symm
      · rw [hfothers, hp.congr hp' hothers q hq]

end Command

namespace Sample

open Command

theorem exists_of_isSome {ε α : Type} {outcome : Outcome ε α}
    (h : outcome.result.toOption.isSome) : ∃ a left, outcome = ⟨.ok a, left⟩ := by
  obtain ⟨result, left⟩ := outcome
  cases result with
  | error => cases h
  | ok a => exact ⟨a, left, rfl⟩

theorem renameClass_keeping : ∃ answer kept,
    rename parser disk (renameClass.keeping "plan.json") = ⟨.ok answer, kept⟩ :=
  exists_of_isSome (by decide +kernel)

end Sample

namespace Command

theorem applyPlan_agrees_sample : ∃ answer kept,
    rename Sample.parser Sample.disk (Sample.renameClass.keeping "plan.json") =
      ⟨.ok answer, kept⟩ ∧
    Sample.disk.placeOf "plan.json" ≠ Sample.disk.placeOf "Foo.java" ∧
    Agree Sample.disk "Foo.java" "plan.json"
      (applyPlan Sample.parser kept "Foo.java" "plan.json" false)
      (rename Sample.parser Sample.disk Sample.renameClass.atOnce) := by
  obtain ⟨answer, kept, hkept⟩ := Sample.renameClass_keeping
  have hne : Sample.disk.placeOf "plan.json" ≠ Sample.disk.placeOf "Foo.java" := by decide +kernel
  refine ⟨answer, kept, hkept, hne, applyPlan_agrees hkept hne ?_⟩
  intro source hread
  have hsource : Sample.disk.read "Foo.java" = .ok Sample.tree.source :=
    Disk.read_eq_ok_iff.mpr ⟨_, rfl⟩
  obtain rfl := Except.ok.inj (hread.symm.trans hsource)
  decide +kernel

/-! ### Failing after the plan was written -/

/-- After the plan was written a rename can fail in two ways, and writes nothing more. -/
theorem failed_after_plan {left : Disk} (happly : request.apply = true)
    (hprep : Planned.prepare parser d request = .ok planned)
    (hkept : writePlan d planned.rename.plan request.planOut = .ok kept)
    (h : rename parser d request = ⟨.error f, left⟩) :
    left = kept ∧ planned.rename.plan.hasEdits = true ∧
      (planned.verified parser = .error f ∨
        ∃ text, planned.verified parser = .ok text ∧
          writeText kept request.file text = .error f) := by
  rw [rename_eq happly hprep hkept] at h
  cases hverified : planned.verified parser with
  | error =>
    have hedits : planned.rename.plan.hasEdits = true := by
      by_contra hno
      cases hverified.symm.trans (verified_of_no_edits hprep (by simpa using hno))
    rw [hverified] at h
    cases h
    exact ⟨rfl, hedits, Or.inl rfl⟩
  | ok text =>
    obtain ⟨_, hanswer⟩ := exists_answer hverified true
    obtain ⟨_, hanswer'⟩ := exists_answer hverified false
    simp only [hverified, hanswer, hanswer'] at h
    split at h
    next hedits =>
      split at h
      next hwrite =>
        cases h
        exact ⟨rfl, hedits, Or.inr ⟨text, rfl, hwrite⟩⟩
      next => cases h
    next => cases h

/-- What is left of a rename that fails but was asked to make its edits and to keep its plan. The
disk is as it was only if no plan was made or it could not be written. Otherwise the plan stays,
where it takes the place of the source if the path of the plan leads there. -/
theorem rename_failed_cases {left : Disk} (happly : request.apply = true)
    (hout : request.planOut = some planFile)
    (h : rename parser d request = ⟨.error f, left⟩) :
    (left = d ∧ ∀ planned, Planned.prepare parser d request = .ok planned →
      ∀ kept, d.write planFile (planned.rename.plan.print ++ "\n") ≠ .ok kept) ∨
    ∃ planned place, Planned.prepare parser d request = .ok planned ∧
      planned.rename.plan.hasEdits = true ∧
      d.Wrote left planFile (planned.rename.plan.print ++ "\n") place ∧
      (planned.verified parser = .error f ∨
        ∃ text, planned.verified parser = .ok text ∧ writeText left request.file text = .error f) ∧
      (d.placeOf request.file = .ok place → left.find request.file = left.find planFile) ∧
      (d.placeOf request.file ≠ .ok place → left.find request.file = d.find request.file) := by
  cases hprep : Planned.prepare parser d request with
  | error =>
    simp only [rename, hprep] at h
    cases h
    exact Or.inl ⟨rfl, by simp⟩
  | ok planned =>
    cases hkept : writePlan d planned.rename.plan request.planOut with
    | error =>
      simp only [rename, hprep, hkept] at h
      cases h
      refine Or.inl ⟨rfl, ?_⟩
      rintro planned ⟨⟩ kept hwrite
      rw [hout, writePlan, writeText_eq_ok_iff.mpr hwrite] at hkept
      cases hkept
    | ok kept =>
      obtain ⟨rfl, hedits, hfailed⟩ := failed_after_plan happly hprep hkept h
      rw [hout] at hkept
      have hwrite := writeText_eq_ok_iff.mp hkept
      obtain ⟨place, hwrote⟩ := Disk.exists_wrote hwrite
      obtain ⟨q, hfind⟩ := Disk.find_of_read (prepare_eq_ok hprep).2.1
      obtain ⟨hq, -⟩ := Disk.find_eq_ok_iff.mp hfind
      refine Or.inr ⟨planned, place, rfl, hedits, hwrote, hfailed, fun hplace => ?_, fun hne => ?_⟩
      · rw [hwrote.find, Disk.find_eq_ok_iff, Disk.placeOf_write_iff hwrite]
        exact ⟨hplace, (Disk.find_eq_ok_iff.mp hwrote.find).2⟩
      · have hapart : d.placeOf planFile ≠ .ok q := by
          rw [hwrote.placeOf, ← hq]
          exact hne.symm
        rw [hfind, Disk.find_write_iff hwrite hapart, hfind]

end Command

namespace Sample

open Command

def fieldRows : List RawTree.Row :=
  [phrase 0 0 29 "program" none, phrase 1 0 29 "class_declaration" none, token 2 0 5 "class",
   phrase 2 6 7 "identifier" (some "name"), phrase 2 8 29 "class_body" (some "body"),
   token 3 8 9 "\x7b", phrase 3 10 16 "field_declaration" none,
   phrase 4 10 13 "integral_type" (some "type"), token 5 10 13 "int",
   phrase 4 14 15 "variable_declarator" (some "declarator"),
   phrase 5 14 15 "identifier" (some "name"), token 4 15 16 ";",
   phrase 3 17 27 "field_declaration" none, phrase 4 17 20 "integral_type" (some "type"),
   token 5 17 20 "int", phrase 4 21 26 "variable_declarator" (some "declarator"),
   phrase 5 21 22 "identifier" (some "name"), token 5 23 24 "=",
   phrase 5 25 26 "identifier" (some "value"), token 4 26 27 ";", token 3 28 29 "\x7d"]

/-- The rows of the text in which the field is called `ⓐ`, a character that names may hold but that
the grammar does not take for a letter. -/
def circledRows : List RawTree.Row :=
  [phrase 0 0 33 "program" none, phrase 1 0 33 "class_declaration" none, token 2 0 5 "class",
   phrase 2 6 7 "identifier" (some "name"), phrase 2 8 33 "class_body" (some "body"),
   token 3 8 9 "\x7b", fault 3 10 17, phrase 4 10 13 "integral_type" none, token 5 10 13 "int",
   fault 4 14 17, token 3 17 18 ";", phrase 3 19 31 "field_declaration" none,
   phrase 4 19 22 "integral_type" (some "type"), token 5 19 22 "int",
   phrase 4 23 24 "variable_declarator" (some "declarator"),
   phrase 5 23 24 "identifier" (some "name"), fault 4 25 30, token 5 25 26 "=", fault 5 27 30,
   token 4 30 31 ";", token 3 32 33 "\x7d"]

def fieldSource : String := "class A \x7b int x; int y = x; \x7d"

def circledParser : Parser := fun text =>
  if text = fieldSource then .ok ((RawTree.ofRows? fieldRows).getD default)
  else if text = "class A \x7b int ⓐ; int y = ⓐ; \x7d" then
    .ok ((RawTree.ofRows? circledRows).getD default)
  else .error ⟨"parser produced no tree", some 0⟩

def fieldDisk : Disk :=
  ⟨[(["work"], .directory), (["work", "A.java"], .file fieldSource.toUTF8)], ["work"],
    fun _ a b => a < b⟩

def circling (planOut : String) : RenameRequest :=
  { file := "A.java", position := ⟨1, 15⟩, newName := "ⓐ", apply := true, planOut := some planOut }

theorem circling_evaluated :
    (match Planned.prepare circledParser fieldDisk (circling "p.json") with
      | .error _ => none
      | .ok planned =>
        match planned.verified circledParser with
        | .error (.verification file before after) => some (file, before, after)
        | _ => none) = some ("A.java", 0, 4) := by
  decide +kernel

theorem exists_refused (planOut : String) : ∃ planned,
    Planned.prepare circledParser fieldDisk (circling planOut) = .ok planned ∧
      planned.verified circledParser = .error (.verification "A.java" 0 4) := by
  have heval := circling_evaluated
  have hsame : Planned.prepare circledParser fieldDisk (circling planOut) =
    Planned.prepare circledParser fieldDisk (circling "p.json") := rfl
  rw [← hsame] at heval
  cases hprep : Planned.prepare circledParser fieldDisk (circling planOut) with
  | error => simp [hprep] at heval
  | ok planned =>
    refine ⟨planned, rfl, ?_⟩
    simp only [hprep] at heval
    split at heval
    next h =>
      cases heval
      exact h
    next => cases heval

end Sample

namespace Command

/-- The plan of a refused rename stays where it was written: beside the source, or in its place. -/
theorem rename_failed_cases_sample :
    (∃ left plan, rename Sample.circledParser Sample.fieldDisk (Sample.circling "p.json") =
        ⟨.error (.verification "A.java" 0 4), left⟩ ∧
      left.find "p.json" =
        .ok (["work", "p.json"], .file (EditPlan.print plan ++ "\n").toUTF8) ∧
      left.find "A.java" = .ok (["work", "A.java"], .file Sample.fieldSource.toUTF8)) ∧
    ∃ left plan, rename Sample.circledParser Sample.fieldDisk (Sample.circling "A.java") =
        ⟨.error (.verification "A.java" 0 4), left⟩ ∧
      left.find "A.java" =
        .ok (["work", "A.java"], .file (EditPlan.print plan ++ "\n").toUTF8) := by
  constructor
  · obtain ⟨planned, hprep, hverified⟩ := Sample.exists_refused "p.json"
    have hleft := rename_eq rfl hprep rfl
    rw [hverified] at hleft
    have hplace : Sample.fieldDisk.placeOf "p.json" = .ok ["work", "p.json"] := rfl
    rcases rename_failed_cases rfl rfl hleft with
      ⟨-, hunwritten⟩ | ⟨planned', place, -, -, hwrote, -, -, hapart⟩
    · exact absurd rfl (hunwritten planned hprep _)
    · obtain rfl := Except.ok.inj (hwrote.placeOf.symm.trans hplace)
      exact ⟨_, planned'.rename.plan, hleft, hwrote.find, hapart (by decide)⟩
  · obtain ⟨planned, hprep, hverified⟩ := Sample.exists_refused "A.java"
    have hleft := rename_eq rfl hprep rfl
    rw [hverified] at hleft
    have hplace : Sample.fieldDisk.placeOf "A.java" = .ok ["work", "A.java"] := rfl
    rcases rename_failed_cases rfl rfl hleft with
      ⟨-, hunwritten⟩ | ⟨planned', place, -, -, hwrote, -⟩
    · exact absurd rfl (hunwritten planned hprep _)
    · obtain rfl := Except.ok.inj (hwrote.placeOf.symm.trans hplace)
      exact ⟨_, planned'.rename.plan, hleft, hwrote.find⟩

end Command

end JavaRefactor
