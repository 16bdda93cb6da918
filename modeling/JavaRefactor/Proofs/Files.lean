import Mathlib.Tactic.SplitIfs
import JavaRefactor.Disk.Write

/-! # Files on a disk

Writing looks a path up from its last name back, reading from its first name on. Both come to the
same place, so a file that was read is the file that is replaced, and a file is added only where
nothing was found. Nothing else on the disk changes. Making directories puts them where nothing
stood.
-/

namespace JavaRefactor

theorem bind_eq_ok_iff {ε α β : Type} {x : Except ε α} {f : α → Except ε β} {b : β} :
    (x >>= f) = .ok b ↔ ∃ a, x = .ok a ∧ f a = .ok b := by
  cases x with
  | error => simp [bind, Except.bind]
  | ok a => simp [bind, Except.bind]

theorem check_eq_ok_iff {ε β : Type} {c : Prop} [Decidable c] {e : ε} {f : Unit → Except ε β}
    {b : β} : (if c then throw e >>= f else f ()) = .ok b ↔ ¬ c ∧ f () = .ok b := by
  by_cases hc : c
  · simp [hc, throw, throwThe, MonadExceptOf.throw, bind, Except.bind]
  · simp [hc]

namespace Disk

variable {d d' : Disk} {place p q : Place} {entry : Entry} {path text : String} {bytes : ByteArray}
  {names names' : List String}

theorem lookup_filter_ne {entries : List (Place × Entry)} (h : p ≠ place) :
    (entries.filter fun e => e.1 != place).lookup p = entries.lookup p := by
  induction entries with
  | nil => rfl
  | cons e entries ih =>
    obtain ⟨q, entry⟩ := e
    by_cases hq : q = place
    · have hpq : (p == q) = false := by simpa [hq] using h
      simp [List.lookup_cons, hq, ih, hq ▸ hpq]
    · simp [List.lookup_cons, hq, ih]

theorem entryAt?_put (h : place ≠ []) :
    Disk.entryAt? (d.put place entry) p = if p = place then some entry else d.entryAt? p := by
  by_cases hp : p = place
  · simp [entryAt?, put, hp, h]
  · have hbeq : (p == place) = false := by simpa using hp
    simp [entryAt?, put, List.lookup_cons, hbeq, hp, lookup_filter_ne hp]

theorem entryAt?_put_of_ne (h : place ≠ []) (hp : p ≠ place) :
    Disk.entryAt? (d.put place entry) p = d.entryAt? p := by
  rw [entryAt?_put h, if_neg hp]

/-! ### Following paths -/

theorem follow_append (d : Disk) (p : Place) (names names' : List String) :
    d.follow p (names ++ names') = d.follow p names >>= fun q => d.follow q names' := by
  induction names generalizing p with
  | nil => rfl
  | cons name names ih =>
    simp only [List.cons_append, follow, ih]
    split
    · rfl
    · rfl
    · split_ifs <;> rfl

theorem entryAt?_put_eq_directory_iff (h : d.entryAt? place ≠ some .directory) (hp : place ≠ []) :
    Disk.entryAt? (d.put place (.file bytes)) p = some .directory ↔
      d.entryAt? p = some .directory := by
  rw [entryAt?_put hp]
  split
  next he => simpa [he] using h
  next => rfl

theorem entryAt?_of_follow_cons {name : String} (h : d.follow p (name :: names) = .ok q) :
    d.entryAt? p = some .directory := by
  simp only [follow] at h
  split at h
  · cases h
  · cases h
  · assumption

/-- Only directories are passed on the way, so a file that is put where none stands is neither a
hindrance nor a help. -/
theorem follow_put_iff (h : d.entryAt? place ≠ some .directory) (hp : place ≠ []) :
    (d.put place (.file bytes)).follow p names = .ok q ↔ d.follow p names = .ok q := by
  induction names generalizing p with
  | nil => rfl
  | cons name names ih =>
    by_cases hdir : d.entryAt? p = some .directory
    · simp only [follow, hdir, (entryAt?_put_eq_directory_iff h hp).mpr hdir]
      split_ifs
      · exact ih
      · exact ih
      · rfl
      · exact ih
    · constructor
      · intro hq
        exact absurd ((entryAt?_put_eq_directory_iff h hp).mp (entryAt?_of_follow_cons hq)) hdir
      · intro hq
        exact absurd (entryAt?_of_follow_cons hq) hdir

theorem entryAt_eq_ok_iff : d.entryAt p = .ok entry ↔ d.entryAt? p = some entry := by
  unfold entryAt
  cases d.entryAt? p <;> simp

theorem directoryAt_eq_ok_iff :
    d.directoryAt p = .ok q ↔ d.entryAt? p = some .directory ∧ p = q := by
  simp only [directoryAt, bind_eq_ok_iff, entryAt_eq_ok_iff]
  constructor
  · rintro ⟨entry, he, h⟩
    cases entry with
    | directory => exact ⟨he, Except.ok.inj h⟩
    | file => cases h
  · rintro ⟨he, rfl⟩
    exact ⟨.directory, he, rfl⟩

theorem find_eq_ok_iff : d.find path = .ok (place, entry) ↔
    d.placeOf path = .ok place ∧ d.entryAt? place = some entry := by
  simp only [find, bind_eq_ok_iff, entryAt_eq_ok_iff]
  constructor
  · rintro ⟨p, hp, e, he, h⟩
    cases h
    exact ⟨hp, he⟩
  · rintro ⟨hp, he⟩
    exact ⟨place, hp, entry, he, rfl⟩

theorem entryAt?_of_not_holds (h : d.holds path = false) (hplace : d.placeOf path = .ok place) :
    d.entryAt? place = none := by
  cases he : d.entryAt? place with
  | none => rfl
  | some entry =>
    have hfind := find_eq_ok_iff.mpr ⟨hplace, he⟩
    simp [holds, hfind, Except.toOption] at h

theorem find_of_read (h : d.read path = .ok text) :
    ∃ place, d.find path = .ok (place, .file text.toUTF8) := by
  obtain ⟨⟨place, entry⟩, hfind, h⟩ := bind_eq_ok_iff.mp h
  cases entry with
  | directory => cases h
  | file bytes =>
    simp only at h
    split at h
    next => cases h
    next found hfound =>
      obtain rfl := Except.ok.inj h
      unfold String.fromUTF8? at hfound
      split at hfound
      · cases hfound
        exact ⟨place, hfind⟩
      · cases hfound

namespace FileName

theorem namesOf_eq (hclosed : (of path).isClosed = false) (hname : (of path).name ≠ "") :
    namesOf path = (of path).directories ++ [(of path).name] := by
  rw [← List.reverse_inj]
  unfold of at hclosed hname ⊢
  cases h : (namesOf path).reverse with
  | nil => simp [h] at hname
  | cons name directories =>
    have hne : name ≠ "" := by
      rintro rfl
      simp only [h] at hclosed
      split at hclosed <;> simp at hclosed
    simp [hne]

end FileName

theorem follow_singleton {name : String} (hp : d.entryAt? p = some .directory)
    (hvoid : isVoidName name = false) (hup : name ≠ "..") (hlong : isLongName name = false) :
    d.follow p [name] = .ok (p ++ [name]) := by
  simp [follow, hp, hvoid, hup, hlong]

theorem placeFor_eq_ok_iff : d.placeFor path = .ok place ↔
    hasNull path = false ∧ checkPath path = .ok () ∧
    ∃ p, d.follow (d.start path) (FileName.of path).directories = .ok p ∧
      d.entryAt? p = some .directory ∧
      (isVoidName (FileName.of path).name = false ∧ (FileName.of path).name ≠ "..") ∧
      isLongName (FileName.of path).name = false ∧ (FileName.of path).isClosed = false ∧
      p ++ [(FileName.of path).name] = place ∧ d.entryAt? place ≠ some .directory := by
  simp only [placeFor, check_eq_ok_iff, bind_eq_ok_iff, directoryAt_eq_ok_iff, Bool.or_eq_true,
    beq_iff_eq, not_or, Bool.not_eq_true]
  constructor
  · rintro ⟨hnull, _, hcheck, p, hp, _, ⟨hdir, rfl⟩, hdots, hlong, hclosed, h⟩
    refine ⟨hnull, hcheck, p, hp, hdir, hdots, hlong, hclosed, ?_⟩
    split at h
    next => cases h
    next hno =>
      obtain rfl := Except.ok.inj h
      exact ⟨rfl, hno⟩
  · rintro ⟨hnull, hcheck, p, hp, hdir, hdots, hlong, hclosed, rfl, hno⟩
    refine ⟨hnull, (), hcheck, p, hp, p, ⟨hdir, rfl⟩, hdots, hlong, hclosed, ?_⟩
    split
    next h => exact absurd h hno
    next => rfl

theorem placeOf_eq_ok_iff : d.placeOf path = .ok place ↔
    checkPath path = .ok () ∧ path ≠ "" ∧ d.follow (d.start path) (namesOf path) = .ok place := by
  simp only [placeOf, bind_eq_ok_iff, check_eq_ok_iff]
  constructor
  · rintro ⟨_, hcheck, hpath, h⟩
    exact ⟨hcheck, hpath, h⟩
  · rintro ⟨hcheck, hpath, h⟩
    exact ⟨(), hcheck, hpath, h⟩

theorem placeOf_of_placeFor (h : d.placeFor path = .ok place) :
    d.placeOf path = .ok place ∧ place ≠ [] ∧ d.entryAt? place ≠ some .directory := by
  obtain ⟨-, hcheck, p, hp, hdir, ⟨hvoid, hup⟩, hlong, hclosed, rfl, hno⟩ :=
    placeFor_eq_ok_iff.mp h
  have hname : (FileName.of path).name ≠ "" := by
    intro h
    simp [h, isVoidName] at hvoid
  have hpath : path ≠ "" := by
    rintro rfl
    exact hname rfl
  refine ⟨placeOf_eq_ok_iff.mpr ⟨hcheck, hpath, ?_⟩, by simp, hno⟩
  rw [FileName.namesOf_eq hclosed hname, follow_append, hp]
  exact follow_singleton hdir hvoid hup hlong

/-- A text was written to the file that a path names, and nothing else has changed. -/
structure Wrote (d d' : Disk) (path text : String) (place : Place) : Prop where
  placeOf : d.placeOf path = .ok place
  find : d'.find path = .ok (place, .file text.toUTF8)
  others : ∀ p, p ≠ place → d'.entryAt? p = d.entryAt? p

theorem write_eq_ok_iff : d.write path text = .ok d' ↔ ∃ parent place,
    Path.parent? path = some parent ∧
    d.target (if parent = "" then "." else parent) path = .ok place ∧
    d.put place (.file text.toUTF8) = d' := by
  unfold write
  cases hparent : Path.parent? path with
  | none => simp
  | some parent =>
    cases htarget : d.target (if parent = "" then "." else parent) path with
    | error => simp [htarget]
    | ok place => simp [htarget]

theorem exists_put (h : d.write path text = .ok d') :
    ∃ place, d' = d.put place (.file text.toUTF8) ∧ d.placeOf path = .ok place ∧ place ≠ [] ∧
      d.entryAt? place ≠ some .directory := by
  obtain ⟨parent, place, -, htarget, rfl⟩ := write_eq_ok_iff.mp h
  simp only [target, bind_eq_ok_iff] at htarget
  obtain ⟨_, -, _, -, hfor⟩ := htarget
  exact ⟨place, rfl, placeOf_of_placeFor hfor⟩

theorem placeOf_put_iff (h : d.entryAt? place ≠ some .directory) (hp : place ≠ []) :
    (d.put place (.file bytes)).placeOf path = .ok q ↔ d.placeOf path = .ok q := by
  rw [placeOf_eq_ok_iff, placeOf_eq_ok_iff, follow_put_iff h hp]
  rfl

theorem exists_wrote (h : d.write path text = .ok d') : ∃ place, d.Wrote d' path text place := by
  obtain ⟨place, rfl, hplace, hne, hfree⟩ := exists_put h
  refine ⟨place, hplace, ?_, fun p hp => entryAt?_put_of_ne hne hp⟩
  rw [find_eq_ok_iff, placeOf_put_iff hfree hne, entryAt?_put hne, if_pos rfl]
  exact ⟨hplace, rfl⟩

theorem Wrote.congr {e e' : Disk} {P : Place → Prop} (h : d.Wrote d' path text place)
    (h' : e.Wrote e' path text place) (hsame : ∀ p, P p → e.entryAt? p = d.entryAt? p) :
    ∀ p, P p → e'.entryAt? p = d'.entryAt? p := by
  intro p hp
  by_cases hplace : p = place
  · rw [hplace, (find_eq_ok_iff.mp h.find).2, (find_eq_ok_iff.mp h'.find).2]
  · rw [h.others p hplace, h'.others p hplace, hsame p hp]

/-! ### Two files -/

variable {other : String}

theorem placeOf_write_iff (h : d.write path text = .ok d') :
    d'.placeOf other = .ok q ↔ d.placeOf other = .ok q := by
  obtain ⟨place, rfl, -, hne, hfree⟩ := exists_put h
  exact placeOf_put_iff hfree hne

theorem find_write_iff (h : d.write path text = .ok d') (hq : d.placeOf path ≠ .ok q) :
    d'.find other = .ok (q, entry) ↔ d.find other = .ok (q, entry) := by
  obtain ⟨place, hwrote⟩ := exists_wrote h
  have hpq : q ≠ place := by
    rintro rfl
    exact hq hwrote.placeOf
  rw [find_eq_ok_iff, find_eq_ok_iff, placeOf_write_iff h, hwrote.others q hpq]

theorem read_eq_ok_iff :
    d.read path = .ok text ↔ ∃ place, d.find path = .ok (place, .file text.toUTF8) := by
  constructor
  · exact find_of_read
  · rintro ⟨place, h⟩
    have htext : String.fromUTF8? text.toUTF8 = some text := dif_pos text.isValidUTF8
    simp only [read, h, bind, Except.bind, htext]
    rfl

theorem target_put_iff {directory : String} (h : d.entryAt? place ≠ some .directory)
    (hp : place ≠ []) :
    (d.put place (.file bytes)).target directory path = .ok q ↔
      d.target directory path = .ok q := by
  simp only [target, bind_eq_ok_iff, directoryAt_eq_ok_iff, placeFor_eq_ok_iff,
    placeOf_put_iff h hp, entryAt?_put_eq_directory_iff h hp, follow_put_iff h hp, ne_eq]
  rfl

/-- Whether a text can be written does not depend on the texts that were written before. -/
theorem exists_write_iff {text' : String} (h : d.write path text = .ok d') :
    (∃ left, d'.write other text' = .ok left) ↔ ∃ left, d.write other text' = .ok left := by
  obtain ⟨place, rfl, -, hne, hfree⟩ := exists_put h
  simp only [write_eq_ok_iff, target_put_iff hfree hne]
  constructor
  · rintro ⟨_, parent, q, hparent, htarget, -⟩
    exact ⟨_, parent, q, hparent, htarget, rfl⟩
  · rintro ⟨_, parent, q, hparent, htarget, -⟩
    exact ⟨_, parent, q, hparent, htarget, rfl⟩

/-! ### Making directories -/

/-- Nothing has changed but that directories stand where nothing stood. -/
def Grown (d d' : Disk) : Prop :=
  ∀ p, d'.entryAt? p = d.entryAt? p ∨ d.entryAt? p = none ∧ d'.entryAt? p = some .directory

theorem Grown.refl (d : Disk) : d.Grown d := fun _ => Or.inl rfl

theorem Grown.trans {d'' : Disk} (h : d.Grown d') (h' : d'.Grown d'') : d.Grown d'' := by
  intro p
  rcases h p with hp | ⟨hp, hd⟩
  · rw [← hp]
    exact h' p
  · rcases h' p with hp' | ⟨hp', -⟩
    · exact Or.inr ⟨hp, hp'.trans hd⟩
    · simp [hd] at hp'

theorem grown_put (h : d.entryAt? place = none) : d.Grown (d.put place .directory) := by
  have hne : place ≠ [] := by
    rintro rfl
    simp [entryAt?] at h
  intro p
  by_cases hp : p = place
  · subst hp
    exact Or.inr ⟨h, by simp [entryAt?_put hne]⟩
  · exact Or.inl (entryAt?_put_of_ne hne hp)

theorem grown_makeBelow (d : Disk) (p : Place) (names : List String) :
    d.Grown (d.makeBelow p names).disk := by
  induction names generalizing d p with
  | nil => exact Grown.refl d
  | cons name names ih =>
    simp only [makeBelow]
    split
    · exact ih d p
    · split
      · exact ih d p.dropLast
      · split
        · exact Grown.refl d
        · split
          next => exact ih d _
          next => exact Grown.refl d
          next hnone => exact (grown_put hnone).trans (ih _ _)

theorem grown_makeDirectories (d : Disk) (path : String) :
    d.Grown (d.makeDirectories path).disk := by
  unfold makeDirectories
  split
  · exact Grown.refl d
  · exact grown_makeBelow d _ _

end Disk

end JavaRefactor
