import JavaRefactor.Proofs.Files
import JavaRefactor.Proofs.PathParts

/-! # Directories below a directory

A path that leads down from a directory is followed, and made, through that directory. So making
the directories of the path changes nothing but what lies below.
-/

namespace JavaRefactor.Disk

open JavaRefactor.Path (Component components)

variable {d d' left : Disk} {place p q : Place} {root path : String} {names more : List String}
  {down : List (List Char)}

def ChangedBelow (d d' : Disk) (place : Place) : Prop :=
  ∀ p, d'.entryAt? p ≠ d.entryAt? p → place <+: p

theorem ChangedBelow.refl (d : Disk) (place : Place) : d.ChangedBelow d place :=
  fun _ h => absurd rfl h

theorem ChangedBelow.trans {d'' : Disk} (h : d.ChangedBelow d' place)
    (h' : d'.ChangedBelow d'' place) : d.ChangedBelow d'' place := by
  intro p hp
  by_cases hsame : d''.entryAt? p = d'.entryAt? p
  · exact h p (hsame ▸ hp)
  · exact h' p hsame

theorem ChangedBelow.mono (h : d.ChangedBelow d' p) (hp : place <+: p) :
    d.ChangedBelow d' place :=
  fun q hq => hp.trans (h q hq)

theorem changedBelow_of_others (h : ∀ p, p ≠ place → d'.entryAt? p = d.entryAt? p) :
    d.ChangedBelow d' place := by
  intro p hp
  by_cases he : p = place
  · exact he ▸ List.prefix_rfl
  · exact absurd (h p he) hp

/-! ### The names on the way -/

def nameOf? : Component → Option String
  | .root | .here => none
  | .up => some ".."
  | .normal name => some (String.ofList name)

/-- The names of a path that lead on. -/
def onward (names : List String) : List String := names.filter fun name => !isVoidName name

theorem isVoidName_ofList (s : List Char) : isVoidName (String.ofList s) = Path.isVoid s := by
  have hnil : (String.ofList s = "") ↔ s = [] := by
    rw [← String.toList_inj, String.toList_ofList]
    rfl
  have hdot : (String.ofList s = ".") ↔ s = ['.'] := by
    rw [← String.toList_inj, String.toList_ofList]
    rfl
  rw [Bool.eq_iff_iff]
  simp [isVoidName, Path.isVoid, hnil, hdot]

theorem onward_namesOf (path : String) :
    onward (namesOf path) = (components path).filterMap nameOf? := by
  have hlead : (Path.lead path.toList).filterMap nameOf? = [] := by
    unfold Path.lead
    split
    · rfl
    · split <;> rfl
  have hstep (s : List Char) : nameOf? (Path.ofSegment s) = some (String.ofList s) := by
    unfold Path.ofSegment
    split
    next h => rw [h]; rfl
    next => rfl
  rw [onward, namesOf, List.filter_map, Path.components_eq, List.filterMap_append, hlead,
    List.nil_append, Path.steps, List.filterMap_map, ← List.filterMap_eq_map]
  simp only [Function.comp_def, isVoidName_ofList, hstep]

theorem filterMap_nameOf?_normal (down : List (List Char)) :
    (down.map Component.normal).filterMap nameOf? = down.map String.ofList := by
  rw [List.filterMap_map, ← List.filterMap_eq_map]
  rfl

def LeadsDown (names : List String) : Prop :=
  ∀ name ∈ names, isVoidName name = false ∧ name ≠ ".."

theorem leadsDown_of_suffix (h : down.map Component.normal <:+ components path) :
    LeadsDown (down.map String.ofList) := by
  intro name hname
  obtain ⟨s, hs, rfl⟩ := List.mem_map.mp hname
  obtain ⟨hvoid, hup⟩ := Path.of_normal_mem_components (h.subset (List.mem_map_of_mem hs))
  refine ⟨(isVoidName_ofList s).trans hvoid, fun he => hup ?_⟩
  rw [← String.toList_inj, String.toList_ofList] at he
  exact he

/-! ### Following -/

theorem entryAt?_of_follow (h : d.follow p names = .ok q) (hq : d.entryAt? q = some .directory) :
    d.entryAt? p = some .directory := by
  cases names with
  | nil => exact Except.ok.inj h ▸ hq
  | cons name names => exact entryAt?_of_follow_cons h

theorem follow_cons {name : String} (h : d.entryAt? p = some .directory) :
    d.follow p (name :: names) =
      if isVoidName name then d.follow p names
      else if name = ".." then d.follow p.dropLast names
      else if isLongName name then .error .nameTooLong
      else d.follow (p ++ [name]) names := by
  simp only [follow, h]

theorem follow_onward (h : d.follow p names = .ok q) : d.follow p (onward names) = .ok q := by
  induction names generalizing p with
  | nil => exact h
  | cons name names ih =>
    have hp := entryAt?_of_follow_cons h
    rw [follow_cons hp] at h
    rw [onward, List.filter_cons]
    split_ifs at h with hvoid hup hlong
    · rw [hvoid]
      exact ih h
    · rw [Bool.not_eq_true] at hvoid
      rw [hvoid, Bool.not_false, if_pos rfl, follow_cons hp, hvoid, if_neg Bool.false_ne_true,
        if_pos hup]
      exact ih h
    · rw [Bool.not_eq_true] at hvoid
      rw [hvoid, Bool.not_false, if_pos rfl, follow_cons hp, hvoid, if_neg Bool.false_ne_true,
        if_neg hup, if_neg hlong]
      exact ih h

/-- Between directories the names that do not lead on are no hindrance. -/
theorem follow_of_onward (hq : d.entryAt? q = some .directory)
    (h : d.follow p (onward names) = .ok q) : d.follow p names = .ok q := by
  induction names generalizing p with
  | nil => exact h
  | cons name names ih =>
    have hp := entryAt?_of_follow h hq
    rw [follow_cons hp]
    rw [onward, List.filter_cons] at h
    cases hvoid : isVoidName name with
    | true =>
      rw [hvoid] at h
      exact ih h
    | false =>
      rw [hvoid, Bool.not_false, if_pos rfl, follow_cons hp, hvoid] at h
      simp only [Bool.false_eq_true, if_false] at h ⊢
      split_ifs at h ⊢
      · exact ih h
      · exact ih h

theorem LeadsDown.follow_eq (hdown : LeadsDown names) (h : d.follow p names = .ok q) :
    q = p ++ names := by
  induction names generalizing p with
  | nil => exact (Except.ok.inj h).symm.trans (List.append_nil p).symm
  | cons name names ih =>
    obtain ⟨⟨hvoid, hup⟩, hnames⟩ := List.forall_mem_cons.mp hdown
    rw [follow_cons (entryAt?_of_follow_cons h), hvoid, if_neg Bool.false_ne_true, if_neg hup] at h
    split_ifs at h
    rw [ih hnames h, List.append_assoc, List.singleton_append]

theorem Grown.directory (h : d.Grown d') (hp : d.entryAt? p = some .directory) :
    d'.entryAt? p = some .directory := by
  rcases h p with hsame | ⟨-, hnew⟩
  · exact hsame.trans hp
  · exact hnew

theorem Grown.follow (h : d.Grown d') (hfollow : d.follow p names = .ok q) :
    d'.follow p names = .ok q := by
  induction names generalizing p with
  | nil => exact hfollow
  | cons name names ih =>
    have hp := entryAt?_of_follow_cons hfollow
    rw [follow_cons hp] at hfollow
    rw [follow_cons (h.directory hp)]
    split_ifs at hfollow ⊢
    · exact ih hfollow
    · exact ih hfollow
    · exact ih hfollow

/-! ### Making -/

theorem makeBelow_onward (d : Disk) (p : Place) (names : List String) :
    d.makeBelow p names = d.makeBelow p (onward names) := by
  induction names generalizing d p with
  | nil => rfl
  | cons name names ih =>
    have hall : (onward names).all isVoidName = names.all isVoidName := by
      rw [Bool.eq_iff_iff]
      simp [onward]
    rw [onward, List.filter_cons, makeBelow]
    cases hvoid : isVoidName name with
    | true => exact ih d p
    | false =>
      have hfold : names.filter (fun name => !isVoidName name) = onward names := rfl
      rw [Bool.not_false, if_pos rfl, makeBelow, hvoid]
      simp only [hfold, ← ih, hall]

theorem makeBelow_cons_directory {name : String} (hvoid : isVoidName name = false)
    (hup : name ≠ "..") (hlong : isLongName name = false)
    (h : d.entryAt? (p ++ [name]) = some .directory) :
    d.makeBelow p (name :: names) = d.makeBelow (p ++ [name]) names := by
  simp [makeBelow, hvoid, hup, hlong, h]

theorem makeBelow_of_follow (hfollow : d.follow p names = .ok q)
    (hq : d.entryAt? q = some .directory) :
    d.makeBelow p (names ++ more) = d.makeBelow q more := by
  induction names generalizing p with
  | nil => rw [Except.ok.inj hfollow, List.nil_append]
  | cons name names ih =>
    rw [follow_cons (entryAt?_of_follow_cons hfollow)] at hfollow
    rw [List.cons_append]
    split_ifs at hfollow with hvoid hup hlong
    · rw [makeBelow, if_pos hvoid]
      exact ih hfollow
    · rw [makeBelow, if_neg hvoid, if_pos hup]
      exact ih hfollow
    · rw [makeBelow_cons_directory (by simpa using hvoid) hup (by simpa using hlong)
        (entryAt?_of_follow hfollow hq)]
      exact ih hfollow

theorem LeadsDown.makeBelow (hdown : LeadsDown names) (hp : d.entryAt? p = some .directory)
    (h : d.makeBelow p names = ⟨.ok (), left⟩) :
    left.follow p names = .ok (p ++ names) ∧ left.entryAt? (p ++ names) = some .directory ∧
      d.ChangedBelow left p := by
  induction names generalizing d p with
  | nil =>
    cases h
    exact ⟨by rw [List.append_nil]; rfl, by rwa [List.append_nil], ChangedBelow.refl left p⟩
  | cons name names ih =>
    obtain ⟨⟨hvoid, hup⟩, hnames⟩ := List.forall_mem_cons.mp hdown
    have hgrown := grown_makeBelow d p (name :: names)
    rw [h] at hgrown
    -- the rest is made below the next directory, on a disk that has it
    have step {e : Disk} (he : e.entryAt? (p ++ [name]) = some .directory)
        (hlong : isLongName name = false) (hrest : e.makeBelow (p ++ [name]) names = ⟨.ok (), left⟩)
        (hchanged : d.ChangedBelow e p) : left.follow p (name :: names) = .ok (p ++ name :: names) ∧
          left.entryAt? (p ++ name :: names) = some .directory ∧ d.ChangedBelow left p := by
      obtain ⟨hfollow, hdir, hbelow⟩ := ih hnames he hrest
      rw [List.append_assoc, List.singleton_append] at hfollow hdir
      refine ⟨?_, hdir, hchanged.trans (hbelow.mono (List.prefix_append p [name]))⟩
      rw [follow_cons (hgrown.directory hp), hvoid, if_neg Bool.false_ne_true, if_neg hup, hlong,
        if_neg Bool.false_ne_true, hfollow]
    rw [Disk.makeBelow, hvoid, if_neg Bool.false_ne_true, if_neg hup] at h
    split at h
    next => cases h
    next hlong =>
      rw [Bool.not_eq_true] at hlong
      simp only at h
      split at h
      next he => exact step he hlong h (ChangedBelow.refl d p)
      next => cases h
      next hnone =>
        have hne : p ++ [name] ≠ [] := by simp
        have hchanged : d.ChangedBelow (d.put (p ++ [name]) .directory) (p ++ [name]) :=
          changedBelow_of_others fun _ hq => entryAt?_put_of_ne hne hq
        refine step ?_ hlong h (hchanged.mono (List.prefix_append p [name]))
        rw [entryAt?_put hne, if_pos rfl]

theorem here_makeBelow (d : Disk) (p : Place) (names : List String) :
    (d.makeBelow p names).disk.here = d.here := by
  induction names generalizing d p with
  | nil => rfl
  | cons name names ih =>
    simp only [makeBelow]
    split
    · exact ih d p
    · split
      · exact ih d p.dropLast
      · split
        · rfl
        · split
          · exact ih d _
          · rfl
          · exact ih _ _

theorem start_eq (h : Path.IsBelow root path) : d.start path = d.start root := by
  rw [start, h.isAbsolute_eq, start]

theorem follow_of_find {entry : Entry} (h : d.find root = .ok (place, entry)) :
    d.follow (d.start root) ((components root).filterMap nameOf?) = .ok place := by
  obtain ⟨hplace, -⟩ := find_eq_ok_iff.mp h
  obtain ⟨-, -, hfollow⟩ := placeOf_eq_ok_iff.mp hplace
  rw [← onward_namesOf]
  exact follow_onward hfollow

/-- A path that leads down from a directory leads to a place below the directory's. -/
theorem placeOf_of_components (hroot : d.find root = .ok (place, .directory))
    (hpath : components path = components root ++ down.map .normal) (h : d.placeOf path = .ok q) :
    q = place ++ down.map String.ofList := by
  obtain ⟨-, -, hfollow⟩ := placeOf_eq_ok_iff.mp h
  have hfollow := follow_onward hfollow
  rw [onward_namesOf, hpath, List.filterMap_append, filterMap_nameOf?_normal,
    start_eq ⟨down, hpath⟩, follow_append, follow_of_find hroot] at hfollow
  exact (leadsDown_of_suffix ⟨components root, hpath.symm⟩).follow_eq hfollow

theorem suffix_of_find {entry : Entry} {tail : List (List Char)}
    (hroot : d.find root = .ok (place, entry))
    (htail : tail.map Component.normal <:+ components root) :
    tail.map String.ofList <:+ place := by
  have hdown := leadsDown_of_suffix htail
  obtain ⟨before, hbefore⟩ := htail
  have hfollow := follow_of_find hroot
  rw [← hbefore, List.filterMap_append, filterMap_nameOf?_normal, follow_append,
    bind_eq_ok_iff] at hfollow
  obtain ⟨above, -, hfollow⟩ := hfollow
  rw [hdown.follow_eq hfollow]
  exact List.suffix_append above _

theorem makeDirectories_below (hroot : d.find root = .ok (place, .directory))
    (hpath : components path = components root ++ down.map .normal) (hne : path ≠ "")
    (h : d.makeDirectories path = ⟨.ok (), left⟩) :
    left.find path = .ok (place ++ down.map String.ofList, .directory) ∧
      d.ChangedBelow left place := by
  have hdown : LeadsDown (down.map String.ofList) :=
    leadsDown_of_suffix ⟨components root, hpath.symm⟩
  have hplace := (find_eq_ok_iff.mp hroot).2
  have hgrown := grown_makeDirectories d path
  have hnames : onward (namesOf path) =
      (components root).filterMap nameOf? ++ down.map String.ofList := by
    rw [onward_namesOf, hpath, List.filterMap_append, filterMap_nameOf?_normal]
  rw [h] at hgrown
  unfold makeDirectories at h
  split at h
  next => cases h
  next hcheck =>
    have hhere : left.here = d.here := by rw [← here_makeBelow d (d.start path) (namesOf path), h]
    have hstart : left.start path = d.start root := by
      rw [start, hhere, ← start, start_eq ⟨down, hpath⟩]
    rw [makeBelow_onward, hnames, start_eq ⟨down, hpath⟩,
      makeBelow_of_follow (follow_of_find hroot) hplace] at h
    obtain ⟨hfollow, hdir, hbelow⟩ := hdown.makeBelow hplace h
    refine ⟨find_eq_ok_iff.mpr ⟨placeOf_eq_ok_iff.mpr ⟨hcheck, hne, ?_⟩, hdir⟩, hbelow⟩
    apply follow_of_onward hdir
    rw [hstart, hnames, follow_append, hgrown.follow (follow_of_find hroot)]
    exact hfollow

end JavaRefactor.Disk
