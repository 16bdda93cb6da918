import JavaRefactor.Proofs.Occurrence

/-! # Outlines

The outline of a walk keeps the scopes and the names that are declared in them, in order, and
forgets symbols and bindings. It can be computed by a walk of its own, which reads the text
only to tell constructors from methods. What a name is bound to can be read off the outline:
the first declaration of the name in the innermost scope that has one.
-/

namespace JavaRefactor

structure OutlineEntry where
  scope : ScopeId
  kind : SymbolKind
  /-- The identifier. -/
  node : NodeId
  deriving DecidableEq, Repr

/-- What a walk knows of scopes and declared names. -/
@[ext] structure Outline where
  /-- The kinds of the scopes. -/
  kinds : Array ScopeKind := #[]
  entries : List OutlineEntry := []
  deriving Repr

namespace Outline

/-- An outline with the scopes around the children of each visited node. -/
@[ext] structure Trail extends Outline where
  inside : Array (Option (List ScopeId)) := #[]
  deriving Repr

instance : CoeOut Trail Outline := ⟨Trail.toOutline⟩

def Trail.reached? (o : Trail) (t : Tree) (i : NodeId) : Option (List ScopeId) :=
  if t.isError i && i != Tree.root then none
  else
    match t.parent? i with
    | none => some []
    | some p => o.inside.getD p none

def declares (o : Outline) (x : NodeId) : Bool := o.entries.any fun e => e.node == x

def added (o : Outline) (t : Tree) (stack : List ScopeId) (i : NodeId) : List OutlineEntry :=
  match t.opens? i with
  | none =>
    match t.role i with
    | .declares d => if o.declares d.name then [] else [⟨Walk.current stack, d.kind, d.name⟩]
    | _ => []
  | some _ =>
    ((t.ownDeclaration? i).toList.filter fun d => !o.declares d.name).map
        (fun d => ⟨Walk.current stack, d.kind, d.name⟩) ++
      (t.hoisted i).map fun d => ⟨o.kinds.size, d.kind, d.name⟩

def visit (t : Tree) (o : Trail) (i : NodeId) : Trail :=
  match o.reached? t i with
  | none => { o with inside := o.inside.push none }
  | some stack =>
    { inside := o.inside.push (some (if (t.opens? i).isSome then o.kinds.size :: stack else stack))
      kinds := (t.opens? i).elim o.kinds o.kinds.push
      entries := o.entries ++ o.added t stack i }

def upTo (t : Tree) (count : Nat) : Trail := (List.range count).foldl (visit t) {}

theorem upTo_zero (t : Tree) : upTo t 0 = {} := rfl

theorem upTo_succ (t : Tree) (k : Nat) : upTo t (k + 1) = visit t (upTo t k) k := by
  simp [upTo, List.range_succ]

variable {t : Tree} {o : Outline} {stack : List ScopeId} {i k m : Nat} {e : OutlineEntry}

theorem visit_entries (t : Tree) (o : Trail) (i : NodeId) : (visit t o i).entries =
    o.entries ++ ((o.reached? t i).elim [] fun stack => o.added t stack i) := by
  unfold visit
  cases o.reached? t i <;> simp

theorem mem_added_iff : e ∈ o.added t stack i ↔
    (t.opens? i = none ∧ ∃ d, t.role i = .declares d ∧ o.declares d.name = false ∧
      e = ⟨Walk.current stack, d.kind, d.name⟩) ∨
    (t.opens? i).isSome ∧ ((∃ d, t.ownDeclaration? i = some d ∧ o.declares d.name = false ∧
      e = ⟨Walk.current stack, d.kind, d.name⟩) ∨
      ∃ d ∈ t.hoisted i, e = ⟨o.kinds.size, d.kind, d.name⟩) := by
  unfold added
  cases ho : t.opens? i with
  | none =>
    cases hr : t.role i with
    | declares d => cases hd : o.declares d.name <;> simp [hd]
    | _ => simp
  | some kind =>
    simp only [List.mem_append, List.mem_map, List.mem_filter, Option.mem_toList,
      Bool.not_eq_true', Option.isSome_some, true_and, reduceCtorEq, false_and, false_or]
    refine or_congr (exists_congr fun d => ?_)
      (exists_congr fun d => and_congr_right fun _ => eq_comm)
    rw [and_assoc]
    exact and_congr_right fun _ => and_congr_right fun _ => eq_comm

theorem mem_entries_upTo_iff : e ∈ (upTo t k).entries ↔ ∃ j < k, ∃ stack,
    (upTo t j).reached? t j = some stack ∧ e ∈ (upTo t j).added t stack j := by
  induction k with
  | zero => simp [upTo_zero]
  | succ k ih =>
    rw [upTo_succ, visit_entries, List.mem_append, ih]
    constructor
    · rintro (⟨j, hj, h⟩ | h)
      · exact ⟨j, by omega, h⟩
      · cases hr : (upTo t k).reached? t k with
        | none => simp [hr] at h
        | some stack => exact ⟨k, by omega, stack, hr, by simpa [hr] using h⟩
    · rintro ⟨j, hj, stack, hr, h⟩
      rcases Nat.lt_or_eq_of_le (Nat.le_of_lt_succ hj) with hlt | rfl
      · exact Or.inl ⟨j, hlt, stack, hr, h⟩
      · exact Or.inr (by simpa [hr] using h)

theorem entries_mono (hkm : k ≤ m) : (upTo t k).entries <+: (upTo t m).entries := by
  induction hkm with
  | refl => exact List.prefix_rfl
  | step _ ih =>
    rw [upTo_succ, visit_entries]
    exact ih.trans (List.prefix_append _ _)

theorem kinds_mono (hkm : k ≤ m) : (upTo t k).kinds.toList <+: (upTo t m).kinds.toList := by
  induction hkm with
  | refl => exact List.prefix_rfl
  | @step m _ ih =>
    rw [upTo_succ]
    refine ih.trans ?_
    unfold visit
    split
    · exact List.prefix_rfl
    · cases t.opens? m <;> simp

end Outline

namespace Walk

variable {t : Tree} {w w' : Walk} {v : Trail} {i k : Nat} {stack : List ScopeId} {d : Declaration}

def entryOf? (w : Walk) (o : Occurrence) : Option OutlineEntry :=
  if o.kind = .declaration then w.symbols[o.symbol]?.map fun s => ⟨o.scope, s.kind, o.node⟩
  else none

def entries (w : Walk) : List OutlineEntry := w.occurrences.toList.filterMap w.entryOf?

def outline (w : Walk) : Outline := ⟨w.scopes.map (·.kind), w.entries⟩

theorem entries_congr (hsym : w'.symbols = w.symbols) (hocc : w'.occurrences = w.occurrences) :
    w'.entries = w.entries := by
  have hentry : w'.entryOf? = w.entryOf? := by
    funext o
    simp [entryOf?, hsym]
  rw [entries, hocc, hentry, entries]

theorem Sound.filterMap_entryOf? (h : Sound t w) (hsym : w.symbols.toList <+: w'.symbols.toList) :
    w.occurrences.toList.filterMap w'.entryOf? = w.entries := by
  refine List.filterMap_congr fun o ho => ?_
  obtain ⟨s, hs, -⟩ := h.occurs o ho
  simp [entryOf?, hs, getElem?_mono hsym hs]

theorem Sound.entries_declared (h : Sound t w) (hd : Declared t stack w d w') :
    w'.entries = w.entries ++ [⟨current stack, d.kind, d.name⟩] := by
  obtain ⟨id, hocc, -⟩ := hd.occurrences_eq
  obtain ⟨s, hs, hkind⟩ := hd.symbol_kind h hocc
  have hnew : w'.entryOf? (declaredAs t stack d id) = some ⟨current stack, d.kind, d.name⟩ := by
    simp [entryOf?, declaredAs, hs, hkind]
  rw [entries, hocc, Array.toList_push, List.filterMap_append,
    h.filterMap_entryOf? hd.extends.symbols]
  simp [hnew]

theorem entries_push {o : Occurrence} (ho : o.kind ≠ .declaration)
    (hsym : w'.symbols = w.symbols) (hocc : w'.occurrences = w.occurrences.push o) :
    w'.entries = w.entries := by
  have hentry : w'.entryOf? = w.entryOf? := by
    funext o
    simp [entryOf?, hsym]
  have hnew : w.entryOf? o = none := by simp [entryOf?, ho]
  simp [entries, hocc, hentry, hnew]

theorem mem_entries {e : OutlineEntry} : e ∈ w.entries ↔
    ∃ o ∈ w.occurrences.toList, o.kind = .declaration ∧
      ∃ s, w.symbols[o.symbol]? = some s ∧ e = ⟨o.scope, s.kind, o.node⟩ := by
  simp only [entries, List.mem_filterMap, entryOf?]
  refine exists_congr fun o => and_congr_right fun _ => ?_
  by_cases hk : o.kind = .declaration
  · simp only [hk, if_true, Option.map_eq_some_iff, true_and]
    exact exists_congr fun s => and_congr_right fun _ => eq_comm
  · simp [hk]

theorem Sound.declares_iff (h : Sound t w) {x : NodeId} : w.outline.declares x ↔
    ∃ o ∈ w.occurrences.toList, o.kind = .declaration ∧ o.node = x := by
  simp only [Outline.declares, outline, List.any_eq_true, beq_iff_eq, mem_entries]
  constructor
  · rintro ⟨e, ⟨o, ho, hk, s, -, rfl⟩, rfl⟩
    exact ⟨o, ho, hk, rfl⟩
  · rintro ⟨o, ho, hk, rfl⟩
    obtain ⟨s, hs, -⟩ := h.occurs o ho
    exact ⟨_, ⟨o, ho, hk, s, hs, rfl⟩, rfl⟩

theorem entries_visitIdentifier (h : Sound t w)
    (hstack : t.role i ≠ .ignored → current stack < w.scopes.size) :
    (w.visitIdentifier t stack i).entries = w.entries ++
      match t.role i with
      | .declares d => if w.isSettled i then [] else [⟨current stack, d.kind, d.name⟩]
      | _ => [] := by
  unfold visitIdentifier
  cases hr : t.role i with
  | ignored => split <;> simp
  | declares d =>
    split
    next => simp
    next => exact h.entries_declared (declare_declared (hstack (by simp [hr])))
  | uses target =>
    simp only [List.append_nil]
    split
    · rfl
    · unfold bindUse
      simp only
      split
      next id _ => exact entries_push (o := ⟨id, i, _, .reference, _⟩) (by simp) rfl rfl
      next => rfl

theorem entries_announce (h : Sound t w)
    (hstack : t.kind i ≠ .program → current stack < w.scopes.size) :
    (w.announce t stack i).entries = w.entries ++
      if (w.declaredBy? i).isSome then []
      else (t.ownDeclaration? i).toList.map fun d => ⟨current stack, d.kind, d.name⟩ := by
  rw [announce_eq]
  split
  next hk =>
    have hown : t.ownDeclaration? i = none := by
      cases hd : t.ownDeclaration? i with
      | none => rfl
      | some d => simp [(Tree.ownDeclaration?_eq_some hd).2.2.2.1] at hk
    have hsame : (w.nameConstructor t stack i).entries = w.entries := by
      unfold nameConstructor
      split
      · rfl
      next name _ =>
        split
        · rfl
        · split
          · rfl
          next owner _ =>
            split
            · exact entries_push (o := ⟨owner, _, _, .constructor, _⟩) (by simp) rfl rfl
            · rfl
    simp [hown, hsame]
  next =>
    split
    · simp
    · cases hd : t.ownDeclaration? i with
      | none => simp
      | some d =>
        refine h.entries_declared (declare_declared (hstack fun he => ?_))
        simp [Tree.ownDeclaration?, he, NodeKind.isTypeDeclaration] at hd

theorem entries_foldl_declare {l : List Declaration} (h : Sound t w)
    (hstack : current stack < w.scopes.size) :
    (l.foldl (declare t stack) w).entries =
      w.entries ++ l.map fun d => ⟨current stack, d.kind, d.name⟩ := by
  induction l generalizing w with
  | nil => simp
  | cons d l ih =>
    have hd := declare_declared (t := t) (d := d) hstack
    rw [List.foldl_cons, ih (h.declared hd) (hd.scopes_eq ▸ hstack), h.entries_declared hd]
    simp

/-- Before an identifier that declares itself is visited, only declarations settle it. -/
theorem Tidy.isSettled_eq (h : Tidy t i w) (hw : w.Accounted i) (ht : t.InPreorder)
    (hr : t.role i = .declares d) : w.isSettled i = w.outline.declares d.name := by
  rw [Bool.eq_iff_iff, h.declares_iff, Tree.name_of_role hr, hw.isSettled_iff (Nat.le_refl i)]
  refine exists_congr fun o => and_congr_right fun ho => ⟨fun hn => ⟨?_, hn⟩, And.right⟩
  cases h.traced o ho with
  | reference _ visited _ => lia
  | @constructor m _ _ node child =>
    obtain ⟨-, p, hp, hlocal⟩ := Tree.role_declares hr
    have hm := ht.parent_of_childByField? child
    rw [hn, hp] at hm
    have hcallable := (NodeKind.isCallable_of_isConstructor node).1
    rw [← Option.some.inj hm, (Tree.localDeclaration?_name hlocal).2.2.2.2] at hcallable
    simp at hcallable
  | declaration kind => exact kind

/-- Before a type or method is visited, it has been declared just when its name has been. -/
theorem Tidy.declaredBy?_eq (h : Tidy t i w) (ht : t.InPreorder)
    (hd : t.ownDeclaration? i = some d) :
    (w.declaredBy? i).isSome = w.outline.declares d.name := by
  rw [Bool.eq_iff_iff, h.declares_iff]
  constructor
  · intro hs
    obtain ⟨id, hid⟩ := Option.isSome_iff_exists.mp hs
    obtain ⟨o, ho, -, hk, j, d', -, hmake, rfl, hname⟩ := h.listed_of_declaredBy? hid
    exact ⟨o, ho, hk, hname ▸ hmake.name_eq_own hd⟩
  · rintro ⟨o, ho, hk, hn⟩
    have hp := ht.parent_of_childByField? (Tree.ownDeclaration?_eq_some hd).1
    have hlt := ht.parent_lt hp
    cases h.traced o ho with
    | reference kind => simp [kind] at hk
    | constructor kind => simp [kind] at hk
    | @declaration j d' _ _ visited made name declared _ _ =>
      rcases made.name_le ht with hj | ⟨-, hp', -⟩
      · lia
      · rw [name, hn, hp] at hp'
        rwa [← Option.some.inj hp'] at declared

theorem entries_visit_of_plain (ht : t.IsProgram) (hi : i < t.size) (hv : Framed i v)
    (h : Tidy t i v) (hr : v.reached? t i = some stack) (ho : t.opens? i = none) :
    (visit t v i).entries = v.entries ++ v.outline.added t stack i := by
  have hstack (hk : t.role i ≠ .ignored) : current stack < v.scopes.size :=
    hv.current_lt ht hi hr fun hk' => hk (by simp [Tree.role, hk'])
  rw [visit_of_plain hr ho]
  refine (entries_visitIdentifier h.toSound hstack).trans ?_
  rw [Outline.added, ho]
  cases hrole : t.role i with
  | declares d => rw [h.isSettled_eq hv.toAccounted ht.toInPreorder hrole]
  | _ => rfl

theorem entries_visit_of_opens (ht : t.IsProgram) (hi : i < t.size) (hv : Framed i v)
    (h : Tidy t i v) {kind : ScopeKind} (hr : v.reached? t i = some stack)
    (ho : t.opens? i = some kind) :
    (visit t v i).entries = v.entries ++ v.outline.added t stack i := by
  have hstack := hv.current_lt ht hi hr
  have hsound : Sound t (v.opened t stack i kind) :=
    Sound.congr (announce_preserves hv.toAccounted ht.toInPreorder hstack
      (fun _ hd h => h.declared hd) (fun hr h => h.records hr) h.toSound) rfl rfl rfl
  have hopened : (v.opened t stack i kind).entries = v.entries ++
      ((t.ownDeclaration? i).toList.filter fun d => !v.outline.declares d.name).map
        fun d => ⟨current stack, d.kind, d.name⟩ := by
    refine (entries_announce h.toSound hstack).trans (congrArg _ ?_)
    cases hd : t.ownDeclaration? i with
    | none => simp
    | some d =>
      rw [h.declaredBy?_eq ht.toInPreorder hd]
      cases hdec : v.outline.declares d.name <;> simp [hdec]
  have hinner : current (v.scopes.size :: stack) < (v.opened t stack i kind).scopes.size := by
    simp [current, opened, openScope, announce_scopes]
  rw [visit_of_opens hr ho]
  refine (entries_foldl_declare hsound hinner).trans ?_
  rw [hopened, Outline.added, ho, List.append_assoc]
  simp [current, outline]

def Trail.outlined (v : Trail) : Outline.Trail := { v.outline with inside := v.inside }

theorem outlined_visit (ht : t.IsProgram) (hi : i < t.size) (hv : Framed i v) (h : Tidy t i v) :
    (visit t v i).outlined = Outline.visit t v.outlined i := by
  have hreach : v.outlined.reached? t i = v.reached? t i := rfl
  unfold Outline.visit
  rw [hreach]
  cases hr : v.reached? t i with
  | none => rw [visit_of_passed hr]; rfl
  | some stack =>
    have hinside : (visit t v i).inside = v.inside.push
        (some (if (t.opens? i).isSome then v.scopes.size :: stack else stack)) := by
      simp [visit_inside, Trail.frame?, hr]
    cases ho : t.opens? i with
    | none =>
      refine Outline.Trail.ext ?_ (entries_visit_of_plain ht hi hv h hr ho) ?_
      · simp [Trail.outlined, outline, visit_scopes_of_not_opens (Or.inr ho)]
      · simpa [ho, Trail.outlined, outline] using hinside
    | some kind =>
      refine Outline.Trail.ext ?_ (entries_visit_of_opens ht hi hv h hr ho) ?_
      · simp [Trail.outlined, outline, visit_scopes_of_opens hr ho, newScope]
      · simpa [ho, Trail.outlined, outline] using hinside

theorem outlined_upTo (ht : t.IsProgram) (hk : k ≤ t.size) :
    (upTo t k).outlined = Outline.upTo t k := by
  refine upTo_induction (P := fun k v => v.outlined = Outline.upTo t k) ht ?_ ?_ hk
  · simp [Trail.outlined, outline, Outline.upTo, entries]
  rintro k v hk hv rfl h
  rw [Outline.upTo_succ, ← h]
  exact outlined_visit ht hk hv (tidy_upTo ht (Nat.le_of_lt hk))

theorem outline_upTo (ht : t.IsProgram) (hk : k ≤ t.size) :
    (upTo t k).outline = Outline.upTo t k :=
  congrArg Outline.Trail.toOutline (outlined_upTo ht hk)

theorem exists_entry (ht : t.IsProgram) (hk : k ≤ t.size) {o : Occurrence}
    (ho : o ∈ (upTo t k).occurrences.toList) (hkind : o.kind = .declaration) :
    ∃ e ∈ (Outline.upTo t k).entries, e.node = o.node := by
  have hd := (sound_upTo ht hk).declares_iff.mpr ⟨o, ho, hkind, rfl⟩
  rw [outline_upTo ht hk] at hd
  simpa [Outline.declares] using hd

theorem reached?_outline (ht : t.IsProgram) (hk : k ≤ t.size) :
    (Outline.upTo t k).reached? t i = (upTo t k).reached? t i := by
  rw [← outlined_upTo ht hk]
  rfl

end Walk

end JavaRefactor
