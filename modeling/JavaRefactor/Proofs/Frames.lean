import JavaRefactor.Proofs.Walk

/-! # The two stacks of the resolver

Between two steps the frames that are left cover the nodes from some `k` on, in their order. Each
frame that leaves a scope takes off what a node before it has put on the stack of scopes, so a node
is entered with the scopes around it, however deep it lies and whatever has been passed over. From
this the resolver comes to an end, and it has then recorded what the visits of all nodes record.
-/

namespace JavaRefactor

namespace Walk

variable {t : Tree} {w : Walk} {i j k : Nat} {stack : List ScopeId}

theorem enter_stack : (w.enter t stack i).2 =
    if (t.opens? i).isSome then w.scopes.size :: stack else stack := by
  unfold enter
  cases t.opens? i with
  | none => rfl
  | some kind => simp [announce_scopes]

theorem upTo_succ_of_reached (hr : (upTo t i).reached? t i = some stack) :
    (upTo t (i + 1)).toWalk = ((upTo t i).enter t stack i).1 := by
  rw [upTo_succ, visit_of_reached hr]

theorem frame?_of_reached (hr : (upTo t i).reached? t i = some stack) :
    (upTo t i).frame? t i = some ((upTo t i).enter t stack i).2 := by
  simp [Trail.frame?, hr, enter_stack]

theorem reached?_of_passed (ht : t.InPreorder) (hi : (upTo t i).reached? t i = none) :
    ∀ {j : Nat}, i ∈ j :: t.ancestors j → (upTo t j).reached? t j = none := by
  intro j
  induction j using Nat.strongRecOn with
  | ind j ih =>
    intro hij
    rcases List.mem_cons.mp hij with rfl | hij
    · exact hi
    · obtain ⟨p, hp⟩ := ht.parent_of_mem hij
      rw [ht.ancestors_of_parent hp] at hij
      have hp' := ih p (ht.parent_lt hp) hij
      rw [Trail.reached?, outside_upTo ht hp, Trail.frame?, hp', Option.map_none, ite_self]

theorem upTo_of_passed (ht : t.InPreorder) (hi : (upTo t i).reached? t i = none)
    (hend : t.SubtreeEnds i k) : (upTo t k).toWalk = (upTo t i).toWalk := by
  have hpassed : ∀ j, i ≤ j → j ≤ k → (upTo t j).toWalk = (upTo t i).toWalk := by
    intro j hij
    induction hij with
    | refl => exact fun _ => rfl
    | @step j hij ih =>
      intro hjk
      have hpassed := reached?_of_passed ht hi (hend.mem_cons_ancestors hij hjk)
      rw [upTo_succ, visit_of_passed hpassed, ih (Nat.le_of_lt hjk)]
  exact hpassed k (Nat.le_of_lt hend.lt) (Nat.le_refl k)

end Walk

namespace Resolver

open Walk

variable {t : Tree} {i k : Nat} {stack : List ScopeId} {work : List Frame} {m : Resolver}

/-- The frames enter the nodes from `k` on, in order, and the stack of scopes holds what they
leave: when a node is entered, the scopes left over are those around it. -/
inductive Pending (t : Tree) : Nat → List ScopeId → List Frame → Prop where
  | done : Pending t t.size [] []
  | leave {k : Nat} {stack : List ScopeId} {work : List Frame} (scope : ScopeId)
      (rest : Pending t k stack work) : Pending t k (scope :: stack) (.leave :: work)
  | enter {i k : Nat} {stack : List ScopeId} {work : List Frame}
      (around : (upTo t i).outside t i = some stack) (ends : t.SubtreeEnds i k)
      (rest : Pending t k stack work) : Pending t i stack (.enter i :: work)

/-- The resolver has recorded what the visits of the nodes before `k` record, and the nodes from
`k` on are left. -/
structure Follows (t : Tree) (k : Nat) (m : Resolver) : Prop where
  walk : m.walk = (upTo t k).toWalk
  pending : Pending t k m.stack m.work

/-- A bound on the steps that are left: each node that is entered may add a scope to leave. -/
def stepsLeft (t : Tree) (k : Nat) (work : List Frame) : Nat :=
  2 * (t.size - k) + work.count .leave

/-- Entering the children of a node one after the other covers all that lies below it. -/
theorem Pending.children (ht : t.InPreorder) (hi : t.SubtreeEnds i k)
    (hf : (upTo t i).frame? t i = some stack) (h : Pending t k stack work) :
    Pending t (i + 1) stack ((t.children i).map .enter ++ work) := by
  -- by induction on the children that are left, from the last one back
  have hrest : ∀ before after, t.children i = before ++ after →
      Pending t (after.headD k) stack (after.map .enter ++ work) := by
    intro before after
    induction after generalizing before with
    | nil => exact fun _ => h
    | cons c after ih =>
      intro hl
      have hc : t.parent? c = some i := (hi.child_lt ht (by simp [hl])).2.2
      exact .enter ((outside_upTo ht hc).trans hf) (hi.child ht hl)
        (ih (before ++ [c]) (by simp [hl]))
  rw [← hi.headD_children ht]
  exact hrest [] _ rfl

theorem Follows.step_leave {scope : ScopeId} {rest : List ScopeId}
    (hw : m.walk = (upTo t k).toWalk) (hs : m.stack = scope :: rest)
    (hm : m.work = .leave :: work) (h : Pending t k rest work) : Follows t k (m.step t) := by
  simp only [step, hm]
  exact ⟨hw, by simpa [hs] using h⟩

theorem Follows.step_passed (ht : t.InPreorder) (hw : m.walk = (upTo t i).toWalk)
    (hm : m.work = .enter i :: work) (he : t.isError i && i != Tree.root)
    (hend : t.SubtreeEnds i k) (h : Pending t k m.stack work) : Follows t k (m.step t) := by
  have hr : (upTo t i).reached? t i = none := by simp [Trail.reached?, he]
  simp only [step, hm, he, if_true]
  exact ⟨hw.trans (upTo_of_passed ht hr hend).symm, h⟩

theorem Follows.step_enter (ht : t.InPreorder) (hw : m.walk = (upTo t i).toWalk)
    (hm : m.work = .enter i :: work) (he : (t.isError i && i != Tree.root) = false)
    (hout : (upTo t i).outside t i = some m.stack) (hend : t.SubtreeEnds i k)
    (h : Pending t k m.stack work) : Follows t (i + 1) (m.step t) := by
  have hr : (upTo t i).reached? t i = some m.stack := by simp [Trail.reached?, he, hout]
  simp only [step, hm, he, Bool.false_eq_true, if_false, List.append_assoc]
  refine ⟨by rw [hw, upTo_succ_of_reached hr], ?_⟩
  rw [hw]
  refine .children ht hend (frame?_of_reached hr) ?_
  rw [enter_stack]
  split
  · exact .leave _ h
  · exact h

/-- A step leads on, and brings the end nearer. Of the nodes that it leaves behind one is entered,
and the others are passed over. -/
theorem Follows.step (ht : t.InPreorder) (h : Follows t k m) (hne : m.work ≠ []) :
    ∃ k', Follows t k' (m.step t) ∧
      stepsLeft t k' (m.step t).work < stepsLeft t k m.work ∧
      ∀ i, k ≤ i → i < k' →
        m.work.head? = some (.enter i) ∨ (upTo t i).reached? t i = none := by
  obtain ⟨hw, hp⟩ := h
  generalize hs : m.stack = stack at hp
  generalize hm : m.work = work at hp
  cases hp with
  | done => exact absurd hm hne
  | leave scope rest =>
    refine ⟨k, .step_leave hw hs hm rest, ?_, fun i hk hi => absurd hi (Nat.not_lt.mpr hk)⟩
    simp [stepsLeft, Resolver.step, hm]
  | @enter _ k' _ work' around ends rest =>
    subst hs
    have hlt := ends.lt
    have hle := ends.le
    cases he : t.isError k && k != Tree.root with
    | true =>
      refine ⟨k', .step_passed ht hw hm he ends rest, ?_, fun i hk hi => Or.inr ?_⟩
      · simp only [stepsLeft, Resolver.step, hm, he, if_true, List.count_cons]
        omega
      · have hr : (upTo t k).reached? t k = none := by simp [Trail.reached?, he]
        exact reached?_of_passed ht hr (ends.mem_cons_ancestors hk hi)
    | false =>
      refine ⟨k + 1, .step_enter ht hw hm he around ends rest, ?_, fun i hk hi => Or.inl ?_⟩
      · have hclose : (if (t.opens? k).isSome then [Frame.leave] else []).count .leave ≤ 1 := by
          split <;> simp
        have hmap : ((t.children k).map Frame.enter).count .leave = 0 := by
          simp [List.count_eq_zero]
        simp only [stepsLeft, Resolver.step, hm, he, Bool.false_eq_true, if_false,
          List.count_append, List.count_cons, hmap]
        omega
      · rw [Nat.le_antisymm (Nat.le_of_lt_succ hi) hk, List.head?_cons]

theorem run_of_done (hm : m.work = []) (steps : Nat) : run t steps m = m := by
  induction steps with
  | zero => rfl
  | succ steps ih => simpa [run, Resolver.step, hm] using ih

theorem Follows.eq_of_done (h : Follows t k m) (hm : m.work = []) :
    m = { walk := (upTo t t.size).toWalk, stack := [], work := [] } := by
  obtain ⟨walk, stack, work⟩ := m
  obtain ⟨hw, hp⟩ := h
  subst hm hw
  cases hp
  rfl

/-- However many steps are made, the frames and the scopes go on to belong together, and as long as
frames are left the steps bring the end nearer. -/
theorem Follows.exists_run (ht : t.InPreorder) (h : Follows t k m) (steps : Nat) :
    ∃ k', Follows t k' (run t steps m) ∧ ((run t steps m).work ≠ [] →
      stepsLeft t k' (run t steps m).work + steps ≤ stepsLeft t k m.work) := by
  induction steps generalizing k m with
  | zero => exact ⟨k, h, fun _ => Nat.le_refl _⟩
  | succ steps ih =>
    by_cases hm : m.work = []
    · rw [run_of_done hm]
      exact ⟨k, h, fun hne => absurd hm hne⟩
    · obtain ⟨k', h', hlt, -⟩ := h.step ht hm
      obtain ⟨k'', h'', hle⟩ := ih h'
      refine ⟨k'', h'', fun hne => ?_⟩
      have hle : stepsLeft t k'' (run t (steps + 1) m).work + steps ≤
        stepsLeft t k' (m.step t).work := hle hne
      omega

/-- The resolver comes to every node that is not passed over. -/
theorem Follows.exists_enter (ht : t.InPreorder) (hi : i < t.size)
    (hr : (upTo t i).reached? t i ≠ none) (h : Follows t k m) (hk : k ≤ i) :
    ∃ steps, (run t steps m).work.head? = some (.enter i) := by
  generalize hn : stepsLeft t k m.work = n
  induction n using Nat.strongRecOn generalizing k m with
  | ind n ih =>
    have hne : m.work ≠ [] := by
      intro hm
      have hend := h.pending
      rw [hm] at hend
      generalize m.stack = stack at hend
      cases hend
      exact Nat.not_lt.mpr hk hi
    obtain ⟨k', h', hless, hbehind⟩ := h.step ht hne
    by_cases hk' : k' ≤ i
    · obtain ⟨steps, hsteps⟩ := ih _ (hn ▸ hless) h' hk' rfl
      exact ⟨steps + 1, hsteps⟩
    · exact ⟨0, (hbehind i hk (Nat.not_le.mp hk')).resolve_right hr⟩

theorem Follows.run_eq (ht : t.InPreorder) {steps : Nat} (h : Follows t k m)
    (hle : stepsLeft t k m.work ≤ steps) :
    run t steps m = { walk := (upTo t t.size).toWalk, stack := [], work := [] } := by
  obtain ⟨k', h', hleft⟩ := h.exists_run ht steps
  apply h'.eq_of_done
  by_contra hne
  obtain ⟨_, -, hlt, -⟩ := h'.step ht hne
  have := hleft hne
  omega

theorem follows_start (ht : t.InPreorder) (h0 : 0 < t.size) : Follows t Tree.root {} := by
  have hp : t.parent? Tree.root = none := List.head?_eq_none_iff.mpr ht.ancestors_root
  exact ⟨rfl, .enter (by simp [Trail.outside, hp]) (.root ht h0) .done⟩

/-- The resolver does all its work, leaves every scope it has opened, and records what the visits
of the nodes one after the other record. -/
theorem run_eq (ht : t.InPreorder) (h0 : 0 < t.size) : run t (2 * t.size) {} =
    { walk := (upTo t t.size).toWalk, stack := [], work := [] } :=
  (follows_start ht h0).run_eq ht (by simp [stepsLeft, Tree.root])

/-- In the state `m` the resolver has come to a node, which it enters next. -/
def Enters (t : Tree) (i : NodeId) (m : Resolver) : Prop :=
  (∃ steps, run t steps {} = m) ∧ m.work.head? = some (.enter i)

theorem Enters.eq (h : Enters t i m) (ht : t.IsProgram) :
    m.walk = (upTo t i).toWalk ∧ (upTo t i).outside t i = some m.stack := by
  obtain ⟨⟨steps, rfl⟩, hm⟩ := h
  obtain ⟨k, ⟨hw, hp⟩, -⟩ :=
    (follows_start ht.toInPreorder ht.size_pos).exists_run ht.toInPreorder steps
  generalize run t steps {} = m at hm hw hp ⊢
  obtain ⟨walk, stack, work⟩ := m
  cases hp with
  | done => cases hm
  | leave => cases hm
  | enter around =>
    obtain rfl := Frame.enter.inj (Option.some.inj hm)
    exact ⟨hw, around⟩

theorem exists_enters (ht : t.IsProgram) (hi : i < t.size)
    (hr : (upTo t i).reached? t i ≠ none) : ∃ m, Enters t i m := by
  have hstart := follows_start ht.toInPreorder ht.size_pos
  obtain ⟨steps, hsteps⟩ := hstart.exists_enter ht.toInPreorder hi hr (Nat.zero_le i)
  exact ⟨_, ⟨steps, rfl⟩, hsteps⟩

end Resolver

theorem resolve_eq_ok {t : Tree} (ht : t.IsProgram) :
    resolve t = .ok (Walk.upTo t t.size).toResolution := by
  rw [resolve, Resolver.run_eq ht.toInPreorder ht.size_pos]
  simp [Walk.stray_upTo ht (Nat.le_refl _)]

end JavaRefactor
