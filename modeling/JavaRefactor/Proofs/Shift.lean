import JavaRefactor.Proofs.Apply

/-! # Offsets after edits

When edits are made in a text, what stands between them moves but stays as it is, and an
edited span holds its new text. The shift tells where an offset of the old text ends up.
-/

namespace JavaRefactor

namespace Text

variable {cs x z : List Char} {k a b : Nat}

theorem exists_parts (hk : IsBoundary cs k) (ha : IsBoundary cs a) (hka : k ≤ a) :
    ∃ x y z, cs = x ++ (y ++ z) ∧ width x = k ∧ width (x ++ y) = a := by
  have hd : (divide? cs ⟨k, a⟩).isSome := isSome_divide?_iff.mpr ⟨hka, hk, ha⟩
  obtain ⟨parts, hparts⟩ := Option.isSome_iff_exists.mp hd
  obtain ⟨he, hb, hm⟩ := divide?_eq_some_iff.mp hparts
  exact ⟨_, _, _, he, hb, hm⟩

theorem between_trans (hk : IsBoundary cs k) (ha : IsBoundary cs a) (hb : IsBoundary cs b)
    (hka : k ≤ a) (hab : a ≤ b) : between cs k b = between cs k a ++ between cs a b := by
  obtain ⟨x, y, z, rfl, hx, hy⟩ := exists_parts hk ha hka
  obtain ⟨x', y', z', he, hx', hy'⟩ := exists_parts ha hb hab
  have hsplit : (x ++ y) ++ z = x' ++ (y' ++ z') := by simpa using he
  obtain ⟨rfl, rfl⟩ := append_inj_of_width hsplit (hy.trans hx'.symm)
  have h₁ : between (x ++ (y ++ (y' ++ z'))) k b = y ++ y' := by
    have := between_eq (x := x) (y := y ++ y') (z := z') hx (by simpa using hy')
    simpa using this
  have h₂ : between (x ++ (y ++ (y' ++ z'))) a b = y' := by
    have := between_eq (x := x ++ y) (y := y') (z := z') hy hy'
    simpa using this
  rw [h₁, h₂, between_eq hx hy]

theorem slice?_ofList {x y z : List Char} {span : Span} (hx : width x = span.start)
    (hy : width (x ++ y) = span.stop) :
    slice? (String.ofList (x ++ (y ++ z))) span = some (String.ofList y) := by
  have hd : divide? (x ++ (y ++ z)) span = some ⟨x, y, z⟩ := divide?_eq_some_iff.mpr ⟨rfl, hx, hy⟩
  simp [slice?, hd]

end Text

namespace EditPlan

open Text

def total (f : TextEdit → Nat) (edits : List TextEdit) : Nat := edits.foldr (fun e n => f e + n) 0

/-- Where an offset of a text ends up when edits are made in it. -/
def shift (edits : List TextEdit) (offset : Nat) : Nat :=
  let before := edits.filter fun e => e.span.stop ≤ offset
  offset + total (fun e => byteLength e.newText) before - total (·.span.length) before

structure InOrder (cs : List Char) (edits : List TextEdit) : Prop where
  before : edits.Pairwise fun d e => d.span.Before e.span
  cut : ∀ e ∈ edits, IsBoundary cs e.span.start ∧ IsBoundary cs e.span.stop
  nonempty : ∀ e ∈ edits, e.span.start < e.span.stop

variable {cs x z : List Char} {k a b : Nat} {es es₁ es₂ : List TextEdit} {e : TextEdit}

theorem weave_from (hk : IsBoundary cs k) (ha : IsBoundary cs a) (hka : k ≤ a)
    (hes : ∀ e ∈ es, IsBoundary cs e.span.start ∧ a ≤ e.span.start) :
    weave cs k es = between cs k a ++ weave cs a es := by
  cases es with
  | nil => exact between_trans hk ha (isBoundary_width cs) hka ha.le_width
  | cons e es =>
    obtain ⟨hcut, hle⟩ := hes e List.mem_cons_self
    rw [weave, weave, between_trans hk ha hcut hka hle, List.append_assoc]

theorem weave_append (hx : width x = a) (hk : IsBoundary (x ++ z) k) (hka : k ≤ a)
    (h₁ : ∀ e ∈ es₁, IsBoundary (x ++ z) e.span.stop ∧ e.span.start ≤ e.span.stop ∧ e.span.stop ≤ a)
    (h₂ : ∀ e ∈ es₂, IsBoundary (x ++ z) e.span.start ∧ a ≤ e.span.start) :
    weave (x ++ z) k (es₁ ++ es₂) = weave x k es₁ ++ weave (x ++ z) a es₂ := by
  induction es₁ generalizing k with
  | nil =>
    have ha : IsBoundary (x ++ z) a := ⟨x, z, rfl, hx⟩
    rw [List.nil_append, weave_from hk ha hka h₂, weave, hx, between_append (Nat.le_of_eq hx.symm)]
  | cons e es ih =>
    obtain ⟨hcut, hle, hea⟩ := h₁ e List.mem_cons_self
    rw [List.cons_append, weave, weave, ih hcut hea fun d hd => h₁ d (List.mem_cons_of_mem _ hd),
      between_append (by omega)]
    simp

theorem InOrder.of_append (h : InOrder cs (es₁ ++ es₂)) : InOrder cs es₁ :=
  ⟨(List.pairwise_append.mp h.before).1, fun e he => h.cut e (List.mem_append_left _ he),
    fun e he => h.nonempty e (List.mem_append_left _ he)⟩

theorem InOrder.exists_append (h : InOrder cs es)
    (ha : ∀ e ∈ es, e.span.stop ≤ a ∨ a ≤ e.span.start) :
    ∃ es₁ es₂, es = es₁ ++ es₂ ∧ (∀ e ∈ es₁, e.span.stop ≤ a) ∧ ∀ e ∈ es₂, a ≤ e.span.start := by
  obtain ⟨hp, -, -⟩ := h
  induction es with
  | nil => exact ⟨[], [], rfl, by simp, by simp⟩
  | cons e es ih =>
    obtain ⟨he, hes⟩ := List.pairwise_cons.mp hp
    rcases ha e List.mem_cons_self with hstop | hstart
    · obtain ⟨es₁, es₂, rfl, h₁, h₂⟩ := ih (fun d hd => ha d (List.mem_cons_of_mem _ hd)) hes
      refine ⟨e :: es₁, es₂, rfl, fun d hd => ?_, h₂⟩
      rcases List.mem_cons.mp hd with rfl | hd
      · exact hstop
      · exact h₁ d hd
    · refine ⟨[], e :: es, rfl, by simp, fun d hd => ?_⟩
      rcases List.mem_cons.mp hd with rfl | hd
      · exact hstart
      · exact Nat.le_trans hstart (Nat.le_of_lt (he d hd).2.2)

theorem shift_append (h₁ : ∀ e ∈ es₁, e.span.stop ≤ a) (h₂ : ∀ e ∈ es₂, a < e.span.stop) :
    shift (es₁ ++ es₂) a =
      a + total (fun e => byteLength e.newText) es₁ - total (·.span.length) es₁ := by
  have hf₁ : es₁.filter (fun e => e.span.stop ≤ a) = es₁ :=
    List.filter_eq_self.mpr fun e he => decide_eq_true (h₁ e he)
  have hf₂ : es₂.filter (fun e => e.span.stop ≤ a) = [] :=
    List.filter_eq_nil_iff.mpr fun e he => by simpa using h₂ e he
  simp only [shift, List.filter_append, hf₁, hf₂, List.append_nil]

theorem total_perm (f : TextEdit → Nat) (h : es₁.Perm es₂) : total f es₁ = total f es₂ :=
  h.foldr_eq' (fun d _ e _ n => Nat.add_left_comm (f e) (f d) n) 0

theorem shift_perm (h : es₁.Perm es₂) : shift es₁ = shift es₂ := by
  funext a
  have hf := h.filter fun e => decide (e.span.stop ≤ a)
  simp only [shift, total_perm _ hf]

/-- What stands before an offset has, after the edits, the width of its shift. -/
theorem InOrder.width_weave (h : InOrder (x ++ z) (es₁ ++ es₂)) (hx : width x = a)
    (h₁ : ∀ e ∈ es₁, e.span.stop ≤ a) (h₂ : ∀ e ∈ es₂, a ≤ e.span.start) :
    width (weave x 0 es₁) = shift (es₁ ++ es₂) a ∧
      total (·.span.length) es₁ ≤ a + total (fun e => byteLength e.newText) es₁ := by
  have hle : ∀ e ∈ es₁, e.span.start ≤ e.span.stop :=
    fun e he => Nat.le_of_lt (h.nonempty e (List.mem_append_left _ he))
  have hcut : ∀ e ∈ es₁, IsBoundary x e.span.start ∧ IsBoundary x e.span.stop := by
    intro e he
    have hea : e.span.stop ≤ width x := hx ▸ h₁ e he
    have := h.of_append.cut e he
    rwa [isBoundary_append (Nat.le_trans (hle e he) hea), isBoundary_append hea] at this
  have hs : spliceAll x es₁.reverse = .ok (weave x 0 es₁) :=
    (spliceAll_reverse_eq_ok_iff h.of_append.before hle).mpr ⟨hcut, rfl⟩
  have hsum (f : TextEdit → Nat) :
      es₁.reverse.foldr (fun e total => f e + total) 0 = total f es₁ :=
    total_perm f (List.reverse_perm es₁)
  have hw := width_spliceAll hs
  rw [hsum, hsum, hx] at hw
  have hlt : ∀ e ∈ es₂, a < e.span.stop := fun e he =>
    Nat.lt_of_le_of_lt (h₂ e he) (h.nonempty e (List.mem_append_right _ he))
  rw [shift_append h₁ hlt]
  omega

theorem InOrder.weave_eq (h : InOrder (x ++ z) (es₁ ++ es₂)) (hx : width x = a)
    (h₁ : ∀ e ∈ es₁, e.span.stop ≤ a) (h₂ : ∀ e ∈ es₂, a ≤ e.span.start) :
    weave (x ++ z) 0 (es₁ ++ es₂) = weave x 0 es₁ ++ weave (x ++ z) a es₂ := by
  refine weave_append hx (isBoundary_zero _) (Nat.zero_le a) (fun e he => ?_) fun e he => ?_
  · exact ⟨(h.of_append.cut e he).2, Nat.le_of_lt (h.of_append.nonempty e he), h₁ e he⟩
  · exact ⟨(h.cut e (List.mem_append_right _ he)).1, h₂ e he⟩

theorem InOrder.slice?_kept (h : InOrder cs es) (ha : IsBoundary cs a) (hb : IsBoundary cs b)
    (hab : a ≤ b) (hes : ∀ e ∈ es, e.span.stop ≤ a ∨ b ≤ e.span.start) :
    slice? (String.ofList (weave cs 0 es)) ⟨shift es a, shift es b⟩ =
      slice? (String.ofList cs) ⟨a, b⟩ := by
  obtain ⟨es₁, es₂, rfl, h₁, h₂⟩ :=
    h.exists_append fun e he => (hes e he).imp_right (Nat.le_trans hab)
  have h₂' : ∀ e ∈ es₂, b ≤ e.span.start := by
    intro e he
    have hne := h.nonempty e (List.mem_append_right _ he)
    have hstart := h₂ e he
    rcases hes e (List.mem_append_right _ he) with hstop | hstart'
    · omega
    · exact hstart'
  obtain ⟨x, y, z, rfl, hx, hy⟩ := exists_parts ha hb hab
  obtain ⟨hw, hsum⟩ := h.width_weave hx h₁ h₂
  have hcut : ∀ e ∈ es₂, IsBoundary (x ++ (y ++ z)) e.span.start ∧ b ≤ e.span.start :=
    fun e he => ⟨(h.cut e (List.mem_append_right _ he)).1, h₂' e he⟩
  have hslice : slice? (String.ofList (x ++ (y ++ z))) ⟨a, b⟩ = some (String.ofList y) :=
    slice?_ofList hx hy
  rw [h.weave_eq hx h₁ h₂, weave_from ha hb hab hcut, between_eq hx hy, hslice]
  refine slice?_ofList hw ?_
  show width (weave x 0 es₁ ++ y) = shift (es₁ ++ es₂) b
  have hlt : ∀ c, c ≤ b → ∀ e ∈ es₂, c < e.span.stop := fun c hc e he =>
    Nat.lt_of_le_of_lt (Nat.le_trans hc (h₂' e he)) (h.nonempty e (List.mem_append_right _ he))
  rw [width_append, hw, shift_append h₁ (hlt a hab),
    shift_append (fun e he => Nat.le_trans (h₁ e he) hab) (hlt b (Nat.le_refl b))]
  rw [width_append] at hy
  omega

theorem InOrder.slice?_edited (h : InOrder cs es) (he : e ∈ es) :
    slice? (String.ofList (weave cs 0 es)) ⟨shift es e.span.start, shift es e.span.stop⟩ =
      some e.newText := by
  obtain ⟨es₁, es₂, rfl⟩ := List.append_of_mem he
  obtain ⟨hp₁, hp₂, hp⟩ := List.pairwise_append.mp h.before
  obtain ⟨hcut, hcut'⟩ := h.cut e he
  have hne := Nat.le_of_lt (h.nonempty e he)
  obtain ⟨x, y, z, rfl, hx, hy⟩ := exists_parts hcut hcut' hne
  have h₁ : ∀ d ∈ es₁, d.span.stop ≤ e.span.start := fun d hd => (hp d hd e List.mem_cons_self).2.1
  have h₁' : ∀ d ∈ es₁ ++ [e], d.span.stop ≤ e.span.stop := by
    intro d hd
    rcases List.mem_append.mp hd with hd | hd
    · exact Nat.le_trans (h₁ d hd) hne
    · rw [List.mem_singleton.mp hd]
  have h₂ : ∀ d ∈ es₂, e.span.stop ≤ d.span.start :=
    fun d hd => ((List.pairwise_cons.mp hp₂).1 d hd).2.1
  have h₂' : ∀ d ∈ e :: es₂, e.span.start ≤ d.span.start := by
    intro d hd
    rcases List.mem_cons.mp hd with rfl | hd
    · exact Nat.le_refl _
    · exact Nat.le_trans hne (h₂ d hd)
  -- the edit stands last in what comes before its end
  have hlast : weave (x ++ y) 0 (es₁ ++ [e]) = weave x 0 es₁ ++ e.newText.toList := by
    have hstart : ∀ d ∈ es₁, d.span.start ≤ width x := fun d hd =>
      Nat.le_trans (Nat.le_of_lt (h.of_append.nonempty d hd)) (hx ▸ h₁ d hd)
    simpa using weave_append_singleton (z := []) hx hy hstart 0
  have hs : x ++ (y ++ z) = (x ++ y) ++ z := by simp
  have hl : es₁ ++ e :: es₂ = (es₁ ++ [e]) ++ es₂ := by simp
  obtain ⟨hw, -⟩ := h.width_weave hx h₁ h₂'
  rw [hs, hl] at h
  obtain ⟨hw', -⟩ := h.width_weave hy h₁' h₂
  rw [hs, hl, h.weave_eq hy h₁' h₂, hlast, List.append_assoc, ← hl,
    slice?_ofList hw (by rw [← hlast, hw', hl]), String.ofList_toList]

end EditPlan

end JavaRefactor
