import JavaRefactor.Proofs.Collision
import JavaRefactor.Proofs.Renamed

/-! # Bindings after a rename

In the renamed tree the first declaration of a name in a scope is the same as before, but in
the scope of the renamed symbol: there the new name stands for the symbol, and its old name for
the next declaration of that name, if there is one.
-/

namespace JavaRefactor

open Walk

theorem find?_eq_some_of_imp {α : Type} {l : List α} {p q : α → Bool} {a : α}
    (hp : l.find? p = some a) (hq : q a = true) (himp : ∀ b ∈ l, q b = true → p b = true) :
    l.find? q = some a := by
  obtain ⟨-, as, bs, rfl, hno⟩ := List.find?_eq_some_iff_append.mp hp
  refine List.find?_eq_some_iff_append.mpr ⟨hq, as, bs, rfl, fun b hb => ?_⟩
  have hpb := hno b hb
  cases hqb : q b with
  | false => rfl
  | true => simp [himp b (List.mem_append_left _ hb) hqb] at hpb

theorem Outline.Alike.bound?_eq {t : Tree} {o o' : Outline.Trail} (h : Alike t o o') (t₁ : Tree)
    {c : ScopeId} {space : Namespace} {m : String} (hspace : space ≠ .method) :
    o'.bound? t₁ c space m = o.bound? t₁ c space m := by
  have key (o : Outline) : o.bound? t₁ c space m = ((o.entries.filter (isCore t)).find? fun e =>
      e.scope == c && e.kind.space == space && t₁.text e.node == m).map (·.node) := by
    rw [bound?, List.find?_filter]
    congr 2
    funext e
    by_cases hk : e.kind = .method
    · have : (SymbolKind.method.space == space) = false := by
        rw [beq_eq_false_iff_ne]
        exact fun he => hspace he.symm
      simp [hk, this]
    · have hcore : isCore t e = true := by simp [isCore, hk]
      simp only [hcore, true_and, Bool.decide_eq_true]
  rw [key, key, h.core]

namespace Renamed

variable {t t' : Tree} {s : Symbol} {name m : String} {u k c : Nat} {e : OutlineEntry}
  {space : Namespace} {x : NodeId}

theorem of_names (ht : t.IsProgram) (hg : t.Grammatical)
    (hs : (upTo t t.size).symbols[s.id]? = some s) (hk : k ≤ t.size)
    (he : e ∈ (Outline.upTo t k).entries) (hn : (upTo t t.size).Names s.id e.node) :
    e.scope = s.scope ∧ e.kind = s.kind ∧ t.text e.node = s.name ∧ KnownAt t s k := by
  have hext := upTo_extends ht hk (Nat.le_refl _)
  rw [← outline_upTo ht hk] at he
  obtain ⟨o, ho, hkind, s', hs', rfl⟩ := Walk.mem_entries.mp he
  obtain ⟨o', ho', hid, hnode⟩ := hn
  obtain rfl := eq_of_node_eq ht hg (Nat.le_refl _) ho' (hext.occurrences.subset ho) hnode
  obtain ⟨s'', hs'', htext, -, hscope⟩ := (sound_upTo ht hk).occurs o' ho
  obtain rfl := Option.some.inj (hs'.symm.trans hs'')
  obtain rfl : s' = s := by
    have := getElem?_mono hext.symbols hs'
    rw [hid, hs] at this
    exact (Option.some.inj this).symm
  exact ⟨hscope hkind, rfl, htext, by rw [KnownAt, ← hid]; exact hs'⟩

theorem text_entry (h : Renamed t s name t') (ht : t.IsProgram) (hk : k ≤ t.size)
    (he : e ∈ (Outline.upTo t k).entries) (hn : ¬ (upTo t t.size).Names s.id e.node) :
    t'.text e.node = t.text e.node := by
  obtain ⟨o, ho, -, _, -, rfl, -⟩ := exists_declaration_of_entry ht hk he
  exact h.text_old _ ((tidy_upTo ht (Nat.le_refl _)).traced o ho).isName hn

theorem names_of_text_eq (h : Renamed t s name t') (ht : t.IsProgram) (hk : k ≤ t.size)
    (hclear : (Outline.upTo t k).bound? t s.scope s.kind.space name = none)
    (he : e ∈ (Outline.upTo t k).entries) (hscope : e.scope = s.scope)
    (hspace : e.kind.space = s.kind.space) (htext : t'.text e.node = name) :
    (upTo t t.size).Names s.id e.node := by
  by_contra hn
  rw [h.text_entry ht hk he hn] at htext
  exact Outline.bound?_eq_none_iff.mp hclear e he hscope hspace htext

section

variable (h : Renamed t s name t') (ht : t.IsProgram) (hg : t.Grammatical)
  (hs : (upTo t t.size).symbols[s.id]? = some s) (hk : k ≤ t.size)
include h ht hg hs hk

/-- Where a name stands for something else than the symbol, it did so before. -/
theorem text_of_text_eq (he : e ∈ (Outline.upTo t k).entries) (htext : t'.text e.node = m)
    (hm : m ≠ name ∨ ¬ (e.scope = s.scope ∧ e.kind.space = s.kind.space)) : t.text e.node = m := by
  by_cases hn : (upTo t t.size).Names s.id e.node
  · obtain ⟨hscope, hkind, -⟩ := of_names ht hg hs hk he hn
    rcases hm with hm | hm
    · exact absurd (htext.symm.trans (h.text_new _ hn)) hm
    · exact absurd ⟨hscope, hkind ▸ rfl⟩ hm
  · rw [← h.text_entry ht hk he hn, htext]

theorem bound?_kept_some (hx : (Outline.upTo t k).bound? t c space m = some x)
    (hn : ¬ (upTo t t.size).Names s.id x)
    (hm : m ≠ name ∨ ¬ (c = s.scope ∧ space = s.kind.space)) :
    (Outline.upTo t k).bound? t' c space m = some x := by
  obtain ⟨e, hf, rfl⟩ := Option.map_eq_some_iff.mp hx
  have hkey := List.find?_some hf
  have he := List.mem_of_find?_eq_some hf
  simp only [Bool.and_eq_true, beq_iff_eq] at hkey
  rw [Outline.bound?, find?_eq_some_of_imp hf]
  · rfl
  · simp [hkey, h.text_entry ht hk he hn]
  · intro b hb hq
    simp only [Bool.and_eq_true, beq_iff_eq] at hq ⊢
    exact ⟨hq.1, h.text_of_text_eq ht hg hs hk hb hq.2 (by rw [hq.1.1, hq.1.2]; exact hm)⟩

theorem bound?_kept_none (hx : (Outline.upTo t k).bound? t c space m = none)
    (hm : m ≠ name ∨ ¬ (c = s.scope ∧ space = s.kind.space)) :
    (Outline.upTo t k).bound? t' c space m = none := by
  rw [Outline.bound?_eq_none_iff] at hx ⊢
  rintro e he rfl rfl htext
  exact hx e he rfl rfl (h.text_of_text_eq ht hg hs hk he htext hm)

theorem bound?_renamed_some (hx : (Outline.upTo t k).bound? t s.scope s.kind.space s.name = some x)
    (hn : (upTo t t.size).Names s.id x)
    (hclear : (Outline.upTo t k).bound? t s.scope s.kind.space name = none) :
    (Outline.upTo t k).bound? t' s.scope s.kind.space name = some x := by
  obtain ⟨e, hf, rfl⟩ := Option.map_eq_some_iff.mp hx
  have hkey := List.find?_some hf
  simp only [Bool.and_eq_true, beq_iff_eq] at hkey
  rw [Outline.bound?, find?_eq_some_of_imp hf]
  · rfl
  · simp [hkey, h.text_new _ hn]
  · intro b hb hq
    simp only [Bool.and_eq_true, beq_iff_eq] at hq ⊢
    have hnb := h.names_of_text_eq ht hk hclear hb hq.1.1 hq.1.2 hq.2
    exact ⟨hq.1, (of_names ht hg hs hk hb hnb).2.2.1⟩

theorem bound?_renamed_none (hunknown : ¬ KnownAt t s k)
    (hclear : (Outline.upTo t k).bound? t s.scope s.kind.space name = none) :
    (Outline.upTo t k).bound? t' s.scope s.kind.space name = none := by
  rw [Outline.bound?_eq_none_iff]
  intro e he hscope hspace htext
  have hn := h.names_of_text_eq ht hk hclear he hscope hspace htext
  exact hunknown (of_names ht hg hs hk he hn).2.2.2

end

theorem bound?_renamed_known (h : Renamed t s name t') (ht : t.IsProgram) (hg : t.Grammatical)
    (hk : k ≤ t.size) (hknown : KnownAt t s k)
    (hclear : (Outline.upTo t k).bound? t s.scope s.kind.space name = none) :
    (Outline.upTo t k).bound? t' s.scope s.kind.space name = (upTo t t.size).nameNode? s.id := by
  obtain ⟨x, hx, hfirst⟩ := hknown.entry ht hk
  obtain ⟨hmem, -⟩ := first?_eq_some hfirst
  have hsub := (upTo_extends ht hk (Nat.le_refl _)).occurrences.subset
  have hentry {o : Occurrence} (hdecl : o.kind = .declaration) (hid : o.symbol = s.id) :
      (upTo t k).entryOf? o = some ⟨o.scope, s.kind, o.node⟩ := by
    have hsym : (upTo t k).symbols[s.id]? = some s := hknown
    simp [entryOf?, hdecl, hid, hsym]
  -- the first entry of the name comes from the first occurrence of the symbol
  rw [hx, Outline.bound?, ← outline_upTo ht hk]
  show ((upTo t k).entries.find? _).map _ = _
  rw [entries, List.find?_filterMap, find?_eq_some_of_imp hfirst]
  · simp [hentry]
  · have hnew := h.text_new x ⟨_, hsub hmem, rfl, rfl⟩
    simp [hentry, hnew]
  · intro o ho hq
    cases he : (upTo t k).entryOf? o with
    | none => simp [he] at hq
    | some e =>
      simp only [he, Option.any_some, Bool.and_eq_true, beq_iff_eq] at hq
      have hmem : e ∈ (Outline.upTo t k).entries := by
        rw [← outline_upTo ht hk]
        exact List.mem_filterMap.mpr ⟨o, ho, he⟩
      obtain ⟨o', ho', hid, hnode⟩ := h.names_of_text_eq ht hk hclear hmem hq.1.1 hq.1.2 hq.2
      have hen : e.node = o.node := by
        unfold entryOf? at he
        split at he
        · obtain ⟨s', -, rfl⟩ := Option.map_eq_some_iff.mp he
          rfl
        · simp at he
      rw [← eq_of_node_eq ht hg (Nat.le_refl _) ho' (hsub ho) (hnode.trans hen), hid]
      exact beq_self_eq_true _

theorem outline_eq (h : Renamed t s name t') (ht : t.IsProgram) (hg : t.Grammatical)
    (hs : (upTo t t.size).symbols[s.id]? = some s) (hkind : s.kind = .method)
    (hctor : NotConstructor t s) (hk : k ≤ t.size) : Outline.upTo t' k = Outline.upTo t k := by
  refine Outline.upTo_eq h.toSameShape fun i hi stack hr ho => ?_
  rw [reached?_outline ht (by omega)] at hr
  exact h.hoisted_eq ht hg hs hkind hctor (by omega) hr ho

/-- The namespace of methods changes only if a method is renamed; the others hold no
constructors. -/
theorem bound?_eq (h : Renamed t s name t') (ht : t.IsProgram) (hg : t.Grammatical)
    (hs : (upTo t t.size).symbols[s.id]? = some s)
    (hctor : s.kind = .method → NotConstructor t s) (hk : k ≤ t.size)
    (hspace : space ≠ .method ∨ s.kind = .method) :
    (Outline.upTo t' k).bound? t' c space m = (Outline.upTo t k).bound? t' c space m := by
  rcases hspace with hspace | hkind
  · exact (Outline.alike_upTo h.toSameShape ht.toInPreorder k).bound?_eq t' hspace
  · rw [h.outline_eq ht hg hs hkind (hctor hkind) hk]

theorem entries_subset (h : Renamed t s name t') (ht : t.IsProgram) (hg : t.Grammatical)
    (hk : k ≤ t.size) : (Outline.upTo t' k).entries ⊆ (Outline.upTo t k).entries := by
  refine Outline.entries_subset h.toSameShape ht.toInPreorder fun i hi stack hr ho => ?_
  rw [reached?_outline ht (by omega)] at hr
  exact h.hoisted_subset ht hg hr ho

theorem bound?_eq_none (h : Renamed t s name t') (ht : t.IsProgram) (hg : t.Grammatical)
    (hk : k ≤ t.size) (hx : (Outline.upTo t k).bound? t' c space m = none) :
    (Outline.upTo t' k).bound? t' c space m = none := by
  rw [Outline.bound?_eq_none_iff] at hx ⊢
  exact fun e he => hx e (h.entries_subset ht hg hk he)

end Renamed

end JavaRefactor
