import JavaRefactor.Proofs.RenameExact
import JavaRefactor.Proofs.Shape
import JavaRefactor.Proofs.Shift
import JavaRefactor.Proofs.Visibility

/-! # Renamed trees

Applying the plan of a rename changes the text but not the shape of a tree: its nodes move
along with the edits. Every occurrence of the symbol then reads as the new name, and all other
names read as before.
-/

namespace JavaRefactor

namespace Tree

/-- The tree of an edited text. Its nodes are the same, and their spans move along. -/
def edited (t : Tree) (edits : List TextEdit) (source : String) : Tree :=
  ⟨source, t.nodes.map fun n =>
    { n with span := ⟨EditPlan.shift edits n.span.start, EditPlan.shift edits n.span.stop⟩ }⟩

variable {t : Tree} {edits : List TextEdit} {source : String}

theorem node_edited {i : Nat} (hi : i < t.size) : (t.edited edits source).node i =
    { t.node i with span := ⟨EditPlan.shift edits (t.span i).start,
      EditPlan.shift edits (t.span i).stop⟩ } := by
  have hi : i < t.nodes.size := hi
  simp [node, span, edited, hi]

theorem sameShape_edited : t.SameShape (t.edited edits source) := by
  have hsize : (t.edited edits source).size = t.size := by simp [size, edited]
  have key {α : Type} (f : Node → α) (hf : ∀ n span, f { n with span := span } = f n) :
      (fun i => f ((t.edited edits source).node i)) = fun i => f (t.node i) := by
    funext i
    by_cases hi : i < t.size
    · rw [node_edited hi, hf]
    · rw [node_of_size_le (Nat.le_of_not_lt hi), node_of_size_le (hsize ▸ Nat.le_of_not_lt hi)]
  exact ⟨hsize, key Node.kind fun _ _ => rfl, key Node.field fun _ _ => rfl,
    key Node.children fun _ _ => rfl, key Node.ancestors fun _ _ => rfl,
    key Node.isNamed fun _ _ => rfl, key Node.isError fun _ _ => rfl⟩

theorem edited_nil (t : Tree) : t.edited [] t.source = t := by
  simp [edited, EditPlan.shift, EditPlan.total]

end Tree

/-- The tree `t'` is the tree `t` with another name for a symbol. -/
structure Renamed (t : Tree) (s : Symbol) (name : String) (t' : Tree) : Prop extends
    t.SameShape t' where
  text_new : ∀ x, (Walk.upTo t t.size).Names s.id x → t'.text x = name
  text_old : ∀ x, t.IsName x → ¬ (Walk.upTo t t.size).Names s.id x → t'.text x = t.text x

namespace Walk

variable {t : Tree} {w : Walk} {i k m : Nat} {stack : List ScopeId}

theorem kind_of_type_name (h : Tidy t k w) (ht : t.InPreorder) (hk : (t.kind i).isTypeDeclaration)
    {o : Occurrence} (ho : o ∈ w.occurrences.toList) (hdecl : o.kind = .declaration)
    (hname : t.childByField? i "name" = some o.node) {s : Symbol}
    (hs : w.symbols[o.symbol]? = some s) : s.kind ≠ .method := by
  have hp := ht.parent_of_childByField? hname
  cases h.traced o ho with
  | reference kind => simp [kind] at hdecl
  | constructor kind => simp [kind] at hdecl
  | @declaration j d s' _ visited made name declared found same =>
    obtain rfl := Option.some.inj (hs.symm.trans found)
    rw [same]
    have hnode {q : NodeId} (hq : t.parent? d.name = some q) : q = i := by
      rw [name, hp] at hq
      exact (Option.some.inj hq).symm
    intro hmethod
    cases made with
    | hoisted mem =>
      have hh := Tree.hoists_of_mem_hoisted mem
      have hi := hnode (hh.name_parent ht)
      cases hh with
      | member _ _ kind =>
        rw [hi, hmethod] at kind
        cases hki : t.kind i <;> simp [hki, NodeKind.isTypeDeclaration] at hk <;>
          simp [hki, Tree.memberKind?] at kind
      | typeParameter _ _ _ _ _ kind => simp [hmethod] at kind
      | component _ _ _ _ _ kind => simp [hmethod] at kind
      | top _ _ _ _ kind => simp [hmethod] at kind
      | declarator _ _ _ _ _ kind => simp [hmethod] at kind
    | own own =>
      obtain rfl := hnode (Outline.parent_of_own ht own)
      rcases Tree.kind_of_ownDeclaration? own with ⟨-, htype⟩ | ⟨hki, -⟩
      · simp [hmethod] at htype
      · simp [hki, NodeKind.isTypeDeclaration] at hk
    | here role =>
      obtain ⟨-, p, -, hlocal⟩ := Tree.role_declares role
      have := (Tree.localDeclaration?_name hlocal).2.1
      simp [hmethod, SymbolKind.isLocal] at this

theorem exists_declaration_of_type (ht : t.IsProgram) (hi : i < t.size)
    (hr : (upTo t i).reached? t i = some stack) (hk : (t.kind i).isTypeDeclaration) {x : NodeId}
    (hx : t.childByField? i "name" = some x) :
    ∃ o ∈ (upTo t t.size).occurrences.toList, o.kind = .declaration ∧ o.node = x := by
  have hown : t.ownDeclaration? i = some ⟨x, i, .type⟩ := by
    rw [Tree.ownDeclaration?, if_pos hk]
    exact Tree.declaration?_eq_some_iff.mpr ⟨hx, rfl, rfl⟩
  obtain ⟨o, ho, hkind, hnode, -⟩ := visit_owner ht hi (framed_upTo ht (Nat.le_of_lt hi))
    (tidy_upTo ht (Nat.le_of_lt hi)) hr (opens?_type hk) hk hown
  rw [← upTo_succ] at ho
  exact ⟨o, (upTo_extends ht hi (Nat.le_refl _)).occurrences.subset ho, hkind, hnode⟩

end Walk

namespace Renamed

open EditPlan

variable {t : Tree} {s : Symbol} {name : String}

theorem inOrder_renamePlan (ht : t.Readable) (hs : (Walk.upTo t t.size).symbols[s.id]? = some s)
    (hpos : ∀ o ∈ (Walk.upTo t t.size).occurrencesOf s.id,
      (t.span o.node).start < (t.span o.node).stop)
    (hclear : EditPlan.Clear (Text.byteLength t.source) ((Walk.upTo t t.size).renameEdits s name)) :
    InOrder t.source.toList
      (Resolution.renamePlan t s ((Walk.upTo t t.size).renameEdits s name)).ascending := by
  have htidy := Walk.tidy_upTo ht.toIsProgram (Nat.le_refl t.size)
  have hcut : ∀ e ∈ (Walk.upTo t t.size).renameEdits s name, e.span.start < e.span.stop ∧
      Text.IsBoundary t.source.toList e.span.start ∧
      Text.IsBoundary t.source.toList e.span.stop := by
    intro e he
    unfold Resolution.renameEdits at he
    split at he
    · simp at he
    · obtain ⟨o, ho, rfl⟩ := List.mem_map.mp he
      obtain ⟨hname, hspan, -⟩ := Resolution.mem_occurrencesOf htidy hs ho
      simp only [hspan]
      exact ⟨hpos o ho, ht.cut o.node hname⟩
  have hperm := sortBy_perm (fun a b : TextEdit => b.span.le a.span)
    ((Walk.upTo t t.size).renameEdits s name)
  have hmem {e : TextEdit} (he : e ∈ (Resolution.renamePlan t s
      ((Walk.upTo t t.size).renameEdits s name)).ascending) :
      e ∈ (Walk.upTo t t.size).renameEdits s name :=
    hperm.mem_iff.mp ((mem_sortBy _).mp he)
  refine ⟨pairwise_ascending (fun e he => (hclear.bounds e (hperm.mem_iff.mp he)).1) ?_,
    fun e he => (hcut e (hmem he)).2, fun e he => (hcut e (hmem he)).1⟩
  exact (hperm.pairwise_iff Span.Compatible.symm).mpr hclear.compatible

theorem renamed_edited (ht : t.Readable) (hs : (Walk.upTo t t.size).symbols[s.id]? = some s)
    (hpos : ∀ o ∈ (Walk.upTo t t.size).occurrencesOf s.id,
      (t.span o.node).start < (t.span o.node).stop)
    (hclear : EditPlan.Clear (Text.byteLength t.source) ((Walk.upTo t t.size).renameEdits s name))
    (hne : s.name ≠ name) {plan : EditPlan}
    (hplan : plan = Resolution.renamePlan t s ((Walk.upTo t t.size).renameEdits s name)) :
    Renamed t s name
      (t.edited plan.edits (String.ofList (weave t.source.toList 0 plan.ascending))) := by
  have htidy := Walk.tidy_upTo ht.toIsProgram (Nat.le_refl t.size)
  have horder : InOrder t.source.toList plan.ascending :=
    hplan ▸ inOrder_renamePlan ht hs hpos hclear
  have hshift : shift plan.edits = shift plan.ascending := (shift_perm (sortBy_perm _ _)).symm
  have hmem {e : TextEdit} : e ∈ plan.ascending ↔
      ∃ o ∈ (Walk.upTo t t.size).occurrences.toList,
        o.symbol = s.id ∧ e = ⟨t.span o.node, name⟩ := by
    have hspan {o : Occurrence} (ho : o ∈ (Walk.upTo t t.size).occurrences.toList) :
        o.span = t.span o.node := by
      obtain ⟨-, -, -, hspan, -⟩ := htidy.occurs o ho
      exact hspan
    rw [ascending, mem_sortBy, hplan, Resolution.renamePlan, mem_sortBy, Resolution.renameEdits,
      if_neg hne, List.mem_map]
    simp only [(Walk.perm_occurrencesOf _ _).mem_iff, List.mem_filter, beq_iff_eq, and_assoc]
    refine exists_congr fun o => and_congr_right fun ho => and_congr_right fun _ => ?_
    rw [hspan ho]
    exact eq_comm
  have htext {x : Nat} (hx : t.IsName x) :
      (t.edited plan.edits (String.ofList (weave t.source.toList 0 plan.ascending))).text x =
        (Text.slice? (String.ofList (weave t.source.toList 0 plan.ascending))
          ⟨shift plan.ascending (t.span x).start,
            shift plan.ascending (t.span x).stop⟩).getD "" := by
    rw [Tree.text, Tree.span, Tree.node_edited (ht.lt_size_of_isName hx), hshift]
    rfl
  refine ⟨Tree.sameShape_edited, ?_, ?_⟩
  · rintro x ⟨o, ho, hid, rfl⟩
    rw [htext (htidy.traced o ho).isName,
      horder.slice?_edited (e := ⟨t.span o.node, name⟩) (hmem.mpr ⟨o, ho, hid, rfl⟩)]
    rfl
  · intro x hx hno
    obtain ⟨hcut, hcut'⟩ := ht.cut x hx
    rw [htext hx, horder.slice?_kept hcut hcut' (ht.forward x hx), String.ofList_toList]
    · rfl
    · intro e he
      obtain ⟨o, ho, hid, rfl⟩ := hmem.mp he
      have hne : o.node ≠ x := fun he => hno ⟨o, ho, hid, he⟩
      exact ht.apart_spans (htidy.traced o ho).isName hx hne

variable {t' : Tree} {i k u : Nat} {stack : List ScopeId} {d : Declaration}

theorem text_eq (h : Renamed t s name t') (ht : t.IsProgram) (hg : t.Grammatical) {o : Occurrence}
    (ho : o ∈ (Walk.upTo t t.size).occurrences.toList) :
    t'.text o.node = if o.symbol = s.id then name else t.text o.node := by
  split
  next hid => exact h.text_new _ ⟨o, ho, hid, rfl⟩
  next hid =>
    have htidy := Walk.tidy_upTo ht (Nat.le_refl t.size)
    refine h.text_old _ (htidy.traced o ho).isName ?_
    rintro ⟨o', ho', hid', hn⟩
    exact hid (Walk.eq_of_node_eq ht hg (Nat.le_refl _) ho' ho hn ▸ hid')

/-- A constructor that could be hoisted as a method is, or it names the type it is in. -/
theorem constructor_of_hoistable (ht : t.IsProgram) (hg : t.Grammatical)
    (hr : (Walk.upTo t i).reached? t i = some stack) (ho : (t.opens? i).isSome)
    (hd : d ∈ t.hoistable i) (hmethod : d.kind = .method) (hk : (t.kind d.node).isConstructor) :
    t.childByField? d.node "name" = some d.name ∧ (d ∈ t.hoisted i ∨
      (t.kind i).isTypeDeclaration ∧ ∃ o ∈ (Walk.upTo t t.size).occurrences.toList,
        ∃ o' ∈ (Walk.upTo t t.size).occurrences.toList, o.kind = .declaration ∧
          t.childByField? i "name" = some o.node ∧ t.text o.node = t.text d.name ∧
          o'.node = d.name ∧ o'.symbol = o.symbol) := by
  have hh := Tree.hoists_of_mem_hoistable hd
  cases hh with
  | typeParameter _ _ _ _ _ kind => simp [hmethod] at kind
  | component _ _ _ _ _ kind => simp [hmethod] at kind
  | top _ _ _ _ kind => simp [hmethod] at kind
  | declarator _ _ _ _ _ kind => simp [hmethod] at kind
  | member member hname kind =>
    refine ⟨hname, ?_⟩
    obtain ⟨p, hp⟩ := ht.parent_of_mem (member.mem_ancestors ht.toInPreorder)
    have hms : d.node < t.size := ht.lt_size_of_parent hp
    have hf : (Walk.upTo t i).frame? t i = some ((Walk.upTo t i).scopes.size :: stack) := by
      simp [Walk.Trail.frame?, hr, ho]
    have hreach := member.reached ht.toInPreorder hg
      (fun he => by simp [he, NodeKind.isConstructor] at hk) hf
    have hext := Walk.upTo_extends ht (show d.node + 1 ≤ t.size from hms) (Nat.le_refl _)
    obtain ⟨y, m, kind'⟩ := d
    obtain rfl : kind' = .method := hmethod
    rcases Walk.constructor_outcome ht hk hname (hg.isHomeOf ht.toInPreorder member ho) hreach with
      hd | ⟨htype, o, hmem, o', hmem', hkind, hx, htext, -, -, hy, hsym⟩
    · exact Or.inl hd
    · exact Or.inr ⟨htype, o, hext.occurrences.subset hmem, o', hext.occurrences.subset hmem',
        hkind, hx, htext, hy, hsym⟩

/-- A constructor with the name of its type keeps it: both are renamed or none is. -/
theorem hoisted_subset (h : Renamed t s name t') (ht : t.IsProgram) (hg : t.Grammatical)
    (hr : (Walk.upTo t i).reached? t i = some stack) (ho : (t.opens? i).isSome) :
    t'.hoisted i ⊆ t.hoisted i := by
  intro d hd
  rw [Tree.hoisted_eq_filter, h.hoistable, List.mem_filter] at hd
  obtain ⟨hd, hkeep⟩ := hd
  by_cases hk : d.kind = .method ∧ (t.kind d.node).isConstructor
  · obtain ⟨-, hmem | ⟨htype, o, hmem, o', hmem', -, hx, htext, hy, hsym⟩⟩ :=
      constructor_of_hoistable ht hg hr ho hd hk.1 hk.2
    · exact hmem
    · have hsame : t'.text o.node = t'.text d.name := by
        rw [← hy, h.text_eq ht hg hmem, h.text_eq ht hg hmem', hsym, htext, hy]
      have hname : t'.typeName? i = some (t'.text d.name) := by
        simp [Tree.typeName?, h.kind, htype, h.childByField?, hx, hsame]
      simp [Tree.keeps, h.kind, hk, hname] at hkeep
  · rw [Tree.hoisted_eq_filter, List.mem_filter]
    refine ⟨hd, Tree.keeps_of_isCore ?_ _⟩
    simpa [Tree.isCore, imp_iff_not_or] using hk

def NotConstructor (t : Tree) (s : Symbol) : Prop :=
  ∀ o ∈ (Walk.upTo t t.size).occurrences.toList, o.symbol = s.id → o.kind = .declaration →
    ∀ m : NodeId, (t.kind m).isConstructor → t.childByField? m "name" ≠ some o.node

theorem hoisted_eq (h : Renamed t s name t') (ht : t.IsProgram) (hg : t.Grammatical)
    (hs : (Walk.upTo t t.size).symbols[s.id]? = some s) (hkind : s.kind = .method)
    (hctor : NotConstructor t s) (hi : i < t.size)
    (hr : (Walk.upTo t i).reached? t i = some stack) (ho : (t.opens? i).isSome) :
    t'.hoisted i = t.hoisted i := by
  have htidy := Walk.tidy_upTo ht (Nat.le_refl t.size)
  have hle : t.size ≤ t.size := Nat.le_refl _
  -- the name of the type is no name of a method
  have hx {o : Occurrence} (hmem : o ∈ (Walk.upTo t t.size).occurrences.toList)
      (hdecl : o.kind = .declaration) (htype : (t.kind i).isTypeDeclaration)
      (hname : t.childByField? i "name" = some o.node) : o.symbol ≠ s.id := by
    intro hid
    exact Walk.kind_of_type_name htidy ht.toInPreorder htype hmem hdecl hname (hid ▸ hs) hkind
  have htypeName : t'.typeName? i = t.typeName? i := by
    simp only [Tree.typeName?, h.kind, h.childByField?]
    split
    next htype =>
      cases hc : t.childByField? i "name" with
      | none => rfl
      | some x =>
        obtain ⟨o, hmem, hdecl, rfl⟩ := Walk.exists_declaration_of_type ht hi hr htype hc
        rw [Option.map_some, Option.map_some, h.text_eq ht hg hmem, if_neg (hx hmem hdecl htype hc)]
    next => rfl
  rw [Tree.hoisted_eq_filter, Tree.hoisted_eq_filter, h.hoistable, htypeName]
  refine List.filter_congr fun d hd => ?_
  by_cases hk : d.kind = .method ∧ (t.kind d.node).isConstructor
  · obtain ⟨hname, hout⟩ := constructor_of_hoistable ht hg hr ho hd hk.1 hk.2
    have hcallable := (NodeKind.isCallable_of_isConstructor hk.2).1
    have hisName : t.IsName d.name :=
      Or.inr (Or.inr ⟨d.node, by simp [Tree.isDeclaring, hcallable], hname⟩)
    -- the name of the constructor is that of another method or of the type
    have hy : ¬ (Walk.upTo t t.size).Names s.id d.name := by
      rintro ⟨o, hmem, hid, hnode⟩
      rcases hout with hd | ⟨htype, o', hmem', o'', hmem'', hdecl, hx', -, hy', hsym⟩
      · obtain ⟨o', hmem', hdecl, hnode'⟩ :=
          Walk.exists_declaration_of_hoisted ht hi hle hr ho hd
        obtain rfl := Walk.eq_of_node_eq ht hg hle hmem hmem' (hnode.trans hnode'.symm)
        exact hctor o hmem hid hdecl d.node hk.2 (hnode ▸ hname)
      · obtain rfl := Walk.eq_of_node_eq ht hg hle hmem hmem'' (hnode.trans hy'.symm)
        exact hx hmem' hdecl htype hx' (hsym.symm.trans hid)
    simp only [Tree.keeps, h.kind, h.text_old _ hisName hy]
  · have hcore : t.isCore d := by simpa [Tree.isCore, imp_iff_not_or] using hk
    have hcore' : t'.isCore d := by simpa [Tree.isCore, h.kind] using hcore
    rw [Tree.keeps_of_isCore hcore, Tree.keeps_of_isCore hcore']

end Renamed

end JavaRefactor
