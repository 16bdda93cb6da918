import JavaRefactor.Proofs.Errors
import Mathlib.Data.List.Sort

/-! # Trees that agree outside errors

Two trees may differ in what lies below their errors. Their other nodes then have different
numbers, but the same shape and the same texts. Everything that tells what such a node means
for names is the same in both trees, up to the numbers.
-/

namespace JavaRefactor

def Declaration.renumber (f : NodeId → NodeId) (d : Declaration) : Declaration :=
  ⟨f d.name, f d.node, d.kind⟩

def Role.renumber (f : NodeId → NodeId) : Role → Role
  | ignored => ignored
  | declares d => declares (d.renumber f)
  | uses target => uses target

namespace Tree

variable {f : NodeId → NodeId} {t t' : Tree} {i j p c m body : Nat}

/-- The map `f` leads from the nodes of one tree that lie below no error to those of the other,
in their order, and finds the same nodes there. -/
structure SameOutside (f : NodeId → NodeId) (t t' : Tree) : Prop where
  outer : ∀ i : Nat, t.IsOuter i → t'.IsOuter (f i)
  onto : ∀ j : Nat, t'.IsOuter j → ∃ i : Nat, t.IsOuter i ∧ f i = j
  mono : ∀ i j : Nat, t.IsOuter i → t.IsOuter j → i < j → f i < f j
  parent? : ∀ i : Nat, t.IsOuter i → t'.parent? (f i) = (t.parent? i).map f
  kind : ∀ i : Nat, t.IsOuter i → t'.kind (f i) = t.kind i
  span : ∀ i : Nat, t.IsOuter i → t'.span (f i) = t.span i
  field : ∀ i : Nat, t.IsOuter i → t'.field (f i) = t.field i
  isNamed : ∀ i : Nat, t.IsOuter i → t'.isNamed (f i) = t.isNamed i
  isError : ∀ i : Nat, t.IsOuter i → t'.isError (f i) = t.isError i
  text : ∀ i : Nat, t.IsOuter i → t.isError i = false → t.children i = [] →
    t'.text (f i) = t.text i

theorem IsOuter.parent_reached (hi : t.IsOuter i) (ht : t.InPreorder) (hp : t.parent? i = some p) :
    t.IsReached p := by
  refine ⟨Nat.lt_trans (ht.parent_lt hp) hi.1, ?_⟩
  rw [← ht.ancestors_of_parent hp]
  exact hi.2

theorem IsOuter.of_mem_ancestors (hi : t.IsOuter i) (ht : t.InPreorder) (hc : c ∈ t.ancestors i) :
    t.IsReached c := by
  obtain ⟨p, hp⟩ := ht.parent_of_mem hc
  have hpr := hi.parent_reached ht hp
  rcases (ht.mem_ancestors_iff hp).mp hc with rfl | hc
  · exact hpr
  · exact hpr.of_mem_ancestors ht hc

theorem IsProgram.isOuter_root (ht : t.IsProgram) : t.IsOuter root := by
  constructor
  · apply Nat.lt_of_not_le
    intro hs
    simpa [kind_of_size_le hs] using ht.program
  · simp [ht.ancestors_root]

namespace SameOutside

variable (h : SameOutside f t t') (ht : t.ErrorsApart) (ht' : t'.ErrorsApart)

include h in
theorem inj (hi : t.IsOuter i) (hj : t.IsOuter j) (he : f i = f j) : i = j := by
  rcases Nat.lt_trichotomy i j with hlt | rfl | hlt
  · exact absurd he (Nat.ne_of_lt (h.mono i j hi hj hlt))
  · rfl
  · exact absurd he.symm (Nat.ne_of_lt (h.mono j i hj hi hlt))

include h in
theorem eq_iff (hi : t.IsOuter i) (hj : t.IsOuter j) : f i = f j ↔ i = j :=
  ⟨h.inj hi hj, congrArg f⟩

include h in
theorem lt_iff (hi : t.IsOuter i) (hj : t.IsOuter j) : f i < f j ↔ i < j := by
  constructor
  · intro hlt
    rcases Nat.lt_or_ge i j with hij | hji
    · exact hij
    · rcases Nat.eq_or_lt_of_le hji with rfl | hji
      · exact absurd hlt (Nat.lt_irrefl _)
      · exact absurd (h.mono j i hj hi hji) (Nat.lt_asymm hlt)
  · exact h.mono i j hi hj

include h ht ht'

theorem map_root : f root = root := by
  obtain ⟨i, hi, hf⟩ := h.onto root ht'.isOuter_root
  rcases Nat.eq_zero_or_pos i with rfl | h0
  · exact hf
  · have := h.mono root i ht.isOuter_root hi h0
    rw [hf] at this
    exact absurd this (Nat.not_lt_zero _)

theorem eq_root_iff (hi : t.IsOuter i) : f i = root ↔ i = root := by
  rw [← h.eq_iff hi ht.isOuter_root, h.map_root ht ht']

theorem reached_iff (hi : t.IsOuter i) : t'.IsReached (f i) ↔ t.IsReached i := by
  rw [isReached_iff, isReached_iff, h.isError i hi, h.eq_root_iff ht ht' hi]
  exact and_congr_left fun _ => iff_of_true (h.outer i hi) hi

theorem reached (hi : t.IsReached i) : t'.IsReached (f i) :=
  (h.reached_iff ht ht' hi.isOuter).mpr hi

theorem ancestors (hi : t.IsOuter i) : t'.ancestors (f i) = (t.ancestors i).map f := by
  induction i using Nat.strongRecOn with
  | ind i ih =>
    cases hp : t.parent? i with
    | none =>
      have hp' : t'.parent? (f i) = none := by rw [h.parent? i hi, hp]; rfl
      have hnil : t.ancestors i = [] := List.head?_eq_none_iff.mp hp
      have hnil' : t'.ancestors (f i) = [] := List.head?_eq_none_iff.mp hp'
      rw [hnil, hnil', List.map_nil]
    | some p =>
      have hp' : t'.parent? (f i) = some (f p) := by rw [h.parent? i hi, hp]; rfl
      rw [ht.ancestors_of_parent hp, ht'.ancestors_of_parent hp', List.map_cons,
        ih p (ht.parent_lt hp) (hi.parent_reached ht.toInPreorder hp).isOuter]

omit ht ht' in
/-- Two lists of nodes below no error, both in the order of the numbers, correspond if their
members do. -/
theorem map_eq {l l' : List NodeId} (hl : l.Pairwise (· < ·)) (hl' : l'.Pairwise (· < ·))
    (hout : ∀ x ∈ l, t.IsOuter x) (hout' : ∀ x ∈ l', t'.IsOuter x)
    (hmem : ∀ x, t.IsOuter x → (f x ∈ l' ↔ x ∈ l)) : l' = l.map f := by
  have hmap : (l.map f).Pairwise (· < ·) :=
    List.pairwise_map.mpr (hl.imp_of_mem fun ha hb => h.mono _ _ (hout _ ha) (hout _ hb))
  refine hl'.eq_of_mem_iff hmap fun y => ?_
  rw [List.mem_map]
  constructor
  · intro hy
    obtain ⟨x, hx, rfl⟩ := h.onto y (hout' y hy)
    exact ⟨x, (hmem x hx).mp hy, rfl⟩
  · rintro ⟨x, hx, rfl⟩
    exact (hmem x (hout x hx)).mpr hx

theorem children (hi : t.IsReached i) : t'.children (f i) = (t.children i).map f := by
  refine h.map_eq (ht.sorted i) (ht'.sorted (f i))
    (fun x hx => hi.isOuter_of_child ht.toInPreorder hx)
    (fun x hx => (h.reached ht ht' hi).isOuter_of_child ht'.toInPreorder hx) fun x hx => ?_
  rw [ht.mem_children, ht'.mem_children, h.parent? x hx]
  refine and_congr (iff_of_true (h.outer x hx).1 hx.1) ?_
  constructor
  · intro hp
    obtain ⟨p, hp, he⟩ := Option.map_eq_some_iff.mp hp
    rw [hp, h.inj (hx.parent_reached ht.toInPreorder hp).isOuter hi.isOuter he]
  · intro hp
    rw [hp, Option.map_some]

theorem filter_children {q q' : NodeId → Bool} (hi : t.IsReached i)
    (hq : ∀ c, t.IsOuter c → q' (f c) = q c) :
    (t'.children (f i)).filter q' = ((t.children i).filter q).map f := by
  rw [h.children ht ht' hi, List.filter_map]
  exact congrArg _ (List.filter_congr fun c hc => hq c (hi.isOuter_of_child ht.toInPreorder hc))

theorem find?_children {q q' : NodeId → Bool} (hi : t.IsReached i)
    (hq : ∀ c, t.IsOuter c → q' (f c) = q c) :
    (t'.children (f i)).find? q' = ((t.children i).find? q).map f := by
  rw [← List.head?_filter, ← List.head?_filter, h.filter_children ht ht' hi hq, List.head?_map]

theorem childrenByField (hi : t.IsReached i) (name : String) :
    t'.childrenByField (f i) name = (t.childrenByField i name).map f :=
  h.filter_children ht ht' hi fun c hc => by rw [h.field c hc]

theorem childByField? (hi : t.IsReached i) (name : String) :
    t'.childByField? (f i) name = (t.childByField? i name).map f :=
  h.find?_children ht ht' hi fun c hc => by rw [h.field c hc]

theorem childOfKind? (hi : t.IsReached i) (kind : NodeKind) :
    t'.childOfKind? (f i) kind = (t.childOfKind? i kind).map f :=
  h.find?_children ht ht' hi fun c hc => by rw [h.kind c hc]

omit ht' in
theorem parentKind? (hi : t.IsOuter i) : t'.parentKind? (f i) = t.parentKind? i := by
  rw [Tree.parentKind?, Tree.parentKind?, h.parent? i hi, Option.map_map]
  refine Option.map_congr fun p hp => h.kind p ?_
  exact (hi.parent_reached ht.toInPreorder hp).isOuter

theorem opens? (hi : t.IsOuter i) : t'.opens? (f i) = t.opens? i := by
  have hroot : (if f i = root then some ScopeKind.file else none) =
      if i = root then some ScopeKind.file else none :=
    if_congr (h.eq_root_iff ht ht' hi) rfl rfl
  have hanon : t'.isAnonymousBody (f i) = t.isAnonymousBody i := by
    simp only [isAnonymousBody, h.parentKind? ht hi]
  have hcallable : t'.isCallableBody (f i) = t.isCallableBody i := by
    simp only [isCallableBody, h.parentKind? ht hi]
  simp only [Tree.opens?, h.kind i hi, hroot, hanon, hcallable]

omit ht' in
theorem text_name (hi : t.IsReached i) (hn : t.IsName i) : t'.text (f i) = t.text i :=
  h.text i hi.isOuter (ht.isError_of_isName hn) (ht.leaf i hn)

theorem declaration? (hi : t.IsReached i) (kind : SymbolKind) :
    t'.declaration? (f i) kind = (t.declaration? i kind).map (·.renumber f) := by
  rw [Tree.declaration?, Tree.declaration?, h.childByField? ht ht' hi, Option.map_map,
    Option.map_map]
  rfl

omit h ht ht' in
theorem filterMap_eq {l : List NodeId} {g g' : NodeId → Option Declaration}
    (hg : ∀ x ∈ l, g' (f x) = (g x).map (·.renumber f)) :
    (l.map f).filterMap g' = (l.filterMap g).map (·.renumber f) := by
  rw [List.filterMap_map, List.map_filterMap]
  exact List.filterMap_congr hg

theorem childrenOfKind (hi : t.IsReached i) (q : NodeKind → Bool) :
    (t'.namedChildren (f i)).filter (fun c => q (t'.kind c)) =
      ((t.namedChildren i).filter fun c => q (t.kind c)).map f := by
  rw [Tree.namedChildren, Tree.namedChildren, List.filter_filter, List.filter_filter]
  exact h.filter_children ht ht' hi fun c hc => by rw [h.kind c hc, h.isNamed c hc]

omit h ht' in
theorem reached_of_mem_childrenOfKind {q : NodeKind → Bool} (hi : t.IsReached i)
    (hq : q .error = false) (hc : c ∈ (t.namedChildren i).filter fun c => q (t.kind c)) :
    t.IsReached c := by
  simp only [Tree.namedChildren, List.mem_filter] at hc
  refine ht.reached_of_kind hi hc.1.1 fun hk => ?_
  simp [hk, hq] at hc

theorem typeParameters (hi : t.IsReached i) :
    t'.typeParameters (f i) = (t.typeParameters i).map (·.renumber f) := by
  unfold Tree.typeParameters
  rw [h.childByField? ht ht' hi]
  cases hc : t.childByField? i "type_parameters" with
  | none => rfl
  | some params =>
    have hparams := ht.reached_of_childByField? hi hc
    simp only [Option.map_some]
    rw [h.childrenOfKind ht ht' hparams (· == .typeParameter)]
    refine filterMap_eq fun p hp => ?_
    have hpr := reached_of_mem_childrenOfKind (q := (· == .typeParameter)) ht hparams rfl hp
    rw [h.childOfKind? ht ht' hpr, Option.map_map, Option.map_map]
    rfl

theorem recordComponents (hi : t.IsReached i) :
    t'.recordComponents (f i) = (t.recordComponents i).map (·.renumber f) := by
  unfold Tree.recordComponents
  rw [h.childByField? ht ht' hi]
  cases hc : t.childByField? i "parameters" with
  | none => rfl
  | some params =>
    have hparams := ht.reached_of_childByField? hi hc
    simp only [Option.map_some]
    rw [h.childrenOfKind ht ht' hparams (· == .formalParameter)]
    refine filterMap_eq fun p hp => ?_
    have hpr := reached_of_mem_childrenOfKind (q := (· == .formalParameter)) ht hparams rfl hp
    exact h.declaration? ht ht' hpr _

theorem isMember_iff (hb : t.IsReached body) (hm : t.IsOuter m) :
    t'.isMember (f body) (f m) ↔ t.isMember body m := by
  have hout (a : NodeId) (ha : a ∈ t.ancestors m) : t.IsOuter a :=
    (hm.of_mem_ancestors ht.toInPreorder ha).isOuter
  rw [Tree.isMember_iff, Tree.isMember_iff, h.isNamed m hm, h.ancestors ht ht' hm]
  refine and_congr_right fun _ => ?_
  constructor
  · rintro ⟨between', rest', he, hall⟩
    obtain ⟨between, l, hl, rfl, hrest⟩ := List.map_eq_append_iff.mp he
    obtain ⟨b, rest, rfl, hfb, -⟩ := List.map_eq_cons_iff.mp hrest
    obtain rfl : b = body := h.inj (hout b (by simp [hl])) hb.isOuter hfb
    refine ⟨between, rest, hl, fun a ha => ?_⟩
    have hao := hout a (by simp [hl, ha])
    rw [← h.isNamed a hao, ← h.kind a hao]
    exact hall (f a) (List.mem_map_of_mem ha)
  · rintro ⟨between, rest, hl, hall⟩
    refine ⟨between.map f, rest.map f, by simp [hl], fun a' ha' => ?_⟩
    obtain ⟨a, ha, rfl⟩ := List.mem_map.mp ha'
    have hao := hout a (by simp [hl, ha])
    rw [h.isNamed a hao, h.kind a hao]
    exact hall a ha

theorem members (hb : t.IsReached body) : t'.members (f body) = (t.members body).map f := by
  have hmem {t : Tree} {b x : NodeId} : x ∈ t.members b ↔ x < t.size ∧ t.isMember b x := by
    simp [Tree.members, ids]
  refine h.map_eq (List.pairwise_lt_range.filter _) (List.pairwise_lt_range.filter _)
    (fun x hx => ht.isOuter_of_isMember hb (hmem.mp hx).2)
    (fun x hx => ht'.isOuter_of_isMember (h.reached ht ht' hb) (hmem.mp hx).2) fun x hx => ?_
  rw [hmem, hmem, h.isMember_iff ht ht' hb hx]
  exact and_congr_left fun _ => iff_of_true (h.outer x hx).1 hx.1

theorem memberDeclarations (hm : t.IsOuter m) (typeName : Option String) :
    t'.memberDeclarations typeName (f m) =
      (t.memberDeclarations typeName m).map (·.renumber f) := by
  by_cases hk : t.kind m = .error
  · simp only [Tree.memberDeclarations, h.kind m hm, hk, List.map_nil]
  have hr : t.IsReached m := hm.reached (ht.isError_of_kind hk)
  have hown (kind : SymbolKind) : (t'.declaration? (f m) kind).toList =
      (t.declaration? m kind).toList.map (·.renumber f) := by
    rw [h.declaration? ht ht' hr]
    cases t.declaration? m kind <;> rfl
  have hdeclarators :
      (t'.childrenByField (f m) "declarator").filterMap (t'.declaration? · .field) =
      ((t.childrenByField m "declarator").filterMap (t.declaration? · .field)).map
        (·.renumber f) := by
    rw [h.childrenByField ht ht' hr]
    refine filterMap_eq fun c hc => h.declaration? ht ht' ?_ _
    obtain ⟨hc, hfield⟩ := List.mem_filter.mp hc
    exact ht.reached_of_field hr hc (by simpa using hfield)
  have hmethod (hk : (t.kind m).isConstructor) : (t'.declaration? (f m) .method).toList.filter
        (fun d => typeName != some (t'.text d.name)) =
      ((t.declaration? m .method).toList.filter fun d => typeName != some (t.text d.name)).map
        (·.renumber f) := by
    rw [hown, List.filter_map]
    refine congrArg _ (List.filter_congr fun d hd => ?_)
    obtain ⟨hname, -⟩ := declaration?_eq_some_iff.mp (Option.mem_toList.mp hd)
    have hn : t.IsName d.name := Or.inr (Or.inr ⟨m, by
      simp [isDeclaring, (NodeKind.isCallable_of_isConstructor hk).1], hname⟩)
    exact congrArg (typeName != some ·) (h.text_name ht (ht.reached_of_childByField? hr hname) hn)
  unfold Tree.memberDeclarations
  rw [h.kind m hm]
  split
  case h_1 | h_2 => exact hdeclarators
  case h_5 hk | h_6 hk => exact hmethod (by rw [hk]; rfl)
  case h_13 => rfl
  all_goals exact hown _

theorem bodyDeclarations (hb : t.IsReached body) (typeName : Option String) :
    t'.bodyDeclarations typeName (f body) =
      (t.bodyDeclarations typeName body).map (·.renumber f) := by
  rw [Tree.bodyDeclarations, Tree.bodyDeclarations, h.members ht ht' hb, List.flatMap_map,
    List.map_flatMap]
  refine List.flatMap_congr fun m hm => h.memberDeclarations ht ht' ?_ typeName
  exact ht.isOuter_of_isMember hb (List.mem_filter.mp hm).2

theorem typeDeclarations (hi : t.IsReached i) (hk : (t.kind i).isTypeDeclaration) :
    t'.typeDeclarations (f i) = (t.typeDeclarations i).map (·.renumber f) := by
  have hname : (t'.childByField? (f i) "name").map t'.text =
      (t.childByField? i "name").map t.text := by
    rw [h.childByField? ht ht' hi, Option.map_map]
    refine Option.map_congr fun name hn => ?_
    refine h.text_name ht (ht.reached_of_childByField? hi hn) (Or.inr (Or.inr ⟨i, ?_, hn⟩))
    simp [isDeclaring, hk]
  simp only [Tree.typeDeclarations, hname, h.kind i hi.isOuter, h.typeParameters ht ht' hi,
    h.recordComponents ht ht' hi, h.childByField? ht ht' hi "body", List.map_append]
  congr 1
  · congr 1
    split <;> rfl
  · cases hb : t.childByField? i "body" with
    | none => rfl
    | some body => exact h.bodyDeclarations ht ht' (ht.reached_of_childByField? hi hb) _

theorem hoisted (hi : t.IsReached i) : t'.hoisted (f i) = (t.hoisted i).map (·.renumber f) := by
  unfold Tree.hoisted
  rw [h.kind i hi.isOuter]
  split
  case h_1 =>
    rw [h.childrenOfKind ht ht' hi NodeKind.isTypeDeclaration]
    refine filterMap_eq fun c hc => h.declaration? ht ht' ?_ _
    exact reached_of_mem_childrenOfKind ht hi rfl hc
  case h_2 hk | h_3 hk | h_4 hk | h_5 hk | h_6 hk =>
    exact h.typeDeclarations ht ht' hi (by rw [hk]; rfl)
  case h_7 => exact h.bodyDeclarations ht ht' hi none
  case h_8 | h_9 | h_10 => exact h.typeParameters ht ht' hi
  case h_11 => rfl

theorem ownDeclaration? (hi : t.IsReached i) :
    t'.ownDeclaration? (f i) = (t.ownDeclaration? i).map (·.renumber f) := by
  unfold Tree.ownDeclaration?
  rw [h.kind i hi.isOuter]
  split
  · exact h.declaration? ht ht' hi .type
  · split
    · exact h.declaration? ht ht' hi .method
    · rfl

theorem isOnThis (hi : t.IsReached i) : t'.isOnThis (f i) = t.isOnThis i := by
  unfold Tree.isOnThis
  rw [h.childByField? ht ht' hi]
  cases hc : t.childByField? i "object" with
  | none => rfl
  | some object =>
    exact congrArg (· == .this) (h.kind object (ht.reached_of_childByField? hi hc).isOuter)

theorem head?_children (hp : t.IsReached p) (hi : t.IsOuter i) :
    ((t'.children (f p)).head? == some (f i)) = ((t.children p).head? == some i) := by
  rw [h.children ht ht' hp, List.head?_map]
  cases hc : (t.children p).head? with
  | none => rfl
  | some c =>
    have hco := hp.isOuter_of_child ht.toInPreorder (List.mem_of_head? hc)
    rw [Option.map_some, Bool.eq_iff_iff, beq_iff_eq, beq_iff_eq, Option.some.injEq,
      Option.some.injEq]
    exact h.eq_iff hco hi

omit ht' in
theorem localDeclaration? (hi : t.IsOuter i) (hp : t.IsOuter p) :
    t'.localDeclaration? (f i) (f p) = (t.localDeclaration? i p).map (·.renumber f) := by
  unfold Tree.localDeclaration?
  rw [h.kind p hp, h.field i hi, h.parentKind? ht hp]
  split
  case h_1 => split <;> rfl
  all_goals rfl

theorem useRole (hi : t.IsOuter i) (hp : t.IsReached p) :
    t'.useRole (f i) (f p) = (t.useRole i p).renumber f := by
  unfold Tree.useRole
  rw [h.kind p hp.isOuter, h.field i hi, h.isOnThis ht ht' hp, h.head?_children ht ht' hp hi,
    h.childByField? ht ht' hp]
  cases t.childByField? p "object" with
  | none =>
    simp only [Option.map_none]
    repeat' split
    all_goals rfl
  | some object =>
    simp only [Option.map_some]
    repeat' split
    all_goals rfl

theorem role (hi : t.IsReached i) : t'.role (f i) = (t.role i).renumber f := by
  unfold Tree.role
  rw [h.kind i hi.isOuter]
  split
  · unfold Tree.identifierRole
    rw [h.parent? i hi.isOuter]
    cases hp : t.parent? i with
    | none => rfl
    | some p =>
      have hpr := hi.of_parent ht.toInPreorder hp
      simp only [Option.map_some]
      rw [h.localDeclaration? ht hi.isOuter hpr.isOuter]
      cases t.localDeclaration? i p with
      | none => exact h.useRole ht ht' hi.isOuter hpr
      | some d => rfl
  · unfold Tree.typeIdentifierRole
    rw [h.parent? i hi.isOuter]
    cases hp : t.parent? i with
    | none => rfl
    | some p =>
      have hpr := hi.of_parent ht.toInPreorder hp
      have hhead : ((t'.children (f p)).head? != some (f i)) = ((t.children p).head? != some i) :=
        congrArg (!·) (h.head?_children ht ht' hpr hi.isOuter)
      simp only [Option.map_some]
      rw [h.kind p hpr.isOuter, hhead]
      split <;> rfl
  · rfl

end SameOutside

def AgreesAt (f : NodeId → NodeId) (t t' : Tree) (i : NodeId) : Prop :=
  t'.IsOuter (f i) ∧ t'.parent? (f i) = (t.parent? i).map f ∧ t'.kind (f i) = t.kind i ∧
    t'.span (f i) = t.span i ∧ t'.field (f i) = t.field i ∧ t'.isNamed (f i) = t.isNamed i ∧
    t'.isError (f i) = t.isError i ∧
    (t.isError i = false → t.children i = [] → t'.text (f i) = t.text i)

instance (f : NodeId → NodeId) (t t' : Tree) (i : NodeId) : Decidable (AgreesAt f t t' i) :=
  inferInstanceAs (Decidable (_ ∧ _ ∧ _ ∧ _ ∧ _ ∧ _ ∧ _ ∧ _))

theorem sameOutside_of_agreesAt (agree : ∀ i ∈ t.ids, t.IsOuter i → AgreesAt f t t' i)
    (onto : ∀ j ∈ t'.ids, t'.IsOuter j → ∃ i ∈ t.ids, t.IsOuter i ∧ f i = j)
    (mono : ((t.ids.filter (t.IsOuter ·)).map f).Pairwise (· < ·)) : SameOutside f t t' := by
  have hids {t : Tree} {i : Nat} (hi : t.IsOuter i) : i ∈ t.ids := List.mem_range.mpr hi.1
  have hat (i : Nat) (hi : t.IsOuter i) : AgreesAt f t t' i := agree i (hids hi) hi
  constructor
  case outer => exact fun i hi => (hat i hi).1
  case onto =>
    intro j hj
    obtain ⟨i, -, hi⟩ := onto j (hids hj) hj
    exact ⟨i, hi⟩
  case mono =>
    intro i j hi hj hij
    have hpair : [i, j].Pairwise (· < ·) := by simp [hij]
    have hsub : [i, j].Sublist (t.ids.filter (t.IsOuter ·)) := by
      refine List.sublist_of_subperm_of_pairwise (List.subperm_of_subset hpair.nodup ?_) hpair
        (List.pairwise_lt_range.filter _)
      simp [hids hi, hids hj, hi, hj]
    exact List.rel_of_pairwise_cons (mono.sublist (hsub.map f)) List.mem_cons_self
  case parent? => exact fun i hi => (hat i hi).2.1
  case kind => exact fun i hi => (hat i hi).2.2.1
  case span => exact fun i hi => (hat i hi).2.2.2.1
  case field => exact fun i hi => (hat i hi).2.2.2.2.1
  case isNamed => exact fun i hi => (hat i hi).2.2.2.2.2.1
  case isError => exact fun i hi => (hat i hi).2.2.2.2.2.2.1
  case text => exact fun i hi => (hat i hi).2.2.2.2.2.2.2

end Tree

end JavaRefactor
