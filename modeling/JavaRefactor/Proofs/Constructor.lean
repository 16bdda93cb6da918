import JavaRefactor.Proofs.Grammar

/-! # Names of constructors

A constructor is a member of a type. Either its name is not that of the type, and the type
hoists it as a method, or its name becomes an occurrence of the type when it is visited.
-/

namespace JavaRefactor

namespace Walk

variable {t : Tree} {i j k m p x y : Nat} {stack outer : List ScopeId} {d : Declaration}

theorem reached?_of_parent (ht : t.InPreorder) (hp : t.parent? j = some p)
    (hr : (upTo t j).reached? t j = some stack) : (upTo t p).frame? t p = some stack :=
  (outside_upTo ht hp).symm.trans (outside_of_reached? hr)

theorem frame?_of_ancestors (ht : t.InPreorder) {l rest : List NodeId}
    (hl : ∀ a ∈ l, t.opens? a = none) :
    ∀ {j : Nat}, t.ancestors j = l ++ i :: rest → (upTo t j).reached? t j = some stack →
      (upTo t i).frame? t i = some stack := by
  induction l with
  | nil =>
    intro j hj hr
    exact reached?_of_parent ht (Tree.parent?_eq_some_iff.mpr ⟨rest, hj⟩) hr
  | cons a l ih =>
    intro j hj hr
    have hp : t.parent? j = some a := Tree.parent?_eq_some_iff.mpr ⟨_, hj⟩
    have hf := reached?_of_parent ht hp hr
    obtain ⟨stack', hr', he⟩ := Option.map_eq_some_iff.mp hf
    rw [hl a List.mem_cons_self] at he
    obtain rfl : stack' = stack := by simpa using he
    refine ih (fun b hb => hl b (List.mem_cons_of_mem _ hb)) ?_ hr'
    exact (List.cons.inj ((ht.ancestors_of_parent hp).symm.trans hj)).2

theorem reached?_eq_frame? (ht : t.InPreorder) (hp : t.parent? j = some p)
    (he : t.isError j = false) : (upTo t j).reached? t j = (upTo t p).frame? t p := by
  simp [Trail.reached?, he, outside_upTo ht hp]

theorem reached?_of_ancestors (ht : t.InPreorder) {l rest : List NodeId}
    (hl : ∀ a ∈ l, t.opens? a = none ∧ t.isError a = false) :
    ∀ {j : Nat}, t.ancestors j = l ++ i :: rest → t.isError j = false →
      (upTo t i).frame? t i = some stack → (upTo t j).reached? t j = some stack := by
  induction l with
  | nil =>
    intro j hj he hf
    rw [reached?_eq_frame? ht (Tree.parent?_eq_some_iff.mpr ⟨rest, hj⟩) he, hf]
  | cons a l ih =>
    intro j hj he hf
    have hp : t.parent? j = some a := Tree.parent?_eq_some_iff.mpr ⟨_, hj⟩
    obtain ⟨hopen, herror⟩ := hl a List.mem_cons_self
    have ha : t.ancestors a = l ++ i :: rest :=
      (List.cons.inj ((ht.ancestors_of_parent hp).symm.trans hj)).2
    rw [reached?_eq_frame? ht hp he, Trail.frame?,
      ih (fun b hb => hl b (List.mem_cons_of_mem _ hb)) ha herror hf]
    simp [hopen]

theorem frame?_of_opens (ho : (t.opens? i).isSome) (h : (upTo t i).frame? t i = some stack) :
    ∃ outer, (upTo t i).reached? t i = some outer ∧ stack = (upTo t i).scopes.size :: outer := by
  obtain ⟨outer, hr, he⟩ := Option.map_eq_some_iff.mp h
  rw [if_pos ho] at he
  exact ⟨outer, hr, he.symm⟩

end Walk

namespace Tree

variable {t : Tree} {i m : Nat}

theorem opens?_body (hk : (t.kind m).isTypeBody) (hp : t.parent? m = some i)
    (hi : (t.kind i).isTypeDeclaration) : t.opens? m = none := by
  have hanon := not_isAnonymousBody hp hi
  cases hkm : t.kind m <;> simp [hkm, NodeKind.isTypeBody] at hk <;> simp [opens?, hkm, hanon]

theorem Grammatical.isError_of_kind (h : t.Grammatical) (hk : t.kind i ≠ .error) :
    t.isError i = false := by
  by_contra he
  exact hk (h.errorKind i (by simpa using he))

/-- Between a body and its members stand only groups of members, which open no scopes. -/
theorem ancestors_of_isMember {body : NodeId} (hm : t.isMember body m) :
    ∃ l rest, t.ancestors m = l ++ body :: rest ∧
      ∀ a ∈ l, (t.kind a).isTypeBody ∧ t.opens? a = none := by
  obtain ⟨-, between, rest, he, hall⟩ := isMember_iff.mp hm
  refine ⟨between, rest, he, fun a ha => ?_⟩
  have hk := (hall a ha).2
  exact ⟨by rw [hk]; rfl, by simp [opens?, hk]⟩

theorem ancestors_of_bodyMember (ht : t.InPreorder) {body : NodeId} (hm : t.isMember body m)
    (hi : (t.kind i).isTypeDeclaration) (hb : t.childByField? i "body" = some body)
    (hk : (t.kind body).isTypeBody) :
    ∃ l rest, t.ancestors m = l ++ i :: rest ∧
      ∀ a ∈ l, (t.kind a).isTypeBody ∧ t.opens? a = none := by
  have hp := ht.parent_of_childByField? hb
  obtain ⟨between, rest, he, hall⟩ := ancestors_of_isMember hm
  refine ⟨between ++ [body], t.ancestors i, ?_, fun a ha => ?_⟩
  · rw [he, ht.ancestors_of_append he, ht.ancestors_of_parent hp]
    simp
  · rcases List.mem_append.mp ha with ha | ha
    · exact hall a ha
    · rw [List.mem_singleton.mp ha]
      exact ⟨hk, opens?_body hk hp hi⟩

theorem HoistsMember.ancestors_eq (hm : t.HoistsMember i m) (ht : t.InPreorder)
    (h : t.Grammatical) : ∃ l rest, t.ancestors m = l ++ i :: rest ∧
      ∀ a ∈ l, t.opens? a = none ∧ t.isError a = false := by
  have hbetween {a : Nat} (ha : (t.kind a).isTypeBody ∧ t.opens? a = none) :
      t.opens? a = none ∧ t.isError a = false := by
    refine ⟨ha.2, h.isError_of_kind fun hk => ?_⟩
    simp [hk, NodeKind.isTypeBody] at ha
  obtain ⟨body, hmember, ⟨hk, hb⟩ | ⟨-, rfl⟩⟩ := hm
  · obtain ⟨l, rest, he, hl⟩ :=
      ancestors_of_bodyMember ht hmember hk hb (h.typesHaveBodies i body hk hb)
    exact ⟨l, rest, he, fun a ha => hbetween (hl a ha)⟩
  · obtain ⟨l, rest, he, hl⟩ := ancestors_of_isMember hmember
    exact ⟨l, rest, he, fun a ha => hbetween (hl a ha)⟩

/-- The node `i` opens the scope that `m` is a member of, and no other node does. -/
structure IsHomeOf (t : Tree) (i m : NodeId) : Prop where
  member : t.HoistsMember i m
  opens : (t.opens? i).isSome
  body : ∃ p : Nat, t.parent? m = some p ∧ (t.kind p).isTypeBody
  between : ∃ l rest, t.ancestors m = l ++ i :: rest ∧ ∀ a ∈ l, t.opens? a = none
  unique : ∀ j : Nat, t.HoistsMember j m → (t.opens? j).isSome → j = i

theorem Grammatical.isHomeOf (h : t.Grammatical) (ht : t.InPreorder) (hm : t.HoistsMember i m)
    (ho : (t.opens? i).isSome) : t.IsHomeOf i m where
  member := hm
  opens := ho
  body := h.typesHaveBodies.parent_of_member hm
  between := by
    obtain ⟨l, rest, he, hl⟩ := hm.ancestors_eq ht h
    exact ⟨l, rest, he, fun a ha => (hl a ha).1⟩
  unique _ hm' ho' := member_unique ht h.typesHaveBodies hm' hm ho' ho

theorem IsHomeOf.lt (h : t.IsHomeOf i m) (ht : t.InPreorder) : i < m :=
  ht.lt_of_mem_ancestors (h.member.mem_ancestors ht)

theorem IsHomeOf.lt_size (h : t.IsHomeOf i m) (ht : t.InPreorder) : m < t.size := by
  obtain ⟨p, hp, -⟩ := h.body
  exact ht.lt_size_of_parent hp

theorem IsHomeOf.frame (h : t.IsHomeOf i m) (ht : t.InPreorder) {stack : List ScopeId}
    (hr : (Walk.upTo t m).reached? t m = some stack) :
    (Walk.upTo t i).frame? t i = some stack := by
  obtain ⟨l, rest, he, hl⟩ := h.between
  exact Walk.frame?_of_ancestors ht hl he hr

theorem HoistsMember.reached (hm : t.HoistsMember i m) (ht : t.InPreorder) (h : t.Grammatical)
    {stack : List ScopeId} (hk : t.kind m ≠ .error)
    (hf : (Walk.upTo t i).frame? t i = some stack) :
    (Walk.upTo t m).reached? t m = some stack := by
  obtain ⟨l, rest, he, hl⟩ := hm.ancestors_eq ht h
  exact Walk.reached?_of_ancestors ht hl he (h.isError_of_kind hk) hf

def typeName? (t : Tree) (i : NodeId) : Option String :=
  if (t.kind i).isTypeDeclaration then (t.childByField? i "name").map t.text else none

/-- What a node would hoist if no constructor had the name of its type. -/
def hoistable (t : Tree) (i : NodeId) : List Declaration :=
  if (t.kind i).isTypeDeclaration then
    t.typeParameters i ++ (if t.kind i == .recordDeclaration then t.recordComponents i else []) ++
      (t.childByField? i "body").elim [] (t.bodyDeclarations none)
  else t.hoisted i

def keeps (t : Tree) (typeName : Option String) (d : Declaration) : Bool :=
  !(d.kind == .method && (t.kind d.node).isConstructor && typeName == some (t.text d.name))

theorem memberDeclarations_eq_filter (typeName : Option String) (m : NodeId) :
    t.memberDeclarations typeName m = (t.memberDeclarations none m).filter (t.keeps typeName) := by
  have hkeep (hm : (t.kind m).isConstructor = false) : ∀ d ∈ t.memberDeclarations none m,
      t.keeps typeName d := by
    intro d hd
    rcases (mem_memberDeclarations hd).2 with ⟨rfl, -⟩ | ⟨-, -, -, hk⟩
    · simp [keeps, hm]
    · simp [keeps, hk]
  cases hk : t.kind m
  case constructorDeclaration | compactConstructorDeclaration =>
    simp only [memberDeclarations, hk]
    rw [List.filter_filter]
    refine List.filter_congr fun d hd => ?_
    obtain ⟨-, rfl, hkind⟩ := declaration?_eq_some_iff.mp (Option.mem_toList.mp hd)
    simp [keeps, hkind, hk, NodeKind.isConstructor, bne]
  all_goals
    rw [List.filter_eq_self.mpr (hkeep (by rw [hk]; rfl))]
    simp [memberDeclarations, hk]

theorem bodyDeclarations_eq_filter (typeName : Option String) (body : NodeId) :
    t.bodyDeclarations typeName body =
      (t.bodyDeclarations none body).filter (t.keeps typeName) := by
  simp only [bodyDeclarations, List.filter_flatMap]
  congr 1
  funext m
  exact memberDeclarations_eq_filter typeName m

theorem keeps_of_kind {typeName : Option String} {l : List Declaration}
    (h : ∀ d ∈ l, d.kind ≠ .method) : l.filter (t.keeps typeName) = l :=
  List.filter_eq_self.mpr fun d hd => by simp [keeps, h d hd]

theorem kind_of_mem_typeParameters {d : Declaration} (h : d ∈ t.typeParameters i) :
    d.kind = .type := by
  unfold typeParameters at h
  split at h
  · simp at h
  · obtain ⟨p, -, hd⟩ := List.mem_filterMap.mp h
    obtain ⟨name, -, rfl⟩ := Option.map_eq_some_iff.mp hd
    rfl

theorem kind_of_mem_recordComponents {d : Declaration} (h : d ∈ t.recordComponents i) :
    d.kind = .field := by
  unfold recordComponents at h
  split at h
  · simp at h
  · obtain ⟨p, -, hd⟩ := List.mem_filterMap.mp h
    exact (declaration?_eq_some_iff.mp hd).2.2

/-- A node hoists all it can but the constructors that have the name of its type. -/
theorem hoisted_eq_filter (i : NodeId) :
    t.hoisted i = (t.hoistable i).filter (t.keeps (t.typeName? i)) := by
  by_cases hk : (t.kind i).isTypeDeclaration
  · have htype : t.hoisted i = t.typeDeclarations i := by
      cases hki : t.kind i <;> simp [hki, NodeKind.isTypeDeclaration] at hk <;> simp [hoisted, hki]
    have hparams : ∀ d ∈ t.typeParameters i, d.kind ≠ .method := fun d hd => by
      simp [kind_of_mem_typeParameters hd]
    have hcomponents : ∀ d ∈ (if t.kind i == .recordDeclaration then t.recordComponents i else []),
        d.kind ≠ .method := by
      intro d hd
      split at hd
      · simp [kind_of_mem_recordComponents hd]
      · simp at hd
    rw [htype, hoistable, if_pos hk, List.filter_append, List.filter_append, keeps_of_kind hparams,
      keeps_of_kind hcomponents, typeDeclarations, typeName?, if_pos hk]
    congr 1
    cases t.childByField? i "body" with
    | none => rfl
    | some body => exact bodyDeclarations_eq_filter _ body
  · have hnone : t.typeName? i = none := by simp [typeName?, hk]
    have hkeep : t.keeps none = fun _ => true := by
      funext d
      simp [keeps]
    simp [hnone, hkeep, hoistable, hk]

theorem hoists_of_mem_hoistable {d : Declaration} (h : d ∈ t.hoistable i) : t.Hoists i d := by
  unfold hoistable at h
  split at h
  next hk =>
    rcases List.mem_append.mp h with h | h
    · rcases List.mem_append.mp h with h | h
      · exact hoists_of_mem_typeParameters (Or.inl hk) h
      · split at h
        next hr => exact hoists_of_mem_recordComponents (beq_iff_eq.mp hr) h
        next => simp at h
    · cases hb : t.childByField? i "body" with
      | none => simp [hb] at h
      | some body =>
        rw [hb] at h
        exact hoists_of_mem_body (Or.inl ⟨hk, hb⟩) h
  next => exact hoists_of_mem_hoisted h

theorem mem_hoistable_constructor {y : NodeId} {m : Nat} (hm : t.HoistsMember i m)
    (hms : m < t.size) (hk : (t.kind m).isConstructor) (hy : t.childByField? m "name" = some y) :
    ⟨y, m, .method⟩ ∈ t.hoistable i := by
  obtain ⟨body, hmember, hbody⟩ := hm
  have hmem : (⟨y, m, .method⟩ : Declaration) ∈ t.bodyDeclarations none body := by
    refine List.mem_flatMap.mpr ⟨m, List.mem_filter.mpr ⟨List.mem_range.mpr hms, hmember⟩, ?_⟩
    have hd : t.declaration? m .method = some ⟨y, m, .method⟩ :=
      declaration?_eq_some_iff.mpr ⟨hy, rfl, rfl⟩
    cases hkm : t.kind m <;> simp [hkm, NodeKind.isConstructor] at hk <;>
      simp [memberDeclarations, hkm, hd]
  rcases hbody with ⟨hki, hb⟩ | ⟨hki, rfl⟩
  · simp [hoistable, hki, hb, hmem]
  · simp [hoistable, hki, NodeKind.isTypeDeclaration, hoisted, hmem]

end Tree

namespace Walk

variable {t : Tree} {w : Walk} {v : Trail} {i m u x y scope : Nat} {stack outer : List ScopeId}
  {d : Declaration} {target : Target}

theorem foldl_declare_extends {l : List Declaration} (hstack : current stack < w.scopes.size) :
    Extends w (l.foldl (declare t stack) w) := by
  induction l generalizing w with
  | nil => exact Extends.refl w
  | cons d l ih =>
    have hd := declare_declared (t := t) (d := d) hstack
    exact hd.extends.trans (ih (hd.scopes_eq ▸ hstack))

theorem declaredBy?_announce (hstack : t.kind i ≠ .program → current stack < w.scopes.size)
    (hd : t.ownDeclaration? i = some d) : ((w.announce t stack i).declaredBy? i).isSome := by
  have hkind := Tree.kind_of_ownDeclaration? hd
  rw [announce_eq, (Tree.ownDeclaration?_eq_some hd).2.2.2.1, hd]
  simp only [Bool.false_eq_true, if_false, Option.elim_some]
  split
  next h => exact h
  next =>
    have hlt := hstack fun he => by simp [he, NodeKind.isTypeDeclaration] at hkind
    exact (declare_declared hlt).declaredBy?_isSome.mpr
      (Or.inl (Tree.ownDeclaration?_eq_some hd).2.1.symm)

theorem foldl_declare_declaredBy? {l : List Declaration} (hstack : current stack < w.scopes.size)
    (hl : ∀ d ∈ l, d.node ≠ i) :
    (l.foldl (declare t stack) w).declaredBy? i = w.declaredBy? i := by
  induction l generalizing w with
  | nil => rfl
  | cons d l ih =>
    have hd := declare_declared (t := t) (d := d) hstack
    rw [List.foldl_cons,
      ih (hd.scopes_eq ▸ hstack) fun d' hd' => hl d' (List.mem_cons_of_mem _ hd'),
      hd.declaredBy?_of_ne (hl d List.mem_cons_self).symm]

theorem visit_owner (ht : t.IsProgram) (hi : i < t.size) (hv : Framed i v) (h : Tidy t i v)
    {kind : ScopeKind} (hr : v.reached? t i = some outer) (ho : t.opens? i = some kind)
    (hk : (t.kind i).isTypeDeclaration) (hd : t.ownDeclaration? i = some d) :
    ∃ o ∈ (visit t v i).occurrences.toList, o.kind = .declaration ∧ o.node = d.name ∧
      (visit t v i).declaredBy? i = some o.symbol ∧
      ∃ s, (visit t v i).scopes[v.scopes.size]? = some s ∧ s.kind = kind ∧
        s.owner = some o.symbol := by
  have hstack := hv.current_lt ht hi hr
  have hann : Tidy t (i + 1) (v.announce t outer i) :=
    announce_preserves hv.toAccounted ht.toInPreorder hstack
      (fun hd h' h => h.declared ht.toInPreorder hd h') (fun hr h => h.records hr)
      (h.congr (Nat.le_succ i) rfl rfl rfl rfl)
  obtain ⟨id, hid⟩ := Option.isSome_iff_exists.mp (declaredBy?_announce hstack hd)
  obtain ⟨o, ho', rfl, hkind, j, d', -, hmake, rfl, hname⟩ := hann.listed_of_declaredBy? hid
  have hinner : current (v.scopes.size :: outer) < (v.opened t outer d'.node kind).scopes.size := by
    simp [current, opened, openScope, announce_scopes]
  refine ⟨o, ?_, hkind, hname ▸ hmake.name_eq_own hd, ?_,
    (v.announce t outer d'.node).newScope t outer d'.node kind, ?_, rfl, ?_⟩
  · rw [visit_of_opens hr ho]
    exact (foldl_declare_extends (w := v.opened t outer d'.node kind) hinner).occurrences.subset ho'
  · rw [visit_of_opens hr ho]
    refine (foldl_declare_declaredBy? hinner fun e he => ?_).trans hid
    exact Nat.ne_of_gt (Outline.lt_of_mem_hoisted ht.toInPreorder he).1
  · rw [visit_scopes_of_opens hr ho, Array.getElem?_push_size]
  · simp [newScope, hk, hid]

theorem visit_declaredBy? {k : Nat} (ht : t.IsProgram) (hk : k < t.size) (hv : Framed k v)
    (hi : (t.kind i).isTypeDeclaration) (hik : i < k) :
    (visit t v k).declaredBy? i = v.declaredBy? i := by
  refine visit_preserves (P := fun w => w.declaredBy? i = v.declaredBy? i) ht hk hv
    (fun _ _ _ h => h) (fun _ _ _ _ h => h) (fun hd hd' h => ?_) (fun _ h => h) rfl
  rw [hd'.declaredBy?_of_ne (hd.makes.node_ne_type ht.toInPreorder hi hik).symm, h]

theorem declaredBy?_upTo {k : Nat} (ht : t.IsProgram) (hi : (t.kind i).isTypeDeclaration)
    (hik : i < k) (hk : k ≤ t.size) :
    (upTo t k).declaredBy? i = (upTo t (i + 1)).declaredBy? i := by
  induction hik with
  | refl => rfl
  | @step k hik ih =>
    rw [upTo_succ, visit_declaredBy? ht hk (framed_upTo ht (Nat.le_of_lt hk)) hi hik,
      ih (Nat.le_of_lt hk)]

theorem home_of_hoisted (ht : t.InPreorder) {j : Nat} (hd : d ∈ t.hoisted j)
    (ho : (t.opens? j).isSome) (hk : (t.kind d.node).isConstructor) (hm : t.IsHomeOf i d.node) :
    j = i ∧ d.kind = .method := by
  obtain ⟨hcallable, htype⟩ := NodeKind.isCallable_of_isConstructor hk
  cases Tree.hoists_of_mem_hoisted hd with
  | typeParameter _ _ _ node _ _ => simp [node, NodeKind.isConstructor] at hk
  | component _ _ _ node _ _ => simp [node, NodeKind.isConstructor] at hk
  | top _ _ node _ _ => simp [node] at htype
  | member member _ kind =>
    refine ⟨hm.unique j member ho, ?_⟩
    cases hkd : t.kind d.node <;> simp [hkd, NodeKind.isConstructor] at hk
    all_goals
      rw [hkd] at kind
      exact (Option.some.inj kind).symm
  | declarator _ field child _ _ _ =>
    obtain ⟨p, hp, hbody⟩ := hm.body
    rw [((ht.mem_children _ _).mp child).2] at hp
    obtain rfl := Option.some.inj hp
    rcases field with hf | hf <;> simp [hf, NodeKind.isTypeBody] at hbody

theorem hoisted_constructor_iff (ht : t.InPreorder) (hk : (t.kind m).isConstructor)
    (hy : t.childByField? m "name" = some y) (hm : t.HoistsMember i m) :
    (⟨y, m, .method⟩ : Declaration) ∈ t.hoisted i ↔ t.typeName? i ≠ some (t.text y) := by
  obtain ⟨p, hp⟩ := ht.parent_of_mem (hm.mem_ancestors ht)
  have hin := Tree.mem_hoistable_constructor hm (ht.lt_size_of_parent hp) hk hy
  rw [Tree.hoisted_eq_filter, List.mem_filter]
  simp [hin, Tree.keeps, hk]

/-- Only the home of a constructor declares its name, in its own scope and as that of a method. -/
theorem hoisted_of_declaration (ht : t.IsProgram) {k : Nat} (hk : k ≤ t.size)
    (hkm : (t.kind m).isConstructor) (hy : t.childByField? m "name" = some y)
    (hm : t.IsHomeOf i m) {o : Occurrence} (hmem : o ∈ (upTo t k).occurrences.toList)
    (hdecl : o.kind = .declaration) (hnode : o.node = y) :
    (⟨y, m, .method⟩ : Declaration) ∈ t.hoisted i ∧
      (∃ stack, (upTo t i).reached? t i = some stack) ∧ o.scope = (upTo t i).scopes.size ∧
      ∃ s, (upTo t k).symbols[o.symbol]? = some s ∧ s.kind = .method := by
  have hp := ht.parent_of_childByField? hy
  obtain ⟨s, hs, -⟩ := (sound_upTo ht hk).occurs o hmem
  have he : (⟨o.scope, s.kind, o.node⟩ : OutlineEntry) ∈ (Outline.upTo t k).entries := by
    rw [← outline_upTo ht hk]
    exact mem_entries.mpr ⟨o, hmem, hdecl, s, hs, rfl⟩
  obtain ⟨j, hj, stack', hr, hadd⟩ := Outline.mem_entries_upTo_iff.mp he
  rcases Outline.mem_added_iff.mp hadd with
    ⟨-, d, hrole, -, heq⟩ | ⟨hoj, ⟨d, hown, -, heq⟩ | ⟨d, hd, heq⟩⟩
  all_goals
    obtain ⟨hscope, hkind, hname⟩ := OutlineEntry.mk.injEq .. ▸ heq
    rw [hnode] at hname
    subst hname
  · obtain ⟨-, p, hp', hlocal⟩ := Tree.role_declares hrole
    obtain ⟨hname, -, -, -, hcallable⟩ := Tree.localDeclaration?_name hlocal
    obtain rfl : m = p := Option.some.inj (hp.symm.trans (hname ▸ hp'))
    simp [(NodeKind.isCallable_of_isConstructor hkm).1] at hcallable
  · obtain rfl : m = j :=
      Option.some.inj (hp.symm.trans (Outline.parent_of_own ht.toInPreorder hown))
    simp [(Tree.ownDeclaration?_eq_some hown).2.2.2.1] at hkm
  · obtain rfl : m = d.node := Option.some.inj
      (hp.symm.trans ((Tree.hoists_of_mem_hoisted hd).name_parent ht.toInPreorder))
    obtain ⟨rfl, hmethod⟩ := home_of_hoisted ht.toInPreorder hd hoj hkm hm
    obtain ⟨name, node, kind⟩ := d
    obtain rfl : kind = .method := hmethod
    rw [← outline_upTo ht (by omega)] at hscope
    refine ⟨hd, ⟨stack', by rw [← reached?_outline ht (by omega), hr]⟩, ?_, s, hs, hkind⟩
    simpa [outline] using hscope

theorem isSettled_constructor (ht : t.IsProgram) (hk : (t.kind m).isConstructor)
    (hy : t.childByField? m "name" = some y) (hm : t.IsHomeOf i m)
    (hno : (⟨y, m, .method⟩ : Declaration) ∉ t.hoisted i) : (upTo t m).isSettled y = false := by
  have hp := ht.parent_of_childByField? hy
  have hlt := ht.parent_lt hp
  have hle := Nat.le_of_lt (hm.lt_size ht.toInPreorder)
  rw [(framed_upTo ht hle).isSettled_eq_false_iff (Nat.le_of_lt hlt)]
  rintro o ho' rfl
  have htidy := tidy_upTo ht hle
  cases htidy.traced o ho' with
  | reference _ visited _ => lia
  | @constructor m' _ visited _ child =>
    rw [ht.parent_of_childByField? child] at hp
    have := Option.some.inj hp
    lia
  | declaration kind =>
    exact hno (hoisted_of_declaration ht hle hk hy hm ho' kind rfl).1

theorem opens?_type (hk : (t.kind i).isTypeDeclaration) : t.opens? i = some .type := by
  cases hki : t.kind i <;> simp [hki, NodeKind.isTypeDeclaration] at hk <;> simp [Tree.opens?, hki]

theorem opens?_constructor (hk : (t.kind m).isConstructor) : t.opens? m = some .method := by
  cases hkm : t.kind m <;> simp [hkm, NodeKind.isConstructor] at hk <;> simp [Tree.opens?, hkm]

theorem nameConstructor_visit (hr : v.reached? t m = some stack) (hk : (t.kind m).isConstructor)
    {o : Occurrence} (ho : o ∈ (v.nameConstructor t stack m).occurrences.toList) :
    o ∈ (visit t v m).occurrences.toList := by
  have hann : v.announce t stack m = v.nameConstructor t stack m := by rw [announce_eq, if_pos hk]
  rw [visit_of_opens hr (opens?_constructor hk)]
  have hext : Extends (v.opened t stack m .method)
      ((t.hoisted m).foldl (declare t (v.scopes.size :: stack)) (v.opened t stack m .method)) :=
    foldl_declare_extends (by simp [current, opened, openScope, announce_scopes])
  exact hext.occurrences.subset (by rw [opened, hann]; exact ho)

theorem mem_nameConstructor (h : Sound t w) {s : Scope} {id : SymbolId}
    (hscope : w.scopes[scope]? = some s) (hs : s.kind = .type) (hown : s.owner = some id)
    {o : Occurrence} (ho : o ∈ w.occurrences.toList) (hid : o.symbol = id)
    (hy : t.childByField? m "name" = some y) (hnew : w.isSettled y = false)
    (htext : t.text o.node = t.text y) (outer : List ScopeId) :
    ∃ o' ∈ (w.nameConstructor t (scope :: outer) m).occurrences.toList,
      o'.kind = .constructor ∧ o'.node = y ∧ o'.symbol = id := by
  have howner : w.typeOwner? (scope :: outer) = some id := by
    simp [typeOwner?, innermostType?, hscope, hs, hown]
  obtain ⟨sym, hsym, hname, -⟩ := h.occurs o ho
  rw [hid] at hsym
  refine ⟨⟨id, y, t.span y, .constructor, scope⟩, ?_, rfl, rfl, rfl⟩
  simp [nameConstructor, hy, hnew, howner, hsym, ← hname, htext, addOccurrence, current]

/-- The name of a constructor is hoisted as that of a method, or it names the type it is in. -/
theorem constructor_outcome (ht : t.IsProgram) (hk : (t.kind m).isConstructor)
    (hy : t.childByField? m "name" = some y) (hm : t.IsHomeOf i m)
    (hr : (upTo t m).reached? t m = some stack) :
    (⟨y, m, .method⟩ : Declaration) ∈ t.hoisted i ∨ (t.kind i).isTypeDeclaration ∧
      ∃ o ∈ (upTo t (m + 1)).occurrences.toList, ∃ o' ∈ (upTo t (m + 1)).occurrences.toList,
        o.kind = .declaration ∧ t.childByField? i "name" = some o.node ∧
        t.text o.node = t.text y ∧ (upTo t (m + 1)).declaredBy? i = some o.symbol ∧
        o'.kind = .constructor ∧ o'.node = y ∧ o'.symbol = o.symbol := by
  by_cases hmem : (⟨y, m, .method⟩ : Declaration) ∈ t.hoisted i
  · exact Or.inl hmem
  right
  have hms := hm.lt_size ht.toInPreorder
  have hname : t.typeName? i = some (t.text y) := by
    simpa [hoisted_constructor_iff ht.toInPreorder hk hy hm.member] using hmem
  unfold Tree.typeName? at hname
  split at hname
  next htype =>
    obtain ⟨x, hx, htext⟩ := Option.map_eq_some_iff.mp hname
    have hown : t.ownDeclaration? i = some ⟨x, i, .type⟩ := by
      rw [Tree.ownDeclaration?, if_pos htype]
      exact Tree.declaration?_eq_some_iff.mpr ⟨hx, rfl, rfl⟩
    have him := hm.lt ht.toInPreorder
    obtain ⟨outer, hreach, rfl⟩ := frame?_of_opens hm.opens (hm.frame ht.toInPreorder hr)
    obtain ⟨o, ho', hkind, hnode, hdecl, s, hscope, hskind, howner⟩ := visit_owner ht (by omega)
      (framed_upTo ht (by omega)) (tidy_upTo ht (by omega)) hreach (opens?_type htype) htype hown
    rw [← upTo_succ] at ho' hscope hdecl
    have hext := upTo_extends ht (show i + 1 ≤ m by omega) (Nat.le_of_lt hms)
    have hnew := isSettled_constructor ht hk hy hm hmem
    obtain ⟨o', hmem', hctor, hy', hsym⟩ := mem_nameConstructor (sound_upTo ht (Nat.le_of_lt hms))
      (getElem?_mono hext.scopes hscope) hskind howner (hext.occurrences.subset ho') rfl hy hnew
      (by rw [hnode]; exact htext) outer
    refine ⟨htype, o, ?_, o', ?_, hkind, by rw [hnode]; exact hx, by rw [hnode]; exact htext, ?_,
      hctor, hy', hsym⟩
    · exact (upTo_extends ht (Nat.le_succ m) hms).occurrences.subset (hext.occurrences.subset ho')
    · rw [upTo_succ]
      exact nameConstructor_visit hr hk hmem'
    · rw [declaredBy?_upTo ht htype (by omega) hms, hdecl]
  next => simp at hname

theorem isInError_of_reached (ht : t.IsProgram) (h : t.Grammatical)
    (hr : (upTo t i).reached? t i = some stack) : t.isInError i = false := by
  induction i using Nat.strongRecOn generalizing stack with
  | ind i ih =>
    have herror : t.isError i = false := by
      by_contra he
      have he : t.isError i = true := by simpa using he
      have hkind := h.errorKind i he
      have hroot : i ≠ Tree.root := by
        rintro rfl
        simp [ht.program] at hkind
      simp [Trail.reached?, he, hroot] at hr
    rcases outside_eq_some_iff.mp (outside_of_reached? hr) with ⟨hn, -⟩ | ⟨p, hp, -⟩
    · have : t.ancestors i = [] := List.head?_eq_none_iff.mp hn
      simp [Tree.isInError, herror, this]
    · obtain ⟨outer, hr', -⟩ := Option.map_eq_some_iff.mp (reached?_of_parent ht.toInPreorder hp hr)
      have hp' := ih p (ht.parent_lt hp) hr'
      simp only [Tree.isInError, Bool.or_eq_false_iff] at hp' ⊢
      rw [ht.ancestors_of_parent hp]
      simp [herror, hp'.1, hp'.2]

theorem exists_declaration_of_hoisted (ht : t.IsProgram) {k : Nat} (hik : i < k) (hk : k ≤ t.size)
    (hr : (upTo t i).reached? t i = some stack) (ho : (t.opens? i).isSome) (hd : d ∈ t.hoisted i) :
    ∃ o ∈ (upTo t k).occurrences.toList, o.kind = .declaration ∧ o.node = d.name := by
  rw [← reached?_outline ht (by omega)] at hr
  have hentry : (⟨(Outline.upTo t i).kinds.size, d.kind, d.name⟩ : OutlineEntry) ∈
      (Outline.upTo t k).entries :=
    Outline.mem_entries_upTo_iff.mpr ⟨i, hik, stack, hr,
      Outline.mem_added_iff.mpr (Or.inr ⟨ho, Or.inr ⟨d, hd, rfl⟩⟩)⟩
  rw [← outline_upTo ht hk] at hentry
  obtain ⟨o, ho, hkind, s, -, he⟩ := mem_entries.mp hentry
  exact ⟨o, ho, hkind, (congrArg OutlineEntry.node he).symm⟩

theorem UseAt.not_constructor (ht : t.IsProgram) (h : t.Grammatical) (hu : UseAt t u stack target)
    (hk : (t.kind m).isConstructor) : t.childByField? m "name" ≠ some u := by
  intro hy
  have hp := ht.parent_of_childByField? hy
  have hlt := ht.parent_lt hp
  have hle := Nat.le_of_lt hu.lt
  obtain ⟨outer, hr, -⟩ :=
    Option.map_eq_some_iff.mp (reached?_of_parent ht.toInPreorder hp hu.reached)
  obtain ⟨i, ho, hm⟩ := h.constructorMember m hk (isInError_of_reached ht h hr)
  have hset : (upTo t u).isSettled u = true := by
    rw [(framed_upTo ht hle).isSettled_iff (Nat.le_refl u)]
    have hm := h.isHomeOf ht.toInPreorder hm ho
    rcases constructor_outcome ht hk hy hm hr with hd | ⟨-, _, -, o, ho', -, -, -, -, -, hn, -⟩
    · have him := hm.lt ht.toInPreorder
      obtain ⟨outer', hr', -⟩ := frame?_of_opens ho (hm.frame ht.toInPreorder hr)
      obtain ⟨o, ho', -, hn⟩ :=
        exists_declaration_of_hoisted ht (show i < u by omega) hle hr' ho hd
      exact ⟨o, ho', hn⟩
    · exact ⟨o, (upTo_extends ht hlt hle).occurrences.subset ho', hn⟩
  simp [hu.new] at hset

end Walk

end JavaRefactor
