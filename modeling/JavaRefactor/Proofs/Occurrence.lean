import JavaRefactor.Proofs.SymbolTable

/-! # Where occurrences come from

Every occurrence was recorded by the visit of some node: of the identifier itself, of the
constructor it names, or of the node that declares it. From this it follows that two
occurrences share an identifier only if both declare it, in different scopes.
-/

namespace JavaRefactor

theorem NodeKind.isCallable_of_isConstructor {kind : NodeKind} (h : kind.isConstructor) :
    kind.isCallableDeclaration ∧ kind.isTypeDeclaration = false := by
  cases kind <;> first | exact ⟨rfl, rfl⟩ | simp [isConstructor] at h

namespace Tree

variable {t : Tree} {i : Nat} {d : Declaration}

theorem localDeclaration?_name {p : NodeId} (h : t.localDeclaration? i p = some d) :
    d.name = i ∧ d.kind.isLocal ∧ (d.node = i ∨ d.node = p) ∧
      (t.kind p).isTypeDeclaration = false ∧ (t.kind p).isCallableDeclaration = false := by
  unfold localDeclaration? at h
  split at h
  case h_1 hp _ =>
    split at h <;> obtain rfl := Option.some.inj h <;>
      exact ⟨rfl, rfl, Or.inr rfl, by rw [hp]; rfl, by rw [hp]; rfl⟩
  case h_2 hp _ | h_3 hp _ | h_8 hp _ =>
    obtain rfl := Option.some.inj h
    exact ⟨rfl, rfl, Or.inr rfl, by rw [hp]; rfl, by rw [hp]; rfl⟩
  case h_4 hp _ | h_7 hp _ | h_9 hp _ =>
    obtain rfl := Option.some.inj h
    exact ⟨rfl, rfl, Or.inl rfl, by rw [hp]; rfl, by rw [hp]; rfl⟩
  case h_5 hp =>
    obtain rfl := Option.some.inj h
    exact ⟨rfl, rfl, Or.inl rfl, by rw [hp]; rfl, by rw [hp]; rfl⟩
  case h_6 hp =>
    obtain rfl := Option.some.inj h
    exact ⟨rfl, rfl, Or.inr rfl, by rw [hp]; rfl, by rw [hp]; rfl⟩
  case h_10 => simp at h

theorem role_declares (h : t.role i = .declares d) :
    t.kind i = .identifier ∧
      ∃ p : Nat, t.parent? i = some p ∧ t.localDeclaration? i p = some d := by
  unfold role at h
  split at h
  next hk =>
    refine ⟨hk, ?_⟩
    unfold identifierRole at h
    split at h
    next => simp at h
    next p hp =>
      split at h
      next d' hd =>
        obtain rfl : d' = d := by simpa using h
        exact ⟨p, hp, hd⟩
      next =>
        unfold useRole at h
        split at h <;> (repeat' split at h) <;> simp at h
  next =>
    unfold typeIdentifierRole at h
    split at h
    · simp at h
    · split at h <;> simp at h
  next => simp at h

theorem name_of_role (h : t.role i = .declares d) : d.name = i := by
  obtain ⟨-, p, -, hd⟩ := role_declares h
  exact (localDeclaration?_name hd).1

theorem isName_of_role (h : t.role i ≠ .ignored) : t.IsName i := by
  unfold role at h
  split at h
  next hk => exact Or.inl hk
  next hk => exact Or.inr (Or.inl hk)
  next => exact absurd rfl h

/-- The visit of the node `j` may make the declaration. -/
inductive Makes (t : Tree) (j : NodeId) (d : Declaration) : Prop where
  | hoisted (mem : d ∈ t.hoisted j)
  | own (name : t.ownDeclaration? j = some d)
  | here (role : t.role j = .declares d)

theorem ownDeclaration?_eq_some (h : t.ownDeclaration? i = some d) :
    t.childByField? i "name" = some d.name ∧ d.node = i ∧ d.kind.isLocal = false ∧
      (t.kind i).isConstructor = false ∧ t.isDeclaring i := by
  unfold ownDeclaration? at h
  split at h
  next hk =>
    obtain ⟨hname, hnode, hkind⟩ := declaration?_eq_some_iff.mp h
    refine ⟨hname, hnode, by rw [hkind]; rfl, ?_, by simp [isDeclaring, hk]⟩
    cases hi : t.kind i <;> simp_all [NodeKind.isTypeDeclaration, NodeKind.isConstructor]
  next =>
    split at h
    next hk =>
      obtain ⟨hname, hnode, hkind⟩ := declaration?_eq_some_iff.mp h
      exact ⟨hname, hnode, by rw [hkind]; rfl, by rw [hk]; rfl,
        by simp [isDeclaring, hk, NodeKind.isCallableDeclaration]⟩
    next => simp at h

theorem kind_of_ownDeclaration? (h : t.ownDeclaration? i = some d) :
    (t.kind i).isTypeDeclaration ∧ d.kind = .type ∨
      t.kind i = .methodDeclaration ∧ d.kind = .method := by
  unfold ownDeclaration? at h
  split at h
  next hk => exact Or.inl ⟨hk, (declaration?_eq_some_iff.mp h).2.2⟩
  next =>
    split at h
    next hk => exact Or.inr ⟨hk, (declaration?_eq_some_iff.mp h).2.2⟩
    next => simp at h

namespace Makes

variable {j : Nat}

theorem isName (h : t.Makes j d) : t.IsName d.name := by
  cases h with
  | hoisted mem => exact (hoists_of_mem_hoisted mem).isName
  | own name =>
    obtain ⟨hname, -, -, -, hdecl⟩ := ownDeclaration?_eq_some name
    exact Or.inr (Or.inr ⟨j, hdecl, hname⟩)
  | here role => exact name_of_role role ▸ Or.inl (role_declares role).1

/-- A declaration is made at the identifier, or above it at the node that is declared or
further up. -/
theorem name_le (h : t.Makes j d) (ht : t.InPreorder) :
    d.name = j ∨ j < d.name ∧ t.parent? d.name = some d.node ∧ j ≤ d.node := by
  cases h with
  | hoisted mem =>
    have hh := hoists_of_mem_hoisted mem
    have hp := hh.name_parent ht
    have h₁ := ht.parent_lt hp
    have h₂ := ht.lt_of_mem_ancestors (hh.mem_ancestors ht)
    exact Or.inr ⟨by omega, hp, by omega⟩
  | own name =>
    obtain ⟨hname, hnode, -⟩ := ownDeclaration?_eq_some name
    have hp := ht.parent_of_childByField? hname
    have h₁ := ht.parent_lt hp
    exact Or.inr ⟨h₁, hnode ▸ hp, Nat.le_of_eq hnode.symm⟩
  | here role => exact Or.inl (name_of_role role)

theorem name_parent (h : t.Makes j d) (ht : t.InPreorder) (hk : d.kind.isLocal = false) :
    t.parent? d.name = some d.node := by
  cases h with
  | hoisted mem => exact (hoists_of_mem_hoisted mem).name_parent ht
  | own name =>
    obtain ⟨hname, hnode, -⟩ := ownDeclaration?_eq_some name
    exact hnode ▸ ht.parent_of_childByField? hname
  | here role =>
    obtain ⟨-, p, -, hlocal⟩ := role_declares role
    simp [(localDeclaration?_name hlocal).2.1] at hk

theorem name_eq (h : t.Makes j d)
    (hkind : (t.kind d.node).isTypeDeclaration ∨ (t.kind d.node).isCallableDeclaration)
    {y : NodeId} (hy : t.childByField? d.node "name" = some y) : d.name = y := by
  have same {x : NodeId} (hx : t.childByField? d.node "name" = some x) : x = y :=
    Option.some.inj (hx.symm.trans hy)
  cases h with
  | hoisted mem =>
    cases hoists_of_mem_hoisted mem with
    | typeParameter _ _ _ node _ _ =>
      simp [node, NodeKind.isTypeDeclaration, NodeKind.isCallableDeclaration] at hkind
    | component _ _ _ _ name _ => exact same name
    | top _ _ _ name _ => exact same name
    | member _ name _ => exact same name
    | declarator _ _ _ _ name _ => exact same name
  | own name =>
    obtain ⟨hname', hnode', -⟩ := ownDeclaration?_eq_some name
    exact same (hnode' ▸ hname')
  | here role =>
    obtain ⟨hid, p, -, hlocal⟩ := role_declares role
    obtain ⟨-, -, hn | hn, htype, hcallable⟩ := localDeclaration?_name hlocal
    · rw [hn, hid] at hkind
      simp [NodeKind.isTypeDeclaration, NodeKind.isCallableDeclaration] at hkind
    · simp [hn, htype, hcallable] at hkind

theorem name_eq_own {d' : Declaration} (h : t.Makes j d')
    (hd : t.ownDeclaration? d'.node = some d) : d'.name = d.name :=
  h.name_eq ((kind_of_ownDeclaration? hd).imp And.left fun h => by rw [h.1]; rfl)
    (ownDeclaration?_eq_some hd).1

theorem node_ne_type (h : t.Makes j d) (ht : t.InPreorder) (hi : (t.kind i).isTypeDeclaration)
    (hij : i < j) : d.node ≠ i := by
  rintro rfl
  cases h with
  | hoisted mem =>
    have := ht.lt_of_mem_ancestors ((hoists_of_mem_hoisted mem).mem_ancestors ht)
    omega
  | own name => exact Nat.ne_of_lt hij (ownDeclaration?_eq_some name).2.1
  | here role =>
    obtain ⟨hid, p, -, hlocal⟩ := role_declares role
    obtain ⟨-, -, hn | hn, htype, -⟩ := localDeclaration?_name hlocal
    · exact Nat.ne_of_lt hij hn
    · simp [hn, htype] at hi

end Makes

end Tree

namespace Walk

variable {t : Tree} {w w' : Walk} {i k : Nat} {stack : List ScopeId} {d : Declaration}

/-- How an occurrence came about in the visits of the first `k` nodes. -/
inductive Traced (t : Tree) (k : Nat) (w : Walk) (o : Occurrence) : Prop where
  | reference {target : Target} (kind : o.kind = .reference) (visited : o.node < k)
      (role : t.role o.node = .uses target)
  | constructor {m : NodeId} (kind : o.kind = .constructor) (visited : m < k)
      (node : (t.kind m).isConstructor) (child : t.childByField? m "name" = some o.node)
  | declaration {j : NodeId} {d : Declaration} {s : Symbol} (kind : o.kind = .declaration)
      (visited : j < k) (made : t.Makes j d) (name : d.name = o.node)
      (declared : (w.declaredBy? d.node).isSome) (found : w.symbols[o.symbol]? = some s)
      (same : s.kind = d.kind)

theorem Traced.isName {o : Occurrence} (h : Traced t k w o) : t.IsName o.node := by
  cases h with
  | reference _ _ role => exact Tree.isName_of_role (by simp [role])
  | constructor _ _ node child =>
    have hcallable := (NodeKind.isCallable_of_isConstructor node).1
    exact Or.inr (Or.inr ⟨_, by simp [Tree.isDeclaring, hcallable], child⟩)
  | declaration _ _ made name _ _ _ => exact name ▸ made.isName

theorem Traced.mono {o : Occurrence} {k' : Nat} (hk : k ≤ k')
    (hsym : w.symbols.toList <+: w'.symbols.toList)
    (hdecl : ∀ n, (w.declaredBy? n).isSome → (w'.declaredBy? n).isSome) (h : Traced t k w o) :
    Traced t k' w' o := by
  cases h with
  | reference kind visited role => exact .reference kind (Nat.lt_of_lt_of_le visited hk) role
  | constructor kind visited node child =>
    exact .constructor kind (Nat.lt_of_lt_of_le visited hk) node child
  | declaration kind visited made name declared found same =>
    exact .declaration kind (Nat.lt_of_lt_of_le visited hk) made name (hdecl _ declared)
      (getElem?_mono hsym found) same

def Apart (w : Walk) : Prop :=
  w.occurrences.toList.Pairwise fun o o' => o.node = o'.node →
    o.kind = .declaration ∧ o'.kind = .declaration ∧ o.scope ≠ o'.scope

theorem Declares.makes (h : Declares t i w stack d) : t.Makes i d := by
  cases h with
  | hoisted mem _ => exact .hoisted mem
  | own name _ => exact .own name
  | here role _ => exact .here role

theorem Declared.occurrences_eq (h : Declared t stack w d w') :
    ∃ id, w'.occurrences = w.occurrences.push (declaredAs t stack d id) ∧
      w'.declared = (d.node, id) :: w.declared := by
  cases h <;> exact ⟨_, rfl, rfl⟩

theorem Declared.declaredBy?_isSome (h : Declared t stack w d w') {n : NodeId} :
    (w'.declaredBy? n).isSome ↔ n = d.node ∨ (w.declaredBy? n).isSome := by
  obtain ⟨id, -, hdecl⟩ := h.occurrences_eq
  rw [Resolution.declaredBy?, hdecl, List.lookup_cons]
  by_cases hn : n = d.node
  · simp [hn]
  · simp [hn, beq_eq_false_iff_ne.mpr hn, Resolution.declaredBy?]

theorem Declared.declaredBy?_of_ne (h : Declared t stack w d w') {n : NodeId} (hn : n ≠ d.node) :
    w'.declaredBy? n = w.declaredBy? n := by
  obtain ⟨id, -, hdecl⟩ := h.occurrences_eq
  rw [Resolution.declaredBy?, hdecl, List.lookup_cons, beq_eq_false_iff_ne.mpr hn]
  rfl

theorem Declared.symbol_kind (h : Declared t stack w d w') (hs : Sound t w) {id : SymbolId}
    (ho : w'.occurrences = w.occurrences.push (declaredAs t stack d id)) :
    ∃ s, w'.symbols[id]? = some s ∧ s.kind = d.kind := by
  have hid {id' : SymbolId} (he : w.occurrences.push (declaredAs t stack d id') =
      w.occurrences.push (declaredAs t stack d id)) : id' = id := by
    have := congrArg Array.back? he
    simpa [declaredAs] using this
  cases h with
  | overload _ kind found =>
    obtain ⟨s, hs, -, hspace, -⟩ := hs.boundIn? found
    obtain rfl := hid ho
    refine ⟨s, hs, ?_⟩
    rw [kind] at hspace ⊢
    cases hk : s.kind <;> simp [hk, SymbolKind.space] at hspace ⊢
  | duplicate =>
    obtain rfl := hid ho
    exact ⟨_, Array.getElem?_push_size, rfl⟩
  | fresh =>
    obtain rfl := hid ho
    exact ⟨_, Array.getElem?_push_size, rfl⟩

def Lists (t : Tree) (k : Nat) (o : Occurrence) (n : NodeId) : Prop :=
  o.kind = .declaration ∧ ∃ (j : Nat) (d : Declaration), j < k ∧ t.Makes j d ∧ d.node = n ∧
    d.name = o.node

/-- What the walk knows of all its occurrences when the first `k` nodes have been visited. -/
structure Tidy (t : Tree) (k : Nat) (w : Walk) : Prop extends Sound t w where
  traced : ∀ o ∈ w.occurrences.toList, Traced t k w o
  listed : ∀ p ∈ w.declared, ∃ o ∈ w.occurrences.toList, o.symbol = p.2 ∧ Lists t k o p.1
  apart : w.Apart

theorem Lists.mono {o : Occurrence} {n : NodeId} {k' : Nat} (hk : k ≤ k') (h : Lists t k o n) :
    Lists t k' o n := by
  obtain ⟨hkind, j, d, hj, h⟩ := h
  exact ⟨hkind, j, d, Nat.lt_of_lt_of_le hj hk, h⟩

namespace Tidy

theorem congr (h : Tidy t k w) {k' : Nat} (hk : k ≤ k') (hsym : w'.symbols = w.symbols)
    (hbind : w'.bindings = w.bindings) (hocc : w'.occurrences = w.occurrences)
    (hdecl : w'.declared = w.declared) : Tidy t k' w' where
  toSound := h.toSound.congr hsym hbind hocc
  traced := by
    rw [hocc]
    intro o ho
    refine (h.traced o ho).mono hk (hsym ▸ List.prefix_rfl) fun n hn => ?_
    rw [Resolution.declaredBy?, hdecl]
    exact hn
  listed := by
    rw [hocc, hdecl]
    intro p hp
    obtain ⟨o, ho, hsym, hl⟩ := h.listed p hp
    exact ⟨o, ho, hsym, hl.mono hk⟩
  apart := by
    rw [Apart, hocc]
    exact h.apart

theorem push (h : Tidy t (i + 1) w) {o : Occurrence} (hs : Sound t w')
    (hsym : w.symbols.toList <+: w'.symbols.toList)
    (hdecl : ∀ n, (w.declaredBy? n).isSome → (w'.declaredBy? n).isSome)
    (hocc : w'.occurrences = w.occurrences.push o) (ho : Traced t (i + 1) w' o)
    (hlist : ∀ p ∈ w'.declared, p ∈ w.declared ∨ o.symbol = p.2 ∧ Lists t (i + 1) o p.1)
    (hnew : ∀ o' ∈ w.occurrences.toList, o'.node = o.node →
      o'.kind = .declaration ∧ o.kind = .declaration ∧ o'.scope ≠ o.scope) :
    Tidy t (i + 1) w' where
  toSound := hs
  traced := by
    rw [hocc]
    intro o' ho'
    rcases List.mem_append.mp (Array.toList_push ▸ ho') with ho' | ho'
    · exact (h.traced o' ho').mono (Nat.le_refl _) hsym hdecl
    · exact List.mem_singleton.mp ho' ▸ ho
  listed := by
    rw [hocc, Array.toList_push]
    intro p hp
    rcases hlist p hp with hp | hp
    · obtain ⟨o', ho', h'⟩ := h.listed p hp
      exact ⟨o', List.mem_append_left _ ho', h'⟩
    · exact ⟨o, by simp, hp⟩
  apart := by
    rw [Apart, hocc, Array.toList_push, List.pairwise_append]
    refine ⟨h.apart, List.pairwise_singleton _ _, fun o' ho' o'' ho'' => ?_⟩
    exact List.mem_singleton.mp ho'' ▸ hnew o' ho'

theorem listed_of_declaredBy? (h : Tidy t k w) {n : NodeId} {id : SymbolId}
    (hid : w.declaredBy? n = some id) :
    ∃ o ∈ w.occurrences.toList, o.symbol = id ∧ Lists t k o n := by
  obtain ⟨l, l', hl, -⟩ := List.lookup_eq_some_iff.mp hid
  exact h.listed (n, id) (by rw [hl]; simp)

/-- A name that a visit of `i` declares from above has no other kind of occurrence. -/
theorem kind_of_node_eq (h : Tidy t (i + 1) w) (ht : t.InPreorder)
    (hp : t.parent? d.name = some d.node) (hi : i < d.node) {o : Occurrence}
    (ho : o ∈ w.occurrences.toList) (he : o.node = d.name) :
    o.kind = .declaration := by
  have hlt := ht.parent_lt hp
  cases h.traced o ho with
  | reference _ visited _ => rw [he] at visited; lia
  | @constructor m _ visited _ child =>
    have hm := ht.parent_of_childByField? child
    rw [he, hp] at hm
    have : d.node = m := Option.some.inj hm
    lia
  | declaration kind => exact kind

theorem declared (h : Tidy t (i + 1) w) (ht : t.InPreorder) (hd : Declares t i w stack d)
    (h' : Declared t stack w d w') : Tidy t (i + 1) w' := by
  obtain ⟨id, hocc, hlist⟩ := h'.occurrences_eq
  have hdecl (n) (hn : (w.declaredBy? n).isSome) : (w'.declaredBy? n).isSome :=
    h'.declaredBy?_isSome.mpr (Or.inr hn)
  obtain ⟨s, hs, hkind⟩ := h'.symbol_kind h.toSound hocc
  refine h.push (h.toSound.declared h') h'.extends.symbols hdecl hocc
    (.declaration rfl (Nat.lt_succ_self i) hd.makes rfl (h'.declaredBy?_isSome.mpr (Or.inl rfl)) hs
      hkind) ?_ fun o ho he => ?_
  · rw [hlist]
    intro p hp
    rcases List.mem_cons.mp hp with rfl | hp
    · exact Or.inr ⟨rfl, rfl, i, d, Nat.lt_succ_self i, hd.makes, rfl, rfl⟩
    · exact Or.inl hp
  cases hd with
  | hoisted mem fresh =>
    have hh := Tree.hoists_of_mem_hoisted mem
    refine ⟨h.kind_of_node_eq ht (hh.name_parent ht) ?_ ho he, rfl, fun hsc => fresh o ho hsc he⟩
    exact ht.lt_of_mem_ancestors (hh.mem_ancestors ht)
  | own name new =>
    -- the name hangs below `i`, and `i` has not been declared
    obtain ⟨hname, hnode, -, hctor, -⟩ := Tree.ownDeclaration?_eq_some name
    have hp := ht.parent_of_childByField? hname
    have hlt := ht.parent_lt hp
    exfalso
    cases h.traced o ho with
    | reference _ visited _ => rw [he] at visited; change d.name < i + 1 at visited; lia
    | constructor _ _ node child =>
      have hm := ht.parent_of_childByField? child
      rw [he] at hm
      change t.parent? d.name = _ at hm
      rw [hp] at hm
      rw [← Option.some.inj hm, hctor] at node
      simp at node
    | @declaration j d' _ _ visited made hname' hdeclared _ _ =>
      have hname' : d'.name = d.name := hname'.trans he
      rcases made.name_le ht with hj | ⟨-, hp', -⟩
      · lia
      · rw [hname', hp] at hp'
        rw [← Option.some.inj hp', new] at hdeclared
        simp at hdeclared
  | here role new =>
    exact absurd (he.trans (Tree.name_of_role role)) (new o ho)

theorem records (h : Tidy t (i + 1) w) {o : Occurrence} (hr : Records t i w o) :
    Tidy t (i + 1) (w.recorded o) := by
  have hs := h.toSound.records hr
  cases hr with
  | reference role new =>
    exact h.push hs List.prefix_rfl (fun _ hn => hn) rfl (.reference rfl (Nat.lt_succ_self i) role)
      (fun _ hp => Or.inl hp) fun o ho he => absurd he (new o ho)
  | constructor kind child new =>
    exact h.push hs List.prefix_rfl (fun _ hn => hn) rfl
      (.constructor rfl (Nat.lt_succ_self i) kind child) (fun _ hp => Or.inl hp)
      fun o ho he => absurd he (new o ho)

end Tidy

theorem tidy_upTo (ht : t.IsProgram) (hk : k ≤ t.size) : Tidy t k (upTo t k) := by
  refine upTo_induction (P := fun k w => Tidy t k w) ht ?_ ?_ hk
  · exact ⟨sound_upTo ht (Nat.zero_le _), by simp, by simp, by simp [Apart]⟩
  · intro k v hk hv _ h
    exact visit_preserves ht hk hv (fun _ _ _ h => h.congr (Nat.le_refl _) rfl rfl rfl rfl)
      (fun _ _ _ _ h => h.congr (Nat.le_refl _) rfl rfl rfl rfl)
      (fun hd h' h => h.declared ht.toInPreorder hd h') (fun hr h => h.records hr)
      (h.congr (Nat.le_succ k) rfl rfl rfl rfl)

theorem perm_occurrencesOf (r : Resolution) (id : SymbolId) :
    (r.occurrencesOf id).Perm (r.occurrences.toList.filter fun o => o.symbol == id) := by
  unfold Resolution.occurrencesOf
  split
  next h => rw [h]
  next first rest h => exact h ▸ (sortBy_perm _ rest).cons first

theorem Tidy.nodup_occurrencesOf (h : Tidy t k w) (id : SymbolId) :
    ((w.occurrencesOf id).map (·.node)).Nodup := by
  rw [((perm_occurrencesOf w.toResolution id).map _).nodup_iff, List.Nodup, List.pairwise_map]
  refine (h.apart.sublist List.filter_sublist).imp_of_mem fun {o o'} ho ho' hne he => ?_
  obtain ⟨hk, hk', hscope⟩ := hne he
  simp only [List.mem_filter, beq_iff_eq] at ho ho'
  obtain ⟨s, hs, -, -, hs₁⟩ := h.occurs o ho.1
  obtain ⟨s', hs', -, -, hs₂⟩ := h.occurs o' ho'.1
  rw [ho.2] at hs
  rw [ho'.2, hs] at hs'
  obtain rfl := Option.some.inj hs'
  exact hscope ((hs₁ hk).trans (hs₂ hk').symm)

end Walk

end JavaRefactor
