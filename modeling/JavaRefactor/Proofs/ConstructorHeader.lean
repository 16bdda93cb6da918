import JavaRefactor.Proofs.Account
import JavaRefactor.Proofs.Enclosing

/-! # The header of a constructor

The walk attributes the name of a constructor by the scopes around it: when the type hoists its
members, and again when it comes to the constructor. A query attributes the header by the nodes
above it and what they have declared. Both come to one symbol.
-/

namespace JavaRefactor

namespace Tree

variable {t : Tree} {i m : Nat} {x y : NodeId}

/-- Outside of errors, the constructor `m` with the name `y` is a member of the type `i` with the
name `x`. Groups of members may stand between it and the body. -/
structure IsConstructorIn (t : Tree) (i x m y : NodeId) : Prop where
  type : (t.kind i).isTypeDeclaration
  typeName : t.childByField? i "name" = some x
  constructor : (t.kind m).isConstructor
  name : t.childByField? m "name" = some y
  member : ∃ body : Nat, t.childByField? i "body" = some body ∧ (t.kind body).isTypeBody ∧
    t.kind body ≠ .enumBodyDeclarations ∧ t.isMember body m
  reached : t.IsReached m

theorem IsConstructorIn.isHomeOf (h : t.IsConstructorIn i x m y) (ht : t.InPreorder) :
    t.IsHomeOf i m := by
  obtain ⟨body, hb, hk, hgroup, hm⟩ := h.member
  have hp := ht.parent_of_childByField? hb
  constructor
  case member => exact ⟨body, hm, Or.inl ⟨h.type, hb⟩⟩
  case opens => simp [Walk.opens?_type h.type]
  case body => exact parent_of_isMember hm hk
  case between =>
    obtain ⟨l, rest, he, hl⟩ := ancestors_of_bodyMember ht hm h.type hb hk
    exact ⟨l, rest, he, fun a ha => (hl a ha).2⟩
  case unique =>
    intro j hj hoj
    obtain ⟨z, hz, hcase⟩ := opener_of_member ht hj hoj
    rw [find?_of_isMember ht hm, List.find?_cons_of_pos (by simp [hgroup])] at hz
    obtain rfl : body = z := Option.some.inj hz
    rcases hcase with ⟨hd, -⟩ | ⟨-, hb'⟩ | ⟨-, ha⟩
    · simp [not_isTypeBody hd] at hk
    · exact Option.some.inj ((ht.parent_of_childByField? hb').symm.trans hp)
    · simp [not_isAnonymousBody hp h.type] at ha

theorem IsHomeOf.nearestType (h : t.IsHomeOf i m) (hi : (t.kind i).isTypeDeclaration) :
    (t.ancestors m).find? (fun a => (t.kind a).isTypeDeclaration) = some i := by
  obtain ⟨l, rest, he, hl⟩ := h.between
  have hnone : l.find? (fun a => (t.kind a).isTypeDeclaration) = none := by
    rw [List.find?_eq_none]
    intro a ha hk
    simpa [Walk.opens?_type hk] using hl a ha
  rw [he, List.find?_append, hnone, Option.none_or]
  exact List.find?_cons_of_pos hi

end Tree

namespace Walk

variable {t : Tree} {w : Walk} {i k m : Nat} {x y : NodeId} {o : Occurrence} {id : SymbolId}
  {stack : List ScopeId}

theorem Tidy.declaration_of_declaredBy? (h : Tidy t k w) (hk : (t.kind m).isConstructor)
    (hy : t.childByField? m "name" = some y) (hid : w.declaredBy? m = some id) :
    ∃ o ∈ w.occurrences.toList, o.symbol = id ∧ o.kind = .declaration ∧ o.node = y := by
  obtain ⟨o, ho, hsym, hkind, j, d, -, hmake, rfl, hname⟩ := h.listed_of_declaredBy? hid
  have hcallable := (NodeKind.isCallable_of_isConstructor hk).1
  exact ⟨o, ho, hsym, hkind, hname ▸ hmake.name_eq (Or.inr hcallable) hy⟩

variable (ht : t.IsProgram) (hk : (t.kind m).isConstructor)
  (hy : t.childByField? m "name" = some y) (hm : t.IsHomeOf i m)
include ht hk hy hm

theorem occurrencesAt_constructor (ho : o ∈ (upTo t t.size).occurrences.toList)
    (hn : o.node = y) : (upTo t t.size).occurrencesAt y = [o] := by
  have hle := Nat.le_refl t.size
  have hscope {o : Occurrence} (ho : o ∈ (upTo t t.size).occurrencesAt y)
      (hdecl : o.kind = .declaration) : o.scope = (upTo t i).scopes.size := by
    obtain ⟨hmem, hn⟩ := Resolution.mem_occurrencesAt.mp ho
    exact (hoisted_of_declaration ht hle hk hy hm hmem hdecl hn).2.2.1
  -- two occurrences would declare the name, and both in the scope of the type
  have hpair : ((upTo t t.size).occurrencesAt y).Pairwise fun _ _ => False := by
    refine ((tidy_upTo ht hle).apart.sublist List.filter_sublist).imp_of_mem fun ho ho' h => ?_
    have hnode := (Resolution.mem_occurrencesAt.mp ho).2
    have hnode' := (Resolution.mem_occurrencesAt.mp ho').2
    obtain ⟨hdecl, hdecl', hne⟩ := h (hnode.trans hnode'.symm)
    exact hne ((hscope ho hdecl).trans (hscope ho' hdecl').symm)
  have hmem := Resolution.mem_occurrencesAt.mpr ⟨ho, hn⟩
  rcases hl : (upTo t t.size).occurrencesAt y with _ | ⟨a, _ | ⟨b, l⟩⟩
  · simp [hl] at hmem
  · rw [hl, List.mem_singleton] at hmem
    rw [hmem]
  · rw [hl] at hpair
    exact (List.rel_of_pairwise_cons hpair List.mem_cons_self).elim

theorem declaredBy?_constructor (ho : o ∈ (upTo t t.size).occurrences.toList)
    (hdecl : o.kind = .declaration) (hn : o.node = y) :
    (upTo t t.size).declaredBy? m = some o.symbol := by
  have hle := Nat.le_refl t.size
  have htidy := tidy_upTo ht hle
  obtain ⟨-, -, -, s, hs, hmethod⟩ := hoisted_of_declaration ht hle hk hy hm ho hdecl hn
  have hsome : ((upTo t t.size).declaredBy? m).isSome := by
    cases htidy.traced o ho with
    | reference kind => simp [kind] at hdecl
    | constructor kind => simp [kind] at hdecl
    | declaration _ _ made name declared found same =>
      rw [Option.some.inj (found.symm.trans hs), hmethod] at same
      have hp := made.name_parent ht.toInPreorder (by rw [← same]; rfl)
      rw [name, hn, ht.parent_of_childByField? hy] at hp
      rwa [Option.some.inj hp]
  obtain ⟨id, hid⟩ := Option.isSome_iff_exists.mp hsome
  obtain ⟨o', ho', rfl, -, hn'⟩ := htidy.declaration_of_declaredBy? hk hy hid
  have hmem := Resolution.mem_occurrencesAt.mpr ⟨ho', hn'⟩
  rw [occurrencesAt_constructor ht hk hy hm ho hn, List.mem_singleton] at hmem
  rw [hid, hmem]

theorem exists_method (hr : (upTo t m).reached? t m = some stack)
    (hd : (⟨y, m, .method⟩ : Declaration) ∈ t.hoisted i) :
    ∃ o, (upTo t t.size).occurrencesAt y = [o] ∧ o.kind = .declaration ∧
      (upTo t t.size).declaredBy? m = some o.symbol ∧
      ∃ s, (upTo t t.size).symbols[o.symbol]? = some s ∧ s.kind = .method := by
  have hle := Nat.le_refl t.size
  have him := Nat.lt_trans (hm.lt ht.toInPreorder) (hm.lt_size ht.toInPreorder)
  obtain ⟨outer, hr', -⟩ := frame?_of_opens hm.opens (hm.frame ht.toInPreorder hr)
  obtain ⟨o, ho, hdecl, hn⟩ := exists_declaration_of_hoisted ht him hle hr' hm.opens hd
  obtain ⟨-, -, -, hmethod⟩ := hoisted_of_declaration ht hle hk hy hm ho hdecl hn
  exact ⟨o, occurrencesAt_constructor ht hk hy hm ho hn, hdecl,
    declaredBy?_constructor ht hk hy hm ho hdecl hn, hmethod⟩

/-- Any other constructor declares nothing, and its name is an occurrence of the type. -/
theorem exists_constructor (hr : (upTo t m).reached? t m = some stack)
    (hd : (⟨y, m, .method⟩ : Declaration) ∉ t.hoisted i) (hx : t.childByField? i "name" = some x) :
    ∃ o, (upTo t t.size).occurrencesAt y = [o] ∧ o.kind = .constructor ∧
      (upTo t t.size).declaredBy? m = none ∧ (upTo t t.size).declaredBy? i = some o.symbol ∧
      ∃ o' ∈ (upTo t t.size).occurrencesAt x, o'.kind = .declaration ∧ o'.symbol = o.symbol := by
  have hle := Nat.le_refl t.size
  have him := hm.lt ht.toInPreorder
  have hms := hm.lt_size ht.toInPreorder
  have hext := upTo_extends ht (show m + 1 ≤ t.size from hms) hle
  obtain ⟨htype, o', hmem', o, hmem, hdecl, hx', -, hby, hctor, hn, hsym⟩ :=
    (constructor_outcome ht hk hy hm hr).resolve_left hd
  obtain rfl : x = o'.node := Option.some.inj (hx.symm.trans hx')
  have hat := occurrencesAt_constructor ht hk hy hm (hext.occurrences.subset hmem) hn
  refine ⟨o, hat, hctor, ?_, ?_, o', ?_, hdecl, hsym.symm⟩
  · -- otherwise the name would be a declaration too
    rw [Option.eq_none_iff_forall_ne_some]
    intro id hid
    obtain ⟨o'', hmem'', -, hdecl', hn'⟩ :=
      (tidy_upTo ht hle).declaration_of_declaredBy? hk hy hid
    have hsame := Resolution.mem_occurrencesAt.mpr ⟨hmem'', hn'⟩
    rw [hat, List.mem_singleton] at hsame
    simp [hsame, hctor] at hdecl'
  · rw [declaredBy?_upTo ht htype (Nat.lt_trans him hms) hle,
      ← declaredBy?_upTo ht htype (Nat.lt_succ_of_lt him) hms, hby, hsym]
  · exact Resolution.mem_occurrencesAt.mpr ⟨hext.occurrences.subset hmem', rfl⟩

end Walk

/-- The name of a constructor has one occurrence, and the header stands for the symbol of that
occurrence. It is the symbol of the type if the names agree, and otherwise that of a method which
the constructor declares. -/
theorem Resolution.headerSymbol?_constructor (t : Tree) (ht : t.IsProgram) (i x m y : NodeId)
    (h : t.IsConstructorIn i x m y) :
    ∃ r, resolve t = .ok r ∧ ∃ o, r.occurrencesAt y = [o] ∧ r.headerSymbol? t m = some o.symbol ∧
      (t.text y = t.text x → o.kind = .constructor ∧ r.declaredBy? i = some o.symbol ∧
        ∃ o' ∈ r.occurrencesAt x, o'.kind = .declaration ∧ o'.symbol = o.symbol) ∧
      (t.text y ≠ t.text x → o.kind = .declaration ∧ r.declaredBy? m = some o.symbol ∧
        ∃ s, r.symbols[o.symbol]? = some s ∧ s.kind = .method) := by
  have hm := h.isHomeOf ht.toInPreorder
  have hk := h.constructor
  have hr := Walk.reached?_eq_scopesAround ht h.reached (Nat.le_refl m) (Nat.le_of_lt h.reached.1)
  have hhoisted : (⟨y, m, .method⟩ : Declaration) ∈ t.hoisted i ↔ t.text y ≠ t.text x := by
    rw [Walk.hoisted_constructor_iff ht.toInPreorder hk h.name hm.member]
    simp [Tree.typeName?, h.type, h.typeName, eq_comm]
  refine ⟨_, resolve_eq_ok ht, ?_⟩
  by_cases hsame : t.text y = t.text x
  · have hd := mt hhoisted.mp (not_not.mpr hsame)
    obtain ⟨o, hat, hkind, hnone, hby, hname⟩ :=
      Walk.exists_constructor ht hk h.name hm hr hd h.typeName
    refine ⟨o, hat, ?_, fun _ => ⟨hkind, hby, hname⟩, fun hne => absurd hsame hne⟩
    simp [headerSymbol?, hnone, hk, hm.nearestType h.type, hby]
  · obtain ⟨o, hat, hkind, hby, hmethod⟩ :=
      Walk.exists_method ht hk h.name hm hr (hhoisted.mpr hsame)
    refine ⟨o, hat, ?_, fun he => absurd he hsame, fun _ => ⟨hkind, hby, hmethod⟩⟩
    simp [headerSymbol?, hby]

theorem Sample.nestedTree_constructors :
    nestedTree.IsConstructorIn 6 8 19 20 ∧ nestedTree.IsConstructorIn 6 8 11 12 ∧
      nestedTree.text 20 = nestedTree.text 8 ∧ nestedTree.text 12 ≠ nestedTree.text 8 := by
  have hchecked : nestedTree.kind 6 = .classDeclaration ∧
      nestedTree.childByField? 6 "name" = some 8 ∧ nestedTree.childByField? 6 "body" = some 9 ∧
      nestedTree.kind 9 = .classBody ∧
      (∀ p ∈ [(19, 20), (11, 12)], nestedTree.kind p.1 = .constructorDeclaration ∧
        nestedTree.childByField? p.1 "name" = some p.2 ∧ nestedTree.isMember 9 p.1 ∧
        nestedTree.IsReached p.1) ∧
      nestedTree.text 20 = nestedTree.text 8 ∧ nestedTree.text 12 ≠ nestedTree.text 8 := by
    decide +kernel
  obtain ⟨htype, hname, hbody, hkind, hmembers, hsame, hother⟩ := hchecked
  have hin (p : NodeId × NodeId) (hp : p ∈ [(19, 20), (11, 12)]) :
      nestedTree.IsConstructorIn 6 8 p.1 p.2 := by
    obtain ⟨hk, hy, hm, hreach⟩ := hmembers p hp
    exact ⟨by rw [htype]; rfl, hname, by rw [hk]; rfl, hy,
      ⟨9, hbody, by rw [hkind]; rfl, by simp [hkind], hm⟩, hreach⟩
  exact ⟨hin (19, 20) (by simp), hin (11, 12) (by simp), hsame, hother⟩

/-- In a class `B` the header of `B()` stands for the class, and that of `A()` for a method, though
a class `A` is around. -/
theorem Resolution.headerSymbol?_constructor_sample :
    (∃ r o, resolve Sample.nestedTree = .ok r ∧ r.occurrencesAt 20 = [o] ∧ o.kind = .constructor ∧
      r.headerSymbol? Sample.nestedTree 19 = some o.symbol ∧ r.declaredBy? 6 = some o.symbol) ∧
    ∃ r o, resolve Sample.nestedTree = .ok r ∧ r.occurrencesAt 12 = [o] ∧ o.kind = .declaration ∧
      r.headerSymbol? Sample.nestedTree 11 = some o.symbol ∧ r.declaredBy? 11 = some o.symbol := by
  obtain ⟨hin, hin', hsame, hother⟩ := Sample.nestedTree_constructors
  constructor
  · obtain ⟨r, hr, o, hat, hheader, hnamed, -⟩ :=
      headerSymbol?_constructor _ Sample.nestedTree_isProgram 6 8 19 20 hin
    obtain ⟨hkind, hby, -⟩ := hnamed hsame
    exact ⟨r, o, hr, hat, hkind, hheader, hby⟩
  · obtain ⟨r, hr, o, hat, hheader, -, hmethod⟩ :=
      headerSymbol?_constructor _ Sample.nestedTree_isProgram 6 8 11 12 hin'
    obtain ⟨hkind, hby, -⟩ := hmethod hother
    exact ⟨r, o, hr, hat, hkind, hheader, hby⟩

end JavaRefactor
