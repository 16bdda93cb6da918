import JavaRefactor.Proofs.WellFormed
import JavaRefactor.Scope.Query

/-! # The innermost declaration around an offset

The search for a declaration follows one way through the tree, up from the node at the offset.
Where children lie in their parents, one after the other, no declaration around the offset lies
off that way, so what is found is the innermost of all.
-/

namespace JavaRefactor

namespace Tree

variable {t : Tree} {offset : Nat} {kind : DeclarationKind} {d : NodeId}

/-- The offset lies in no unreadable part of the text. -/
def IsReadableAt (t : Tree) (n : Nat) : Prop := ∀ region ∈ t.errorRegions, ¬ region.containsOffset n

instance (t : Tree) (n : Nat) : Decidable (t.IsReadableAt n) :=
  inferInstanceAs (Decidable (∀ region ∈ t.errorRegions, _))

theorem checkOffset_eq_ok (hle : offset ≤ Text.byteLength t.source)
    (hread : t.IsReadableAt offset) : t.checkOffset offset = .ok () := by
  have hnone : t.errorRegions.filter (·.containsOffset offset) = [] :=
    List.filter_eq_nil_iff.mpr hread
  simp [checkOffset, Nat.not_lt.mpr hle, errorRegionAt?, hnone, shortest?]

def DeclaresAround (t : Tree) (offset : Nat) (kind : DeclarationKind) (i : NodeId) : Prop :=
  (t.kind i).declarationKind? = some kind ∧ t.Surrounds offset i

/-- Of all declarations of the kind around the offset the node is the innermost. -/
def IsInnermost (t : Tree) (offset : Nat) (kind : DeclarationKind) (i : NodeId) : Prop :=
  t.DeclaresAround offset kind i ∧
    ∀ e, t.DeclaresAround offset kind e → e ≠ i → e ∈ t.ancestors i

theorem InPreorder.ancestors_of_upwards (h : t.InPreorder) {i a : NodeId} {l rest : List NodeId}
    (hl : t.upwards i = l ++ a :: rest) : rest = t.ancestors a := by
  cases l with
  | nil =>
    obtain ⟨rfl, rfl⟩ := List.cons.inj hl
    rfl
  | cons b l => exact h.ancestors_of_append (List.cons.inj hl).2

theorem InPreorder.innermost_unique (h : t.InPreorder) {e : NodeId}
    (hd : t.IsInnermost offset kind d) (he : t.IsInnermost offset kind e) : d = e := by
  rcases Nat.lt_trichotomy d e with hlt | heq | hlt
  · have := h.lt_of_mem_ancestors (hd.2 e he.1 (Nat.ne_of_gt hlt))
    omega
  · exact heq
  · have := h.lt_of_mem_ancestors (he.2 d hd.1 (Nat.ne_of_gt hlt))
    omega

/-- The search passes all declarations around the offset, and no others. -/
theorem Laminar.declaresAround_iff (h : t.Laminar) (hroot : t.kind root = .program) :
    t.DeclaresAround offset kind d ↔
      d ∈ t.upwards (t.nodeAt offset) ∧ (t.kind d).declarationKind? = some kind := by
  have hne (hk : (t.kind d).declarationKind? = some kind) : d ≠ root := by
    rintro rfl
    simp [hroot, NodeKind.declarationKind?] at hk
  constructor
  · rintro ⟨hk, hs⟩
    exact ⟨(h.surrounds_iff_mem_nodeAt (hne hk)).mp hs, hk⟩
  · rintro ⟨hmem, hk⟩
    exact ⟨hk, (h.surrounds_iff_mem_nodeAt (hne hk)).mpr hmem⟩

theorem Laminar.isInnermost_of_find? (h : t.Laminar) (hroot : t.kind root = .program)
    (hfind : (t.upwards (t.nodeAt offset)).find?
      (fun i => (t.kind i).declarationKind? == some kind) = some d) :
    t.IsInnermost offset kind d := by
  have hmem := List.mem_of_find?_eq_some hfind
  obtain ⟨hkind, front, back, hsplit, hfront⟩ := List.find?_eq_some_iff_append.mp hfind
  refine ⟨(h.declaresAround_iff hroot).mpr ⟨hmem, by simpa using hkind⟩, fun e he hne => ?_⟩
  obtain ⟨hmem, hk⟩ := (h.declaresAround_iff hroot).mp he
  rw [hsplit, h.ancestors_of_upwards hsplit] at hmem
  rcases List.mem_append.mp hmem with hmem | hmem
  · exact absurd hk (by simpa using hfront e hmem)
  · exact (List.mem_cons.mp hmem).resolve_left hne

/-- At every readable offset the search finds the innermost declaration of a kind, and reports
that there is none just if there is none. -/
theorem enclosingDeclaration_innermost (h : t.Laminar) (hroot : t.kind root = .program)
    (hle : offset ≤ Text.byteLength t.source) (hread : t.IsReadableAt offset)
    (kind : DeclarationKind) :
    (∀ d, t.enclosingDeclaration offset kind = .ok d ↔ t.IsInnermost offset kind d) ∧
    (t.enclosingDeclaration offset kind = .error (.notFound offset) ↔
      ∀ e, ¬ t.DeclaresAround offset kind e) ∧
    ∀ error, t.enclosingDeclaration offset kind = .error error → error = .notFound offset := by
  simp only [enclosingDeclaration, checkOffset_eq_ok hle hread, bind, Except.bind, pure,
    Except.pure, throw, throwThe, MonadExceptOf.throw]
  split
  next d hfind =>
    have hd := h.isInnermost_of_find? hroot hfind
    refine ⟨fun e => ?_, by simpa using ⟨d, hd.1⟩, by simp⟩
    constructor
    · rintro he
      obtain rfl := Except.ok.inj he
      exact hd
    · intro he
      rw [h.innermost_unique hd he]
  next hnone =>
    have hfree (e : NodeId) : ¬ t.DeclaresAround offset kind e := by
      rw [h.declaresAround_iff hroot]
      rintro ⟨hmem, hk⟩
      simpa [hk] using List.find?_eq_none.mp hnone e hmem
    exact ⟨fun d => iff_of_false (by simp) fun hd => hfree d hd.1, by simpa using hfree,
      fun error he => (Except.error.inj he).symm⟩

end Tree

namespace Sample

def nestedRows : List RawTree.Row :=
  [phrase 0 0 37 "program" none, phrase 1 0 37 "class_declaration" none, token 2 0 5 "class",
   phrase 2 6 7 "identifier" (some "name"), phrase 2 8 37 "class_body" (some "body"),
   token 3 8 9 "\x7b", phrase 3 10 35 "class_declaration" none, token 4 10 15 "class",
   phrase 4 16 17 "identifier" (some "name"), phrase 4 18 35 "class_body" (some "body"),
   token 5 18 19 "\x7b", phrase 5 20 26 "constructor_declaration" none,
   phrase 6 20 21 "identifier" (some "name"),
   phrase 6 21 23 "formal_parameters" (some "parameters"), token 7 21 22 "(", token 7 22 23 ")",
   phrase 6 24 26 "constructor_body" (some "body"), token 7 24 25 "\x7b", token 7 25 26 "\x7d",
   phrase 5 27 33 "constructor_declaration" none, phrase 6 27 28 "identifier" (some "name"),
   phrase 6 28 30 "formal_parameters" (some "parameters"), token 7 28 29 "(", token 7 29 30 ")",
   phrase 6 31 33 "constructor_body" (some "body"), token 7 31 32 "\x7b", token 7 32 33 "\x7d",
   token 5 34 35 "\x7d", token 3 36 37 "\x7d"]

def nestedTree : Tree :=
  .ofRaw "class A \x7b class B \x7b A() \x7b\x7d B() \x7b\x7d \x7d \x7d"
    ((RawTree.ofRows? nestedRows).getD default)

theorem nestedTree_checked : nestedTree.kind Tree.root = .program ∧
    (∀ i ∈ nestedTree.ids, nestedTree.FitsAt i) ∧
    27 ≤ Text.byteLength nestedTree.source ∧ nestedTree.IsReadableAt 27 ∧
    (nestedTree.kind 6).declarationKind? = some .type ∧ nestedTree.span 6 = ⟨10, 35⟩ ∧
    (∀ i ∈ nestedTree.ids, (nestedTree.kind i).declarationKind? = some .type →
      i ≠ 6 → i ∈ nestedTree.ancestors 6) ∧
    ∀ i ∈ nestedTree.ids, (nestedTree.kind i).declarationKind? ≠ some .lambda := by
  decide +kernel

theorem nestedTree_isProgram : nestedTree.IsProgram :=
  ⟨Tree.ofRaw_inPreorder _ _, nestedTree_checked.1⟩

theorem nestedTree_wellFormed : nestedTree.WellFormed :=
  nestedTree_isProgram.wellFormed_iff.mpr nestedTree_checked.2.1

end Sample

/-- In a constructor of the inner of two classes the search for a type finds the inner class, and
there is no lambda to be found. -/
theorem Tree.enclosingDeclaration_innermost_sample :
    Sample.nestedTree.enclosingDeclaration 27 .type = .ok 6 ∧
      Sample.nestedTree.enclosingDeclaration 27 .lambda = .error (.notFound 27) := by
  obtain ⟨hroot, -, hle, hread, hkind, hspan, hothers, hnone⟩ := Sample.nestedTree_checked
  have hlaminar := Sample.nestedTree_wellFormed.toLaminar
  have hsurrounds : Sample.nestedTree.Surrounds 27 6 := surrounds_iff.mpr (by rw [hspan]; decide)
  have hmem {e : NodeId} (he : Sample.nestedTree.Surrounds 27 e) : e ∈ Sample.nestedTree.ids :=
    List.mem_range.mpr (lt_size_of_surrounds he)
  constructor
  · rw [(enclosingDeclaration_innermost hlaminar hroot hle hread .type).1]
    exact ⟨⟨hkind, hsurrounds⟩, fun e he => hothers e (hmem he.2) he.1⟩
  · rw [(enclosingDeclaration_innermost hlaminar hroot hle hread .lambda).2.1]
    exact fun e he => hnone e (hmem he.2) he.1

end JavaRefactor
