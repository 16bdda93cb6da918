import JavaRefactor.Proofs.Cut
import JavaRefactor.Proofs.Descent
import JavaRefactor.Proofs.Layout

/-! # Spans of well-formed trees

In a well-formed tree children lie within their parents, one after the other, and names are
leaves that cover some text. Names then stand in the text in the order of their numbers, and
the node found at the start of a name is the name. Whether a tree is well formed can be checked
node by node.
-/

namespace JavaRefactor.Tree

variable {t : Tree} {i p u v : Nat}

def isDeclaring (t : Tree) (p : NodeId) : Bool :=
  (t.kind p).isTypeDeclaration || (t.kind p).isCallableDeclaration ||
    t.kind p == .annotationTypeElementDeclaration || t.kind p == .enumConstant ||
    t.kind p == .formalParameter || t.field p == some "declarator"

/-- Identifiers and declared names. -/
def IsName (t : Tree) (i : NodeId) : Prop :=
  t.kind i = .identifier ∨ t.kind i = .typeIdentifier ∨
    ∃ p : Nat, t.isDeclaring p ∧ t.childByField? p "name" = some i

structure IsProgram (t : Tree) : Prop extends t.InPreorder where
  program : t.kind root = .program

/-- The tree of a whole program in which children lie in their parents, one after the other. -/
structure Ordered (t : Tree) : Prop extends t.IsProgram, t.Laminar where
  forward : ∀ i, t.IsName i → (t.span i).start ≤ (t.span i).stop

/-- An ordered tree in which names are leaves that cut the source between characters. A name that
the parser made up is empty. -/
structure Readable (t : Tree) : Prop extends t.Ordered where
  leaf : ∀ i, t.IsName i → t.children i = []
  cut : ∀ i, t.IsName i → Text.IsBoundary t.source.toList (t.span i).start ∧
    Text.IsBoundary t.source.toList (t.span i).stop

/-- The tree of a whole program in which children lie in their parents, one after the other, and
names are leaves that take a place in the text. -/
structure Separated (t : Tree) : Prop extends t.IsProgram, t.Laminar where
  leaf : ∀ i, t.IsName i → t.children i = []
  nonempty : ∀ i, t.IsName i → (t.span i).start < (t.span i).stop

/-- What is taken for granted of the parser: the root is a whole program, children lie in
their parents in order, and names are leaves that cut the source between characters. -/
structure WellFormed (t : Tree) : Prop extends t.Separated where
  cut : ∀ i, t.IsName i → Text.IsBoundary t.source.toList (t.span i).start ∧
    Text.IsBoundary t.source.toList (t.span i).stop

theorem mem_children_of_childByField? {field : String} (h : t.childByField? p field = some i) :
    i ∈ t.children p := List.mem_of_find?_eq_some h

theorem field_of_childByField? {field : String} (h : t.childByField? p field = some i) :
    t.field i = some field := by
  simpa using List.find?_some h

theorem kind_of_size_le (h : t.size ≤ i) : t.kind i = .other := by
  rw [kind, node_of_size_le h]
  rfl

theorem IsProgram.size_pos (h : t.IsProgram) : 0 < t.size := by
  apply Nat.lt_of_not_le
  intro hs
  have hk := h.program
  simp [root, kind_of_size_le hs] at hk

theorem InPreorder.parent_of_childByField? (h : t.InPreorder) {field : String}
    (hc : t.childByField? p field = some i) : t.parent? i = some p :=
  ((h.mem_children p i).mp (mem_children_of_childByField? hc)).2

theorem InPreorder.lt_size_of_isName (h : t.InPreorder) (hi : t.IsName i) : i < t.size := by
  rcases hi with hk | hk | ⟨p, -, hc⟩
  · exact Nat.lt_of_not_le fun hs => by simp [kind_of_size_le hs] at hk
  · exact Nat.lt_of_not_le fun hs => by simp [kind_of_size_le hs] at hk
  · exact h.lt_size_of_parent (h.parent_of_childByField? hc)

theorem Ordered.start_le_of_lt (h : t.Ordered) (hu : t.IsName u) (huv : u < v) (hv : v < t.size) :
    (t.span u).start ≤ (t.span v).start := by
  rcases h.above_or_apart huv hv with ha | ⟨p, c, d, hc, hd, hcd, hcu, hdv⟩
  · exact (h.toLaminar.span_mono (List.mem_cons_of_mem _ ha)).1
  · have h₁ := (h.toLaminar.span_mono hcu).2
    have h₂ := h.toLaminar.siblings_before hc hd hcd
    have h₃ := (h.toLaminar.span_mono hdv).1
    have h₄ := h.forward u hu
    omega

theorem InPreorder.not_mem_ancestors_of_leaf (h : t.InPreorder) (hu : t.children u = []) :
    u ∉ t.ancestors i := by
  intro hmem
  obtain ⟨c, hc, -⟩ := h.exists_child_above hmem
  have hmem' := (h.mem_children u c).mpr ⟨h.lt_size_of_parent hc, hc⟩
  rw [hu] at hmem'
  exact List.not_mem_nil hmem'

theorem Laminar.leaf_before (h : t.Laminar) (hu : t.children u = []) (huv : u < v)
    (hv : v < t.size) : (t.span u).stop ≤ (t.span v).start := by
  rcases h.above_or_apart huv hv with ha | ⟨p, c, d, hc, hd, hcd, hcu, hdv⟩
  · exact absurd ha (h.not_mem_ancestors_of_leaf hu)
  · have h₁ := (h.span_mono hcu).2
    have h₂ := h.siblings_before hc hd hcd
    have h₃ := (h.span_mono hdv).1
    omega

namespace Readable

variable (h : t.Readable)
include h

theorem not_mem_ancestors_of_isName (hu : t.IsName u) : u ∉ t.ancestors i :=
  h.not_mem_ancestors_of_leaf (h.leaf u hu)

theorem name_before (hu : t.IsName u) (huv : u < v) (hv : v < t.size) :
    (t.span u).stop ≤ (t.span v).start :=
  h.toLaminar.leaf_before (h.leaf u hu) huv hv

end Readable

namespace Separated

variable (h : t.Separated)
include h

theorem name_before (hu : t.IsName u) (huv : u < v) (hv : v < t.size) :
    (t.span u).stop ≤ (t.span v).start :=
  h.toLaminar.leaf_before (h.leaf u hu) huv hv

theorem start_lt_of_lt (hu : t.IsName u) (huv : u < v) (hv : v < t.size) :
    (t.span u).start < (t.span v).start := by
  have h₁ := h.nonempty u hu
  have h₂ := h.name_before hu huv hv
  omega

theorem start_lt_iff (hu : t.IsName u) (hv : t.IsName v) :
    (t.span u).start < (t.span v).start ↔ u < v := by
  constructor
  · intro hlt
    rcases Nat.lt_trichotomy u v with huv | rfl | huv
    · exact huv
    · omega
    · have := h.start_lt_of_lt hv huv (h.lt_size_of_isName hu)
      omega
  · intro huv
    exact h.start_lt_of_lt hu huv (h.lt_size_of_isName hv)

theorem eq_of_start_eq (hu : t.IsName u) (hv : t.IsName v)
    (heq : (t.span u).start = (t.span v).start) : u = v := by
  have h₁ := h.start_lt_iff hu hv
  have h₂ := h.start_lt_iff hv hu
  omega

end Separated

namespace WellFormed

variable (h : t.WellFormed)
include h

theorem ordered : t.Ordered :=
  ⟨h.toIsProgram, h.nested, h.disjoint, fun i hi => Nat.le_of_lt (h.nonempty i hi)⟩

theorem readable : t.Readable :=
  ⟨h.ordered, h.leaf, h.cut⟩

theorem nodeAt_start (hu : t.IsName u) : t.nodeAt (t.span u).start = u := by
  have hs : t.Surrounds (t.span u).start u := surrounds_iff.mpr ⟨Nat.le_refl _, h.nonempty u hu⟩
  have hmem := (h.toLaminar.descended_nodeAt _).passed u (h.lt_size_of_isName hu) hs
  rcases List.mem_cons.mp hmem with he | ha
  · exact he.symm
  · exact absurd ha (h.readable.not_mem_ancestors_of_isName hu)

end WellFormed

theorem isName_iff : t.IsName i ↔ t.kind i = .identifier ∨ t.kind i = .typeIdentifier ∨
    ∃ p ∈ t.ids, t.isDeclaring p ∧ t.childByField? p "name" = some i := by
  refine or_congr_right (or_congr_right ⟨?_, fun ⟨p, _, h⟩ => ⟨p, h⟩⟩)
  rintro ⟨p, hd, hc⟩
  refine ⟨p, List.mem_range.mpr (Nat.lt_of_not_le fun hs => ?_), hd, hc⟩
  simp [childByField?, children, node_of_size_le hs, Node.absent] at hc

instance (t : Tree) (i : NodeId) : Decidable (t.IsName i) := decidable_of_iff _ isName_iff.symm

def FitsAt (t : Tree) (i : NodeId) : Prop :=
  (∀ c ∈ t.children i, (t.span i).start ≤ (t.span c).start ∧ (t.span c).stop ≤ (t.span i).stop) ∧
    (t.children i).Pairwise (fun c d => (t.span c).stop ≤ (t.span d).start) ∧
    (t.IsName i → t.children i = [] ∧ (t.span i).start < (t.span i).stop ∧
      Text.IsBoundary t.source.toList (t.span i).start ∧
      Text.IsBoundary t.source.toList (t.span i).stop)

instance (t : Tree) (i : NodeId) : Decidable (t.FitsAt i) :=
  inferInstanceAs (Decidable (_ ∧ _ ∧ _))

theorem IsProgram.wellFormed_iff (h : t.IsProgram) : t.WellFormed ↔ ∀ i ∈ t.ids, t.FitsAt i := by
  constructor
  · intro hw i _
    refine ⟨fun c hc => hw.nested c i ((h.mem_children i c).mp hc).2, hw.disjoint i, fun hi => ?_⟩
    exact ⟨hw.leaf i hi, hw.nonempty i hi, hw.cut i hi⟩
  · intro hf
    have hat {i : Nat} (hi : i < t.size) : t.FitsAt i := hf i (List.mem_range.mpr hi)
    refine ⟨⟨h, fun i p hp => ?_, fun p => ?_, fun i hi => ?_, fun i hi => ?_⟩, fun i hi => ?_⟩
    · have hi := h.lt_size_of_parent hp
      exact (hat (Nat.lt_trans (h.parent_lt hp) hi)).1 i ((h.mem_children p i).mpr ⟨hi, hp⟩)
    · rcases Nat.lt_or_ge p t.size with hlt | hge
      · exact (hat hlt).2.1
      · simp [children, node_of_size_le hge, Node.absent]
    · exact ((hat (h.lt_size_of_isName hi)).2.2 hi).1
    · exact ((hat (h.lt_size_of_isName hi)).2.2 hi).2.1
    · exact ((hat (h.lt_size_of_isName hi)).2.2 hi).2.2

end JavaRefactor.Tree

namespace JavaRefactor.Sample

def phrase (depth start stop : Nat) (grammar : String) (field : Option String) : RawTree.Row :=
  (depth, ⟨grammar, ⟨start, stop⟩, field, true, false, false⟩)

def token (depth start stop : Nat) (grammar : String) : RawTree.Row :=
  (depth, ⟨grammar, ⟨start, stop⟩, none, false, false, false⟩)

/-- A part of the text that has no place in the grammar. -/
def fault (depth start stop : Nat) : RawTree.Row :=
  (depth, ⟨"ERROR", ⟨start, stop⟩, none, true, true, false⟩)

def rows : List RawTree.Row :=
  [phrase 0 0 49 "program" none, phrase 1 0 49 "class_declaration" none, token 2 0 5 "class",
   phrase 2 6 9 "identifier" (some "name"), phrase 2 10 49 "class_body" (some "body"),
   token 3 10 11 "\x7b", phrase 3 12 18 "field_declaration" none,
   phrase 4 12 15 "integral_type" (some "type"), token 5 12 15 "int",
   phrase 4 16 17 "variable_declarator" (some "declarator"),
   phrase 5 16 17 "identifier" (some "name"), token 4 17 18 ";",
   phrase 3 19 47 "method_declaration" none, phrase 4 19 23 "void_type" (some "type"),
   phrase 4 24 25 "identifier" (some "name"),
   phrase 4 25 27 "formal_parameters" (some "parameters"), token 5 25 26 "(", token 5 26 27 ")",
   phrase 4 28 47 "block" (some "body"), token 5 28 29 "\x7b",
   phrase 5 30 36 "local_variable_declaration" none,
   phrase 6 30 33 "type_identifier" (some "type"),
   phrase 6 34 35 "variable_declarator" (some "declarator"),
   phrase 7 34 35 "identifier" (some "name"), token 6 35 36 ";",
   phrase 5 37 45 "expression_statement" none, phrase 6 37 44 "method_invocation" none,
   phrase 7 37 40 "identifier" (some "object"), token 7 40 41 ".",
   phrase 7 41 42 "identifier" (some "name"), phrase 7 42 44 "argument_list" (some "arguments"),
   token 8 42 43 "(", token 8 43 44 ")", token 6 44 45 ";", token 5 46 47 "\x7d",
   token 3 48 49 "\x7d"]

/-- A class with a field and a method, in which the name of the class stands as a type and as
an expression. -/
def tree : Tree :=
  .ofRaw "class Foo \x7b int b; void m() \x7b Foo x; Foo.g(); \x7d \x7d"
    ((RawTree.ofRows? rows).getD default)

def parser : Parser := fun _ => .ok ((RawTree.ofRows? rows).getD default)

theorem tree_isProgram : tree.IsProgram :=
  ⟨Tree.ofRaw_inPreorder _ _, by decide +kernel⟩

theorem tree_wellFormed : tree.WellFormed :=
  tree_isProgram.wellFormed_iff.mpr (by decide +kernel)

end JavaRefactor.Sample
