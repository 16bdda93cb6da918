import JavaRefactor.Tree.Basic

/-! # The walk with a stack lays the tree out

The nodes of a parse tree can also be laid out by recursion: a node, then its subtrees one after
the other. The cursor makes the same nodes. When it is done with a subtree, the nodes of that
subtree have been added behind the others, the node on top of the stack has one more child, and
the stack is as it was.
-/

namespace JavaRefactor

namespace RawTree

def roots (first : NodeId) : List RawTree → List NodeId
  | [] => []
  | tree :: trees => first :: roots (first + tree.size) trees

mutual

/-- The nodes of a tree in preorder, numbered from `first` on. -/
def layout (ancestors : List NodeId) (first : NodeId) : RawTree → List Node
  | .node label children =>
    .ofLabel label ancestors (roots (first + 1) children) ::
      layoutAll (first :: ancestors) (first + 1) children

def layoutAll (ancestors : List NodeId) (first : NodeId) : List RawTree → List Node
  | [] => []
  | tree :: trees =>
    tree.layout ancestors first ++ layoutAll ancestors (first + tree.size) trees

end

theorem layout_eq (ancestors : List NodeId) (first : NodeId) (tree : RawTree) :
    tree.layout ancestors first =
      .ofLabel tree.label ancestors (roots (first + 1) tree.children) ::
        layoutAll (first :: ancestors) (first + 1) tree.children := by
  cases tree
  rfl

mutual

theorem length_layout (above : List Nat) (first : Nat) :
    ∀ tree : RawTree, (tree.layout above first).length = tree.size
  | .node label children => by
      simp only [layout, size, List.length_cons, length_layoutAll]
      omega

theorem length_layoutAll (above : List Nat) (first : Nat) :
    ∀ trees : List RawTree, (layoutAll above first trees).length = sizeAll trees
  | [] => rfl
  | tree :: trees => by
      simp only [layoutAll, sizeAll, List.length_append, length_layout, length_layoutAll]

end

end RawTree

namespace Arena

variable {nodes added : Array Node} {ids : List NodeId} {parent : Option NodeId}

@[simp] theorem size_adopt (nodes : Array Node) (ids : List NodeId) (parent : Option NodeId) :
    (adopt nodes ids parent).size = nodes.size := by
  cases parent <;> simp [adopt]

theorem adopt_nil (nodes : Array Node) (parent : Option NodeId) :
    adopt nodes [] parent = nodes := by
  cases parent with
  | none => rfl
  | some p =>
    apply Array.ext_getElem?
    intro i
    by_cases hi : p = i <;> simp [adopt, Array.getElem?_modify, hi]

theorem adopt_adopt (nodes : Array Node) (ids ids' : List NodeId) (parent : Option NodeId) :
    adopt (adopt nodes ids parent) ids' parent = adopt nodes (ids ++ ids') parent := by
  cases parent with
  | none => rfl
  | some p =>
    apply Array.ext_getElem?
    intro i
    by_cases hi : p = i <;> simp [adopt, Array.getElem?_modify, hi, Function.comp_def]

theorem adopt_append (h : ∀ p ∈ parent, p < nodes.size) :
    adopt (nodes ++ added) ids parent = adopt nodes ids parent ++ added := by
  cases parent with
  | none => rfl
  | some p =>
    have hp : p < nodes.size := h p rfl
    apply Array.ext_getElem?
    intro i
    simp only [adopt, Array.getElem?_modify, Array.getElem?_append, Array.size_modify]
    by_cases hi : p = i
    · simp [← hi, hp]
    · simp [hi]

theorem adopt_push (nodes : Array Node) (n : Node) (ids : List NodeId) :
    adopt (nodes.push n) ids (some nodes.size) =
      nodes.push { n with children := n.children ++ ids } := by
  apply Array.ext_getElem?
  intro i
  simp only [adopt, Array.getElem?_modify, Array.getElem?_push]
  by_cases hi : nodes.size = i
  · simp [hi]
  · simp [hi, Ne.symm hi]

/-- What comes of the nodes after the subtree under the cursor is done. -/
def resume (nodes : Array Node) (stack : List NodeId) (c : Cursor) : Array Node :=
  match c.leave stack with
  | none => nodes
  | some (stack, next) => copy nodes stack next

theorem resume_root (nodes : Array Node) (stack : List NodeId) (tree : RawTree) :
    resume nodes stack (.root tree) = nodes := rfl

theorem resume_last (nodes : Array Node) (stack : List NodeId) (p : NodeId) (c : Cursor)
    (tree : RawTree) : resume nodes (p :: stack) (.child c tree []) = resume nodes stack c := rfl

theorem resume_sibling (nodes : Array Node) (stack : List NodeId) (c : Cursor)
    (tree next : RawTree) (later : List RawTree) :
    resume nodes stack (.child c tree (next :: later)) = copy nodes stack (.child c next later) :=
  rfl

/-- After a node come its subtrees, as if they were the siblings that follow a first child. -/
theorem copy_eq_resume (nodes : Array Node) (stack : List NodeId) (c : Cursor) (tree : RawTree) :
    copy nodes stack c =
      resume (adopt (nodes.push (.ofLabel c.label stack [])) [nodes.size] stack.head?)
        (nodes.size :: stack) (.child c tree c.tree.children) := by
  rw [copy]
  cases hc : c.tree.children with
  | nil =>
    have hnext : c.next? stack nodes.size = c.leave stack := by
      simp [Cursor.next?, Cursor.firstChild?, hc]
    rw [resume_last, resume]
    split
    next hn => rw [← hnext, hn]
    next hn => rw [← hnext, hn]
  | cons first later =>
    have hnext : c.next? stack nodes.size = some (nodes.size :: stack, .child c first later) := by
      simp [Cursor.next?, Cursor.firstChild?, hc]
    rw [resume_sibling]
    split
    next hn => simp [hnext] at hn
    next hn =>
      obtain ⟨rfl, rfl⟩ := Prod.mk.inj (Option.some.inj (hnext.symm.trans hn))
      rfl

open RawTree

mutual

/-- The walk adds the nodes of a subtree, hangs its root below the top of the stack and goes on
behind the subtree with the same stack. -/
theorem copy_eq : ∀ (tree : RawTree) {nodes : Array Node} {stack : List NodeId} {c : Cursor},
    c.tree = tree → (∀ p ∈ stack.head?, p < nodes.size) →
    copy nodes stack c =
      resume (adopt nodes [nodes.size] stack.head? ++ (tree.layout stack nodes.size).toArray)
        stack c
  | .node label children, nodes, stack, c, hc, h => by
      let old := adopt nodes [nodes.size] stack.head?
      have hold : old.size = nodes.size := size_adopt ..
      -- the node comes without children and gets them while its subtrees are added
      have hpush : adopt (nodes.push (.ofLabel label stack [])) [nodes.size] stack.head? =
          old.push (.ofLabel label stack []) := by
        rw [Array.push_eq_append, adopt_append h, Array.push_eq_append]
      have hroots : adopt (old.push (.ofLabel label stack [])) (roots (nodes.size + 1) children)
          (some nodes.size) =
          old.push (.ofLabel label stack (roots (nodes.size + 1) children)) := by
        rw [← hold, adopt_push]
        rfl
      calc
        copy nodes stack c = resume (old.push (.ofLabel label stack [])) (nodes.size :: stack)
            (.child c c.tree children) := by
          rw [copy_eq_resume nodes stack c c.tree, Cursor.label, hc]
          exact congrArg (resume · _ _) hpush
        _ = resume (old.push (.ofLabel label stack (roots (nodes.size + 1) children)) ++
            (layoutAll (nodes.size :: stack) (nodes.size + 1) children).toArray) stack c := by
          rw [resume_eq children (by simp [hold]), Array.size_push, hold, hroots]
        _ = resume (old ++ (layout stack nodes.size (.node label children)).toArray) stack c := by
          simp [layout]

theorem resume_eq : ∀ (later : List RawTree) {nodes : Array Node} {stack : List NodeId}
    {p : NodeId} {c : Cursor} {tree : RawTree}, p < nodes.size →
    resume nodes (p :: stack) (.child c tree later) =
      resume (adopt nodes (roots nodes.size later) (some p) ++
        (layoutAll (p :: stack) nodes.size later).toArray) stack c
  | [], nodes, stack, p, c, tree, _ => by
      rw [resume_last, roots, adopt_nil, layoutAll, Array.append_empty]
  | next :: later, nodes, stack, p, c, tree, hp => by
      -- the nodes when the next sibling is done
      let old := adopt nodes [nodes.size] (some p) ++ (next.layout (p :: stack) nodes.size).toArray
      have hold : old.size = nodes.size + next.size := by simp [old, length_layout]
      have hlt : p < old.size := hold ▸ Nat.lt_add_right _ hp
      have hp' : ∀ q ∈ some p, q < (adopt nodes [nodes.size] (some p)).size := by simpa using hp
      calc
        resume nodes (p :: stack) (.child c tree (next :: later)) =
            resume old (p :: stack) (.child c next later) := copy_eq next rfl (by simpa using hp)
        _ = resume (adopt old (roots (nodes.size + next.size) later) (some p) ++
            (layoutAll (p :: stack) (nodes.size + next.size) later).toArray) stack c := by
          rw [resume_eq later hlt, hold]
        _ = _ := by
          rw [adopt_append hp', adopt_adopt]
          simp [roots, layoutAll]

end

end Arena

theorem RawTree.arena_eq_layout (raw : RawTree) : raw.arena = (raw.layout [] 0).toArray := by
  rw [arena, Arena.copy_eq raw rfl (by simp), Arena.resume_root, List.head?_nil, Arena.adopt]
  simp

namespace Tree

variable {i : NodeId}

theorem size_ofRaw (source : String) (raw : RawTree) : (ofRaw source raw).size = raw.size := by
  simp [size, ofRaw, raw.arena_eq_layout, RawTree.length_layout]

theorem node_ofRaw_of_ne (source : String) (raw : RawTree) (hi : i ≠ root) :
    (ofRaw source raw).node i = ((raw.layout [] 0)[i]?).getD .absent := by
  simp [ofRaw, node, raw.arena_eq_layout, Array.getD_eq_getD_getElem?, Ne.symm hi]

theorem node_ofRaw_root (source : String) (raw : RawTree) :
    (ofRaw source raw).node root = { ((raw.layout [] 0)[root]?).getD .absent with
      span := ⟨0, Text.byteLength source⟩ } := by
  cases raw with
  | node label children =>
    simp [ofRaw, node, RawTree.arena_eq_layout, Array.getD_eq_getD_getElem?, RawTree.layout, root]

theorem node_ofRaw (source : String) (raw : RawTree) (i : NodeId) :
    (ofRaw source raw).node i = { ((raw.layout [] 0)[i]?).getD .absent with
      span := (ofRaw source raw).span i } := by
  by_cases hi : i = root
  · rw [hi, span, node_ofRaw_root]
  · rw [span, node_ofRaw_of_ne source raw hi]

end Tree

end JavaRefactor
