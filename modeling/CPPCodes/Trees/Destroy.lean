import CPPCodes.Lib.Memory
import CPPCodes.Trees.SearchTree

/-!
# The end of a tree

`~Node` with `Free`, and the destructor of `BinaryTree`, which `BST` inherits. A node is given back
behind the nodes below it, so that none is given back twice, or read when it is gone, and none is
left.
-/

namespace CPPCodes.Trees

open Memory

variable {α : Type}

/-- The memory, and the nodes that have been given back, in their order. -/
structure Heap (α : Type) where
  cells : Cells (Node α)
  freed : List ℕ

/-- In `Free`: the child is deleted, and then the pointer to it set to null. -/
def freeChild (delete : Heap α → ℕ → Option (Heap α)) (clear : Node α → Node α) (nodep : ℕ) :
    Heap α → Option ℕ → Option (Heap α) :=
  unlessNull fun h childp => do
    let h ← delete h childp
    let node ← h.cells nodep
    let cells ← store h.cells nodep (clear node)
    return { h with cells }

/-- `delete nodep`: `Free` is called, and then the node is given back. To a depth of `fuel` calls. -/
def deleteNode : ℕ → Heap α → ℕ → Option (Heap α)
  | 0, _, _ => none
  | fuel + 1, h, nodep => do
    let node ← h.cells nodep
    let h ← freeChild (deleteNode fuel) (fun node => { node with leftp := none }) nodep h node.leftp
    let node ← h.cells nodep
    let h ← freeChild (deleteNode fuel) (fun node => { node with rightp := none }) nodep h node.rightp
    let cells ← free h.cells nodep
    return { cells, freed := h.freed ++ [nodep] }

/-- `~BinaryTree` -/
def Tree.destroy (tree : Tree α) (fuel : ℕ) : Option (Heap α) :=
  unlessNull (deleteNode fuel) ⟨ofList tree.nodes, []⟩ tree.rootp

/-- The addresses of a tree, each behind those below it. -/
def postOrder : BinaryTree (ℕ × α) → List ℕ
  | .nil => []
  | .node v l r => postOrder l ++ (postOrder r ++ [v.1])

variable {nodes : List (Node α)} {t : BinaryTree (ℕ × α)} {h : Heap α}

theorem postOrder_perm : ∀ t : BinaryTree (ℕ × α), (postOrder t).Perm (addresses t)
  | .nil => .refl _
  | .node v l r => by
    rw [addresses_node]
    refine (postOrder_perm l).append ?_
    exact (List.perm_append_singleton v.1 _).trans ((postOrder_perm r).cons v.1)

/-- The tree of the child is given back, and the node is still there. -/
theorem freeChild_spec (delete : Heap α → ℕ → Option (Heap α)) (clear : Node α → Node α)
    {parentp childp : Option ℕ} {a : ℕ} {node : Node α} (hs : Shape nodes parentp childp t)
    (ha : a ∉ postOrder t) (hnode : h.cells a = some node)
    (hdelete : ∀ c, childp = some c →
      delete h c = some ⟨without h.cells (postOrder t), h.freed ++ postOrder t⟩) :
    ∃ node', (node' = node ∨ node' = clear node) ∧ freeChild delete clear a h childp =
      some ⟨Function.update (without h.cells (postOrder t)) a (some node'),
        h.freed ++ postOrder t⟩ := by
  cases childp with
  | none =>
    cases hs
    refine ⟨node, .inl rfl, ?_⟩
    have hnil : without h.cells (postOrder (.nil : BinaryTree (ℕ × α))) = h.cells := without_nil
    rw [hnil, ← hnode, Function.update_eq_self, postOrder, List.append_nil]
    rfl
  | some c =>
    have hstays : without h.cells (postOrder t) a = some node := (without_of_notMem ha).trans hnode
    refine ⟨clear node, .inr rfl, ?_⟩
    rw [freeChild, unlessNull, hdelete c rfl]
    simp only [Option.bind_eq_bind, Option.bind_some, hstays, store_eq hstays]
    rfl

/-- Where the memory holds a tree, the tree is given back and nothing else. -/
theorem deleteNode_spec : ∀ (fuel : ℕ) {parentp : Option ℕ} {a : ℕ} {t : BinaryTree (ℕ × α)}
    {h : Heap α}, Shape nodes parentp (some a) t → (addresses t).Nodup → t.height ≤ fuel →
      (∀ b ∈ addresses t, h.cells b = nodes[b]?) →
      deleteNode fuel h a = some ⟨without h.cells (postOrder t), h.freed ++ postOrder t⟩
  | 0, _, _, _, _, hs, _, hfuel, _ => by
    cases hs
    simp at hfuel
  | fuel + 1, parentp, a, _, h, hs, hnodup, hfuel, hm => by
    cases hs with | @node _ _ node l r hnode _ hl hr => ?_
    obtain ⟨hnl, hnr, hal, har, hlr⟩ := nodup_node hnodup
    rw [addresses_node, List.forall_mem_append, List.forall_mem_cons] at hm
    obtain ⟨hml, hma, hmr⟩ := hm
    have hheight : l.height ≤ fuel ∧ r.height ≤ fuel := by
      simp only [BinaryTree.height] at hfuel
      omega
    obtain ⟨left, hleft, hfreeLeft⟩ := freeChild_spec (deleteNode fuel)
      (fun node => { node with leftp := none }) hl (mt (postOrder_perm l).mem_iff.1 hal)
      (hma.trans hnode) fun c hc => deleteNode_spec fuel (hc ▸ hl) hnl hheight.1 hml
    have hrightp : left.rightp = node.rightp := by
      rcases hleft with rfl | rfl <;> rfl
    -- the memory between the two calls
    generalize hbetween : (⟨Function.update (without h.cells (postOrder l)) a (some left),
      h.freed ++ postOrder l⟩ : Heap α) = between at hfreeLeft
    have hcell : between.cells a = some left := by
      rw [← hbetween]
      exact Function.update_self ..
    obtain ⟨right, -, hfreeRight⟩ := freeChild_spec (deleteNode fuel)
      (fun node => { node with rightp := none }) hr (mt (postOrder_perm r).mem_iff.1 har) hcell
      fun c hc => deleteNode_spec fuel (hc ▸ hr) hnr hheight.2 fun b hb => by
        have hne : b ≠ a := fun heq => har (heq ▸ hb)
        have hbl : b ∉ postOrder l := fun hbl => hlr b ((postOrder_perm l).mem_iff.1 hbl) hb
        rw [← hbetween]
        show Function.update _ a _ b = _
        rw [Function.update_of_ne hne, without_of_notMem hbl, hmr b hb]
    have hrightCell := Function.update_self a (some right) (without between.cells (postOrder r))
    unfold deleteNode
    rw [hma, hnode]
    simp only [Option.bind_eq_bind, Option.bind_some, hfreeLeft, hcell, hrightp, hfreeRight,
      free_eq hrightCell]
    rw [without_update (List.mem_singleton_self a), without_without, ← hbetween,
      without_update (List.mem_append_right _ (List.mem_singleton_self a)), without_without,
      List.append_assoc, List.append_assoc]
    rfl

/-- All nodes are given back, each once and behind its children. -/
structure GivenBack (nodes : List (Node α)) (freed : List ℕ) : Prop where
  all : ∀ a, a ∈ freed ↔ a < nodes.length
  once : freed.Nodup
  childrenFirst : freed.Pairwise fun a b =>
    ∀ node, nodes[a]? = some node → node.leftp ≠ some b ∧ node.rightp ≠ some b

/-- The children of a node are in the tree that it is in. -/
theorem Shape.child_mem {parentp nodep : Option ℕ} (hs : Shape nodes parentp nodep t) {a c : ℕ}
    {node : Node α} (ha : a ∈ addresses t) (hnode : nodes[a]? = some node)
    (hc : node.leftp = some c ∨ node.rightp = some c) : c ∈ addresses t := by
  have hroot : ∀ {parentp : Option ℕ} {t : BinaryTree (ℕ × α)},
      Shape nodes parentp (some c) t → c ∈ addresses t := fun hs => by
    cases hs
    rw [addresses_node]
    exact List.mem_append_right _ List.mem_cons_self
  induction hs with
  | nil => cases ha
  | node hnode' _ hl hr ihl ihr =>
    rw [addresses_node] at ha ⊢
    rcases List.mem_append.1 ha with ha | ha
    · exact List.mem_append_left _ (ihl ha)
    · rcases List.mem_cons.1 ha with rfl | ha
      · obtain rfl := Option.some.inj (hnode.symm.trans hnode')
        rcases hc with hc | hc
        · exact List.mem_append_left _ (hroot (hc ▸ hl))
        · exact List.mem_append_right _ (List.mem_cons_of_mem _ (hroot (hc ▸ hr)))
      · exact List.mem_append_right _ (List.mem_cons_of_mem _ (ihr ha))

theorem Shape.childrenFirst {parentp nodep : Option ℕ} (hs : Shape nodes parentp nodep t) :
    (addresses t).Nodup → (postOrder t).Pairwise fun a b =>
      ∀ node, nodes[a]? = some node → node.leftp ≠ some b ∧ node.rightp ≠ some b := by
  -- a node that is not in the tree of another is no child of it
  have hno : ∀ {parentp nodep : Option ℕ} {t : BinaryTree (ℕ × α)} {a b : ℕ},
      Shape nodes parentp nodep t → a ∈ postOrder t → b ∉ addresses t →
      ∀ node, nodes[a]? = some node → node.leftp ≠ some b ∧ node.rightp ≠ some b :=
    fun hs ha hb node hnode => not_or.1 fun hc =>
      hb (hs.child_mem ((postOrder_perm _).mem_iff.1 ha) hnode hc)
  induction hs with
  | nil => exact fun _ => .nil
  | node _ _ hl hr ihl ihr =>
    intro hnodup
    obtain ⟨hnl, hnr, hal, har, hlr⟩ := nodup_node hnodup
    refine List.pairwise_append.2 ⟨ihl hnl, List.pairwise_append.2 ⟨ihr hnr, ?_, ?_⟩, ?_⟩
    · exact List.pairwise_singleton _ _
    · intro a ha b hb
      exact hno hr ha (List.mem_singleton.1 hb ▸ har)
    · intro a ha b hb
      refine hno hl ha fun hbl => ?_
      rcases List.mem_append.1 hb with hb | hb
      · exact hlr b hbl ((postOrder_perm _).mem_iff.1 hb)
      · exact hal (List.mem_singleton.1 hb ▸ hbl)

theorem Represents.destroy {tree : Tree α} (hrep : Represents tree t) :
    ∃ freed, tree.destroy tree.nodes.length = some ⟨none_, freed⟩ ∧
      GivenBack tree.nodes freed := by
  have hmem : ∀ a, a ∈ postOrder t ↔ a < tree.nodes.length := fun a => by
    rw [(postOrder_perm t).mem_iff, hrep.addresses.mem_iff, List.mem_range]
  have hnone := without_ofList fun a ha => (hmem a).2 ha
  have hshape := hrep.shape
  refine ⟨postOrder t, ?_, hmem, (postOrder_perm t).nodup_iff.2 hrep.nodup,
    hshape.childrenFirst hrep.nodup⟩
  unfold Tree.destroy
  cases hroot : tree.rootp with
  | none =>
    rw [hroot] at hshape
    cases hshape
    rw [unlessNull, ← hnone]
    exact congrArg (fun cells => some (⟨cells, []⟩ : Heap α)) without_nil.symm
  | some a =>
    rw [hroot] at hshape
    rw [unlessNull, ← hnone]
    exact deleteNode_spec _ hshape hrep.nodup hrep.height_le fun _ _ => rfl

/-- The destructor gives all nodes of a tree back, each once and behind its children, whatever was
inserted. -/
theorem build_destroyed (less : α → α → Bool) (values : List α) :
    (∃ tree fuel freed, build values = some tree ∧ tree.destroy fuel = some ⟨none_, freed⟩ ∧
      GivenBack tree.nodes freed) ∧
    ∃ tree fuel freed, bstBuild less values = some tree ∧
      tree.destroy fuel = some ⟨none_, freed⟩ ∧ GivenBack tree.nodes freed := by
  obtain ⟨tree, t, hbuild, hrep, -, -⟩ := bstBuild_spec less values
  obtain ⟨freed, hdestroy, hback⟩ := (represents_complete values).destroy
  obtain ⟨freed', hdestroy', hback'⟩ := hrep.destroy
  exact ⟨⟨_, _, freed, build_eq values, hdestroy, hback⟩, tree, _, freed', hbuild, hdestroy',
    hback'⟩

end CPPCodes.Trees
