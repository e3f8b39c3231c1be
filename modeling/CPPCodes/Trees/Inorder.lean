import CPPCodes.Trees.Shape

/-!
# The iterator visits the nodes in order

`InorderIterator` has no stack. From the last node of a subtree it comes where it would come from
its root if that had nothing to its right (`Leaves`): to the parent of a left child, and for a right
child to where the parent's subtree is left. So the visits of a subtree are its inorder sequence and
then those from there on (`Shape.yields`).
-/

namespace CPPCodes.Trees

open SearchTree (inorder)

namespace InorderIterator

variable {α : Type} {nodes : List (Node α)} {parentp : Option ℕ} {t : BinaryTree (ℕ × α)}
  {depth p q : ℕ} {next_ : Option ℕ} {node parent : Node α}

/-- The climb from `p`, with at most `depth` links, comes below `next_`. -/
def Leaves (nodes : List (Node α)) (depth p : ℕ) (next_ : Option ℕ) : Prop :=
  ∃ q node, (∀ fuel, depth < fuel → climb nodes fuel p = some q) ∧ nodes[q]? = some node ∧
    node.parentp = next_

theorem leaves_root (hnode : nodes[p]? = some node) (hparent : node.parentp = none) :
    Leaves nodes depth p none := by
  refine ⟨p, node, fun fuel hfuel => ?_, hnode, hparent⟩
  obtain ⟨fuel, rfl⟩ := Nat.exists_eq_succ_of_ne_zero (Nat.ne_zero_of_lt hfuel)
  unfold climb
  simp only [hnode, Option.bind_eq_bind, Option.bind_some, hparent]

theorem leaves_left (hnode : nodes[p]? = some node) (hparent : node.parentp = some q)
    (hq : nodes[q]? = some parent) (hright : parent.rightp ≠ some p) :
    Leaves nodes depth p (some q) := by
  refine ⟨p, node, fun fuel hfuel => ?_, hnode, hparent⟩
  obtain ⟨fuel, rfl⟩ := Nat.exists_eq_succ_of_ne_zero (Nat.ne_zero_of_lt hfuel)
  unfold climb
  simp only [hnode, Option.bind_eq_bind, Option.bind_some, hparent, hq, if_neg hright]

theorem Leaves.right (h : Leaves nodes depth q next_) (hnode : nodes[p]? = some node)
    (hparent : node.parentp = some q) (hq : nodes[q]? = some parent)
    (hright : parent.rightp = some p) : Leaves nodes (depth + 1) p next_ := by
  obtain ⟨top, last, hclimb, htop, hnext⟩ := h
  refine ⟨top, last, fun fuel hfuel => ?_, htop, hnext⟩
  obtain ⟨fuel, rfl⟩ := Nat.exists_eq_succ_of_ne_zero (Nat.ne_zero_of_lt hfuel)
  unfold climb
  simp only [hnode, Option.bind_eq_bind, Option.bind_some, hparent, hq, if_pos hright]
  exact hclimb fuel (by omega)

/-- A node with nothing to its right is the last of a subtree. -/
theorem Leaves.next (h : Leaves nodes depth p next_) (hnode : nodes[p]? = some node)
    (hright : node.rightp = none) (hdepth : depth < nodes.length) :
    next nodes (some p) = some next_ := by
  obtain ⟨top, last, hclimb, htop, hnext⟩ := h
  have hrun := hclimb nodes.length hdepth
  unfold InorderIterator.next
  simp only [hnode, Option.bind_eq_bind, Option.bind_some, hright]
  cases hparent : node.parentp with
  | some parentp =>
    simp only [Option.isSome_some, if_true, hrun, Option.bind_some, htop, hnext]
    cases next_ <;> rfl
  | none =>
    simp only [Option.isSome_none, Bool.false_eq_true, if_false]
    have hself := hclimb (depth + 1) (Nat.lt_succ_self _)
    unfold climb at hself
    simp only [hnode, Option.bind_eq_bind, Option.bind_some, hparent, Option.some_inj] at hself
    obtain rfl := hself
    obtain rfl := Option.some_inj.1 (hnode.symm.trans htop)
    rw [← hnext, hparent]

theorem leftMostChild_nil (hnode : nodes[p]? = some node) (hleft : node.leftp = none) {fuel : ℕ}
    (hfuel : 0 < fuel) : leftMostChild nodes fuel p = some p := by
  obtain ⟨fuel, rfl⟩ := Nat.exists_eq_succ_of_ne_zero hfuel.ne'
  unfold leftMostChild
  simp only [hnode, Option.bind_eq_bind, Option.bind_some, hleft]

/-- What is visited from a node on, if it is `vs` from the next one on. -/
theorem yields_cons (hnode : nodes[p]? = some node) (hnext : next nodes (some p) = some next_)
    {vs : List (ℕ × α)} (h : (protocol nodes).Yields next_ vs) :
    (protocol nodes).Yields (some p) ((p, node.data) :: vs) := by
  exact .step rfl (valueAt_eq hnode) hnext h

theorem yields_shape : ∀ (depth : ℕ) {p : ℕ} {next_ parentp : Option ℕ} {t : BinaryTree (ℕ × α)}
    {vs : List (ℕ × α)}, Shape nodes parentp (some p) t → (addresses t).Nodup →
    Leaves nodes depth p next_ → depth + t.height ≤ nodes.length →
    (protocol nodes).Yields next_ vs →
    ∃ first, (∀ fuel, t.height ≤ fuel → leftMostChild nodes fuel p = some first) ∧
      (protocol nodes).Yields (some first) (inorder t ++ vs)
  | depth, p, next_, _, .node _ l r, vs, .node hnode hparent hl hr, hnodup, hleaves, hdepth, hvs => by
    rename_i node
    rw [BinaryTree.height] at hdepth
    obtain ⟨hnodupl, hnodupr, -, -, hdisjoint⟩ := nodup_node hnodup
    -- from the node itself: the right subtree, if there is one, and what comes behind
    have hself : (protocol nodes).Yields (some p) ((p, node.data) :: (inorder r ++ vs)) := by
      cases hrightp : node.rightp with
      | none =>
        rw [hrightp] at hr
        cases hr
        exact yields_cons hnode (hleaves.next hnode hrightp (by omega)) hvs
      | some c =>
        rw [hrightp] at hr
        obtain ⟨child, hchild, hchildp⟩ := hr.exists_node
        obtain ⟨first, hfirst, hyields⟩ := yields_shape (depth + 1) hr hnodupr
          (hleaves.right hchild hchildp hnode hrightp) (by omega) hvs
        refine yields_cons hnode ?_ hyields
        unfold InorderIterator.next
        simp only [hnode, Option.bind_eq_bind, Option.bind_some, hrightp,
          hfirst nodes.length (by omega), Option.map_some]
    rw [inorder, List.append_assoc, List.cons_append]
    cases hleftp : node.leftp with
    | none =>
      rw [hleftp] at hl
      cases hl
      refine ⟨p, fun fuel hfuel => leftMostChild_nil hnode hleftp ?_, hself⟩
      rw [BinaryTree.height] at hfuel
      omega
    | some c =>
      rw [hleftp] at hl
      obtain ⟨child, hchild, hchildp⟩ := hl.exists_node
      have hside : node.rightp ≠ some c := by
        intro hrightp
        rw [hrightp] at hr
        exact hdisjoint c hl.mem_addresses hr.mem_addresses
      obtain ⟨first, hfirst, hyields⟩ := yields_shape (depth + 1) hl hnodupl
        (leaves_left hchild hchildp hnode hside) (by omega) hself
      refine ⟨first, fun fuel hfuel => ?_, hyields⟩
      rw [BinaryTree.height] at hfuel
      obtain ⟨fuel, rfl⟩ := Nat.exists_eq_succ_of_ne_zero (by omega : fuel ≠ 0)
      unfold leftMostChild
      simp only [hnode, Option.bind_eq_bind, Option.bind_some, hleftp]
      exact hfirst fuel (by omega)

end InorderIterator

/-- The loop from `begin()` to `end()` ends, and visits the nodes in order. -/
theorem Represents.iterate {α : Type} {tree : Tree α} {t : BinaryTree (ℕ × α)}
    (h : Represents tree t) : ∃ fuel, tree.iterate fuel = some (inorder t) := by
  have hdone : (InorderIterator.protocol tree.nodes).Yields none [] := .done rfl
  have hbegin : ∃ it, tree.begin = some it ∧
      (InorderIterator.protocol tree.nodes).Yields it (inorder t) := by
    have hshape := h.shape
    unfold Tree.begin InorderIterator.new
    cases hroot : tree.rootp with
    | none =>
      rw [hroot] at hshape
      cases hshape
      exact ⟨none, rfl, hdone⟩
    | some rootp =>
      rw [hroot] at hshape
      obtain ⟨root, hnode, hparent⟩ := hshape.exists_node
      obtain ⟨first, hfirst, hyields⟩ := InorderIterator.yields_shape 0 hshape h.nodup
        (InorderIterator.leaves_root hnode hparent) (by rw [Nat.zero_add]; exact h.height_le) hdone
      rw [List.append_nil] at hyields
      refine ⟨some first, ?_, hyields⟩
      simp only [hfirst tree.nodes.length h.height_le, Option.map_some]
  obtain ⟨it, hit, hyields⟩ := hbegin
  obtain ⟨fuel, hrun⟩ := hyields.exists_run
  refine ⟨fuel, ?_⟩
  unfold Tree.iterate
  rw [hit]
  exact hrun

end CPPCodes.Trees
