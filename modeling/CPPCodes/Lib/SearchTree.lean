import Mathlib.Data.List.Perm.Basic
import Mathlib.Data.Tree.Basic
import Mathlib.Order.Lattice
import Mathlib.Tactic.Common

/-!
# Search trees

The insertion of a value at the end of the one path that the comparisons take it. Every comparison
in the tree then holds for it too, whatever the comparison is (`Ordered.insert`); under an order by
a key the inorder sequence is that of the keys (`Ordered.pairwise`).
-/

namespace SearchTree

variable {α : Type*}

def inorder : BinaryTree α → List α
  | .nil => []
  | .node v l r => inorder l ++ v :: inorder r

/-- The tree with a new leaf: to the right of the values that are before it. -/
def insert (before : α → α → Bool) (x : α) : BinaryTree α → BinaryTree α
  | .nil => .node x .nil .nil
  | .node v l r =>
    if before v x then .node v l (insert before x r) else .node v (insert before x l) r

/-- At every node: it is before the values to its right, and not before those to its left. -/
def Ordered (before : α → α → Bool) : BinaryTree α → Prop
  | .nil => True
  | .node v l r => (∀ y ∈ inorder l, before v y = false) ∧ (∀ y ∈ inorder r, before v y = true) ∧
      Ordered before l ∧ Ordered before r

variable {before : α → α → Bool}

theorem length_inorder : ∀ t : BinaryTree α, (inorder t).length = t.numNodes
  | .nil => rfl
  | .node v l r => by
    have hl := length_inorder l
    have hr := length_inorder r
    simp only [inorder, List.length_append, List.length_cons, BinaryTree.numNodes, hl, hr]
    omega

theorem inorder_insert (x : α) : ∀ t, (inorder (insert before x t)).Perm (x :: inorder t)
  | .nil => .refl _
  | .node v l r => by
    unfold insert
    split
    · have hr := ((inorder_insert x r).cons v).append_left (inorder l)
      refine hr.trans ?_
      have hfront :
          (inorder l ++ [v] ++ x :: inorder r).Perm (x :: (inorder l ++ [v] ++ inorder r)) :=
        List.perm_middle
      simpa [inorder] using hfront
    · exact (inorder_insert x l).append_right (v :: inorder r)

theorem Ordered.insert (x : α) : ∀ {t}, Ordered before t → Ordered before (insert before x t)
  | .nil, _ => ⟨by simp [inorder], by simp [inorder], trivial, trivial⟩
  | .node v l r, ⟨hleft, hright, hl, hr⟩ => by
    unfold SearchTree.insert
    split
    · rename_i hx
      refine ⟨hleft, fun y hy => ?_, hl, Ordered.insert x hr⟩
      rcases List.mem_cons.1 ((inorder_insert x r).mem_iff.1 hy) with rfl | hy
      · exact hx
      · exact hright y hy
    · rename_i hx
      refine ⟨fun y hy => ?_, hright, Ordered.insert x hl, hr⟩
      rcases List.mem_cons.1 ((inorder_insert x l).mem_iff.1 hy) with rfl | hy
      · exact eq_false_of_ne_true hx
      · exact hleft y hy

theorem Ordered.pairwise {β : Type*} [LinearOrder β] {key : α → β} :
    ∀ {t : BinaryTree α}, Ordered (fun x y => decide (key x < key y)) t →
      ((inorder t).map key).Pairwise (· ≤ ·)
  | .nil, _ => .nil
  | .node v l r, ⟨hleft, hright, hl, hr⟩ => by
    have hle : ∀ y ∈ inorder l, key y ≤ key v := fun y hy =>
      not_lt.1 (of_decide_eq_false (hleft y hy))
    have hlt : ∀ y ∈ inorder r, key v < key y := fun y hy => of_decide_eq_true (hright y hy)
    rw [inorder, List.map_append, List.map_cons]
    refine List.pairwise_append.2 ⟨hl.pairwise, List.pairwise_cons.2 ⟨?_, hr.pairwise⟩, ?_⟩
    · rw [List.forall_mem_map]
      exact fun y hy => (hlt y hy).le
    · rw [List.forall_mem_map]
      intro y hy z hz
      rcases List.mem_cons.1 hz with rfl | hz
      · exact hle y hy
      · obtain ⟨w, hw, rfl⟩ := List.mem_map.1 hz
        exact (hle y hy).trans (hlt w hw).le

end SearchTree
