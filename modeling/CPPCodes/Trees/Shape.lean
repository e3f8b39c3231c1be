import CPPCodes.Lib.CompleteTree
import CPPCodes.Trees.BinaryTree
import Mathlib.Data.Nat.Cast.Order.Ring

/-!
# The tree that the nodes make

`Shape` reads the links as a tree of addresses and data in which each node has the link to its
parent. A tree has no other nodes than those below its root, each of them once (`Represents`).
`Height` and `IsBalanced` give what they are of this tree.
-/

namespace CPPCodes.Trees

open SearchTree (inorder)
open CompleteTree (balanced)

variable {α : Type}

inductive Shape (nodes : List (Node α)) : Option ℕ → Option ℕ → BinaryTree (ℕ × α) → Prop
  | nil {parentp : Option ℕ} : Shape nodes parentp none .nil
  | node {parentp : Option ℕ} {nodep : ℕ} {node : Node α} {l r : BinaryTree (ℕ × α)} :
      nodes[nodep]? = some node → node.parentp = parentp → Shape nodes (some nodep) node.leftp l →
      Shape nodes (some nodep) node.rightp r →
      Shape nodes parentp (some nodep) (.node (nodep, node.data) l r)

theorem valueAt_eq {nodes : List (Node α)} {nodep : ℕ} {node : Node α}
    (h : nodes[nodep]? = some node) : valueAt nodes (some nodep) = some (nodep, node.data) := by
  show (nodes[nodep]?).bind (fun node => some (nodep, node.data)) = some (nodep, node.data)
  rw [h, Option.bind_some]

def addresses (t : BinaryTree (ℕ × α)) : List ℕ := (inorder t).map Prod.fst

structure Represents (tree : Tree α) (t : BinaryTree (ℕ × α)) : Prop where
  shape : Shape tree.nodes none tree.rootp t
  addresses : (addresses t).Perm (List.range tree.nodes.length)

variable {nodes nodes' : List (Node α)} {parentp nodep : Option ℕ} {l r t : BinaryTree (ℕ × α)}
  {a : ℕ} {v : ℕ × α}

theorem addresses_node : addresses (.node v l r) = addresses l ++ v.1 :: addresses r := by
  rw [addresses, inorder, List.map_append, List.map_cons]
  rfl

theorem length_addresses : (addresses t).length = t.numNodes := by
  rw [addresses, List.length_map, SearchTree.length_inorder]

/-- The address of the node is none of those below it, and those on its sides are different. -/
theorem nodup_node (h : (addresses (.node v l r)).Nodup) :
    (addresses l).Nodup ∧ (addresses r).Nodup ∧ v.1 ∉ addresses l ∧ v.1 ∉ addresses r ∧
      ∀ a ∈ addresses l, a ∉ addresses r := by
  rw [addresses_node] at h
  obtain ⟨hl, hr, hne⟩ := List.nodup_append.1 h
  obtain ⟨hv, hr⟩ := List.nodup_cons.1 hr
  refine ⟨hl, hr, fun hmem => hne _ hmem _ List.mem_cons_self rfl, hv, fun a ha ha' => ?_⟩
  exact hne a ha a (List.mem_cons_of_mem _ ha') rfl

theorem Shape.exists_node (h : Shape nodes parentp (some a) t) :
    ∃ node, nodes[a]? = some node ∧ node.parentp = parentp := by
  cases h with
  | node hnode hparent => exact ⟨_, hnode, hparent⟩

theorem Shape.mem_addresses (h : Shape nodes parentp (some a) t) : a ∈ addresses t := by
  cases h with
  | node => simp [addresses_node]

theorem Shape.lt_length (h : Shape nodes parentp nodep t) :
    ∀ a ∈ addresses t, a < nodes.length := by
  induction h with
  | nil => simp [addresses, inorder]
  | node hnode _ _ _ ihl ihr =>
    intro a ha
    rw [addresses_node] at ha
    rcases List.mem_append.1 ha with ha | ha
    · exact ihl a ha
    · rcases List.mem_cons.1 ha with rfl | ha
      · exact (List.getElem?_eq_some_iff.1 hnode).1
      · exact ihr a ha

/-- The tree stays if its nodes do. -/
theorem Shape.frame (h : Shape nodes parentp nodep t)
    (hframe : ∀ a ∈ addresses t, nodes'[a]? = nodes[a]?) : Shape nodes' parentp nodep t := by
  induction h with
  | nil => exact .nil
  | @node _ nodep _ l r hnode hparent _ _ ihl ihr =>
    rw [addresses_node] at hframe
    refine .node ?_ hparent (ihl fun a ha => hframe a (List.mem_append_left _ ha))
      (ihr fun a ha => hframe a (List.mem_append_right _ (List.mem_cons_of_mem _ ha)))
    rw [hframe nodep (List.mem_append_right _ List.mem_cons_self), hnode]

theorem Represents.nodup {tree : Tree α} (h : Represents tree t) : (Trees.addresses t).Nodup :=
  h.addresses.nodup_iff.2 List.nodup_range

theorem Represents.height_le {tree : Tree α} (h : Represents tree t) :
    t.height ≤ tree.nodes.length := by
  have hlen := h.addresses.length_eq
  rw [length_addresses, List.length_range] at hlen
  exact hlen ▸ t.height_le_numNodes

/-- Every child links to its parent, and the root to none. -/
structure Linked (tree : Tree α) : Prop where
  root : ∀ rootp, tree.rootp = some rootp →
    ∃ root, tree.nodes[rootp]? = some root ∧ root.parentp = none
  child : ∀ (a : ℕ) (node : Node α) (c : ℕ), tree.nodes[a]? = some node →
    node.leftp = some c ∨ node.rightp = some c →
      ∃ child, tree.nodes[c]? = some child ∧ child.parentp = some a

theorem Shape.linked (h : Shape nodes parentp nodep t) : ∀ b ∈ addresses t, ∀ node c,
    nodes[b]? = some node → node.leftp = some c ∨ node.rightp = some c →
      ∃ child, nodes[c]? = some child ∧ child.parentp = some b := by
  induction h with
  | nil => simp [addresses, inorder]
  | @node _ a self l r hself _ hl hr ihl ihr =>
    intro b hb node c hnode hc
    rw [addresses_node] at hb
    rcases List.mem_append.1 hb with hb | hb
    · exact ihl b hb node c hnode hc
    · rcases List.mem_cons.1 hb with rfl | hb
      · obtain rfl := Option.some_inj.1 (hself.symm.trans hnode)
        rcases hc with hc | hc
        · exact (hc ▸ hl).exists_node
        · exact (hc ▸ hr).exists_node
      · exact ihr b hb node c hnode hc

theorem Represents.linked {tree : Tree α} (h : Represents tree t) : Linked tree where
  root := fun rootp hroot => (hroot ▸ h.shape).exists_node
  child := fun a node c hnode hc => by
    have ha : a ∈ Trees.addresses t :=
      h.addresses.mem_iff.2 (List.mem_range.2 (List.getElem?_eq_some_iff.1 hnode).1)
    exact h.shape.linked a ha node c hnode hc

theorem heightAt_spec : ∀ (fuel : ℕ) {parentp nodep : Option ℕ} {t : BinaryTree (ℕ × α)},
    Shape nodes parentp nodep t → t.height < fuel → heightAt nodes fuel nodep = some (t.height : ℤ)
  | 0, _, _, _, _, hfuel => absurd hfuel (Nat.not_lt_zero _)
  | _ + 1, _, _, _, .nil, _ => rfl
  | fuel + 1, _, _, _, .node (l := l) (r := r) hnode _ hl hr, hfuel => by
    rw [BinaryTree.height] at hfuel
    have hleft := heightAt_spec fuel hl (by omega)
    have hright := heightAt_spec fuel hr (by omega)
    unfold heightAt
    rw [hnode]
    simp only [Option.bind_eq_bind, Option.bind_some, hleft, hright, BinaryTree.height,
      Nat.cast_add, Nat.cast_max, Nat.cast_one]
    rfl

theorem isBalancedAt_spec : ∀ (fuel : ℕ) (b : Bool) {parentp nodep : Option ℕ}
    {t : BinaryTree (ℕ × α)}, Shape nodes parentp nodep t → t.height < fuel →
      isBalancedAt nodes fuel nodep b = some ((t.height : ℤ), b && balanced t)
  | 0, _, _, _, _, _, hfuel => absurd hfuel (Nat.not_lt_zero _)
  | _ + 1, b, _, _, _, .nil, _ => by
    rw [balanced, Bool.and_true]
    rfl
  | fuel + 1, b, _, _, _, .node (l := l) (r := r) hnode _ hl hr, hfuel => by
    rw [BinaryTree.height] at hfuel
    have hleft := isBalancedAt_spec fuel b hl (by omega)
    have hright := isBalancedAt_spec fuel (b && balanced l) hr (by omega)
    have hflag : (if ((l.height : ℤ) - r.height).natAbs > 1 then false
        else b && balanced l && balanced r) =
        (b && (balanced l && balanced r && decide (((l.height : ℤ) - r.height).natAbs ≤ 1))) := by
      by_cases hle : ((l.height : ℤ) - r.height).natAbs ≤ 1
      · rw [if_neg (by omega), decide_eq_true hle, Bool.and_true, Bool.and_assoc]
      · rw [if_pos (by omega), decide_eq_false hle, Bool.and_false, Bool.and_false]
    unfold isBalancedAt
    rw [hnode]
    simp only [Option.bind_eq_bind, Option.bind_some, hleft, hright, hflag, BinaryTree.height,
      Nat.cast_add, Nat.cast_max, Nat.cast_one, balanced]
    rfl

theorem Represents.height {tree : Tree α} (h : Represents tree t) :
    tree.height = some (t.height : ℤ) :=
  heightAt_spec _ h.shape (Nat.lt_succ_of_le h.height_le)

theorem Represents.isBalanced {tree : Tree α} (h : Represents tree t) :
    tree.isBalanced = some (balanced t) := by
  unfold Tree.isBalanced
  rw [isBalancedAt_spec _ true h.shape (Nat.lt_succ_of_le h.height_le)]
  rfl

variable {node : Node α} {data : α}

/-- The nodes with a new one, and with the link to it in its parent. -/
def attached (nodes : List (Node α)) (a : ℕ) (parent : Node α) (data : α) : List (Node α) :=
  (nodes ++ [Node.new (some a) data]).set a parent

theorem attachLeft_eq (hnode : nodes[a]? = some node) : attachLeft nodes a data =
    some (attached nodes a { node with leftp := some nodes.length } data) := by
  have ha : a < nodes.length := (List.getElem?_eq_some_iff.1 hnode).1
  unfold attachLeft newNode
  simp only [List.getElem?_append_left ha, hnode, Option.bind_eq_bind, Option.bind_some]
  rfl

theorem attachRight_eq (hnode : nodes[a]? = some node) : attachRight nodes a data =
    some (attached nodes a { node with rightp := some nodes.length } data) := by
  have ha : a < nodes.length := (List.getElem?_eq_some_iff.1 hnode).1
  unfold attachRight newNode
  simp only [List.getElem?_append_left ha, hnode, Option.bind_eq_bind, Option.bind_some]
  rfl

section Attached

variable (parent : Node α) (data : α)

theorem getElem?_attached_parent (ha : a < nodes.length) :
    (attached nodes a parent data)[a]? = some parent :=
  List.getElem?_set_self (by rw [List.length_append]; omega)

theorem getElem?_attached {b : ℕ} (hb : b < nodes.length) (hne : b ≠ a) :
    (attached nodes a parent data)[b]? = nodes[b]? := by
  unfold attached
  rw [List.getElem?_set_ne hne.symm, List.getElem?_append_left hb]

theorem length_attached : (attached nodes a parent data).length = nodes.length + 1 := by
  rw [attached, List.length_set, List.length_append, List.length_singleton]

theorem shape_leaf (ha : a < nodes.length) :
    Shape (attached nodes a parent data) (some a) (some nodes.length)
      (.node (nodes.length, data) .nil .nil) := by
  have hleaf : (attached nodes a parent data)[nodes.length]? = some (Node.new (some a) data) := by
    unfold attached
    rw [List.getElem?_set_ne (by omega), List.getElem?_append_right (Nat.le_refl _), Nat.sub_self]
    rfl
  exact Shape.node hleaf rfl .nil .nil

/-- A subtree without the parent stays. -/
theorem Shape.attached {parentp nodep : Option ℕ} (h : Shape nodes parentp nodep t)
    (hmem : a ∉ addresses t) : Shape (attached nodes a parent data) parentp nodep t :=
  h.frame fun b hb => getElem?_attached parent data (h.lt_length b hb) fun heq => hmem (heq ▸ hb)

end Attached

end CPPCodes.Trees
