import CPPCodes.Lib.Loop
import CPPCodes.Trees.Inorder
import Mathlib.Data.List.Perm.Basic

/-!
# Insertion level by level

`BinaryTree::Insert` keeps the tree complete: the node of the `i`-th value is at address `i`, below
`(i - 1) / 2`. A `BfsIterator` at `i` has with it the nodes behind it up to the children of `i`
(`next_at`), so it meets the nodes in the order of their addresses, and the first that lacks a child
is the one above the next address (`insert_complete`).
-/

namespace CPPCodes.Trees

open SearchTree (inorder)
open CompleteTree (completeAt levelOrder balanced)

variable {α : Type} {values : List α} {x : α} {i : ℕ}

/-- The node of the `i`-th of `n` values. -/
def nodeAt (n i : ℕ) (x : α) : Node α where
  parentp := if i = 0 then none else some ((i - 1) / 2)
  leftp := if 2 * i + 1 < n then some (2 * i + 1) else none
  rightp := if 2 * i + 2 < n then some (2 * i + 2) else none
  data := x

/-- The complete tree of the values. -/
def complete (values : List α) : Tree α where
  nodes := values.mapIdx (nodeAt values.length)
  rootp := if values.length = 0 then none else some 0

theorem getElem?_complete (h : values[i]? = some x) :
    (complete values).nodes[i]? = some (nodeAt values.length i x) := by
  rw [complete, List.getElem?_mapIdx, h, Option.map_some]

theorem length_complete : (complete values).nodes.length = values.length :=
  List.length_mapIdx

namespace BfsIterator

/-- At place `i`, with the nodes up to its children still to visit. -/
def atPlace (n i : ℕ) : BfsIterator where
  nodep := some i
  to_visit := List.range' (i + 1) (min (2 * i + 2) (n - 1) - i)

theorem children_eq (n i : ℕ) (x : α) :
    (nodeAt n i x).leftp.toList ++ (nodeAt n i x).rightp.toList =
    List.range' (2 * i + 1) (min (2 * i + 2) (n - 1) - 2 * i) := by
  unfold nodeAt
  by_cases hleft : 2 * i + 1 < n
  · by_cases hright : 2 * i + 2 < n
    · have hlen : min (2 * i + 2) (n - 1) - 2 * i = 2 := by omega
      rw [if_pos hleft, if_pos hright, hlen]
      rfl
    · have hlen : min (2 * i + 2) (n - 1) - 2 * i = 1 := by omega
      rw [if_pos hleft, if_neg hright, hlen]
      rfl
  · have hlen : min (2 * i + 2) (n - 1) - 2 * i = 0 := by omega
    have hright : ¬ 2 * i + 2 < n := by omega
    rw [if_neg hleft, if_neg hright, hlen]
    rfl

theorem new_complete (h : values ≠ []) :
    new (complete values).nodes (some 0) = some (atPlace values.length 0) := by
  obtain ⟨x, rest, rfl⟩ := List.exists_cons_of_ne_nil h
  have hchildren := children_eq (x :: rest).length 0 x
  unfold new addChildrenToVisit
  simp only [getElem?_complete (List.getElem?_cons_zero (a := x) (l := rest)), Option.bind_eq_bind,
    Option.bind_some, List.nil_append, hchildren]
  rfl

/-- The nodes behind the next one, and its children. -/
theorem range'_children (n i : ℕ) :
    List.range' (i + 1 + 1) (min (2 * i + 2) (n - 1) - i - 1) ++
        List.range' (2 * (i + 1) + 1) (min (2 * (i + 1) + 2) (n - 1) - 2 * (i + 1)) =
      List.range' (i + 1 + 1) (min (2 * (i + 1) + 2) (n - 1) - (i + 1)) := by
  by_cases hn : 2 * i + 2 ≤ n - 1
  · have hplace : 2 * (i + 1) + 1 = i + 1 + 1 + (min (2 * i + 2) (n - 1) - i - 1) := by omega
    rw [hplace, List.range'_append_1]
    congr 1
    omega
  · have hlen : min (2 * (i + 1) + 2) (n - 1) - 2 * (i + 1) = 0 := by omega
    rw [hlen, List.range'_zero, List.append_nil]
    congr 1
    omega

/-- The nodes are visited in the order of their addresses. -/
theorem next_atPlace (h : i + 1 < values.length) :
    (atPlace values.length i).next (complete values).nodes =
      some (atPlace values.length (i + 1)) := by
  have hchildren := children_eq values.length (i + 1) values[i + 1]
  have hlen : min (2 * i + 2) (values.length - 1) - i =
      min (2 * i + 2) (values.length - 1) - i - 1 + 1 := by omega
  have hget := getElem?_complete (List.getElem?_eq_getElem h)
  unfold next atPlace
  rw [hlen, List.range'_succ]
  unfold addChildrenToVisit
  simp only [hget, Option.bind_eq_bind, Option.bind_some, List.append_assoc, hchildren,
    range'_children]
  rfl

theorem next_last (h : i + 1 = values.length) :
    (atPlace values.length i).next (complete values).nodes =
      some { nodep := none, to_visit := [] } := by
  have hlen : min (2 * i + 2) (values.length - 1) - i = 0 := by omega
  unfold next atPlace
  rw [hlen]
  rfl

end BfsIterator

theorem nodeAt_parent_left {n : ℕ} (h : n = 2 * i + 1) (x : α) :
    { nodeAt n i x with leftp := some n } = nodeAt (n + 1) i x := by
  unfold nodeAt
  rw [if_neg (by omega : ¬ 2 * i + 2 < n), if_pos (by omega : 2 * i + 1 < n + 1),
    if_neg (by omega : ¬ 2 * i + 2 < n + 1), h]

theorem nodeAt_parent_right {n : ℕ} (h : n = 2 * i + 2) (x : α) :
    { nodeAt n i x with rightp := some n } = nodeAt (n + 1) i x := by
  unfold nodeAt
  rw [if_pos (by omega : 2 * i + 1 < n), if_pos (by omega : 2 * i + 1 < n + 1),
    if_pos (by omega : 2 * i + 2 < n + 1), h]

/-- The other nodes stay as they are. -/
theorem nodeAt_stays {n j : ℕ} (hleft : 2 * j + 1 ≠ n) (hright : 2 * j + 2 ≠ n) (x : α) :
    nodeAt n j x = nodeAt (n + 1) j x := by
  have hiff : 2 * j + 1 < n ↔ 2 * j + 1 < n + 1 := by omega
  have hiff' : 2 * j + 2 < n ↔ 2 * j + 2 < n + 1 := by omega
  unfold nodeAt
  simp only [hiff, hiff']

theorem nodeAt_last {n : ℕ} (h : n = 2 * i + 1 ∨ n = 2 * i + 2) (x : α) :
    Node.new (some i) x = nodeAt (n + 1) n x := by
  have hparent : (n - 1) / 2 = i := by omega
  unfold nodeAt
  rw [if_neg (by omega : n ≠ 0), hparent, if_neg (by omega : ¬ 2 * n + 1 < n + 1),
    if_neg (by omega : ¬ 2 * n + 2 < n + 1)]
  rfl

/-- A further value is below the node at `i`. -/
theorem attached_complete {y : α} (h : values[i]? = some y)
    (hn : values.length = 2 * i + 1 ∨ values.length = 2 * i + 2) (x : α) :
    attached (complete values).nodes i (nodeAt (values.length + 1) i y) x =
      (complete (values ++ [x])).nodes := by
  have hi : i < (complete values).nodes.length := by
    rw [length_complete]
    omega
  have hlen : (values ++ [x]).length = values.length + 1 := by
    rw [List.length_append, List.length_singleton]
  refine List.ext_getElem? fun j => ?_
  rcases Nat.lt_trichotomy j values.length with hj | rfl | hj
  · have hget : (values ++ [x])[j]? = values[j]? := List.getElem?_append_left hj
    by_cases hij : j = i
    · subst hij
      rw [getElem?_attached_parent _ _ hi, getElem?_complete (hget.trans h), hlen]
    · have hvalue := List.getElem?_eq_getElem hj
      rw [getElem?_attached _ _ (by rwa [length_complete]) hij, getElem?_complete hvalue,
        getElem?_complete (hget.trans hvalue), hlen, nodeAt_stays (by omega) (by omega)]
  · have hget : (values ++ [x])[values.length]? = some x := by
      rw [List.getElem?_append_right (Nat.le_refl _), Nat.sub_self]
      rfl
    rw [getElem?_complete hget, hlen, ← nodeAt_last hn]
    unfold attached
    rw [List.getElem?_set_ne (by omega), List.getElem?_append_right (by rw [length_complete]),
      length_complete, Nat.sub_self]
    rfl
  · have hlen' : (attached (complete values).nodes i (nodeAt (values.length + 1) i y) x).length =
        values.length + 1 := by rw [length_attached, length_complete]
    rw [List.getElem?_eq_none (by omega),
      List.getElem?_eq_none (by rw [length_complete, hlen]; omega)]

theorem insertLoop_complete (values : List α) (x : α) :
    ∀ (fuel : ℕ) {i : ℕ}, 2 * i < values.length →
    values.length ≤ fuel + i → insertLoop (complete values).nodes x fuel
      (BfsIterator.atPlace values.length i) = some (complete (values ++ [x])).nodes
  | 0, i, h, hfuel => by omega
  | fuel + 1, i, h, hfuel => by
    have hvalue := List.getElem?_eq_getElem (by omega : i < values.length)
    have hget := getElem?_complete hvalue
    have hnodep : (BfsIterator.atPlace values.length i).nodep = some i := rfl
    unfold insertLoop
    simp only [hnodep, hget, Option.bind_eq_bind, Option.bind_some]
    by_cases hleft : 2 * i + 1 < values.length
    · have hleftp : (nodeAt values.length i values[i]).leftp = some (2 * i + 1) := if_pos hleft
      rw [hleftp, if_neg (by simp)]
      by_cases hright : 2 * i + 2 < values.length
      · have hrightp : (nodeAt values.length i values[i]).rightp = some (2 * i + 2) := if_pos hright
        rw [hrightp, if_neg (by simp), BfsIterator.next_atPlace (by omega), Option.bind_some]
        exact insertLoop_complete values x fuel (by omega) (by omega)
      · have hrightp : (nodeAt values.length i values[i]).rightp = none := if_neg hright
        have hn : values.length = 2 * i + 2 := by omega
        rw [hrightp, if_pos Option.isNone_none, attachRight_eq hget, length_complete,
          nodeAt_parent_right hn, attached_complete hvalue (.inr hn)]
    · have hleftp : (nodeAt values.length i values[i]).leftp = none := if_neg hleft
      have hn : values.length = 2 * i + 1 := by omega
      rw [hleftp, if_pos Option.isNone_none, attachLeft_eq hget, length_complete,
        nodeAt_parent_left hn, attached_complete hvalue (.inl hn)]

theorem insert_complete (values : List α) (x : α) :
    (complete values).insert x = some (complete (values ++ [x])) := by
  rcases eq_or_ne values [] with rfl | hvalues
  · rfl
  · have hne : values.length ≠ 0 := fun hlen => hvalues (List.length_eq_zero_iff.1 hlen)
    have hroot : (complete values).rootp = some 0 := if_neg hne
    have hroot' : (complete (values ++ [x])).rootp = some 0 := if_neg (by simp)
    have hloop := insertLoop_complete values x values.length (i := 0) (by omega) (by omega)
    unfold Tree.insert
    rw [hroot]
    simp only [BfsIterator.new_complete hvalues, length_complete, hloop, Option.bind_eq_bind,
      Option.bind_some]
    rw [← hroot']
    rfl

/-- The tree after these insertions, each of them `BinaryTree::Insert`. -/
def build (values : List α) : Option (Tree α) := values.foldlM Tree.insert .empty

theorem build_eq (values : List α) : build values = some (complete values) := by
  obtain ⟨tree, hrun, rfl⟩ := Loop.exists_foldlM (l := values) (f := Tree.insert)
    (P := fun pre tree => tree = complete pre) rfl fun pre x _ tree htree =>
      ⟨_, by rw [htree, insert_complete], rfl⟩
  exact hrun

/-- The addresses with the values. -/
def placed (values : List α) : List (ℕ × α) := values.mapIdx Prod.mk

theorem map_fst_placed (values : List α) :
    (placed values).map Prod.fst = List.range values.length :=
  List.ext_getElem (by simp [placed]) fun i _ _ => by simp [placed]

theorem map_snd_placed (values : List α) : (placed values).map Prod.snd = values :=
  List.ext_getElem (by simp [placed]) fun i _ _ => by simp [placed]

theorem shape_complete (values : List α) (i : ℕ) :
    Shape (complete values).nodes (if i = 0 then none else some ((i - 1) / 2))
      (if i < values.length then some i else none) (completeAt (placed values) i) := by
  have hlen : (placed values).length = values.length := List.length_mapIdx
  by_cases hi : i < values.length
  · have hleft := shape_complete values (2 * i + 1)
    have hright := shape_complete values (2 * i + 2)
    have hparentl : (2 * i + 1 - 1) / 2 = i := by omega
    have hparentr : (2 * i + 2 - 1) / 2 = i := by omega
    rw [if_neg (Nat.succ_ne_zero _), hparentl] at hleft
    rw [if_neg (Nat.succ_ne_zero _), hparentr] at hright
    have hget := getElem?_complete (List.getElem?_eq_getElem hi)
    have hplaced : (placed values)[i] = (i, values[i]) := List.getElem_mapIdx
    rw [if_pos hi, CompleteTree.completeAt_of_lt (by rwa [hlen]), hplaced]
    have hshape := Shape.node hget rfl hleft hright
    exact hshape
  · rw [if_neg hi, CompleteTree.completeAt_of_le (by omega)]
    exact .nil
termination_by values.length - i

theorem represents_complete (values : List α) :
    Represents (complete values) (completeAt (placed values) 0) := by
  refine ⟨?_, ?_⟩
  · have hshape := shape_complete values 0
    rw [if_pos rfl] at hshape
    have hroot : (complete values).rootp = if 0 < values.length then some 0 else none := by
      unfold complete
      by_cases hlen : values.length = 0
      · rw [if_pos hlen, if_neg (by omega)]
      · rw [if_neg hlen, if_pos (by omega)]
    rwa [hroot]
  · have hperm := (CompleteTree.levelOrder_perm (completeAt (placed values) 0)).symm.map Prod.fst
    rw [CompleteTree.levelOrder_completeAt] at hperm
    rw [map_fst_placed] at hperm
    rwa [length_complete]

/-- The loop over a `BfsIterator(rootp)`, in at most `fuel` turns: what it visits. -/
def Tree.bfs (tree : Tree α) (fuel : ℕ) : Option (List (ℕ × α)) := do
  let it ← BfsIterator.new tree.nodes tree.rootp
  (BfsIterator.protocol tree.nodes).run fuel it

theorem yields_atPlace (values : List α) (i : ℕ) (h : i < values.length) :
    (BfsIterator.protocol (complete values).nodes).Yields (.atPlace values.length i)
      ((placed values).drop i) := by
  have hlen : (placed values).length = values.length := List.length_mapIdx
  have hget := getElem?_complete (List.getElem?_eq_getElem h)
  have hplaced : (placed values)[i] = (i, values[i]) := List.getElem_mapIdx
  rw [List.drop_eq_getElem_cons (by rwa [hlen]), hplaced]
  by_cases hlast : i + 1 < values.length
  · exact .step rfl (valueAt_eq hget) (BfsIterator.next_atPlace hlast)
      (yields_atPlace values (i + 1) hlast)
  · rw [List.drop_eq_nil_of_le (by omega)]
    exact .step rfl (valueAt_eq hget) (BfsIterator.next_last (by omega)) (.done rfl)
termination_by values.length - i

theorem exists_bfs (values : List α) :
    ∃ fuel, (complete values).bfs fuel = some (placed values) := by
  unfold Tree.bfs
  rcases eq_or_ne values [] with rfl | hvalues
  · exact ⟨1, rfl⟩
  · have hlen : values.length ≠ 0 := fun hlen => hvalues (List.length_eq_zero_iff.1 hlen)
    have hroot : (complete values).rootp = some 0 := if_neg hlen
    obtain ⟨fuel, hrun⟩ := (yields_atPlace values 0 (by omega)).exists_run
    refine ⟨fuel, ?_⟩
    rw [hroot, BfsIterator.new_complete hvalues]
    exact hrun

/-- Every run of insertions leaves a complete tree of the values, in their order. -/
theorem build_complete (values : List α) : ∃ tree t, build values = some tree ∧ Represents tree t ∧
    (levelOrder t).map Prod.snd = values ∧
    (∃ fuel visits, tree.bfs fuel = some visits ∧ visits.map Prod.snd = values) ∧ Linked tree ∧
    (values ≠ [] → tree.height = some ((values.length.log2 : ℤ) + 1)) ∧
    tree.isBalanced = some true := by
  have hrepresents := represents_complete values
  refine ⟨complete values, _, build_eq values, hrepresents, ?_, ?_, hrepresents.linked, ?_, ?_⟩
  · rw [CompleteTree.levelOrder_completeAt, map_snd_placed]
  · obtain ⟨fuel, hrun⟩ := exists_bfs values
    exact ⟨fuel, placed values, hrun, map_snd_placed values⟩
  · intro hvalues
    have hplaced : placed values ≠ [] := fun hnil => hvalues (by
      rw [← map_snd_placed values, hnil, List.map_nil])
    have hlen : (placed values).length = values.length := List.length_mapIdx
    rw [hrepresents.height, CompleteTree.height_completeAt_zero hplaced, hlen, Nat.cast_succ]
  · rw [hrepresents.isBalanced, CompleteTree.balanced_completeAt]

end CPPCodes.Trees
