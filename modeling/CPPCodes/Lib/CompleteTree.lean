import CPPCodes.Lib.SearchTree
import Mathlib.Algebra.Order.Ring.Int
import Mathlib.Data.Nat.Log

/-!
# Complete trees

The tree of a list in which the children of place `i` are places `2 * i + 1` and `2 * i + 2`. Level
`d` below place `i` is a stretch of the list (`level_completeAt`), so from the root the levels are
the list; how far down there is one tells the heights (`height_completeAt_le_iff`).
-/

namespace CompleteTree

open SearchTree (inorder)

variable {α : Type*}

/-- The values `d` links below the root, from the left. -/
def level : BinaryTree α → ℕ → List α
  | .nil, _ => []
  | .node v _ _, 0 => [v]
  | .node _ l r, d + 1 => level l d ++ level r d

/-- The values level by level. -/
def levelOrder (t : BinaryTree α) : List α := (List.range t.height).flatMap (level t)

/-- No node has children whose heights differ by more than one. -/
def balanced : BinaryTree α → Bool
  | .nil => true
  | .node _ l r => balanced l && balanced r && decide (((l.height : ℤ) - r.height).natAbs ≤ 1)

/-- The complete tree below place `i`. -/
def completeAt (l : List α) (i : ℕ) : BinaryTree α :=
  if h : i < l.length then
    .node l[i] (completeAt l (2 * i + 1)) (completeAt l (2 * i + 2))
  else .nil
termination_by l.length - i

theorem completeAt_of_lt {l : List α} {i : ℕ} (h : i < l.length) : completeAt l i =
    .node l[i] (completeAt l (2 * i + 1)) (completeAt l (2 * i + 2)) := by
  rw [completeAt, dif_pos h]

theorem completeAt_of_le {l : List α} {i : ℕ} (h : l.length ≤ i) : completeAt l i = .nil := by
  rw [completeAt, dif_neg (by omega)]

theorem levels_perm : ∀ {t : BinaryTree α} {k : ℕ}, t.height ≤ k →
    ((List.range k).flatMap (level t)).Perm (inorder t)
  | .nil, k, _ => by
    have hnil : ((List.range k).flatMap fun _ => ([] : List α)) = [] := by simp
    exact .of_eq hnil
  | .node v l r, 0, h => absurd h (Nat.not_succ_le_zero _)
  | .node v l r, k + 1, h => by
    rw [BinaryTree.height] at h
    have hl := levels_perm (t := l) (k := k) (by omega)
    have hr := levels_perm (t := r) (k := k) (by omega)
    have hsides := List.flatMap_append_perm (List.range k) (level l) (level r)
    rw [List.range_succ_eq_map, List.flatMap_cons, List.flatMap_map]
    exact ((hsides.symm.trans (hl.append hr)).cons v).trans List.perm_middle.symm

theorem levelOrder_perm (t : BinaryTree α) : (levelOrder t).Perm (inorder t) :=
  levels_perm (Nat.le_refl _)

/-- The width of the level below, up to a place and from there on. -/
theorem pow_succ_mul (k i : ℕ) : 2 ^ (k + 1) * (i + 1) = 2 ^ k * (2 * i + 1 + 1) := by
  rw [Nat.pow_succ, Nat.mul_assoc, Nat.mul_succ]

theorem pow_mul_next (k i : ℕ) : 2 ^ k * (2 * i + 2 + 1) = 2 ^ k * (2 * i + 1 + 1) + 2 ^ k :=
  Nat.mul_succ _ _

theorem height_completeAt_le_iff (l : List α) : ∀ (k i : ℕ),
    (completeAt l i).height ≤ k ↔ l.length < 2 ^ k * (i + 1)
  | k, i => by
    by_cases hi : i < l.length
    · rw [completeAt_of_lt hi, BinaryTree.height]
      cases k with
      | zero =>
        rw [Nat.pow_zero, Nat.one_mul]
        omega
      | succ k =>
        have hleft := height_completeAt_le_iff l k (2 * i + 1)
        have hright := height_completeAt_le_iff l k (2 * i + 2)
        rw [pow_mul_next] at hright
        rw [pow_succ_mul]
        generalize 2 ^ k * (2 * i + 1 + 1) = width at *
        generalize 2 ^ k = step at hright
        omega
    · rw [completeAt_of_le (by omega), BinaryTree.height]
      have hpos : 0 < 2 ^ k := Nat.two_pow_pos k
      have hle := Nat.le_mul_of_pos_left (i + 1) hpos
      omega

theorem height_completeAt_zero {l : List α} (h : l ≠ []) :
    (completeAt l 0).height = l.length.log2 + 1 := by
  have hne : l.length ≠ 0 := fun hlen => h (List.length_eq_zero_iff.1 hlen)
  have hiff : ∀ k, (completeAt l 0).height ≤ k ↔ l.length.log2 + 1 ≤ k := by
    intro k
    rw [height_completeAt_le_iff, Nat.zero_add, Nat.mul_one, ← Nat.log2_lt hne]
    exact Iff.rfl
  exact Nat.le_antisymm ((hiff _).2 (Nat.le_refl _)) ((hiff _).1 (Nat.le_refl _))

theorem numNodes_lt_two_pow : ∀ t : BinaryTree α, t.numNodes < 2 ^ t.height
  | .nil => Nat.one_pos
  | .node _ l r => by
    have hl := numNodes_lt_two_pow l
    have hr := numNodes_lt_two_pow r
    have hwl : 2 ^ l.height ≤ 2 ^ max l.height r.height :=
      Nat.pow_le_pow_right Nat.two_pos (le_max_left ..)
    have hwr : 2 ^ r.height ≤ 2 ^ max l.height r.height :=
      Nat.pow_le_pow_right Nat.two_pos (le_max_right ..)
    rw [BinaryTree.numNodes, BinaryTree.height, Nat.pow_succ]
    omega

/-- No tree of as many nodes is lower than the complete tree. -/
theorem height_completeAt_le {l : List α} {β : Type*} {t : BinaryTree β}
    (h : t.numNodes = l.length) : (completeAt l 0).height ≤ t.height := by
  rw [height_completeAt_le_iff, Nat.zero_add, Nat.mul_one, ← h]
  exact numNodes_lt_two_pow t

theorem inorder_completeAt_map {β : Type*} (f : α → β) (l : List α) (i : ℕ) :
    inorder (completeAt (l.map f) i) = (inorder (completeAt l i)).map f := by
  by_cases hi : i < l.length
  · have hmap : i < (l.map f).length := by rwa [List.length_map]
    rw [completeAt_of_lt hi, completeAt_of_lt hmap, inorder, inorder, List.getElem_map,
      inorder_completeAt_map f l (2 * i + 1), inorder_completeAt_map f l (2 * i + 2),
      List.map_append, List.map_cons]
  · have hmap : (l.map f).length ≤ i := by
      rw [List.length_map]
      omega
    rw [completeAt_of_le hmap, completeAt_of_le (by omega)]
    rfl
termination_by l.length - i

theorem balanced_completeAt (l : List α) (i : ℕ) : balanced (completeAt l i) = true := by
  by_cases hi : i < l.length
  · have hleft := balanced_completeAt l (2 * i + 1)
    have hright := balanced_completeAt l (2 * i + 2)
    have hle : (completeAt l (2 * i + 2)).height ≤ (completeAt l (2 * i + 1)).height := by
      rw [height_completeAt_le_iff]
      have hself := (height_completeAt_le_iff l _ (2 * i + 1)).1 (Nat.le_refl _)
      exact hself.trans_le (Nat.mul_le_mul_left _ (by omega))
    have hge : (completeAt l (2 * i + 1)).height ≤ (completeAt l (2 * i + 2)).height + 1 := by
      rw [height_completeAt_le_iff]
      have hself := (height_completeAt_le_iff l _ (2 * i + 2)).1 (Nat.le_refl _)
      rw [Nat.pow_succ, Nat.mul_assoc]
      exact hself.trans_le (Nat.mul_le_mul_left _ (by omega))
    rw [completeAt_of_lt hi, balanced, hleft, hright]
    exact decide_eq_true (by omega)
  · rw [completeAt_of_le (by omega)]
    rfl
termination_by l.length - i

/-- The place of the first value `d` levels below is `2 ^ d * (i + 1) - 1`. -/
theorem level_completeAt (l : List α) : ∀ (d i : ℕ),
    level (completeAt l i) d = (l.drop (2 ^ d * (i + 1) - 1)).take (2 ^ d)
  | d, i => by
    by_cases hi : i < l.length
    · rw [completeAt_of_lt hi]
      cases d with
      | zero =>
        rw [Nat.pow_zero, Nat.one_mul, Nat.add_sub_cancel, List.drop_eq_getElem_cons hi]
        rfl
      | succ d =>
        have hpos : 1 ≤ 2 ^ d * (2 * i + 1 + 1) := Nat.mul_pos (Nat.two_pow_pos d) (Nat.succ_pos _)
        have hsecond : 2 ^ d * (2 * i + 2 + 1) - 1 = 2 ^ d * (2 * i + 1 + 1) - 1 + 2 ^ d := by
          rw [pow_mul_next]
          exact Nat.sub_add_comm hpos
        rw [level, level_completeAt l d, level_completeAt l d, pow_succ_mul, hsecond, ← List.drop_drop,
          ← List.take_add, Nat.pow_succ, Nat.mul_two]
    · rw [completeAt_of_le (by omega), level]
      have hle := Nat.le_mul_of_pos_left (i + 1) (Nat.two_pow_pos d)
      rw [List.drop_eq_nil_of_le (by omega), List.take_nil]

theorem levels_completeAt (l : List α) : ∀ k : ℕ,
    (List.range k).flatMap (level (completeAt l 0)) = l.take (2 ^ k - 1)
  | 0 => rfl
  | k + 1 => by
    have hpow : 2 ^ (k + 1) - 1 = 2 ^ k - 1 + 2 ^ k := by
      have hpos : 0 < 2 ^ k := Nat.two_pow_pos k
      rw [Nat.pow_succ]
      omega
    rw [List.range_succ, List.flatMap_append, levels_completeAt l k, List.flatMap_singleton,
      level_completeAt, Nat.zero_add, Nat.mul_one, hpow, List.take_add]

/-- The complete tree is the list, level by level. -/
theorem levelOrder_completeAt (l : List α) : levelOrder (completeAt l 0) = l := by
  have hlt := (height_completeAt_le_iff l _ 0).1 (Nat.le_refl _)
  rw [levelOrder, levels_completeAt, List.take_of_length_le]
  omega

end CompleteTree
