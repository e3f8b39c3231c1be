import CPPCodes.Trees.SearchTree

/-!
# A tree of minimal height

`InsertSorted`, which puts the middle value of a sorted array into a `BinaryTree`, then the half
before it and the half behind it. The height is the least that there is, for any array; but the
place of a value is the next one of its level, and not the one by its order, so that the tree is
hardly ever a search tree.
-/

namespace CPPCodes.Trees

open SearchTree (inorder)
open CompleteTree (levelOrder completeAt)

/-- To a depth of `fuel` calls. The `size_t` before `0` is `-1` again as `right`. -/
def insertSorted (nos : List ℤ) : ℕ → Tree ℤ → ℤ → ℤ → Option (Tree ℤ)
  | 0, _, _, _ => none
  | fuel + 1, tree, left, right =>
    if left > right then some tree
    else do
      let mid := ((left + right) / 2).toNat
      let data ← nos[mid]?
      let tree ← tree.insert data
      let tree ← insertSorted nos fuel tree left (mid - 1)
      insertSorted nos fuel tree (mid + 1) right

/-- What `main` does with its numbers. -/
def createBalanceTree (nos : List ℤ) : Option (Tree ℤ) :=
  insertSorted nos (nos.length + 1) .empty 0 (nos.length - 1)

/-- The middle value, then the half before it and the half behind it. -/
def middles {α : Type} (l : List α) : List α :=
  if h : l = [] then []
  else
    have := List.length_pos_iff.2 h
    l[(l.length - 1) / 2] ::
      (middles (l.take ((l.length - 1) / 2)) ++ middles (l.drop ((l.length - 1) / 2 + 1)))
termination_by l.length
decreasing_by all_goals grind

variable {α : Type}

theorem middles_nil : middles ([] : List α) = [] := by
  unfold middles
  exact dif_pos rfl

theorem middles_append {u v : List α} {x : α} (h : u.length = (u.length + v.length) / 2) :
    middles (u ++ x :: v) = x :: (middles u ++ middles v) := by
  have hne : u ++ x :: v ≠ [] := by simp
  have hmid : ((u ++ x :: v).length - 1) / 2 = u.length := by
    rw [List.length_append, List.length_cons]
    omega
  rw [middles, dif_neg hne]
  simp only [hmid, List.take_left, List.getElem_append_right le_rfl, List.drop_length_add_append]
  simp

theorem exists_halves {l : List α} (h : l ≠ []) :
    ∃ u x v, l = u ++ x :: v ∧ u.length = (u.length + v.length) / 2 := by
  have hpos := List.length_pos_iff.2 h
  have hmid : (l.length - 1) / 2 < l.length := by omega
  refine ⟨l.take ((l.length - 1) / 2), l[(l.length - 1) / 2], l.drop ((l.length - 1) / 2 + 1), ?_, ?_⟩
  · rw [← List.drop_eq_getElem_cons hmid, List.take_append_drop]
  · rw [List.length_take, List.length_drop]
    omega

/-- Every value is inserted, and as often as it is there. -/
theorem middles_perm (l : List α) : (middles l).Perm l := by
  rcases eq_or_ne l [] with rfl | hl
  · rw [middles_nil]
  · obtain ⟨u, x, v, rfl, hhalf⟩ := exists_halves hl
    rw [middles_append hhalf]
    exact (((middles_perm u).append (middles_perm v)).cons x).trans List.perm_middle.symm
termination_by l.length
decreasing_by all_goals grind

/-- What is from `left` to `right` is inserted. -/
theorem insertSorted_spec {nos : List ℤ} : ∀ {fuel : ℕ} {pre l post : List ℤ} (done : List ℤ)
    {left right : ℤ}, nos = pre ++ l ++ post → left = pre.length → right = left + l.length - 1 →
      l.length < fuel → insertSorted nos fuel (complete done) left right =
        some (complete (done ++ middles l))
  | fuel + 1, pre, l, post, done, left, right, hnos, hleft, hright, hfuel => by
    unfold insertSorted
    rcases eq_or_ne l [] with rfl | hl
    · rw [List.length_nil, Nat.cast_zero, Int.add_zero] at hright
      rw [if_pos (by omega), middles_nil, List.append_nil]
    · obtain ⟨u, x, v, rfl, hhalf⟩ := exists_halves hl
      rw [List.length_append, List.length_cons] at hright hfuel
      have hmid : ((left + right) / 2).toNat = pre.length + u.length := by omega
      have hsplit : nos = pre ++ u ++ (x :: v ++ post) := by simp [hnos]
      have hsplit' : nos = pre ++ u ++ [x] ++ v ++ post := by simp [hnos]
      have hget : nos[pre.length + u.length]? = some x := by
        rw [hsplit, List.getElem?_append_right (by simp)]
        simp
      have hbefore : insertSorted nos fuel (complete (done ++ [x])) left
          ((pre.length + u.length : ℕ) - 1) = some (complete (done ++ [x] ++ middles u)) :=
        insertSorted_spec _ hsplit hleft (by omega) (by omega)
      have hbehind : insertSorted nos fuel (complete (done ++ [x] ++ middles u))
          ((pre.length + u.length : ℕ) + 1) right =
            some (complete (done ++ [x] ++ middles u ++ middles v)) :=
        insertSorted_spec _ hsplit' (by simp [Int.add_assoc]) (by omega) (by omega)
      rw [if_neg (by omega), hmid]
      simp only [hget, insert_complete, Option.bind_eq_bind, Option.bind_some, hbefore, hbehind]
      rw [middles_append hhalf]
      simp

theorem createBalanceTree_eq (nos : List ℤ) :
    createBalanceTree nos = some (complete (middles nos)) :=
  insertSorted_spec [] (show nos = [] ++ nos ++ [] by simp) rfl (by simp) (Nat.lt_succ_self _)

/-- The tree holds every number as often as the array does, and none of as many nodes is lower. -/
theorem createBalanceTree_minimal (nos : List ℤ) : ∃ tree t, createBalanceTree nos = some tree ∧
    Represents tree t ∧ ((inorder t).map Prod.snd).Perm nos ∧ tree.height = some (t.height : ℤ) ∧
    ∀ t' : BinaryTree ℤ, t'.numNodes = nos.length → t.height ≤ t'.height := by
  have h := represents_complete (middles nos)
  have hperm := (CompleteTree.levelOrder_perm (completeAt (placed (middles nos)) 0)).symm.map Prod.snd
  rw [CompleteTree.levelOrder_completeAt, map_snd_placed] at hperm
  refine ⟨_, _, createBalanceTree_eq nos, h, hperm.trans (middles_perm nos), h.height, ?_⟩
  intro t' ht'
  refine CompleteTree.height_completeAt_le (ht'.trans ?_)
  rw [← (middles_perm nos).length_eq, placed, List.length_mapIdx]

/-- With five numbers and more the third to be inserted is one before the middle, and is put behind
it. -/
theorem not_pairwise_inorder {nos : List ℤ} (h : nos.Pairwise (· < ·)) (hlen : 5 ≤ nos.length) :
    ¬ (inorder (completeAt (middles nos) 0)).Pairwise (· < ·) := by
  intro hinorder
  have hne : nos ≠ [] := List.length_pos_iff.1 (by omega)
  obtain ⟨u, x, v, rfl, hhalf⟩ := exists_halves hne
  rw [List.length_append, List.length_cons] at hlen
  have hlenu := (middles_perm u).length_eq
  rw [middles_append hhalf] at hinorder
  have hthird : 2 < (x :: (middles u ++ middles v)).length := by
    rw [List.length_cons, List.length_append]
    omega
  have hu : (x :: (middles u ++ middles v))[2] ∈ u := by
    rw [List.getElem_cons_succ, List.getElem_append_left (by omega)]
    exact (middles_perm u).mem_iff.1 (List.getElem_mem _)
  have hbefore := (List.pairwise_append.1 h).2.2 _ hu x (List.mem_cons_self ..)
  rw [CompleteTree.completeAt_of_lt (by simp), CompleteTree.completeAt_of_lt hthird] at hinorder
  have hbehind := (List.pairwise_cons.1 (List.pairwise_append.1 hinorder).2.1).1
    (x :: (middles u ++ middles v))[2] (by simp [inorder])
  exact lt_asymm hbefore hbehind

/-- Sorted numbers are read in their order only where there are none, one or three of them. -/
theorem createBalanceTree_inorder_iff {nos : List ℤ} (h : nos.Pairwise (· < ·)) :
    ∃ tree fuel visits, createBalanceTree nos = some tree ∧ tree.iterate fuel = some visits ∧
      (visits.map Prod.snd = nos ↔ nos.length ∈ [0, 1, 3]) := by
  obtain ⟨fuel, hrun⟩ := (represents_complete (middles nos)).iterate
  refine ⟨_, fuel, _, createBalanceTree_eq nos, hrun, ?_⟩
  rw [← CompleteTree.inorder_completeAt_map, map_snd_placed]
  match nos with
  | [] => simp [middles, completeAt, inorder]
  | [a] => simp [middles, completeAt, inorder]
  | [a, b] =>
    have hinorder : inorder (completeAt (middles [a, b]) 0) = [b, a] := by
      simp [middles, completeAt, inorder]
    have hlt : a < b := by simpa using h
    simp [hinorder, hlt.ne']
  | [a, b, c] =>
    have hinorder : inorder (completeAt (middles [a, b, c]) 0) = [a, b, c] := by
      simp [middles, completeAt, inorder]
    simp [hinorder]
  | [a, b, c, d] =>
    -- the last number is below the first, on a level of its own
    have hinorder : inorder (completeAt (middles [a, b, c, d]) 0) = [d, a, b, c] := by
      simp [middles, completeAt, inorder]
    have hlt : a < d := (List.pairwise_cons.1 h).1 d (by simp)
    simp [hinorder, hlt.ne']
  | a :: b :: c :: d :: e :: rest =>
    have hnot := not_pairwise_inorder h (by simp)
    refine iff_of_false (fun heq => hnot ?_) (by simp)
    rwa [heq]

/-- Seven numbers come out in another order. -/
theorem createBalanceTree_inorder_iff_seven : ∃ tree fuel visits,
    createBalanceTree [1, 2, 3, 4, 5, 6, 7] = some tree ∧ tree.iterate fuel = some visits ∧
      visits.map Prod.snd ≠ [1, 2, 3, 4, 5, 6, 7] := by
  have hsorted : ([1, 2, 3, 4, 5, 6, 7] : List ℤ).Pairwise (· < ·) := by decide
  obtain ⟨tree, fuel, visits, htree, hvisits, hiff⟩ := createBalanceTree_inorder_iff hsorted
  exact ⟨tree, fuel, visits, htree, hvisits, fun heq => absurd (hiff.1 heq) (by decide)⟩

end CPPCodes.Trees
