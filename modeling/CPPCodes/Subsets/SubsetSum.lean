import CPPCodes.Lib.Selections
import CPPCodes.Lib.Loop
import Mathlib.Data.List.Sort

/-!
# Subsets with a sum

`SubsetSum` of SubsetSum.cpp: a search with one bitmap for all calls, in which the bits in front of
the index are the numbers taken so far (`chosen`) and those behind it are left from other branches.
An access outside the bounds and an assert that fails are `none`. `InsertResult` adds what the
bitmap has up to the index, if this makes the sum (`insertResult_spec`).
-/

namespace CPPCodes.Subsets

open Selections

/-- `numbers_`, in increasing order, and `sum_`. -/
structure SubsetSum where
  numbers : List UInt32
  sum : UInt32

/-- What the recursion changes: the bitmap, which all calls share, and `result_`. -/
structure Search where
  bitmap : List Bool
  result : List (List UInt32)

namespace SubsetSum

def new (numbers : List UInt32) (sum : UInt32) : SubsetSum :=
  { numbers := numbers.mergeSort (· ≤ ·), sum }

variable (algo : SubsetSum)

/-- The body of the loop of `InsertResult`: the numbers so far, and their sum. -/
def insertNumber (bitmap : List Bool) (r : List UInt32 × UInt32) (i : ℕ) :
    Option (List UInt32 × UInt32) :=
  if r.2 ≤ algo.sum then do
    let bit ← bitmap[i]?
    if bit then
      let x ← algo.numbers[i]?
      return (r.1 ++ [x], r.2 + x)
    else return r
  else none

/-- `InsertResult`, whose asserts fail with `none`. -/
def insertResult (s : Search) (index : ℕ) : Option Search := do
  let r ← (List.range (index + 1)).foldlM (algo.insertNumber s.bitmap) ([], 0)
  if r.2 = algo.sum then return { s with result := s.result ++ [r.1] } else none

def setBit (s : Search) (index : ℕ) (bit : Bool) : Option Search :=
  if index < s.bitmap.length then some { s with bitmap := s.bitmap.set index bit } else none

/-- The first part of `Compute`, with the number `x` at the index; `again` is the call for the next
index. -/
def withNumber (again : Search → UInt32 → Option Search) (s : Search) (currentSum x : UInt32)
    (index : ℕ) : Option Search :=
  if currentSum + x = algo.sum then algo.insertResult s index
  else do
    let next ← algo.numbers[index + 1]?
    if currentSum + x + next ≤ algo.sum then again s (currentSum + x) else return s

/-- The bounding function. -/
def bounded (currentSum pending : UInt32) (index : ℕ) : Option Bool :=
  if currentSum + pending < algo.sum then some true
  else do
    let next ← algo.numbers[index + 1]?
    return algo.sum < currentSum + next

/-- `Compute` of an index, in at most `fuel` nested calls. -/
def computeFrom : ℕ → Search → (currentSum : UInt32) → (index : ℕ) → (pending : UInt32) →
    Option Search
  | 0, _, _, _, _ => none
  | fuel + 1, s, currentSum, index, pending => do
    let x ← algo.numbers[index]?
    let pending := pending - x
    let s ← setBit s index true
    let s ← algo.withNumber (fun s sum => computeFrom fuel s sum (index + 1) pending) s currentSum x
      index
    let bound ← algo.bounded currentSum pending index
    if bound then return s
    else
      let s ← setBit s index false
      computeFrom fuel s currentSum (index + 1) pending

/-- `Compute`: `result_` after it. The sum is an `int` from which the numbers, which are unsigned,
take it and to which they give it back. -/
def compute (fuel : ℕ) (result : List (List UInt32)) : Option (List (List UInt32)) :=
  if result ≠ [] then some result
  else
    let s := algo.numbers.foldl (· + ·) 0
    if s < algo.sum then some result
    else do
      let s ← algo.computeFrom fuel ⟨List.replicate algo.numbers.length false, result⟩ 0 0 s
      return s.result

/-! ## The numbers that the bitmap has -/

/-- The numbers at the positions in front of `k` whose bit is set. -/
def chosen (bitmap : List Bool) (k : ℕ) : List UInt32 :=
  ((List.range k).filter fun i => bitmap.getD i false).map fun i => algo.numbers.getD i 0

/-- The sum of the numbers, which does not wrap. -/
def total (xs : List UInt32) : ℕ := (xs.map UInt32.toNat).sum

variable {algo}

theorem chosen_congr {bitmap bitmap' : List Bool} {k : ℕ}
    (h : ∀ i < k, bitmap'[i]? = bitmap[i]?) : algo.chosen bitmap' k = algo.chosen bitmap k := by
  refine congrArg (List.map _) (List.filter_congr fun i hi => ?_)
  rw [List.getD_eq_getElem?_getD, List.getD_eq_getElem?_getD, h i (List.mem_range.1 hi)]

theorem chosen_succ {bitmap : List Bool} {k : ℕ} {bit : Bool} {x : UInt32}
    (hbit : bitmap[k]? = some bit) (hx : algo.numbers[k]? = some x) :
    algo.chosen bitmap (k + 1) = algo.chosen bitmap k ++ if bit then [x] else [] := by
  unfold chosen
  rw [List.range_succ, List.filter_append, List.map_append, List.filter_singleton,
    List.getD_eq_getElem?_getD, hbit, Option.getD_some]
  cases bit
  · rfl
  · simp [hx]

theorem total_append (xs ys : List UInt32) : total (xs ++ ys) = total xs + total ys := by
  unfold total
  rw [List.map_append, List.sum_append]

theorem total_chosen_le (algo : SubsetSum) (bitmap : List Bool) {i k : ℕ} (hle : i ≤ k) :
    total (algo.chosen bitmap i) ≤ total (algo.chosen bitmap k) := by
  have hsub : (algo.chosen bitmap i).Sublist (algo.chosen bitmap k) :=
    ((List.range_sublist.2 hle).filter _).map _
  exact (hsub.map UInt32.toNat).sum_le_sum fun _ _ => Nat.zero_le _

theorem insertResult_spec {s : Search} {index : ℕ} (hlen : s.bitmap.length = algo.numbers.length)
    (hindex : index < algo.numbers.length)
    (hsum : total (algo.chosen s.bitmap (index + 1)) = algo.sum.toNat) :
    algo.insertResult s index =
      some { s with result := s.result ++ [algo.chosen s.bitmap (index + 1)] } := by
  have hkeeps : ∀ i < index + 1, Loop.Keeps
      (fun i (r : List UInt32 × UInt32) => r.1 = algo.chosen s.bitmap i ∧ r.2.toNat = total r.1)
      (algo.insertNumber s.bitmap) i := by
    rintro i hi ⟨r, sum⟩ ⟨rfl, hr⟩
    have hbit : s.bitmap[i]? = some s.bitmap[i] := List.getElem?_eq_getElem (by omega)
    have hx : algo.numbers[i]? = some algo.numbers[i] := List.getElem?_eq_getElem (by omega)
    have hsucc := chosen_succ hbit hx
    have hle := algo.total_chosen_le s.bitmap (Nat.le_of_lt_succ (Nat.succ_lt_succ hi))
    have hle' := algo.total_chosen_le s.bitmap hi.le
    have hsumlt := algo.sum.toNat_lt
    have hr' : sum.toNat = total (algo.chosen s.bitmap i) := hr
    have hassert : sum ≤ algo.sum := UInt32.le_iff_toNat_le.2 (by omega)
    unfold insertNumber
    rw [if_pos hassert, hbit, hx]
    simp only [Option.bind_eq_bind, Option.bind_some]
    by_cases hset : s.bitmap[i] = true
    · rw [hset, if_pos rfl] at hsucc
      rw [hset, if_pos rfl]
      refine ⟨_, rfl, hsucc.symm, ?_⟩
      rw [hsucc, total_append] at hle
      have hone : total [algo.numbers[i]] = algo.numbers[i].toNat := by simp [total]
      rw [total_append, UInt32.toNat_add, Nat.mod_eq_of_lt (by omega), hr', hone]
    · rw [if_neg hset, List.append_nil] at hsucc
      rw [if_neg hset]
      exact ⟨_, rfl, hsucc.symm, hr⟩
  obtain ⟨⟨r, sum⟩, hrun, rfl, hr⟩ := Loop.exists_foldlM_range
    (P := fun i (r : List UInt32 × UInt32) => r.1 = algo.chosen s.bitmap i ∧ r.2.toNat = total r.1)
    (s := ([], 0)) ⟨rfl, rfl⟩ hkeeps
  obtain rfl : sum = algo.sum := UInt32.toNat_inj.1 (hr.trans hsum)
  unfold insertResult
  rw [hrun]
  exact if_pos rfl

end SubsetSum

end CPPCodes.Subsets
