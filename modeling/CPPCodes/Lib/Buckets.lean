import Mathlib.Algebra.BigOperators.Group.List.Basic
import Mathlib.Algebra.Order.BigOperators.Group.List
import Mathlib.Algebra.Order.Ring.Nat
import Mathlib.Tactic.Common

/-!
# Values in buckets

How often the values of a list fall into the buckets of another list, counted either way
(`sum_countP_comm`). Intervals of numbers that follow one another have every number between their
ends in exactly one of them (`Consecutive.countP`).
-/

namespace Buckets

variable {α β : Type*} (mem : β → α → Bool)

theorem sum_countP_cons (bs : List β) (v : α) (vs : List α) :
    (bs.map fun b => (v :: vs).countP (mem b)).sum =
      bs.countP (mem · v) + (bs.map fun b => vs.countP (mem b)).sum := by
  induction bs with
  | nil => rfl
  | cons b bs ih =>
    rw [List.map_cons, List.sum_cons, ih, List.map_cons, List.sum_cons, List.countP_cons,
      List.countP_cons]
    omega

theorem sum_countP_comm (bs : List β) (vs : List α) :
    (bs.map fun b => vs.countP (mem b)).sum = (vs.map fun v => bs.countP (mem · v)).sum := by
  induction vs with
  | nil => simp
  | cons v vs ih => rw [sum_countP_cons, ih, List.map_cons, List.sum_cons]

/-- If every value is in one bucket, the buckets hold all values. -/
theorem sum_countP (bs : List β) (vs : List α) (h : ∀ v ∈ vs, bs.countP (mem · v) = 1) :
    (bs.map fun b => vs.countP (mem b)).sum = vs.length := by
  have hone : vs.map (fun v => bs.countP (mem · v)) = vs.map fun _ => 1 :=
    List.map_congr_left h
  rw [sum_countP_comm, hone]
  simp

/-- Numbers that are taken modulo `m` keep their sum exactly if none of them reaches `m`. -/
theorem sum_mod_eq_iff {m : ℕ} (hm : 0 < m) (ns : List ℕ) :
    (ns.map (· % m)).sum = ns.sum ↔ ∀ n ∈ ns, n < m := by
  induction ns with
  | nil => simp
  | cons n ns ih =>
    have hle : (ns.map (· % m)).sum ≤ ns.sum := by
      calc (ns.map (· % m)).sum ≤ (ns.map id).sum :=
            List.sum_le_sum fun n _ => Nat.mod_le n m
        _ = ns.sum := by rw [List.map_id]
    have hn := Nat.mod_le n m
    have hlt := Nat.mod_lt n hm
    rw [List.map_cons, List.sum_cons, List.sum_cons, List.forall_mem_cons, ← ih]
    refine ⟨fun heq => ⟨?_, ?_⟩, fun ⟨hlt, heq⟩ => by rw [Nat.mod_eq_of_lt hlt, heq]⟩ <;> omega

section Consecutive

variable (first last : β → ℕ)

/-- The intervals follow one another from `lo` on and end below `hi`. -/
def Consecutive : ℕ → List β → ℕ → Prop
  | lo, [], hi => lo = hi
  | lo, b :: bs, hi => first b = lo ∧ lo ≤ last b ∧ Consecutive (last b + 1) bs hi

instance : ∀ lo bs hi, Decidable (Consecutive first last lo bs hi)
  | lo, [], hi => inferInstanceAs (Decidable (lo = hi))
  | lo, b :: bs, hi =>
    haveI := instDecidableConsecutive (last b + 1) bs hi
    inferInstanceAs (Decidable (first b = lo ∧ lo ≤ last b ∧
      Consecutive first last (last b + 1) bs hi))

variable {first last}

theorem Consecutive.le : ∀ {lo hi : ℕ} {bs : List β}, Consecutive first last lo bs hi → lo ≤ hi
  | _, _, [], h => Nat.le_of_eq h
  | _, _, _ :: _, ⟨_, hle, hrest⟩ => by
    have := hrest.le
    omega

/-- Every number between the ends is in one interval, and no other number is in any. -/
theorem Consecutive.countP (v : ℕ) : ∀ {lo hi : ℕ} {bs : List β},
    Consecutive first last lo bs hi →
      bs.countP (fun b => first b ≤ v ∧ v ≤ last b) = if lo ≤ v ∧ v < hi then 1 else 0
  | _, _, [], h => by
    obtain rfl := h
    rw [List.countP_nil, if_neg (by omega)]
  | _, _, b :: bs, ⟨hfirst, hle, hrest⟩ => by
    have hhi := hrest.le
    rw [List.countP_cons, hrest.countP v]
    simp only [decide_eq_true_eq]
    split_ifs <;> omega

end Consecutive

end Buckets
