import CPPCodes.Lib.Tally
import Mathlib.Algebra.BigOperators.Ring.Multiset
import Mathlib.Algebra.Order.BigOperators.Group.Finset
import Mathlib.Algebra.Order.Ring.Nat

/-!
# Interleavings

The ways to merge the lists of several threads into one list that keeps the order of each thread.
Whatever the order, the merged list has the elements of all threads together
(`Interleave.coe_eq`).
-/

namespace Merge

open Finset

variable {ι α : Type*}

/-- How often the threads have the element together. -/
def times [Fintype ι] [DecidableEq α] (f : ι → List α) (a : α) : ℕ := ∑ i, (f i).count a

theorem times_le [Fintype ι] [DecidableEq α] (f : ι → List α) (a : α) :
    times f a ≤ ∑ i, (f i).length :=
  Finset.sum_le_sum fun _ _ => List.count_le_length

variable [DecidableEq ι]

/-- The list takes its elements from the threads, each from the front of one of them, until all
threads are at their end. -/
inductive Interleave : (ι → List α) → List α → Prop
  | done {f : ι → List α} : (∀ i, f i = []) → Interleave f []
  | next {f : ι → List α} {i : ι} {a : α} {as l : List α} :
      f i = a :: as → Interleave (Function.update f i as) l → Interleave f (a :: l)

variable [Fintype ι] {f : ι → List α} {l : List α}

theorem Interleave.coe_eq (h : Interleave f l) : (l : Multiset α) = ∑ i, (f i : Multiset α) := by
  induction h with
  | done hnil => simp [hnil]
  | @next f i a as l hi _ ih =>
    have hsum := Tally.sum_update_add (fun as : List α => (as : Multiset α)) f i as
    rw [← ih, hi] at hsum
    have hcons : ((a :: as : List α) : Multiset α) = {a} + (as : Multiset α) := rfl
    rw [hcons, ← add_assoc] at hsum
    rw [← add_right_cancel hsum, add_comm]
    rfl

theorem Interleave.mem_iff (h : Interleave f l) {a : α} : a ∈ l ↔ ∃ i, a ∈ f i := by
  rw [← Multiset.mem_coe, h.coe_eq, Multiset.mem_sum]
  simp

theorem Interleave.count_eq [DecidableEq α] (h : Interleave f l) (a : α) :
    l.count a = times f a := by
  rw [← Multiset.coe_count, h.coe_eq, Multiset.count_sum']
  simp [times]

theorem Interleave.sum_map_eq (h : Interleave f l) (g : α → ℕ) :
    (l.map g).sum = ∑ i, ((f i).map g).sum := by
  have hmap := congrArg (fun m => (Multiset.map g m).sum) h.coe_eq
  rw [← Multiset.coe_mapAddMonoidHom, map_sum, Multiset.sum_sum] at hmap
  simpa using hmap

end Merge
