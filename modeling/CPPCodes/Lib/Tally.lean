import Mathlib.Algebra.BigOperators.Group.Finset.Basic
import Mathlib.Algebra.Order.BigOperators.Group.Finset
import Mathlib.Algebra.Order.Ring.Nat
import Mathlib.Data.Fintype.BigOperators

/-!
# Sums over threads

What a sum over all threads becomes when one thread changes, and how many threads are of a kind.
-/

namespace Tally

open Finset

variable {ι β M : Type*} [Fintype ι]

theorem sum_update_add [DecidableEq ι] [AddCommMonoid M] (g : β → M) (f : ι → β) (i : ι) (v : β) :
    ∑ j, g (Function.update f i v j) + g (f i) = ∑ j, g (f j) + g v := by
  rw [← add_sum_erase _ _ (mem_univ i), ← add_sum_erase _ (fun j => g (f j)) (mem_univ i),
    Function.update_self, sum_congr rfl fun j hj => by
      rw [Function.update_of_ne (ne_of_mem_erase hj)]]
  rw [add_right_comm, add_right_comm (g (f i)), add_comm (g v)]

/-- How many threads are of the kind `q`. -/
def tally (q : β → Bool) (f : ι → β) : ℕ := ∑ i, (q (f i)).toNat

variable (q : β → Bool) (f : ι → β)

theorem tally_update [DecidableEq ι] (i : ι) (v : β) :
    tally q (Function.update f i v) + (q (f i)).toNat = tally q f + (q v).toNat :=
  sum_update_add (fun b => (q b).toNat) f i v

theorem tally_pos : 0 < tally q f ↔ ∃ i, q (f i) = true := by
  unfold tally
  rw [sum_pos_iff]
  refine exists_congr fun i => ?_
  cases q (f i) <;> simp

theorem tally_eq_zero : tally q f = 0 ↔ ∀ i, q (f i) = false := by
  unfold tally
  rw [sum_eq_zero_iff]
  simp

theorem tally_le_card : tally q f ≤ Fintype.card ι := by
  calc tally q f ≤ ∑ _ : ι, 1 := sum_le_sum fun i _ => Bool.toNat_le _
    _ = Fintype.card ι := by simp

theorem tally_lt_card {i : ι} (hi : q (f i) = false) : tally q f < Fintype.card ι := by
  calc tally q f < ∑ _ : ι, 1 :=
        sum_lt_sum (fun i _ => Bool.toNat_le _) ⟨i, mem_univ i, by simp [hi]⟩
    _ = Fintype.card ι := by simp

/-- What does not change the kind of any thread does not change the tally. -/
theorem tally_map (g : β → β) (h : ∀ b, q (g b) = q b) :
    tally q (fun i => g (f i)) = tally q f := by
  unfold tally
  exact sum_congr rfl fun i _ => by rw [h]

end Tally
