import Mathlib.Algebra.BigOperators.Fin
import Mathlib.Tactic.Ring

/-!
# Horner's rule

`weigh b xs` adds up the values of a list, each times `b` to the power of its distance from the
end. One value more at the end is one step of Horner's rule (`weigh_concat`), and of two lists one
after the other the first counts by its own sum alone (`weigh_append`).
-/

namespace Horner

variable {R : Type*} [CommSemiring R] (b : R)

def weigh (xs : List R) : R := ∑ i : Fin xs.length, xs[i] * b ^ (xs.length - 1 - i)

@[simp] theorem weigh_nil : weigh b [] = 0 := rfl

theorem weigh_cons (x : R) (xs : List R) : weigh b (x :: xs) = x * b ^ xs.length + weigh b xs := by
  show ∑ i : Fin (xs.length + 1), (x :: xs)[i] * b ^ (xs.length + 1 - 1 - i) = _
  rw [Fin.sum_univ_succ]
  congr 1
  refine Finset.sum_congr rfl fun i _ => ?_
  simp only [Fin.getElem_fin, Fin.val_succ, List.getElem_cons_succ]
  congr 2
  omega

theorem weigh_append (xs ys : List R) :
    weigh b (xs ++ ys) = weigh b xs * b ^ ys.length + weigh b ys := by
  induction xs with
  | nil => simp
  | cons x xs ih =>
    rw [List.cons_append, weigh_cons, weigh_cons, ih, List.length_append, pow_add]
    ring

theorem weigh_concat (xs : List R) (x : R) : weigh b (xs ++ [x]) = b * weigh b xs + x := by
  rw [weigh_append, weigh_cons, weigh_nil, List.length_singleton, List.length_nil]
  ring

end Horner
