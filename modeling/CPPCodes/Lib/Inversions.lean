import Mathlib.Data.List.Count
import Mathlib.Order.Lattice

/-!
# The inversions of a list

An element that comes in front of a stretch of greater ones takes as many inversions away as there
are of them (`inversions_move`), wherever in a list that is (`inversions_append_left`).
-/

namespace Inversions

variable {α : Type*} [LinearOrder α]

/-- The pairs of which the greater element comes first. -/
def inversions : List α → ℕ
  | [] => 0
  | x :: l => l.countP (· < x) + inversions l

theorem inversions_append_left {l l' : List α} (h : l.Perm l') : ∀ front : List α,
    inversions (front ++ l) + inversions l' = inversions (front ++ l') + inversions l
  | [] => Nat.add_comm _ _
  | x :: front => by
    have hcount := (h.append_left front).countP_eq (· < x)
    have ih := inversions_append_left h front
    simp only [List.cons_append, inversions, hcount]
    omega

theorem inversions_move {x : α} (back : List α) : ∀ {high : List α}, (∀ z ∈ high, x < z) →
    inversions (high ++ x :: back) = inversions (x :: (high ++ back)) + high.length
  | [], _ => rfl
  | z :: high, h => by
    have hz : x < z := h z List.mem_cons_self
    have ih := inversions_move back fun y hy => h y (List.mem_cons_of_mem z hy)
    have hperm : (high ++ x :: back).Perm (x :: (high ++ back)) := List.perm_middle
    have hcount := hperm.countP_eq (· < z)
    rw [List.countP_cons_of_pos (by simpa using hz)] at hcount
    simp only [List.cons_append, List.length_cons]
    rw [inversions, hcount, ih]
    simp only [inversions]
    rw [List.countP_cons_of_neg (by simpa using hz.le)]
    omega

end Inversions
