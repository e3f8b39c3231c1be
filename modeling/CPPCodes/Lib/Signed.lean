import Mathlib.Algebra.Ring.Int.Defs
import Mathlib.Algebra.Ring.Nat

/-!
# Signed machine integers

Numbers as C++ has them in its signed types: a result that does not fit is undefined.
-/

namespace Signed

def Fits (w : ℕ) (x : ℤ) : Prop := -2 ^ (w - 1) ≤ x ∧ x < 2 ^ (w - 1)

instance (w : ℕ) (x : ℤ) : Decidable (Fits w x) := inferInstanceAs (Decidable (_ ∧ _))

/-- The result, in `w` bits. -/
def checked (w : ℕ) (x : ℤ) : Option ℤ := if Fits w x then some x else none

theorem checked_eq_some {w : ℕ} {x y : ℤ} : checked w x = some y ↔ Fits w x ∧ x = y := by
  unfold checked
  split_ifs with h <;> simp [h]

theorem checked_eq {w : ℕ} {x : ℤ} (h : Fits w x) : checked w x = some x := if_pos h

end Signed
