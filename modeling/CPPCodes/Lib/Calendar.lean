import Mathlib.Algebra.BigOperators.Group.Finset.Basic
import Mathlib.Algebra.BigOperators.Intervals
import Mathlib.Data.Int.Basic
import Mathlib.Tactic.Ring

/-!
# The proleptic Gregorian calendar

Days are numbered from the first of January of the year 1, which has the number 1. The years count
on below 1, the months of a year from 0 on. The number of a day is a closed formula
(`dayNumber`); that it counts the lengths of the years before is `daysBeforeYear_add`.
-/

namespace Calendar

open Finset

/-- Every fourth year is a leap year, of the centuries every fourth. -/
def IsLeap (y : ℤ) : Prop := 4 ∣ y ∧ (100 ∣ y → 400 ∣ y)

instance (y : ℤ) : Decidable (IsLeap y) := inferInstanceAs (Decidable (_ ∧ _))

def yearLength (y : ℤ) : ℤ := if IsLeap y then 366 else 365

/-- April, June, September and November have 30 days, February has 28 or 29. -/
def monthLength (leap : Bool) (m : ℕ) : ℕ :=
  match m with
  | 1 => if leap then 29 else 28
  | 3 | 5 | 8 | 10 => 30
  | _ => 31

def daysBeforeMonth (leap : Bool) (m : ℕ) : ℕ := ∑ i ∈ range m, monthLength leap i

def daysBeforeYear (y : ℤ) : ℤ := 365 * (y - 1) + (y - 1) / 4 - (y - 1) / 100 + (y - 1) / 400

/-- The number of the day `d` of the month `m` of the year `y`. -/
def dayNumber (y : ℤ) (m d : ℕ) : ℤ := daysBeforeYear y + daysBeforeMonth (IsLeap y) m + d

theorem daysBeforeMonth_year (y : ℤ) : (daysBeforeMonth (IsLeap y) 12 : ℤ) = yearLength y := by
  unfold yearLength
  by_cases h : IsLeap y <;> simp only [h, decide_true, decide_false, if_true, if_false] <;> rfl

theorem daysBeforeYear_succ (y : ℤ) : daysBeforeYear (y + 1) = daysBeforeYear y + yearLength y := by
  unfold daysBeforeYear yearLength IsLeap
  split_ifs with h <;> omega

/-- The days before a year are those before an earlier one and the years between. -/
theorem daysBeforeYear_add (y : ℤ) (n : ℕ) :
    daysBeforeYear (y + n) = daysBeforeYear y + ∑ i ∈ range n, yearLength (y + i) := by
  induction n with
  | zero => simp
  | succ n ih =>
    rw [sum_range_succ, ← add_assoc, ← ih, Nat.cast_succ, ← add_assoc, daysBeforeYear_succ]

theorem yearLength_mem (y : ℤ) : 365 ≤ yearLength y ∧ yearLength y ≤ 366 := by
  unfold yearLength
  split_ifs <;> omega

end Calendar
