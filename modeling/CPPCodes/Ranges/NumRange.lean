import CPPCodes.Lib.Iteration
import Mathlib.Data.Int.Basic

/-!
# A range of numbers

`NumRange` of NumRange.cpp, gone over by its iterator. An `int64_t` beyond the greatest is not
defined, so a range whose end is below its start is never gone over; any other is, and the loop
reads its numbers once each in their order (`walk_iff`).
-/

namespace CPPCodes.Ranges

structure NumRange where
  from_ : Int64
  to_ : Int64

namespace NumRange

/-- `++` of the iterator, on its `current_`. -/
def increment (current : Int64) : Option Int64 :=
  if current = Int64.maxValue then none else some (current + 1)

/-- The loop from `begin()` to `end()`. -/
def walk (r : NumRange) : Iteration.Protocol Int64 Int64 where
  done current := current = r.to_
  get current := some current
  next := increment

theorem increment_of_lt {current to_ : Int64} (h : current < to_) :
    increment current = some (current + 1) ∧ (current + 1).toInt = current.toInt + 1 := by
  have hlt := Int64.lt_iff_toInt_lt.1 h
  have hle := Int64.toInt_lt to_
  have hge := Int64.le_toInt current
  constructor
  · refine if_neg fun heq => ?_
    rw [heq, Int64.toInt_maxValue] at hlt
    omega
  · rw [Int64.toInt_add]
    exact Int.bmod_eq_of_le (by simp; omega) (by simp; omega)

/-- The numbers from one up to before the other. -/
def numbers (low high : ℤ) : List ℤ := (List.range (high - low).toNat).map fun i : ℕ => low + i

theorem numbers_of_lt {low high : ℤ} (h : low < high) :
    numbers low high = low :: numbers (low + 1) high := by
  unfold numbers
  have hsucc : (high - low).toNat = (high - (low + 1)).toNat + 1 := by omega
  rw [hsucc, List.range_succ_eq_map, List.map_cons, List.map_map]
  refine congrArg₂ List.cons (by simp) (List.map_congr_left fun i _ => ?_)
  show low + ((i + 1 : ℕ) : ℤ) = low + 1 + i
  omega

theorem yields {r : NumRange} :
    ∀ {n : ℕ} {current : Int64}, (r.to_.toInt - current.toInt).toNat = n → current ≤ r.to_ →
      ∃ xs, r.walk.Yields current xs ∧ xs.map Int64.toInt = numbers current.toInt r.to_.toInt
  | 0, current, hn, hle => by
    have hle' := Int64.le_iff_toInt_le.1 hle
    obtain rfl : current = r.to_ := Int64.toInt_inj.1 (by omega)
    exact ⟨[], .done (by simp [walk]), by simp [numbers]⟩
  | n + 1, current, hn, hle => by
    have hlt : current < r.to_ := Int64.lt_iff_toInt_lt.2 (by omega)
    obtain ⟨hnext, hvalue⟩ := increment_of_lt hlt
    have hle' : current + 1 ≤ r.to_ := Int64.le_iff_toInt_le.2 (by omega)
    have hn' : (r.to_.toInt - (current + 1).toInt).toNat = n := by omega
    obtain ⟨xs, hyields, hxs⟩ := yields hn' hle'
    refine ⟨current :: xs, .step ?_ rfl hnext hyields, ?_⟩
    · exact decide_eq_false fun heq => by
        rw [heq] at hn
        omega
    · rw [List.map_cons, hxs, hvalue, ← numbers_of_lt (Int64.lt_iff_toInt_lt.1 hlt)]

/-- Beyond the end the iterator comes to the greatest `int64_t` and has no next. -/
theorem stuck {r : NumRange} : ∀ {n : ℕ} {current : Int64},
    (Int64.maxValue.toInt - current.toInt).toNat = n → r.to_ < current → r.walk.Stuck current
  | 0, current, hn, hlt => by
    have hle := Int64.le_iff_toInt_le.1 (Int64.le_maxValue current)
    obtain rfl : current = Int64.maxValue := Int64.toInt_inj.1 (by omega)
    have hnext : increment Int64.maxValue = none := if_pos rfl
    exact .here (decide_eq_false (Int64.ne_of_lt hlt).symm) hnext
  | n + 1, current, hn, hlt => by
    have hmax : current < Int64.maxValue := Int64.lt_iff_toInt_lt.2 (by omega)
    obtain ⟨hnext, hvalue⟩ := increment_of_lt hmax
    have hlt' := Int64.lt_iff_toInt_lt.1 hlt
    refine .step (decide_eq_false (Int64.ne_of_lt hlt).symm) hnext (stuck (n := n) (by omega) ?_)
    exact Int64.lt_iff_toInt_lt.2 (by omega)

/-- The loop comes to its end just for a range whose end is not below its start, and then it has
gone over the numbers of the range. For any other range it comes to the greatest `int64_t` and
increments it. -/
theorem walk_iff (r : NumRange) :
    ((∃ fuel xs, r.walk.run fuel r.from_ = some xs ∧
      xs.map Int64.toInt = numbers r.from_.toInt r.to_.toInt) ↔ r.from_ ≤ r.to_) ∧
    (r.walk.Stuck r.from_ ↔ r.to_ < r.from_) := by
  have hyes : r.from_ ≤ r.to_ → ∃ xs, r.walk.Yields r.from_ xs ∧
      xs.map Int64.toInt = numbers r.from_.toInt r.to_.toInt := yields rfl
  refine ⟨⟨?_, fun hle => ?_⟩, fun hstuck => ?_, stuck rfl⟩
  · rintro ⟨fuel, xs, hrun, -⟩
    by_contra hle
    exact (stuck rfl (Int64.not_le.1 hle)).not_yields (.of_run hrun)
  · obtain ⟨xs, hyields, hxs⟩ := hyes hle
    obtain ⟨fuel, hrun⟩ := hyields.exists_run
    exact ⟨fuel, xs, hrun, hxs⟩
  · by_contra hlt
    obtain ⟨xs, hyields, -⟩ := hyes (Int64.not_lt.1 hlt)
    exact hstuck.not_yields hyields

end NumRange

end CPPCodes.Ranges
