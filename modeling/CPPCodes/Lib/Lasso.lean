import Mathlib.Data.Nat.ModEq
import Mathlib.Data.Nat.Find
import Mathlib.Tactic.Common

/-!
# A walk with a cycle

A walk over `m + c` places whose last step goes back to the place `m`: where it is after `i` steps
(`wrap`), and that a walk at double the speed meets it (`exists_meeting`). Behind the place where
they meet, a multiple of `c` from the start, the cycle begins as far on as from the start
(`wrap_eq_wrap_add_iff`).
-/

namespace Lasso

variable {m c i j k : ℕ}

/-- The place after `i` steps, with a tail of `m` places and a cycle of `c`. -/
def wrap (m c i : ℕ) : ℕ := if i < m then i else m + (i - m) % c

theorem wrap_of_lt (h : i < m + c) : wrap m c i = i := by
  unfold wrap
  split_ifs with hi
  · rfl
  · rw [Nat.mod_eq_of_lt (by omega)]
    omega

theorem wrap_lt (hc : 0 < c) (i : ℕ) : wrap m c i < m + c := by
  have hmod := Nat.mod_lt (i - m) hc
  unfold wrap
  split_ifs <;> omega

theorem mod_succ (hc : 0 < c) (i : ℕ) : (i + 1) % c = if i % c + 1 = c then 0 else i % c + 1 := by
  have hmod := Nat.mod_lt i hc
  rw [← Nat.mod_add_mod]
  split_ifs with hlast
  · rw [hlast, Nat.mod_self]
  · exact Nat.mod_eq_of_lt (by omega)

/-- From the last place the walk goes to the place `m`. -/
theorem wrap_succ (hc : 0 < c) (i : ℕ) :
    wrap m c (i + 1) = if wrap m c i + 1 = m + c then m else wrap m c i + 1 := by
  by_cases hi : i < m
  · rw [wrap_of_lt (by omega : i + 1 < m + c), wrap_of_lt (by omega), if_neg (by omega)]
  · have hsucc := mod_succ hc (i - m)
    unfold wrap
    rw [if_neg (by omega), if_neg hi, Nat.sub_add_comm (by omega), hsucc]
    split_ifs <;> omega

/-- The walk is twice at a place if this is on the cycle and the steps are whole rounds apart. -/
theorem wrap_eq_wrap_iff (hle : i ≤ j) : wrap m c i = wrap m c j ↔ i = j ∨ m ≤ i ∧ c ∣ j - i := by
  unfold wrap
  split_ifs with hi hj hj
  · omega
  · omega
  · omega
  · rw [Nat.add_left_cancel_iff, or_iff_right_of_imp fun heq => ⟨by omega, by simp [heq]⟩,
      and_iff_right (by omega), ← Nat.sub_sub_sub_cancel_right (by omega : m ≤ i)]
    exact Nat.modEq_iff_dvd' (by omega)

/-- A walk and one at double the speed are at one place after `k` steps. -/
theorem wrap_two_mul_iff (hk : 1 ≤ k) : wrap m c k = wrap m c (2 * k) ↔ m ≤ k ∧ c ∣ k := by
  rw [wrap_eq_wrap_iff (by omega), or_iff_right (by omega), Nat.two_mul, Nat.add_sub_cancel]

/-- The first steps after which the two walks meet. -/
theorem exists_meeting (m : ℕ) (hc : 0 < c) : ∃ k, 1 ≤ k ∧ m ≤ k ∧ c ∣ k ∧
    ∀ j, 1 ≤ j → j < k → wrap m c j ≠ wrap m c (2 * j) := by
  have hex : ∃ k, 1 ≤ k ∧ m ≤ k ∧ c ∣ k :=
    ⟨(m + 1) * c, Nat.mul_pos (Nat.succ_pos m) hc,
      Nat.le_trans (Nat.le_succ m) (Nat.le_mul_of_pos_right (m + 1) hc), Nat.dvd_mul_left c (m + 1)⟩
  classical
  obtain ⟨hpos, hm, hdvd⟩ := Nat.find_spec hex
  refine ⟨Nat.find hex, hpos, hm, hdvd, fun j hj hlt heq => ?_⟩
  exact Nat.find_min hex hlt ⟨hj, (wrap_two_mul_iff hj).1 heq⟩

/-- A walk from the start and one from whole rounds on first meet where the cycle begins. -/
theorem wrap_eq_wrap_add_iff (hk : 1 ≤ k) (hdvd : c ∣ k) :
    wrap m c i = wrap m c (k + i) ↔ m ≤ i := by
  rw [wrap_eq_wrap_iff (by omega), or_iff_right (by omega), Nat.add_sub_cancel]
  exact and_iff_left hdvd

/-- One step in front of where they meet, the second walk is at the last place. -/
theorem wrap_last (hk : 1 ≤ k) (hdvd : c ∣ k) (hm : 1 ≤ m) : wrap m c (k + m - 1) = m + c - 1 := by
  have hle := Nat.le_of_dvd hk hdvd
  have hc := Nat.pos_of_dvd_of_pos hdvd hk
  rw [← wrap_of_lt (by omega : m + c - 1 < m + c), eq_comm, wrap_eq_wrap_iff (by omega)]
  refine .inr ⟨by omega, ?_⟩
  rw [(by omega : k + m - 1 - (m + c - 1) = k - c)]
  exact Nat.dvd_sub hdvd (Nat.dvd_refl c)

end Lasso
