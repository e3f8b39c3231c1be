import Mathlib.Data.List.Rotate

/-!
# A rotation is found in the doubled string

is_rotation.cpp. A string as long as `s1` that is found in `s1 + s1` begins in the first of the two,
so it is the end of one and the beginning of the other (`window_eq`): Mathlib's rotations of `s1`.
-/

namespace CPPCodes.Strings

variable {α : Type}

section Test

variable [DecidableEq α]

/-- `find`: where `s2` begins in `s1` for the first time; `npos` is `none`. -/
def find (s1 s2 : List α) : Option ℕ :=
  (List.range (s1.length + 1)).find? fun i => (s1.drop i).take s2.length = s2

def isSubstr (s1 s2 : List α) : Bool := (find s1 s2).isSome

def isRotation (s1 s2 : List α) : Bool :=
  if s1.length ≠ s2.length then false
  else
    let s1s1 := s1 ++ s1
    isSubstr s1s1 s2

end Test

/-- What the doubled string has from a place of the first one on. -/
theorem window_eq (s : List α) {i : ℕ} (hi : i ≤ s.length) :
    ((s ++ s).drop i).take s.length = s.drop i ++ s.take i := by
  have hlen : s.length = (s.drop i).length + i := by
    rw [List.length_drop]
    omega
  rw [List.drop_append_of_le_length hi]
  nth_rewrite 1 [hlen]
  rw [List.take_length_add_append]

variable [DecidableEq α]

theorem isSubstr_iff (s1 s2 : List α) :
    isSubstr s1 s2 = true ↔ ∃ i ≤ s1.length, (s1.drop i).take s2.length = s2 := by
  unfold isSubstr find
  rw [List.find?_isSome]
  simp only [List.mem_range, Nat.lt_succ_iff, decide_eq_true_iff]

theorem isRotation_eq_true_iff (s1 s2 : List α) :
    isRotation s1 s2 = true ↔ ∃ k ≤ s1.length, s2 = s1.drop k ++ s1.take k := by
  unfold isRotation
  by_cases hlen : s1.length = s2.length
  · rw [if_neg (not_not_intro hlen), isSubstr_iff, ← hlen]
    constructor
    · rintro ⟨i, hle, hwindow⟩
      have hi : i ≤ s1.length := by
        have hfull := congrArg List.length hwindow
        rw [List.length_append] at hle
        rw [List.length_take, List.length_drop, List.length_append] at hfull
        omega
      exact ⟨i, hi, by rw [← window_eq s1 hi, hwindow]⟩
    · rintro ⟨k, hk, hs2⟩
      exact ⟨k, by rw [List.length_append]; omega, by rw [window_eq s1 hk, hs2]⟩
  · rw [if_pos hlen]
    refine ⟨fun h => absurd h Bool.false_ne_true, ?_⟩
    rintro ⟨k, hk, rfl⟩
    rw [List.length_append, List.length_drop, List.length_take] at hlen
    omega

theorem isRotation_iff_isRotated (s1 s2 : List α) : isRotation s1 s2 = true ↔ s1.IsRotated s2 := by
  rw [isRotation_eq_true_iff, List.isRotated_iff_mod]
  refine exists_congr fun k => and_congr_right fun hk => ?_
  rw [List.rotate_eq_drop_append_take hk, eq_comm]

/-- The test is right, and rotations are an equivalence. -/
theorem isRotation_equivalence :
    (∀ s1 s2 : List α, isRotation s1 s2 = true ↔ ∃ k ≤ s1.length, s2 = s1.drop k ++ s1.take k) ∧
      Equivalence fun s1 s2 : List α => isRotation s1 s2 = true := by
  refine ⟨isRotation_eq_true_iff, ?_⟩
  simp only [isRotation_iff_isRotated]
  exact List.IsRotated.eqv

end CPPCodes.Strings
