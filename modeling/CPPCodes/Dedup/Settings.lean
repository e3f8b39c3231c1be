import CPPCodes.Dedup.Chunking
import Mathlib.Data.List.Induction
import Mathlib.Order.Basic
import Mathlib.Order.Nat
import Mathlib.Tactic.Common

/-!
# The setters of TTTD

The divisors after any calls of the setters (`configure`) come from the last recommended size. They
are 0 exactly when it is below 1015, and then `Chunkify` divides by 0 once it has taken the smallest
size (`chunkify_ne_none_iff`).
-/

namespace CPPCodes.Dedup

/-- A call of a setter. -/
inductive Setting
  | minChunkSize (size : UInt64)
  | maxChunkSize (size : UInt64)
  | recommendedChunkSize (size : UInt64)

namespace Setting

def min? : Setting → Option UInt64
  | minChunkSize size => some size
  | _ => none

def recommended? : Setting → Option UInt64
  | recommendedChunkSize size => some size
  | _ => none

/-- The smallest size that was set last. -/
def lastMin (settings : List Setting) : UInt64 :=
  (settings.reverse.findSome? min?).getD (8 * 1024)

/-- The recommended size that was set last, by the constructor if by no call. -/
def lastRecommended (settings : List Setting) : UInt64 :=
  (settings.reverse.findSome? recommended?).getD (16 * 1024)

end Setting

namespace TTTD

open Setting

variable {σ C : Type}

def set (algo : TTTD σ) : Setting → TTTD σ
  | minChunkSize size => algo.setMinChunkSize size
  | maxChunkSize size => algo.setMaxChunkSize size
  | recommendedChunkSize size => algo.setRecommendedChunkSize size

/-- `TTTD` after the constructor and the calls of setters. -/
def configure (hasher : σ) (settings : List Setting) : TTTD σ :=
  settings.foldl set (new hasher)

theorem configure_concat (hasher : σ) (settings : List Setting) (setting : Setting) :
    configure hasher (settings ++ [setting]) = (configure hasher settings).set setting := by
  unfold configure
  rw [List.foldl_append]
  rfl

theorem lastMin_concat (settings : List Setting) (setting : Setting) :
    lastMin (settings ++ [setting]) = setting.min?.getD (lastMin settings) := by
  unfold lastMin
  rw [List.reverse_append]
  cases setting <;> rfl

theorem lastRecommended_concat (settings : List Setting) (setting : Setting) :
    lastRecommended (settings ++ [setting]) =
      setting.recommended?.getD (lastRecommended settings) := by
  unfold lastRecommended
  rw [List.reverse_append]
  cases setting <;> rfl

/-- The sizes that `Chunkify` reads are the last ones set. -/
theorem configure_spec (hasher : σ) (settings : List Setting) :
    (configure hasher settings).chunkSize.min = lastMin settings ∧
      (configure hasher settings).chunkSize.mainDivisor =
        540 * (lastRecommended settings / 1015) ∧
      (configure hasher settings).chunkSize.backupDivisor =
        270 * (lastRecommended settings / 1015) := by
  induction settings using List.reverseRecOn with
  | nil => exact ⟨rfl, rfl, rfl⟩
  | append_singleton settings setting ih =>
    rw [configure_concat, lastMin_concat, lastRecommended_concat]
    obtain ⟨hmin, hmain, hbackup⟩ := ih
    cases setting with
    | minChunkSize size => exact ⟨rfl, hmain, hbackup⟩
    | maxChunkSize size => exact ⟨hmin, hmain, hbackup⟩
    | recommendedChunkSize size => exact ⟨hmin, rfl, rfl⟩

/-- The multiplication does not wrap: `k` times the quotient is no more than the size. -/
theorem divisor_eq_zero_iff {k : UInt64} (hpos : 0 < k.toNat) (hle : k.toNat ≤ 1015)
    (size : UInt64) : k * (size / 1015) = 0 ↔ size < 1015 := by
  have hdiv : (size / 1015).toNat = size.toNat / 1015 := UInt64.toNat_div _ _
  have hbound : k.toNat * (size.toNat / 1015) ≤ 1015 * (size.toNat / 1015) :=
    Nat.mul_le_mul_right _ hle
  have hlt := size.toNat_lt
  have hmul : (k * (size / 1015)).toNat = k.toNat * (size.toNat / 1015) := by
    rw [UInt64.toNat_mul, hdiv, Nat.mod_eq_of_lt (by omega)]
  have hk : (1015 : UInt64).toNat = 1015 := rfl
  rw [← UInt64.toNat_inj, hmul, UInt64.lt_iff_toNat_lt, hk, UInt64.toNat_zero, Nat.mul_eq_zero,
    Nat.div_eq_zero_iff]
  omega

variable (H : Hasher σ C)

theorem chunkLoop_ne_none {size : ChunkSize} (hmain : size.mainDivisor ≠ 0)
    (hbackup : size.backupDivisor ≠ 0) {stop : ℕ} :
    ∀ (bytes : List C) (hasher : σ) (it consumed backupIt : ℕ),
      chunkLoop H size stop bytes hasher it consumed backupIt ≠ none
  | [], _, _, _, _ => by simp [chunkLoop]
  | c :: bytes, hasher, it, consumed, backupIt => by
    unfold chunkLoop
    simp only [hmain, hbackup, if_false]
    split_ifs <;> first | exact chunkLoop_ne_none hmain hbackup bytes _ _ _ _ | simp

/-- With the divisor 0 the loop fails at the first byte that is not among the smallest size. -/
theorem chunkLoop_eq_none_iff {size : ChunkSize} (hbackup : size.backupDivisor = 0) (stop : ℕ) :
    ∀ (bytes : List C) (hasher : σ) (it consumed backupIt : ℕ),
      chunkLoop H size stop bytes hasher it consumed backupIt = none ↔
        consumed < consumed + bytes.length ∧ size.min.toNat ≤ consumed + bytes.length
  | [], _, _, _, _ => by simp [chunkLoop]
  | c :: bytes, hasher, it, consumed, backupIt => by
    have hrest := chunkLoop_eq_none_iff hbackup stop bytes (H.update hasher c).2 (it + 1)
      (consumed + 1) backupIt
    unfold chunkLoop
    simp only [hbackup, if_true, List.length_cons]
    split_ifs with hmin
    · rw [hrest]
      omega
    · exact iff_of_true rfl (by omega)

/-- `Chunkify` divides by 0 exactly when the last recommended size is below 1015 and there are as
many bytes as the smallest size, and at least one. -/
theorem chunkify_ne_none_iff (hasher : σ) (settings : List Setting) (bytes : List C) :
    chunkify H (configure hasher settings) bytes ≠ none ↔
      1015 ≤ lastRecommended settings ∨ bytes.length < max 1 (lastMin settings).toNat := by
  obtain ⟨hmin, hmain, hbackup⟩ := configure_spec hasher settings
  unfold chunkify
  rw [Ne, Option.map_eq_none_iff]
  by_cases hsmall : lastRecommended settings < 1015
  · have hzero : (configure hasher settings).chunkSize.backupDivisor = 0 := by
      rw [hbackup]
      exact (divisor_eq_zero_iff (by decide) (by decide) _).2 hsmall
    rw [chunkLoop_eq_none_iff H hzero, hmin, or_iff_right (UInt64.not_le.2 hsmall)]
    omega
  · refine iff_of_true (chunkLoop_ne_none H ?_ ?_ _ _ _ _ _) (.inl (UInt64.not_lt.1 hsmall))
    · rw [hmain]
      exact fun hzero => hsmall ((divisor_eq_zero_iff (by decide) (by decide) _).1 hzero)
    · rw [hbackup]
      exact fun hzero => hsmall ((divisor_eq_zero_iff (by decide) (by decide) _).1 hzero)

/-- A recommended size of 1000 bytes, and a byte. -/
theorem not_chunkify_ne_none :
    ¬ ∀ (settings : List Setting) (bytes : List UInt64),
      chunkify (⟨id, fun s c => (c, s)⟩ : Hasher Unit UInt64) (configure () settings) bytes ≠
        none :=
  fun h => h [recommendedChunkSize 1000, minChunkSize 1] [7] rfl

end TTTD

end CPPCodes.Dedup
