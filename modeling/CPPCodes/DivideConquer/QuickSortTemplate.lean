import CPPCodes.DivideConquer.QuickSort
import Mathlib.Algebra.Order.Ring.Int

/-!
# Quicksort of any integer type

`Parition` and `QuickSort` of QuickSortTemplate.cpp. Its pivot is an `int64_t` whatever the type of
the elements is, so a wider pivot is cut to its low 64 bits. In types of up to 64 bits the
comparison is that of the elements (`common_pivot`), and in every wider type two of them show the
difference (`agrees_iff`).
-/

namespace CPPCodes.DivideConquer

namespace QuickSortTemplate

/-- An integer type. -/
structure IntType where
  signed : Bool
  width : ℕ
  pos : 0 < width

namespace IntType

def Fits (T : IntType) (x : ℤ) : Prop :=
  if T.signed then -2 ^ (T.width - 1) ≤ x ∧ x < 2 ^ (T.width - 1) else 0 ≤ x ∧ x < 2 ^ T.width

instance (T : IntType) (x : ℤ) : Decidable (T.Fits x) := by
  unfold Fits
  infer_instance

abbrev Value (T : IntType) : Type := {x : ℤ // T.Fits x}

end IntType

/-- `const int64_t pivot = x`. -/
def pivot (x : ℤ) : ℤ := x.bmod (2 ^ 64)

/-- An `int64_t` in the common type with `T`: it is unsigned if `T` is and has 64 bits or more. -/
def common (T : IntType) (x : ℤ) : ℤ :=
  if T.signed ∨ T.width < 64 then x else x % 2 ^ T.width

/-- `vec[i] > pivot`, where the pivot is `x`. -/
def greater (T : IntType) (z x : T.Value) : Bool := decide (z.1 > common T (pivot x.1))

def parition (T : IntType) (vec : Vec T.Value) (start end_ : ℤ) : Option (Vec T.Value × ℤ) :=
  vec.partition (greater T) start end_

def quickSort (T : IntType) : ℕ → Vec T.Value → (start end_ : ℤ) → Option (Vec T.Value) :=
  Vec.quickSort (parition T)

/-- The whole vector goes to a non-decreasing permutation of itself. -/
def Sorts (T : IntType) (l : List T.Value) : Prop :=
  ∀ fuel > l.length, ∃ vec, quickSort T fuel (.of l) 0 (l.length - 1) = some vec ∧
    vec.elements.Perm l ∧ vec.elements.Pairwise (· ≤ ·)

variable {T : IntType}

theorem pivot_eq {x : ℤ} (hlow : -2 ^ 63 ≤ x) (hhigh : x < 2 ^ 63) : pivot x = x := by
  unfold pivot
  exact Int.bmod_eq_of_le (by omega) (by omega)

theorem common_pivot (h : T.width ≤ 64) (x : T.Value) : common T (pivot x.1) = x.1 := by
  obtain ⟨x, hx⟩ := x
  unfold IntType.Fits at hx
  show common T (pivot x) = x
  unfold common
  by_cases hsigned : T.signed
  · rw [if_pos hsigned] at hx
    rw [if_pos (.inl hsigned)]
    have hpow : (2 : ℤ) ^ (T.width - 1) ≤ 2 ^ 63 :=
      pow_le_pow_right₀ (by decide) (by omega)
    exact pivot_eq (by omega) (by omega)
  · rw [if_neg hsigned] at hx
    by_cases hwidth : T.width < 64
    · rw [if_pos (.inr hwidth)]
      have hpow : (2 : ℤ) ^ T.width ≤ 2 ^ 63 := pow_le_pow_right₀ (by decide) (by omega)
      exact pivot_eq (by omega) (by omega)
    · rw [if_neg (by simp [hsigned, hwidth])]
      have heq : T.width = 64 := by omega
      rw [heq] at hx ⊢
      have hemod : pivot x % ((2 ^ 64 : ℕ) : ℤ) = x % ((2 ^ 64 : ℕ) : ℤ) := Int.bmod_emod
      exact hemod.trans (Int.emod_eq_of_lt hx.1 hx.2)

/-- Of two values, the less is greater than the pivot that the other gives. -/
theorem exists_not_agrees (h : 64 < T.width) :
    ∃ z x : T.Value, z.1 < x.1 ∧ greater T z x = true := by
  by_cases hsigned : T.signed
  · have hpow : (2 : ℤ) ^ 64 ≤ 2 ^ (T.width - 1) := pow_le_pow_right₀ (by decide) (by omega)
    refine ⟨⟨0, ?_⟩, ⟨2 ^ 63, ?_⟩, ?_, decide_eq_true ?_⟩
    · rw [IntType.Fits, if_pos hsigned]
      omega
    · rw [IntType.Fits, if_pos hsigned]
      omega
    · exact (by decide : (0 : ℤ) < 2 ^ 63)
    · show (0 : ℤ) > common T (pivot (2 ^ 63))
      rw [common, if_pos (.inl hsigned)]
      decide
  · have hpow : (2 : ℤ) ^ 65 ≤ 2 ^ T.width := pow_le_pow_right₀ (by decide) (by omega)
    refine ⟨⟨1, ?_⟩, ⟨2 ^ 64, ?_⟩, ?_, decide_eq_true ?_⟩
    · rw [IntType.Fits, if_neg hsigned]
      omega
    · rw [IntType.Fits, if_neg hsigned]
      omega
    · exact (by decide : (1 : ℤ) < 2 ^ 64)
    · have hpivot : pivot (2 ^ 64) = 0 := by decide
      show (1 : ℤ) > common T (pivot (2 ^ 64))
      rw [common, if_neg (by simp [hsigned]; omega), hpivot, Int.zero_emod]
      decide

/-- The comparison is right for all values if and only if they fit the pivot. -/
theorem agrees_iff : (∀ z x : T.Value, Pivot.Agrees (greater T) z x) ↔ T.width ≤ 64 := by
  constructor
  · intro h
    by_contra hwidth
    obtain ⟨z, x, hlt, hgreater⟩ := exists_not_agrees (by omega : 64 < T.width)
    exact absurd ((h z x).2 hgreater) (not_le.2 hlt)
  · intro h z x
    unfold Pivot.Agrees greater
    rw [common_pivot h x]
    exact ⟨fun hle => not_lt.1 (of_decide_eq_false hle), fun hgt => (of_decide_eq_true hgt).le⟩

theorem exists_splits (l : List T.Value) {fuel : ℕ} (hfuel : fuel > l.length) :
    ∃ vec, quickSort T fuel (.of l) 0 (l.length - 1) = some vec ∧
      Pivot.Splits (greater T) l vec.elements := by
  have hholds : Vec.Holds 0 (l.length - 1) (.of l) ([] ++ (l ++ [])) := {
    elements := by simp [Vec.of]
    touched := by simp [Vec.of]
  }
  obtain ⟨vec, l', hrun, hvec, hsplits⟩ := Vec.quickSort_spec (greater T) fuel 0 (l.length - 1)
    hholds hfuel rfl (by simp) (le_refl _) (le_refl _)
  have helements : vec.elements = l' := by simpa using hvec.elements
  exact ⟨vec, hrun, helements ▸ hsplits⟩

theorem sorts_of_agrees {l : List T.Value}
    (h : ∀ z ∈ l, ∀ x ∈ l, Pivot.Agrees (greater T) z x) : Sorts T l := by
  intro fuel hfuel
  obtain ⟨vec, hrun, hsplits⟩ := exists_splits l hfuel
  exact ⟨vec, hrun, hsplits.perm, hsplits.pairwise h⟩

theorem Sorts.splits {l : List T.Value} (h : Sorts T l) :
    ∃ l', Pivot.Splits (greater T) l l' ∧ l'.Pairwise (· ≤ ·) := by
  obtain ⟨vec, hrun, hsplits⟩ := exists_splits l (Nat.lt_succ_self _)
  obtain ⟨vec', hrun', -, hsorted⟩ := h _ (Nat.lt_succ_self _)
  obtain rfl := Option.some_inj.1 (hrun.symm.trans hrun')
  exact ⟨vec.elements, hsplits, hsorted⟩

/-- `__int128`. -/
def int128 : IntType where
  signed := true
  width := 128
  pos := by decide

/-- Quicksort sorts all vectors of a type if and only if the type has at most 64 bits, and in a
wider type it sorts all orders of the elements of a vector if and only if the pivots that they give
are right about any two of them. -/
theorem quickSort_sorts_iff (T : IntType) : ((∀ l, Sorts T l) ↔ T.width ≤ 64) ∧
    ∀ l, (∀ l₁, l₁.Perm l → Sorts T l₁) ↔
      ∀ z ∈ l, ∀ x ∈ l, Pivot.Agrees (greater T) z x := by
  have hperms : ∀ l, (∀ l₁, l₁.Perm l → Sorts T l₁) ↔
      ∀ z ∈ l, ∀ x ∈ l, Pivot.Agrees (greater T) z x := by
    intro l
    constructor
    · intro h z hz x hx
      exact Pivot.agrees_of_forall (fun l₁ hl₁ => (h l₁ hl₁).splits) hz hx
    · intro h l₁ hl₁
      exact sorts_of_agrees fun z hz x hx => h z (hl₁.mem_iff.1 hz) x (hl₁.mem_iff.1 hx)
  refine ⟨?_, hperms⟩
  rw [← agrees_iff]
  constructor
  · intro h z x
    exact (hperms [z, x]).1 (fun l₁ _ => h l₁) z (by simp) x (by simp)
  · intro h l
    exact sorts_of_agrees fun z _ x _ => h z x

theorem not_quickSort_sorts : ¬ Sorts int128 [⟨0, by decide⟩, ⟨2 ^ 63, by decide⟩] := by
  intro h
  obtain ⟨vec, hrun, -, hsorted⟩ := h 3 (by decide)
  have helements : vec.elements = [⟨2 ^ 63, by decide⟩, ⟨0, by decide⟩] := by
    rw [← Option.some_inj.1 hrun]
    rfl
  rw [helements] at hsorted
  exact absurd (List.rel_of_pairwise_cons hsorted (List.mem_singleton_self _)) (by decide)

end QuickSortTemplate

end CPPCodes.DivideConquer
