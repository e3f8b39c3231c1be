import CPPCodes.DivideConquer.Partition

/-!
# Quicksort

`Parition` and `QuickSort` of QuickSort.cpp, over the comparison with the pivot, which is the one
thing that QuickSortTemplate.cpp has another way. `fuel` bounds the depth of the calls, and one more
than the length of the range is enough: the pivot is in neither of the two calls. The range goes to
what `Pivot.Splits` makes of it, and everything else follows from that (`quickSort_sorts`).
-/

namespace CPPCodes.DivideConquer

variable {α : Type}

namespace Vec

/-- `QuickSort`, over its `Parition`. -/
def quickSort (parition : Vec α → (start end_ : ℤ) → Option (Vec α × ℤ)) :
    ℕ → Vec α → (start end_ : ℤ) → Option (Vec α)
  | 0, _, _, _ => none
  | fuel + 1, vec, start, end_ =>
    if start ≥ end_ then some vec
    else do
      let (vec, p) ← parition vec start end_
      let vec ← quickSort parition fuel vec start (p - 1)
      quickSort parition fuel vec (p + 1) end_

variable {lo hi : ℤ}

theorem quickSort_spec (greater : α → α → Bool) : ∀ (fuel : ℕ) (start end_ : ℤ) {vec : Vec α}
    {front range back : List α},
    Holds lo hi vec (front ++ (range ++ back)) → range.length < fuel → start = front.length →
    end_ + 1 = (front.length + range.length : ℕ) → lo ≤ start → end_ ≤ hi →
    ∃ vec' range', quickSort (partition greater) fuel vec start end_ = some vec' ∧
      Holds lo hi vec' (front ++ (range' ++ back)) ∧ Pivot.Splits greater range range'
  | 0, _, _, _, _, _, _, _, hfuel, _, _, _, _ => absurd hfuel (Nat.not_lt_zero _)
  | fuel + 1, start, end_, vec, front, range, back, h, hfuel, hstart, hend, hlo, hhi => by
    unfold quickSort
    by_cases hshort : start ≥ end_
    · rw [if_pos hshort]
      exact ⟨vec, range, rfl, h, .short (by omega)⟩
    · rw [if_neg hshort]
      rcases List.eq_nil_or_concat' range with rfl | ⟨range, x, rfl⟩
      · rw [List.length_nil] at hend
        omega
      rw [List.length_append, List.length_singleton] at hfuel hend
      rw [List.append_assoc, List.singleton_append] at h
      obtain ⟨vec₁, low, high, hpart, h₁, hperm, hlow, hhigh⟩ := partition_spec greater h
        hstart (by omega) hlo hhi
      have hlen := hperm.length_eq
      rw [List.length_append] at hlen
      -- the elements that are not greater, with the pivot and the others behind them
      obtain ⟨vec₂, low', hsort₂, h₂, hsplits₂⟩ := quickSort_spec greater fuel start
        (((front.length + low.length : ℕ) : ℤ) - 1) h₁ (by omega) hstart (by omega) hlo
        (by omega)
      have hlow' := hsplits₂.perm.length_eq
      have h₂' : Holds lo hi vec₂ ((front ++ low' ++ [x]) ++ (high ++ back)) := by
        simpa using h₂
      have hplaces : (front ++ low' ++ [x]).length = front.length + low'.length + 1 := by
        simp [Nat.add_assoc]
      obtain ⟨vec₃, high', hsort₃, h₃, hsplits₃⟩ := quickSort_spec greater fuel
        (((front.length + low.length : ℕ) : ℤ) + 1) end_ h₂' (by omega) (by omega)
        (by omega) (by omega) hhi
      refine ⟨vec₃, low' ++ x :: high', ?_, by simpa using h₃, .split hperm hlow hhigh hsplits₂
        hsplits₃⟩
      simp only [hpart, hsort₂, hsort₃, Option.bind_eq_bind, Option.bind_some]

end Vec

/-- A vector of which nothing has been read or written yet. -/
def Vec.of (elements : List α) : Vec α where
  elements := elements
  touched := []

/-- `vec[start..end]`. -/
def range (l : List α) (start end_ : ℤ) : List α :=
  (l.drop start.toNat).take (end_ + 1 - start).toNat

/-- A list is what is in front of the range, the range, and what is behind it. -/
theorem range_append {front l back : List α} {start end_ : ℤ} (hstart : start = front.length)
    (hend : end_ + 1 = (front.length + l.length : ℕ)) :
    range (front ++ (l ++ back)) start end_ = l := by
  have hlen : (end_ + 1 - start).toNat = l.length := by omega
  unfold range
  rw [hlen, hstart, Int.toNat_natCast, List.drop_left, List.take_left]

/-- Both bounds are indexes of the list, or the range is empty. -/
def Bounds (l : List α) (start end_ : ℤ) : Prop :=
  (0 ≤ start ∧ start < l.length ∧ 0 ≤ end_ ∧ end_ < l.length) ∨ start > end_

theorem exists_append_range {l : List α} {start end_ : ℤ} (hstart : 0 ≤ start)
    (hle : start ≤ end_ + 1) (hend : end_ < l.length) :
    ∃ front back, l = front ++ (range l start end_ ++ back) ∧ start = front.length ∧
      end_ + 1 = (front.length + (range l start end_).length : ℕ) := by
  have hfront : (l.take start.toNat).length = start.toNat := by
    rw [List.length_take]
    omega
  have hrange : (range l start end_).length = (end_ + 1 - start).toNat := by
    unfold range
    rw [List.length_take, List.length_drop]
    omega
  refine ⟨l.take start.toNat, (l.drop start.toNat).drop (end_ + 1 - start).toNat, ?_, by omega,
    by omega⟩
  unfold range
  rw [List.take_append_drop, List.take_append_drop]

theorem getElem?_rest {front l l' back : List α} {i : ℕ} (hlen : l'.length = l.length)
    (hi : i < front.length ∨ front.length + l.length ≤ i) :
    (front ++ (l' ++ back))[i]? = (front ++ (l ++ back))[i]? := by
  rcases hi with hi | hi
  · rw [List.getElem?_append_left hi, List.getElem?_append_left hi]
  · have hfront : front.length ≤ i := by omega
    rw [List.getElem?_append_right hfront, List.getElem?_append_right hfront,
      List.getElem?_append_right (by omega), List.getElem?_append_right (by omega), hlen]

/-- What is left by a sort of the range: nothing outside of it is touched. -/
structure SortsRange (l : List ℤ) (start end_ : ℤ) (vec : Vec ℤ) : Prop where
  touched : ∀ i ∈ vec.touched, start ≤ i ∧ i ≤ end_
  length : vec.elements.length = l.length
  rest : ∀ i : ℕ, (i : ℤ) < start ∨ end_ < i → vec.elements[i]? = l[i]?
  perm : (range vec.elements start end_).Perm (range l start end_)
  sorted : (range vec.elements start end_).Pairwise (· ≤ ·)

namespace QuickSort

def parition (vec : Vec ℤ) (start end_ : ℤ) : Option (Vec ℤ × ℤ) :=
  vec.partition (fun x pivot => decide (x > pivot)) start end_

def quickSort : ℕ → Vec ℤ → (start end_ : ℤ) → Option (Vec ℤ) := Vec.quickSort parition

theorem agrees (z x : ℤ) : Pivot.Agrees (fun x pivot => decide (x > pivot)) z x :=
  ⟨fun h => not_lt.1 (of_decide_eq_false h), fun h => (of_decide_eq_true h).le⟩

/-- The range gets sorted, and the rest stays. -/
theorem quickSort_sorts (l : List ℤ) (start end_ : ℤ) (h : Bounds l start end_) (fuel : ℕ)
    (hfuel : (end_ + 1 - start).toNat < fuel) :
    ∃ vec, quickSort fuel (.of l) start end_ = some vec ∧ SortsRange l start end_ vec := by
  by_cases hlt : start > end_
  · obtain ⟨fuel, rfl⟩ := Nat.exists_eq_succ_of_ne_zero (Nat.ne_zero_of_lt hfuel)
    have hempty : range l start end_ = [] := by
      unfold range
      rw [show (end_ + 1 - start).toNat = 0 by omega, List.take_zero]
    refine ⟨.of l, if_pos hlt.le, ?_⟩
    exact {
      touched := by simp [Vec.of]
      length := rfl
      rest := fun _ _ => rfl
      perm := .refl _
      sorted := by
        show (range l start end_).Pairwise _
        rw [hempty]
        exact .nil
    }
  · have hin := h.resolve_right hlt
    obtain ⟨front, back, hl, hstart, hend⟩ :=
      exists_append_range hin.1 (by omega) hin.2.2.2
    have hholds : Vec.Holds start end_ (.of l) (front ++ (range l start end_ ++ back)) := {
      elements := hl
      touched := by simp [Vec.of]
    }
    obtain ⟨vec, range', hsort, hvec, hsplits⟩ := Vec.quickSort_spec
      (fun x pivot => decide (x > pivot)) fuel start end_ hholds (by omega) hstart hend (le_refl _)
      (le_refl _)
    have hlen := hsplits.perm.length_eq
    have hrange : range vec.elements start end_ = range' := by
      rw [hvec.elements]
      exact range_append hstart (by omega)
    refine ⟨vec, hsort, ?_⟩
    exact {
      touched := hvec.touched
      length := by
        conv_rhs => rw [hl]
        simp only [hvec.elements, List.length_append, hlen]
      rest := fun i hi => by
        conv_rhs => rw [hl]
        rw [hvec.elements]
        exact getElem?_rest hlen (by omega)
      perm := hrange ▸ hsplits.perm
      sorted := hrange ▸ hsplits.pairwise fun z _ x _ => agrees z x
    }

/-- The three in the middle of five. -/
theorem quickSort_sorts_three :
    ∃ vec, quickSort 4 (.of [9, 3, 1, 2, 0]) 1 3 = some vec ∧
      SortsRange [9, 3, 1, 2, 0] 1 3 vec :=
  quickSort_sorts [9, 3, 1, 2, 0] 1 3 (.inl (by decide)) 4 (by decide)

end QuickSort

end CPPCodes.DivideConquer
