import CPPCodes.DivideConquer.QuickSort

/-!
# Selection of the k-th smallest element

`Partition` and `QuickSelect` of QuickSelect.cpp, which goes on in the part with the index only.
What has been left behind stays on its side, since all of the part it was cut from is
(`quickSelect_spec`).
-/

namespace CPPCodes.DivideConquer

namespace QuickSelect

def partition (vec : Vec ℤ) (start end_ : ℤ) : Option (Vec ℤ × ℤ) :=
  vec.partition (fun x pivot => decide (x > pivot)) start end_

def quickSelect : ℕ → Vec ℤ → (start end_ : ℤ) → (index : UInt16) → Option (Vec ℤ)
  | 0, _, _, _, _ => none
  | fuel + 1, vec, start, end_, index =>
    if start > end_ then some vec
    else do
      let (vec, p) ← partition vec start end_
      if p = index.toNat then some vec
      else if p > index.toNat then quickSelect fuel vec start (p - 1) index
      else quickSelect fuel vec (p + 1) end_ index

/-- The element at the index, between those that are not greater and those that are not less. -/
structure Selected (index : ℕ) (front low : List ℤ) (x : ℤ) (high range : List ℤ) : Prop where
  index : front.length + low.length = index
  perm : (low ++ x :: high).Perm range
  low : ∀ z ∈ low, z ≤ x
  high : ∀ z ∈ high, x ≤ z

variable {lo hi : ℤ} {index : ℕ} {front low mid high mid' high' range : List ℤ} {x pivot : ℤ}

/-- What is selected from the elements in front of the pivot is selected from all. -/
theorem Selected.of_low (h : Selected index front mid x high' low)
    (hperm : (low ++ high).Perm range) (hlow : ∀ z ∈ low, z ≤ pivot)
    (hhigh : ∀ z ∈ high, pivot ≤ z) :
    Selected index front mid x (high' ++ pivot :: high) (range ++ [pivot]) where
  index := h.index
  perm := by
    have hpart := (h.perm.append_right (pivot :: high)).trans (Pivot.perm_concat hperm pivot)
    rwa [List.append_assoc, List.cons_append] at hpart
  low := h.low
  high := by
    have hx : x ≤ pivot := hlow x (h.perm.mem_iff.1 (by simp))
    intro z hz
    rcases List.mem_append.1 hz with hz | hz
    · exact h.high z hz
    · rcases List.mem_cons.1 hz with rfl | hz
      · exact hx
      · exact hx.trans (hhigh z hz)

/-- What is selected from the elements behind the pivot is selected from all. -/
theorem Selected.of_high (h : Selected index (front ++ low ++ [pivot]) mid x high' high)
    (hperm : (low ++ high).Perm range) (hlow : ∀ z ∈ low, z ≤ pivot)
    (hhigh : ∀ z ∈ high, pivot ≤ z) :
    Selected index front (low ++ pivot :: mid) x high' (range ++ [pivot]) where
  index := by
    have hindex := h.index
    simp only [List.length_append, List.length_cons, List.length_nil] at hindex ⊢
    omega
  perm := by
    have hpart := ((h.perm.cons pivot).append_left low).trans (Pivot.perm_concat hperm pivot)
    rwa [List.append_assoc, List.cons_append]
  low := by
    have hx : pivot ≤ x := hhigh x (h.perm.mem_iff.1 (by simp))
    intro z hz
    rcases List.mem_append.1 hz with hz | hz
    · exact (hlow z hz).trans hx
    · rcases List.mem_cons.1 hz with rfl | hz
      · exact hx
      · exact h.low z hz
  high := h.high

theorem quickSelect_spec (index : UInt16) : ∀ (fuel : ℕ) (start end_ : ℤ) {vec : Vec ℤ}
    {front range back : List ℤ},
    Vec.Holds lo hi vec (front ++ (range ++ back)) → range.length < fuel → start = front.length →
    end_ + 1 = (front.length + range.length : ℕ) → front.length ≤ index.toNat →
    index.toNat < front.length + range.length → lo ≤ start → end_ ≤ hi →
    ∃ vec' low x high, quickSelect fuel vec start end_ index = some vec' ∧
      Vec.Holds lo hi vec' (front ++ ((low ++ x :: high) ++ back)) ∧
      Selected index.toNat front low x high range
  | 0, _, _, _, _, _, _, _, hfuel, _, _, _, _, _, _ => absurd hfuel (Nat.not_lt_zero _)
  | fuel + 1, start, end_, vec, front, range, back, h, hfuel, hstart, hend, hfirst, hlast, hlo,
      hhi => by
    rcases List.eq_nil_or_concat' range with rfl | ⟨range, pivot, rfl⟩
    · exact absurd hlast (by simpa using hfirst)
    rw [List.length_append, List.length_singleton] at hfuel hend hlast
    rw [List.append_assoc, List.singleton_append] at h
    obtain ⟨vec₁, low, high, hpart, h₁, hperm, hlow, hhigh⟩ := Vec.partition_spec
      (fun x pivot => decide (x > pivot)) h hstart (by omega) hlo hhi
    have hlen := hperm.length_eq
    rw [List.length_append] at hlen
    have hle : ∀ z ∈ low, z ≤ pivot := fun z hz => not_lt.1 (of_decide_eq_false (hlow z hz))
    have hge : ∀ z ∈ high, pivot ≤ z := fun z hz => (of_decide_eq_true (hhigh z hz)).le
    have hpart : partition vec start end_ = some (vec₁, ((front.length + low.length : ℕ) : ℤ)) :=
      hpart
    unfold quickSelect
    rw [if_neg (show ¬ start > end_ by omega)]
    simp only [hpart, Option.bind_eq_bind, Option.bind_some]
    rcases Nat.lt_trichotomy (front.length + low.length) index.toNat with hlt | heq | hgt
    · rw [if_neg (by omega), if_neg (by omega)]
      have h₁' : Vec.Holds lo hi vec₁ ((front ++ low ++ [pivot]) ++ (high ++ back)) := by
        simpa using h₁
      have hplaces : (front ++ low ++ [pivot]).length = front.length + low.length + 1 := by
        simp [Nat.add_assoc]
      obtain ⟨vec₂, mid, x, high', hrun, h₂, hselected⟩ := quickSelect_spec index
        fuel (((front.length + low.length : ℕ) : ℤ) + 1) end_ h₁' (by omega) (by omega) (by omega)
        (by omega) (by omega) (by omega) hhi
      exact ⟨vec₂, low ++ pivot :: mid, x, high', hrun, by simpa using h₂,
        hselected.of_high hperm hle hge⟩
    · rw [if_pos (by rw [heq])]
      exact ⟨vec₁, low, pivot, high, rfl, by simpa using h₁, heq, Pivot.perm_concat hperm pivot, hle,
        hge⟩
    · rw [if_neg (by omega), if_pos (by omega)]
      obtain ⟨vec₂, mid, x, high', hrun, h₂, hselected⟩ := quickSelect_spec index fuel
        start (((front.length + low.length : ℕ) : ℤ) - 1) h₁ (by omega) hstart (by omega) hfirst hgt hlo
        (by omega)
      exact ⟨vec₂, mid, x, high' ++ pivot :: high, hrun, by simpa using h₂,
        hselected.of_low hperm hle hge⟩

/-- The element at the index is the one that is there in the sorted vector. -/
structure Selects (l : List ℤ) (index : ℕ) (vec : Vec ℤ) : Prop where
  touched : ∀ i ∈ vec.touched, 0 ≤ i ∧ i < l.length
  perm : vec.elements.Perm l
  sorted : vec.elements[index]? = l.mergeSort[index]?
  low : ∀ i < index, ∀ z ∈ vec.elements[i]?, ∀ x ∈ vec.elements[index]?, z ≤ x
  high : ∀ i > index, ∀ z ∈ vec.elements[i]?, ∀ x ∈ vec.elements[index]?, x ≤ z

theorem quickSelect_selects (l : List ℤ) (index : UInt16) (h : index.toNat < l.length) (fuel : ℕ)
    (hfuel : l.length < fuel) :
    ∃ vec, quickSelect fuel (.of l) 0 (l.length - 1) index = some vec ∧
      Selects l index.toNat vec := by
  have hholds : Vec.Holds 0 (l.length - 1) (.of l) ([] ++ (l ++ [])) := {
    elements := by simp [Vec.of]
    touched := by simp [Vec.of]
  }
  obtain ⟨vec, low, x, high, hrun, hvec, hselected⟩ := quickSelect_spec index fuel 0
    (l.length - 1) hholds hfuel rfl (by simp) (Nat.zero_le _) (by simpa using h) (le_refl _) (le_refl _)
  have helements : vec.elements = low ++ x :: high := by simpa using hvec.elements
  have hindex : low.length = index.toNat := by simpa using hselected.index
  have hget : vec.elements[index.toNat]? = some x := by
    rw [helements, ← hindex, Vec.getElem?_place]
  have hperm : (low ++ x :: high).Perm l := hselected.perm
  refine ⟨vec, hrun, ?_⟩
  exact {
    touched := fun i hi => by
      have hbounds := hvec.touched i hi
      omega
    perm := helements ▸ hperm
    sorted := by
      rw [hget, Pivot.mergeSort_split hperm hselected.low hselected.high, ← hindex,
        ← List.length_mergeSort low, Vec.getElem?_place]
    low := fun i hi z hz y hy => by
      obtain rfl : x = y := Option.some_inj.1 (hget.symm.trans hy)
      rw [helements, List.getElem?_append_left (by omega)] at hz
      exact hselected.low z (List.mem_of_getElem? hz)
    high := fun i hi z hz y hy => by
      obtain rfl : x = y := Option.some_inj.1 (hget.symm.trans hy)
      rw [helements, List.getElem?_append_right (by omega), List.getElem?_cons,
        if_neg (by omega)] at hz
      exact hselected.high z (List.mem_of_getElem? hz)
  }

theorem quickSelect_selects_three :
    ∃ vec, quickSelect 4 (.of [3, 1, 2]) 0 (([3, 1, 2] : List ℤ).length - 1) 1 = some vec ∧
      Selects [3, 1, 2] (1 : UInt16).toNat vec :=
  quickSelect_selects [3, 1, 2] 1 (by decide) 4 (by decide)

end QuickSelect

end CPPCodes.DivideConquer
