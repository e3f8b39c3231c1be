import Mathlib.Data.List.Perm.Basic
import Mathlib.Data.List.Sort
import Mathlib.Order.Basic
import Mathlib.Tactic.Common

/-!
# Sorting by pivots

The last element of a list is its pivot: a comparison with it tells which of the others come behind
it, and both parts are treated alike (`Splits`). The pivot stays between the parts, so the outcome
is sorted if the comparison is right about the order of the elements (`Splits.pairwise`), and for
all orders of the elements only then (`agrees_of_forall`).
-/

namespace Pivot

variable {α : Type*} {gt : α → α → Bool} {l l' : List α}

/-- The list, and what the splitting makes of it. -/
inductive Splits (gt : α → α → Bool) : List α → List α → Prop
  | short {l : List α} : l.length ≤ 1 → Splits gt l l
  | split {l low high low' high' : List α} {x : α} : (low ++ high).Perm l →
      (∀ z ∈ low, gt z x = false) → (∀ z ∈ high, gt z x = true) → Splits gt low low' →
      Splits gt high high' → Splits gt (l ++ [x]) (low' ++ x :: high')

/-- The comparison does not contradict the order of the two. -/
def Agrees [LE α] (gt : α → α → Bool) (z x : α) : Prop :=
  (gt z x = false → z ≤ x) ∧ (gt z x = true → x ≤ z)

theorem perm_concat {low high : List α} (h : (low ++ high).Perm l) (x : α) :
    (low ++ x :: high).Perm (l ++ [x]) :=
  (List.perm_middle.trans (h.cons x)).trans (List.perm_append_singleton _ _).symm

theorem Splits.perm (h : Splits gt l l') : l'.Perm l := by
  induction h with
  | short => exact .refl _
  | split hperm _ _ _ _ ihlow ihhigh => exact perm_concat ((ihlow.append ihhigh).trans hperm) _

/-- The pivot is between the parts. -/
theorem Splits.of_concat {x : α} (h : Splits gt (l ++ [x]) l') :
    ∃ low high, l' = low ++ x :: high ∧ (∀ z ∈ low, gt z x = false) ∧
      ∀ z ∈ high, gt z x = true := by
  generalize hl : l ++ [x] = l₁ at h
  cases h with
  | short hlen =>
    subst hl
    rw [List.length_append, List.length_singleton] at hlen
    obtain rfl := List.length_eq_zero_iff.1 (by omega : l.length = 0)
    exact ⟨[], [], rfl, by simp, by simp⟩
  | @split _ low high low' high' y hperm hlow hhigh hl₁ hl₂ =>
    obtain ⟨rfl, rfl⟩ : l = _ ∧ x = y := by simpa using hl
    exact ⟨low', high', rfl, fun z hz => hlow z (hl₁.perm.mem_iff.1 hz),
      fun z hz => hhigh z (hl₂.perm.mem_iff.1 hz)⟩

section Preorder

variable [Preorder α]

/-- A list is sorted if its parts are and the pivot is between them. -/
theorem pairwise_split {low high : List α} {x : α} (hlow : low.Pairwise (· ≤ ·))
    (hhigh : high.Pairwise (· ≤ ·)) (hle : ∀ z ∈ low, z ≤ x) (hge : ∀ z ∈ high, x ≤ z) :
    (low ++ x :: high).Pairwise (· ≤ ·) := by
  refine List.pairwise_append.2 ⟨hlow, List.pairwise_cons.2 ⟨hge, hhigh⟩, fun a ha b hb => ?_⟩
  rcases List.mem_cons.1 hb with rfl | hb
  · exact hle a ha
  · exact (hle a ha).trans (hge b hb)

/-- In the sorted list the pivot is behind as many elements as before. -/
theorem mergeSort_split {α : Type*} [LinearOrder α] {l low high : List α} {x : α}
    (hperm : (low ++ x :: high).Perm l) (hle : ∀ z ∈ low, z ≤ x) (hge : ∀ z ∈ high, x ≤ z) :
    l.mergeSort = low.mergeSort ++ x :: high.mergeSort := by
  have hparts : (low.mergeSort ++ x :: high.mergeSort).Perm (low ++ x :: high) :=
    (List.mergeSort_perm low _).append ((List.mergeSort_perm high _).cons x)
  have hsorted : (low.mergeSort ++ x :: high.mergeSort).Pairwise (· ≤ ·) :=
    pairwise_split (List.pairwise_mergeSort' (· ≤ ·) low) (List.pairwise_mergeSort' (· ≤ ·) high)
      (fun z hz => hle z (List.mem_mergeSort.1 hz)) fun z hz => hge z (List.mem_mergeSort.1 hz)
  exact ((List.mergeSort_perm l _).trans (hparts.trans hperm).symm).eq_of_pairwise'
    (List.pairwise_mergeSort' (· ≤ ·) l) hsorted

theorem Splits.pairwise (h : Splits gt l l') (hagrees : ∀ z ∈ l, ∀ x ∈ l, Agrees gt z x) :
    l'.Pairwise (· ≤ ·) := by
  induction h with
  | @short l hlen =>
    match l, hlen with
    | [], _ => exact .nil
    | [x], _ => exact List.pairwise_singleton _ _
  | @split l low high low' high' x hperm hlow hhigh hl₁ hl₂ ihlow ihhigh =>
    have hmem : ∀ z, z ∈ low ∨ z ∈ high → z ∈ l ++ [x] := fun z hz =>
      List.mem_append_left _ (hperm.mem_iff.1 (List.mem_append.2 hz))
    have hx : x ∈ l ++ [x] := by simp
    refine pairwise_split (ihlow fun z hz y hy => hagrees z (hmem z (.inl hz)) y (hmem y (.inl hy)))
      (ihhigh fun z hz y hy => hagrees z (hmem z (.inr hz)) y (hmem y (.inr hy)))
      (fun z hz => ?_) fun z hz => ?_
    · have hz := hl₁.perm.mem_iff.1 hz
      exact (hagrees z (hmem z (.inl hz)) x hx).1 (hlow z hz)
    · have hz := hl₂.perm.mem_iff.1 hz
      exact (hagrees z (hmem z (.inr hz)) x hx).2 (hhigh z hz)

/-- The pivot is in order with an element from which it differs. -/
theorem Splits.agrees {x z : α} (h : Splits gt (l ++ [x]) l') (hsorted : l'.Pairwise (· ≤ ·))
    (hz : z ∈ l) : Agrees gt z x := by
  obtain ⟨low, high, rfl, hlow, hhigh⟩ := h.of_concat
  obtain ⟨-, hright, hacross⟩ := List.pairwise_append.1 hsorted
  have hmem := h.perm.mem_iff.2 (List.mem_append_left [x] hz)
  rcases List.mem_append.1 hmem with hmem | hmem
  · refine ⟨fun _ => hacross z hmem x List.mem_cons_self, fun hgt => ?_⟩
    exact absurd (hgt.symm.trans (hlow z hmem)) (by decide)
  · rcases List.mem_cons.1 hmem with rfl | hmem
    · exact ⟨fun _ => le_refl _, fun _ => le_refl _⟩
    · refine ⟨fun hgt => absurd (hgt.symm.trans (hhigh z hmem)) (by decide), fun _ => ?_⟩
      exact List.rel_of_pairwise_cons hright hmem

/-- All orders of the elements get sorted only if the comparison is right about any two. -/
theorem agrees_of_forall (h : ∀ l₁, l₁.Perm l → ∃ l', Splits gt l₁ l' ∧ l'.Pairwise (· ≤ ·))
    {z x : α} (hz : z ∈ l) (hx : x ∈ l) : Agrees gt z x := by
  obtain ⟨front, back, rfl⟩ := List.append_of_mem hx
  have hlast : (front ++ back ++ [x]).Perm (front ++ x :: back) :=
    (perm_concat (.refl _) x).symm
  obtain ⟨l', hsplits, hsorted⟩ := h _ hlast
  rcases List.mem_append.1 (hlast.mem_iff.2 hz) with hz | hz
  · exact hsplits.agrees hsorted hz
  · obtain rfl := List.mem_singleton.1 hz
    exact ⟨fun _ => le_refl _, fun _ => le_refl _⟩

end Preorder

end Pivot
