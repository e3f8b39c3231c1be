import Mathlib.Data.Nat.Notation

/-!
# Removal by a swap with the back

An element of an array is taken out by swapping it with the last and dropping that. The others stay,
in another order.
-/

namespace SwapRemove

variable {α : Type*}

theorem back?_swap (xs : Array α) (i : ℕ) (hi : i < xs.size) :
    (xs.swap i (xs.size - 1)).back? = some xs[i] := by
  rw [Array.back?_eq_getElem?, Array.size_swap, Array.getElem?_eq_getElem (by simp; omega),
    Array.getElem_swap_right]

theorem perm_pop (xs : Array α) (a : α) (h : xs.back? = some a) :
    xs.toList.Perm (a :: xs.pop.toList) := by
  have hne : xs.toList ≠ [] := by
    intro hnil
    simp [Array.back?_eq_getElem?, Array.toList_eq_nil_iff.1 hnil] at h
  have hlast : xs.toList.getLast hne = a := by
    rw [List.getLast_eq_getElem]
    rw [Array.back?_eq_getElem?] at h
    simpa using (Array.getElem?_eq_some_iff.1 h).2
  have hsplit := List.dropLast_concat_getLast hne
  rw [hlast] at hsplit
  rw [Array.toList_pop]
  exact (List.Perm.of_eq hsplit.symm).trans (List.perm_append_singleton _ _)

theorem perm_pop_swap (xs : Array α) (i : ℕ) (hi : i < xs.size) :
    xs.toList.Perm (xs[i] :: (xs.swap i (xs.size - 1)).pop.toList) :=
  (Array.swap_perm hi (by omega)).symm.toList.trans (perm_pop _ _ (back?_swap xs i hi))

end SwapRemove
