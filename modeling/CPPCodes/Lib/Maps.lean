import Mathlib.Data.List.Basic

/-!
# Ordered maps

Look-ups in a map after one change of it.
-/

namespace CPPCodes

open Std (ExtTreeMap)

variable {α β : Type*} [DecidableEq α] [Ord α] [Std.TransOrd α] [Std.LawfulEqOrd α]

theorem getElem?_put (m : ExtTreeMap α β) (k a : α) (v : β) :
    (m.insert k v)[a]? = if a = k then some v else m[a]? := by
  rw [ExtTreeMap.getElem?_insert]
  simp only [Std.compare_eq_iff_eq, eq_comm (a := k)]

theorem getElem?_putNew (m : ExtTreeMap α β) {k : α} (hk : m[k]? = none) (a : α) (v : β) :
    (m.insertIfNew k v)[a]? = if a = k then some v else m[a]? := by
  have hmem : k ∉ m := fun h => by
    rw [ExtTreeMap.mem_iff_isSome_getElem?, hk] at h
    exact absurd h (by simp)
  rw [ExtTreeMap.getElem?_insertIfNew]
  simp only [Std.compare_eq_iff_eq, eq_comm (a := k), hmem, not_false_eq_true, and_true]

theorem getElem?_delete (m : ExtTreeMap α β) (k a : α) :
    (m.erase k)[a]? = if a = k then none else m[a]? := by
  rw [ExtTreeMap.getElem?_erase]
  simp only [Std.compare_eq_iff_eq, eq_comm (a := k)]

end CPPCodes
