import Mathlib.Data.List.Perm.Basic
import Mathlib.Logic.Function.Basic

/-!
# Memory that is given back

Cells are in use or not. To read, write or give back one that is not in use fails, so a program
that does not fail gives back nothing twice and reads nothing that it has given back; what is not in
use at the end was given back.
-/

namespace Memory

variable {β : Type*}

abbrev Cells (β : Type*) := ℕ → Option β

def ofList (nodes : List β) : Cells β := fun a => nodes[a]?

def none_ : Cells β := fun _ => none

def store (m : Cells β) (a : ℕ) (x : β) : Option (Cells β) :=
  if (m a).isSome then some (Function.update m a (some x)) else none

/-- `delete` -/
def free (m : Cells β) (a : ℕ) : Option (Cells β) :=
  if (m a).isSome then some (Function.update m a none) else none

/-- `if (p) f(p)` -/
def unlessNull {σ : Type*} (f : σ → ℕ → Option σ) (s : σ) : Option ℕ → Option σ
  | none => some s
  | some a => f s a

/-- The memory without some cells. -/
def without (m : Cells β) (as : List ℕ) : Cells β := fun a => if a ∈ as then none else m a

variable {m : Cells β} {a b : ℕ} {x y : β} {as bs : List ℕ}

theorem store_eq (h : m a = some x) (y : β) : store m a y = some (Function.update m a (some y)) :=
  if_pos (by rw [h]; rfl)

theorem free_eq (h : m a = some x) : free m a = some (without m [a]) := by
  rw [free, if_pos (by rw [h]; rfl)]
  congr 1
  funext b
  rw [without, Function.update_apply]
  simp

theorem without_of_notMem (h : a ∉ as) : without m as a = m a := if_neg h

theorem without_nil : without m [] = m := by
  funext a
  exact if_neg (List.not_mem_nil)

theorem without_without : without (without m as) bs = without m (as ++ bs) := by
  funext a
  simp only [without, List.mem_append]
  by_cases h1 : a ∈ bs <;> by_cases h2 : a ∈ as <;> simp [h1, h2]

/-- What was written to a cell goes with it. -/
theorem without_update (h : a ∈ as) (c : Option β) :
    without (Function.update m a c) as = without m as := by
  funext b
  simp only [without]
  split_ifs with hb
  · rfl
  · have hne : b ≠ a := fun heq => hb (heq ▸ h)
    rw [Function.update_of_ne hne]

theorem without_perm (h : as.Perm bs) : without m as = without m bs := by
  funext a
  simp only [without, h.mem_iff]

/-- When all cells are given back, none is left. -/
theorem without_ofList {nodes : List β} (h : ∀ a < nodes.length, a ∈ as) :
    without (ofList nodes) as = none_ := by
  funext a
  rw [without]
  split_ifs with ha
  · rfl
  · exact List.getElem?_eq_none (Nat.le_of_not_lt fun hlt => ha (h a hlt))

end Memory
