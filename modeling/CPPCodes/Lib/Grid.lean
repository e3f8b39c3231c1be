import CPPCodes.Lib.Loop
import Mathlib.Data.List.GetD
import Mathlib.Tactic.Common

/-!
# Tables of rows

A table that is read and written by row and column, where a place outside of it is none. Two loops
fill it row by row, the first column apart: if a place gets a right value wherever those in front of
it have one, all places get one (`Filled.fill`).
-/

abbrev Grid (α : Type*) := List (List α)

namespace Grid

variable {α : Type*}

def get (g : Grid α) (i j : ℕ) : Option α := g[i]?.bind fun row => row[j]?

def set (g : Grid α) (i j : ℕ) (v : α) : Option (Grid α) :=
  g[i]?.bind fun row => if j < row.length then some (List.set g i (row.set j v)) else none

structure Sized (m n : ℕ) (g : Grid α) : Prop where
  rows : g.length = m
  cols : ∀ row ∈ g, row.length = n

variable {m n i j : ℕ} {g g' : Grid α} {v : α}

theorem Sized.exists_row (h : Sized m n g) (hi : i < m) :
    ∃ row, g[i]? = some row ∧ row.length = n :=
  ⟨_, List.getElem?_eq_getElem (h.rows ▸ hi), h.cols _ (List.getElem_mem _)⟩

theorem Sized.set (h : Sized m n g) (hi : i < m) (hj : j < n) (v : α) :
    ∃ g', g.set i j v = some g' ∧ Sized m n g' := by
  obtain ⟨row, hrow, hlen⟩ := h.exists_row hi
  unfold Grid.set
  rw [hrow, Option.bind_some, if_pos (hlen ▸ hj)]
  refine ⟨_, rfl, by rw [List.length_set, h.rows], fun row' hmem => ?_⟩
  rcases List.mem_or_eq_of_mem_set hmem with hmem | rfl
  · exact h.cols row' hmem
  · rw [List.length_set, hlen]

theorem get_set (h : g.set i j v = some g') (i' j' : ℕ) :
    g'.get i' j' = if i' = i ∧ j' = j then some v else g.get i' j' := by
  unfold Grid.set at h
  obtain ⟨row, hrow, h⟩ := Option.bind_eq_some_iff.1 h
  split_ifs at h with hlt
  obtain rfl := Option.some.inj h
  have hi : i < g.length := (List.getElem?_eq_some_iff.1 hrow).1
  unfold get
  by_cases hii : i' = i
  · subst hii
    rw [List.getElem?_set_self hi, Option.bind_some, hrow, Option.bind_some]
    by_cases hjj : j' = j
    · subst hjj
      rw [if_pos ⟨rfl, rfl⟩, List.getElem?_set_self hlt]
    · rw [if_neg fun heq => hjj heq.2, List.getElem?_set_ne (Ne.symm hjj)]
  · rw [if_neg fun heq => hii heq.1, List.getElem?_set_ne (Ne.symm hii)]

/-! ## Filling -/

/-- In front of column `j` of row `i`, and in the first column, the values are right. -/
structure Filled (Q : ℕ → ℕ → α → Prop) (m n i j : ℕ) (g : Grid α) : Prop where
  sized : Sized m n g
  right : ∀ i' < m, ∀ j' < n, (i' < i ∨ i' = i ∧ j' < j ∨ j' = 0) →
    ∃ v, g.get i' j' = some v ∧ Q i' j' v

variable {Q : ℕ → ℕ → α → Prop}

/-- A table of one value, which is right in the first column. -/
theorem Filled.start {ι : Type*} (objects : List ι) (n : ℕ)
    (hQ : ∀ i < objects.length, Q i 0 v) :
    Filled Q objects.length n 0 1 (objects.map fun _ => List.replicate n v) := by
  refine ⟨⟨List.length_map _, fun row hmem => ?_⟩, fun i' hi' j' hj' hfront => ?_⟩
  · obtain ⟨-, -, rfl⟩ := List.mem_map.1 hmem
    exact List.length_replicate
  · obtain rfl : j' = 0 := by omega
    refine ⟨v, ?_, hQ i' hi'⟩
    unfold get
    rw [List.getElem?_map, List.getElem?_eq_getElem hi', Option.map_some, Option.bind_some,
      List.getElem?_replicate, if_pos hj']

theorem Filled.set (h : Filled Q m n i j g) (hi : i < m) (hj : j < n) (hv : Q i j v) :
    ∃ g', g.set i j v = some g' ∧ Filled Q m n i (j + 1) g' := by
  obtain ⟨g', hset, hsized⟩ := h.sized.set hi hj v
  refine ⟨g', hset, hsized, fun i' hi' j' hj' hfront => ?_⟩
  rw [get_set hset]
  split_ifs with heq
  · obtain ⟨rfl, rfl⟩ := heq
    exact ⟨v, rfl, hv⟩
  · exact h.right i' hi' j' hj' (by omega)

theorem Filled.row_end (h : Filled Q m n i n g) : Filled Q m n (i + 1) 1 g :=
  ⟨h.sized, fun i' hi' j' hj' hfront => h.right i' hi' j' hj' (by omega)⟩

/-- The loop over a row, where `cell` is the value of a place. -/
theorem Filled.row {cell : Grid α → ℕ → Option α} (hi : i < m) (hn : 1 ≤ n)
    (hcell : ∀ j, 1 ≤ j → j < n → ∀ g, Filled Q m n i j g →
      ∃ v, cell g j = some v ∧ Q i j v) (h : Filled Q m n i 1 g) :
    ∃ g', (List.range' 1 (n - 1)).foldlM (fun g j => (cell g j).bind (g.set i j)) g = some g' ∧
      Filled Q m n (i + 1) 1 g' := by
  have hkeeps : ∀ j, 1 ≤ j → j < 1 + (n - 1) →
      Loop.Keeps (Filled Q m n i) (fun g j => (cell g j).bind (g.set i j)) j := by
    intro j hle hlt g hg
    obtain ⟨v, hv, hQ⟩ := hcell j hle (by omega) g hg
    obtain ⟨g', hset, hg'⟩ := hg.set hi (by omega) hQ
    refine ⟨g', ?_, hg'⟩
    simp only [hv, Option.bind_some, hset]
  obtain ⟨g', hrun, h'⟩ := Loop.exists_foldlM_range' h hkeeps
  rw [Nat.add_sub_cancel' hn] at h'
  exact ⟨g', hrun, h'.row_end⟩

/-- The loop over the rows. -/
theorem Filled.fill {fillRow : Grid α → ℕ → Option (Grid α)}
    (hrow : ∀ i < m, ∀ g, Filled Q m n i 1 g →
      ∃ g', fillRow g i = some g' ∧ Filled Q m n (i + 1) 1 g') (h : Filled Q m n 0 1 g) :
    ∃ g', (List.range m).foldlM fillRow g = some g' ∧
      ∀ i < m, ∀ j < n, ∃ v, g'.get i j = some v ∧ Q i j v := by
  obtain ⟨g', hrun, h'⟩ := Loop.exists_foldlM_range (P := fun i g => Filled Q m n i 1 g) h hrow
  exact ⟨g', hrun, fun i hi j hj => h'.right i hi j hj (.inl hi)⟩

end Grid
