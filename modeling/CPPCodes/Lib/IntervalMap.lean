import Mathlib.Data.Finset.Lattice.Lemmas
import Mathlib.Order.Lattice
import Mathlib.Tactic.Tauto
import Mathlib.Tactic.SplitIfs

/-!
# Maps from intervals to sets

An interval map with sets for values, by what it says at each point: to add a set on a half-open
interval is to join it to the value at each point of the interval, and the segments of the map
inside an interval have the values of the points there. `Segments` is such a map.
-/

/-- An interval map on `ι` whose values are sets of `κ`. -/
class IntervalMap (M : Type*) (ι κ : outParam Type*) [LinearOrder ι] [DecidableEq κ] where
  empty : M
  add : M → ι → ι → Finset κ → M
  /-- The values of the segments of the map's intersection with `[low, high)`. -/
  segments : M → ι → ι → List (Finset κ)
  value : M → ι → Finset κ
  value_empty : ∀ t, value empty t = ∅
  mem_value_add : ∀ m low high s t k,
    k ∈ value (add m low high s) t ↔ k ∈ value m t ∨ (low ≤ t ∧ t < high ∧ k ∈ s)
  mem_segments : ∀ m low high k,
    (∃ s ∈ segments m low high, k ∈ s) ↔ ∃ t, low ≤ t ∧ t < high ∧ k ∈ value m t

/-! ## Lists of segments -/

/-- Bounds and values of segments. -/
abbrev Segments (ι κ : Type*) := List (ι × ι × Finset κ)

namespace Segments

variable {ι κ : Type*} [LinearOrder ι] [DecidableEq κ]

/-- One segment, unless it is empty. -/
def piece (low high : ι) (s : Finset κ) : Segments ι κ :=
  if low < high then [(low, high, s)] else []

/-- The segments are cut where the interval begins and where it ends. -/
def add : Segments ι κ → ι → ι → Finset κ → Segments ι κ
  | [], low, high, s => piece low high s
  | (a, b, u) :: m, low, high, s =>
    if high ≤ low then (a, b, u) :: m
    else piece low (min high a) s ++ piece a (min b low) u ++
      piece (max a low) (min b high) (u ∪ s) ++ piece (max a high) b u ++ add m (max low b) high s

def segments (m : Segments ι κ) (low high : ι) : List (Finset κ) :=
  m.filterMap fun (a, b, u) => if max a low < min b high then some u else none

def value (m : Segments ι κ) (t : ι) : Finset κ :=
  m.foldr (fun (a, b, u) v => if a ≤ t ∧ t < b then u ∪ v else v) ∅

@[simp] theorem value_nil (t : ι) : value ([] : Segments ι κ) t = ∅ := rfl

theorem mem_value_cons {a b t : ι} {u : Finset κ} {m : Segments ι κ} {k : κ} :
    k ∈ value ((a, b, u) :: m) t ↔ (a ≤ t ∧ t < b ∧ k ∈ u) ∨ k ∈ value m t := by
  simp only [value, List.foldr_cons]
  split_ifs with h
  · simp [h.1, h.2]
  · have hu : ¬ (a ≤ t ∧ t < b ∧ k ∈ u) := fun h' => h ⟨h'.1, h'.2.1⟩
    simp [hu]

theorem mem_value_append {t : ι} {k : κ} (n : Segments ι κ) : ∀ m : Segments ι κ,
    k ∈ value (m ++ n) t ↔ k ∈ value m t ∨ k ∈ value n t
  | [] => by simp
  | (a, b, u) :: m => by
    rw [List.cons_append, mem_value_cons, mem_value_append n m, mem_value_cons, or_assoc]

theorem mem_value_piece {low high t : ι} {s : Finset κ} {k : κ} :
    k ∈ value (piece low high s) t ↔ low ≤ t ∧ t < high ∧ k ∈ s := by
  unfold piece
  split_ifs with h
  · rw [mem_value_cons, value_nil]
    simp
  · refine iff_of_false (by simp) fun h' => h (lt_of_le_of_lt h'.1 h'.2.1)

theorem mem_value_add {high t : ι} {s : Finset κ} {k : κ} : ∀ (m : Segments ι κ) (low : ι),
    k ∈ value (m.add low high s) t ↔ k ∈ value m t ∨ (low ≤ t ∧ t < high ∧ k ∈ s)
  | [], low => by rw [add, mem_value_piece]; simp
  | (a, b, u) :: m, low => by
    unfold add
    split_ifs with h
    · have hempty : ¬ (low ≤ t ∧ t < high ∧ k ∈ s) := fun h' =>
        absurd (lt_of_le_of_lt h'.1 h'.2.1) (not_lt.2 h)
      simp [hempty]
    · simp only [mem_value_append, mem_value_piece, mem_value_cons, mem_value_add m, lt_min_iff,
        max_le_iff, Finset.mem_union]
      simp only [← not_le]
      -- on which side of the four bounds the point is
      by_cases ha : a ≤ t <;> by_cases hb : b ≤ t <;> by_cases hl : low ≤ t <;>
        by_cases hh : high ≤ t <;> simp [ha, hb, hl, hh] <;> tauto

theorem mem_segments {low high : ι} {k : κ} (m : Segments ι κ) :
    (∃ s ∈ segments m low high, k ∈ s) ↔ ∃ t, low ≤ t ∧ t < high ∧ k ∈ value m t := by
  induction m with
  | nil => simp [segments, value]
  | cons e m ih =>
    obtain ⟨a, b, u⟩ := e
    have hcut : max a low < min b high ↔ ∃ t, (low ≤ t ∧ t < high) ∧ a ≤ t ∧ t < b := by
      refine ⟨fun h => ⟨max a low, ⟨le_max_right _ _, ?_⟩, le_max_left _ _, ?_⟩, ?_⟩
      · exact lt_of_lt_of_le h (min_le_right _ _)
      · exact lt_of_lt_of_le h (min_le_left _ _)
      · rintro ⟨t, ⟨hl, hh⟩, ha, hb⟩
        exact lt_of_le_of_lt (max_le ha hl) (lt_min hb hh)
    have hsplit : (∃ s ∈ segments ((a, b, u) :: m) low high, k ∈ s) ↔
        (max a low < min b high ∧ k ∈ u) ∨ ∃ s ∈ segments m low high, k ∈ s := by
      simp only [segments, List.filterMap_cons]
      split_ifs with h <;> simp [h]
    rw [hsplit, ih, hcut]
    simp only [mem_value_cons]
    constructor
    · rintro (⟨⟨t, ⟨hl, hh⟩, ha, hb⟩, hk⟩ | ⟨t, hl, hh, hk⟩)
      · exact ⟨t, hl, hh, .inl ⟨ha, hb, hk⟩⟩
      · exact ⟨t, hl, hh, .inr hk⟩
    · rintro ⟨t, hl, hh, ⟨ha, hb, hk⟩ | hk⟩
      · exact .inl ⟨⟨t, ⟨hl, hh⟩, ha, hb⟩, hk⟩
      · exact .inr ⟨t, hl, hh, hk⟩

instance : IntervalMap (Segments ι κ) ι κ where
  empty := []
  add := add
  segments := segments
  value := value
  value_empty _ := rfl
  mem_value_add m low _ _ _ _ := mem_value_add m low
  mem_segments m _ _ _ := mem_segments m

end Segments
