import Mathlib.Algebra.BigOperators.Group.List.Basic
import Mathlib.Algebra.Order.BigOperators.Group.List
import Mathlib.Algebra.Order.Ring.Int
import Mathlib.Data.List.Basic
import Mathlib.Order.Bounds.Basic

/-!
# Loading a knapsack

The values of the selections of some objects, each used once at most, that are no heavier than a
capacity (`loads`). The greatest of them obeys the recurrence by one object more
(`isGreatest_concat`), and where the object makes a difference it is in the selection (`eq_of_ne`).
-/

namespace Loads

variable {ι : Type*} {w v : ι → ℤ} {objects : List ι} {o : ι} {cap p q e : ℤ}

/-- The values of the selections of at most this weight. -/
def loads (w v : ι → ℤ) (objects : List ι) (cap : ℤ) : Set ℤ :=
  {x | ∃ l : List ι, l.Sublist objects ∧ (l.map w).sum ≤ cap ∧ (l.map v).sum = x}

theorem sum_nonneg {f : ι → ℤ} (hf : ∀ o ∈ objects, 0 ≤ f o) {l : List ι}
    (hsub : l.Sublist objects) : 0 ≤ (l.map f).sum :=
  List.sum_nonneg (List.forall_mem_map.2 fun o ho => hf o (hsub.subset ho))

theorem zero_mem_loads (hcap : 0 ≤ cap) : 0 ∈ loads w v objects cap :=
  ⟨[], List.nil_sublist _, hcap, rfl⟩

theorem isGreatest_nil (hcap : 0 ≤ cap) : IsGreatest (loads w v [] cap) 0 := by
  refine ⟨zero_mem_loads hcap, ?_⟩
  rintro _ ⟨l, hsub, -, rfl⟩
  rw [List.sublist_nil.1 hsub]
  exact le_refl _

/-- The selections with one object more: without it, or with it. -/
theorem mem_loads_concat {x : ℤ} : x ∈ loads w v (objects ++ [o]) cap ↔
    x ∈ loads w v objects cap ∨ x - v o ∈ loads w v objects (cap - w o) := by
  constructor
  · rintro ⟨l, hsub, hle, rfl⟩
    obtain ⟨l₁, l₂, rfl, hsub₁, hsub₂⟩ := List.sublist_append_iff.1 hsub
    rw [List.map_append, List.sum_append] at hle
    rw [List.map_append, List.sum_append]
    rcases List.sublist_singleton.1 hsub₂ with rfl | rfl
    · exact .inl ⟨l₁, hsub₁, by simpa using hle, by simp⟩
    · rw [List.map_singleton, List.sum_singleton] at hle ⊢
      exact .inr ⟨l₁, hsub₁, by omega, by omega⟩
  · rintro (⟨l, hsub, hle, rfl⟩ | ⟨l, hsub, hle, hsum⟩)
    · exact ⟨l, hsub.trans (List.sublist_append_left _ _), hle, rfl⟩
    · refine ⟨l ++ [o], hsub.append (List.Sublist.refl _), ?_, ?_⟩
      · rw [List.map_append, List.sum_append, List.map_singleton, List.sum_singleton]
        omega
      · rw [List.map_append, List.sum_append, List.map_singleton, List.sum_singleton]
        omega

/-- Nothing is lighter than nothing. -/
theorem loads_of_neg (hw : ∀ o ∈ objects, 0 ≤ w o) (hcap : cap < 0) :
    loads w v objects cap = ∅ := by
  refine Set.eq_empty_iff_forall_notMem.2 ?_
  rintro x ⟨l, hsub, hle, -⟩
  have hsum := sum_nonneg hw hsub
  omega

theorem isGreatest_concat_of_lt (hw : ∀ o ∈ objects, 0 ≤ w o) (hlt : cap < w o)
    (hp : IsGreatest (loads w v objects cap) p) :
    IsGreatest (loads w v (objects ++ [o]) cap) p := by
  refine ⟨mem_loads_concat.2 (.inl hp.1), fun x hx => ?_⟩
  rcases mem_loads_concat.1 hx with hx | hx
  · exact hp.2 hx
  · rw [loads_of_neg hw (by omega)] at hx
    exact absurd hx (Set.notMem_empty _)

theorem isGreatest_concat (hp : IsGreatest (loads w v objects cap) p)
    (hq : IsGreatest (loads w v objects (cap - w o)) q) :
    IsGreatest (loads w v (objects ++ [o]) cap) (max p (q + v o)) := by
  constructor
  · rcases le_total (q + v o) p with hle | hle
    · rw [max_eq_left hle]
      exact mem_loads_concat.2 (.inl hp.1)
    · rw [max_eq_right hle]
      refine mem_loads_concat.2 (.inr ?_)
      rw [add_sub_cancel_right]
      exact hq.1
  · intro x hx
    rcases mem_loads_concat.1 hx with hx | hx
    · exact (hp.2 hx).trans (le_max_left _ _)
    · have hle := hq.2 hx
      exact (by omega : x ≤ q + v o).trans (le_max_right _ _)

/-- Where a new object makes a difference, it is taken. -/
theorem eq_of_ne (hp : IsGreatest (loads w v objects cap) p)
    (he : IsGreatest (loads w v (objects ++ [o]) cap) e) (hne : e ≠ p) :
    IsGreatest (loads w v objects (cap - w o)) (e - v o) := by
  have hmem : e - v o ∈ loads w v objects (cap - w o) := by
    refine (mem_loads_concat.1 he.1).resolve_left fun hold => hne ?_
    exact le_antisymm (hp.2 hold) (he.2 (mem_loads_concat.2 (.inl hp.1)))
  refine ⟨hmem, fun x hx => ?_⟩
  have hle := he.2 (mem_loads_concat.2 (.inr (by rwa [add_sub_cancel_right] :
    x + v o - v o ∈ loads w v objects (cap - w o))))
  omega

/-- Without objects that weigh nothing and are worth something, nothing fits into no capacity. -/
theorem eq_zero_of_zero (hw : ∀ o ∈ objects, 0 ≤ w o) (hfree : ∀ o ∈ objects, w o = 0 → v o = 0)
    {x : ℤ} (hx : x ∈ loads w v objects 0) : x = 0 := by
  obtain ⟨l, hsub, hle, rfl⟩ := hx
  induction l with
  | nil => rfl
  | cons o l ih =>
    have ho : o ∈ objects := hsub.subset List.mem_cons_self
    have hrest := (List.sublist_cons_self o l).trans hsub
    have hsum := sum_nonneg hw hrest
    rw [List.map_cons, List.sum_cons] at hle ⊢
    have hwo := hw o ho
    rw [ih hrest (by omega), hfree o ho (by omega), add_zero]

end Loads
