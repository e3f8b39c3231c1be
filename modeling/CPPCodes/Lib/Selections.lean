import Mathlib.Algebra.BigOperators.Group.List.Basic
import Mathlib.Algebra.BigOperators.Group.Finset.Basic
import Mathlib.Algebra.Order.BigOperators.Group.List
import Mathlib.Algebra.Order.Monoid.Unbundled.Basic
import Mathlib.Algebra.Order.Ring.Nat
import Mathlib.Data.Finset.Powerset
import Mathlib.Data.List.GetD
import Mathlib.Data.List.Sublists
import Mathlib.Tactic.Common

/-!
# Selections of a sum

The selections from a list whose weights add up to a sum (`selections`): what they are with one
element more in front (`selections_cons`), when there are none, which sums there are
(`isSum_concat`), and that they are one for each set of positions with this sum (`coe_selections`).
-/

namespace Selections

variable {α : Type*} {f : α → ℕ} {xs : List α} {x : α} {r : ℕ}

/-- The selections whose weights add up to `r`, one for each set of positions. -/
def selections (f : α → ℕ) (xs : List α) (r : ℕ) : List (List α) :=
  xs.sublists'.filter fun l => (l.map f).sum = r

theorem mem_selections {l : List α} :
    l ∈ selections f xs r ↔ l.Sublist xs ∧ (l.map f).sum = r := by
  unfold selections
  rw [List.mem_filter, List.mem_sublists', decide_eq_true_iff]

theorem selections_cons (f : α → ℕ) (x : α) (xs : List α) (r : ℕ) :
    selections f (x :: xs) r = selections f xs r ++
      if f x ≤ r then (selections f xs (r - f x)).map (x :: ·) else [] := by
  unfold selections
  rw [List.sublists'_cons, List.filter_append, List.filter_map]
  congr 1
  split_ifs with hle
  · refine congrArg (List.map (x :: ·)) (List.filter_congr fun l _ => decide_eq_decide.2 ?_)
    rw [List.map_cons, List.sum_cons]
    omega
  · rw [List.map_eq_nil_iff, List.filter_eq_nil_iff]
    intro l _
    rw [Function.comp_apply, decide_eq_true_iff, List.map_cons, List.sum_cons]
    omega

/-- Without weight there is only the empty selection. -/
theorem selections_zero (hpos : ∀ x ∈ xs, f x ≠ 0) : selections f xs 0 = [[]] := by
  induction xs with
  | nil => rfl
  | cons x xs ih =>
    have hx := hpos x List.mem_cons_self
    rw [selections_cons, ih fun y hy => hpos y (List.mem_cons_of_mem _ hy), if_neg (by omega)]
    rfl

/-- The weights do not add up to more than all of them. -/
theorem selections_of_sum_lt (hlt : (xs.map f).sum < r) : selections f xs r = [] := by
  refine List.eq_nil_iff_forall_not_mem.2 fun l hl => ?_
  obtain ⟨hsub, rfl⟩ := mem_selections.1 hl
  exact absurd ((hsub.map f).sum_le_sum fun _ _ => Nat.zero_le _) (Nat.not_le.2 hlt)

/-- Every element is heavier than what is looked for. -/
theorem selections_of_lt (hr : r ≠ 0) (hlt : ∀ x ∈ xs, r < f x) : selections f xs r = [] := by
  refine List.eq_nil_iff_forall_not_mem.2 fun l hl => ?_
  obtain ⟨hsub, hsum⟩ := mem_selections.1 hl
  rcases l with _ | ⟨x, l⟩
  · exact hr hsum.symm
  · have hx := hlt x (hsub.subset List.mem_cons_self)
    rw [List.map_cons, List.sum_cons] at hsum
    omega

/-- Some selection has the sum. -/
def IsSum (f : α → ℕ) (xs : List α) (r : ℕ) : Prop :=
  ∃ l : List α, l.Sublist xs ∧ (l.map f).sum = r

theorem isSum_iff : IsSum f xs r ↔ selections f xs r ≠ [] := by
  constructor
  · rintro ⟨l, hl⟩
    exact List.ne_nil_of_mem (mem_selections.2 hl)
  · intro hne
    obtain ⟨l, hl⟩ := List.exists_mem_of_ne_nil _ hne
    exact ⟨l, mem_selections.1 hl⟩

theorem isSum_zero (f : α → ℕ) (xs : List α) : IsSum f xs 0 := ⟨[], List.nil_sublist xs, rfl⟩

theorem isSum_nil : IsSum f [] r ↔ r = 0 := by
  constructor
  · rintro ⟨l, hl, rfl⟩
    rw [List.sublist_nil.1 hl, List.map_nil, List.sum_nil]
  · rintro rfl
    exact isSum_zero f []

/-- The sums with one element more behind: without it, and with it. -/
theorem isSum_concat : IsSum f (xs ++ [x]) r ↔ IsSum f xs r ∨ ∃ s, IsSum f xs s ∧ r = s + f x := by
  constructor
  · rintro ⟨l, hl, rfl⟩
    obtain ⟨l₁, l₂, rfl, h₁, h₂⟩ := List.sublist_append_iff.1 hl
    rcases List.sublist_singleton.1 h₂ with rfl | rfl
    · exact .inl ⟨l₁, h₁, by rw [List.append_nil]⟩
    · refine .inr ⟨_, ⟨l₁, h₁, rfl⟩, ?_⟩
      rw [List.map_append, List.sum_append, List.map_singleton, List.sum_singleton]
  · rintro (⟨l, hl, rfl⟩ | ⟨-, ⟨l, hl, rfl⟩, rfl⟩)
    · exact ⟨l, hl.trans (List.sublist_append_left _ _), rfl⟩
    · refine ⟨l ++ [x], hl.append (List.Sublist.refl _), ?_⟩
      rw [List.map_append, List.sum_append, List.map_singleton, List.sum_singleton]

theorem IsSum.le_sum (h : IsSum f xs r) : r ≤ (xs.map f).sum := by
  obtain ⟨l, hl, rfl⟩ := h
  exact (hl.map f).sum_le_sum fun _ _ => Nat.zero_le _

/-- The elements at the positions, in order. -/
def elementsAt (xs : List α) (d : α) (places : Finset ℕ) : List α :=
  ((List.range xs.length).filter (· ∈ places)).map fun i => xs.getD i d

/-- The sets of positions whose elements add up to `r`. -/
def placesOf (f : α → ℕ) (xs : List α) (d : α) (r : ℕ) : Finset (Finset ℕ) :=
  (Finset.range xs.length).powerset.filter fun places => ∑ i ∈ places, f (xs.getD i d) = r

theorem mem_placesOf {d : α} {places : Finset ℕ} : places ∈ placesOf f xs d r ↔
    places ⊆ Finset.range xs.length ∧ ∑ i ∈ places, f (xs.getD i d) = r := by
  unfold placesOf
  rw [Finset.mem_filter, Finset.mem_powerset]

/-- What a list without repetitions has in common with a selection from it. -/
theorem filter_mem_of_sublist [DecidableEq α] {l : List α} (hsub : l.Sublist xs)
    (hnodup : xs.Nodup) : xs.filter (· ∈ l) = l := by
  induction hsub with
  | slnil => rfl
  | cons x hsub ih =>
    obtain ⟨hx, hnodup⟩ := List.nodup_cons.1 hnodup
    have hno : x ∉ _ := fun hmem => hx (hsub.subset hmem)
    rw [List.filter_cons_of_neg (by simpa using hno), ih hnodup]
  | @cons_cons l xs x hsub ih =>
    obtain ⟨hx, hnodup⟩ := List.nodup_cons.1 hnodup
    rw [List.filter_cons_of_pos (by simp)]
    refine congrArg (x :: ·) (Eq.trans (List.filter_congr fun y hy => ?_) (ih hnodup))
    rw [decide_eq_decide, List.mem_cons, or_iff_right (ne_of_mem_of_not_mem hy hx)]

theorem selections_map {β : Type*} (f : α → ℕ) (g : β → α) (ys : List β) (r : ℕ) :
    selections f (ys.map g) r = (selections (f ∘ g) ys r).map (List.map g) := by
  unfold selections
  rw [List.sublists'_map, List.filter_map]
  refine congrArg (List.map (List.map g)) (List.filter_congr fun l _ => ?_)
  rw [Function.comp_apply, List.map_map]

theorem map_getD_range (xs : List α) (d : α) :
    (List.range xs.length).map (fun i => xs.getD i d) = xs := by
  refine List.ext_getElem (by simp) fun i h₁ h₂ => ?_
  rw [List.getElem_map, List.getElem_range, List.getD_eq_getElem _ _ h₂]

/-- There is one selection for each set of positions with the sum. -/
theorem coe_selections (f : α → ℕ) (xs : List α) (d : α) (r : ℕ) :
    (selections f xs r : Multiset (List α)) =
      (placesOf f xs d r).val.map (elementsAt xs d) := by
  have hrange := List.nodup_range (n := xs.length)
  set picks := selections (f ∘ fun i => xs.getD i d) (List.range xs.length) r with hpicks
  have hmem : ∀ l ∈ picks, (List.range xs.length).filter (· ∈ l.toFinset) = l := by
    intro l hl
    simp only [List.mem_toFinset]
    exact filter_mem_of_sublist (mem_selections.1 hl).1 hrange
  have hnodup : picks.Nodup := (List.nodup_sublists'.2 hrange).filter _
  have hplaces : (picks.map List.toFinset : Multiset (Finset ℕ)) = (placesOf f xs d r).val := by
    refine (Multiset.Nodup.ext ?_ (placesOf f xs d r).nodup).2 fun places => ?_
    · refine Multiset.coe_nodup.2 (List.Nodup.map_on (fun l hl l' hl' heq => ?_) hnodup)
      rw [← hmem l hl, ← hmem l' hl', heq]
    · rw [Multiset.mem_coe, List.mem_map, Finset.mem_val, mem_placesOf]
      constructor
      · rintro ⟨l, hl, rfl⟩
        obtain ⟨hsub, hsum⟩ := mem_selections.1 hl
        refine ⟨fun i hi => ?_, ?_⟩
        · exact Finset.mem_range.2 (List.mem_range.1 (hsub.subset (List.mem_toFinset.1 hi)))
        · rw [List.sum_toFinset _ (hrange.sublist hsub)]
          exact hsum
      · rintro ⟨hsub, hsum⟩
        have hset : ((List.range xs.length).filter (· ∈ places)).toFinset = places := by
          ext i
          rw [List.mem_toFinset, List.mem_filter, List.mem_range, decide_eq_true_iff]
          exact and_iff_right_of_imp fun hi => Finset.mem_range.1 (hsub hi)
        refine ⟨_, mem_selections.2 ⟨List.filter_sublist, ?_⟩, hset⟩
        rw [← hset, List.sum_toFinset _ (hrange.filter _)] at hsum
        exact hsum
  rw [← hplaces, Multiset.map_coe, List.map_map]
  nth_rewrite 1 [← map_getD_range xs d]
  rw [selections_map]
  refine congrArg _ (List.map_congr_left fun l hl => ?_)
  rw [Function.comp_apply, elementsAt, hmem l hl]

end Selections
