import CPPCodes.Heaps.Operations
import CPPCodes.Lib.Iteration
import Mathlib.Algebra.Order.Ring.Int

/-!
# A queue is drained

The loop of `main` over `Top` and `Pop`. What it has from `Top` is the elements in order
(`tops_sorted`), but the `Pop` of the last of them reads behind the end of the vector, so the loop
comes to its end for the empty queue only (`drains_iff`).
-/

namespace CPPCodes.Heaps

variable {α : Type}

/-- `MaxHeap` and `MinHeap`. -/
inductive Kind
  | max
  | min

/-- `std::greater_equal` and `std::less_equal`. -/
def Kind.func [LinearOrder α] : Kind → α → α → Bool
  | max, a, b => a ≥ b
  | min, a, b => a ≤ b

/-- How `main` fills a queue. -/
inductive Filling
  | push
  | range

namespace PriorityQueue

def fill (func : α → α → Bool) (zero : α) : Filling → List α → Option (PriorityQueue α)
  | .push, elements => elements.foldlM (fun q element => q.push func element) (new zero)
  | .range, elements => ofRange func zero elements

/-- `while (not IsEmpty()) { Top(); Pop(); }`. -/
def draining (func : α → α → Bool) : Iteration.Protocol (PriorityQueue α) α where
  done := isEmpty
  get := top
  next := pop func

variable {func : α → α → Bool} {zero : α} {q : PriorityQueue α} {s : List α}

theorem foldlM_push_spec (hfunc : Heap.TotalPreorder (func · ·)) :
    ∀ (elements : List α) {q : PriorityQueue α} {s : List α}, Holds func zero q s →
      ∃ q', elements.foldlM (fun q element => q.push func element) q = some q' ∧
        Holds func zero q' (s ++ elements)
  | [], q, s, h => ⟨q, rfl, by rwa [List.append_nil]⟩
  | element :: elements, q, s, h => by
    obtain ⟨q₁, hpush, h₁⟩ := h.push hfunc element
    obtain ⟨q', hrest, h'⟩ := foldlM_push_spec hfunc elements h₁
    refine ⟨q', ?_, h'.perm List.perm_middle.symm⟩
    rw [List.foldlM_cons, hpush]
    exact hrest

theorem fill_spec (hfunc : Heap.TotalPreorder (func · ·)) (zero : α) (filling : Filling)
    (elements : List α) :
    ∃ q, fill func zero filling elements = some q ∧ Holds func zero q elements := by
  cases filling with
  | push => exact foldlM_push_spec hfunc elements (new_holds func zero)
  | range => exact ofRange_spec hfunc zero elements

/-- In front of the last `Pop` the loop has all elements from `Top`, in order. -/
theorem tops_sorted (hfunc : Heap.TotalPreorder (func · ·)) :
    ∀ (n : ℕ) {q : PriorityQueue α} {s : List α}, Holds func zero q s → s.length = n + 1 →
      ∃ q' tops x, run func q (List.replicate n .pop) = some (q', tops) ∧ q'.top = some x ∧
        (tops ++ [x]).Perm s ∧ (tops ++ [x]).Pairwise (func · ·)
  | 0, q, s, h, hlen => by
    obtain ⟨y, rfl⟩ := List.length_eq_one_iff.1 hlen
    obtain ⟨x, htop, hmem, -⟩ := h.top hfunc (List.cons_ne_nil y [])
    obtain rfl := List.mem_singleton.1 hmem
    exact ⟨q, [], x, rfl, htop, .refl _, List.pairwise_singleton _ _⟩
  | n + 1, q, s, h, hlen => by
    obtain ⟨x, rest, q₁, htop, hpop, hperm, h₁, hfirst⟩ := h.popped hfunc (by omega)
    have hrest := hperm.length_eq
    rw [List.length_cons] at hrest
    obtain ⟨q', tops, y, hrun, htop', hperm', hsorted⟩ := tops_sorted hfunc n h₁ (by omega)
    refine ⟨q', x :: tops, y, ?_, htop', (hperm'.cons x).trans hperm.symm,
      List.pairwise_cons.2 ⟨fun z hz => hfirst z ?_, hsorted⟩⟩
    · rw [List.replicate_succ]
      unfold run
      simp only [htop, hpop, Option.bind_eq_bind, Option.bind_some, hrun]
      rfl
    · exact hperm.mem_iff.2 (List.mem_cons_of_mem x (hperm'.mem_iff.1 hz))

/-- A queue that holds something does not get empty. -/
theorem not_yields (hfunc : Heap.TotalPreorder (func · ·)) {out : List α}
    (hyields : (draining func).Yields q out) :
    ∀ {s : List α}, Holds func zero q s → s = [] := by
  induction hyields with
  | done hdone =>
    intro s h
    rw [← List.isEmpty_iff, ← h.isEmpty]
    exact hdone
  | @step q q' x out hdone hget hnext _ ih =>
    intro s h
    by_contra hne
    by_cases htwo : 2 ≤ s.length
    · obtain ⟨x', rest, q'', -, hpop, hperm, hrest, -⟩ := h.popped hfunc htwo
      obtain rfl := Option.some.inj (hpop.symm.trans hnext)
      obtain rfl := ih hrest
      have hlen := hperm.length_eq
      rw [List.length_singleton] at hlen
      omega
    · have hpos := List.length_pos_iff.2 hne
      obtain ⟨y, rfl⟩ := List.length_eq_one_iff.1 (by omega : s.length = 1)
      exact absurd (h.pop_eq_none.symm.trans hnext) (by simp)

end PriorityQueue

open PriorityQueue

theorem Kind.totalPreorder [LinearOrder α] (kind : Kind) :
    Heap.TotalPreorder fun a b : α => kind.func a b := by
  cases kind with
  | max => exact ⟨fun a b => by simpa [Kind.func] using le_total b a, fun hab hbc => by
      simp only [Kind.func, decide_eq_true_iff] at hab hbc ⊢
      exact le_trans hbc hab⟩
  | min => exact ⟨fun a b => by simpa [Kind.func] using le_total a b, fun hab hbc => by
      simp only [Kind.func, decide_eq_true_iff] at hab hbc ⊢
      exact le_trans hab hbc⟩

/-- The loop comes to its end, with no access behind the end, and puts the elements out in order. -/
def Drains [LinearOrder α] (zero : α) (kind : Kind) (filling : Filling) (elements : List α) :
    Prop :=
  ∃ q fuel out, fill kind.func zero filling elements = some q ∧
    (draining kind.func).run fuel q = some out ∧ out.Perm elements ∧
    out.Pairwise fun a b => kind.func a b

/-- The `Pop` of the last element reads behind the end. -/
theorem Drains.eq_nil [LinearOrder α] {zero : α} {kind : Kind} {filling : Filling}
    {elements : List α} (hdrains : Drains zero kind filling elements) : elements = [] := by
  obtain ⟨q, hfill, h⟩ := fill_spec kind.totalPreorder zero filling elements
  obtain ⟨q', fuel, out, hfill', hrun, -, -⟩ := hdrains
  obtain rfl := Option.some.inj (hfill.symm.trans hfill')
  exact not_yields kind.totalPreorder (.of_run hrun) h

/-- Only the empty queue is drained. -/
theorem drains_iff [LinearOrder α] (zero : α) (kind : Kind) (filling : Filling)
    (elements : List α) : Drains zero kind filling elements ↔ elements = [] := by
  refine ⟨Drains.eq_nil, ?_⟩
  rintro rfl
  obtain ⟨q, hfill, h⟩ := fill_spec kind.totalPreorder zero filling []
  refine ⟨q, 1, [], hfill, ?_, .refl _, .nil⟩
  exact if_pos h.isEmpty

/-- One element: `Pop` leaves the vector with the unused element only, and `ShiftDown` reads the
next. -/
theorem not_drains : ¬ ∀ (kind : Kind) (filling : Filling) (elements : List ℤ),
    Drains 0 kind filling elements :=
  fun h => absurd (h .max .push [7]).eq_nil (List.cons_ne_nil 7 [])

end CPPCodes.Heaps
