import CPPCodes.Heaps.PriorityQueue

/-!
# The operations of the priority queue

Each operation keeps the heap and does to the elements what it says (`Holds`), except that `Pop` of
the last element reads behind the end. So it is after any sequence of calls in which no `Pop` is of
the last element (`heapAfter`).
-/

namespace CPPCodes.Heaps.PriorityQueue

variable {α : Type}

section Holds

open Heap

variable {func : α → α → Bool} {zero : α} {q : PriorityQueue α} {s : List α}

/-- The queue is a heap with the elements of the list. -/
structure Holds (func : α → α → Bool) (zero : α) (q : PriorityQueue α) (s : List α) : Prop where
  queue_eq : ∃ elements, q.queue = zero :: elements ∧ elements.Perm s
  ordered : Ordered func zero q.queue 1

theorem Holds.length (h : Holds func zero q s) : q.queue.length = s.length + 1 := by
  obtain ⟨elements, hqueue, hperm⟩ := h.queue_eq
  rw [hqueue, List.length_cons, hperm.length_eq]

theorem Holds.perm {s' : List α} (h : Holds func zero q s) (hperm : s.Perm s') :
    Holds func zero q s' := by
  obtain ⟨elements, hqueue, hperm'⟩ := h.queue_eq
  exact ⟨⟨elements, hqueue, hperm'.trans hperm⟩, h.ordered⟩

theorem holds_of_shifted {queue : List α} {elements : List α} (h : Shifted (zero :: elements) queue)
    (hordered : Ordered func zero queue 1) : Holds func zero ⟨queue⟩ elements := by
  obtain ⟨rest, rfl⟩ : ∃ rest, queue = zero :: rest := by
    have hhead := h.head
    cases queue with
    | nil => simp at hhead
    | cons x rest =>
      obtain rfl : x = zero := by simpa using hhead
      exact ⟨rest, rfl⟩
  exact ⟨⟨rest, rfl, h.perm.cons_inv⟩, hordered⟩

theorem new_holds (func : α → α → Bool) (zero : α) : Holds func zero (new zero) [] :=
  ⟨⟨[], rfl, .refl _⟩, orderedFrom_of_lt (by simp [new])⟩

theorem ofRange_spec (hfunc : TotalPreorder (func · ·)) (zero : α) (range : List α) :
    ∃ q, ofRange func zero range = some q ∧ Holds func zero q range := by
  have hlt : ((zero :: range).length - 1) / 2 < (zero :: range).length := by
    rw [List.length_cons]
    omega
  have hleaves : Ordered func zero (zero :: range) (((zero :: range).length - 1) / 2 + 1) :=
    orderedFrom_of_lt (Nat.lt_succ_self _)
  obtain ⟨queue, hrun, hshifted, hordered⟩ := heapifyFrom_spec hfunc hlt hleaves
  refine ⟨⟨queue⟩, ?_, holds_of_shifted hshifted hordered⟩
  unfold ofRange heapify
  rw [hrun]
  rfl

theorem Holds.push (hfunc : TotalPreorder (func · ·)) (h : Holds func zero q s) (element : α) :
    ∃ q', q.push func element = some q' ∧ Holds func zero q' (element :: s) := by
  obtain ⟨elements, hqueue, hperm⟩ := h.queue_eq
  obtain ⟨queue, hrun, hshifted, hordered⟩ :=
    shiftUp_spec hfunc (by rw [hqueue]; simp) h.ordered element
  rw [hqueue, List.cons_append] at hshifted
  refine ⟨⟨queue⟩, ?_, (holds_of_shifted hshifted hordered).perm ?_⟩
  · unfold PriorityQueue.push
    rw [hrun]
    rfl
  · exact (List.perm_append_singleton element elements).trans (hperm.cons element)

theorem Holds.isEmpty (h : Holds func zero q s) : q.isEmpty = s.isEmpty := by
  unfold PriorityQueue.isEmpty
  rw [h.length]
  cases s <;> simp

/-- `Top` is in front of all. -/
theorem Holds.top (hfunc : TotalPreorder (func · ·)) (h : Holds func zero q s) (hne : s ≠ []) :
    ∃ x, q.top = some x ∧ x ∈ s ∧ ∀ y ∈ s, func x y := by
  obtain ⟨elements, hqueue, hperm⟩ := h.queue_eq
  obtain ⟨x, rest, rfl⟩ := List.exists_cons_of_ne_nil fun hnil : elements = [] =>
    hne (List.nil_perm.1 (hnil ▸ hperm))
  have htop : q.top = some x := by
    unfold PriorityQueue.top
    rw [hqueue]
    rfl
  refine ⟨x, htop, hperm.mem_iff.1 List.mem_cons_self, fun y hy => ?_⟩
  obtain ⟨i, hi, rfl⟩ := List.mem_iff_getElem.1 (hperm.mem_iff.2 hy)
  have hroot := h.ordered.root hfunc (i := i + 1) (by omega) (by rw [hqueue]; exact hi)
  simp only [hqueue, List.getD_cons_succ, List.getD_eq_getElem _ _ hi] at hroot
  exact hroot

/-- `Pop` takes `Top` away, if there is another element. -/
theorem Holds.pop (hfunc : TotalPreorder (func · ·)) {x : α} (h : Holds func zero q (x :: s))
    (htop : q.top = some x) (hne : s ≠ []) :
    ∃ q', q.pop func = some q' ∧ Holds func zero q' s := by
  obtain ⟨elements, hqueue, hperm⟩ := h.queue_eq
  obtain ⟨init, last, rfl⟩ : ∃ init last, elements = x :: (init ++ [last]) := by
    unfold PriorityQueue.top at htop
    rw [hqueue, List.getElem?_cons_succ] at htop
    cases elements with
    | nil => simp at htop
    | cons y rest =>
      obtain rfl : y = x := by simpa using htop
      rcases List.eq_nil_or_concat rest with rfl | ⟨init, last, rfl⟩
      · exact absurd (List.nil_perm.1 hperm.cons_inv) hne
      · exact ⟨init, last, by rw [List.concat_eq_append]⟩
  have hset : (q.queue.set 1 last).dropLast = zero :: last :: init := by
    have hconcat : ((zero :: last :: init) ++ [last]).dropLast = zero :: last :: init :=
      List.dropLast_concat
    rw [hqueue]
    exact hconcat
  have hlast : q.queue.getLast? = some last := by
    rw [hqueue]
    exact List.getLast?_concat (l := zero :: x :: init)
  have hrest : Ordered func zero (zero :: last :: init) 2 := by
    refine h.ordered.congr (by omega) (by rw [hqueue]; simp) fun i hi hle => ?_
    obtain ⟨i, rfl⟩ := Nat.exists_eq_add_of_le' hi
    rw [hqueue]
    exact (List.getD_append init [last] zero i (Nat.lt_of_succ_le (by simpa using hle))).symm
  obtain ⟨queue, hrun, hshifted, hordered⟩ :=
    shiftDown_spec hfunc (Nat.le_refl 1) (by simp) hrest
  refine ⟨⟨queue⟩, ?_, (holds_of_shifted hshifted hordered).perm ?_⟩
  · unfold PriorityQueue.pop
    rw [hlast, Option.bind_eq_bind, Option.bind_some, if_pos (by rw [hqueue]; simp), hset, hrun]
    rfl
  · exact (List.perm_append_singleton last init).symm.trans hperm.cons_inv

/-- Without another element `ShiftDown` reads behind the end. -/
theorem Holds.pop_eq_none {x : α} (h : Holds func zero q [x]) : q.pop func = none := by
  obtain ⟨elements, hqueue, hperm⟩ := h.queue_eq
  obtain rfl := List.perm_singleton.1 hperm
  unfold PriorityQueue.pop
  rw [hqueue]
  rfl

end Holds

/-- The constructor, from nothing or from a range. -/
def construct (func : α → α → Bool) (zero : α) : Option (List α) → Option (PriorityQueue α)
  | none => some (new zero)
  | some range => ofRange func zero range

inductive Call (α : Type)
  | push (element : α)
  | pop

/-- The queue after the calls, and what was `Top` in front of each `Pop`. -/
def run (func : α → α → Bool) : PriorityQueue α → List (Call α) → Option (PriorityQueue α × List α)
  | q, [] => some (q, [])
  | q, .push element :: calls => do
    let q ← q.push func element
    run func q calls
  | q, .pop :: calls => do
    let x ← q.top
    let q ← q.pop func
    let r ← run func q calls
    return (r.1, x :: r.2)

/-- From a queue of `n` elements each `Pop` finds at least two. -/
def Allowed : ℕ → List (Call α) → Prop
  | _, [] => True
  | n, .push _ :: calls => Allowed (n + 1) calls
  | n, .pop :: calls => 2 ≤ n ∧ Allowed (n - 1) calls

/-- The elements that the calls push. -/
def pushed (calls : List (Call α)) : List α :=
  calls.filterMap fun
    | .push element => some element
    | .pop => none

/-- The elements at the indexes from 1 on. -/
def elements (q : PriorityQueue α) : List α := q.queue.tail

variable {func : α → α → Bool} {zero : α} {q : PriorityQueue α} {s : List α}

theorem Holds.elements_perm (h : Holds func zero q s) : q.elements.Perm s := by
  obtain ⟨elements, hqueue, hperm⟩ := h.queue_eq
  unfold PriorityQueue.elements
  rwa [hqueue]

theorem construct_spec (hfunc : Heap.TotalPreorder (func · ·)) (zero : α)
    (range : Option (List α)) :
    ∃ q, construct func zero range = some q ∧ Holds func zero q (range.getD []) := by
  cases range with
  | none => exact ⟨_, rfl, new_holds func zero⟩
  | some range => exact ofRange_spec hfunc zero range

/-- A `Pop` that is allowed takes away an element that is in front of all. -/
theorem Holds.popped (hfunc : Heap.TotalPreorder (func · ·)) (h : Holds func zero q s)
    (htwo : 2 ≤ s.length) : ∃ x rest q', q.top = some x ∧ q.pop func = some q' ∧
      s.Perm (x :: rest) ∧ Holds func zero q' rest ∧ ∀ y ∈ s, func x y := by
  classical
  obtain ⟨x, htop, hmem, hfirst⟩ := h.top hfunc (List.ne_nil_of_length_pos (by omega))
  have hperm := List.perm_cons_erase hmem
  have hlen := hperm.length_eq
  rw [List.length_cons] at hlen
  obtain ⟨q', hpop, hq'⟩ := (h.perm hperm).pop hfunc htop (List.ne_nil_of_length_pos (by omega))
  exact ⟨x, s.erase x, q', htop, hpop, hperm, hq', hfirst⟩

theorem run_spec (hfunc : Heap.TotalPreorder (func · ·)) :
    ∀ (calls : List (Call α)) {q : PriorityQueue α} {s : List α}, Holds func zero q s →
      Allowed s.length calls → ∃ q' popped s', run func q calls = some (q', popped) ∧
        Holds func zero q' s' ∧ (s' ++ popped).Perm (s ++ pushed calls)
  | [], q, s, h, _ => ⟨q, [], s, rfl, h, .refl _⟩
  | .push element :: calls, q, s, h, hallowed => by
    obtain ⟨q₁, hpush, h₁⟩ := h.push hfunc element
    obtain ⟨q', popped, s', hrun, h', hperm⟩ := run_spec hfunc calls h₁ hallowed
    refine ⟨q', popped, s', ?_, h', hperm.trans (List.perm_middle.symm)⟩
    unfold run
    rw [hpush]
    exact hrun
  | .pop :: calls, q, s, h, hallowed => by
    obtain ⟨x, rest, q₁, htop, hpop, hperm₁, h₁, -⟩ := h.popped hfunc hallowed.1
    have hlen : rest.length = s.length - 1 := by
      rw [hperm₁.length_eq, List.length_cons, Nat.add_sub_cancel]
    obtain ⟨q', popped, s', hrun, h', hperm⟩ :=
      run_spec hfunc calls h₁ (hlen ▸ hallowed.2)
    refine ⟨q', x :: popped, s', ?_, h', ?_⟩
    · unfold run
      simp only [htop, hpop, Option.bind_eq_bind, Option.bind_some, hrun]
      rfl
    · exact List.perm_middle.trans ((hperm.cons x).trans (hperm₁.symm.append_right _))

/-- After the calls the queue is a heap of the elements pushed and not popped, and the next `Pop`,
if there are two elements for it, takes `Top` away, which is in front of all. -/
def HeapAfter (func : α → α → Bool) (zero : α) (range : Option (List α)) (calls : List (Call α)) :
    Prop :=
  ∃ q₀ q popped, construct func zero range = some q₀ ∧ run func q₀ calls = some (q, popped) ∧
    (∀ i, 2 ≤ i → i < q.queue.length → ∃ x y, q.queue[i / 2]? = some x ∧ q.queue[i]? = some y ∧
      func x y) ∧
    (q.elements ++ popped).Perm (range.getD [] ++ pushed calls) ∧
    (2 ≤ q.elements.length → ∃ x q', q.top = some x ∧ q.pop func = some q' ∧
      q.elements.Perm (x :: q'.elements) ∧ ∀ y ∈ q.elements, func x y)

/-- The queue is a heap after any calls in which no `Pop` is of the last element. -/
theorem heapAfter (func : α → α → Bool) (hfunc : Heap.TotalPreorder (func · ·)) (zero : α)
    (range : Option (List α)) (calls : List (Call α))
    (hallowed : Allowed (range.getD []).length calls) : HeapAfter func zero range calls := by
  obtain ⟨q₀, hconstruct, h₀⟩ := construct_spec hfunc zero range
  obtain ⟨q, popped, s, hrun, h, hperm⟩ := run_spec hfunc calls h₀ hallowed
  refine ⟨q₀, q, popped, hconstruct, hrun, fun i h2 hi => ?_, ?_, fun htwo => ?_⟩
  · exact ⟨_, _, getElem?_getD zero (by omega), getElem?_getD zero hi,
      h.ordered i h2 (by omega) (by omega)⟩
  · exact (h.elements_perm.append_right _).trans hperm
  · rw [h.elements_perm.length_eq] at htwo
    obtain ⟨x, rest, q', htop, hpop, hperm', h', hfirst⟩ := h.popped hfunc htwo
    refine ⟨x, q', htop, hpop, ?_, fun y hy => hfirst y (h.elements_perm.mem_iff.1 hy)⟩
    exact h.elements_perm.trans (hperm'.trans (h'.elements_perm.symm.cons x))

/-- The greatest in front, from a range with a tie. -/
theorem heapAfter_three :
    HeapAfter (fun a b : ℕ => a ≥ b) 0 (some [3, 5, 3]) [.push 5, .pop, .pop] :=
  heapAfter (fun a b : ℕ => a ≥ b) ⟨fun a b => by simpa using Nat.le_total b a,
    fun hab hbc => by simp at hab hbc ⊢; omega⟩ 0 (some [3, 5, 3]) [.push 5, .pop, .pop]
    (by simp [Allowed])

end CPPCodes.Heaps.PriorityQueue
