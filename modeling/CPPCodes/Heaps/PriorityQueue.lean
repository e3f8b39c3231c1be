import CPPCodes.Lib.Heap
import Mathlib.Data.List.GetD

/-!
# The priority queue

`PriorityQueue` of PriorityQueue.cpp, for any comparison. The elements are at the indexes from 1 on.
An access behind the end is `none`. What is moved out of the vector stays in it, for the code writes
there before it reads.
-/

namespace CPPCodes.Heaps

variable {α : Type}

/-- `queue_`. -/
structure PriorityQueue (α : Type) where
  queue : List α

namespace PriorityQueue

/-- Nothing but the first element, which is unused. -/
def new (zero : α) : PriorityQueue α := ⟨[zero]⟩

def top (q : PriorityQueue α) : Option α := q.queue[1]?

def isEmpty (q : PriorityQueue α) : Bool := q.queue.length = 1

section Func

variable (func : α → α → Bool)

/-- Of the two children the one to go up. -/
def pickChild (queue : List α) (size child : ℕ) : Option ℕ :=
  if child < size then do
    let right ← queue[child + 1]?
    let left ← queue[child]?
    return if func right left then child + 1 else child
  else some child

/-- The loop of `ShiftDown`, in at most `fuel` turns: the vector and where the element goes. -/
def shiftDownLoop : ℕ → List α → (element : α) → (size index child : ℕ) → Option (List α × ℕ)
  | 0, _, _, _, _, _ => none
  | fuel + 1, queue, element, size, index, child =>
    if child ≤ size then do
      let child ← pickChild func queue size child
      let x ← queue[child]?
      if func x element then
        shiftDownLoop fuel (queue.set index x) element size child (child * 2)
      else return (queue, index)
    else some (queue, index)

/-- `ShiftDown`, whose loop has no more turns than the vector has elements. -/
def shiftDown (queue : List α) (index : ℕ) : Option (List α) := do
  let element ← queue[index]?
  let r ← shiftDownLoop func queue.length queue element (queue.length - 1) index (index * 2)
  return r.1.set r.2 element

/-- The loop of `ShiftUp`, in at most `fuel` turns. -/
def shiftUpLoop : ℕ → List α → (element : α) → (index : ℕ) → Option (List α × ℕ)
  | 0, _, _, _ => none
  | fuel + 1, queue, element, index =>
    if 1 < index then do
      let x ← queue[index / 2]?
      if func x element then return (queue, index)
      else shiftUpLoop fuel (queue.set index x) element (index / 2)
    else some (queue, index)

/-- `ShiftUp`. -/
def shiftUp (queue : List α) (index : ℕ) : Option (List α) := do
  let element ← queue[index]?
  let r ← shiftUpLoop func queue.length queue element index
  return r.1.set r.2 element

/-- The loop of `Heapify`, from an index down to 1. -/
def heapifyFrom : ℕ → List α → Option (List α)
  | 0, queue => some queue
  | i + 1, queue => do
    let queue ← shiftDown func queue (i + 1)
    heapifyFrom i queue

def heapify (queue : List α) : Option (List α) := heapifyFrom func ((queue.length - 1) / 2) queue

/-- The constructor from a range. -/
def ofRange (zero : α) (range : List α) : Option (PriorityQueue α) := do
  let queue ← heapify func (zero :: range)
  return ⟨queue⟩

def push (q : PriorityQueue α) (element : α) : Option (PriorityQueue α) := do
  let queue ← shiftUp func (q.queue ++ [element]) q.queue.length
  return ⟨queue⟩

def pop (q : PriorityQueue α) : Option (PriorityQueue α) := do
  let last ← q.queue.getLast?
  if 1 < q.queue.length then
    let queue ← shiftDown func (q.queue.set 1 last).dropLast 1
    return ⟨queue⟩
  else none

end Func

/-! ## One element on its way -/

section Shift

open Heap

variable {func : α → α → Bool} {zero : α} {queue : List α} {element : α} {index size m : ℕ}

/-- The parent is in front of its child, for all parents from `m` on. -/
abbrev Ordered (func : α → α → Bool) (zero : α) (queue : List α) (m : ℕ) : Prop :=
  OrderedFrom (func · ·) (queue.getD · zero) (queue.length - 1) m

theorem getElem?_getD {queue : List α} (zero : α) {i : ℕ} (hi : i < queue.length) :
    queue[i]? = some (queue.getD i zero) := by
  rw [List.getD_eq_getElem _ _ hi, List.getElem?_eq_getElem hi]

theorem getD_set (zero x : α) (hi : index < queue.length) :
    ((queue.set index x).getD · zero) = Function.update (queue.getD · zero) index x := by
  funext i
  by_cases heq : i = index
  · subst heq
    rw [Function.update_self, List.getD_eq_getElem?_getD, List.getElem?_set_self hi,
      Option.getD_some]
  · rw [Function.update_of_ne heq, List.getD_eq_getElem?_getD, List.getElem?_set_ne (Ne.symm heq),
      ← List.getD_eq_getElem?_getD]

/-- The elements are the same, in another order, and the first is where it was. -/
structure Shifted (queue queue' : List α) : Prop where
  perm : queue'.Perm queue
  head : queue'[0]? = queue[0]?

theorem Shifted.refl (queue : List α) : Shifted queue queue := ⟨.refl _, rfl⟩

theorem Shifted.trans {queue queue' queue'' : List α} (h : Shifted queue queue')
    (h' : Shifted queue' queue'') : Shifted queue queue'' :=
  ⟨h'.perm.trans h.perm, h'.head.trans h.head⟩

/-- An element goes into the hole, and the hole to where it was. -/
theorem shifted_move {c : ℕ} (hc : c < queue.length) (hindex : index < queue.length)
    (hne : c ≠ index) (hpos : 1 ≤ c) (hpos' : 1 ≤ index) :
    Shifted (queue.set index element) ((queue.set index (queue.getD c zero)).set c element) := by
  refine ⟨?_, ?_⟩
  · have hindex' : index < (queue.set index element).length := by rwa [List.length_set]
    have hc' : c < (queue.set index element).length := by rwa [List.length_set]
    have hswap := List.set_set_perm hindex' hc'
    rw [List.getElem_set_self, List.getElem_set_ne hne.symm, List.set_set] at hswap
    rwa [List.getD_eq_getElem _ _ hc]
  · rw [List.getElem?_set_ne (by omega), List.getElem?_set_ne (by omega),
      List.getElem?_set_ne (by omega)]

theorem pickChild_spec (zero : α) (hfunc : TotalPreorder (func · ·)) (hle : index * 2 ≤ size)
    (hlen : queue.length = size + 1) :
    ∃ c, pickChild func queue size (index * 2) = some c ∧ c ≤ size ∧ c / 2 = index ∧
      ∀ s, 2 ≤ s → s ≤ size → s / 2 = index → func (queue.getD c zero) (queue.getD s zero) := by
  unfold pickChild
  split_ifs with hlt
  · rw [getElem?_getD zero (by omega : index * 2 + 1 < queue.length),
      getElem?_getD zero (by omega : index * 2 < queue.length)]
    simp only [Option.bind_eq_bind, Option.bind_some]
    split_ifs with hright
    · refine ⟨_, rfl, by omega, by omega, fun s _ _ hs => ?_⟩
      obtain rfl | rfl : s = index * 2 ∨ s = index * 2 + 1 := by omega
      · exact hright
      · exact hfunc.refl _
    · refine ⟨_, rfl, by omega, by omega, fun s _ _ hs => ?_⟩
      obtain rfl | rfl : s = index * 2 ∨ s = index * 2 + 1 := by omega
      · exact hfunc.refl _
      · exact hfunc.of_not hright
  · refine ⟨_, rfl, by omega, by omega, fun s _ _ hs => ?_⟩
    obtain rfl : s = index * 2 := by omega
    exact hfunc.refl _

/-- What the loops come to: the element fills the hole that they leave. -/
def Settles (func : α → α → Bool) (zero : α) (queue : List α) (element : α) (index m : ℕ)
    (r : List α × ℕ) : Prop :=
  Shifted (queue.set index element) (r.1.set r.2 element) ∧
    Ordered func zero (r.1.set r.2 element) m

theorem Settles.move {c : ℕ} {r : List α × ℕ} (hc : c < queue.length)
    (hindex : index < queue.length) (hne : c ≠ index) (hpos : 1 ≤ c) (hpos' : 1 ≤ index)
    (h : Settles func zero (queue.set index (queue.getD c zero)) element c m r) :
    Settles func zero queue element index m r :=
  ⟨(shifted_move hc hindex hne hpos hpos').trans h.1, h.2⟩

theorem settles_finish (hindex : index < queue.length) (hlen : queue.length = size + 1)
    (h : OrderedFrom (func · ·) (Function.update (queue.getD · zero) index element) size m) :
    Settles func zero queue element index m (queue, index) := by
  refine ⟨.refl _, ?_⟩
  unfold Ordered
  rw [getD_set zero element hindex, List.length_set, hlen]
  exact h

theorem shiftDownLoop_spec (hfunc : TotalPreorder (func · ·)) :
    ∀ (fuel : ℕ) {queue : List α} {index : ℕ}, size < fuel + index → 1 ≤ index → index ≤ size →
      m ≤ index → queue.length = size + 1 →
      DownOrder (func · ·) (queue.getD · zero) size m index element →
      ∃ r, shiftDownLoop func fuel queue element size index (index * 2) = some r ∧
        Settles func zero queue element index m r
  | 0, _, _, hfuel, _, hle, _, _, _ => absurd hfuel (by omega)
  | fuel + 1, queue, index, hfuel, hpos, hle, hm, hlen, h => by
    have hindex : index < queue.length := by omega
    unfold shiftDownLoop
    split_ifs with hchild
    · obtain ⟨c, hpick, hc, hparent, hfirst⟩ := pickChild_spec zero hfunc hchild hlen
      have hcl : c < queue.length := by omega
      rw [hpick]
      simp only [Option.bind_eq_bind, Option.bind_some, getElem?_getD zero hcl]
      split_ifs with hbefore
      · have hdown := h.move hpos hm hc hparent hfirst hbefore
        rw [← getD_set zero _ hindex] at hdown
        obtain ⟨r, hrun, hr⟩ := shiftDownLoop_spec hfunc fuel (by omega) (by omega) hc (by omega)
          (by rwa [List.length_set]) hdown
        exact ⟨r, hrun, hr.move hcl hindex (by omega) (by omega) hpos⟩
      · refine ⟨_, rfl, settles_finish hindex hlen (h.finish hpos fun s h2 hs hsparent => ?_)⟩
        exact hfunc.trans (hfunc.of_not hbefore) (hfirst s h2 hs hsparent)
    · refine ⟨_, rfl, settles_finish hindex hlen (h.finish hpos fun s _ _ _ => ?_)⟩
      omega

theorem shiftDown_spec (hfunc : TotalPreorder (func · ·)) (hpos : 1 ≤ m) (hm : m < queue.length)
    (h : Ordered func zero queue (m + 1)) :
    ∃ queue', shiftDown func queue m = some queue' ∧ Shifted queue queue' ∧
      Ordered func zero queue' m := by
  obtain ⟨r, hrun, hr⟩ := shiftDownLoop_spec hfunc queue.length (m := m) (by omega) hpos (by omega)
    (Nat.le_refl m) (by omega) (h.downOrder hpos (queue.getD m zero))
  refine ⟨r.1.set r.2 (queue.getD m zero), ?_, ?_, hr.2⟩
  · unfold shiftDown
    rw [getElem?_getD zero hm, Option.bind_eq_bind, Option.bind_some, hrun]
    rfl
  · have hself : queue.set m (queue.getD m zero) = queue := by
      rw [List.getD_eq_getElem _ _ hm, List.set_getElem_self]
    have hshift := hr.1
    rwa [hself] at hshift

theorem shiftUpLoop_spec (hfunc : TotalPreorder (func · ·)) :
    ∀ (fuel : ℕ) {queue : List α} {index : ℕ}, index ≤ fuel → 1 ≤ index → index ≤ size →
      queue.length = size + 1 → UpOrder (func · ·) (queue.getD · zero) size index element →
      ∃ r, shiftUpLoop func fuel queue element index = some r ∧
        Settles func zero queue element index 1 r
  | 0, _, _, hfuel, hpos, _, _, _ => absurd hfuel (by omega)
  | fuel + 1, queue, index, hfuel, hpos, hle, hlen, h => by
    have hindex : index < queue.length := by omega
    unfold shiftUpLoop
    split_ifs with hparent
    · have hp : index / 2 < queue.length := by omega
      rw [getElem?_getD zero hp]
      simp only [Option.bind_eq_bind, Option.bind_some]
      split_ifs with hbefore
      · exact ⟨_, rfl, settles_finish hindex hlen (h.finish hpos fun _ => hbefore)⟩
      · have hup := h.move hfunc hparent hle (hfunc.of_not hbefore)
        rw [← getD_set zero _ hindex] at hup
        obtain ⟨r, hrun, hr⟩ := shiftUpLoop_spec hfunc fuel (by omega) (by omega) (by omega)
          (by rwa [List.length_set]) hup
        exact ⟨r, hrun, hr.move hp hindex (by omega) (by omega) hpos⟩
    · exact ⟨_, rfl, settles_finish hindex hlen (h.finish hpos fun h2 => absurd h2 hparent)⟩

theorem shiftUp_spec (hfunc : TotalPreorder (func · ·)) (hpos : 1 ≤ queue.length)
    (h : Ordered func zero queue 1) (element : α) :
    ∃ queue', shiftUp func (queue ++ [element]) queue.length = some queue' ∧
      Shifted (queue ++ [element]) queue' ∧ Ordered func zero queue' 1 := by
  have hlen : (queue ++ [element]).length = queue.length + 1 := by simp
  have hlast : (queue ++ [element])[queue.length]? = some element := by simp
  have hold : OrderedFrom (func · ·) ((queue ++ [element]).getD · zero) (queue.length - 1) 1 :=
    h.congr (Nat.le_refl _) (Nat.le_refl _) fun i _ hi => List.getD_append _ _ _ _ (by omega)
  have hup := hold.upOrder element
  rw [Nat.sub_add_cancel hpos] at hup
  obtain ⟨r, hrun, hr⟩ := shiftUpLoop_spec hfunc (queue ++ [element]).length (by omega) hpos
    (Nat.le_refl _) hlen hup
  refine ⟨r.1.set r.2 element, ?_, ?_, hr.2⟩
  · unfold shiftUp
    rw [hlast, Option.bind_eq_bind, Option.bind_some, hrun]
    rfl
  · have hshift := hr.1
    rwa [List.set_append_right _ _ (Nat.le_refl _), Nat.sub_self, List.set_cons_zero] at hshift

theorem heapifyFrom_spec (hfunc : TotalPreorder (func · ·)) :
    ∀ {i : ℕ} {queue : List α}, i < queue.length → Ordered func zero queue (i + 1) →
      ∃ queue', heapifyFrom func i queue = some queue' ∧ Shifted queue queue' ∧
        Ordered func zero queue' 1
  | 0, queue, _, h => ⟨queue, rfl, .refl _, h⟩
  | i + 1, queue, hi, h => by
    obtain ⟨queue₁, hshift, hshifted, hordered⟩ := shiftDown_spec hfunc (by omega) hi h
    obtain ⟨queue', hrest, hshifted', hordered'⟩ :=
      heapifyFrom_spec hfunc (by rw [hshifted.perm.length_eq]; omega) hordered
    refine ⟨queue', ?_, hshifted.trans hshifted', hordered'⟩
    unfold heapifyFrom
    rw [hshift]
    exact hrest

end Shift

end PriorityQueue

end CPPCodes.Heaps
