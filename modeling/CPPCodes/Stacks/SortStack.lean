import CPPCodes.Lib.Inversions
import Mathlib.Algebra.Order.Ring.Int
import Mathlib.Data.List.Perm.Basic

/-!
# A stack is sorted with one extra stack

`Stack` of Stack.h and the loop of SortStack.cpp's `main`. Elements go back to `s1`, so neither
stack only grows. But the sorted stack from its bottom and then `s1` from its top are one sequence,
in which a turn moves one element in front of the greater ones that were sorted already. Each of
these is an inversion less and an element of `s1` more, and the element of the turn is one less
(`turn_spec`).
-/

namespace CPPCodes.Stacks

variable {α : Type}

/-- A stack: `elements` has its top last. -/
structure Stack (α : Type) where
  elements : List α
  size : ℕ
  fits : elements.length ≤ size

namespace Stack

/-- `Stack(size)`. -/
def new (size : ℕ) : Stack α where
  elements := []
  size := size
  fits := Nat.zero_le _

def isEmpty (stack : Stack α) : Bool := stack.elements.isEmpty

def isFull (stack : Stack α) : Bool := stack.elements.length == stack.size

/-- `Push`, with what it returns. -/
def push (stack : Stack α) (element : α) : Bool × Stack α :=
  if h : stack.isFull then (false, stack)
  else (true, {
    elements := stack.elements ++ [element]
    size := stack.size
    fits := by
      have hfits := stack.fits
      have hne : stack.elements.length ≠ stack.size := by simpa [isFull] using h
      rw [List.length_append, List.length_singleton]
      omega })

def pop (stack : Stack α) : Stack α :=
  if stack.isEmpty then stack
  else {
    elements := stack.elements.dropLast
    size := stack.size
    fits := by
      have hfits := stack.fits
      rw [List.length_dropLast]
      omega }

def peek (stack : Stack α) : Option α :=
  if stack.isEmpty then none else stack.elements.getLast?

end Stack

/-- The stacks of `main`, and what each `Push` has returned. -/
structure State where
  s1 : Stack ℤ
  sorted : Stack ℤ
  pushes : List Bool

namespace State

/-- `s1.Push(n)`. -/
def push (s : State) (n : ℤ) : State :=
  let (accepted, s1) := s.s1.push n
  { s with s1, pushes := s.pushes ++ [accepted] }

/-- `sorted.Push(n)`. -/
def pushSorted (s : State) (n : ℤ) : State :=
  let (accepted, sorted) := s.sorted.push n
  { s with sorted, pushes := s.pushes ++ [accepted] }

/-- `s1.Pop()`. -/
def pop (s : State) : State := { s with s1 := s.s1.pop }

/-- `sorted.Pop()`. -/
def popSorted (s : State) : State := { s with sorted := s.sorted.pop }

/-- The inner loop: what is greater than `n` goes back to `s1`. -/
def giveBack (n : ℤ) : ℕ → State → Option State
  | 0, _ => none
  | fuel + 1, s =>
    if s.sorted.isEmpty then some s
    else do
      let sorted_n ← s.sorted.peek
      if sorted_n ≤ n then some s else giveBack n fuel (s.popSorted.push sorted_n)

/-- One turn of the outer loop. A `Peek` without a value is `none`. -/
def turn (s : State) : Option State := do
  let n ← s.s1.peek
  let s := s.pop
  if s.sorted.isEmpty then some (s.pushSorted n)
  else
    let sorted_n ← s.sorted.peek
    if sorted_n ≤ n then some (s.pushSorted n)
    else
      let s ← giveBack n (s.sorted.elements.length + 1) s
      some (s.pushSorted n)

def loop : ℕ → State → Option State
  | 0, _ => none
  | fuel + 1, s => if s.s1.isEmpty then some s else s.turn.bind (loop fuel)

end State

/-- `main`, from the numbers that it pushes on `s1`, in at most `fuel` turns of the loop. -/
def sortStack (fuel : ℕ) (numbers : List ℤ) : Option State :=
  let s : State :=
    { s1 := .new numbers.length, sorted := .new numbers.length, pushes := [] }
  (numbers.foldl State.push s).loop fuel

namespace Stack

variable {stack : Stack α} {l : List α} {x : α}

theorem push_spec (h : stack.elements.length < stack.size) (x : α) :
    (stack.push x).1 = true ∧ (stack.push x).2.elements = stack.elements ++ [x] ∧
      (stack.push x).2.size = stack.size := by
  have hfull : ¬ stack.isFull = true := fun hfull => h.ne (eq_of_beq hfull)
  unfold push
  rw [dif_neg hfull]
  exact ⟨rfl, rfl, rfl⟩

theorem isEmpty_concat (h : stack.elements = l ++ [x]) : stack.isEmpty = false := by
  rw [isEmpty, h, List.isEmpty_eq_false_iff]
  exact List.append_ne_nil_of_right_ne_nil l (List.cons_ne_nil x [])

theorem isEmpty_nil (h : stack.elements = []) : stack.isEmpty = true := by
  rw [isEmpty, h, List.isEmpty_nil]

theorem peek_concat (h : stack.elements = l ++ [x]) : stack.peek = some x := by
  unfold peek
  rw [if_neg (by rw [isEmpty_concat h]; decide), h, List.getLast?_concat]

theorem pop_concat (h : stack.elements = l ++ [x]) :
    stack.pop.elements = l ∧ stack.pop.size = stack.size := by
  unfold pop
  rw [if_neg (by rw [isEmpty_concat h]; decide)]
  have hdrop : stack.elements.dropLast = l := by rw [h, List.dropLast_concat]
  exact ⟨hdrop, rfl⟩

end Stack

namespace State

/-- The stacks have these elements and are made for `n`, and no `Push` has been refused. -/
structure Holds (n : ℕ) (s : State) (s1 sorted : List ℤ) : Prop where
  s1 : s.s1.elements = s1
  sorted : s.sorted.elements = sorted
  size : s.s1.size = n
  sizeSorted : s.sorted.size = n
  accepted : ∀ accepted ∈ s.pushes, accepted = true

variable {n : ℕ} {s : State} {s1 sorted low high : List ℤ} {x : ℤ}

theorem Holds.push (h : Holds n s s1 sorted) (hroom : s1.length < n) (x : ℤ) :
    Holds n (s.push x) (s1 ++ [x]) sorted := by
  obtain ⟨haccepted, helements, hsize⟩ := s.s1.push_spec (by rwa [h.s1, h.size]) x
  exact {
    s1 := by rw [← h.s1]; exact helements
    sorted := h.sorted
    size := hsize.trans h.size
    sizeSorted := h.sizeSorted
    accepted := List.forall_mem_append.2 ⟨h.accepted, List.forall_mem_singleton.2 haccepted⟩
  }

theorem Holds.pushSorted (h : Holds n s s1 sorted) (hroom : sorted.length < n) (x : ℤ) :
    Holds n (s.pushSorted x) s1 (sorted ++ [x]) := by
  obtain ⟨haccepted, helements, hsize⟩ := s.sorted.push_spec (by rwa [h.sorted, h.sizeSorted]) x
  exact {
    s1 := h.s1
    sorted := by rw [← h.sorted]; exact helements
    size := h.size
    sizeSorted := hsize.trans h.sizeSorted
    accepted := List.forall_mem_append.2 ⟨h.accepted, List.forall_mem_singleton.2 haccepted⟩
  }

theorem Holds.pop (h : Holds n s (s1 ++ [x]) sorted) : Holds n s.pop s1 sorted :=
  { h with s1 := (Stack.pop_concat h.s1).1, size := (Stack.pop_concat h.s1).2.trans h.size }

theorem Holds.popSorted (h : Holds n s s1 (sorted ++ [x])) : Holds n s.popSorted s1 sorted :=
  { h with
    sorted := (Stack.pop_concat h.sorted).1
    sizeSorted := (Stack.pop_concat h.sorted).2.trans h.sizeSorted }

theorem giveBack_spec : ∀ (fuel : ℕ) {high s1 : List ℤ} {s : State},
    Holds n s s1 (low ++ high.reverse) → (∀ z ∈ low, z ≤ x) → (∀ z ∈ high, x < z) →
    s1.length + high.length ≤ n → high.length < fuel →
    ∃ s', giveBack x fuel s = some s' ∧ Holds n s' (s1 ++ high) low
  | 0, _, _, _, _, _, _, _, hfuel => absurd hfuel (Nat.not_lt_zero _)
  | fuel + 1, [], s1, s, h, hlow, _, _, _ => by
    rw [List.reverse_nil, List.append_nil] at h
    refine ⟨s, ?_, by rwa [List.append_nil]⟩
    unfold giveBack
    rcases List.eq_nil_or_concat' low with rfl | ⟨low, y, rfl⟩
    · exact if_pos (Stack.isEmpty_nil h.sorted)
    · have hy : y ≤ x := hlow y (by simp)
      rw [if_neg (by rw [Stack.isEmpty_concat h.sorted]; decide), Stack.peek_concat h.sorted]
      exact if_pos hy
  | fuel + 1, y :: high, s1, s, h, hlow, hhigh, hroom, hfuel => by
    rw [List.length_cons] at hroom hfuel
    rw [List.reverse_cons, ← List.append_assoc] at h
    have hy : ¬ y ≤ x := not_le.2 (hhigh y List.mem_cons_self)
    obtain ⟨s', hrun, h'⟩ := giveBack_spec fuel (h.popSorted.push (by omega) y) hlow
      (fun z hz => hhigh z (List.mem_cons_of_mem y hz)) (by simp; omega) (by omega)
    refine ⟨s', ?_, by simpa using h'⟩
    unfold giveBack
    rw [if_neg (by rw [Stack.isEmpty_concat h.sorted]; decide), Stack.peek_concat h.sorted]
    simp only [Option.bind_eq_bind, Option.bind_some, if_neg hy, hrun]

/-- Where no element is greater, the inner loop leaves what it finds. -/
theorem turn_eq (s : State) : turn s = s.s1.peek.bind fun n =>
    (giveBack n (s.pop.sorted.elements.length + 1) s.pop).map (·.pushSorted n) := by
  unfold turn
  simp only [Option.bind_eq_bind]
  congr 1
  funext n
  by_cases hempty : s.pop.sorted.isEmpty
  · rw [if_pos hempty, giveBack, if_pos hempty]
    rfl
  · rw [if_neg hempty]
    cases hpeek : s.pop.sorted.peek with
    | none =>
      rw [giveBack, if_neg hempty, hpeek]
      rfl
    | some sorted_n =>
      simp only [Option.bind_some]
      by_cases hle : sorted_n ≤ n
      · rw [if_pos hle, giveBack, if_neg hempty, hpeek]
        simp only [Option.bind_eq_bind, Option.bind_some, if_pos hle, Option.map_some]
      · rw [if_neg hle]
        exact Option.map_eq_bind.symm

/-- The element at the top of `s1` comes between the lower sorted ones and the higher ones, which go
back. -/
theorem turn_spec (h : Holds n s (s1 ++ [x]) (low ++ high)) (hlow : ∀ z ∈ low, z ≤ x)
    (hhigh : ∀ z ∈ high, x < z) (hroom : s1.length + low.length + high.length < n) :
    ∃ s', turn s = some s' ∧ Holds n s' (s1 ++ high.reverse) (low ++ [x]) := by
  have hpop : Holds n s.pop s1 (low ++ high.reverse.reverse) := by
    rw [List.reverse_reverse]
    exact h.pop
  have hlen : s.pop.sorted.elements.length = low.length + high.length := by
    rw [hpop.sorted, List.reverse_reverse, List.length_append]
  obtain ⟨s', hrun, h'⟩ := giveBack_spec (s.pop.sorted.elements.length + 1) hpop hlow
    (fun z hz => hhigh z (List.mem_reverse.1 hz)) (by rw [List.length_reverse]; omega)
    (by rw [List.length_reverse, hlen]; omega)
  refine ⟨s'.pushSorted x, ?_, h'.pushSorted (by omega) x⟩
  rw [turn_eq, Stack.peek_concat h.s1, Option.bind_some, hrun, Option.map_some]

/-- In a sorted list the elements that are not greater are in front of those that are. -/
theorem exists_low_high (x : ℤ) : ∀ {l : List ℤ}, l.Pairwise (· ≤ ·) → ∃ low high,
    l = low ++ high ∧ (∀ z ∈ low, z ≤ x) ∧ ∀ z ∈ high, x < z
  | [], _ => ⟨[], [], rfl, by simp, by simp⟩
  | y :: l, h => by
    obtain ⟨hy, hl⟩ := List.pairwise_cons.1 h
    by_cases hle : y ≤ x
    · obtain ⟨low, high, rfl, hlow, hhigh⟩ := exists_low_high x hl
      exact ⟨y :: low, high, rfl, List.forall_mem_cons.2 ⟨hle, hlow⟩, hhigh⟩
    · have hlt := not_le.1 hle
      exact ⟨[], y :: l, rfl, by simp, List.forall_mem_cons.2 ⟨hlt, fun z hz => hlt.trans_le (hy z hz)⟩⟩

/-- The turns that are left. -/
def turns (s1 sorted : List ℤ) : ℕ := s1.length + Inversions.inversions (sorted ++ s1.reverse)

theorem turns_concat (s1 low : List ℤ) (hhigh : ∀ z ∈ high, x < z) :
    turns (s1 ++ [x]) (low ++ high) = turns (s1 ++ high.reverse) (low ++ [x]) + 1 := by
  have hmove := Inversions.inversions_move s1.reverse hhigh
  have hfront := Inversions.inversions_append_left
    (List.perm_middle : (high ++ x :: s1.reverse).Perm (x :: (high ++ s1.reverse))) low
  unfold turns
  simp only [List.reverse_append, List.reverse_reverse, List.reverse_cons, List.reverse_nil,
    List.nil_append, List.append_assoc, List.singleton_append, List.length_append,
    List.length_reverse, List.length_singleton]
  omega

theorem loop_spec : ∀ (fuel : ℕ) {s : State} {s1 sorted : List ℤ}, Holds n s s1 sorted →
    sorted.Pairwise (· ≤ ·) → s1.length + sorted.length = n → turns s1 sorted < fuel →
    ∃ s' sorted', loop fuel s = some s' ∧ Holds n s' [] sorted' ∧ sorted'.Pairwise (· ≤ ·) ∧
      sorted'.Perm (s1 ++ sorted)
  | 0, _, _, _, _, _, _, hfuel => absurd hfuel (Nat.not_lt_zero _)
  | fuel + 1, s, s1, sorted, h, hsorted, hlen, hfuel => by
    unfold loop
    rcases List.eq_nil_or_concat' s1 with rfl | ⟨s1, x, rfl⟩
    · rw [if_pos (Stack.isEmpty_nil h.s1)]
      exact ⟨s, sorted, rfl, h, hsorted, .refl _⟩
    · obtain ⟨low, high, rfl, hlow, hhigh⟩ := exists_low_high x hsorted
      simp only [List.length_append, List.length_singleton] at hlen
      rw [turns_concat s1 low hhigh] at hfuel
      obtain ⟨s₁, hturn, h₁⟩ := turn_spec h hlow hhigh (by omega)
      have hsorted₁ : (low ++ [x]).Pairwise (· ≤ ·) := by
        refine List.pairwise_append.2 ⟨(List.pairwise_append.1 hsorted).1,
          List.pairwise_singleton _ _, fun z hz y hy => ?_⟩
        rw [List.mem_singleton.1 hy]
        exact hlow z hz
      obtain ⟨s₂, sorted₂, hrun, h₂, hsorted₂, hperm⟩ := loop_spec fuel h₁ hsorted₁ (by simp; omega)
        (by omega)
      refine ⟨s₂, sorted₂, ?_, h₂, hsorted₂, hperm.trans ?_⟩
      · rw [if_neg (by rw [Stack.isEmpty_concat h.s1]; decide), hturn]
        exact hrun
      · rw [List.append_assoc, List.append_assoc]
        refine List.Perm.append_left s1 ?_
        have hlast : (high.reverse ++ (low ++ [x])).Perm (high ++ (low ++ [x])) :=
          (List.reverse_perm high).append_right _
        refine hlast.trans ?_
        rw [← List.append_assoc]
        exact (List.perm_append_singleton x _).trans (List.perm_append_comm.cons x)

end State

theorem foldl_push_holds {n : ℕ} : ∀ (numbers : List ℤ) {s1 : List ℤ} {s : State}, s.Holds n s1 [] →
    s1.length + numbers.length ≤ n → (numbers.foldl State.push s).Holds n (s1 ++ numbers) []
  | [], s1, s, h, _ => by rwa [List.append_nil]
  | x :: numbers, s1, s, h, hroom => by
    rw [List.length_cons] at hroom
    have hrest := foldl_push_holds numbers (h.push (by omega) x) (by simp; omega)
    rwa [List.append_assoc] at hrest

/-- What `main` is to leave: no `Push` has been refused, and all is on the sorted stack. -/
structure SortedStack (numbers : List ℤ) (s : State) : Prop where
  accepted : ∀ accepted ∈ s.pushes, accepted = true
  s1 : s.s1.elements = []
  perm : s.sorted.elements.Perm numbers
  sorted : s.sorted.elements.Pairwise (· ≤ ·)

theorem sortStack_sorts (numbers : List ℤ) (fuel : ℕ)
    (hfuel : numbers.length + Inversions.inversions numbers.reverse < fuel) :
    ∃ s, sortStack fuel numbers = some s ∧ SortedStack numbers s := by
  have hstart : State.Holds numbers.length
      { s1 := .new numbers.length, sorted := .new numbers.length, pushes := [] } [] [] := {
    s1 := rfl
    sorted := rfl
    size := rfl
    sizeSorted := rfl
    accepted := by simp
  }
  have hpushed := foldl_push_holds numbers hstart (Nat.le_of_eq (Nat.zero_add _))
  obtain ⟨s, sorted, hrun, h, hsorted, hperm⟩ := State.loop_spec fuel hpushed .nil (by simp)
    (by simpa [State.turns] using hfuel)
  refine ⟨s, hrun, ?_⟩
  exact {
    accepted := h.accepted
    s1 := h.s1
    perm := by
      rw [h.sorted]
      simpa using hperm
    sorted := by rwa [h.sorted]
  }

theorem sortStack_sorts_three : ∃ s, sortStack 6 [2, 3, 1] = some s ∧ SortedStack [2, 3, 1] s :=
  sortStack_sorts [2, 3, 1] 6 (by decide)

end CPPCodes.Stacks
