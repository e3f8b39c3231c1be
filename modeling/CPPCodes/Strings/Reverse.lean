import CPPCodes.Lib.Loop
import Mathlib.Algebra.Order.Ring.Int
import Mathlib.Data.List.Induction

/-!
# A string reversed in place

reverse.cpp. `Reverse` swaps from both ends towards the middle (`reverseLoop_eq`); in an empty
string it steps in front of the beginning. `main` prints each reversed string beside the first one
that it was given (`main_reverses_iff`).
-/

namespace CPPCodes.Strings

/-- What is left to an implementation of `std::string`: the greatest size, which is a difference of
iterators too, and whether an iterator may be moved in front of the beginning, which C++ leaves
undefined. -/
structure Implementation where
  maxSize : ℕ
  maxSize_lt : maxSize < 2 ^ 63
  inFront : Bool

namespace Implementation

variable {α : Type} (impl : Implementation) {l : List α}

/-- The iterator that is moved to this place. -/
def position (i : ℤ) : Option ℤ := if 0 ≤ i ∨ impl.inFront = true then some i else none

/-- There is an iterator before the end. -/
def HasPrev (l : List α) : Prop := l ≠ [] ∨ impl.inFront = true

variable {impl}

theorem position_prev (h : impl.HasPrev l) :
    impl.position (l.length - 1) = some ((l.length : ℤ) - 1) := by
  refine if_pos (h.imp_left fun hne => ?_)
  have hpos := List.length_pos_iff.2 hne
  omega

theorem position_prev_eq_none (h : ¬ impl.HasPrev l) : impl.position (l.length - 1) = none := by
  obtain ⟨hnil, hfront⟩ := not_or.1 h
  refine if_neg (not_or.2 ⟨?_, hfront⟩)
  rw [not_not.1 hnil, List.length_nil]
  decide

end Implementation

namespace Reverse

variable {α : Type}

def reverseLoop (str : List α) (it1 it2 : ℕ) : Option (List α) :=
  if it1 < it2 then do
    let c1 ← str[it1]?
    let c2 ← str[it2]?
    reverseLoop ((str.set it1 c2).set it2 c1) (it1 + 1) (it2 - 1)
  else some str
termination_by it2 - it1

/-- `Reverse`; the loop ends at the beginning as it does in front of it. -/
def reverse (impl : Implementation) (str : List α) : Option (List α) := do
  let it2 ← impl.position (str.length - 1)
  reverseLoop str 0 it2.toNat

/-- `main`, for the strings from `argv[1]` on: what its lines are the reverse of, and the reverse. -/
def main (impl : Implementation) (argv : List (List α)) : Option (List (List α × List α)) :=
  argv.mapM fun str => do
    let reversed ← reverse impl str
    let first ← argv[0]?
    return (first, reversed)

theorem reverseLoop_eq (str : List α) : ∀ (pre post : List α) (it2 : ℕ),
    it2 = pre.length + str.length - 1 →
      reverseLoop (pre ++ str ++ post) pre.length it2 = some (pre ++ str.reverse ++ post) := by
  induction str using List.bidirectionalRec with
  | nil =>
    intro pre post it2 hit2
    unfold reverseLoop
    rw [if_neg (by simp at hit2; omega)]
    rfl
  | singleton c =>
    intro pre post it2 hit2
    unfold reverseLoop
    rw [if_neg (by simp at hit2; omega)]
    rfl
  | cons_append c1 mid c2 ih =>
    intro pre post it2 hit2
    have hlen : it2 = (pre ++ c1 :: mid).length := by
      simp at hit2 ⊢
      omega
    have hlt : pre.length < it2 := by
      rw [hlen]
      simp
    have hfst : (pre ++ (c1 :: (mid ++ [c2])) ++ post)[pre.length]? = some c1 := by simp
    have hsnd : (pre ++ (c1 :: (mid ++ [c2])) ++ post)[it2]? = some c2 := by
      have hsplit : pre ++ (c1 :: (mid ++ [c2])) ++ post = (pre ++ c1 :: mid) ++ c2 :: post := by
        simp
      rw [hsplit, hlen]
      simp
    have hset : ((pre ++ (c1 :: (mid ++ [c2])) ++ post).set pre.length c2).set it2 c1 =
        (pre ++ [c2]) ++ mid ++ (c1 :: post) := by
      have hfront : (pre ++ (c1 :: (mid ++ [c2])) ++ post).set pre.length c2 =
          (pre ++ c2 :: mid) ++ c2 :: post := by
        rw [List.append_assoc, List.set_append_right _ _ le_rfl, Nat.sub_self]
        simp
      have hlen' : it2 = (pre ++ c2 :: mid).length := by simpa using hlen
      rw [hfront, hlen', List.set_append_right _ _ le_rfl, Nat.sub_self]
      simp
    have hrest := ih (pre ++ [c2]) (c1 :: post) (it2 - 1) (by simp at hlen ⊢; omega)
    rw [List.length_append, List.length_singleton] at hrest
    unfold reverseLoop
    rw [if_pos hlt, hfst, Option.bind_eq_bind, Option.bind_some, hsnd, Option.bind_some, hset,
      hrest]
    simp

theorem reverse_eq {impl : Implementation} {str : List α} (h : impl.HasPrev str) :
    reverse impl str = some str.reverse := by
  unfold reverse
  rw [Implementation.position_prev h]
  simpa using reverseLoop_eq str [] [] (str.length - 1) (by simp)

/-- The lines are right if all strings are the first one, and that is not empty where no iterator
may be moved in front of the beginning. -/
theorem main_reverses_iff (impl : Implementation) (argv : List (List α)) :
    main impl argv = some (argv.map fun str => (str, str.reverse)) ↔
      ∀ str ∈ argv, (str ≠ [] ∨ impl.inFront = true) ∧ argv[0]? = some str := by
  unfold main
  rw [Loop.mapM_eq_some_map_iff]
  refine forall₂_congr fun str _ => ?_
  by_cases h : impl.HasPrev str
  · rw [reverse_eq h, Option.bind_eq_bind, Option.bind_some]
    cases hfirst : argv[0]? with
    | none => simp
    | some first => simpa [Implementation.HasPrev] using fun _ => h
  · have hnone : reverse impl str = none := by
      unfold reverse
      rw [Implementation.position_prev_eq_none h]
      rfl
    refine iff_of_false ?_ fun hline => h hline.1
    rw [hnone]
    exact fun hline => nomatch hline

end Reverse

end CPPCodes.Strings
