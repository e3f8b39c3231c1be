import CPPCodes.Primes.Prime1

/-!
# All test cases of prime1.cpp

`main` reads the test cases, computes the basic primes for the greatest end of all, and then prints
the primes of each segment. They are right for all if and only if every end is odd: a segment with
an even end leaves the flags, or its 2 out, whatever the other segments are.
-/

namespace CPPCodes.Primes.Prime1

open Sieve

/-- `max_end` behind the loop that reads the test cases. -/
def maxEnd (testCases : List (ℕ × ℕ)) : ℤ :=
  testCases.foldl (fun max_end e => max max_end e.2) (-2 ^ 63)

/-- `main`: what it prints for each test case. A negative number has no square root. -/
def main (testCases : List (ℕ × ℕ)) : Option (List (List ℕ)) := do
  let max_end := maxEnd testCases
  if max_end < 0 then none
  else
    let primes ← computeAllPrimes max_end.toNat
    testCases.mapM fun e => printPrime primes e.1 e.2

variable {testCases : List (ℕ × ℕ)}

theorem le_foldl_max : ∀ {testCases : List (ℕ × ℕ)} {max_end x : ℤ},
    x ≤ max_end ∨ (∃ e ∈ testCases, x ≤ e.2) →
      x ≤ testCases.foldl (fun max_end e => max max_end (e.2 : ℤ)) max_end
  | [], _, _, h => by simpa using h
  | e :: testCases, max_end, x, h => by
    rw [List.foldl_cons]
    refine le_foldl_max ?_
    rcases h with hle | ⟨e', he', hle⟩
    · exact .inl (hle.trans (le_max_left ..))
    · rcases List.mem_cons.1 he' with rfl | he'
      · exact .inl (hle.trans (le_max_right ..))
      · exact .inr ⟨e', he', hle⟩

/-- The basic primes are enough for every test case. -/
theorem main_eq (hne : testCases ≠ []) (h : ∀ e ∈ testCases, Limits e.1 e.2) :
    ∃ max, (∀ e ∈ testCases, e.2 ≤ max) ∧
      main testCases = testCases.mapM fun e => printPrime (primesIn 0 (Nat.sqrt max)) e.1 e.2 := by
  have hends : ∀ e ∈ testCases, (e.2 : ℤ) ≤ maxEnd testCases := fun e he =>
    le_foldl_max (.inr ⟨e, he, le_rfl⟩)
  obtain ⟨e, he⟩ := List.exists_mem_of_ne_nil _ hne
  have hpos := (h e he).pos
  have hle := (h e he).le
  have hend := hends e he
  refine ⟨(maxEnd testCases).toNat, fun e he => ?_, ?_⟩
  · have hend := hends e he
    omega
  · unfold main
    rw [if_neg (by omega), computeAllPrimes_eq (by omega)]
    rfl

theorem prints_iff {start end_ max : ℕ} (h : Limits start end_) (hmax : end_ ≤ max) :
    printPrime (primesIn 0 (Nat.sqrt max)) start end_ = some (primesIn start end_) ↔
      end_ % 2 = 1 := by
  refine ⟨fun hprint => ?_, printPrime_of_odd h.pos h.le hmax⟩
  have hpos := h.pos
  have hle := h.le
  by_contra hodd
  have heven : end_ % 2 = 0 := by omega
  by_cases hend : 4 ≤ end_
  · rw [printPrime_none hpos hle hmax heven hend] at hprint
    exact absurd hprint nofun
  · obtain rfl : end_ = 2 := by omega
    exact printPrime_two hpos hle hprint

/-- What is printed is right for all test cases if and only if every end is odd. -/
theorem main_iff (hne : testCases ≠ []) (h : ∀ e ∈ testCases, Limits e.1 e.2) :
    main testCases = some (testCases.map fun e => primesIn e.1 e.2) ↔
      ∀ e ∈ testCases, e.2 % 2 = 1 := by
  obtain ⟨max, hmax, hmain⟩ := main_eq hne h
  rw [hmain, Loop.mapM_eq_some_map_iff]
  exact forall₂_congr fun e he => prints_iff (h e he) (hmax e he)

theorem main_iff_two :
    main [(1, 11), (3, 5)] = some [[2, 3, 5, 7, 11], [3, 5]] := by
  have hlimits : ∀ e ∈ [(1, 11), (3, 5)], Limits e.1 e.2 := fun e he => by
    rcases List.mem_cons.1 he with rfl | he
    · exact ⟨by decide, by decide, by decide, by decide⟩
    · obtain rfl := List.mem_singleton.1 he
      exact ⟨by decide, by decide, by decide, by decide⟩
  exact ((main_iff (by decide) hlimits).2 (by decide)).trans (congrArg some (by decide))

end CPPCodes.Primes.Prime1
