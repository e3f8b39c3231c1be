import CPPCodes.Lib.Arrangements
import CPPCodes.Lib.Loop
import Mathlib.Algebra.Order.Ring.Int

/-!
# All permutations of a string

Permituation.cpp. One string is changed in place: a call has the characters in front of `start`
fixed by its callers, brings each of the others to `start` in turn, and puts it back behind the call
for the rest (`permute_spec`). The indexes are integers: the permutations of a string with more
characters than an `int` counts could not be held anyway.
-/

namespace CPPCodes.Strings

open Arrangements

variable {α : Type}

/-- `std::swap` of two characters of a string; outside of it is `none`. -/
def swap (chars : List α) (s start : ℕ) : Option (List α) := do
  let a ← chars[s]?
  let b ← chars[start]?
  return (chars.set s b).set start a

/-- `Permute`: `result` and `chars` as it leaves them, in at most `fuel` calls inside each other. -/
def permute : (fuel : ℕ) → (result : List (List α)) → (chars : List α) → (start : ℕ) → (last : ℤ) →
    Option (List (List α) × List α)
  | 0, _, _, _, _ => none
  | fuel + 1, result, chars, start, last =>
    if start = last then some (result ++ [chars], chars)
    else
      (List.range' start (last + 1 - start).toNat).foldlM (fun (result, chars) s => do
        let chars ← swap chars s start
        let (result, chars) ← permute fuel result chars (start + 1) last
        let chars ← swap chars s start
        return (result, chars)) (result, chars)

/-- The call of `main`. -/
def permutations (fuel : ℕ) (result : List (List α)) (chars : List α) :
    Option (List (List α) × List α) :=
  permute fuel result chars 0 (chars.length - 1)

theorem swap_append (pre : List α) : ∀ {suf : List α} {k : ℕ}, k < suf.length →
    swap (pre ++ suf) (pre.length + k) pre.length = some (pre ++ toFront suf k)
  | a :: t, 0, _ => by simp [swap, toFront]
  | a :: t, k + 1, hk => by
    have hkt : k < t.length := Nat.lt_of_succ_lt_succ hk
    simp [swap, toFront, hkt]

/-- A call has the arrangements of what it finds from `start` on, and leaves that as it was. -/
theorem permute_spec : ∀ (n : ℕ) {fuel : ℕ} (result : List (List α)) (pre : List α) {suf : List α},
    suf.length = n + 1 → n < fuel →
    permute fuel result (pre ++ suf) pre.length (pre.length + n) =
      some (result ++ (arrangements (n + 1) suf).map (pre ++ ·), pre ++ suf)
  | 0, fuel + 1, result, pre, suf, hlen, _ => by
    obtain ⟨a, rfl⟩ := List.length_eq_one_iff.1 hlen
    unfold permute
    rw [if_pos (by simp)]
    rfl
  | n + 1, fuel + 1, result, pre, suf, hlen, hfuel => by
    have hturns : ((pre.length : ℤ) + (n + 1 : ℕ) + 1 - pre.length).toNat = n + 2 := by omega
    unfold permute
    rw [if_neg (by omega), hturns, List.range'_eq_map_range, List.foldlM_map]
    rw [Loop.foldlM_results
      (g := fun k => (behindHead (arrangements (n + 1)) (toFront suf k)).map (pre ++ ·))]
    · rw [← List.map_flatMap]
      rfl
    · intro k hk results
      rw [List.mem_range, ← hlen] at hk
      obtain ⟨rest, hfront, hperm⟩ := exists_toFront (List.getElem?_eq_getElem hk)
      have hrest : rest.length = n + 1 := by simpa [hlen] using hperm.length_eq
      have hswap : swap (pre ++ suf) (pre.length + k) pre.length =
          some (pre ++ suf[k] :: rest) := by
        rw [swap_append pre hk, hfront]
      have hback : swap (pre ++ suf[k] :: rest) (pre.length + k) pre.length =
          some (pre ++ suf) := by
        rw [swap_append pre (by rwa [hperm.length_eq]), ← hfront, toFront_toFront]
      have hcall := permute_spec n results (pre ++ [suf[k]]) hrest (Nat.lt_of_succ_lt_succ hfuel)
      have hlast : ((pre.length + 1 : ℕ) : ℤ) + n = pre.length + (n + 1 : ℕ) := by omega
      rw [← List.append_cons, List.length_append, List.length_singleton, hlast] at hcall
      simp only [hswap, hcall, hback, hfront, behindHead, List.map_map, Option.bind_eq_bind,
        Option.bind_some, Function.comp_def, List.append_assoc, List.singleton_append]
      rfl

/-- Every permutation of the positions is listed once, and `chars` is as it was. -/
theorem permutations_lists (chars : List α) (hne : chars ≠ []) (result : List (List α)) (fuel : ℕ)
    (hfuel : chars.length ≤ fuel) :
    ∃ listed, permutations fuel result chars = some (result ++ listed, chars) ∧
      listed.length = chars.length.factorial ∧
      listed.Perm ((List.finRange chars.length).permutations.map fun positions =>
        positions.map chars.get) ∧
      (chars.Nodup → listed.Nodup ∧ ∀ l, l ∈ listed ↔ l.Perm chars) := by
  obtain ⟨n, hn⟩ := Nat.exists_eq_succ_of_ne_zero (mt List.length_eq_zero_iff.1 hne)
  refine ⟨arrangements chars.length chars, ?_, ?_, ?_, fun hnodup => ?_⟩
  · have hrun := permute_spec n result [] hn (show n < fuel by omega)
    have hlast : (chars.length : ℤ) - 1 = ([] : List α).length + n := by simp [hn]
    rw [permutations, hlast]
    simpa [hn] using hrun
  · rw [(arrangements_perm chars).length_eq, List.length_permutations]
  · rw [List.map_permutations, List.map_get_finRange]
    exact arrangements_perm chars
  · exact ⟨nodup_arrangements rfl hnodup, fun l => mem_arrangements rfl⟩

theorem permutations_lists_three :
    ∃ listed, permutations 3 [] ['a', 'b', 'c'] = some ([] ++ listed, ['a', 'b', 'c']) ∧
      listed.length = Nat.factorial 3 ∧
      listed.Perm ((List.finRange 3).permutations.map fun positions =>
        positions.map ['a', 'b', 'c'].get) ∧
      (['a', 'b', 'c'].Nodup → listed.Nodup ∧ ∀ l, l ∈ listed ↔ l.Perm ['a', 'b', 'c']) :=
  permutations_lists ['a', 'b', 'c'] (by decide) [] 3 (by decide)

end CPPCodes.Strings
