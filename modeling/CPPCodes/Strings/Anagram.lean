import CPPCodes.Lib.Signed
import Mathlib.Data.List.Count
import Mathlib.Data.List.Induction
import Mathlib.Data.List.Sort

/-!
# Two tests for anagrams

anagram.cpp. Sorting and counting both tell whether two strings have each character equally often.
But a character is the index of its counter, a `char` may be negative, and a counter is an `int`. So
the tests agree exactly if neither happens (`tests_agree_iff`).
-/

namespace CPPCodes.Strings.Anagram

/-- `std::sort` of a string. -/
def sort (str : List Int8) : List Int8 := str.mergeSort fun a b => a ≤ b

def isAnagramUsingSort (s1 s2 : List Int8) : Bool := sort s1 == sort s2

def toInt (c : Int8) : ℤ := c.toInt

/-- `++counts[v]`; an element outside of the vector and an `int` beyond the largest are `none`. -/
def increment (counts : List ℤ) (v : ℤ) : Option (List ℤ) :=
  if v < 0 then none
  else counts[v.toNat]?.bind fun count => (Signed.checked 32 (count + 1)).map (counts.set v.toNat)

def getCharacterCount (str : List Int8) : Option (List ℤ) :=
  str.foldlM (fun counts c => increment counts (toInt c)) (List.replicate 256 0)

def isAnangram (s1 s2 : List Int8) : Option Bool := do
  let s1c ← getCharacterCount s1
  let s2c ← getCharacterCount s2
  return s1c == s2c

theorem pairwise_sort (str : List Int8) : (sort str).Pairwise (· ≤ ·) := by
  have hsorted : (sort str).Pairwise fun a b => decide (a ≤ b) = true := by
    refine List.pairwise_mergeSort (fun a b c hab hbc => ?_) (fun a b => ?_) str
    · exact decide_eq_true (Int8.le_trans (of_decide_eq_true hab) (of_decide_eq_true hbc))
    · rw [← Bool.decide_or]
      exact decide_eq_true (Int8.le_total a b)
  exact hsorted.imp of_decide_eq_true

theorem sort_eq_iff (s1 s2 : List Int8) : sort s1 = sort s2 ↔ s1.Perm s2 := by
  have hperm : ∀ str, (sort str).Perm str := fun str => List.mergeSort_perm str _
  constructor
  · intro heq
    exact (hperm s1).symm.trans (heq ▸ hperm s2)
  · intro h
    exact ((hperm s1).trans (h.trans (hperm s2).symm)).eq_of_pairwise
      (fun a b _ _ => Int8.le_antisymm) (pairwise_sort s1) (pairwise_sort s2)

theorem isAnagramUsingSort_iff (s1 s2 : List Int8) :
    isAnagramUsingSort s1 s2 = true ↔ s1.Perm s2 := by
  rw [isAnagramUsingSort, beq_iff_eq, sort_eq_iff]

/-- The counters, where each has its character's number. -/
def counted (str : List Int8) : List ℤ :=
  (List.range 256).map fun v : ℕ => (str.countP fun c => toInt c = v : ℕ)

/-- No character is negative, and an `int` has the number of each. -/
def Countable (str : List Int8) : Prop := ∀ c ∈ str, 0 ≤ toInt c ∧ str.count c < 2 ^ 31

theorem countable_concat (str : List Int8) (c : Int8) :
    Countable (str ++ [c]) ↔ Countable str ∧ 0 ≤ toInt c ∧ str.count c + 1 < 2 ^ 31 := by
  unfold Countable
  rw [List.forall_mem_append, List.forall_mem_singleton, List.count_append,
    List.count_singleton_self]
  constructor
  · rintro ⟨hstr, hc⟩
    refine ⟨fun d hd => ⟨(hstr d hd).1, ?_⟩, hc⟩
    have hcount := (hstr d hd).2
    rw [List.count_append] at hcount
    omega
  · rintro ⟨hstr, hc⟩
    refine ⟨fun d hd => ⟨(hstr d hd).1, ?_⟩, hc⟩
    rw [List.count_append]
    by_cases hdc : c = d
    · rw [← hdc, List.count_singleton_self]
      exact hc.2
    · rw [List.count_singleton, if_neg (by simpa using hdc)]
      exact (hstr d hd).2

theorem countP_toInt (str : List Int8) (c : Int8) :
    (str.countP fun d => toInt d = toInt c) = str.count c := by
  refine List.countP_congr fun d _ => ?_
  simp [toInt, Int8.toInt_inj]

theorem getElem?_counted (str : List Int8) {c : Int8} (hc : 0 ≤ toInt c) :
    (counted str)[(toInt c).toNat]? = some (str.count c : ℤ) := by
  have hlt : (toInt c).toNat < 256 := by
    have := c.toInt_lt
    unfold toInt
    omega
  rw [counted, List.getElem?_map, List.getElem?_range hlt, Option.map_some,
    Int.toNat_of_nonneg hc, countP_toInt]

theorem counted_concat (str : List Int8) (c : Int8) (hc : 0 ≤ toInt c) :
    (counted str).set (toInt c).toNat (str.count c + 1 : ℕ) = counted (str ++ [c]) := by
  refine List.ext_getElem ?_ fun v hv _ => ?_
  · simp only [counted, List.length_set, List.length_map]
  simp only [counted, List.getElem_set, List.getElem_map, List.getElem_range, List.countP_append,
    List.countP_singleton]
  by_cases hvc : (toInt c).toNat = v
  · have hv : (v : ℤ) = toInt c := by omega
    rw [if_pos hvc, hv, countP_toInt, if_pos (by simp)]
  · have hne : ¬ toInt c = v := by omega
    rw [if_neg hvc, if_neg (by simpa using hne), Nat.add_zero]

theorem increment_counted (str : List Int8) (c : Int8) : increment (counted str) (toInt c) =
    if 0 ≤ toInt c ∧ str.count c + 1 < 2 ^ 31 then some (counted (str ++ [c])) else none := by
  by_cases hneg : toInt c < 0
  · rw [increment, if_pos hneg, if_neg (fun h => absurd h.1 (not_le.2 hneg))]
  · have hc : 0 ≤ toInt c := not_lt.1 hneg
    have hfits : Signed.Fits 32 (str.count c + 1) ↔ str.count c + 1 < 2 ^ 31 := by
      unfold Signed.Fits
      omega
    rw [increment, if_neg hneg, getElem?_counted str hc, Option.bind_some]
    by_cases hcount : str.count c + 1 < 2 ^ 31
    · rw [if_pos ⟨hc, hcount⟩, Signed.checked_eq (hfits.2 hcount), Option.map_some,
        ← counted_concat str c hc, Nat.cast_succ]
    · have hchecked : Signed.checked 32 (str.count c + 1) = none := if_neg (mt hfits.1 hcount)
      rw [if_neg fun h => hcount h.2, hchecked, Option.map_none]

/-- The counting completes exactly on the countable strings. -/
theorem getCharacterCount_spec (str : List Int8) :
    (Countable str → getCharacterCount str = some (counted str)) ∧
      (¬ Countable str → getCharacterCount str = none) := by
  induction str using List.reverseRecOn with
  | nil =>
    refine ⟨fun _ => ?_, fun h => absurd (fun _ hc => absurd hc List.not_mem_nil) h⟩
    rw [getCharacterCount, List.foldlM_nil, Option.pure_def, counted]
    simp only [List.countP_nil, Nat.cast_zero, List.map_const', List.length_range]
  | append_singleton str c ih =>
    have hconcat : getCharacterCount (str ++ [c]) =
        (getCharacterCount str).bind fun counts => increment counts (toInt c) := by
      unfold getCharacterCount
      simp only [List.foldlM_append, List.foldlM_cons, List.foldlM_nil, Option.bind_eq_bind,
        Option.pure_def, Option.bind_fun_some]
    rw [countable_concat, hconcat]
    by_cases hstr : Countable str
    · rw [ih.1 hstr, Option.bind_some, increment_counted]
      exact ⟨fun h => if_pos h.2, fun h => if_neg fun hc => h ⟨hstr, hc⟩⟩
    · rw [ih.2 hstr, Option.bind_none]
      exact ⟨fun h => absurd h.1 hstr, fun _ => rfl⟩

theorem counted_eq_iff {s1 s2 : List Int8} (h1 : Countable s1) (h2 : Countable s2) :
    counted s1 = counted s2 ↔ s1.Perm s2 := by
  constructor
  · rw [List.perm_iff_count]
    intro heq c
    by_cases hc : 0 ≤ toInt c
    · have hget := getElem?_counted s1 hc
      rw [heq, getElem?_counted s2 hc, Option.some.injEq] at hget
      omega
    · rw [List.count_eq_zero.2 fun hmem => hc (h1 c hmem).1,
        List.count_eq_zero.2 fun hmem => hc (h2 c hmem).1]
  · intro hperm
    refine List.map_congr_left fun v _ => ?_
    rw [hperm.countP_eq]

/-- `IsAnangram` completes with the answer of the other test, which is right. -/
structure Agree (s1 s2 : List Int8) : Prop where
  same : isAnangram s1 s2 = some (isAnagramUsingSort s1 s2)
  right : isAnagramUsingSort s1 s2 = true ↔ s1.Perm s2

theorem tests_agree_iff (s1 s2 : List Int8) : Agree s1 s2 ↔ Countable s1 ∧ Countable s2 := by
  constructor
  · rintro ⟨hsame, -⟩
    unfold isAnangram at hsame
    by_cases h1 : Countable s1
    · refine ⟨h1, by_contra fun h2 => ?_⟩
      rw [(getCharacterCount_spec s1).1 h1, (getCharacterCount_spec s2).2 h2] at hsame
      cases hsame
    · rw [(getCharacterCount_spec s1).2 h1] at hsame
      cases hsame
  · rintro ⟨h1, h2⟩
    refine ⟨?_, isAnagramUsingSort_iff s1 s2⟩
    unfold isAnangram
    rw [(getCharacterCount_spec s1).1 h1, (getCharacterCount_spec s2).1 h2]
    refine congrArg some (Bool.eq_iff_iff.2 ?_)
    rw [beq_iff_eq, counted_eq_iff h1 h2, isAnagramUsingSort_iff]

/-- The character 0xE9 is -23 as a `char`. -/
theorem not_tests_agree_e9 : ¬ ∀ s1 s2, Agree s1 s2 := by
  intro h
  have hnone : isAnangram [-23] [-23] = none := rfl
  have hsame := (h [-23] [-23]).same
  rw [hnone] at hsame
  cases hsame

end CPPCodes.Strings.Anagram
