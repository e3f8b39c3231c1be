import CPPCodes.Strings.RollingHash

/-!
# Looking for a string in a text

`main` of RobinKarpStringMatch.cpp. A character behind the null character of a string is not
defined, nor is an `int` beyond the largest. Where the hashes agree the characters are compared, so
what is printed occurs, and the rolling hash misses nothing (`searchLoop_spec`). The first loop does
not look at the length of the text, so the search goes right exactly if the pattern is no more than
a character longer and an `int` can count the text (`search_iff`).
-/

namespace CPPCodes.Strings

open Dedup (INT_MAX)
open Dedup.KarpRabinHash (directHash)

/-- The operator `[]` of a string, with the null character behind the others. -/
def charAt (str : List UInt8) (i : ℕ) : Option UInt8 := (str ++ [0])[i]?

/-- `++` on an `int`. -/
def incr (i : ℕ) : Option ℕ := if i < INT_MAX then some (i + 1) else none

/-- A length as an `int`. -/
def toInt (n : ℕ) : ℤ := (BitVec.ofNat 32 n).toInt

section Main

-- `hasher` is the table that the constructor generates from the seed
variable (hasher : UInt8 → BitVec 32) (text match_ : List UInt8)

def getStringHash (str : List UInt8) : Option (BitVec 32) := do
  let h ← KarpRabinHash.new hasher (toInt str.length)
  return (h.eats str).hashValue

/-- The first loop, up to `in_index`. -/
def eatLoop (h : KarpRabinHash 32 UInt8) : (inIndex : ℕ) → Option (KarpRabinHash 32 UInt8)
  | 0 => some h
  | inIndex + 1 => do
    let h ← eatLoop h inIndex
    let c ← charAt text inIndex
    let _ ← incr inIndex
    return h.eat c

/-- The loop over the characters of the window, of which `n` are left: whether it is found. -/
def compareLoop : (n i j : ℕ) → Option Bool
  | 0, _, _ => some true
  | n + 1, i, j => do
    let c ← charAt text i
    let d ← charAt match_ j
    if c ≠ d then return false else compareLoop n (i + 1) (j + 1)

/-- Whether a pass finds the pattern. -/
def findAt (matchHash : BitVec 32) (h : KarpRabinHash 32 UInt8) (inIndex outIndex : ℕ) :
    Option Bool :=
  if h.hashValue = matchHash then compareLoop text match_ (inIndex - outIndex) outIndex 0
  else some false

/-- The hash for the next pass. -/
def updateAt (h : KarpRabinHash 32 UInt8) (inIndex outIndex : ℕ) :
    Option (KarpRabinHash 32 UInt8) :=
  if inIndex < text.length then do
    let out ← charAt text outIndex
    let in_ ← charAt text inIndex
    return h.update out in_
  else some h

/-- The second loop, in at most `fuel` passes: the indexes that it prints. -/
def searchLoop (matchHash : BitVec 32) :
    ℕ → (inIndex outIndex : ℕ) → KarpRabinHash 32 UInt8 → Option (List ℕ)
  | 0, _, _, _ => none
  | fuel + 1, inIndex, outIndex, h =>
    if inIndex ≤ text.length then do
      let found ← findAt text match_ matchHash h inIndex outIndex
      let h ← updateAt text h inIndex outIndex
      let inIndex ← incr inIndex
      let printed ← searchLoop matchHash fuel inIndex (outIndex + 1) h
      return if found then outIndex :: printed else printed
    else some []

/-- `main` for the two arguments. The second loop makes no more passes than the text has characters,
and one more. -/
def search : Option (List ℕ) := do
  let matchHash ← getStringHash hasher match_
  let h ← KarpRabinHash.new hasher (toInt match_.length)
  let h ← eatLoop text h match_.length
  searchLoop text match_ matchHash (text.length + 2) match_.length 0 h

/-- The pattern is in the text at `i`. -/
def Occurs (i : ℕ) : Prop :=
  i + match_.length ≤ text.length ∧ window text match_.length i = match_

instance (i : ℕ) : Decidable (Occurs text match_ i) := inferInstanceAs (Decidable (_ ∧ _))

/-- `main` prints where the pattern is, in order and each place once. -/
def Finds : Prop :=
  ∃ printed, search hasher text match_ = some printed ∧ printed.Pairwise (· < ·) ∧
    ∀ i, i ∈ printed ↔ Occurs text match_ i

end Main

variable {hasher : UInt8 → BitVec 32} {text match_ : List UInt8}

theorem toInt_of_le {n : ℕ} (h : n ≤ INT_MAX) : toInt n = n := by
  have hmax : INT_MAX = 2147483647 := rfl
  have hnat : (BitVec.ofNat 32 n).toNat = n := by
    rw [BitVec.toNat_ofNat, Nat.mod_eq_of_lt (by omega)]
  unfold toInt
  rw [BitVec.toInt_eq_toNat_of_lt (by omega), hnat]

theorem charAt_eq {str : List UInt8} {i : ℕ} (h : i < str.length) :
    charAt str i = some str[i] := by
  unfold charAt
  rw [List.getElem?_append_left h, List.getElem?_eq_getElem h]

theorem charAt_isSome_iff {str : List UInt8} {i : ℕ} :
    (charAt str i).isSome = true ↔ i ≤ str.length := by
  unfold charAt
  rw [← Option.ne_none_iff_isSome, Ne, List.getElem?_eq_none_iff, Nat.not_le, List.length_append,
    List.length_singleton, Nat.lt_succ_iff]

theorem incr_eq {i : ℕ} (h : i < INT_MAX) : incr i = some (i + 1) := if_pos h

theorem eatLoop_eq {h : KarpRabinHash 32 UInt8} : ∀ {n : ℕ}, n ≤ text.length → n ≤ INT_MAX →
    eatLoop text h n = some (h.eats (text.take n))
  | 0, _, _ => rfl
  | n + 1, hle, hmax => by
    unfold eatLoop
    rw [eatLoop_eq (by omega) (by omega), charAt_eq hle, incr_eq hmax]
    unfold KarpRabinHash.eats
    rw [List.take_add_one, List.getElem?_eq_getElem hle, List.foldl_append]
    rfl

/-- The first loop reads nothing behind the null character. -/
theorem eatLoop_isSome_iff {h : KarpRabinHash 32 UInt8} : ∀ {n : ℕ},
    (eatLoop text h n).isSome = true ↔ n ≤ text.length + 1 ∧ n ≤ INT_MAX
  | 0 => iff_of_true rfl ⟨Nat.zero_le _, Nat.zero_le _⟩
  | n + 1 => by
    have hrest : (eatLoop text h n).isSome = true ↔ _ := eatLoop_isSome_iff
    have hchar : (charAt text n).isSome = true ↔ _ := charAt_isSome_iff
    unfold eatLoop
    rcases hloop : eatLoop text h n with _ | h'
    · rw [hloop] at hrest
      have hno : ¬ (n ≤ text.length + 1 ∧ n ≤ INT_MAX) := fun hle => by simpa using hrest.2 hle
      exact iff_of_false (by simp) (by omega)
    · rw [hloop] at hrest
      obtain ⟨-, hn⟩ := hrest.1 rfl
      rcases hc : charAt text n with _ | c
      · rw [hc] at hchar
        have hno : ¬ n ≤ text.length := fun hle => by simpa using hchar.2 hle
        exact iff_of_false (by simp) (by omega)
      · rw [hc] at hchar
        have hle := hchar.1 rfl
        unfold incr
        split_ifs with hlt
        · exact iff_of_true rfl (by omega)
        · exact iff_of_false (by simp) (by omega)

theorem compareLoop_eq : ∀ {n i j : ℕ}, i + n ≤ text.length → j + n ≤ match_.length →
    compareLoop text match_ n i j =
      some (decide ((text.drop i).take n = (match_.drop j).take n))
  | 0, _, _, _, _ => by simp [compareLoop]
  | n + 1, i, j, hi, hj => by
    unfold compareLoop
    rw [charAt_eq (by omega), charAt_eq (by omega), List.drop_eq_getElem_cons (by omega : i < _),
      List.drop_eq_getElem_cons (by omega : j < _), List.take_succ_cons, List.take_succ_cons]
    by_cases hc : text[i] = match_[j]
    · have hrest : compareLoop text match_ n (i + 1) (j + 1) = _ :=
        compareLoop_eq (by omega) (by omega)
      simp [hc, hrest]
    · simp [hc]

/-- In a pass the pattern is found exactly if it occurs. -/
theorem findAt_eq {h : KarpRabinHash 32 UInt8} {matchHash : BitVec 32} {o : ℕ}
    (ho : o + match_.length ≤ text.length)
    (hmatch : matchHash.toNat = directHash hasher match_ % 2 ^ 19)
    (hh : h.Holds 19 match_.length hasher (window text match_.length o)) :
    findAt text match_ matchHash h (o + match_.length) o =
      some (decide (Occurs text match_ o)) := by
  unfold findAt
  rw [Nat.add_sub_cancel_left]
  split_ifs with hhash
  · rw [compareLoop_eq ho (by omega)]
    refine congrArg some (decide_eq_decide.2 ?_)
    rw [List.drop_zero, List.take_length]
    exact (and_iff_right ho).symm
  · have hno : ¬ Occurs text match_ o := by
      rintro ⟨-, heq⟩
      refine hhash (BitVec.eq_of_toNat_eq ?_)
      rw [hh.value, heq, hmatch]
    rw [decide_eq_false hno]

theorem updateAt_spec {h : KarpRabinHash 32 UInt8} {o : ℕ} (ho : o + match_.length ≤ text.length)
    (hh : h.Holds 19 match_.length hasher (window text match_.length o)) :
    ∃ h', updateAt text h (o + match_.length) o = some h' ∧
      (o + 1 + match_.length ≤ text.length →
        h'.Holds 19 match_.length hasher (window text match_.length (o + 1))) := by
  unfold updateAt
  split_ifs with hlt
  · rw [charAt_eq (by omega : o < _), charAt_eq hlt]
    refine ⟨_, rfl, fun hnext => hh.update (by omega) ?_ (length_window hnext)⟩
    exact window_concat (List.getElem?_eq_getElem _) (List.getElem?_eq_getElem _)
  · exact ⟨h, rfl, fun hnext => absurd hnext (by omega)⟩

theorem searchLoop_spec {matchHash : BitVec 32} (hmax : text.length < INT_MAX)
    (hmatch : matchHash.toNat = directHash hasher match_ % 2 ^ 19) :
    ∀ (fuel o : ℕ) (h : KarpRabinHash 32 UInt8),
      text.length + 2 ≤ o + match_.length + fuel → o + match_.length ≤ text.length + 1 →
      (o + match_.length ≤ text.length →
        h.Holds 19 match_.length hasher (window text match_.length o)) →
      searchLoop text match_ matchHash fuel (o + match_.length) o h =
        some ((List.range' o (text.length + 1 - (o + match_.length))).filter
          (Occurs text match_))
  | 0, o, h, hfuel, hle, _ => absurd hfuel (by omega)
  | fuel + 1, o, h, hfuel, hle, hh => by
    unfold searchLoop
    by_cases ho : o + match_.length ≤ text.length
    · obtain ⟨h', hnext, hh'⟩ := updateAt_spec ho (hh ho)
      have hrest := searchLoop_spec hmax hmatch fuel (o + 1) h' (by omega) (by omega) hh'
      have hadd : o + 1 + match_.length = o + match_.length + 1 := by omega
      have hcount : text.length + 1 - (o + match_.length) =
          text.length + 1 - (o + match_.length + 1) + 1 := by omega
      rw [hadd] at hrest
      rw [if_pos ho, findAt_eq ho hmatch (hh ho), hnext, incr_eq (by omega), hcount,
        List.range'_succ, List.filter_cons]
      simp only [Option.bind_eq_bind, Option.bind_some, hrest]
      rfl
    · have hzero : text.length + 1 - (o + match_.length) = 0 := by omega
      rw [if_neg ho, hzero]
      rfl

/-- The second loop counts past the end of the text. -/
theorem searchLoop_some {matchHash : BitVec 32} : ∀ {fuel inIndex outIndex : ℕ}
    {h : KarpRabinHash 32 UInt8} {printed : List ℕ},
    searchLoop text match_ matchHash fuel inIndex outIndex h = some printed →
      inIndex ≤ text.length → text.length < INT_MAX
  | 0, _, _, _, _, hrun, _ => nomatch hrun
  | fuel + 1, inIndex, outIndex, h, printed, hrun, hle => by
    unfold searchLoop at hrun
    rw [if_pos hle] at hrun
    obtain ⟨found, -, hrun⟩ := Option.bind_eq_some_iff.1 hrun
    obtain ⟨h', -, hrun⟩ := Option.bind_eq_some_iff.1 hrun
    obtain ⟨inIndex', hincr, hrun⟩ := Option.bind_eq_some_iff.1 hrun
    obtain ⟨printed', hrest, -⟩ := Option.bind_eq_some_iff.1 hrun
    unfold incr at hincr
    split_ifs at hincr with hlt
    obtain rfl := Option.some.inj hincr
    by_cases hnext : inIndex + 1 ≤ text.length
    · exact searchLoop_some hrest hnext
    · omega

theorem search_some {printed : List ℕ} (h : search hasher text match_ = some printed) :
    match_.length ≤ text.length + 1 ∧ text.length < INT_MAX := by
  unfold search at h
  obtain ⟨matchHash, -, h⟩ := Option.bind_eq_some_iff.1 h
  obtain ⟨h₀, -, h⟩ := Option.bind_eq_some_iff.1 h
  obtain ⟨h₁, heat, hrun⟩ := Option.bind_eq_some_iff.1 h
  obtain ⟨hle, hmax⟩ := eatLoop_isSome_iff.1 (Option.isSome_of_mem heat)
  by_cases hshort : match_.length ≤ text.length
  · exact ⟨hle, searchLoop_some hrun hshort⟩
  · exact ⟨hle, by omega⟩

theorem search_eq (hle : match_.length ≤ text.length + 1) (hmax : text.length < INT_MAX) :
    search hasher text match_ = some ((List.range' 0 (text.length + 1 - match_.length)).filter
      (Occurs text match_)) := by
  obtain ⟨h₀, hnew, hh⟩ : ∃ h, KarpRabinHash.new hasher match_.length = some h ∧
      h.Holds 19 match_.length hasher [] :=
    KarpRabinHash.new_holds hasher match_.length (by decide) (by decide)
  have hhash : (h₀.eats match_).hashValue.toNat = directHash hasher match_ % 2 ^ 19 :=
    (hh.eats (by decide) match_).value
  have hsome : (eatLoop text h₀ match_.length).isSome = true :=
    eatLoop_isSome_iff.2 ⟨hle, by omega⟩
  obtain ⟨h₁, heat⟩ := Option.isSome_iff_exists.1 hsome
  have hwindow : 0 + match_.length ≤ text.length →
      h₁.Holds 19 match_.length hasher (window text match_.length 0) := by
    intro hshort
    rw [eatLoop_eq (by omega) (by omega)] at heat
    obtain rfl := Option.some.inj heat
    exact hh.eats (by decide) (text.take match_.length)
  have hrun := searchLoop_spec hmax hhash (text.length + 2) 0 h₁ (by omega) (by omega) hwindow
  rw [Nat.zero_add] at hrun
  unfold search getStringHash
  rw [toInt_of_le (by omega), hnew]
  simp only [Option.bind_eq_bind, Option.bind_some, heat]
  exact hrun

/-- `main` finds the places of the pattern exactly if the pattern is at most a character longer than
the text, and the text is shorter than the largest `int`. -/
theorem search_iff (hasher : UInt8 → BitVec 32) (text match_ : List UInt8) :
    Finds hasher text match_ ↔
      match_.length ≤ text.length + 1 ∧ text.length < INT_MAX := by
  constructor
  · rintro ⟨printed, hsearch, -⟩
    exact search_some hsearch
  · rintro ⟨hle, hmax⟩
    refine ⟨_, search_eq hle hmax, List.Pairwise.filter _ List.pairwise_lt_range', fun i => ?_⟩
    rw [List.mem_filter, List.mem_range'_1, decide_eq_true_iff, and_iff_right_iff_imp]
    rintro ⟨hi, -⟩
    omega

/-- Two characters in an empty text: the first loop reads behind the null character. -/
theorem not_finds :
    ¬ ∀ (hasher : UInt8 → BitVec 32) (text match_ : List UInt8), Finds hasher text match_ := by
  intro h
  obtain ⟨printed, hsearch, -⟩ := h (fun _ => 0) [] [97, 98]
  exact absurd (search_some hsearch).1 (by decide)

end CPPCodes.Strings
