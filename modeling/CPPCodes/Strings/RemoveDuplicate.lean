import CPPCodes.Lib.Loop
import Mathlib.Algebra.Order.Ring.Int
import Mathlib.Data.Nat.Find

/-!
# Two removers of duplicate characters

remove_duplicate.cpp. Both move the first occurrences to the front of the string that they read
(`Compacted`), and differ in how they tell that a character has been. The bit set has a character's
value as the index of its bit, which is beyond the set for a negative `char`. So they agree exactly
on the strings without one (`removers_agree_iff`).
-/

namespace CPPCodes.Strings.RemoveDuplicate

def toInt (c : Int8) : ℤ := c.toInt

/-- `std::find` among the first `wit` characters. -/
def find (str : List Int8) (wit : ℕ) (c : Int8) : ℕ := (str.take wit).idxOf c

/-- A turn of `RemoveDuplicateNoBuffer`, on the string and `wit`. -/
def noBufferTurn (s : List Int8 × ℕ) (rit : ℕ) : Option (List Int8 × ℕ) :=
  let (str, wit) := s
  str[rit]?.map fun c => if find str wit c = wit then (str.set wit c, wit + 1) else (str, wit)

def removeDuplicateNoBuffer (str : List Int8) : Option (List Int8) := do
  let (str, wit) ← (List.range str.length).foldlM noBufferTurn (str, 0)
  return str.take wit

/-- An `int` as a `size_t`. -/
def toSize (v : ℤ) : ℕ := (v % 2 ^ 64).toNat

/-- `test` of a bit set, which throws if there is no such bit. -/
def test (bits : BitVec 256) (v : ℤ) : Option Bool :=
  if toSize v < 256 then some (bits.getLsbD (toSize v)) else none

/-- `set` of a bit set. -/
def set (bits : BitVec 256) (v : ℤ) : Option (BitVec 256) :=
  if toSize v < 256 then some (bits ||| .twoPow 256 (toSize v)) else none

structure Scan where
  str : List Int8
  wit : ℕ
  bits : BitVec 256

/-- A turn of `RemoveDuplicate`. -/
def turn (s : Scan) (rit : ℕ) : Option Scan :=
  s.str[rit]?.bind fun c => (test s.bits (toInt c)).bind fun seen =>
    if seen then some s
    else (set s.bits (toInt c)).map fun bits =>
      { str := s.str.set s.wit c, wit := s.wit + 1, bits }

def removeDuplicate (str : List Int8) : Option (List Int8) := do
  let s ← (List.range str.length).foldlM turn { str, wit := 0, bits := 0 }
  return s.str.take s.wit

theorem eraseDups_concat (l : List Int8) (c : Int8) :
    (l ++ [c]).eraseDups = if c ∈ l then l.eraseDups else l.eraseDups ++ [c] := by
  rw [List.eraseDups_append]
  by_cases hc : c ∈ l <;> simp [List.removeAll, List.eraseDups_cons, hc]

/-- The buffer when `rit` characters of `str` have been read. -/
structure Compacted (str : List Int8) (rit : ℕ) (buf : List Int8) (wit : ℕ) : Prop where
  kept : buf.take wit = (str.take rit).eraseDups
  wit_le : wit ≤ rit
  rest : buf.drop rit = str.drop rit
  length : buf.length = str.length

namespace Compacted

variable {str buf : List Int8} {rit wit : ℕ}

theorem start (str : List Int8) : Compacted str 0 str 0 where
  kept := rfl
  wit_le := Nat.le_refl 0
  rest := rfl
  length := rfl

theorem read (h : Compacted str rit buf wit) (hrit : rit < str.length) :
    buf[rit]? = some str[rit] := by
  have hget := congrArg (·[0]?) h.rest
  simpa [hrit] using hget

theorem mem_kept (h : Compacted str rit buf wit) {c : Int8} :
    c ∈ buf.take wit ↔ c ∈ str.take rit := by
  rw [h.kept, List.mem_eraseDups]

theorem again (h : Compacted str rit buf wit) (hrit : rit < str.length)
    (hmem : str[rit] ∈ str.take rit) : Compacted str (rit + 1) buf wit where
  kept := by rw [h.kept, List.take_succ_eq_append_getElem hrit, eraseDups_concat, if_pos hmem]
  wit_le := Nat.le_succ_of_le h.wit_le
  rest := by rw [← List.drop_drop, h.rest, List.drop_drop]
  length := h.length

theorem first (h : Compacted str rit buf wit) (hrit : rit < str.length)
    (hmem : str[rit] ∉ str.take rit) :
    Compacted str (rit + 1) (buf.set wit str[rit]) (wit + 1) where
  kept := by
    have hlt : wit < buf.length := by
      rw [h.length]
      exact h.wit_le.trans_lt hrit
    rw [List.take_succ_eq_append_getElem hrit, eraseDups_concat, if_neg hmem, ← h.kept,
      List.take_succ_eq_append_getElem (by rwa [List.length_set]), List.getElem_set_self,
      List.take_set_of_le (Nat.le_refl wit)]
  wit_le := Nat.succ_le_succ h.wit_le
  rest := by
    have hlt : wit < rit + 1 := Nat.lt_succ_of_le h.wit_le
    rw [List.drop_set_of_lt hlt, ← List.drop_drop, h.rest, List.drop_drop]
  length := by rw [List.length_set, h.length]

theorem finish (h : Compacted str str.length buf wit) : buf.take wit = str.eraseDups := by
  rw [h.kept, List.take_length]

end Compacted

theorem find_eq_iff {str buf : List Int8} {rit wit : ℕ} (h : Compacted str rit buf wit)
    (hrit : rit < str.length) (c : Int8) : find buf wit c = wit ↔ c ∉ str.take rit := by
  have hlen : (buf.take wit).length = wit := by
    rw [List.length_take, h.length]
    exact Nat.min_eq_left (h.wit_le.trans hrit.le)
  rw [← h.mem_kept, ← List.idxOf_eq_length_iff, hlen, find]

theorem noBufferTurn_keeps {str : List Int8} {rit : ℕ} (hrit : rit < str.length) :
    Loop.Keeps (fun rit (s : List Int8 × ℕ) => Compacted str rit s.1 s.2) noBufferTurn rit := by
  rintro ⟨buf, wit⟩ h
  unfold noBufferTurn
  simp only [h.read hrit, Option.map_some]
  by_cases hmem : str[rit] ∈ str.take rit
  · rw [if_neg (mt (find_eq_iff h hrit _).1 (not_not_intro hmem))]
    exact ⟨_, rfl, h.again hrit hmem⟩
  · rw [if_pos ((find_eq_iff h hrit _).2 hmem)]
    exact ⟨_, rfl, h.first hrit hmem⟩

theorem removeDuplicateNoBuffer_eq (str : List Int8) :
    removeDuplicateNoBuffer str = some str.eraseDups := by
  obtain ⟨⟨buf, wit⟩, hrun, h⟩ := Loop.exists_foldlM_range (s := (str, 0)) (Compacted.start str)
    fun _ hrit => noBufferTurn_keeps hrit
  unfold removeDuplicateNoBuffer
  rw [hrun]
  exact congrArg some h.finish

theorem toSize_toInt {c : Int8} (hc : 0 ≤ toInt c) :
    toSize (toInt c) = (toInt c).toNat ∧ (toInt c).toNat < 256 := by
  have hlt : toInt c < 2 ^ 7 := c.toInt_lt
  refine ⟨congrArg Int.toNat (Int.emod_eq_of_lt hc (by omega)), by omega⟩

/-- The index of a negative character is beyond every bit set. -/
theorem le_toSize_toInt {c : Int8} (hc : toInt c < 0) : 256 ≤ toSize (toInt c) := by
  have hle : -2 ^ 7 ≤ toInt c := c.le_toInt
  unfold toSize
  omega

/-- The bits are those of the characters that have been read. -/
structure Scanned (str : List Int8) (rit : ℕ) (s : Scan) : Prop where
  compacted : Compacted str rit s.str s.wit
  bits : ∀ c, 0 ≤ toInt c → (s.bits.getLsbD (toInt c).toNat = true ↔ c ∈ str.take rit)

theorem Scanned.start (str : List Int8) : Scanned str 0 { str, wit := 0, bits := 0 } where
  compacted := .start str
  bits := fun c _ => by simp

theorem turn_keeps {str : List Int8} {rit : ℕ} (hrit : rit < str.length)
    (hc : 0 ≤ toInt str[rit]) : Loop.Keeps (Scanned str) turn rit := by
  rintro ⟨buf, wit, bits⟩ ⟨h, hbits⟩
  obtain ⟨hsize, hlt⟩ := toSize_toInt hc
  have htest : test bits (toInt str[rit]) = some (bits.getLsbD (toInt str[rit]).toNat) := by
    rw [test, hsize, if_pos hlt]
  have htake := List.take_succ_eq_append_getElem hrit
  unfold turn
  simp only [h.read hrit, Option.bind_some, htest]
  by_cases hmem : str[rit] ∈ str.take rit
  · rw [if_pos ((hbits _ hc).2 hmem)]
    refine ⟨_, rfl, h.again hrit hmem, fun d hd => ?_⟩
    rw [hbits d hd, htake, List.mem_append, List.mem_singleton]
    refine ⟨.inl, ?_⟩
    rintro (hmem' | rfl)
    · exact hmem'
    · exact hmem
  · rw [if_neg (mt (hbits _ hc).1 hmem), set, hsize, if_pos hlt]
    refine ⟨_, rfl, h.first hrit hmem, fun d hd => ?_⟩
    have heq : (toInt str[rit]).toNat = (toInt d).toNat ↔ d = str[rit] := by
      rw [← Int8.toInt_inj]
      unfold toInt at hc hd ⊢
      omega
    rw [BitVec.getLsbD_or, Bool.or_eq_true, hbits d hd, htake, List.mem_append, List.mem_singleton,
      BitVec.getLsbD_twoPow, decide_eq_true hlt, Bool.true_and, decide_eq_true_iff, heq]

theorem turn_eq_none {str : List Int8} {rit : ℕ} (hrit : rit < str.length)
    (hc : toInt str[rit] < 0) (s : Scan) (h : Scanned str rit s) : turn s rit = none := by
  have hle := le_toSize_toInt hc
  unfold turn
  rw [h.compacted.read hrit, Option.bind_some, test, if_neg (by omega), Option.bind_none]

/-- `RemoveDuplicate` completes exactly if no character is negative. -/
theorem removeDuplicate_spec (str : List Int8) :
    ((∀ c ∈ str, 0 ≤ toInt c) → removeDuplicate str = some str.eraseDups) ∧
      (¬ (∀ c ∈ str, 0 ≤ toInt c) → removeDuplicate str = none) := by
  unfold removeDuplicate
  constructor
  · intro hnonneg
    obtain ⟨s, hrun, h⟩ := Loop.exists_foldlM_range (Scanned.start str) fun rit hrit =>
      turn_keeps hrit (hnonneg _ (List.getElem_mem hrit))
    rw [hrun]
    exact congrArg some h.compacted.finish
  · intro hneg
    have hex : ∃ rit, ∃ hrit : rit < str.length, toInt str[rit] < 0 := by
      simpa [List.mem_iff_getElem] using hneg
    -- the first negative character ends the loop
    classical
    obtain ⟨hrit, hc⟩ := Nat.find_spec hex
    rw [Loop.foldlM_range_eq_none (Scanned.start str) (fun i hi => ?_) hrit (turn_eq_none hrit hc)]
    · rfl
    · have hlt := hi.trans hrit
      exact turn_keeps hlt (not_lt.1 fun hneg => Nat.find_min hex hi ⟨hlt, hneg⟩)

/-- Both complete and leave the first occurrences, in their order. -/
structure Agree (str : List Int8) : Prop where
  noBuffer : removeDuplicateNoBuffer str = some str.eraseDups
  bits : removeDuplicate str = some str.eraseDups

theorem removers_agree_iff (str : List Int8) : Agree str ↔ ∀ c ∈ str, 0 ≤ toInt c := by
  constructor
  · rintro ⟨-, hbits⟩
    by_contra hneg
    rw [(removeDuplicate_spec str).2 hneg] at hbits
    cases hbits
  · exact fun h => ⟨removeDuplicateNoBuffer_eq str, (removeDuplicate_spec str).1 h⟩

/-- The character 0xE9 is -23 as a `char`. -/
theorem not_removers_agree_e9 : ¬ ∀ str, Agree str := by
  intro h
  have hnone : removeDuplicate [-23] = none := by decide
  have hbits := (h [-23]).bits
  rw [hnone] at hbits
  cases hbits

end CPPCodes.Strings.RemoveDuplicate
