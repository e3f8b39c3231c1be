import CPPCodes.Lib.Loop
import CPPCodes.Strings.RollingHash

/-!
# The hashes of a text

`main` of RobinKarpHashUser.cpp, with windows of three characters. It prints a hash behind each
`Update`, so that of the first window is missing, and each of the others is there (`main_hashes`).
-/

namespace CPPCodes.Strings.RobinKarpHashUser

open KarpRabinHash (Holds new_holds)
open Dedup.KarpRabinHash (directHash)

/-- The hasher, the index of `out_it`, and what is printed. -/
structure State where
  hasher : KarpRabinHash 32 UInt8
  out : ℕ
  printed : List (BitVec 32)

/-- A turn of the loop, with `in_it` at the index `i`. -/
def turn (text : List UInt8) (s : State) (i : ℕ) : Option State := do
  let in_ ← text[i]?
  if (i : ℤ) - s.out < 3 then return { s with hasher := s.hasher.eat in_ }
  else
    let out ← text[s.out]?
    let hasher := s.hasher.update out in_
    return { hasher, out := s.out + 1, printed := s.printed ++ [hasher.hashValue] }

/-- `main`, with the table that the constructor generates from the seed. -/
def main (table : UInt8 → BitVec 32) (text : List UInt8) : Option (List (BitVec 32)) := do
  let hasher ← KarpRabinHash.new table 3
  let s ← (List.range text.length).foldlM (turn text) { hasher, out := 0, printed := [] }
  return s.printed

/-- The last three characters of the first `i`, or all of them. -/
def last (text : List UInt8) (i : ℕ) : List UInt8 := (text.take i).drop (i - 3)

variable {table : UInt8 → BitVec 32} {text : List UInt8} {i : ℕ}

theorem last_eq_window (i : ℕ) : last text (i + 3) = window text 3 i := by
  unfold last window
  rw [Nat.add_sub_cancel, List.drop_take, Nat.add_sub_cancel_left]

theorem last_succ (hi : i < text.length) (hlt : i < 3) :
    last text (i + 1) = last text i ++ [text[i]] := by
  unfold last
  rw [Nat.sub_eq_zero_of_le (by omega), Nat.sub_eq_zero_of_le (by omega), List.drop_zero,
    List.drop_zero, List.take_succ_eq_append_getElem hi]

/-- In front of the turn for `i`. -/
structure Rolled (table : UInt8 → BitVec 32) (h : KarpRabinHash 32 UInt8) (text : List UInt8)
    (i : ℕ) (s : State) : Prop where
  holds : Holds 19 3 table (last text i) s.hasher
  out : s.out = i - 3
  printed : s.printed = (List.range (i - 3)).map fun j =>
    (h.eats (window text 3 (j + 1))).hashValue

theorem turn_keeps {h : KarpRabinHash 32 UInt8} (hh : Holds 19 3 table [] h) (hi : i < text.length) :
    Loop.Keeps (Rolled table h text) (turn text) i := by
  rintro s ⟨hholds, hout, hprinted⟩
  have hin : text[i]? = some text[i] := List.getElem?_eq_getElem hi
  unfold turn
  rw [hin, Option.bind_eq_bind, Option.bind_some]
  by_cases hlt : i < 3
  · rw [if_pos (by omega)]
    refine ⟨_, rfl, ?_, by simp only [hout]; omega, ?_⟩
    · rw [last_succ hi hlt]
      exact hholds.eat (by decide) _
    · have h0 : i - 3 = 0 := by omega
      have h1 : i + 1 - 3 = 0 := by omega
      rw [hprinted, h0, h1]
  · obtain ⟨j, rfl⟩ : ∃ j, i = j + 3 := ⟨i - 3, by omega⟩
    rw [Nat.add_sub_cancel] at hout hprinted
    have hget : text[s.out]? = some text[j] := by rw [hout, List.getElem?_eq_getElem]
    rw [if_neg (by omega), hget, Option.bind_some]
    rw [last_eq_window] at hholds
    have hnext : Holds 19 3 table (window text 3 (j + 1)) (s.hasher.update text[j] text[j + 3]) :=
      hholds.update (by decide) (window_concat (List.getElem?_eq_getElem _) hin)
        (length_window (by omega))
    have hfresh := hh.eats (by decide) (window text 3 (j + 1))
    have hvalue : (s.hasher.update text[j] text[j + 3]).hashValue =
        (h.eats (window text 3 (j + 1))).hashValue :=
      BitVec.eq_of_toNat_eq (hnext.value.trans hfresh.value.symm)
    have hsucc : j + 3 + 1 - 3 = j + 1 := by omega
    refine ⟨_, rfl, ?_, by simp only [hout]; omega, ?_⟩
    · rw [Nat.add_right_comm, last_eq_window]
      exact hnext
    · rw [hsucc, List.range_succ, List.map_append, ← hprinted, hvalue]
      rfl

/-- What is printed are the hashes of all windows but the first. -/
theorem main_hashes (table : UInt8 → BitVec 32) (text : List UInt8) : ∃ h,
    KarpRabinHash.new table 3 = some h ∧ main table text =
      some ((List.range (text.length - 3)).map fun j =>
        (h.eats (window text 3 (j + 1))).hashValue) := by
  have hwide : (19 : ℤ) ≤ (32 : ℕ) := by decide
  obtain ⟨h, hnew, hh⟩ := new_holds table 3 (by decide) hwide
  have hstart : Rolled table h text 0 { hasher := h, out := 0, printed := [] } := ⟨hh, rfl, rfl⟩
  obtain ⟨s, hrun, hs⟩ := Loop.exists_foldlM_range hstart fun i hi => turn_keeps hh hi
  have hnew' : KarpRabinHash.new table 3 = some h := hnew
  refine ⟨h, hnew', ?_⟩
  unfold main
  rw [hnew', Option.bind_eq_bind, Option.bind_some, hrun, Option.bind_eq_bind, Option.bind_some,
    hs.printed]
  rfl

end CPPCodes.Strings.RobinKarpHashUser
