import CPPCodes.Lib.Buckets

/-!
# Histograms

`Histogram` of main.cpp, whose counters are 32 bit wide. If a value is in exactly one of the ranges,
`IncrementRange` counts it there (`incrementRange_counted`), and it fails its assert if the value is
in none of them.
-/

namespace CPPCodes.Dedup

structure Range where
  start : UInt32
  end_ : UInt32

def Range.contains (range : Range) (v : UInt32) : Bool := range.start ≤ v ∧ v ≤ range.end_

/-- The ranges with their counters, `vec_`. -/
abbrev Histogram := List (Range × UInt32)

namespace Histogram

def new (ranges : List Range) : Histogram := ranges.map fun range => (range, 0)

/-- The loop of `IncrementRange`. It goes over the ranges from the back. -/
def incrementLoop (v : UInt32) : List (Range × UInt32) → Option (List (Range × UInt32))
  | [] => none
  | it :: rest =>
    if it.1.start ≤ v ∧ v ≤ it.1.end_ then some ((it.1, it.2 + 1) :: rest)
    else (incrementLoop v rest).map (it :: ·)

/-- `IncrementRange`, which asserts that there is a range for the value. -/
def incrementRange (hist : Histogram) (v : UInt32) : Option Histogram :=
  (incrementLoop v hist.reverse).map List.reverse

/-- The histogram of the values. -/
def counted (ranges : List Range) (vs : List UInt32) : Histogram :=
  ranges.map fun range => (range, UInt32.ofNat (vs.countP range.contains))

/-- The value is counted in the range that it is in. -/
def count (v : UInt32) (it : Range × UInt32) : Range × UInt32 :=
  (it.1, if it.1.contains v then it.2 + 1 else it.2)

theorem count_of_not_contains {v : UInt32} {it : Range × UInt32} (h : ¬ it.1.contains v) :
    count v it = it := by
  unfold count
  rw [if_neg h]

theorem incrementLoop_none {v : UInt32} : ∀ {hist : List (Range × UInt32)},
    hist.countP (fun it => it.1.contains v) = 0 → incrementLoop v hist = none
  | [], _ => rfl
  | it :: rest, h => by
    rw [List.countP_cons] at h
    have hit : ¬ it.1.contains v := fun hin => by simp [hin] at h
    have hit' : ¬ (it.1.start ≤ v ∧ v ≤ it.1.end_) := by simpa [Range.contains] using hit
    unfold incrementLoop
    rw [if_neg hit', incrementLoop_none (by omega)]
    rfl

theorem incrementLoop_some {v : UInt32} : ∀ {hist : List (Range × UInt32)},
    hist.countP (fun it => it.1.contains v) = 1 →
      incrementLoop v hist = some (hist.map (count v))
  | [], h => absurd h (by simp)
  | it :: rest, h => by
    rw [List.countP_cons] at h
    unfold incrementLoop
    by_cases hit : it.1.contains v
    · have hit' : it.1.start ≤ v ∧ v ≤ it.1.end_ := by simpa [Range.contains] using hit
      have hrest : rest.countP (fun it => it.1.contains v) = 0 := by
        rw [if_pos hit] at h
        omega
      have hsame : rest.map (count v) = rest := by
        refine (List.map_congr_left fun it' hmem => ?_).trans (List.map_id rest)
        exact count_of_not_contains (List.countP_eq_zero.1 hrest it' hmem)
      rw [if_pos hit', List.map_cons, hsame]
      unfold count
      rw [if_pos hit]
    · have hit' : ¬ (it.1.start ≤ v ∧ v ≤ it.1.end_) := by simpa [Range.contains] using hit
      rw [if_neg hit] at h
      rw [if_neg hit', incrementLoop_some h, List.map_cons, count_of_not_contains hit]
      rfl

theorem countP_counted (ranges : List Range) (vs : List UInt32) (v : UInt32) :
    (counted ranges vs).countP (fun it => it.1.contains v) =
      ranges.countP (fun range => range.contains v) := by
  unfold counted
  rw [List.countP_map]
  rfl

/-- One more value, which is in one of the ranges. -/
theorem incrementRange_counted {ranges : List Range} {v : UInt32}
    (h : ranges.countP (fun range => range.contains v) = 1) (vs : List UInt32) :
    incrementRange (counted ranges vs) v = some (counted ranges (vs ++ [v])) := by
  unfold incrementRange
  rw [incrementLoop_some (by rw [List.countP_reverse, countP_counted, h]), Option.map_some,
    List.map_reverse, List.reverse_reverse]
  unfold counted
  rw [List.map_map]
  refine congrArg some (List.map_congr_left fun range _ => ?_)
  simp only [Function.comp_apply, count, List.countP_append, List.countP_singleton]
  split_ifs with hin
  · rw [UInt32.ofNat_add]
    rfl
  · rfl

theorem incrementRange_none {ranges : List Range} {v : UInt32}
    (h : ranges.countP (fun range => range.contains v) = 0) (vs : List UInt32) :
    incrementRange (counted ranges vs) v = none := by
  unfold incrementRange
  rw [incrementLoop_none (by rw [List.countP_reverse, countP_counted, h])]
  rfl

/-- The counters of the histogram together. -/
def total (hist : Histogram) : ℕ := (hist.map fun it => it.2.toNat).sum

/-- The counters add up to the number of values exactly if none of them wraps. -/
theorem total_counted_iff {ranges : List Range} {vs : List UInt32}
    (h : ∀ v ∈ vs, ranges.countP (fun range => range.contains v) = 1) :
    (counted ranges vs).total = vs.length ↔
      ∀ range ∈ ranges, vs.countP range.contains < 2 ^ 32 := by
  have htotal : (counted ranges vs).total =
      ((ranges.map fun range => vs.countP range.contains).map (· % 2 ^ 32)).sum := by
    unfold total counted
    rw [List.map_map, List.map_map]
    rfl
  rw [htotal, ← Buckets.sum_countP Range.contains ranges vs h,
    Buckets.sum_mod_eq_iff (Nat.two_pow_pos 32), List.forall_mem_map]

/-- A value is in one of the ranges that follow one another, or outside. -/
theorem countP_contains {lo hi : ℕ} {ranges : List Range}
    (h : Buckets.Consecutive (·.start.toNat) (·.end_.toNat) lo ranges hi) (v : UInt32) :
    ranges.countP (fun range => range.contains v) =
      if lo ≤ v.toNat ∧ v.toNat < hi then 1 else 0 := by
  rw [← h.countP v.toNat]
  exact List.countP_congr fun range _ => by
    simp [Range.contains, UInt32.le_iff_toNat_le]

end Histogram

end CPPCodes.Dedup
