import Mathlib.Data.List.Basic
import Mathlib.Order.Basic
import Mathlib.Order.Nat
import Mathlib.Tactic.Common

/-!
# Chunks of a fixed size

`FixSizeChunking` of FixedSizeChunking.h, and the loop of `CreateDedupHashes` over a range with it.
`Chunkify` goes on by the length of the range and not by the size, so the whole range is one chunk
(`chunkLoop_cons`), which is right only for a range no longer than the size (`law_iff`).
-/

namespace CPPCodes.Dedup

/-- The size is not initialised. -/
structure FixSizeChunking where
  size : Option UInt64 := none

namespace FixSizeChunking

def setMinChunkSize (algo : FixSizeChunking) (_unused : UInt64) : FixSizeChunking := algo

def setMaxChunkSize (algo : FixSizeChunking) (_unused : UInt64) : FixSizeChunking := algo

def setRecommendedChunkSize (_algo : FixSizeChunking) (size : UInt64) : FixSizeChunking :=
  { size := some size }

variable {C : Type}

def chunkify (algo : FixSizeChunking) (bytes : List C) : Option (ℕ × Bool) := do
  let size ← algo.size
  let s := bytes.length
  return if s < size.toNat then (bytes.length, false) else (s, true)

/-- The loop over a range from the last cut on, in at most `fuel` passes: the chunks that are ready
or end the range. -/
def chunkLoop (algo : FixSizeChunking) : ℕ → List C → Option (List (List C))
  | _, [] => some []
  | 0, _ :: _ => none
  | fuel + 1, c :: bytes => do
    let (stopped, ready) ← algo.chunkify (c :: bytes)
    let chunks ← chunkLoop algo fuel ((c :: bytes).drop stopped)
    return if ready ∨ stopped = (c :: bytes).length then (c :: bytes).take stopped :: chunks
      else chunks

/-- The chunks make up the range, each of the size but for what is left at the end. -/
structure Law (size : ℕ) (bytes : List C) (chunks : List (List C)) : Prop where
  flatten : chunks.flatten = bytes
  length : chunks.map List.length = List.replicate (bytes.length / size) size ++
    if bytes.length % size = 0 then [] else [bytes.length % size]

theorem chunkify_eq (algo : FixSizeChunking) (size : UInt64) (bytes : List C) :
    ∃ ready, (algo.setRecommendedChunkSize size).chunkify bytes = some (bytes.length, ready) := by
  by_cases hlt : bytes.length < size.toNat
  · exact ⟨false, congrArg some (if_pos hlt)⟩
  · exact ⟨true, congrArg some (if_neg hlt)⟩

/-- The loop makes one pass, and a range that is not empty is one chunk. -/
theorem chunkLoop_cons (algo : FixSizeChunking) (size : UInt64) (fuel : ℕ) (c : C)
    (bytes : List C) :
    chunkLoop (algo.setRecommendedChunkSize size) (fuel + 1) (c :: bytes) =
      some [c :: bytes] := by
  obtain ⟨ready, hchunk⟩ := chunkify_eq algo size (c :: bytes)
  have hrest : ∀ algo, chunkLoop algo fuel ([] : List C) = some [] := fun _ => by
    unfold chunkLoop
    rfl
  unfold chunkLoop
  rw [hchunk]
  simp [hrest]

theorem law_nil (size : ℕ) : Law size ([] : List C) [] := ⟨rfl, by simp⟩

theorem law_singleton_iff {size : ℕ} (hsize : 1 ≤ size) {bytes : List C} (hne : bytes ≠ []) :
    Law size bytes [bytes] ↔ bytes.length ≤ size := by
  have hpos := List.length_pos_of_ne_nil hne
  refine ⟨fun hlaw => ?_, fun hle => ⟨by simp, ?_⟩⟩
  · by_contra hlt
    have hlen := hlaw.length
    obtain ⟨k, hk⟩ : ∃ k, bytes.length / size = k + 1 :=
      Nat.exists_eq_succ_of_ne_zero (Nat.div_pos (by omega) hsize).ne'
    rw [hk, List.replicate_succ, List.cons_append, List.map_singleton] at hlen
    have hhead := (List.cons.inj hlen).1
    omega
  · rcases hle.lt_or_eq with hlt | heq
    · rw [Nat.div_eq_of_lt hlt, Nat.mod_eq_of_lt hlt, if_neg hpos.ne']
      rfl
    · rw [heq, Nat.div_self hsize, Nat.mod_self, List.map_singleton, heq]
      rfl

/-- The loop ends with chunks of the size exactly for a range that is no longer than it. -/
theorem law_iff (algo : FixSizeChunking) (size : UInt64) (hsize : 1 ≤ size.toNat)
    (bytes : List C) :
    (∃ fuel chunks, chunkLoop (algo.setRecommendedChunkSize size) fuel bytes = some chunks ∧
      Law size.toNat bytes chunks) ↔ bytes.length ≤ size.toNat := by
  rcases bytes with _ | ⟨c, bytes⟩
  · exact iff_of_true ⟨0, [], rfl, law_nil _⟩ (Nat.zero_le _)
  · rw [← law_singleton_iff hsize (List.cons_ne_nil c bytes)]
    constructor
    · rintro ⟨fuel, chunks, hloop, hlaw⟩
      rcases fuel with _ | fuel
      · exact absurd hloop (by simp [chunkLoop])
      · rw [chunkLoop_cons] at hloop
        obtain rfl := Option.some.inj hloop
        exact hlaw
    · exact fun hlaw => ⟨1, _, chunkLoop_cons algo size 0 c bytes, hlaw⟩

/-- Two bytes in chunks of two. -/
theorem law_iff_two : ∃ fuel chunks, chunkLoop (setRecommendedChunkSize {} 2) fuel [0, 1] =
    some chunks ∧ Law (2 : UInt64).toNat [0, 1] chunks :=
  (law_iff {} 2 (by decide) [0, 1]).2 (Nat.le_refl 2)

/-- Two bytes in chunks of one. -/
theorem not_law : chunkLoop (setRecommendedChunkSize {} 1) 1 [0, 1] = some [[0, 1]] ∧
    ¬ ∃ fuel chunks, chunkLoop (setRecommendedChunkSize {} 1) fuel [0, 1] = some chunks ∧
      Law (1 : UInt64).toNat [0, 1] chunks := by
  refine ⟨rfl, ?_⟩
  rintro ⟨fuel, chunks, hloop, hlaw⟩
  rcases fuel with _ | fuel
  · exact absurd hloop (by simp [chunkLoop])
  · rw [chunkLoop_cons] at hloop
    obtain rfl := Option.some.inj hloop
    exact absurd ((law_singleton_iff (Nat.le_refl 1) (by simp)).1 hlaw) (by decide)

end FixSizeChunking

end CPPCodes.Dedup
