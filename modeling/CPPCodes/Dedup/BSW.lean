import CPPCodes.Dedup.Cut
import CPPCodes.Dedup.Settings
import Mathlib.Order.Bounds.Basic

/-!
# The basic sliding window

`BSW` of BSW.h. Its loop counts the bytes in front of the current one, so nothing shorter than the
smallest size and two bytes is cut off for its fingerprint, and nothing up to the largest size for
its length (`CutAt`). It cuts where it should exactly when no fingerprint is hit at one of the two
lengths that it passes over, and one is hit in time (`chunkify_law_iff`).
-/

namespace CPPCodes.Dedup

/-- The rolling hash that `BSW` is instantiated with, over windows of a length that is set. -/
structure SequenceHasher (σ C : Type) extends Hasher σ C where
  setSequenceLength : σ → UInt64 → σ

def kOneKB : UInt64 := 1024

def kOneMB : UInt64 := kOneKB * kOneKB

structure WindowSize where
  min : UInt64 := 512 * kOneKB
  max : UInt64 := 2 * kOneMB
  mask : UInt64 := kOneMB - 1

structure BSW (σ : Type) where
  hasher : σ
  size : WindowSize

namespace BSW

variable {σ C : Type}

def isPowerOfTwo (size : UInt64) : Bool := size &&& (size - 1) = 0

section Setters

variable (H : SequenceHasher σ C)

def new (hasher : σ) : BSW σ :=
  let size : WindowSize := {}
  { hasher := H.setSequenceLength hasher size.min, size }

def setMinChunkSize (algo : BSW σ) (size : UInt64) : Option (BSW σ) :=
  if isPowerOfTwo size then
    some { hasher := H.setSequenceLength algo.hasher size, size := { algo.size with min := size } }
  else none

def setMaxChunkSize (algo : BSW σ) (size : UInt64) : Option (BSW σ) :=
  if isPowerOfTwo size then some { algo with size := { algo.size with max := size } } else none

def setRecommendedChunkSize (algo : BSW σ) (size : UInt64) : Option (BSW σ) :=
  if isPowerOfTwo size then some { algo with size := { algo.size with mask := size - 1 } }
  else none

def set (algo : BSW σ) : Setting → Option (BSW σ)
  | .minChunkSize size => algo.setMinChunkSize H size
  | .maxChunkSize size => algo.setMaxChunkSize size
  | .recommendedChunkSize size => algo.setRecommendedChunkSize size

/-- `BSW` after the constructor and the calls of setters, of which none fails its assert. -/
def configure (hasher : σ) (settings : List Setting) : Option (BSW σ) :=
  settings.foldlM (set H) (new H hasher)

end Setters

variable (H : Hasher σ C)

/-- The loop of `Chunkify` from `it` on. It returns the pair of `Chunkify` and the hasher. -/
def chunkLoop (size : WindowSize) (stop : ℕ) :
    List C → σ → (it c : ℕ) → (ℕ × Bool) × σ
  | [], hasher, _, _ => ((stop, false), hasher)
  | byte :: bytes, hasher, it, c =>
    let (v, hasher) := H.update hasher byte
    if c ≤ size.min.toNat then chunkLoop size stop bytes hasher (it + 1) (c + 1)
    else if v &&& size.mask = 0 then ((it + 1, true), hasher)
    else if size.max.toNat ≤ c then ((it + 1, true), hasher)
    else chunkLoop size stop bytes hasher (it + 1) (c + 1)

def chunkify (algo : BSW σ) (bytes : List C) : (ℕ × Bool) × BSW σ :=
  let (res, hasher) := chunkLoop H algo.size bytes.length bytes (H.reset algo.hasher) 0 0
  (res, { algo with hasher })

end BSW

namespace WindowSize

variable (size : WindowSize) (hs : List UInt64)

/-- The masked fingerprint after `i` bytes is 0. -/
def Hit (i : ℕ) : Prop := 1 ≤ i ∧ ∃ v, hs[i - 1]? = some v ∧ v &&& size.mask = 0

/-- A length between the limits with a hit. -/
def Fits (i : ℕ) : Prop := size.min.toNat ≤ i ∧ i ≤ size.max.toNat ∧ size.Hit hs i

/-- How a chunk should end. -/
structure Law (stop : ℕ) : Prop where
  le_max : stop ≤ size.max.toNat
  min_le : size.min.toNat ≤ stop ∨ stop = hs.length
  hit : (∃ i, size.Fits hs i) → IsLeast {i | size.Fits hs i} stop
  max : (∀ i, ¬ size.Fits hs i) → size.max.toNat ≤ hs.length → stop = size.max.toNat
  stop : (∀ i, ¬ size.Fits hs i) → hs.length < size.max.toNat → stop = hs.length

/-- The loop ends after `i` bytes. -/
def Stops (i : ℕ) : Prop :=
  size.min.toNat + 2 ≤ i ∧ (size.Hit hs i ∨ size.max.toNat + 1 ≤ i)

/-- How the loop ends a chunk. -/
def CutAt (stop : ℕ) : Prop :=
  IsLeast {i | i ≤ hs.length ∧ size.Stops hs i} stop ∨
    (∀ i ≤ hs.length, ¬ size.Stops hs i) ∧ stop = hs.length

/-- There is no hit after the smallest size or one byte more, except at the end, and one between
there and the largest size unless the bytes end before. -/
def Harmless : Prop :=
  (∀ i < hs.length, size.Fits hs i → size.min.toNat + 2 ≤ i) ∧
    (hs.length ≤ size.max.toNat ∨ ∃ i, size.Fits hs i ∧ size.min.toNat + 2 ≤ i)

variable {size hs}

theorem Hit.le_length {i : ℕ} (h : size.Hit hs i) : i ≤ hs.length := by
  obtain ⟨hpos, v, hget, -⟩ := h
  have hlt := (List.getElem?_eq_some_iff.1 hget).1
  omega

/-- A hit that the loop sees stops it. -/
theorem Fits.stops {i : ℕ} (h : size.Fits hs i) (hmin : size.min.toNat + 2 ≤ i) :
    i ≤ hs.length ∧ size.Stops hs i := ⟨h.2.2.le_length, hmin, .inl h.2.2⟩

theorem Harmless.law (hl : size.Harmless hs) {stop : ℕ} (hc : size.CutAt hs stop) :
    size.Law hs stop := by
  obtain ⟨hskip, htime⟩ := hl
  rcases hc with ⟨⟨hle, hmin, hstop⟩, hleast⟩ | ⟨hno, rfl⟩
  · have hmax : stop ≤ size.max.toNat := by
      rcases htime with hend | ⟨i, hfits, hi⟩
      · exact hle.trans hend
      · exact (hleast (hfits.stops hi)).trans hfits.2.1
    have hfits : size.Fits hs stop := ⟨by omega, hmax, hstop.resolve_right (by omega)⟩
    refine ⟨hmax, .inl (by omega), fun _ => ⟨hfits, fun i hi => ?_⟩,
      fun hnone => absurd hfits (hnone _), fun hnone => absurd hfits (hnone _)⟩
    by_contra hlt
    exact hlt (hleast (hi.stops (hskip i (by omega) hi)))
  · have hmax : hs.length ≤ size.max.toNat := by
      refine htime.resolve_right ?_
      rintro ⟨i, hfits, hi⟩
      exact hno i hfits.2.2.le_length (hfits.stops hi).2
    have hend : ∀ i, size.Fits hs i → i = hs.length := by
      intro i hi
      by_contra hne
      have hle := hi.2.2.le_length
      exact hno i hle (hi.stops (hskip i (by omega) hi)).2
    refine ⟨hmax, .inr rfl, ?_, fun _ hle => by omega, fun _ _ => rfl⟩
    rintro ⟨i, hi⟩
    obtain rfl := hend i hi
    exact ⟨hi, fun j hj => (hend j hj).ge⟩

theorem Law.harmless {stop : ℕ} (hlaw : size.Law hs stop) (hc : size.CutAt hs stop) :
    size.Harmless hs := by
  have hlong : size.min.toNat + 2 ≤ stop ∨ stop = hs.length := by
    rcases hc with ⟨⟨-, hmin, -⟩, -⟩ | ⟨-, hend⟩
    · exact .inl hmin
    · exact .inr hend
  refine ⟨fun i hlt hi => ?_, ?_⟩
  · have hle := (hlaw.hit ⟨i, hi⟩).2 hi
    omega
  · by_contra hno
    obtain ⟨hlen, hnone⟩ := not_or.1 hno
    have hle := hlaw.le_max
    rcases hc with ⟨⟨-, hmin, hstop⟩, -⟩ | ⟨-, rfl⟩
    · exact hnone ⟨stop, ⟨by omega, hle, hstop.resolve_right (by omega)⟩, hmin⟩
    · exact hlen hle

end WindowSize

namespace BSW

open WindowSize

variable {σ C : Type} (H : Hasher σ C) {size : WindowSize}

/-- The loop in front of the byte behind `pre`, which it has not stopped in. -/
theorem chunkLoop_spec (s : σ) (all : List C) :
    ∀ pre bytes : List C, all = pre ++ bytes →
      (∀ i ≤ pre.length, ¬ size.Stops (H.hashes s all) i) →
      size.CutAt (H.hashes s all)
        (chunkLoop H size all.length bytes (H.feed s pre) pre.length pre.length).1.1
  | pre, [], hall, hno => by
    have hlen : (H.hashes s all).length = pre.length := by simp [hall]
    exact .inr ⟨hlen ▸ hno, by simp [chunkLoop]⟩
  | pre, c :: bytes, hall, hno => by
    have hget : (H.hashes s all)[pre.length]? = some (H.update (H.feed s pre) c).1 := by
      rw [hall, H.getElem?_hashes]
    have hall' : all = pre ++ [c] ++ bytes := by rw [hall, List.append_assoc]; rfl
    have hlen : pre.length + 1 ≤ (H.hashes s all).length := (List.getElem?_eq_some_iff.1 hget).1
    have hhit : size.Hit (H.hashes s all) (pre.length + 1) ↔
        (H.update (H.feed s pre) c).1 &&& size.mask = 0 := by
      simp [Hit, hget]
    -- the loop goes on
    have hnext : ¬ size.Stops (H.hashes s all) (pre.length + 1) →
        size.CutAt (H.hashes s all) (chunkLoop H size all.length bytes
          (H.update (H.feed s pre) c).2 (pre.length + 1) (pre.length + 1)).1.1 := by
      intro hgo
      have hno' : ∀ i ≤ (pre ++ [c]).length, ¬ size.Stops (H.hashes s all) i := by
        intro i hi
        rw [List.length_append, List.length_singleton] at hi
        rcases Nat.lt_succ_iff_lt_or_eq.1 (Nat.lt_succ_of_le hi) with hlt | rfl
        · exact hno i (by omega)
        · exact hgo
      have hloop := chunkLoop_spec s all (pre ++ [c]) bytes hall' hno'
      simpa [H.feed_concat] using hloop
    -- the loop stops here
    have hend : size.Stops (H.hashes s all) (pre.length + 1) →
        size.CutAt (H.hashes s all) (pre.length + 1) := by
      refine fun hstop => .inl ⟨⟨hlen, hstop⟩, fun i hi => ?_⟩
      by_contra hlt
      exact hno i (by omega) hi.2
    unfold chunkLoop
    simp only []
    split_ifs with hmin hzero hmax
    · exact hnext fun hstop => absurd hstop.1 (by omega)
    · exact hend ⟨by omega, .inl (hhit.2 hzero)⟩
    · exact hend ⟨by omega, .inr (by omega)⟩
    · exact hnext fun hstop => hstop.2.elim (fun h => hzero (hhit.1 h)) (by omega)

theorem chunkify_cutAt (algo : BSW σ) (bytes : List C) :
    algo.size.CutAt (H.hashes (H.reset algo.hasher) bytes) (chunkify H algo bytes).1.1 := by
  refine chunkLoop_spec H (H.reset algo.hasher) bytes [] bytes rfl fun i hi hstop => ?_
  have hlong := hstop.1
  rw [List.length_nil] at hi
  omega

/-- `Chunkify` keeps to the limits exactly on the bytes that do not hit the two lengths. -/
theorem chunkify_law_iff (algo : BSW σ) (bytes : List C) :
    algo.size.Law (H.hashes (H.reset algo.hasher) bytes) (chunkify H algo bytes).1.1 ↔
      algo.size.Harmless (H.hashes (H.reset algo.hasher) bytes) :=
  ⟨fun hlaw => hlaw.harmless (chunkify_cutAt H algo bytes),
    fun hharm => hharm.law (chunkify_cutAt H algo bytes)⟩

/-- With both limits at a byte, three bytes without a hit are one chunk. -/
theorem not_chunkify_law :
    ¬ ∀ (settings : List Setting) (algo : BSW Unit) (bytes : List UInt64),
      configure (⟨⟨id, fun s c => (c, s)⟩, fun s _ => s⟩ : SequenceHasher Unit UInt64) () settings =
        some algo → algo.size.min ≤ algo.size.max →
      algo.size.Law (Hasher.hashes ⟨id, fun s c => (c, s)⟩ algo.hasher bytes)
        (chunkify ⟨id, fun s c => (c, s)⟩ algo bytes).1.1 := by
  intro h
  have hlaw := h [.minChunkSize 1, .maxChunkSize 1] ⟨(), 1, 1, kOneMB - 1⟩ [1, 1, 1] rfl
    (UInt64.le_refl 1)
  have hle : 3 ≤ 1 := hlaw.le_max
  exact absurd hle (by omega)

end BSW

end CPPCodes.Dedup
