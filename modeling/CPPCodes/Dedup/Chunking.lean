import Mathlib.Data.Nat.Notation

/-!
# Chunks of a buffer

`TTTD` of tttd.h over any rolling hash, and the loops of `CreateDedupHashes` over a buffer and over
the buffers that a thread reads. An iterator is its distance from `begin`. A division by zero is
`none`.
-/

namespace CPPCodes.Dedup

/-- The rolling hash that `TTTD` is instantiated with: `Reset`, and `Update`, which returns the hash
value. -/
structure Hasher (σ C : Type) where
  reset : σ → σ
  update : σ → C → UInt64 × σ

structure ChunkSize where
  min : UInt64 := 8 * 1024
  max : UInt64 := 32 * 1024
  mainDivisor : UInt64 := 0
  backupDivisor : UInt64 := 0

structure TTTD (σ : Type) where
  hasher : σ
  chunkSize : ChunkSize

namespace TTTD

variable {σ C : Type}

def setMinChunkSize (algo : TTTD σ) (size : UInt64) : TTTD σ :=
  { algo with chunkSize := { algo.chunkSize with min := size } }

def setMaxChunkSize (algo : TTTD σ) (size : UInt64) : TTTD σ :=
  { algo with chunkSize := { algo.chunkSize with max := size } }

def setRecommendedChunkSize (algo : TTTD σ) (size : UInt64) : TTTD σ :=
  let m := size / 1015
  { algo with chunkSize :=
      { algo.chunkSize with mainDivisor := 540 * m, backupDivisor := 270 * m } }

def new (hasher : σ) : TTTD σ :=
  setRecommendedChunkSize { hasher, chunkSize := {} } (16 * 1024)

variable (H : Hasher σ C)

/-- The loop of `Chunkify` from `it` on. It returns the pair of `Chunkify` and the hasher. -/
def chunkLoop (size : ChunkSize) (stop : ℕ) :
    List C → σ → (it consumed backupIt : ℕ) → Option ((ℕ × Bool) × σ)
  | [], hasher, _, _, _ => some ((stop, false), hasher)
  | c :: bytes, hasher, it, consumed, backupIt =>
    let (hash, hasher) := H.update hasher c
    let consumed := consumed + 1
    if consumed < size.min.toNat then chunkLoop size stop bytes hasher (it + 1) consumed backupIt
    else if size.backupDivisor = 0 then none
    else
      let backupIt := if hash % size.backupDivisor = 0 then it else backupIt
      if size.mainDivisor = 0 then none
      else if hash % size.mainDivisor = 0 then some ((it + 1, true), hasher)
      else if consumed < size.max.toNat then
        chunkLoop size stop bytes hasher (it + 1) consumed backupIt
      else if backupIt ≠ stop then some ((backupIt + 1, true), hasher)
      else some ((it + 1, false), hasher)

def chunkify (algo : TTTD σ) (bytes : List C) : Option ((ℕ × Bool) × TTTD σ) :=
  (chunkLoop H algo.chunkSize bytes.length bytes (H.reset algo.hasher) 0 0 bytes.length).map
    fun (res, hasher) => (res, { algo with hasher })

end TTTD

variable {σ C : Type} (H : Hasher σ C)

/-- The settings of `CreateDedupHashes`. -/
def dedupAlgo (hasher : σ) : TTTD σ :=
  (((TTTD.new hasher).setMinChunkSize (512 * 1024)).setRecommendedChunkSize
    (1024 * 1024)).setMaxChunkSize (4 * 1024 * 1024)

/-- The loop of `CreateDedupHashes` over a buffer, in at most `fuel` passes: the chunks that it
hands to `NewChunkReady`. -/
def bufferLoop : ℕ → TTTD σ → List C → Option (List (List C) × TTTD σ)
  | _, algo, [] => some ([], algo)
  | 0, _, _ :: _ => none
  | fuel + 1, algo, c :: bytes =>
    match TTTD.chunkify H algo (c :: bytes) with
    | none => none
    | some ((stopped, ready), algo) =>
      match bufferLoop fuel algo ((c :: bytes).drop stopped) with
      | none => none
      | some (chunks, algo) =>
        if ready ∨ stopped = (c :: bytes).length then
          some ((c :: bytes).take stopped :: chunks, algo)
        else some (chunks, algo)

/-- `CreateDedupHashes` on the buffers that it reads: the chunks of each of them. No buffer takes
more passes than it has bytes. -/
def createDedupHashes : TTTD σ → List (List C) → Option (List (List (List C)))
  | _, [] => some []
  | algo, data :: buffers =>
    match bufferLoop H data.length algo data with
    | none => none
    | some (chunks, algo) => (createDedupHashes algo buffers).map (chunks :: ·)

end CPPCodes.Dedup
