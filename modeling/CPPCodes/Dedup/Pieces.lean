import CPPCodes.Dedup.Cut
import CPPCodes.Dedup.Table
import CPPCodes.Lib.Interleave
import Mathlib.Data.Set.Function

/-!
# The chunks make up the buffer

`CreateDedupHashes` hands on what `Chunkify` cuts off only if it is ready or ends the buffer. So the
chunks make up the buffers that were read exactly when every one of them falls into pieces that
start where there is a break (`keepsData_iff`); otherwise a chunk is dropped.
-/

namespace CPPCodes.Dedup

open Merge ChunkSize

variable {σ C : Type} (H : Hasher σ C)

/-- The buffer falls into these pieces by the rule, and at the start of each of them there is a
break. The hasher is in the states at the start and at the end. -/
inductive Pieces (size : ChunkSize) : σ → List C → List (List C) → σ → Prop
  | nil (s : σ) : Pieces size s [] [] s
  | cons {s s' : σ} {data : List C} {stop fed : ℕ} {pieces : List (List C)} :
      data ≠ [] → size.Cut (H.hashes (H.reset s) data) stop fed →
      size.Breaks (H.hashes (H.reset s) data) →
      Pieces size (H.feed (H.reset s) (data.take fed)) (data.drop stop) pieces s' →
      Pieces size s data (data.take stop :: pieces) s'

/-- The pieces of each of the buffers that a thread reads. -/
inductive ThreadPieces (size : ChunkSize) : σ → List (List C) → List (List (List C)) → Prop
  | nil (s : σ) : ThreadPieces size s [] []
  | cons {s s' : σ} {data : List C} {buffers pieces : List (List C)}
      {rest : List (List (List C))} :
      Pieces H size s data pieces s' → ThreadPieces size s' buffers rest →
      ThreadPieces size s (data :: buffers) (pieces :: rest)

variable {H}

theorem Pieces.flatten {size : ChunkSize} {s s' : σ} {data : List C} {pieces : List (List C)}
    (h : Pieces H size s data pieces s') : pieces.flatten = data := by
  induction h with
  | nil => rfl
  | cons _ _ _ _ ih => rw [List.flatten_cons, ih, List.take_append_drop]

theorem ThreadPieces.flatten {size : ChunkSize} {s : σ} {buffers : List (List C)}
    {pieces : List (List (List C))} (h : ThreadPieces H size s buffers pieces) :
    pieces.map List.flatten = buffers := by
  induction h with
  | nil => rfl
  | cons hpieces _ ih => rw [List.map_cons, hpieces.flatten, ih]

/-- The loop over a buffer that falls into pieces hands on the pieces. -/
theorem Pieces.bufferLoop {algo : TTTD σ} (hv : algo.chunkSize.Valid) {s s' : σ} {data : List C}
    {pieces : List (List C)} (h : Pieces H algo.chunkSize s data pieces s') :
    ∀ fuel, data.length ≤ fuel →
      bufferLoop H fuel { algo with hasher := s } data =
        some (pieces, { algo with hasher := s' }) := by
  induction h with
  | nil => exact fun fuel _ => by unfold Dedup.bufferLoop; rfl
  | @cons s s' data stop fed pieces hne hcut hbreaks _ ih =>
    intro fuel hfuel
    obtain ⟨stop', ready, fed', hchunk, hcut', hready⟩ :=
      TTTD.chunkify_spec H { algo with hasher := s } hv data
    obtain ⟨rfl, rfl⟩ := hcut.unique hcut'
    have hend := hready.2 hbreaks
    rw [Hasher.length_hashes] at hend
    have hpos := hcut.stop_pos hv (by simpa using List.length_pos_of_ne_nil hne)
    obtain ⟨c, bytes, rfl⟩ := List.exists_cons_of_ne_nil hne
    obtain ⟨fuel, rfl⟩ : ∃ n, fuel = n + 1 := Nat.exists_eq_succ_of_ne_zero (by
      rw [List.length_cons] at hfuel
      omega)
    have hrest := ih fuel (by
      rw [List.length_drop]
      omega)
    unfold Dedup.bufferLoop
    rw [hchunk]
    simp only [hrest, if_pos hend]

/-- The loop over a buffer comes to an end. What it hands on is no more than the buffer, and all of
it only if the buffer falls into these pieces. -/
theorem bufferLoop_spec {algo : TTTD σ} (hv : algo.chunkSize.Valid) :
    ∀ (fuel : ℕ) (s : σ) (data : List C), data.length ≤ fuel →
      ∃ chunks s', bufferLoop H fuel { algo with hasher := s } data =
          some (chunks, { algo with hasher := s' }) ∧
        (∀ chunk ∈ chunks, 0 < chunk.length) ∧ chunks.flatten.length ≤ data.length ∧
        (chunks.flatten = data → Pieces H algo.chunkSize s data chunks s')
  | _, s, [], _ => ⟨[], s, by unfold bufferLoop; rfl, by simp, Nat.le_refl _, fun _ => .nil s⟩
  | 0, _, _ :: _, hfuel => absurd hfuel (by simp)
  | fuel + 1, s, c :: bytes, hfuel => by
    obtain ⟨stop, ready, fed, hchunk, hcut, hready⟩ :=
      TTTD.chunkify_spec H { algo with hasher := s } hv (c :: bytes)
    have hpos := hcut.stop_pos hv (by simp)
    have hle := hcut.stop_le
    rw [Hasher.length_hashes] at hready hle
    have hdrop : ((c :: bytes).drop stop).length + stop = (c :: bytes).length := by
      rw [List.length_drop]
      omega
    obtain ⟨chunks, s', hloop, hne, hlen, hpieces⟩ := bufferLoop_spec hv fuel
      (H.feed (H.reset s) ((c :: bytes).take fed)) ((c :: bytes).drop stop) (by omega)
    unfold bufferLoop
    rw [hchunk]
    simp only [hloop]
    split_ifs with hend
    · refine ⟨_, s', rfl, ?_, ?_, fun heq => ?_⟩
      · rintro chunk hmem
        rcases List.mem_cons.1 hmem with rfl | hmem
        · rw [List.length_take]
          omega
        · exact hne chunk hmem
      · rw [List.flatten_cons, List.length_append, List.length_take]
        omega
      · rw [List.flatten_cons] at heq
        refine .cons (by simp) hcut (hready.1 hend) (hpieces ?_)
        exact List.append_cancel_left (heq.trans (List.take_append_drop stop _).symm)
    · refine ⟨chunks, s', rfl, hne, by omega, fun heq => ?_⟩
      rw [heq] at hlen
      omega

theorem ThreadPieces.createDedupHashes {algo : TTTD σ} (hv : algo.chunkSize.Valid) {s : σ}
    {buffers : List (List C)} {pieces : List (List (List C))}
    (h : ThreadPieces H algo.chunkSize s buffers pieces) :
    createDedupHashes H { algo with hasher := s } buffers = some pieces := by
  induction h with
  | nil => rfl
  | cons hpieces _ ih =>
    unfold Dedup.createDedupHashes
    rw [hpieces.bufferLoop hv _ (Nat.le_refl _)]
    simp only [ih, Option.map_some]

theorem createDedupHashes_spec {algo : TTTD σ} (hv : algo.chunkSize.Valid) :
    ∀ (s : σ) (buffers : List (List C)),
      ∃ chunks, createDedupHashes H { algo with hasher := s } buffers = some chunks ∧
        (∀ chunk ∈ chunks.flatten, 0 < chunk.length) ∧
        (chunks.map List.flatten = buffers → ThreadPieces H algo.chunkSize s buffers chunks)
  | s, [] => ⟨[], rfl, by simp, fun _ => .nil s⟩
  | s, data :: buffers => by
    obtain ⟨chunks, s', hloop, hne, -, hpieces⟩ :=
      bufferLoop_spec (H := H) hv data.length s data (Nat.le_refl _)
    obtain ⟨rest, hrest, hne', hpieces'⟩ := createDedupHashes_spec hv s' buffers
    refine ⟨chunks :: rest, ?_, ?_, fun heq => ?_⟩
    · unfold createDedupHashes
      rw [hloop]
      simp only [hrest, Option.map_some]
    · intro chunk hmem
      rw [List.flatten_cons] at hmem
      exact (List.mem_append.1 hmem).elim (hne chunk) (hne' chunk)
    · obtain ⟨hdata, hbuffers⟩ := List.cons.inj heq
      exact .cons (hpieces hdata) (hpieces' hbuffers)

/-- The chunks of every buffer, one after the other, are the buffer. -/
def Kept (buffers : List (List C)) (chunks : List (List (List C))) : Prop :=
  chunks.map List.flatten = buffers

theorem Kept.sum_length {buffers : List (List C)} {chunks : List (List (List C))}
    (h : Kept buffers chunks) :
    (chunks.flatten.map List.length).sum = (buffers.map List.length).sum := by
  rw [← List.length_flatten, ← List.length_flatten, List.flatten_flatten, h]

variable {ι : Type} [Fintype ι] [DecidableEq ι] [DecidableEq C]

/-- The threads keep every buffer exactly when each of their buffers falls into pieces. In whatever
order their chunks get to the table, the table then adds up to all that was read exactly when no
piece is handed over 2^32 times as well. -/
theorem keepsData_iff (newChunkReady : List C → String) (algo : ι → TTTD σ)
    (hv : ∀ i, (algo i).chunkSize.Valid) (buffers : ι → List (List C)) :
    ∃ chunks : ι → List (List (List C)),
      (∀ i, createDedupHashes H (algo i) (buffers i) = some (chunks i)) ∧
      (∀ i, Kept (buffers i) (chunks i) ↔
        ∃ pieces, ThreadPieces H (algo i).chunkSize (algo i).hasher (buffers i) pieces) ∧
      ∀ calls, Interleave (fun i => (chunks i).flatten) calls →
        Set.InjOn newChunkReady {chunk | chunk ∈ calls} →
        ∃ table, DedupTable.referAll newChunkReady List.length ∅ calls = some table ∧
          ((∀ i, Kept (buffers i) (chunks i)) ∧
              table.dataSize = ∑ i, ((buffers i).map List.length).sum ↔
            ∃ pieces : ι → List (List (List C)),
              (∀ i, ThreadPieces H (algo i).chunkSize (algo i).hasher (buffers i) (pieces i)) ∧
              ∀ piece, times (fun i => (pieces i).flatten) piece < 2 ^ 32) := by
  choose chunks hchunks hne hpieces using fun i =>
    createDedupHashes_spec (H := H) (hv i) (algo i).hasher (buffers i)
  have hunique : ∀ i pieces, ThreadPieces H (algo i).chunkSize (algo i).hasher (buffers i) pieces →
      pieces = chunks i := fun i pieces hp =>
    Option.some.inj ((hp.createDedupHashes (hv i)).symm.trans (hchunks i))
  refine ⟨chunks, hchunks, fun i => ⟨fun hkept => ⟨_, hpieces i hkept⟩, ?_⟩, ?_⟩
  · rintro ⟨pieces, hp⟩
    exact hunique i pieces hp ▸ hp.flatten
  intro calls hcalls hinj
  obtain ⟨table, htable, hcounts⟩ : ∃ table,
      DedupTable.referAll newChunkReady List.length ∅ calls = some table ∧
        DedupTable.Counts newChunkReady List.length calls table :=
    DedupTable.referAll_spec calls hinj
  have hpos : ∀ chunk ∈ calls, 0 < chunk.length := fun chunk hmem => by
    obtain ⟨i, hi⟩ := hcalls.mem_iff.1 hmem
    exact hne i chunk hi
  have hsize := hcounts.dataSize_iff hinj hpos
  rw [hcalls.sum_map_eq] at hsize
  simp only [hcalls.count_eq] at hsize
  have htotal : (∀ i, Kept (buffers i) (chunks i)) →
      ∑ i, ((chunks i).flatten.map List.length).sum = ∑ i, ((buffers i).map List.length).sum :=
    fun hkept => Finset.sum_congr rfl fun i _ => (hkept i).sum_length
  refine ⟨table, htable, ?_, ?_⟩
  · rintro ⟨hkept, hsum⟩
    exact ⟨chunks, fun i => hpieces i (hkept i), hsize.1 (hsum.trans (htotal hkept).symm)⟩
  · rintro ⟨pieces, hp, htimes⟩
    obtain rfl : pieces = chunks := funext fun i => hunique i _ (hp i)
    have hkept : ∀ i, Kept (buffers i) (pieces i) := fun i => (hp i).flatten
    exact ⟨hkept, (hsize.2 htimes).trans (htotal hkept)⟩

/-- The hash value is the last byte. -/
def byteHasher : Hasher Unit UInt8 where
  reset := fun _ => ()
  update := fun _ c => (c.toUInt64, ())

/-- Chunks of one byte. -/
def byteAlgo : TTTD Unit where
  hasher := ()
  chunkSize := { min := 1, max := 1, mainDivisor := 2, backupDivisor := 2 }

theorem byteAlgo_valid : byteAlgo.chunkSize.Valid := ⟨by decide, by decide, by decide, by decide⟩

theorem byteAlgo_pieces :
    ThreadPieces byteHasher byteAlgo.chunkSize byteAlgo.hasher [[2, 4]] [[[2], [4]]] := by
  have hcut : ∀ (c : UInt8) (bytes : List UInt8), c.toUInt64 % 2 = 0 →
      byteAlgo.chunkSize.BreakAt (byteHasher.hashes () (c :: bytes)) 2 0 :=
    fun c bytes hzero => ⟨by decide, by decide, _, rfl, hzero⟩
  refine .cons (.cons (by simp) (.main (hcut 2 [4] rfl) (by simp)) (.inr ⟨0, .inl (hcut 2 [4] rfl)⟩)
    (.cons (by simp) (.main (hcut 4 [] rfl) (by simp)) (.inr ⟨0, .inl (hcut 4 [] rfl)⟩)
      (.nil ()))) (.nil ())

/-- A digest with no collision. -/
def byteDigest (chunk : List UInt8) : String :=
  String.ofList (chunk.map fun c => Char.ofNat c.toNat)

/-- Two threads that read the same two bytes. -/
theorem keepsData_iff_two :
    ∃ table, DedupTable.referAll byteDigest List.length ∅ [[2], [2], [4], [4]] = some table ∧
      table.dataSize = 4 := by
  obtain ⟨chunks, hchunks, -, hall⟩ := keepsData_iff (H := byteHasher) byteDigest
    (fun _ : Fin 2 => byteAlgo) (fun _ => byteAlgo_valid) (fun _ => [[2, 4]])
  obtain rfl : chunks = fun _ => [[[2], [4]]] :=
    funext fun i => (Option.some.inj (hchunks i)).symm
  have hcalls : Interleave (fun _ : Fin 2 => ([[[2], [4]]] : List (List (List UInt8))).flatten)
      [[2], [2], [4], [4]] :=
    .next (i := 0) rfl (.next (i := 1) rfl (.next (i := 0) rfl (.next (i := 1) rfl
      (.done (by decide)))))
  have hinj : Set.InjOn byteDigest {chunk | chunk ∈ [[2], [2], [4], [4]]} := by
    have hall : ∀ a ∈ [[2], [2], [4], [4]], ∀ b ∈ [[2], [2], [4], [4]],
        byteDigest a = byteDigest b → a = b := by decide
    exact fun a ha b hb heq => hall a ha b hb heq
  obtain ⟨table, htable, hkeeps⟩ := hall _ hcalls hinj
  exact ⟨table, htable, (hkeeps.2 ⟨_, fun _ => byteAlgo_pieces, fun piece =>
    Nat.lt_of_le_of_lt (times_le _ piece) (by decide)⟩).2⟩

/-- The first of the two chunks is dropped. -/
theorem not_keepsData : byteAlgo.chunkSize.Valid ∧
    createDedupHashes byteHasher byteAlgo [[1, 1]] = some [[[1]]] ∧
    ¬ Kept [[1, 1]] [[[(1 : UInt8)]]] :=
  ⟨byteAlgo_valid, rfl, by unfold Kept; decide⟩

end CPPCodes.Dedup
