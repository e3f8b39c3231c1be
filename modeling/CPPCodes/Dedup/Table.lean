import Mathlib.Data.List.AList
import Mathlib.Algebra.BigOperators.Group.Finset.Basic
import Mathlib.Algebra.Order.BigOperators.Group.Finset
import Mathlib.Algebra.Order.Ring.Nat
import Mathlib.Tactic.Ring

/-!
# The table of hashes

`DedupTable`, whose reference counts are 32 bit wide. With a hash that is free of collisions the
table counts every chunk modulo 2^32 (`referAll_spec`), so the sizes in it add up to what was handed
over exactly when no chunk was handed over that often (`dataSize_iff`).
-/

namespace CPPCodes.Dedup

structure DedupData where
  size : ℕ
  refCnt : UInt32 := 1

def DedupData.referenceAdd (data : DedupData) : DedupData :=
  { data with refCnt := data.refCnt + 1 }

/-- The hashes with their data, no hash twice. -/
abbrev DedupTable := AList fun _ : String => DedupData

namespace DedupTable

/-- `HashRefer`, which asserts that a chunk of the same hash has the same size. -/
def hashRefer (table : DedupTable) (hash : String) (size : ℕ) : Option DedupTable :=
  match table.lookup hash with
  | none => some (table.insert hash { size })
  | some data => if data.size = size then some (table.insert hash data.referenceAdd) else none

/-- The sum of the sizes, each as often as it is referred to, that `DumpStats` adds up. -/
def dataSize (table : DedupTable) : ℕ :=
  (table.entries.map fun it => it.2.size * it.2.refCnt.toNat).sum

variable {α : Type} (newChunkReady : α → String) (size : α → ℕ)

/-- `HashRefer` for each of the chunks in turn, of which `size` is the distance of its ends. -/
def referAll (table : DedupTable) (chunks : List α) : Option DedupTable :=
  chunks.foldlM (fun table chunk => table.hashRefer (newChunkReady chunk) (size chunk)) table

variable [DecidableEq α]

/-- The table after `chunks`: the size and the count of each of them, and nothing else. -/
structure Counts (chunks : List α) (table : DedupTable) : Prop where
  lookup : ∀ chunk ∈ chunks, table.lookup (newChunkReady chunk) =
    some ⟨size chunk, UInt32.ofNat (chunks.count chunk)⟩
  mem : ∀ hash ∈ table, ∃ chunk ∈ chunks, newChunkReady chunk = hash

variable {newChunkReady size}

theorem Counts.empty : Counts newChunkReady size [] ∅ :=
  ⟨by simp, fun hash hmem => absurd hmem (AList.notMem_empty hash)⟩

theorem ofNat_succ (n : ℕ) : UInt32.ofNat (n + 1) = UInt32.ofNat n + 1 := by
  rw [UInt32.ofNat_add]
  rfl

/-- What `HashRefer` does to the table: one more of this chunk. -/
theorem Counts.hashRefer {chunks : List α} {table : DedupTable} {chunk : α}
    (h : Counts newChunkReady size chunks table)
    (hinj : Set.InjOn newChunkReady {c | c ∈ chunks ++ [chunk]}) :
    ∃ table', table.hashRefer (newChunkReady chunk) (size chunk) = some table' ∧
      Counts newChunkReady size (chunks ++ [chunk]) table' := by
  have hsame : ∀ c ∈ chunks, newChunkReady c = newChunkReady chunk → c = chunk :=
    fun c hc heq => hinj (by simp [hc]) (by simp) heq
  have hdata : ∃ data : DedupData, table.hashRefer (newChunkReady chunk) (size chunk) =
        some (table.insert (newChunkReady chunk) data) ∧
      data = ⟨size chunk, UInt32.ofNat (chunks.count chunk + 1)⟩ := by
    unfold DedupTable.hashRefer
    by_cases hmem : chunk ∈ chunks
    · rw [h.lookup chunk hmem]
      exact ⟨_, if_pos rfl, by rw [DedupData.referenceAdd, ofNat_succ]⟩
    · have hnone : table.lookup (newChunkReady chunk) = none := by
        refine AList.lookup_eq_none.2 fun hin => ?_
        obtain ⟨c, hc, heq⟩ := h.mem _ hin
        exact hmem (hsame c hc heq ▸ hc)
      rw [hnone]
      exact ⟨_, rfl, by rw [List.count_eq_zero.2 hmem]; rfl⟩
  obtain ⟨data, heq, rfl⟩ := hdata
  refine ⟨_, heq, fun c hc => ?_, fun hash hin => ?_⟩
  · by_cases hcc : c = chunk
    · rw [hcc, AList.lookup_insert, List.count_append, List.count_singleton_self]
    · have hc' : c ∈ chunks := (List.mem_append.1 hc).resolve_right (by simpa using hcc)
      rw [AList.lookup_insert_ne fun heq => hcc (hsame c hc' heq), h.lookup c hc',
        List.count_append, List.count_singleton, beq_false_of_ne (Ne.symm hcc)]
      rfl
  · rcases (AList.mem_insert _).1 hin with rfl | hin
    · exact ⟨chunk, by simp, rfl⟩
    · obtain ⟨c, hc, rfl⟩ := h.mem hash hin
      exact ⟨c, by simp [hc], rfl⟩

/-- A hash without collisions never fails the assert of `HashRefer`, and the table counts every
chunk. -/
theorem referAll_spec (chunks : List α) :
    Set.InjOn newChunkReady {c | c ∈ chunks} →
      ∃ table, referAll newChunkReady size ∅ chunks = some table ∧
        Counts newChunkReady size chunks table := by
  induction chunks using List.reverseRecOn with
  | nil => exact fun _ => ⟨∅, rfl, .empty⟩
  | append_singleton chunks chunk ih =>
    intro hinj
    obtain ⟨table, htable, hcounts⟩ := ih (hinj.mono fun c hc => List.mem_append_left _ hc)
    obtain ⟨table', hrefer, hcounts'⟩ := hcounts.hashRefer hinj
    refine ⟨table', ?_, hcounts'⟩
    unfold referAll at htable ⊢
    rw [List.foldlM_append, htable]
    simpa using hrefer

theorem Counts.entries_perm {chunks : List α} {table : DedupTable}
    (h : Counts newChunkReady size chunks table) (hinj : Set.InjOn newChunkReady {c | c ∈ chunks}) :
    table.entries.Perm (chunks.dedup.map fun c =>
      ⟨newChunkReady c, ⟨size c, UInt32.ofNat (chunks.count c)⟩⟩) := by
  refine (List.perm_ext_iff_of_nodup table.nodupKeys.nodup ?_).2 fun it => ?_
  · refine List.Nodup.map_on (fun c hc d hd heq => ?_) (List.nodup_dedup chunks)
    exact hinj (List.mem_dedup.1 hc) (List.mem_dedup.1 hd) (Sigma.mk.inj heq).1
  · obtain ⟨hash, data⟩ := it
    rw [← AList.mem_lookup_iff, List.mem_map]
    constructor
    · intro hlookup
      obtain ⟨c, hc, rfl⟩ := h.mem hash (AList.lookup_isSome.1 (by rw [hlookup]; rfl))
      refine ⟨c, List.mem_dedup.2 hc, ?_⟩
      rw [h.lookup c hc] at hlookup
      rw [Option.mem_some.1 hlookup]
    · rintro ⟨c, hc, heq⟩
      cases heq
      exact h.lookup c (List.mem_dedup.1 hc)

/-- The sum over the table is the size of all that was handed over exactly when no chunk was handed
over 2^32 times. -/
theorem Counts.dataSize_iff {chunks : List α} {table : DedupTable}
    (h : Counts newChunkReady size chunks table) (hinj : Set.InjOn newChunkReady {c | c ∈ chunks})
    (hpos : ∀ c ∈ chunks, 0 < size c) :
    table.dataSize = (chunks.map size).sum ↔ ∀ c, chunks.count c < 2 ^ 32 := by
  have hfin : chunks.toFinset = chunks.dedup.toFinset := by
    ext c
    simp
  have hsum : table.dataSize =
      ∑ c ∈ chunks.toFinset, size c * (chunks.count c % 2 ^ 32) := by
    unfold DedupTable.dataSize
    rw [((h.entries_perm hinj).map _).sum_eq, List.map_map, hfin,
      List.sum_toFinset _ (List.nodup_dedup chunks)]
    rfl
  have htotal : (chunks.map size).sum =
      ∑ c ∈ chunks.toFinset, size c * chunks.count c := by
    rw [Finset.sum_list_map_count]
    exact Finset.sum_congr rfl fun c _ => by rw [nsmul_eq_mul, mul_comm, Nat.cast_id]
  rw [hsum, htotal, Finset.sum_eq_sum_iff_of_le fun c _ =>
    Nat.mul_le_mul_left _ (Nat.mod_le _ _)]
  refine ⟨fun heq c => ?_, fun hlt c _ => by rw [Nat.mod_eq_of_lt (hlt c)]⟩
  by_cases hc : c ∈ chunks
  · have hmod := Nat.eq_of_mul_eq_mul_left (hpos c hc) (heq c (List.mem_toFinset.2 hc))
    rw [← hmod]
    exact Nat.mod_lt _ (by norm_num)
  · rw [List.count_eq_zero.2 hc]
    norm_num

end DedupTable

end CPPCodes.Dedup
