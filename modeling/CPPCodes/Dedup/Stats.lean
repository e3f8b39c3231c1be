import CPPCodes.Dedup.Histogram
import CPPCodes.Dedup.Table
import Mathlib.Data.List.Induction

/-!
# The statistics of the table

`DumpStats`, over the data of the table in the order of the iteration. It comes to an end, with
histograms that add up to the number of hashes, exactly if no reference count is out of the ranges,
the sizes do not add up to 0 in 64 bits, and no counter of a histogram wraps (`dumped_iff`).
-/

namespace CPPCodes.Dedup

namespace DedupTable

def refRanges : List Range :=
  [⟨1, 1⟩, ⟨2, 2⟩, ⟨3, 3⟩, ⟨4, 4⟩, ⟨5, 5⟩, ⟨6, 6⟩, ⟨7, 7⟩, ⟨8, 8⟩, ⟨9, 9⟩, ⟨10, 100⟩,
    ⟨101, 1000⟩, ⟨1001, 10000⟩, ⟨10001, 100000⟩, ⟨100001, 1000000⟩, ⟨1000001, 10000000⟩]

def refCountHistogram : Histogram := .new refRanges

def sizeRanges : List Range :=
  [⟨0, 524287⟩, ⟨524288, 1048576⟩, ⟨1048577, 1572864⟩, ⟨1572865, 2097152⟩, ⟨2097153, 2621440⟩,
    ⟨2621441, 3145728⟩, ⟨3145729, 3670016⟩, ⟨3670017, 4194304⟩, ⟨4194305, 4718593⟩]

def sizeHistogram : Histogram := .new sizeRanges

/-- The variables of `DumpStats`. -/
structure Stats where
  histRef : Histogram := refCountHistogram
  histSize : Histogram := sizeHistogram
  min : UInt32 := 0xFFFFFFFF
  max : UInt32 := 0
  nonOne : UInt32 := 0
  onlyOne : UInt32 := 0
  dataSize : UInt64 := 0
  dataSizeAfterDedup : UInt64 := 0

/-- A turn of the loop. The size is cut to 32 bits for its histogram. -/
def Stats.add (stats : Stats) (data : DedupData) : Option Stats := do
  let ref := data.refCnt
  let histRef ← stats.histRef.incrementRange ref
  let histSize ← stats.histSize.incrementRange (UInt32.ofNat data.size)
  let s := UInt64.ofNat data.size
  return {
    histRef, histSize
    min := if ref < stats.min then ref else stats.min
    max := if stats.max < ref then ref else stats.max
    nonOne := if 1 < ref then stats.nonOne + 1 else stats.nonOne
    onlyOne := if 1 < ref then stats.onlyOne else stats.onlyOne + 1
    dataSize := stats.dataSize + s * ref.toUInt64
    dataSizeAfterDedup := stats.dataSizeAfterDedup + s }

/-- What `DumpStats` prints. -/
structure Report where
  totalHashes : ℕ
  min : UInt32
  max : UInt32
  nonOne : UInt32
  onlyOne : UInt32
  processedSize : UInt64
  sizeAfterDedup : UInt64
  dedup : UInt64
  histRef : Histogram
  histSize : Histogram

/-- `DumpStats`. A failed assert and a division by 0 are `none`. -/
def dumpStats (entries : List DedupData) : Option Report := do
  let stats ← entries.foldlM Stats.add {}
  if stats.dataSize = 0 then none
  else
    return {
      totalHashes := entries.length
      min := stats.min
      max := stats.max
      nonOne := stats.nonOne
      onlyOne := stats.onlyOne
      processedSize := stats.dataSize / 1024 / 1024
      sizeAfterDedup := stats.dataSizeAfterDedup / 1024 / 1024
      dedup := 100 - 100 * stats.dataSizeAfterDedup / stats.dataSize
      histRef := stats.histRef
      histSize := stats.histSize }

/-- The value is in exactly one of the ranges. -/
def InOne (ranges : List Range) (v : UInt32) : Prop :=
  ranges.countP (fun range => range.contains v) = 1

instance (ranges : List Range) (v : UInt32) : Decidable (InOne ranges v) :=
  inferInstanceAs (Decidable (_ = 1))

/-- `DumpStats` comes to an end, every value is in one range, and the histograms add up. -/
def Dumped (entries : List DedupData) : Prop :=
  ∃ report, dumpStats entries = some report ∧
    (∀ data ∈ entries, InOne refRanges data.refCnt ∧
      InOne sizeRanges (UInt32.ofNat data.size)) ∧
    report.histRef.total = entries.length ∧ report.histSize.total = entries.length

/-- What the table must be like: the counts are in the ranges, the sizes do not add up to a multiple
of 2^64 (nor to 0), and no range has 2^32 hashes. -/
structure Dumpable (table : DedupTable) : Prop where
  refCnt : ∀ it ∈ table.entries, 1 ≤ it.2.refCnt.toNat ∧ it.2.refCnt.toNat ≤ 10000000
  dataSize : ¬ 2 ^ 64 ∣ table.dataSize
  histRef : ∀ range ∈ refRanges,
    table.entries.countP (fun it => range.contains it.2.refCnt) < 2 ^ 32
  histSize : ∀ range ∈ sizeRanges,
    table.entries.countP (fun it => range.contains (UInt32.ofNat it.2.size)) < 2 ^ 32

theorem refRanges_consecutive :
    Buckets.Consecutive (fun range : Range => range.start.toNat) (fun range => range.end_.toNat) 1
      refRanges 10000001 := by decide

theorem sizeRanges_consecutive :
    Buckets.Consecutive (fun range : Range => range.start.toNat) (fun range => range.end_.toNat) 0
      sizeRanges 4718594 := by decide

theorem inOne_refRanges {v : UInt32} :
    InOne refRanges v ↔ 1 ≤ v.toNat ∧ v.toNat ≤ 10000000 := by
  unfold InOne
  rw [Histogram.countP_contains refRanges_consecutive]
  split_ifs with hin
  · exact iff_of_true rfl ⟨hin.1, Nat.le_of_lt_succ hin.2⟩
  · exact iff_of_false (by simp) fun h => hin ⟨h.1, Nat.lt_succ_of_le h.2⟩

theorem countP_refRanges {v : UInt32} (h : ¬ InOne refRanges v) :
    refRanges.countP (fun range => range.contains v) = 0 := by
  unfold InOne at h
  rw [Histogram.countP_contains refRanges_consecutive] at h ⊢
  split_ifs at h ⊢ with hin
  · exact absurd rfl h
  · rfl

theorem inOne_sizeRanges {size : ℕ} (h : size ≤ 4 * 1024 * 1024) :
    InOne sizeRanges (UInt32.ofNat size) := by
  have hsize : (UInt32.ofNat size).toNat = size := by
    rw [UInt32.toNat_ofNat', Nat.mod_eq_of_lt (by omega)]
  unfold InOne
  rw [Histogram.countP_contains sizeRanges_consecutive, hsize, if_pos (by omega)]

/-- What the loop has added up after the entries. -/
structure Tallied (entries : List DedupData) (stats : Stats) : Prop where
  histRef : stats.histRef = .counted refRanges (entries.map DedupData.refCnt)
  histSize : stats.histSize =
    .counted sizeRanges (entries.map fun data => UInt32.ofNat data.size)
  dataSize : stats.dataSize =
    UInt64.ofNat (entries.map fun data => data.size * data.refCnt.toNat).sum

theorem Tallied.start : Tallied [] {} := ⟨rfl, rfl, rfl⟩

theorem Tallied.add {entries : List DedupData} {stats : Stats} (h : Tallied entries stats)
    {data : DedupData} (href : InOne refRanges data.refCnt)
    (hsize : InOne sizeRanges (UInt32.ofNat data.size)) :
    ∃ stats', stats.add data = some stats' ∧ Tallied (entries ++ [data]) stats' := by
  have hincRef := Histogram.incrementRange_counted href (entries.map DedupData.refCnt)
  have hincSize := Histogram.incrementRange_counted hsize
    (entries.map fun data => UInt32.ofNat data.size)
  rw [← h.histRef] at hincRef
  rw [← h.histSize] at hincSize
  unfold Stats.add
  simp only [hincRef, hincSize, Option.bind_eq_bind, Option.bind_some]
  refine ⟨_, rfl, ?_, ?_, ?_⟩
  · rw [List.map_append]
    rfl
  · rw [List.map_append]
    rfl
  · rw [List.map_append, List.sum_append, UInt64.ofNat_add, ← h.dataSize]
    simp [UInt64.ofNat_mul]

theorem Tallied.add_none {entries : List DedupData} {stats : Stats} (h : Tallied entries stats)
    {data : DedupData} (href : ¬ InOne refRanges data.refCnt) : stats.add data = none := by
  have hnone := Histogram.incrementRange_none (countP_refRanges href)
    (entries.map DedupData.refCnt)
  rw [← h.histRef] at hnone
  unfold Stats.add
  simp only [hnone]
  rfl

/-- The loop over entries whose sizes are in the ranges. -/
theorem Tallied.loop : ∀ {entries pre : List DedupData} {stats : Stats}, Tallied pre stats →
    (∀ data ∈ entries, InOne sizeRanges (UInt32.ofNat data.size)) →
      if ∀ data ∈ entries, InOne refRanges data.refCnt then
        ∃ stats', entries.foldlM Stats.add stats = some stats' ∧ Tallied (pre ++ entries) stats'
      else entries.foldlM Stats.add stats = none
  | [], pre, stats, h, _ => by
    rw [if_pos (by simp)]
    exact ⟨stats, rfl, by rwa [List.append_nil]⟩
  | data :: entries, pre, stats, h, hsizes => by
    rw [List.foldlM_cons]
    by_cases href : InOne refRanges data.refCnt
    · obtain ⟨stats', hadd, h'⟩ := h.add href (hsizes data (by simp))
      have hrest : ∀ data ∈ entries, InOne sizeRanges (UInt32.ofNat data.size) :=
        fun data hmem => hsizes data (List.mem_cons_of_mem _ hmem)
      have hloop := h'.loop hrest
      rw [hadd, Option.bind_eq_bind, Option.bind_some]
      simpa [href] using hloop
    · rw [h.add_none href, if_neg fun hall => href (hall data (by simp))]
      rfl

/-- What holds of the sizes of all calls holds of the sizes in the table. -/
theorem hashRefer_size {P : ℕ → Prop} {table table' : DedupTable} {hash : String} {size : ℕ}
    (h : table.hashRefer hash size = some table') (hsize : P size)
    (htable : ∀ hash data, table.lookup hash = some data → P data.size) :
    ∀ hash data, table'.lookup hash = some data → P data.size := by
  have hinsert : ∀ new : DedupData, P new.size → ∀ key data,
      (table.insert hash new).lookup key = some data → P data.size := by
    intro new hnew key data hlookup
    by_cases hkey : key = hash
    · rw [hkey, AList.lookup_insert] at hlookup
      exact Option.some.inj hlookup ▸ hnew
    · rw [AList.lookup_insert_ne hkey] at hlookup
      exact htable key data hlookup
  unfold hashRefer at h
  split at h
  · exact Option.some.inj h ▸ hinsert _ hsize
  · split_ifs at h with heq
    exact Option.some.inj h ▸ hinsert _ (heq ▸ hsize)

theorem referAll_size {P : ℕ → Prop} {α : Type} {newChunkReady : α → String} {size : α → ℕ} :
    ∀ {calls : List α} {table table' : DedupTable},
      referAll newChunkReady size table calls = some table' → (∀ call ∈ calls, P (size call)) →
      (∀ hash data, table.lookup hash = some data → P data.size) →
      ∀ hash data, table'.lookup hash = some data → P data.size
  | [], _, _, h, _, htable => Option.some.inj h ▸ htable
  | call :: calls, table, _, h, hcalls, htable => by
    unfold referAll at h
    rw [List.foldlM_cons] at h
    obtain ⟨table₁, hrefer, hrest⟩ := Option.bind_eq_some_iff.1 h
    refine referAll_size hrest (fun call hmem => hcalls call (List.mem_cons_of_mem _ hmem)) ?_
    exact hashRefer_size hrefer (hcalls call List.mem_cons_self) htable

theorem ofNat_eq_zero_iff (n : ℕ) : UInt64.ofNat n = 0 ↔ 2 ^ 64 ∣ n := by
  rw [← UInt64.toNat_inj, UInt64.toNat_ofNat', Nat.dvd_iff_mod_eq_zero]
  rfl

theorem Dumpable.of_perm {table : DedupTable} {entries : List DedupData}
    (hperm : entries.Perm (table.entries.map Sigma.snd)) :
    table.Dumpable ↔ (∀ data ∈ entries, InOne refRanges data.refCnt) ∧
      UInt64.ofNat (entries.map fun data => data.size * data.refCnt.toNat).sum ≠ 0 ∧
      (∀ range ∈ refRanges, (entries.map DedupData.refCnt).countP range.contains < 2 ^ 32) ∧
      ∀ range ∈ sizeRanges,
        (entries.map fun data => UInt32.ofNat data.size).countP range.contains < 2 ^ 32 := by
  have hsum : (entries.map fun data => data.size * data.refCnt.toNat).sum = table.dataSize := by
    rw [(hperm.map _).sum_eq, List.map_map]
    rfl
  have hcount : ∀ p : DedupData → Bool, entries.countP p =
      table.entries.countP fun it => p it.2 := fun p => by
    rw [hperm.countP_eq, List.countP_map]
    rfl
  have href : (∀ data ∈ entries, InOne refRanges data.refCnt) ↔
      ∀ it ∈ table.entries, 1 ≤ it.2.refCnt.toNat ∧ it.2.refCnt.toNat ≤ 10000000 := by
    simp only [hperm.mem_iff, List.forall_mem_map, inOne_refRanges]
  rw [hsum, Ne, ofNat_eq_zero_iff, href]
  simp only [List.countP_map, hcount]
  exact ⟨fun ⟨h₁, h₂, h₃, h₄⟩ => ⟨h₁, h₂, h₃, h₄⟩, fun ⟨h₁, h₂, h₃, h₄⟩ => ⟨h₁, h₂, h₃, h₄⟩⟩

/-- After any calls of `HashRefer` with sizes up to 4 MiB, and in whatever order the table is gone
over. -/
theorem dumped_iff (calls : List (String × ℕ))
    (hsizes : ∀ call ∈ calls, 1 ≤ call.2 ∧ call.2 ≤ 4 * 1024 * 1024) (table : DedupTable)
    (htable : referAll Prod.fst Prod.snd ∅ calls = some table) (entries : List DedupData)
    (hperm : entries.Perm (table.entries.map Sigma.snd)) :
    Dumped entries ↔ table.Dumpable := by
  have hlookup := referAll_size (P := fun size => size ≤ 4 * 1024 * 1024) htable
    (fun call hmem => (hsizes call hmem).2) (by simp)
  have hin : ∀ data ∈ entries, InOne sizeRanges (UInt32.ofNat data.size) := by
    intro data hmem
    obtain ⟨it, hit, rfl⟩ := List.mem_map.1 (hperm.mem_iff.1 hmem)
    exact inOne_sizeRanges (hlookup it.1 it.2 (AList.mem_lookup_iff.2 hit))
  rw [Dumpable.of_perm hperm]
  have hloop := Tallied.start.loop hin
  split_ifs at hloop with href
  · obtain ⟨stats, hfold, htallied⟩ := hloop
    rw [List.nil_append] at htallied
    have href' : ∀ v ∈ entries.map DedupData.refCnt, InOne refRanges v :=
      List.forall_mem_map.2 href
    have htotal := Histogram.total_counted_iff href'
    have hin' : ∀ v ∈ entries.map fun data => UInt32.ofNat data.size, InOne sizeRanges v :=
      List.forall_mem_map.2 hin
    have htotal' := Histogram.total_counted_iff hin'
    rw [← htallied.histRef, List.length_map] at htotal
    rw [← htallied.histSize, List.length_map] at htotal'
    rw [← htotal, ← htotal', ← htallied.dataSize]
    unfold Dumped dumpStats
    rw [hfold, Option.bind_eq_bind, Option.bind_some]
    constructor
    · rintro ⟨report, hreport, -, hsum, hsum'⟩
      split_ifs at hreport with hzero
      obtain rfl := Option.some.inj hreport
      exact ⟨href, hzero, hsum, hsum'⟩
    · rintro ⟨-, hzero, hsum, hsum'⟩
      rw [if_neg hzero]
      exact ⟨_, rfl, fun data hmem => ⟨href data hmem, hin data hmem⟩, hsum, hsum'⟩
  · refine iff_of_false ?_ fun h => href h.1
    rintro ⟨report, hreport, -⟩
    unfold dumpStats at hreport
    rw [hloop] at hreport
    cases hreport

/-- One call. -/
theorem dumped_iff_one : Dumped [⟨1, 1⟩] := by
  refine (dumped_iff [("", 1)] (by simp) (AList.singleton "" ⟨1, 1⟩) rfl [⟨1, 1⟩] (.refl _)).2
    ⟨fun it hit => ?_, by decide, fun range _ => ?_, fun range _ => ?_⟩
  · obtain rfl := List.mem_singleton.1 hit
    exact ⟨Nat.le_refl 1, by decide⟩
  · exact List.countP_le_length.trans_lt (by decide)
  · exact List.countP_le_length.trans_lt (by decide)

/-- No call: the table is empty, and the percentage is of 0 bytes. -/
theorem not_dumped :
    ¬ ∀ (calls : List (String × ℕ)) (table : DedupTable) (entries : List DedupData),
      (∀ call ∈ calls, 1 ≤ call.2 ∧ call.2 ≤ 4 * 1024 * 1024) →
      referAll Prod.fst Prod.snd ∅ calls = some table →
      entries.Perm (table.entries.map Sigma.snd) → Dumped entries := by
  intro h
  obtain ⟨report, hreport, -⟩ := h [] ∅ [] (by simp) rfl (.refl _)
  cases hreport

end DedupTable

end CPPCodes.Dedup
