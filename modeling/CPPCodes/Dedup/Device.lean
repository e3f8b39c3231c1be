import Mathlib.Algebra.Ring.Nat
import Mathlib.Data.Int.Notation
import Mathlib.Data.List.Basic

/-!
# The threads and the device

`File::Size` and the test of `File::Read`, the loop of `CreateDedupHashes` over the blocks, and the
parts of the device that `main` gives its threads. A read that would end at the end of the device
or behind it is refused, so no thread ever reads the last byte (`not_splits`).
-/

namespace CPPCodes.Dedup

def kThreads : UInt64 := 4

def kReadSize : UInt64 := 100 * 1024 * 1024

/-- `File::Size`, given the end of the device that `lseek64` returns. -/
def fileSize (offset : Int64) : Option UInt64 :=
  if 0 < offset then some offset.toUInt64 else none

/-- The test of `File::Read` before it reads. -/
def canRead (size count offset : UInt64) : Bool := ¬ size ≤ offset + count

/-- The offsets that the loop of `CreateDedupHashes` reads at from `offset` on, in at most `fuel`
passes. -/
def readLoop (size readEnd : UInt64) : ℕ → UInt64 → Option (List UInt64)
  | 0, _ => none
  | fuel + 1, offset =>
    if offset < readEnd ∧ canRead size kReadSize offset then
      (readLoop size readEnd fuel (offset + kReadSize)).map (offset :: ·)
    else some []

/-- The reads of the thread `i` that `main` starts. No loop makes more passes than the device has
bytes. -/
def threadReads (size i : UInt64) : Option (List UInt64) :=
  let x := size / kThreads
  let begin_ := i * x
  let end_ := (i + 1) * x
  readLoop size (end_ - 1) (size.toNat + 1) begin_

/-- The reads of all threads. -/
def allReads (size : UInt64) : Option (List UInt64) :=
  ([0, 1, 2, 3].mapM (threadReads size)).map List.flatten

/-- The byte is one of those that a read at `offset` gets. -/
def Reads (offset : UInt64) (byte : ℕ) : Prop :=
  offset.toNat ≤ byte ∧ byte < offset.toNat + kReadSize.toNat

/-- No two reads get the same byte, and together they get every byte of the device. -/
def Splits (size : UInt64) : Prop :=
  ∃ reads, allReads size = some reads ∧
    reads.Pairwise (fun o o' => ∀ byte, ¬ (Reads o byte ∧ Reads o' byte)) ∧
    ∀ byte < size.toNat, ∃ o ∈ reads, Reads o byte

/-! ## The loop -/

theorem fileSize_spec {offset : Int64} {size : UInt64} (h : fileSize offset = some size) :
    0 < size.toNat ∧ size.toNat < 2 ^ 63 := by
  unfold fileSize at h
  split_ifs at h with hpos
  obtain rfl := Option.some.inj h
  have hint : 0 < offset.toInt := Int64.lt_iff_toInt_lt.1 hpos
  have hlt := offset.toInt_lt
  have hnat : offset.toUInt64.toNat = offset.toInt.toNat :=
    Int64.toNat_toUInt64_of_le (Int64.le_of_lt hpos)
  omega

theorem canRead_iff {size offset : UInt64} (hsize : size.toNat < 2 ^ 63)
    (ho : offset.toNat ≤ size.toNat) :
    canRead size kReadSize offset = true ↔ offset.toNat + kReadSize.toNat < size.toNat := by
  have hk : kReadSize.toNat = 104857600 := rfl
  unfold canRead
  rw [decide_eq_true_iff, UInt64.not_le, UInt64.lt_iff_toNat_lt, UInt64.toNat_add, hk]
  omega

/-- The loop ends, and every read ends before the last byte of the device. -/
theorem readLoop_spec {size readEnd : UInt64} (hsize : size.toNat < 2 ^ 63) :
    ∀ (fuel : ℕ) (offset : UInt64), offset.toNat ≤ size.toNat → size.toNat - offset.toNat < fuel →
      ∃ os, readLoop size readEnd fuel offset = some os ∧
        ∀ o ∈ os, o.toNat + kReadSize.toNat < size.toNat
  | 0, _, _, hf => absurd hf (by omega)
  | fuel + 1, offset, ho, hf => by
    have hk : kReadSize.toNat = 104857600 := rfl
    unfold readLoop
    split_ifs with h
    · have hread := (canRead_iff hsize ho).1 h.2
      have hnext : (offset + kReadSize).toNat = offset.toNat + kReadSize.toNat := by
        rw [UInt64.toNat_add]
        omega
      obtain ⟨os, hos, hall⟩ := readLoop_spec hsize fuel (offset + kReadSize) (by omega) (by omega)
      refine ⟨offset :: os, by rw [hos, Option.map_some], fun o hmem => ?_⟩
      rcases List.mem_cons.1 hmem with rfl | hmem
      · exact hread
      · exact hall o hmem
    · exact ⟨[], rfl, by simp⟩

theorem threadReads_spec {size i : UInt64} (hsize : size.toNat < 2 ^ 63) (hi : i.toNat < 4) :
    ∃ os, threadReads size i = some os ∧ ∀ o ∈ os, o.toNat + kReadSize.toNat < size.toNat := by
  refine readLoop_spec hsize _ _ ?_ (by omega)
  have hx : (size / kThreads).toNat = size.toNat / 4 := UInt64.toNat_div _ _
  have hle : i.toNat * (size.toNat / 4) ≤ 3 * (size.toNat / 4) := Nat.mul_le_mul_right _ (by omega)
  rw [UInt64.toNat_mul, hx]
  omega

theorem allReads_spec {size : UInt64} (hsize : size.toNat < 2 ^ 63) :
    ∃ reads, allReads size = some reads ∧ ∀ o ∈ reads, o.toNat + kReadSize.toNat < size.toNat := by
  obtain ⟨os₀, h₀, hall₀⟩ := threadReads_spec (i := 0) hsize (by decide)
  obtain ⟨os₁, h₁, hall₁⟩ := threadReads_spec (i := 1) hsize (by decide)
  obtain ⟨os₂, h₂, hall₂⟩ := threadReads_spec (i := 2) hsize (by decide)
  obtain ⟨os₃, h₃, hall₃⟩ := threadReads_spec (i := 3) hsize (by decide)
  refine ⟨os₀ ++ (os₁ ++ (os₂ ++ os₃)), by simp [allReads, h₀, h₁, h₂, h₃], fun o ho => ?_⟩
  simp only [List.mem_append] at ho
  rcases ho with ho | ho | ho | ho
  · exact hall₀ o ho
  · exact hall₁ o ho
  · exact hall₂ o ho
  · exact hall₃ o ho

theorem lastByte_unread {offset : Int64} {size : UInt64} (h : fileSize offset = some size) :
    ∃ reads, allReads size = some reads ∧ ∀ o ∈ reads, ¬ Reads o (size.toNat - 1) := by
  obtain ⟨hpos, hsize⟩ := fileSize_spec h
  obtain ⟨reads, hreads, hall⟩ := allReads_spec hsize
  refine ⟨reads, hreads, ?_⟩
  rintro o ho ⟨-, hlt⟩
  have := hall o ho
  omega

theorem Splits.lastByte {size : UInt64} (hpos : 0 < size.toNat) (hs : Splits size)
    {reads : List UInt64} (hreads : allReads size = some reads) :
    ∃ o ∈ reads, Reads o (size.toNat - 1) := by
  obtain ⟨reads', hreads', -, hcover⟩ := hs
  obtain rfl := Option.some.inj (hreads.symm.trans hreads')
  exact hcover (size.toNat - 1) (by omega)

/-- On every device the threads come to an end, and no read of theirs gets the last byte, so they
never split it. -/
theorem not_splits {offset : Int64} {size : UInt64} (h : fileSize offset = some size) :
    (∃ reads, allReads size = some reads ∧ ∀ o ∈ reads, ¬ Reads o (size.toNat - 1)) ∧
      ¬ Splits size := by
  obtain ⟨reads, hreads, hlast⟩ := lastByte_unread h
  refine ⟨⟨reads, hreads, hlast⟩, fun hs => ?_⟩
  obtain ⟨o, ho, hread⟩ := hs.lastByte (fileSize_spec h).1 hreads
  exact hlast o ho hread

/-- A device of 4 GiB. -/
theorem not_splits_gib : ¬ Splits 4294967296 :=
  (not_splits (show fileSize 4294967296 = some 4294967296 from rfl)).2

theorem not_splits_all :
    ¬ ∀ (offset : Int64) (size : UInt64), fileSize offset = some size → Splits size := by
  intro h
  have hsize : fileSize 4294967296 = some 4294967296 := rfl
  obtain ⟨reads, hreads, hlast⟩ := lastByte_unread hsize
  obtain ⟨o, ho, hread⟩ := (h _ _ hsize).lastByte (fileSize_spec hsize).1 hreads
  exact hlast o ho hread

end CPPCodes.Dedup
