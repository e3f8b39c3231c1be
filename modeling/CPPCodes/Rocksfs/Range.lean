import CPPCodes.Rocksfs.Blocks
import Mathlib.Algebra.Order.Group.Int
import Mathlib.Algebra.Ring.Int.Defs
import Mathlib.Algebra.Ring.Nat

/-!
# Ranges of blocks

A range of whole blocks, for every block size. The numbers of its first and last block go into 32
bits, so the loop of `write` sees them modulo `2 ^ 32` (`ioBlocks_sized`): it writes the blocks of
the range where the last is below `2 ^ 32 - 1`, and does not end before an assert fails where the
last is that number, which is also what an empty range at the beginning comes to
(`writesRange_iff`).
-/

namespace CPPCodes.Rocksfs

namespace RocksfileImpl

variable {fi : RocksfileImpl} {s : ℕ}

/-- The block size is a power of two that fits 32 bits, and mask and shift are made from it. -/
structure Sized (fi : RocksfileImpl) (s : ℕ) : Prop where
  bs : fi.bs = 2 ^ s
  mask : fi.bsMask = 2 ^ s - 1
  shift : fi.bsShift = s
  le : s ≤ 31

theorem countShift_eq (s : ℕ) : ∀ fuel shift : ℕ, shift ≤ s → s < shift + fuel →
    countShift (2 ^ s - 1) fuel shift = s
  | 0, shift, _, hlt => absurd hlt (by omega)
  | fuel + 1, shift, hle, hlt => by
    unfold countShift
    rw [Nat.testBit_two_pow_sub_one]
    by_cases h : shift < s
    · rw [if_pos (by simpa using h)]
      exact countShift_eq s fuel (shift + 1) (by omega) (by omega)
    · rw [if_neg (by simpa using h)]
      omega

/-- The constructor takes the powers of two and no other block size. -/
theorem new_sized {key : Str} {blockSize : ℕ} (h32 : blockSize < 2 ^ 32)
    (h : RocksfileImpl.new key blockSize = .ok fi) :
    fi.key = key ∧ fi.bs = blockSize ∧ ∃ s, fi.Sized s := by
  unfold RocksfileImpl.new at h
  split_ifs at h with hb
  obtain rfl := Except.ok.inj h
  obtain ⟨s, rfl⟩ := (Nat.and_sub_one_eq_zero_iff_isPowerOfTwo hb.1).1 hb.2
  have hs : s < 32 := (Nat.pow_lt_pow_iff_right (by omega)).1 h32
  exact ⟨rfl, rfl, s, rfl, rfl, countShift_eq s 32 0 (by omega) (by omega), by omega⟩

theorem pow_mul_sub_one_div (s : ℕ) {m : ℕ} (hm : 0 < m) : (2 ^ s * m - 1) / 2 ^ s = m - 1 := by
  obtain ⟨k, rfl⟩ := Nat.exists_eq_add_of_lt hm
  have hpos : 0 < 2 ^ s := Nat.two_pow_pos s
  have hsplit : 2 ^ s * (0 + k + 1) - 1 = 2 ^ s - 1 + 2 ^ s * k := by
    rw [Nat.zero_add, Nat.mul_succ]
    omega
  rw [hsplit, Nat.add_mul_div_left _ _ hpos, Nat.div_eq_of_lt (by omega)]
  omega

/-- The last block of a range, in 64 bits without a sign: an empty range at the beginning has the
last of them all. -/
theorem lastBlock_eq (hs : s ≤ 31) {m : ℕ} (hm : 2 ^ s * m < 2 ^ 63) :
    (((2 ^ s * m : ℕ) - 1 : ℤ) % 2 ^ 64 / (2 ^ s : ℕ) % 2 ^ 32).toNat
      = (m + (2 ^ 32 - 1)) % 2 ^ 32 := by
  rcases Nat.eq_zero_or_pos m with rfl | hpos
  · have hsplit : 2 ^ s * (2 ^ 32 * 2 ^ (32 - s)) = 2 ^ 64 := by
      rw [← Nat.pow_add, ← Nat.pow_add]
      congr 1
      omega
    have hpow : 0 < 2 ^ (32 - s) := Nat.two_pow_pos _
    have hdiv := pow_mul_sub_one_div s (Nat.mul_pos (Nat.two_pow_pos 32) hpow)
    rw [hsplit] at hdiv
    have hcast : (((2 ^ s * 0 : ℕ) - 1 : ℤ) % 2 ^ 64) = ((2 ^ 64 - 1 : ℕ) : ℤ) := by
      rw [Nat.mul_zero]
      rfl
    rw [hcast, ← Int.natCast_ediv, hdiv]
    generalize 2 ^ (32 - s) = q at hpow
    omega
  · have hlow : 0 < 2 ^ s * m := Nat.mul_pos (Nat.two_pow_pos s) hpos
    have hcast : (((2 ^ s * m : ℕ) - 1 : ℤ) % 2 ^ 64) = ((2 ^ s * m - 1 : ℕ) : ℤ) := by
      generalize 2 ^ s * m = x at hlow hm
      omega
    rw [hcast, ← Int.natCast_ediv, pow_mul_sub_one_div s hpos]
    omega

theorem ioBlocks_sized (hf : fi.Sized s) {b n : ℕ} (h63 : 2 ^ s * (b + n) < 2 ^ 63) :
    fi.ioBlocks ((2 ^ s * b : ℕ) : ℤ) (2 ^ s * n)
      = (b % 2 ^ 32, (b + n + (2 ^ 32 - 1)) % 2 ^ 32) := by
  unfold ioBlocks
  rw [hf.shift, Int.shiftRight_eq_div_pow, Int.shiftRight_eq_div_pow]
  refine Prod.ext ?_ ?_
  · show (((2 ^ s * b : ℕ) : ℤ) / (2 ^ s : ℕ) % 2 ^ 32).toNat = b % 2 ^ 32
    rw [← Int.natCast_ediv, Nat.mul_div_cancel_left _ (Nat.two_pow_pos s)]
    omega
  · have hsum : ((2 ^ s * b : ℕ) : ℤ) + (2 ^ s * n : ℕ) - 1 = ((2 ^ s * (b + n) : ℕ) - 1 : ℤ) := by
      rw [Nat.mul_add, Nat.cast_add]
    show ((((2 ^ s * b : ℕ) : ℤ) + (2 ^ s * n : ℕ) - 1) % 2 ^ 64 / (2 ^ s : ℕ) % 2 ^ 32).toNat = _
    rw [hsum, lastBlock_eq hf.le h63]

theorem lowBits_sized (hf : fi.Sized s) {b : ℕ} (h63 : 2 ^ s * b < 2 ^ 63) :
    fi.lowBits ((2 ^ s * b : ℕ) : ℤ) = 0 := by
  have hmod : (((2 ^ s * b : ℕ) : ℤ) % 2 ^ 64).toNat = 2 ^ s * b := by
    generalize 2 ^ s * b = x at h63
    omega
  unfold lowBits
  rw [hmod, hf.mask, Nat.and_two_pow_sub_one_eq_mod, Nat.mul_mod_right]

theorem isBlockAligned_sized (hf : fi.Sized s) {b : ℕ} (h63 : 2 ^ s * b < 2 ^ 63) :
    fi.isBlockAligned ((2 ^ s * b : ℕ) : ℤ) = true := by
  unfold isBlockAligned
  rw [lowBits_sized hf h63]
  rfl

theorem blockCount_sized (hf : fi.Sized s) {b : ℕ} (h63 : 2 ^ s * b < 2 ^ 63) {count : ℕ}
    (hcount : fi.bs ≤ count) : fi.blockCount ((2 ^ s * b : ℕ) : ℤ) count = fi.bs := by
  unfold blockCount
  rw [if_pos (isBlockAligned_sized hf h63)]
  exact Nat.min_eq_left hcount

/-- The record of a block. -/
def record (fi : RocksfileImpl) (i : ℕ) (bytes : List UInt8) : Json :=
  ((((∅ : Json).insert F_BLOCK (.num i)).insert F_DATA (.str (base64Encode bytes))).insert F_SIZE
    (.num fi.bs)).insert F_OFFSET (.num (fi.bs * i : ℕ))

theorem encode_sized (hf : fi.Sized s) {i : ℕ} (h63 : 2 ^ s * i < 2 ^ 63) {bytes : List UInt8}
    (hlen : bytes.length = fi.bs) :
    fi.encode i bytes ((2 ^ s * i : ℕ) : ℤ) = .ok (fi.record i bytes) := by
  have hoff : ((2 ^ s * i : ℕ) : ℤ) % 2 ^ 64 = (2 ^ s * i : ℕ) := by
    generalize 2 ^ s * i = x at h63
    omega
  unfold encode check record
  rw [if_pos hlen, hoff, hlen, hf.bs]
  rfl

/-- The record of block `i` under the key that names this block, out of a buffer that begins with
block `b`. -/
def putBlock (fi : RocksfileImpl) (b : ℕ) (buf : List UInt8) (i : ℕ) : Update :=
  .put (blockKey fi.key i) (fi.record i ((buf.drop (fi.bs * (i - b))).take fi.bs))

/-- One record for each of the `n` blocks from `b` on. -/
def putBlocks (fi : RocksfileImpl) (b n : ℕ) (buf : List UInt8) : List Update :=
  (List.range' b n).map (fi.putBlock b buf)

theorem putBlocks_succ (fi : RocksfileImpl) (b n : ℕ) (buf : List UInt8) :
    fi.putBlocks b (n + 1) buf = .put (blockKey fi.key b) (fi.record b (buf.take fi.bs)) ::
      fi.putBlocks (b + 1) n (buf.drop fi.bs) := by
  unfold putBlocks
  rw [List.range'_succ, List.map_cons]
  congr 1
  · simp [putBlock]
  · refine List.map_congr_left fun i hi => ?_
    have hle := (List.mem_range'_1.1 hi).1
    have hsub : fi.bs * (i - b) = fi.bs + fi.bs * (i - (b + 1)) := by
      rw [show i - b = (i - (b + 1)) + 1 by omega, Nat.mul_add, Nat.mul_one, Nat.add_comm]
    simp only [putBlock, List.drop_drop, hsub]

/-- Below the last number of 32 bits the loop writes the blocks of the range. -/
theorem writeLoop_sized (hf : fi.Sized s) : ∀ (n b eb : ℕ) (buf : List UInt8), b + n = eb + 1 →
    eb < 2 ^ 32 - 1 → 2 ^ s * (b + n) < 2 ^ 63 → buf.length = 2 ^ s * n →
    fi.writeLoop b eb buf ((2 ^ s * b : ℕ) : ℤ) = .ok (fi.putBlocks b n buf, buf.length)
  | 0, b, eb, buf, hb, _, _, hlen => by
    rw [writeLoop, if_neg (by omega), hlen]
    rfl
  | n + 1, b, eb, buf, hb, heb, h63, hlen => by
    have hmul : 2 ^ s * (n + 1) = 2 ^ s * n + 2 ^ s := Nat.mul_succ _ _
    have hb63 : 2 ^ s * b < 2 ^ 63 :=
      Nat.lt_of_le_of_lt (Nat.mul_le_mul_left _ (Nat.le_add_right _ _)) h63
    have hbs : fi.bs ≤ buf.length := by
      rw [hlen, hf.bs, hmul]
      exact Nat.le_add_left _ _
    have hcount := blockCount_sized hf hb63 hbs
    have hnext : ((2 ^ s * b : ℕ) : ℤ) + (fi.bs : ℕ) = ((2 ^ s * (b + 1) : ℕ) : ℤ) := by
      rw [hf.bs, Nat.mul_succ, Nat.cast_add]
    have hdrop : (buf.drop fi.bs).length = 2 ^ s * n := by
      rw [List.length_drop, hlen, hf.bs, hmul, Nat.add_sub_cancel]
    have ih := writeLoop_sized hf n (b + 1) eb (buf.drop fi.bs) (by omega) heb
      (by rwa [show b + 1 + n = b + (n + 1) by omega]) hdrop
    have htake : (buf.take fi.bs).length = fi.bs := by
      rw [List.length_take]
      exact Nat.min_eq_left hbs
    have hencode := encode_sized hf hb63 htake
    rw [writeLoop, if_pos (by omega), dif_pos ⟨isBlockAligned_sized hf hb63, hcount⟩]
    simp only [hcount, hencode, Nat.mod_eq_of_lt (show b + 1 < 2 ^ 32 by omega), hnext, ih, bind,
      Except.bind, pure, Except.pure]
    rw [putBlocks_succ, List.length_drop, Nat.add_sub_cancel' hbs]

/-- With the last number of 32 bits for its end the loop does not stop by itself: its number wraps,
and the assert of `encode` fails when the buffer is used up. -/
theorem writeLoop_last (fi : RocksfileImpl) (sb eb : ℕ) (buf : List UInt8) (offset : ℤ)
    (hsb : sb < 2 ^ 32) (heb : eb = 2 ^ 32 - 1) :
    ∃ f, fi.writeLoop sb eb buf offset = .error f := by
  fun_induction writeLoop fi sb eb buf offset with
  | case1 sb buf offset hle h bc =>
    rename_i ih
    obtain ⟨f, hf⟩ := ih (Nat.mod_lt _ (by omega))
    cases hj : fi.encode sb (buf.take bc) offset with
    | error e => exact ⟨e, rfl⟩
    | ok j =>
      refine ⟨f, ?_⟩
      simp only [bind, Except.bind, hf]
  | case2 sb buf offset hle h => exact ⟨_, rfl⟩
  | case3 sb buf offset hle => omega

/-- The loop counts in 32 bits. -/
theorem writeLoop_keys (fi : RocksfileImpl) (sb eb : ℕ) (buf : List UInt8) (offset : ℤ)
    (hsb : sb < 2 ^ 32) {batch : List Update} {copied : ℕ}
    (hw : fi.writeLoop sb eb buf offset = .ok (batch, copied)) :
    ∀ u ∈ batch, ∃ i j, i < 2 ^ 32 ∧ u = .put (blockKey fi.key i) j := by
  intro u hu
  obtain ⟨b, part, off, j, -, rfl, hb⟩ := writeLoop_mem fi sb eb buf offset hw u hu
  refine ⟨b, j, ?_, rfl⟩
  rcases hb with rfl | hb
  · exact hsb
  · exact hb

/-- The batch of a `write` and the bytes it counts. -/
def fillBatch (fi : RocksfileImpl) (buf : List UInt8) (offset : ℤ) :
    Except Fault (List Update × ℕ) :=
  fi.writeLoop (fi.ioBlocks offset buf.length).1 (fi.ioBlocks offset buf.length).2 buf offset

theorem write_of_fillBatch {buf : List UInt8} {offset : ℤ} {batch : List Update} {copied : ℕ}
    (h : fi.fillBatch buf offset = .ok (batch, copied)) (db : Store) (ok : Bool) :
    fi.write db ok buf offset = .ok (if ok then copied else -ENOSPC, db.write ok batch) := by
  have hloop : fi.writeLoop (fi.ioBlocks offset buf.length).1 (fi.ioBlocks offset buf.length).2 buf
      offset = .ok (batch, copied) := h
  unfold write
  simp only [hloop, bind, Except.bind, pure, Except.pure]
  cases ok <;> rfl

/-- The `write` of `n` blocks at block `b` ends without a failed assert. Its batch has one record
for each of the blocks, under the key that names the block, and it returns the number of bytes when
the store takes the batch. -/
structure WritesRange (fi : RocksfileImpl) (b n : ℕ) (buf : List UInt8) : Prop where
  fills : fi.fillBatch buf (fi.bs * b : ℕ) = .ok (fi.putBlocks b n buf, buf.length)
  returns : ∀ db ok, fi.write db ok buf (fi.bs * b : ℕ)
    = .ok (if ok then buf.length else -ENOSPC, db.write ok (fi.putBlocks b n buf))

theorem writesRange_of_fills {b n : ℕ} {buf : List UInt8}
    (h : fi.fillBatch buf (fi.bs * b : ℕ) = .ok (fi.putBlocks b n buf, buf.length)) :
    fi.WritesRange b n buf :=
  ⟨h, write_of_fillBatch h⟩

variable {b n : ℕ} {buf : List UInt8}

theorem fillBatch_sized (hf : fi.Sized s) (h63 : 2 ^ s * (b + n) < 2 ^ 63)
    (hlen : buf.length = 2 ^ s * n) : fi.fillBatch buf (fi.bs * b : ℕ)
      = fi.writeLoop (b % 2 ^ 32) ((b + n + (2 ^ 32 - 1)) % 2 ^ 32) buf ((2 ^ s * b : ℕ) : ℤ) := by
  unfold fillBatch
  rw [hf.bs, hlen, ioBlocks_sized hf h63]

theorem writesRange_blocks (hf : fi.Sized s) (h63 : 2 ^ s * (b + n) < 2 ^ 63)
    (hlen : buf.length = 2 ^ s * n) (hpos : 0 < n) (hlast : b + n ≤ 2 ^ 32 - 1) :
    fi.WritesRange b n buf := by
  refine writesRange_of_fills ?_
  rw [fillBatch_sized hf h63 hlen, Nat.mod_eq_of_lt (show b < 2 ^ 32 by omega),
    show (b + n + (2 ^ 32 - 1)) % 2 ^ 32 = b + n - 1 by omega]
  exact writeLoop_sized hf n b (b + n - 1) buf (by omega) (by omega) h63 hlen

theorem writesRange_empty (hf : fi.Sized s) (h63 : 2 ^ s * b < 2 ^ 63) (hb : b % 2 ^ 32 ≠ 0) :
    fi.WritesRange b 0 [] := by
  refine writesRange_of_fills ?_
  rw [fillBatch_sized hf (by rwa [Nat.add_zero]) rfl, writeLoop, if_neg (by omega)]
  rfl

theorem not_writesRange_empty (hf : fi.Sized s) (h63 : 2 ^ s * b < 2 ^ 63) (hb : b % 2 ^ 32 = 0) :
    ¬ fi.WritesRange b 0 [] := by
  intro h
  have hfills := h.fills
  rw [fillBatch_sized hf (by rwa [Nat.add_zero]) rfl] at hfills
  obtain ⟨f, hf⟩ := writeLoop_last fi (b % 2 ^ 32) ((b + 0 + (2 ^ 32 - 1)) % 2 ^ 32) []
    ((2 ^ s * b : ℕ) : ℤ) (by omega) (by omega)
  cases hf.symm.trans hfills

theorem not_writesRange_last (hf : fi.Sized s) (h63 : 2 ^ s * (b + n) < 2 ^ 63)
    (hlen : buf.length = 2 ^ s * n) (hpos : 0 < n) (hlast : 2 ^ 32 ≤ b + n) :
    ¬ fi.WritesRange b n buf := by
  intro h
  have hfills := h.fills
  rw [fillBatch_sized hf h63 hlen] at hfills
  -- the last block of the range has a record, so its number is one of 32 bits
  have hmem : fi.putBlock b buf (b + n - 1) ∈ fi.putBlocks b n buf :=
    List.mem_map.2 ⟨b + n - 1, List.mem_range'_1.2 (by omega), rfl⟩
  obtain ⟨i, j, hi, hput⟩ := writeLoop_keys fi _ _ _ _ (by omega) hfills _ hmem
  have hkey : blockKey fi.key (b + n - 1) = blockKey fi.key i := (Update.put.inj hput).1
  have heq := (blockKey_inj hkey).2
  obtain ⟨f, hf⟩ := writeLoop_last fi (b % 2 ^ 32) ((b + n + (2 ^ 32 - 1)) % 2 ^ 32) buf
    ((2 ^ s * b : ℕ) : ℤ) (by omega) (by omega)
  cases hf.symm.trans hfills

end RocksfileImpl

/-- Whatever the block size, and for every range that an `off_t` can hold: `write` does the range
right exactly when it is not empty and ends before block `2 ^ 32 - 1`, or is empty and does not
begin at a multiple of `2 ^ 32` blocks. The keys of two blocks of a file differ. -/
theorem writesRange_iff {key : Str} {blockSize b n : ℕ} {fi : RocksfileImpl} {buf : List UInt8}
    (h32 : blockSize < 2 ^ 32) (hnew : RocksfileImpl.new key blockSize = .ok fi)
    (h63 : blockSize * (b + n) < 2 ^ 63) (hlen : buf.length = blockSize * n) :
    (fi.WritesRange b n buf ↔ 0 < n ∧ b + n ≤ 2 ^ 32 - 1 ∨ n = 0 ∧ b % 2 ^ 32 ≠ 0) ∧
    ∀ i j, blockKey key i = blockKey key j → i = j := by
  refine ⟨?_, fun i j h => (blockKey_inj h).2⟩
  obtain ⟨-, hbs, s, hf⟩ := RocksfileImpl.new_sized h32 hnew
  obtain rfl : blockSize = 2 ^ s := hbs.symm.trans hf.bs
  rcases Nat.eq_zero_or_pos n with rfl | hpos
  · obtain rfl : buf = [] := List.length_eq_zero_iff.1 hlen
    rw [Nat.add_zero] at h63
    by_cases hb : b % 2 ^ 32 = 0
    · exact iff_of_false (RocksfileImpl.not_writesRange_empty hf h63 hb) (by omega)
    · exact iff_of_true (RocksfileImpl.writesRange_empty hf h63 hb) (by omega)
  · by_cases hlast : b + n ≤ 2 ^ 32 - 1
    · exact iff_of_true (RocksfileImpl.writesRange_blocks hf h63 hlen hpos hlast) (by omega)
    · exact iff_of_false (RocksfileImpl.not_writesRange_last hf h63 hlen hpos (by omega)) (by omega)

/-- Two blocks of four bytes. -/
theorem writesRange_two : ∃ fi, RocksfileImpl.new ['k'] 4 = .ok fi ∧
    fi.WritesRange 1 2 [1, 2, 3, 4, 5, 6, 7, 8] := by
  obtain ⟨fi, hnew⟩ : ∃ fi, RocksfileImpl.new ['k'] 4 = .ok fi := ⟨_, rfl⟩
  exact ⟨fi, hnew, (writesRange_iff (by decide) hnew (by decide) rfl).1.2
    (.inl ⟨by decide, by decide⟩)⟩

/-- Nothing at offset `0`. -/
theorem not_writesRange : ¬ ∀ (key : Str) (blockSize b n : ℕ) (fi : RocksfileImpl)
    (buf : List UInt8), blockSize < 2 ^ 32 → RocksfileImpl.new key blockSize = .ok fi →
      blockSize * (b + n) < 2 ^ 63 → buf.length = blockSize * n → fi.WritesRange b n buf := by
  intro hall
  obtain ⟨fi, hnew⟩ : ∃ fi, RocksfileImpl.new ['k'] 4096 = .ok fi := ⟨_, rfl⟩
  obtain ⟨-, -, s, hf⟩ := RocksfileImpl.new_sized (by decide) hnew
  exact RocksfileImpl.not_writesRange_empty hf (by simp) rfl
    (hall ['k'] 4096 0 0 fi [] (by decide) hnew (by decide) rfl)

end CPPCodes.Rocksfs
