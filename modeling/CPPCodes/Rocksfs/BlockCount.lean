import CPPCodes.Rocksfs.Range
import Mathlib.Algebra.Order.Ring.Int
import Mathlib.Data.Nat.ModEq
import Mathlib.Order.Interval.Finset.Nat

/-!
# Two counts of the blocks of a range

`blocks_count` takes off what it holds for the rest of the first block and counts the blocks behind
it, `io_blocks` has the numbers of the first and the last block. That rest is computed with `-`
where the mask is to be applied, so it is right for no offset within a block (`blocksCount_sized`),
and the counts are the same only where that does not show (`blocksCount_right_iff`).
-/

namespace CPPCodes.Rocksfs

namespace RocksfileImpl

/-- The end of `blocks_count`: the whole blocks of `length`, and one for what is left over. -/
def wholeBlocks (fi : RocksfileImpl) (c length : ℕ) : ℕ :=
  let c := (c + length >>> fi.bsShift) % 2 ^ 32
  if length &&& fi.bsMask ≠ 0 then (c + 1) % 2 ^ 32 else c

/-- `blocks_count`; the rest of the first block goes from `off_t` into a `size_t`. -/
def blocksCount (fi : RocksfileImpl) (offset : ℤ) (length : ℕ) : ℕ :=
  if fi.isBlockAligned offset then fi.wholeBlocks 0 length
  else
    let l := ((fi.bs - (offset - fi.bsMask)) % 2 ^ 64).toNat
    if length < l then 1 else fi.wholeBlocks 1 (length - l)

/-- As many blocks of `b` bytes as `n` bytes need. -/
theorem div_add_rest {b : ℕ} (hb : 0 < b) (n : ℕ) :
    n / b + (if n % b ≠ 0 then 1 else 0) = (n + (b - 1)) / b := by
  have hsplit := Nat.div_add_mod n b
  have hlt := Nat.mod_lt n hb
  generalize n / b = q, n % b = r at hsplit hlt
  subst hsplit
  split_ifs with hr
  · have hnext : b * q + r + (b - 1) = b * (q + 1) + (r - 1) := by
      rw [Nat.mul_succ]
      omega
    rw [hnext, Nat.mul_add_div hb, Nat.div_eq_of_lt (by omega)]
  · rw [not_not.1 hr, Nat.add_zero, Nat.add_zero, Nat.mul_add_div hb, Nat.div_eq_of_lt (by omega),
      Nat.add_zero]

/-- The blocks that the bytes from `a` up to `e` are in. -/
theorem image_div_Ico {b : ℕ} (hb : 0 < b) {a e : ℕ} (h : a < e) :
    (Finset.Ico a e).image (· / b) = Finset.Icc (a / b) ((e - 1) / b) := by
  ext q
  simp only [Finset.mem_image, Finset.mem_Ico, Finset.mem_Icc]
  constructor
  · rintro ⟨i, ⟨hle, hlt⟩, rfl⟩
    exact ⟨Nat.div_le_div_right hle, Nat.div_le_div_right (by omega)⟩
  · rintro ⟨hfirst, hlast⟩
    rw [Nat.le_div_iff_mul_le hb] at hlast
    rcases Nat.lt_or_ge (q * b) a with hq | hq
    · have hdiv : a / b ≥ q := (Nat.le_div_iff_mul_le hb).2 hq.le
      exact ⟨a, ⟨Nat.le_refl a, h⟩, by omega⟩
    · exact ⟨q * b, ⟨hq, by omega⟩, Nat.mul_div_cancel q hb⟩

variable {fi : RocksfileImpl} {s : ℕ}

theorem wholeBlocks_sized (hf : fi.Sized s) {c n : ℕ}
    (h32 : c + (n + (2 ^ s - 1)) / 2 ^ s < 2 ^ 32) :
    fi.wholeBlocks c n = c + (n + (2 ^ s - 1)) / 2 ^ s := by
  rw [← div_add_rest (Nat.two_pow_pos s)] at h32 ⊢
  unfold wholeBlocks
  rw [hf.shift, hf.mask, Nat.shiftRight_eq_div_pow, Nat.and_two_pow_sub_one_eq_mod]
  simp only
  generalize n / 2 ^ s = q at h32
  split_ifs at h32 ⊢ with hrest <;> omega

/-- Where the range ends in a block below the last but one that a `uint32_t` counts. -/
def Within (s offset length : ℕ) : Prop := (offset + length - 1) / 2 ^ s < 2 ^ 32 - 1

theorem Within.lt (hs : s ≤ 31) {offset length : ℕ} (h : Within s offset length) :
    offset + length < 2 ^ 63 ∧ ∀ x < offset + length + 2 ^ s, x / 2 ^ s < 2 ^ 32 := by
  have hpos : 0 < 2 ^ s := Nat.two_pow_pos s
  have hle : 2 ^ s ≤ 2 ^ 31 := Nat.pow_le_pow_right (by decide) hs
  rw [Within, Nat.div_lt_iff_lt_mul hpos] at h
  refine ⟨by omega, fun x hx => ?_⟩
  rw [Nat.div_lt_iff_lt_mul hpos]
  omega

theorem isBlockAligned_iff (hf : fi.Sized s) {offset : ℕ} (h63 : offset < 2 ^ 63) :
    fi.isBlockAligned offset = true ↔ 2 ^ s ∣ offset := by
  have hmod : ((offset : ℤ) % 2 ^ 64).toNat = offset := by omega
  unfold isBlockAligned lowBits
  rw [hmod, hf.mask, Nat.and_two_pow_sub_one_eq_mod, decide_eq_true_iff, Nat.dvd_iff_mod_eq_zero]

/-- What is taken for the rest of the first block. -/
theorem rest_eq {b offset : ℕ} (hb : 0 < b) (h31 : b ≤ 2 ^ 31) (h63 : offset < 2 ^ 63) :
    (((b : ℤ) - ((offset : ℤ) - (b - 1 : ℕ))) % 2 ^ 64).toNat =
      if offset < 2 * b then 2 * b - 1 - offset else 2 ^ 64 + 2 * b - 1 - offset := by
  split_ifs <;> omega

/-- The blocks that `blocks_count` finds. -/
def counted (b offset length : ℕ) : ℕ :=
  if b ∣ offset then (length + (b - 1)) / b
  else if offset < 2 * b ∧ 2 * b - 1 ≤ offset + length then (offset + length) / b
  else 1

theorem blocksCount_sized (hf : fi.Sized s) {offset length : ℕ} (h : Within s offset length) :
    fi.blocksCount offset length = counted (2 ^ s) offset length := by
  have hpos : 0 < 2 ^ s := Nat.two_pow_pos s
  have hle : 2 ^ s ≤ 2 ^ 31 := Nat.pow_le_pow_right (by decide) hf.le
  obtain ⟨h63, h32⟩ := h.lt hf.le
  have haligned := isBlockAligned_iff hf (show offset < 2 ^ 63 by omega)
  unfold blocksCount counted
  by_cases hdvd : 2 ^ s ∣ offset
  · rw [if_pos (haligned.2 hdvd), if_pos hdvd, wholeBlocks_sized hf, Nat.zero_add]
    rw [Nat.zero_add]
    exact h32 _ (by omega)
  · rw [if_neg (mt haligned.1 hdvd), if_neg hdvd, hf.bs, hf.mask]
    simp only [rest_eq hpos hle (show offset < 2 ^ 63 by omega)]
    by_cases hcase : offset < 2 * 2 ^ s ∧ 2 * 2 ^ s - 1 ≤ offset + length
    · obtain ⟨hlow, hhigh⟩ := hcase
      have hblocks : 1 + (length - (2 * 2 ^ s - 1 - offset) + (2 ^ s - 1)) / 2 ^ s =
          (offset + length) / 2 ^ s := by
        have hsplit : offset + length =
            length - (2 * 2 ^ s - 1 - offset) + (2 ^ s - 1) + 2 ^ s := by omega
        rw [hsplit, Nat.add_div_right _ hpos]
        omega
      rw [if_pos hlow, if_neg (by omega), if_pos ⟨hlow, hhigh⟩, wholeBlocks_sized hf, hblocks]
      rw [hblocks]
      exact h32 _ (by omega)
    · rw [if_neg hcase]
      split_ifs with hlow <;> first | rfl | omega

theorem ioBlocks_within (hf : fi.Sized s) {offset length : ℕ} (hlength : 1 ≤ length)
    (h : Within s offset length) :
    fi.ioBlocks offset length = (offset / 2 ^ s, (offset + length - 1) / 2 ^ s) := by
  obtain ⟨h63, h32⟩ := h.lt hf.le
  have hpos : 0 < 2 ^ s := Nat.two_pow_pos s
  have hcast : ((offset : ℤ) + length - 1) % 2 ^ 64 = ((offset + length - 1 : ℕ) : ℤ) := by omega
  have hfirst := h32 offset (by omega)
  have hlast := h32 (offset + length - 1) (by omega)
  unfold ioBlocks
  rw [hf.shift, hcast, Int.shiftRight_eq_div_pow, Int.shiftRight_eq_div_pow, ← Int.natCast_ediv,
    ← Int.natCast_ediv]
  generalize offset / 2 ^ s = first at hfirst
  generalize (offset + length - 1) / 2 ^ s = last at hlast
  exact Prod.ext (by omega) (by omega)

/-- Where taking `-` for `&` does not show, for blocks of `b` bytes. -/
def CountedRight (b offset length : ℕ) : Prop :=
  b ∣ offset ∨ (offset < b ∧ (offset + length ≤ b ∨ b ∣ offset + length)) ∨
    (b ≤ offset ∧ offset < 2 * b ∧ ¬ b ∣ offset + length) ∨
    (2 * b ≤ offset ∧ offset % b + length ≤ b)

theorem counted_aligned {b offset length : ℕ} (hb : 0 < b) (hlength : 1 ≤ length)
    (hdvd : b ∣ offset) :
    (length + (b - 1)) / b = (offset + length - 1) / b - offset / b + 1 := by
  obtain ⟨k, rfl⟩ := hdvd
  have hround : length + (b - 1) = length - 1 + b := by omega
  have hlast : b * k + length - 1 = b * k + (length - 1) := by omega
  rw [hround, hlast, Nat.add_div_right _ hb, Nat.mul_add_div hb, Nat.mul_div_cancel_left k hb,
    Nat.add_sub_cancel_left]

section Unaligned

variable {b offset length : ℕ}

/-- The end of a range is in the block of its last byte or at the beginning of the next one. -/
theorem end_div (b : ℕ) (hlength : 1 ≤ length) : (offset + length) / b =
    (offset + length - 1) / b + if b ∣ offset + length then 1 else 0 := by
  have hend : offset + length = offset + length - 1 + 1 := by omega
  rw [hend, Nat.succ_div, Nat.add_sub_cancel]

theorem counted_first (hlength : 1 ≤ length) (hdvd : ¬ b ∣ offset) (hlow : offset < b) :
    counted b offset length = (offset + length - 1) / b - offset / b + 1 ↔
      offset + length ≤ b ∨ b ∣ offset + length := by
  have hone : b ≠ 1 := fun h => hdvd (h ▸ Nat.one_dvd offset)
  rw [counted, if_neg hdvd, Nat.div_eq_of_lt hlow, Nat.sub_zero]
  by_cases hlong : 2 * b - 1 ≤ offset + length
  · rw [if_pos ⟨by omega, hlong⟩, end_div b hlength]
    split_ifs with hend
    · exact iff_of_true rfl (.inr hend)
    · exact iff_of_false (by omega) (by rintro (hle | hend'); exacts [by omega, hend hend'])
  · rw [if_neg fun h => hlong h.2]
    have hb : 0 < b := by omega
    have hzero : (offset + length - 1) / b = 0 ↔ offset + length - 1 < b :=
      Nat.div_eq_zero_iff_lt hb
    constructor
    · intro h
      have := hzero.1 (by omega)
      exact .inl (by omega)
    · intro h
      have hle : offset + length ≤ b := h.elim id fun hend =>
        (Nat.eq_of_dvd_of_lt_two_mul (by omega) hend (by omega)).le
      rw [hzero.2 (by omega)]

theorem counted_second (hlength : 1 ≤ length) (hdvd : ¬ b ∣ offset) (hlow : b ≤ offset)
    (hhigh : offset < 2 * b) :
    counted b offset length = (offset + length - 1) / b - offset / b + 1 ↔
      ¬ b ∣ offset + length := by
  have hb : 0 < b := by omega
  have hne : offset ≠ b := fun h => hdvd (h ▸ Nat.dvd_refl b)
  have hone : offset / b = 1 := Nat.div_eq_of_lt_le (by omega) (by omega)
  have hle : 1 ≤ (offset + length - 1) / b := (Nat.le_div_iff_mul_le hb).2 (by omega)
  rw [counted, if_neg hdvd, hone]
  by_cases hlong : 2 * b - 1 ≤ offset + length
  · rw [if_pos ⟨hhigh, hlong⟩, end_div b hlength]
    split_ifs with hend
    · exact iff_of_false (by omega) (not_not_intro hend)
    · exact iff_of_true (by omega) hend
  · have hend : ¬ b ∣ offset + length := fun hend => by
      have := Nat.eq_of_dvd_of_lt_two_mul (by omega) hend (by omega)
      omega
    have hlast : (offset + length - 1) / b = 1 := Nat.div_eq_of_lt_le (by omega) (by omega)
    rw [if_neg fun h => hlong h.2, hlast]
    exact iff_of_true rfl hend

theorem counted_behind (hb : 0 < b) (hlength : 1 ≤ length) (hdvd : ¬ b ∣ offset)
    (hhigh : 2 * b ≤ offset) :
    counted b offset length = (offset + length - 1) / b - offset / b + 1 ↔
      offset % b + length ≤ b := by
  have hsplit := Nat.div_add_mod offset b
  have hlast : offset + length - 1 = b * (offset / b) + (offset % b + (length - 1)) := by omega
  rw [counted, if_neg hdvd, if_neg fun h => absurd h.1 (Nat.not_lt.2 hhigh), hlast,
    Nat.mul_add_div hb, Nat.add_sub_cancel_left]
  have hzero : (offset % b + (length - 1)) / b = 0 ↔ offset % b + (length - 1) < b :=
    Nat.div_eq_zero_iff_lt hb
  constructor
  · intro h
    have := hzero.1 (by omega)
    omega
  · intro h
    rw [hzero.2 (by omega)]

end Unaligned

theorem counted_eq_iff {b offset length : ℕ} (hb : 0 < b) (hlength : 1 ≤ length) :
    counted b offset length = (offset + length - 1) / b - offset / b + 1 ↔
      CountedRight b offset length := by
  unfold CountedRight
  by_cases hdvd : b ∣ offset
  · rw [counted, if_pos hdvd]
    exact iff_of_true (counted_aligned hb hlength hdvd) (.inl hdvd)
  rw [or_iff_right hdvd]
  rcases Nat.lt_or_ge offset b with hlow | hlow
  · rw [or_iff_left (by omega), and_iff_right hlow]
    exact counted_first hlength hdvd hlow
  rcases Nat.lt_or_ge offset (2 * b) with hhigh | hhigh
  · rw [or_iff_right (by omega), or_iff_left (by omega), and_iff_right hlow, and_iff_right hhigh]
    exact counted_second hlength hdvd hlow hhigh
  · rw [or_iff_right (by omega), or_iff_right (by omega), and_iff_right hhigh]
    exact counted_behind hb hlength hdvd hhigh

/-- `blocks_count` has the blocks from the first to the last of `io_blocks`, which are those that
the range touches. -/
structure CountsAgree (fi : RocksfileImpl) (offset length : ℕ) : Prop where
  same : fi.blocksCount offset length =
    (fi.ioBlocks offset length).2 - (fi.ioBlocks offset length).1 + 1
  touched : fi.blocksCount offset length =
    ((Finset.Ico offset (offset + length)).image (· / fi.bs)).card

theorem blocksCount_right_iff {key : Str} {blockSize : ℕ} (h32 : blockSize < 2 ^ 32)
    (hnew : new key blockSize = .ok fi) (offset length : ℕ) (hlength : 1 ≤ length)
    (hlast : (offset + length - 1) / blockSize < 2 ^ 32 - 1) :
    CountsAgree fi offset length ↔ CountedRight blockSize offset length := by
  obtain ⟨-, rfl, s, hf⟩ := new_sized h32 hnew
  rw [hf.bs] at hlast
  have hpos : 0 < 2 ^ s := Nat.two_pow_pos s
  have hle : offset / 2 ^ s ≤ (offset + length - 1) / 2 ^ s := Nat.div_le_div_right (by omega)
  have hiff : counted (2 ^ s) offset length = _ ↔ _ := counted_eq_iff hpos hlength
  rw [← blocksCount_sized hf hlast] at hiff
  rw [hf.bs]
  constructor
  · rintro ⟨hsame, -⟩
    rw [ioBlocks_within hf hlength hlast] at hsame
    exact hiff.1 hsame
  · intro h
    refine ⟨?_, ?_⟩
    · rw [ioBlocks_within hf hlength hlast]
      exact hiff.2 h
    · rw [hf.bs, image_div_Ico hpos (by omega), Nat.card_Icc, hiff.2 h]
      omega

/-- A file with blocks of 4096 bytes. -/
def ofPages : RocksfileImpl where
  key := []
  refcnt := 0
  deleted := false
  bs := 4096
  bsMask := 4095
  bsShift := 12
  bs_pos := by decide

theorem blocksCount_right_iff_pages :
    new [] 4096 = .ok ofPages ∧ CountsAgree ofPages 8192 5000 := by
  have hiff : CountsAgree ofPages 8192 5000 ↔ CountedRight 4096 8192 5000 :=
    blocksCount_right_iff (by decide) rfl 8192 5000 (by decide) (by decide)
  exact ⟨rfl, hiff.2 (.inl (by decide))⟩

/-- From the second byte on as many bytes as a block has touch two blocks, of which one is counted.
-/
theorem not_blocksCount_right : ¬ ∀ (key : Str) (blockSize : ℕ) (fi : RocksfileImpl),
    blockSize < 2 ^ 32 → new key blockSize = .ok fi → ∀ offset length : ℕ, 1 ≤ length →
      (offset + length - 1) / blockSize < 2 ^ 32 - 1 → CountsAgree fi offset length := by
  intro h
  have hsame := (h [] 4096 ofPages (by decide) rfl 1 4096 (by decide) (by decide)).same
  exact absurd hsame (by decide)

end RocksfileImpl

end CPPCodes.Rocksfs
