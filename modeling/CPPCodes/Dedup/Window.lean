import CPPCodes.Dedup.RollingHash
import CPPCodes.Lib.Horner
import Mathlib.Data.Nat.Bitwise
import Mathlib.Data.Nat.ModEq

/-!
# What the rolling hash depends on

`Eat` adds a character and does not push it to the queue, so the queue stays empty and `Update`
never takes a character out again: the value is the direct hash of everything since `Reset`
(`Fed.updates`). It is that of the window exactly when what is before the window hashes to 0
(`windowHash_iff`).
-/

namespace CPPCodes.Dedup

namespace KarpRabinHash

variable {W : ℕ} {C : Type} {k : ℕ}

/-- The sum over the characters, each times 37 to the power of its distance from the end. -/
def directHash (hasher : C → BitVec W) (cs : List C) : ℕ :=
  Horner.weigh 37 (cs.map fun c => (hasher c).toNat)

/-- The last `n` characters, or all, and those before them. -/
def window (n : ℕ) (cs : List C) : List C := cs.drop (cs.length - n)

def beforeWindow (n : ℕ) (cs : List C) : List C := cs.take (cs.length - n)

theorem directHash_concat (hasher : C → BitVec W) (cs : List C) (c : C) :
    directHash hasher (cs ++ [c]) = 37 * directHash hasher cs + (hasher c).toNat := by
  unfold directHash
  rw [List.map_append, List.map_singleton, Horner.weigh_concat]

theorem directHash_window (hasher : C → BitVec W) (n : ℕ) (cs : List C) :
    directHash hasher cs = directHash hasher (beforeWindow n cs) * 37 ^ (window n cs).length
      + directHash hasher (window n cs) := by
  unfold directHash
  have hlen : (window n cs).length = ((window n cs).map fun c => (hasher c).toNat).length :=
    (List.length_map _).symm
  rw [hlen, ← Horner.weigh_append, ← List.map_append, beforeWindow, window, List.take_append_drop]

theorem xor_pred_two_pow (m : ℕ) : 2 ^ m ^^^ (2 ^ m - 1) = 2 ^ (m + 1) - 1 := by
  refine Nat.eq_of_testBit_eq fun i => ?_
  rw [Nat.testBit_xor, Nat.testBit_two_pow, Nat.testBit_two_pow_sub_one, Nat.testBit_two_pow_sub_one]
  by_cases h1 : m = i <;> by_cases h2 : i < m <;> simp [h1, h2] <;> omega

theorem computeMask_eq {m : ℕ} (h : m + 1 ≤ W) :
    ∃ mask, computeMask W (m + 1 : ℕ) = some mask ∧ mask.toNat = 2 ^ (m + 1) - 1 := by
  have hlt : 2 ^ m < 2 ^ W := Nat.pow_lt_pow_right (by decide) h
  have hone : 1 % 2 ^ W = 1 := Nat.mod_eq_of_lt (Nat.one_lt_two_pow (by omega))
  have hx : (1#W <<< m).toNat = 2 ^ m := by
    rw [BitVec.toNat_shiftLeft, BitVec.toNat_ofNat, hone, Nat.one_shiftLeft, Nat.mod_eq_of_lt hlt]
  refine ⟨_, by rw [computeMask, if_neg (by omega), if_neg (by omega)], ?_⟩
  have hle : (1 : BitVec W) ≤ 1#W <<< m := by
    rw [BitVec.le_def, hx]
    simpa [hone] using Nat.one_le_two_pow
  rw [show ((m + 1 : ℕ) - 1 : ℤ).toNat = m by omega, BitVec.toNat_xor, BitVec.toNat_sub_of_le hle,
    hx, ← xor_pred_two_pow]
  congr 2

theorem computeMask_none {bits : ℤ} (h : ¬ (1 ≤ bits ∧ bits ≤ W)) : computeMask W bits = none := by
  unfold computeMask
  split_ifs
  · rfl
  · rfl
  · omega

theorem toNat_and_mask {mask : BitVec W} (hm : mask.toNat = 2 ^ k - 1) (v : BitVec W) :
    (v &&& mask).toNat = v.toNat % 2 ^ k := by
  rw [BitVec.toNat_and, hm, Nat.and_two_pow_sub_one_eq_mod]

/-- A hash that the characters have been fed to, one after the other. -/
structure Fed (k : ℕ) (hasher : C → BitVec W) (cs : List C) (h : KarpRabinHash W C) : Prop where
  mask : h.hashMask.toNat = 2 ^ k - 1
  table : h.hasher = hasher
  seqLen : 0 < h.seqLen.toNat
  seen : h.seen = []
  value : h.hashValue.toNat = directHash hasher cs % 2 ^ k

variable {hasher : C → BitVec W} {cs : List C} {h : KarpRabinHash W C}

/-- One step of Horner's rule. -/
theorem Fed.eat (hk : k ≤ W) (hf : Fed k hasher cs h) (c : C) :
    Fed k hasher (cs ++ [c]) (h.eat c) := by
  refine ⟨hf.mask, hf.table, hf.seqLen, hf.seen, ?_⟩
  have hdvd : 2 ^ k ∣ 2 ^ W := Nat.pow_dvd_pow 2 hk
  have hmod : ∀ n : ℕ, n % 2 ^ W ≡ n [MOD 2 ^ k] := fun n => (Nat.mod_modEq n _).of_dvd hdvd
  have hvalue : h.hashValue.toNat ≡ directHash hasher cs [MOD 2 ^ k] := by
    rw [hf.value]
    exact Nat.mod_modEq _ _
  rw [directHash_concat]
  show ((kB * h.hashValue + h.hasher c) &&& h.hashMask).toNat = _
  rw [toNat_and_mask hf.mask, BitVec.toNat_add, BitVec.toNat_mul, hf.table]
  refine (hmod _).trans (Nat.ModEq.add_right _ ((hmod _).trans ?_))
  exact (hmod 37).mul hvalue

theorem Fed.update (hf : Fed k hasher cs h) (c : C) :
    h.update c = some ((h.eat c).hashValue, h.eat c) := by
  unfold KarpRabinHash.update
  rw [hf.seen, List.length_nil, if_pos hf.seqLen]

theorem Fed.updates (hk : k ≤ W) : ∀ (cs' : List C) {cs : List C} {h : KarpRabinHash W C} (c : C),
    Fed k hasher cs h → ∃ v, h.updates c cs' = some v ∧
      v.toNat = directHash hasher (cs ++ c :: cs') % 2 ^ k
  | [], cs, h, c, hf => by
    refine ⟨_, by rw [KarpRabinHash.updates, hf.update, Option.map_some], ?_⟩
    exact (hf.eat hk c).value
  | c' :: cs', cs, h, c, hf => by
    obtain ⟨v, hv, hval⟩ := Fed.updates hk cs' c' (hf.eat hk c)
    refine ⟨v, by rw [KarpRabinHash.updates, hf.update]; exact hv, ?_⟩
    rw [hval, List.append_assoc, List.singleton_append]

/-- A new hash, with a sequence length of its own or the one it has set, after `Reset`. -/
def prepared (wordSize : ℤ) (hasher : C → BitVec W) (seqLen : Option UInt64) :
    Option (KarpRabinHash W C) := do
  let h ← new wordSize hasher
  match seqLen with
  | none => return h.reset
  | some n =>
    let h ← h.setSequenceLength n
    return h.reset

/-- The last `Update` returns the direct hash of the window. -/
def WindowHash (wordSize : ℤ) (hasher : C → BitVec W) (seqLen : Option UInt64) (c : C)
    (cs : List C) : Prop :=
  ∃ h v, prepared wordSize hasher seqLen = some h ∧ h.updates c cs = some v ∧
    v.toNat = directHash hasher (window (seqLen.getD 64).toNat (c :: cs)) % 2 ^ wordSize.toNat

theorem powerLoop_eq (mask : BitVec W) (n : UInt64) :
    (powerLoop mask n).isSome = true ↔ n.toNat ≤ INT_MAX := by
  unfold powerLoop
  split_ifs with h
  · simpa using h
  · simpa using h

theorem prepared_fed (hasher : C → BitVec W) {m : ℕ} (h : m + 1 ≤ W) {seqLen : Option UInt64}
    (hn : 1 ≤ (seqLen.getD 64).toNat) (hmax : (seqLen.getD 64).toNat ≤ INT_MAX) :
    ∃ s, prepared (m + 1 : ℕ) hasher seqLen = some s ∧ Fed (m + 1) hasher [] s := by
  obtain ⟨mask, hmask, hval⟩ := computeMask_eq h
  have hfed : ∀ b, Fed (m + 1) hasher [] ⟨seqLen.getD 64, mask, hasher, [], b, 0⟩ := fun b =>
    ⟨hval, rfl, hn, rfl, by simp [directHash]⟩
  obtain ⟨b₀, hb₀⟩ := Option.isSome_iff_exists.1 ((powerLoop_eq mask 64).2
    (by decide))
  generalize ((m + 1 : ℕ) : ℤ) = wordSize at hmask ⊢
  cases seqLen with
  | none => exact ⟨_, by simp [prepared, new, hmask, hb₀, reset], hfed b₀⟩
  | some n =>
    obtain ⟨b, hb⟩ := Option.isSome_iff_exists.1 ((powerLoop_eq mask n).2 hmax)
    exact ⟨_, by simp [prepared, new, hmask, hb₀, setSequenceLength, hb, reset], hfed b⟩

theorem prepared_length {wordSize : ℤ} {seqLen : Option UInt64}
    (h : (prepared wordSize hasher seqLen).isSome = true) :
    (1 ≤ wordSize ∧ wordSize ≤ W) ∧ (seqLen.getD 64).toNat ≤ INT_MAX := by
  obtain ⟨s, hs⟩ := Option.isSome_iff_exists.1 h
  obtain ⟨h₀, hnew, hs⟩ := Option.bind_eq_some_iff.1 hs
  obtain ⟨mask, hmask, -⟩ := Option.bind_eq_some_iff.1 hnew
  constructor
  · by_contra hno
    rw [computeMask_none hno] at hmask
    simp at hmask
  · cases seqLen with
    | none => decide
    | some n =>
      obtain ⟨h₁, hset, -⟩ := Option.bind_eq_some_iff.1 hs
      obtain ⟨b, hb, -⟩ := Option.bind_eq_some_iff.1 hset
      exact (powerLoop_eq _ _).1 (Option.isSome_of_mem hb)

/-- 37 is odd, so the part before the window drops out only when it is 0 itself. -/
theorem window_modEq_iff (k n : ℕ) (cs : List C) :
    directHash hasher cs % 2 ^ k = directHash hasher (window n cs) % 2 ^ k ↔
      2 ^ k ∣ directHash hasher (beforeWindow n cs) := by
  have hco : Nat.Coprime (2 ^ k) (37 ^ (window n cs).length) :=
    Nat.Coprime.pow k _ (by decide)
  rw [directHash_window hasher n cs]
  constructor
  · intro heq
    refine hco.dvd_of_dvd_mul_right ?_
    exact (Nat.modEq_zero_iff_dvd.1 (Nat.ModEq.add_right_cancel' _ (by rw [zero_add]; exact heq)))
  · intro hdvd
    rw [Nat.add_mod, Nat.mod_eq_zero_of_dvd (hdvd.mul_right _), zero_add, Nat.mod_mod]

variable {wordSize : ℤ} {seqLen : Option UInt64} {c : C}

theorem WindowHash.before (hn : 1 ≤ (seqLen.getD 64).toNat)
    (h : WindowHash wordSize hasher seqLen c cs) :
    (1 ≤ wordSize ∧ wordSize ≤ W) ∧ (seqLen.getD 64).toNat ≤ INT_MAX ∧
      2 ^ wordSize.toNat ∣ directHash hasher (beforeWindow (seqLen.getD 64).toNat (c :: cs)) := by
  obtain ⟨s, v, hs, hv, hval⟩ := h
  obtain ⟨⟨h1, hW⟩, hmax⟩ := prepared_length (Option.isSome_of_mem hs)
  obtain ⟨m, rfl⟩ : ∃ m : ℕ, wordSize = (m + 1 : ℕ) := ⟨(wordSize - 1).toNat, by omega⟩
  obtain ⟨s', hs', hf⟩ := prepared_fed (m := m) hasher (by omega) hn hmax
  obtain rfl := Option.some.inj (hs.symm.trans hs')
  obtain ⟨v', hv', hval'⟩ := Fed.updates (by omega) cs c hf
  obtain rfl := Option.some.inj (hv.symm.trans hv')
  exact ⟨⟨h1, hW⟩, hmax, (window_modEq_iff _ _ _).1 (hval'.symm.trans hval)⟩

/-- The last `Update` returns the direct hash of the last `n` characters exactly when the word size
is one of the type, an `int` holds the length, and the characters before those `n`, if there are
any, have the direct hash 0. -/
theorem windowHash_iff (wordSize : ℤ) (hasher : C → BitVec W) (seqLen : Option UInt64)
    (hn : 1 ≤ (seqLen.getD 64).toNat) (c : C) (cs : List C) :
    WindowHash wordSize hasher seqLen c cs ↔
      (1 ≤ wordSize ∧ wordSize ≤ W) ∧ (seqLen.getD 64).toNat ≤ INT_MAX ∧
        2 ^ wordSize.toNat ∣
          directHash hasher (beforeWindow (seqLen.getD 64).toNat (c :: cs)) := by
  refine ⟨WindowHash.before hn, ?_⟩
  rintro ⟨⟨h1, hW⟩, hmax, hdvd⟩
  obtain ⟨m, rfl⟩ : ∃ m : ℕ, wordSize = (m + 1 : ℕ) := ⟨(wordSize - 1).toNat, by omega⟩
  obtain ⟨s, hs, hf⟩ := prepared_fed (m := m) hasher (by omega) hn hmax
  obtain ⟨v, hv, hval⟩ := Fed.updates (by omega) cs c hf
  exact ⟨s, v, hs, hv, hval.trans ((window_modEq_iff _ _ _).2 hdvd)⟩

/-- A table that takes each byte to itself. -/
def byteTable (c : UInt8) : BitVec 64 := c.toBitVec.setWidth 64

/-- A window of two bytes that has left behind a byte whose hash is 0 in words of three bits. -/
theorem windowHash_iff_byteTable : WindowHash 3 byteTable (some 2) 8 [3, 5] :=
  (windowHash_iff 3 byteTable (some 2) (by decide) 8 [3, 5]).2 ⟨by decide, by decide, by decide⟩

/-- A window of one byte, and two bytes fed. -/
theorem not_windowHash :
    ¬ ∀ (wordSize : ℤ) (hasher : UInt8 → BitVec 64) (seqLen : Option UInt64) (c : UInt8)
      (cs : List UInt8), 1 ≤ wordSize → wordSize ≤ 64 → 1 ≤ (seqLen.getD 64).toNat →
        WindowHash wordSize hasher seqLen c cs := by
  intro h
  obtain ⟨-, -, hdvd⟩ := (h 64 byteTable (some 1) 1 [0] (by decide) (by decide) (by decide)).before
    (by decide)
  exact absurd (Nat.le_of_dvd (by decide) hdvd) (by decide)

end KarpRabinHash

end CPPCodes.Dedup
