import CPPCodes.Dedup.Window

/-!
# A rolling hash over a window

`KarpRabinHash` of String/RollingHash.h, which is told the character that leaves the window. `W` is
the width of `HashValueType`, which is an unsigned type that is not promoted, and the table of
`CharacterHash` is any function. From window to window `Update` keeps the direct hash of the window
(`Holds.update`), which is what a fresh hasher comes to (`roll_eq_rehash`).
-/

namespace CPPCodes.Strings

open Dedup (computeMask)
open Dedup.KarpRabinHash (directHash directHash_concat computeMask_eq toNat_and_mask)

structure KarpRabinHash (W : ℕ) (C : Type) where
  seqLen : ℤ
  hashMask : BitVec W
  hasher : C → BitVec W
  bToN : BitVec W
  hashValue : BitVec W

namespace KarpRabinHash

variable {W : ℕ} {C : Type}

def kB : BitVec W := 37

/-- The constructor, given the table that it generates. -/
def new (hasher : C → BitVec W) (seqLen : ℤ) (wordSize : ℤ := 19) :
    Option (KarpRabinHash W C) := do
  let hashMask ← computeMask W wordSize
  let bToN := (List.range seqLen.toNat).foldl (fun b _ => (b * kB) &&& hashMask) 1
  return { seqLen, hashMask, hasher, bToN, hashValue := 0 }

variable (h : KarpRabinHash W C)

def reset : KarpRabinHash W C := { h with hashValue := 0 }

def eat (c : C) : KarpRabinHash W C :=
  { h with hashValue := (kB * h.hashValue + h.hasher c) &&& h.hashMask }

def update (out in_ : C) : KarpRabinHash W C :=
  { h with
    hashValue := (kB * h.hashValue + h.hasher in_ - h.bToN * h.hasher out) &&& h.hashMask }

/-- `Eat` for each of the characters. -/
def eats (cs : List C) : KarpRabinHash W C := cs.foldl eat h

/-- `Eat` for the first `n` characters, and `Update(text[i], text[i + n])` for `i` below `j`. -/
def roll (text : List C) (n : ℕ) : ℕ → Option (KarpRabinHash W C)
  | 0 => some (h.eats (text.take n))
  | j + 1 => do
    let h ← roll text n j
    let out ← text[j]?
    let in_ ← text[j + n]?
    return h.update out in_

end KarpRabinHash

/-- The `n` characters from `j` on. -/
def window {C : Type} (text : List C) (n j : ℕ) : List C := (text.drop j).take n

theorem length_window {C : Type} {text : List C} {n j : ℕ} (h : j + n ≤ text.length) :
    (window text n j).length = n := by
  unfold window
  rw [List.length_take, List.length_drop]
  omega

/-- A character joins at the end, and one leaves at the front. -/
theorem window_concat {C : Type} {text : List C} {n j : ℕ} {out in_ : C}
    (hout : text[j]? = some out) (hin : text[j + n]? = some in_) :
    window text n j ++ [in_] = out :: window text n (j + 1) := by
  obtain ⟨hj, rfl⟩ := List.getElem?_eq_some_iff.1 hout
  obtain ⟨hjn, rfl⟩ := List.getElem?_eq_some_iff.1 hin
  unfold window
  rw [← List.take_succ_cons, ← List.drop_eq_getElem_cons hj]
  have hget : (text.drop j)[n]? = some text[j + n] := by
    rw [List.getElem?_drop, List.getElem?_eq_getElem hjn]
  rw [List.take_add_one, hget]
  rfl

namespace KarpRabinHash

variable {W : ℕ} {C : Type} {k : ℕ}

theorem directHash_cons (hasher : C → BitVec W) (c : C) (cs : List C) :
    directHash hasher (c :: cs) =
      (hasher c).toNat * 37 ^ cs.length + directHash hasher cs := by
  unfold directHash
  rw [List.map_cons, Horner.weigh_cons, List.length_map]

/-- The hash is masked to `k` bits, for windows of `n` characters, and its value is the direct hash
of the characters. -/
structure Holds (k n : ℕ) (hasher : C → BitVec W) (cs : List C) (h : KarpRabinHash W C) :
    Prop where
  mask : h.hashMask.toNat = 2 ^ k - 1
  table : h.hasher = hasher
  power : h.bToN.toNat ≡ 37 ^ n [MOD 2 ^ k]
  value : h.hashValue.toNat = directHash hasher cs % 2 ^ k

variable {n : ℕ} {hasher : C → BitVec W} {cs : List C} {h : KarpRabinHash W C}

theorem mod_width_modEq (hk : k ≤ W) (x : ℕ) : x % 2 ^ W ≡ x [MOD 2 ^ k] :=
  (Nat.mod_modEq x _).of_dvd (Nat.pow_dvd_pow 2 hk)

/-- The loop of the constructor: a power of 37 under the mask. -/
theorem power_modEq (hk : k ≤ W) {mask : BitVec W} (hmask : mask.toNat = 2 ^ k - 1) (n : ℕ) :
    ((List.range n).foldl (fun b _ => (b * kB) &&& mask) (1 : BitVec W)).toNat ≡ 37 ^ n
      [MOD 2 ^ k] := by
  induction n with
  | zero => exact mod_width_modEq hk 1
  | succ n ih =>
    rw [List.range_succ, List.foldl_append, List.foldl_cons, List.foldl_nil, toNat_and_mask hmask,
      BitVec.toNat_mul, pow_succ]
    exact (Nat.mod_modEq _ _).trans ((mod_width_modEq hk _).trans (ih.mul (mod_width_modEq hk 37)))

theorem new_holds (hasher : C → BitVec W) (n : ℕ) {wordSize : ℤ} (h1 : 1 ≤ wordSize)
    (hW : wordSize ≤ W) :
    ∃ h, new hasher n wordSize = some h ∧ Holds wordSize.toNat n hasher [] h := by
  obtain ⟨m, rfl⟩ : ∃ m : ℕ, wordSize = (m + 1 : ℕ) := ⟨(wordSize - 1).toNat, by omega⟩
  obtain ⟨mask, hmask, hval⟩ := computeMask_eq (W := W) (m := m) (by omega)
  refine ⟨_, by rw [new, hmask]; rfl, hval, rfl, ?_, by simp [directHash]⟩
  exact power_modEq (by omega) hval n

theorem Holds.reset (hh : Holds k n hasher cs h) : Holds k n hasher [] h.reset :=
  ⟨hh.mask, hh.table, hh.power, by simp [KarpRabinHash.reset, directHash]⟩

theorem Holds.value_modEq (hh : Holds k n hasher cs h) :
    h.hashValue.toNat ≡ directHash hasher cs [MOD 2 ^ k] := by
  rw [hh.value]
  exact Nat.mod_modEq _ _

theorem Holds.times (hk : k ≤ W) (hh : Holds k n hasher cs h) (c : C) :
    (kB * h.hashValue + h.hasher c).toNat ≡ directHash hasher (cs ++ [c]) [MOD 2 ^ k] := by
  rw [directHash_concat, BitVec.toNat_add, BitVec.toNat_mul, hh.table]
  refine (mod_width_modEq hk _).trans (Nat.ModEq.add_right _ ((mod_width_modEq hk _).trans ?_))
  exact (mod_width_modEq hk 37).mul hh.value_modEq

theorem Holds.eat (hk : k ≤ W) (hh : Holds k n hasher cs h) (c : C) :
    Holds k n hasher (cs ++ [c]) (h.eat c) := by
  refine ⟨hh.mask, hh.table, hh.power, ?_⟩
  show ((kB * h.hashValue + h.hasher c) &&& h.hashMask).toNat = _
  rw [toNat_and_mask hh.mask]
  exact hh.times hk c

theorem Holds.eats (hk : k ≤ W) : ∀ (cs' : List C) {cs : List C} {h : KarpRabinHash W C},
    Holds k n hasher cs h → Holds k n hasher (cs ++ cs') (h.eats cs')
  | [], cs, _, hh => by rwa [List.append_nil]
  | c :: cs', cs, h, hh => by
    have hrest := Holds.eats hk cs' (hh.eat hk c)
    rwa [List.append_assoc] at hrest

/-- What is subtracted is the share of the character that leaves. -/
theorem Holds.update (hk : k ≤ W) (hh : Holds k n hasher cs h) {out in_ : C} {cs' : List C}
    (hcs : cs ++ [in_] = out :: cs') (hlen : cs'.length = n) :
    Holds k n hasher cs' (h.update out in_) := by
  refine ⟨hh.mask, hh.table, hh.power, ?_⟩
  show ((kB * h.hashValue + h.hasher in_ - h.bToN * h.hasher out) &&& h.hashMask).toNat = _
  rw [toNat_and_mask hh.mask]
  have hshare : (h.bToN * h.hasher out).toNat ≡ (hasher out).toNat * 37 ^ n [MOD 2 ^ k] := by
    rw [BitVec.toNat_mul, hh.table, mul_comm (hasher out).toNat]
    exact (mod_width_modEq hk _).trans (hh.power.mul_right _)
  have htimes := hh.times hk in_
  rw [hcs, directHash_cons, hlen, Nat.add_comm] at htimes
  -- the difference and the share are the hash before
  have hsum : (kB * h.hashValue + h.hasher in_ - h.bToN * h.hasher out).toNat +
      (h.bToN * h.hasher out).toNat ≡ (kB * h.hashValue + h.hasher in_).toNat [MOD 2 ^ k] := by
    refine (mod_width_modEq hk _).symm.trans ?_
    rw [← BitVec.toNat_add, BitVec.sub_add_cancel]
  exact Nat.ModEq.add_right_cancel hshare (hsum.trans htimes)

theorem Holds.roll (hk : k ≤ W) {text : List C} (hh : Holds k n hasher [] h) :
    ∀ {j : ℕ}, j + n ≤ text.length →
      ∃ h', h.roll text n j = some h' ∧ Holds k n hasher (window text n j) h'
  | 0, _ => ⟨_, rfl, hh.eats hk (text.take n)⟩
  | j + 1, hj => by
    obtain ⟨h', hroll, hh'⟩ := hh.roll hk (show j + n ≤ text.length by omega)
    have hout : text[j]? = some text[j] := List.getElem?_eq_getElem _
    have hin : text[j + n]? = some text[j + n] := List.getElem?_eq_getElem _
    refine ⟨h'.update text[j] text[j + n], ?_, ?_⟩
    · simp only [KarpRabinHash.roll, hroll, hout, hin]
      rfl
    · exact hh'.update hk (window_concat hout hin) (length_window hj)

/-- The value after rolling to the window at `j` is that of a fresh hasher for this window. -/
theorem roll_eq_rehash (hasher : C → BitVec W) {wordSize : ℤ} (h1 : 1 ≤ wordSize)
    (hW : wordSize ≤ W) (n : ℕ) (text : List C) (j : ℕ) (hj : j + n ≤ text.length) :
    ∃ h rolled, new hasher n wordSize = some h ∧ h.roll text n j = some rolled ∧
      rolled.hashValue = (h.reset.eats ((text.drop j).take n)).hashValue := by
  have hk : wordSize.toNat ≤ W := by omega
  obtain ⟨h, hnew, hh⟩ := new_holds hasher n h1 hW
  obtain ⟨rolled, hroll, hh'⟩ := hh.roll hk hj
  refine ⟨h, rolled, hnew, hroll, BitVec.eq_of_toNat_eq ?_⟩
  have hfresh := hh.reset.eats hk (window text n j)
  rw [List.nil_append] at hfresh
  exact hh'.value.trans hfresh.value.symm

/-- Windows of two bytes, under a mask of 32 bits. -/
theorem roll_eq_rehash_two : ∃ h rolled : KarpRabinHash 32 UInt8,
    new (fun c => c.toBitVec.setWidth 32) (2 : ℕ) 32 = some h ∧
      h.roll [1, 2, 3] 2 1 = some rolled ∧ rolled.hashValue = (h.reset.eats [2, 3]).hashValue :=
  roll_eq_rehash (fun c : UInt8 => c.toBitVec.setWidth 32) (by decide) (by decide) 2 [1, 2, 3] 1
    (by decide)

end KarpRabinHash

end CPPCodes.Strings
