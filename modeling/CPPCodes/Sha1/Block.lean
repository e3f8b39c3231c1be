import CPPCodes.Sha1.Context
import CPPCodes.Sha1.Standard
import Mathlib.Data.List.Basic

/-!
# A block is worked in as the standard says

The array `W` and the four loops of `SHA1ProcessMessageBlock` compute the words and the steps of the
standard, for which neither an array nor a loop is needed.
-/

namespace CPPCodes.Sha1

open Standard

theorem sha1CircularShift_eq {n : ℕ} (h0 : 0 < n) (hn : n < 32) (x : UInt32) :
    sha1CircularShift (UInt32.ofNat n) x = shift n x := by
  have hnat : (UInt32.ofNat n).toBitVec.toNat = n := Nat.mod_eq_of_lt (by omega)
  have hleft : ((UInt32.ofNat n).toBitVec % 32).toNat = n := by
    rw [BitVec.toNat_umod, hnat]
    exact Nat.mod_eq_of_lt hn
  have hright : ((32 - UInt32.ofNat n).toBitVec % 32).toNat = 32 - n := by
    rw [UInt32.toBitVec_sub, BitVec.toNat_umod, BitVec.toNat_sub, hnat]
    show (2 ^ 32 - n + 32) % 2 ^ 32 % 32 = 32 - n
    omega
  apply UInt32.toBitVec_inj.1
  rw [sha1CircularShift, shift, UInt32.toBitVec_or, UInt32.toBitVec_shiftLeft,
    UInt32.toBitVec_shiftRight, BitVec.rotateLeft_def, Nat.mod_eq_of_lt hn, BitVec.shiftLeft_eq',
    BitVec.ushiftRight_eq', hleft, hright]

/-- Four octets that are shifted into their places do not overlap. -/
theorem word_eq (a b c d : UInt8) :
    a.toUInt32 <<< 24 ||| b.toUInt32 <<< 16 ||| c.toUInt32 <<< 8 ||| d.toUInt32 =
      UInt32.ofNat (number [a, b, c, d]) := by
  have ha := a.toNat_lt
  have hb := b.toNat_lt
  have hc := c.toNat_lt
  have hd := d.toNat_lt
  have h1 : 2 ^ 24 * a.toNat ||| 2 ^ 16 * b.toNat = 2 ^ 16 * (2 ^ 8 * a.toNat + b.toNat) := by
    rw [← Nat.two_pow_add_eq_or_of_lt (by omega)]
    omega
  have h2 : 2 ^ 16 * (2 ^ 8 * a.toNat + b.toNat) ||| 2 ^ 8 * c.toNat =
      2 ^ 8 * (2 ^ 16 * a.toNat + 2 ^ 8 * b.toNat + c.toNat) := by
    rw [← Nat.two_pow_add_eq_or_of_lt (by omega)]
    omega
  have h3 : 2 ^ 8 * (2 ^ 16 * a.toNat + 2 ^ 8 * b.toNat + c.toNat) ||| d.toNat =
      number [a, b, c, d] := by
    rw [← Nat.two_pow_add_eq_or_of_lt (by omega)]
    simp only [number, List.foldl]
    omega
  apply UInt32.toNat_inj.1
  have hplace : ∀ {x k : ℕ}, x <<< k = 2 ^ k * x := fun {x k} => by
    rw [Nat.shiftLeft_eq, Nat.mul_comm]
  simp only [UInt32.toNat_or, UInt32.toNat_shiftLeft, UInt8.toNat_toUInt32, UInt32.toNat_ofNat',
    UInt32.reduceToNat, Nat.reduceMod, hplace]
  rw [Nat.mod_eq_of_lt (by omega), Nat.mod_eq_of_lt (by omega), Nat.mod_eq_of_lt (by omega), h1, h2,
    h3, Nat.mod_eq_of_lt]
  simp only [number, List.foldl]
  omega

theorem take_four {M : List UInt8} {i : ℕ} (h : i + 4 ≤ M.length) : (M.drop i).take 4 =
    [M.getD i 0, M.getD (i + 1) 0, M.getD (i + 2) 0, M.getD (i + 3) 0] := by
  have hget : ∀ {k}, k < M.length → M.drop k = M.getD k 0 :: M.drop (k + 1) := fun {k} hk => by
    rw [List.drop_eq_getElem_cons hk, List.getD_eq_getElem?_getD, List.getElem?_eq_getElem hk]
    rfl
  rw [hget (by omega), hget (by omega), hget (by omega), hget (by omega)]
  rfl

/-- The words that are there give the next one. -/
theorem words_succ (M : List UInt8) (n : ℕ) : (List.range' 16 n).foldl (fun w t =>
      w ++ [sha1CircularShift 1
        (w.getD (t - 3) 0 ^^^ w.getD (t - 8) 0 ^^^ w.getD (t - 14) 0 ^^^ w.getD (t - 16) 0)])
      ((List.range 16).map (W M)) = (List.range (16 + n)).map (W M) := by
  induction n with
  | zero => rfl
  | succ n ih =>
    have hget : ∀ {k}, k < 16 + n → ((List.range (16 + n)).map (W M)).getD k 0 = W M k :=
      fun {k} hk => by simp [List.getD_eq_getElem?_getD, hk]
    have hword : W M (16 + n) = shift 1 (W M (16 + n - 3) ^^^ W M (16 + n - 8) ^^^
        W M (16 + n - 14) ^^^ W M (16 + n - 16)) := by
      rw [W, if_neg (by omega)]
    rw [List.range'_1_concat, List.foldl_append, ih, List.foldl_cons, List.foldl_nil,
      hget (by omega), hget (by omega), hget (by omega), hget (by omega), ← Nat.add_assoc,
      List.range_succ, List.map_append, List.map_singleton, hword,
      ← sha1CircularShift_eq (by decide) (by decide)]
    rfl

theorem wordSequence_eq (block : Vector UInt8 64) :
    wordSequence block = (List.range 80).map (W block.toList) := by
  have hfirst : ∀ t ∈ List.range 16, (block.toList.getD (t * 4) 0).toUInt32 <<< 24 |||
      (block.toList.getD (t * 4 + 1) 0).toUInt32 <<< 16 |||
      (block.toList.getD (t * 4 + 2) 0).toUInt32 <<< 8 |||
      (block.toList.getD (t * 4 + 3) 0).toUInt32 = W block.toList t := fun t ht => by
    have ht : t < 16 := List.mem_range.1 ht
    have hlen : 4 * t + 4 ≤ block.toList.length := by
      rw [Vector.length_toList]
      omega
    rw [word_eq, W, if_pos ht, take_four hlen, Nat.mul_comm t]
  rw [wordSequence, List.map_congr_left hfirst]
  exact words_succ block.toList 64

def Buffers.toHash (r : Buffers) : Hash := #v[r.A, r.B, r.C, r.D, r.E]

theorem toHash_turn (g : UInt32 → UInt32 → UInt32 → UInt32) (w k : UInt32) (r : Buffers) :
    (r.turn g w k).toHash = #v[shift 5 r.toHash[0]! + g r.toHash[1]! r.toHash[2]! r.toHash[3]! +
      r.toHash[4]! + w + k, r.toHash[0]!, shift 30 r.toHash[1]!, r.toHash[2]!, r.toHash[3]!] := by
  have h5 : sha1CircularShift 5 r.A = shift 5 r.A :=
    sha1CircularShift_eq (n := 5) (by decide) (by decide) _
  have h30 : sha1CircularShift 30 r.B = shift 30 r.B :=
    sha1CircularShift_eq (n := 30) (by decide) (by decide) _
  rw [Buffers.turn, h5, h30]
  rfl

/-- One of the loops, in which the standard has one function and one constant. -/
theorem loop_eq {M : List UInt8} {H : Hash} (start stop : ℕ) (hstop : stop = start + 20)
    (hle : stop ≤ 80) {g : UInt32 → UInt32 → UInt32 → UInt32} {k : UInt32} {r : Buffers}
    (hr : r.toHash = buffers M H start)
    (h : ∀ t, start ≤ t → t < stop → f t = g ∧ K t = k) :
    (r.loop g ((List.range 80).map (W M)) k start).toHash = buffers M H stop := by
  have hturns : ∀ n, start + n ≤ stop → ((List.range' start n).foldl
      (fun r t => r.turn g (((List.range 80).map (W M)).getD t 0) k) r).toHash =
      buffers M H (start + n) := fun n => by
    induction n with
    | zero => exact fun _ => hr
    | succ n ih =>
      intro hn
      have hword : ((List.range 80).map (W M)).getD (start + n) 0 = W M (start + n) := by
        simp [List.getD_eq_getElem?_getD, show start + n < 80 by omega]
      obtain ⟨hf, hk⟩ := h (start + n) (by omega) (by omega)
      rw [List.range'_1_concat, List.foldl_append, List.foldl_cons, List.foldl_nil, hword,
        toHash_turn, ih (by omega), ← Nat.add_assoc, buffers, hf, hk]
  rw [hstop]
  exact hturns 20 (Nat.le_of_eq hstop.symm)

theorem loops_eq {M : List UInt8} {H : Hash} {r : Buffers} (hr : r.toHash = H) :
    (r.loops ((List.range 80).map (W M))).toHash = buffers M H 80 := by
  have h1 := loop_eq (M := M) 0 20 rfl (by decide) hr fun t _ ht =>
    ⟨funext₃ fun B C D => by rw [f, if_pos ht], if_pos ht⟩
  have h2 := loop_eq 20 40 rfl (by decide) h1 fun t _ ht =>
    ⟨funext₃ fun B C D => by rw [f, if_neg (by omega), if_pos ht],
      by rw [K, if_neg (by omega), if_pos ht]⟩
  have h3 := loop_eq 40 60 rfl (by decide) h2 fun t _ ht =>
    ⟨funext₃ fun B C D => by rw [f, if_neg (by omega), if_neg (by omega), if_pos ht],
      by rw [K, if_neg (by omega), if_neg (by omega), if_pos ht]⟩
  exact loop_eq 60 80 rfl (by decide) h3 fun t _ ht =>
    ⟨funext₃ fun B C D => by rw [f, if_neg (by omega), if_neg (by omega), if_neg (by omega)],
      by rw [K, if_neg (by omega), if_neg (by omega), if_neg (by omega)]⟩

theorem toHash_getElem (H : Hash) : Buffers.toHash ⟨H[0]!, H[1]!, H[2]!, H[3]!, H[4]!⟩ = H := by
  apply Vector.ext
  intro i hi
  match i, hi with
  | 0, _ | 1, _ | 2, _ | 3, _ | 4, _ => rfl

theorem zipWith_toHash (H : Hash) (r : Buffers) : H.zipWith (· + ·) r.toHash =
    #v[H[0]! + r.A, H[1]! + r.B, H[2]! + r.C, H[3]! + r.D, H[4]! + r.E] := by
  apply Vector.ext
  intro i hi
  rw [Vector.getElem_zipWith]
  match i, hi with
  | 0, _ | 1, _ | 2, _ | 3, _ | 4, _ => rfl

theorem sha1ProcessMessageBlock_eq (context : SHA1Context) : sha1ProcessMessageBlock context =
    { context with
      intermediateHash := compress context.intermediateHash context.messageBlock.toList
      messageBlockIndex := 0 } := by
  have hzip : sha1ProcessMessageBlock context =
      { context with
        intermediateHash := context.intermediateHash.zipWith (· + ·)
          (Buffers.loops (wordSequence context.messageBlock)
            ⟨context.intermediateHash[0]!, context.intermediateHash[1]!,
              context.intermediateHash[2]!, context.intermediateHash[3]!,
              context.intermediateHash[4]!⟩).toHash
        messageBlockIndex := 0 } := by
    rw [zipWith_toHash]
    rfl
  rw [hzip, wordSequence_eq, loops_eq (toHash_getElem context.intermediateHash), compress]

end CPPCodes.Sha1
