import CPPCodes.Lib.Blockwise
import Mathlib.Data.UInt

/-!
# The digest of FIPS PUB 180-1

The standard that sha1.c cites: words are numbers below 2 ^ 32, octets stand in big-endian order, a
message is padded to full blocks of 64 octets, and each block is worked into five words.
-/

namespace CPPCodes.Sha1.Standard

/-- The words of a digest, and of what a block is worked into. -/
abbrev Hash := Vector UInt32 5

/-- The octets of a number, the most significant one first. -/
def octets (k n : ℕ) : List UInt8 :=
  (List.range k).map fun i => UInt8.ofNat (n / 256 ^ (k - 1 - i))

/-- The number that octets stand for. -/
def number (bs : List UInt8) : ℕ := bs.foldl (fun n b => n * 256 + b.toNat) 0

/-- `S^n(X)`. -/
def shift (n : ℕ) (x : UInt32) : UInt32 := ⟨x.toBitVec.rotateLeft n⟩

def f (t : ℕ) (B C D : UInt32) : UInt32 :=
  if t < 20 then (B &&& C) ||| (~~~B &&& D)
  else if t < 40 then B ^^^ C ^^^ D
  else if t < 60 then (B &&& C) ||| (B &&& D) ||| (C &&& D)
  else B ^^^ C ^^^ D

def K (t : ℕ) : UInt32 :=
  if t < 20 then 0x5A827999
  else if t < 40 then 0x6ED9EBA1
  else if t < 60 then 0x8F1BBCDC
  else 0xCA62C1D6

/-- The words of a block. -/
def W (M : List UInt8) (t : ℕ) : UInt32 :=
  if t < 16 then UInt32.ofNat (number ((M.drop (4 * t)).take 4))
  else shift 1 (W M (t - 3) ^^^ W M (t - 8) ^^^ W M (t - 14) ^^^ W M (t - 16))

/-- The five buffers behind `t` steps. -/
def buffers (M : List UInt8) (H : Hash) : ℕ → Hash
  | 0 => H
  | t + 1 =>
    let r := buffers M H t
    #v[shift 5 r[0]! + f t r[1]! r[2]! r[3]! + r[4]! + W M t + K t, r[0]!, shift 30 r[1]!, r[2]!,
      r[3]!]

def compress (H : Hash) (M : List UInt8) : Hash := H.zipWith (· + ·) (buffers M H 80)

/-- `H0` to `H4`. -/
def initialWords : List UInt32 := [0x67452301, 0xEFCDAB89, 0x98BADCFE, 0x10325476, 0xC3D2E1F0]

def initial : Hash := ⟨initialWords.toArray, rfl⟩

/-- A one bit, zeros up to 8 octets in front of the end of a block, and the length in bits. -/
def pad (m : List UInt8) : List UInt8 :=
  m ++ 0x80 :: List.replicate ((119 - m.length % 64) % 64) 0 ++ octets 8 (8 * m.length)

def words (m : List UInt8) : Hash := Blockwise.chain compress 64 initial (pad m)

def digest (m : List UInt8) : List UInt8 := (words m).toList.flatMap fun w => octets 4 w.toNat

end CPPCodes.Sha1.Standard
