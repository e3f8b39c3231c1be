import Mathlib.Algebra.Ring.Nat
import Mathlib.Data.Int.Notation

/-!
# The rolling hash

`KarpRabinHash` of RollingHash.h. `W` is the width of `HashValueType`, which is an unsigned type
that is not promoted; `CharType` is any type, and the table of `CharacterHash` any function from it.
What stops at an assert, or is not defined, is `none`.
-/

namespace CPPCodes.Dedup

def INT_MAX : ℕ := 2 ^ 31 - 1

/-- `ComputeMask`: the bits up to the highest. A shift by -1 is not defined. -/
def computeMask (W : ℕ) (bits : ℤ) : Option (BitVec W) :=
  if bits < 0 ∨ (W : ℤ) < bits then none
  else if bits = 0 then none
  else
    let x : BitVec W := 1#W <<< (bits - 1).toNat
    some (x ^^^ (x - 1))

structure KarpRabinHash (W : ℕ) (C : Type) where
  seqLen : UInt64
  hashMask : BitVec W
  hasher : C → BitVec W
  seen : List C
  bToN : BitVec W
  hashValue : BitVec W

namespace KarpRabinHash

variable {W : ℕ} {C : Type}

def kB : BitVec W := 37

/-- The loop over `b_to_n_`. Its counter is an `int`, which overflows on the way to a length that
no `int` holds. -/
def powerLoop (hashMask : BitVec W) (seqLen : UInt64) : Option (BitVec W) :=
  if INT_MAX < seqLen.toNat then none
  else some ((List.range seqLen.toNat).foldl (fun b _ => (b * kB) &&& hashMask) 1)

/-- The constructor, given the table that it generates. -/
def new (wordSize : ℤ) (hasher : C → BitVec W) : Option (KarpRabinHash W C) := do
  let hashMask ← computeMask W wordSize
  let bToN ← powerLoop hashMask 64
  return { seqLen := 64, hashMask, hasher, seen := [], bToN, hashValue := 0 }

variable (h : KarpRabinHash W C)

def setSequenceLength (seqLen : UInt64) : Option (KarpRabinHash W C) := do
  let bToN ← powerLoop h.hashMask seqLen
  return { h with bToN, seqLen }

def reset : KarpRabinHash W C := { h with hashValue := 0, seen := [] }

def eat (c : C) : KarpRabinHash W C :=
  { h with hashValue := (kB * h.hashValue + h.hasher c) &&& h.hashMask }

/-- `Update`, which returns the hash value. The front of an empty queue is not defined. -/
def update (c : C) : Option (BitVec W × KarpRabinHash W C) :=
  if h.seen.length < h.seqLen.toNat then
    let h := h.eat c
    some (h.hashValue, h)
  else
    match h.seen with
    | [] => none
    | out :: seen =>
      let hashValue := (kB * h.hashValue + h.hasher c - h.bToN * h.hasher out) &&& h.hashMask
      some (hashValue, { h with seen := seen ++ [c], hashValue })

/-- What the last of several calls of `Update` returns, the first being for `c`. -/
def updates : KarpRabinHash W C → C → List C → Option (BitVec W)
  | h, c, [] => (h.update c).map Prod.fst
  | h, c, c' :: cs =>
    match h.update c with
    | none => none
    | some (_, h) => updates h c' cs

end KarpRabinHash

end CPPCodes.Dedup
