import CPPCodes.Rocksfs.Base64
import Mathlib.Algebra.Group.Int.Defs
import Mathlib.Algebra.Order.Group.Nat

/-!
# An open file

rocksfile.cc: the object the descriptors of one file share, with their number and the deleted
flag, and its loops over the blocks of a range. A block is a record of its own, under the key of
the file, a colon and the number of the block.
-/

namespace CPPCodes.Rocksfs

def F_BLOCK : Str := ['/', 'F', 'B']
def F_DATA : Str := ['/', 'F', 'D']
def F_SIZE : Str := ['/', 'F', 'S']
def F_OFFSET : Str := ['/', 'F', 'O']

structure RocksfileImpl where
  key : Str
  refcnt : UInt32
  deleted : Bool
  bs : ℕ
  bsMask : ℕ
  bsShift : ℕ
  bs_pos : 0 < bs

namespace RocksfileImpl

/-- The loop that counts the ones at the low end of the mask. -/
def countShift (mask : ℕ) : ℕ → ℕ → ℕ
  | 0, shift => shift
  | fuel + 1, shift => if mask.testBit shift then countShift mask fuel (shift + 1) else shift

/-- The constructor. The mask is a `uint32_t`, so the count stops within 32 turns. -/
def new (key : Str) (blockSize : ℕ) : Except Fault RocksfileImpl :=
  if h : blockSize ≠ 0 ∧ blockSize &&& (blockSize - 1) = 0 then
    .ok { key, refcnt := 0, deleted := false, bs := blockSize, bsMask := blockSize - 1,
          bsShift := countShift (blockSize - 1) 32 0, bs_pos := Nat.pos_of_ne_zero h.1 }
  else .error .assertion

def «open» (fi : RocksfileImpl) : RocksfileImpl := { fi with refcnt := fi.refcnt + 1 }

/-- The object after `close`, what it returns and `unlink`. -/
def close (fi : RocksfileImpl) : RocksfileImpl × UInt32 × Bool :=
  let rc := fi.refcnt - 1
  ({ fi with refcnt := rc }, rc, rc = 0 && fi.deleted)

def markDeleted (fi : RocksfileImpl) : RocksfileImpl := { fi with deleted := true }

/-- An `off_t` under a mask of 32 bits. -/
def lowBits (fi : RocksfileImpl) (offset : ℤ) : ℕ := (offset % 2 ^ 64).toNat &&& fi.bsMask

def isBlockAligned (fi : RocksfileImpl) (offset : ℤ) : Bool := fi.lowBits offset = 0

/-- The first and the last block of a range: `offset >> bs_shift` is on `off_t`, and
`(offset + count - 1) >> bs_shift` on 64 bits without a sign. -/
def ioBlocks (fi : RocksfileImpl) (offset : ℤ) (count : ℕ) : ℕ × ℕ :=
  (((offset >>> fi.bsShift) % 2 ^ 32).toNat,
    ((((offset + count - 1) % 2 ^ 64) >>> fi.bsShift) % 2 ^ 32).toNat)

/-- The bytes of the range that are in the block of its offset. -/
def blockCount (fi : RocksfileImpl) (offset : ℤ) (count : ℕ) : ℕ :=
  min (if fi.isBlockAligned offset then fi.bs else fi.bs - fi.lowBits offset) count

def encode (fi : RocksfileImpl) (block : ℕ) (buf : List UInt8) (offset : ℤ) :
    Except Fault Json := do
  check (buf.length = fi.bs)
  return ((((∅ : Json).insert F_BLOCK (.num block)).insert F_DATA
    (.str (base64Encode buf))).insert F_SIZE (.num buf.length)).insert F_OFFSET
    (.num (offset % 2 ^ 64))

/-- The buffer after `decode`, which reads the fields as `uint32_t` and `uint64_t`. -/
def decode (fi : RocksfileImpl) (j : Json) (block : ℕ) (buf : List UInt8) (offset : ℤ) :
    Except Fault (List UInt8) := do
  check (buf.length = fi.bs)
  let b ← j.num F_BLOCK
  let s ← j.num F_SIZE
  let o ← j.num F_OFFSET
  check (offset % 2 ^ 64 = o % 2 ^ 64 ∧ b % 2 ^ 32 = block ∧ s % 2 ^ 32 = buf.length)
  let eb ← j.str F_DATA
  let dv := base64Decode eb
  check (dv.length ≤ buf.length)
  return dv ++ buf.drop dv.length

/-- The loop of `write`: the batch it fills and the bytes copied. A turn that does not stop at an
assert takes a whole block off the buffer. -/
def writeLoop (fi : RocksfileImpl) (sb eb : ℕ) (buf : List UInt8) (offset : ℤ) :
    Except Fault (List Update × ℕ) :=
  if sb ≤ eb then
    if _h : fi.isBlockAligned offset ∧ fi.blockCount offset buf.length = fi.bs then do
      let bc := fi.blockCount offset buf.length
      let j ← fi.encode sb (buf.take bc) offset
      let (batch, copied) ← writeLoop fi ((sb + 1) % 2 ^ 32) eb (buf.drop bc) (offset + bc)
      return (.put (blockKey fi.key sb) j :: batch, bc + copied)
    else .error .assertion
  else .ok ([], 0)
termination_by buf.length
decreasing_by
  have hpos := fi.bs_pos
  have hle : fi.blockCount offset buf.length ≤ buf.length := min_le_right _ _
  simp only [List.length_drop]
  omega

/-- `write`: the store after it and what it returns. -/
def write (fi : RocksfileImpl) (db : Store) (ok : Bool) (buf : List UInt8) (offset : ℤ) :
    Except Fault (ℤ × Store) := do
  let (sb, eb) := fi.ioBlocks offset buf.length
  let (batch, copied) ← fi.writeLoop sb eb buf offset
  let db := db.write ok batch
  if ok then return (copied, db) else return (-ENOSPC, db)

/-- The loop of `read`: the buffer after it and the bytes copied. -/
def readLoop (fi : RocksfileImpl) (db : Store) (sb eb : ℕ) (buf : List UInt8) (offset : ℤ) :
    Except Fault (List UInt8 × ℕ) :=
  if sb ≤ eb then
    match db[blockKey fi.key sb]? with
    | none => .ok (buf, 0)
    | some j =>
      if _h : fi.isBlockAligned offset ∧ fi.blockCount offset buf.length = fi.bs then do
        let bc := fi.blockCount offset buf.length
        let block ← fi.decode j sb (buf.take bc) offset
        let (rest, copied) ← readLoop fi db ((sb + 1) % 2 ^ 32) eb (buf.drop bc) (offset + bc)
        return (block ++ rest, bc + copied)
      else .error .assertion
  else .ok (buf, 0)
termination_by buf.length
decreasing_by
  have hpos := fi.bs_pos
  have hle : fi.blockCount offset buf.length ≤ buf.length := min_le_right _ _
  simp only [List.length_drop]
  omega

/-- `read`: what it returns and the buffer after it. -/
def read (fi : RocksfileImpl) (db : Store) (buf : List UInt8) (offset : ℤ) :
    Except Fault (ℤ × List UInt8) := do
  let (sb, eb) := fi.ioBlocks offset buf.length
  let (buf, copied) ← fi.readLoop db sb eb buf offset
  return (copied, buf)

end RocksfileImpl

/-- A descriptor: the shared object, by its place among the objects made so far, the key of the
file and the descriptor's number. -/
structure Rocksfile where
  fi : ℕ
  key : Str
  fd : ℤ

end CPPCodes.Rocksfs
