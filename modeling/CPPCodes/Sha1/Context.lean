import Mathlib.Data.UInt

/-!
# The digest of a message in pieces

sha1.c. A context takes the next portion of a message with `SHA1Input` and gives the digest with
`SHA1Result`. A write outside of its block is `none`. The header, with the values of the error
codes, is not there, so they are a parameter. The pointers to arrays may be null, that to the
context is not.
-/

namespace CPPCodes.Sha1

/-- The error codes of sha1.h. -/
structure Codes where
  shaSuccess : ℤ
  shaNull : ℤ
  shaStateError : ℤ
  /-- A context in which it is stored counts as corrupted. -/
  stateError_ne : shaStateError ≠ 0

structure SHA1Context where
  intermediateHash : Vector UInt32 5
  lengthLow : UInt32
  lengthHigh : UInt32
  messageBlockIndex : ℕ
  messageBlock : Vector UInt8 64
  computed : Bool
  corrupted : ℤ

def sha1CircularShift (bits word : UInt32) : UInt32 := (word <<< bits) ||| (word >>> (32 - bits))

/-- `SHA1Reset` of a context. -/
def sha1Reset (context : SHA1Context) : SHA1Context :=
  { context with
    lengthLow := 0
    lengthHigh := 0
    messageBlockIndex := 0
    intermediateHash := #v[0x67452301, 0xEFCDAB89, 0x98BADCFE, 0x10325476, 0xC3D2E1F0]
    computed := false
    corrupted := 0 }

/-- The word buffers of `SHA1ProcessMessageBlock`. -/
structure Buffers where
  A : UInt32
  B : UInt32
  C : UInt32
  D : UInt32
  E : UInt32
deriving DecidableEq

/-- The body of the four loops: the function of `B`, `C` and `D`, the word and the constant. -/
def Buffers.turn (f : UInt32 → UInt32 → UInt32 → UInt32) (w k : UInt32) (r : Buffers) : Buffers where
  A := sha1CircularShift 5 r.A + f r.B r.C r.D + r.E + w + k
  B := r.A
  C := sha1CircularShift 30 r.B
  D := r.C
  E := r.D

/-- One of the loops, from `start` on. -/
def Buffers.loop (f : UInt32 → UInt32 → UInt32 → UInt32) (W : List UInt32) (k : UInt32) (start : ℕ)
    (r : Buffers) : Buffers :=
  (List.range' start 20).foldl (fun r t => r.turn f (W.getD t 0) k) r

/-- The four loops. -/
def Buffers.loops (W : List UInt32) (r : Buffers) : Buffers :=
  let r := r.loop (fun B C D => (B &&& C) ||| (~~~B &&& D)) W 0x5A827999 0
  let r := r.loop (fun B C D => B ^^^ C ^^^ D) W 0x6ED9EBA1 20
  let r := r.loop (fun B C D => (B &&& C) ||| (B &&& D) ||| (C &&& D)) W 0x8F1BBCDC 40
  r.loop (fun B C D => B ^^^ C ^^^ D) W 0xCA62C1D6 60

/-- `W`, as far as it is filled: four bytes a word, then each word from four earlier ones. -/
def wordSequence (block : Vector UInt8 64) : List UInt32 :=
  let octet (i : ℕ) : UInt32 := (block.toList.getD i 0).toUInt32
  let W := (List.range 16).map fun t =>
    octet (t * 4) <<< 24 ||| octet (t * 4 + 1) <<< 16 ||| octet (t * 4 + 2) <<< 8 |||
      octet (t * 4 + 3)
  (List.range' 16 64).foldl (fun W t => W ++ [sha1CircularShift 1
    (W.getD (t - 3) 0 ^^^ W.getD (t - 8) 0 ^^^ W.getD (t - 14) 0 ^^^ W.getD (t - 16) 0)]) W

def sha1ProcessMessageBlock (context : SHA1Context) : SHA1Context :=
  let hash := context.intermediateHash
  let r := Buffers.loops (wordSequence context.messageBlock)
    ⟨hash[0], hash[1], hash[2], hash[3], hash[4]⟩
  { context with
    intermediateHash := #v[hash[0] + r.A, hash[1] + r.B, hash[2] + r.C, hash[3] + r.D, hash[4] + r.E]
    messageBlockIndex := 0 }

/-- `Message_Block[Message_Block_Index++] = b`. -/
def SHA1Context.put (context : SHA1Context) (b : UInt8) : Option SHA1Context :=
  if h : context.messageBlockIndex < 64 then
    some { context with
      messageBlock := context.messageBlock.set context.messageBlockIndex b
      messageBlockIndex := context.messageBlockIndex + 1 }
  else none

/-- The length is counted in bits; one that does not fit corrupts the context. -/
def SHA1Context.count (context : SHA1Context) : SHA1Context :=
  let context := { context with lengthLow := context.lengthLow + 8 }
  if context.lengthLow = 0 then
    let context := { context with lengthHigh := context.lengthHigh + 1 }
    if context.lengthHigh = 0 then { context with corrupted := 1 } else context
  else context

/-- The loop of `SHA1Input`. -/
def inputLoop : List UInt8 → SHA1Context → Option SHA1Context
  | [], context => some context
  | b :: message, context =>
    if context.corrupted ≠ 0 then some context
    else do
      let context ← context.put (b &&& 0xFF)
      let context := context.count
      if context.messageBlockIndex = 64 then inputLoop message (sha1ProcessMessageBlock context)
      else inputLoop message context

/-- `SHA1Input`, with what it returns. No message is a null pointer with a length above 0. -/
def sha1Input (codes : Codes) (message : Option (List UInt8)) (context : SHA1Context) :
    Option (ℤ × SHA1Context) :=
  if message = some [] then some (codes.shaSuccess, context)
  else match message with
    | none => some (codes.shaNull, context)
    | some message =>
      if context.computed then
        some (codes.shaStateError, { context with corrupted := codes.shaStateError })
      else if context.corrupted ≠ 0 then some (context.corrupted, context)
      else do
        let context ← inputLoop message context
        return (codes.shaSuccess, context)

/-- `while (Message_Block_Index < limit) Message_Block[Message_Block_Index++] = 0`. -/
def fillLoop (limit : ℕ) : ℕ → SHA1Context → Option SHA1Context
  | 0, _ => none
  | fuel + 1, context =>
    if context.messageBlockIndex < limit then do
      let context ← context.put 0
      fillLoop limit fuel context
    else some context

/-- The last 8 octets. -/
def SHA1Context.storeLength (context : SHA1Context) : SHA1Context :=
  let high := context.lengthHigh
  let low := context.lengthLow
  { context with messageBlock :=
      (((((((context.messageBlock.set 56 (high >>> 24).toUInt8).set 57 (high >>> 16).toUInt8).set 58
        (high >>> 8).toUInt8).set 59 high.toUInt8).set 60 (low >>> 24).toUInt8).set 61
        (low >>> 16).toUInt8).set 62 (low >>> 8).toUInt8).set 63 low.toUInt8 }

/-- The part of `SHA1PadMessage` in front of the length: 0x80 and zeros, in a block of their own
where the length has no room behind them. -/
def padBits (context : SHA1Context) : Option SHA1Context :=
  if context.messageBlockIndex > 55 then do
    let context ← context.put 0x80
    let context ← fillLoop 64 64 context
    fillLoop 56 64 (sha1ProcessMessageBlock context)
  else do
    let context ← context.put 0x80
    fillLoop 56 64 context

def sha1PadMessage (context : SHA1Context) : Option SHA1Context := do
  let context ← padBits context
  return sha1ProcessMessageBlock context.storeLength

def sha1HashSize : ℕ := 20

/-- `SHA1Result`, with the digest if it has been stored: there may be no room for it. -/
def sha1Result (codes : Codes) (room : Bool) (context : SHA1Context) :
    Option (ℤ × Option (List UInt8) × SHA1Context) :=
  if !room then some (codes.shaNull, none, context)
  else if context.corrupted ≠ 0 then some (context.corrupted, none, context)
  else do
    let context ←
      if context.computed then pure context
      else do
        let context ← sha1PadMessage context
        pure { context with
          messageBlock := Vector.replicate 64 0
          lengthLow := 0
          lengthHigh := 0
          computed := true }
    let messageDigest := (List.range sha1HashSize).map fun i =>
      (context.intermediateHash.toList.getD (i >>> 2) 0 >>>
        (8 * (3 - UInt32.ofNat (i &&& 0x03)))).toUInt8
    return (codes.shaSuccess, some messageDigest, context)

end CPPCodes.Sha1
