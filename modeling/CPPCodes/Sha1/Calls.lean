import CPPCodes.Sha1.Block

/-!
# What a context is for

Between `SHA1Reset` and `SHA1Result` a context takes a message in, and how the message is cut into
portions does not show: the digest is that of the standard (`replies_eq`). A message of 2 ^ 64 bits
or more, and a portion behind the digest, corrupt the context until it is reset, and a corrupted
context gives no digest.
-/

namespace CPPCodes.Sha1

open Standard Blockwise

/-- The block holds `rest`, and the next octet is put behind it. -/
structure Holds (context : SHA1Context) (rest : List UInt8) : Prop where
  index : context.messageBlockIndex = rest.length
  block : context.messageBlock.toList.take rest.length = rest

/-- The two counters as one number. -/
def SHA1Context.bits (context : SHA1Context) : ℕ :=
  context.lengthHigh.toNat * 2 ^ 32 + context.lengthLow.toNat

/-- What a write to the block leaves alone. -/
structure SameCounts (context context' : SHA1Context) : Prop where
  low : context'.lengthLow = context.lengthLow
  high : context'.lengthHigh = context.lengthHigh
  computed : context'.computed = context.computed
  corrupted : context'.corrupted = context.corrupted

theorem SameCounts.bits {context context' : SHA1Context} (h : SameCounts context context') :
    context'.bits = context.bits := by
  rw [SHA1Context.bits, SHA1Context.bits, h.low, h.high]

theorem SameCounts.trans {context₁ context₂ context₃ : SHA1Context}
    (h : SameCounts context₁ context₂) (h' : SameCounts context₂ context₃) :
    SameCounts context₁ context₃ :=
  ⟨h'.low.trans h.low, h'.high.trans h.high, h'.computed.trans h.computed,
    h'.corrupted.trans h.corrupted⟩

/-- Of the message `m` the full blocks are worked in and `rest` is left; behind `rest` the block
holds `ys`. -/
structure Pending (m rest ys : List UInt8) (context : SHA1Context) : Prop where
  absorbed : Absorbed compress 64 initial m context.intermediateHash rest
  holds : Holds context (rest ++ ys)

theorem take_set (block : Vector UInt8 64) {i : ℕ} (hi : i < 64) (b : UInt8) :
    (block.set i b).toList.take (i + 1) = block.toList.take i ++ [b] := by
  have hset : (block.set i b).toList[i]? = some b := by
    rw [Vector.toList_set, List.getElem?_set_self (by rwa [Vector.length_toList])]
  rw [List.take_add_one, hset, Vector.toList_set, List.take_set_of_le (Nat.le_refl _)]
  rfl

theorem take_all (block : Vector UInt8 64) : block.toList.take 64 = block.toList :=
  List.take_of_length_le (Vector.length_toList ▸ Nat.le_refl 64)

namespace Pending

variable {context : SHA1Context} {m rest ys : List UInt8}

theorem put (h : Pending m rest ys context) (hlt : (rest ++ ys).length < 64) (b : UInt8) :
    ∃ context', context.put b = some context' ∧ Pending m rest (ys ++ [b]) context' ∧
      SameCounts context context' := by
  have hlt' : context.messageBlockIndex < 64 := h.holds.index ▸ hlt
  refine ⟨_, dif_pos hlt', ⟨h.absorbed, ?_, ?_⟩, rfl, rfl, rfl, rfl⟩
  · rw [← List.append_assoc, List.length_append, ← h.holds.index]
    rfl
  · rw [← List.append_assoc, List.length_append, List.length_singleton, ← h.holds.index,
      take_set _ hlt', h.holds.index, h.holds.block]

theorem fillLoop {limit : ℕ} (hlimit : limit ≤ 64) : ∀ (fuel : ℕ) {ys : List UInt8}
    {context : SHA1Context}, Pending m rest ys context → (rest ++ ys).length ≤ limit →
    limit - (rest ++ ys).length < fuel →
    ∃ context' zeros, fillLoop limit fuel context = some context' ∧
      zeros = List.replicate (limit - (rest ++ ys).length) 0 ∧
      (rest ++ (ys ++ zeros)).length = limit ∧ Pending m rest (ys ++ zeros) context' ∧
      SameCounts context context'
  | 0, _, _, _, _, hfuel => absurd hfuel (Nat.not_lt_zero _)
  | fuel + 1, ys, context, h, hle, hfuel => by
    unfold Sha1.fillLoop
    by_cases hlt : context.messageBlockIndex < limit
    · rw [if_pos hlt]
      rw [h.holds.index] at hlt
      obtain ⟨context₁, hput, h₁, hsame₁⟩ := h.put (by omega) 0
      have hlen : (rest ++ (ys ++ [(0 : UInt8)])).length = (rest ++ ys).length + 1 := by
        rw [← List.append_assoc, List.length_append]
        rfl
      obtain ⟨context₂, zeros, hfill, hzeros, hlen₂, h₂, hsame₂⟩ :=
        fillLoop hlimit fuel h₁ (by omega) (by omega)
      rw [List.append_assoc, List.singleton_append] at hlen₂ h₂
      refine ⟨context₂, 0 :: zeros, ?_, ?_, hlen₂, h₂, hsame₁.trans hsame₂⟩
      · rw [hput]
        exact hfill
      · rw [hzeros, hlen, ← List.replicate_succ]
        congr 1
        omega
    · rw [if_neg hlt]
      rw [h.holds.index] at hlt
      have hzero : limit - (rest ++ ys).length = 0 := by omega
      rw [hzero]
      refine ⟨context, [], rfl, rfl, ?_, ?_, rfl, rfl, rfl, rfl⟩
      · rw [List.append_nil]
        omega
      · rwa [List.append_nil]

/-- What does not fill the block is left of the message. -/
theorem keep (h : Pending m rest ys context) (hlt : (rest ++ ys).length < 64) :
    Pending (m ++ ys) (rest ++ ys) [] context :=
  ⟨h.absorbed.keep hlt, (List.append_nil (rest ++ ys)).symm ▸ h.holds⟩

theorem process (h : Pending m rest ys context) (hfull : (rest ++ ys).length = 64) :
    Pending (m ++ ys) [] [] (sha1ProcessMessageBlock context) ∧
      SameCounts context (sha1ProcessMessageBlock context) := by
  have hblock : context.messageBlock.toList = rest ++ ys := by
    rw [← take_all, ← h.holds.block, hfull]
  rw [sha1ProcessMessageBlock_eq, hblock]
  exact ⟨⟨h.absorbed.fill hfull, rfl, rfl⟩, rfl, rfl, rfl, rfl⟩

end Pending

section

variable {context : SHA1Context} {m rest : List UInt8}

theorem octets_bits (context : SHA1Context) : octets 8 context.bits =
    [(context.lengthHigh >>> 24).toUInt8, (context.lengthHigh >>> 16).toUInt8,
      (context.lengthHigh >>> 8).toUInt8, context.lengthHigh.toUInt8,
      (context.lengthLow >>> 24).toUInt8, (context.lengthLow >>> 16).toUInt8,
      (context.lengthLow >>> 8).toUInt8, context.lengthLow.toUInt8] := by
  have hlow := context.lengthLow.toNat_lt
  simp only [octets, SHA1Context.bits, List.range, List.range.loop, List.map, List.cons.injEq,
    ← UInt8.toNat_inj]
  simp [Nat.shiftRight_eq_div_pow]
  omega

/-- With the length the block is full. -/
theorem Pending.storeLength (h : Pending m rest [] context) (hrest : rest.length = 56) :
    (sha1ProcessMessageBlock context.storeLength).intermediateHash =
      chain compress 64 initial (m ++ octets 8 context.bits) := by
  have hblock : context.messageBlock.toList.take 56 = rest := by
    have hold := h.holds.block
    rwa [List.append_nil, hrest] at hold
  have hstored : context.storeLength.messageBlock.toList = rest ++ octets 8 context.bits := by
    rw [← take_all, octets_bits, SHA1Context.storeLength]
    rw [take_set _ (by decide), take_set _ (by decide), take_set _ (by decide),
      take_set _ (by decide), take_set _ (by decide), take_set _ (by decide), take_set _ (by decide),
      take_set _ (by decide), hblock]
    simp only [List.append_assoc, List.cons_append, List.nil_append]
  have hfull : (rest ++ octets 8 context.bits).length = 64 := by
    rw [← hstored, Vector.length_toList]
  rw [sha1ProcessMessageBlock_eq, hstored]
  exact (h.absorbed.fill hfull).chain_eq

/-- The one bit and the zeros, of which some may fill up a block first. -/
theorem Pending.padBits (h : Pending m rest [] context) : ∃ context' rest',
    padBits context = some context' ∧ SameCounts context context' ∧ rest'.length = 56 ∧
    Pending (m ++ 0x80 :: List.replicate ((119 - m.length % 64) % 64) 0) rest' [] context' := by
  have hmod : rest.length = m.length % 64 := h.absorbed.length
  have hlt : rest.length < 64 := h.absorbed.lt
  have hindex : context.messageBlockIndex = rest.length := by
    rw [h.holds.index, List.append_nil]
  obtain ⟨context₁, hput, h₁, hsame₁⟩ := h.put (by rwa [List.append_nil]) 0x80
  have hlen : (rest ++ ([] ++ [(0x80 : UInt8)])).length = rest.length + 1 := List.length_append
  unfold Sha1.padBits
  by_cases h55 : context.messageBlockIndex > 55
  · rw [if_pos h55]
    obtain ⟨context₂, zeros₂, hfill₂, hzeros₂, hlen₂, h₂, hsame₂⟩ :=
      h₁.fillLoop (Nat.le_refl 64) 64 (by omega) (by omega)
    obtain ⟨h₃, hsame₃⟩ := h₂.process hlen₂
    obtain ⟨context₄, zeros₄, hfill₄, hzeros₄, hlen₄, h₄, hsame₄⟩ :=
      h₃.fillLoop (by decide : 56 ≤ 64) 64 (by decide) (by decide)
    have hkeep := h₄.keep (by omega)
    refine ⟨context₄, _, ?_, ((hsame₁.trans hsame₂).trans hsame₃).trans hsame₄, hlen₄, ?_⟩
    · exact Option.bind_eq_some_iff.2 ⟨context₁, hput,
        Option.bind_eq_some_iff.2 ⟨context₂, hfill₂, hfill₄⟩⟩
    · have hcount : (119 - m.length % 64) % 64 = 64 - (rest.length + 1) + 56 := by omega
      have hpadded : m ++ 0x80 :: List.replicate ((119 - m.length % 64) % 64) 0 =
          m ++ ([] ++ [0x80] ++ zeros₂) ++ ([] ++ zeros₄) := by
        rw [hcount, List.replicate_add, hzeros₂, hzeros₄, hlen]
        simp only [List.nil_append, List.append_assoc, List.length_nil, Nat.sub_zero,
          List.cons_append]
      rw [hpadded]
      exact hkeep
  · rw [if_neg h55]
    obtain ⟨context₂, zeros₂, hfill₂, hzeros₂, hlen₂, h₂, hsame₂⟩ :=
      h₁.fillLoop (by decide : 56 ≤ 64) 64 (by omega) (by omega)
    have hkeep := h₂.keep (by omega)
    refine ⟨context₂, _, ?_, hsame₁.trans hsame₂, hlen₂, ?_⟩
    · exact Option.bind_eq_some_iff.2 ⟨context₁, hput, hfill₂⟩
    · have hcount : (119 - m.length % 64) % 64 = 56 - (rest.length + 1) := by omega
      have hpadded : m ++ 0x80 :: List.replicate ((119 - m.length % 64) % 64) 0 =
          m ++ ([] ++ [0x80] ++ zeros₂) := by
        rw [hcount, hzeros₂, hlen, List.nil_append, List.singleton_append]
      rw [hpadded]
      exact hkeep

theorem Pending.pad (h : Pending m rest [] context) (hbits : context.bits = 8 * m.length) :
    ∃ context', sha1PadMessage context = some context' ∧ context'.intermediateHash = words m ∧
      context'.computed = context.computed ∧ context'.corrupted = context.corrupted := by
  obtain ⟨context₁, rest₁, hpad, hsame, hrest, h₁⟩ := h.padBits
  have hhash := h₁.storeLength hrest
  rw [hsame.bits, hbits] at hhash
  refine ⟨_, by rw [sha1PadMessage, hpad]; rfl, hhash, hsame.computed, hsame.corrupted⟩

/-- The context takes in a message, of which it has `m`. -/
structure Absorbing (m : List UInt8) (context : SHA1Context) : Prop where
  pending : ∃ rest, Pending m rest [] context
  bits : context.bits = 8 * m.length
  computed : context.computed = false
  corrupted : context.corrupted = 0

theorem toNat_add (x y : UInt32) : (x + y).toNat = (x.toNat + y.toNat) % 2 ^ 32 :=
  UInt32.toNat_add x y

/-- Eight bits more fit the two counters, or all their bits are zero again. -/
theorem count_eq (h : context.bits = 8 * m.length) : ∃ low high corrupted,
    context.count =
      { context with lengthLow := low, lengthHigh := high, corrupted := corrupted } ∧
    (8 * (m.length + 1) < 2 ^ 64 →
      corrupted = context.corrupted ∧ high.toNat * 2 ^ 32 + low.toNat = 8 * (m.length + 1)) ∧
    (¬ 8 * (m.length + 1) < 2 ^ 64 → corrupted = 1) := by
  have hlow := context.lengthLow.toNat_lt
  have hhigh := context.lengthHigh.toNat_lt
  have hadd := toNat_add context.lengthLow 8
  have hsucc := toNat_add context.lengthHigh 1
  have h8 : (8 : UInt32).toNat = 8 := rfl
  have h1 : (1 : UInt32).toNat = 1 := rfl
  rw [h8] at hadd
  rw [h1] at hsucc
  have hzero : ∀ x : UInt32, x = 0 ↔ x.toNat = 0 := fun x => UInt32.toNat_inj.symm
  rw [SHA1Context.bits] at h
  unfold SHA1Context.count
  by_cases hcarry : context.lengthLow + 8 = 0
  · rw [if_pos hcarry]
    rw [hzero] at hcarry
    by_cases hfull : context.lengthHigh + 1 = 0
    · refine ⟨context.lengthLow + 8, context.lengthHigh + 1, 1, if_pos hfull, fun _ => ?_,
        fun _ => rfl⟩
      rw [hzero] at hfull
      omega
    · refine ⟨context.lengthLow + 8, context.lengthHigh + 1, context.corrupted, if_neg hfull,
        fun _ => ⟨rfl, ?_⟩, fun hlt => ?_⟩ <;> rw [hzero] at hfull
      · have hturn : context.lengthLow.toNat + 8 = 2 ^ 32 := by omega
        have hnext : (context.lengthHigh + 1).toNat = context.lengthHigh.toNat + 1 := by omega
        calc (context.lengthHigh + 1).toNat * 2 ^ 32 + (context.lengthLow + 8).toNat
            = context.lengthHigh.toNat * 2 ^ 32 + 2 ^ 32 := by
              rw [hcarry, hnext, Nat.succ_mul, Nat.add_zero]
          _ = 8 * m.length + 8 := by rw [← h, Nat.add_assoc, hturn]
          _ = 8 * (m.length + 1) := (Nat.mul_succ 8 m.length).symm
      · exfalso
        omega
  · refine ⟨context.lengthLow + 8, context.lengthHigh, context.corrupted, if_neg hcarry,
      fun _ => ⟨rfl, ?_⟩, fun _ => ?_⟩ <;> rw [hzero] at hcarry <;> omega

theorem inputLoop_corrupted (h : context.corrupted ≠ 0) :
    ∀ message : List UInt8, inputLoop message context = some context
  | [] => rfl
  | _ :: _ => if_pos h

theorem and_ff (b : UInt8) : b &&& 0xFF = b := by
  have hb := b.toNat_lt
  rw [← UInt8.toNat_inj, UInt8.toNat_and]
  exact (Nat.and_two_pow_sub_one_eq_mod b.toNat 8).trans (Nat.mod_eq_of_lt hb)

/-- One round of the loop, up to the next one. -/
theorem Absorbing.octet (h : Absorbing m context) (b : UInt8) : ∃ context',
    (∀ message, Sha1.inputLoop (b :: message) context = Sha1.inputLoop message context') ∧
    (8 * (m.length + 1) < 2 ^ 64 → Absorbing (m ++ [b]) context') ∧
    (¬ 8 * (m.length + 1) < 2 ^ 64 → context'.corrupted = 1 ∧ context'.computed = false) := by
  obtain ⟨rest, hpending⟩ := h.pending
  have hlt : rest.length < 64 := hpending.absorbed.lt
  obtain ⟨context₁, hput, h₁, hsame₁⟩ := hpending.put (by rwa [List.append_nil]) b
  have hbits₁ : context₁.bits = 8 * m.length := hsame₁.bits.trans h.bits
  obtain ⟨low, high, corrupted, hcount, hfits, hlong⟩ := count_eq hbits₁
  have hloop (message : List UInt8) : Sha1.inputLoop (b :: message) context =
      if context₁.count.messageBlockIndex = 64 then
        Sha1.inputLoop message (sha1ProcessMessageBlock context₁.count)
      else Sha1.inputLoop message context₁.count := by
    rw [Sha1.inputLoop, if_neg (not_not.2 h.corrupted), and_ff, hput]
    rfl
  have h₂ : Pending m rest ([] ++ [b]) context₁.count := by
    rw [hcount]
    exact ⟨h₁.absorbed, h₁.holds.index, h₁.holds.block⟩
  have hbits₂ : context₁.count.bits = high.toNat * 2 ^ 32 + low.toNat := by
    rw [hcount]
    rfl
  have hcorrupted : context₁.count.corrupted = corrupted := by
    rw [hcount]
  have hcomputed : context₁.count.computed = false := by
    rw [hcount]
    exact hsame₁.computed.trans h.computed
  have hend : ∀ context', SameCounts context₁.count context' →
      (∃ rest, Pending (m ++ [b]) rest [] context') →
      (8 * (m.length + 1) < 2 ^ 64 → Absorbing (m ++ [b]) context') ∧
      (¬ 8 * (m.length + 1) < 2 ^ 64 → context'.corrupted = 1 ∧ context'.computed = false) := by
    intro context' hsame hpending'
    refine ⟨fun hlt => ⟨hpending', ?_, hsame.computed.trans hcomputed, ?_⟩,
      fun hlt => ⟨?_, hsame.computed.trans hcomputed⟩⟩
    · rw [hsame.bits, hbits₂, List.length_append]
      exact (hfits hlt).2
    · rw [hsame.corrupted, hcorrupted, (hfits hlt).1, hsame₁.corrupted, h.corrupted]
    · rw [hsame.corrupted, hcorrupted, hlong hlt]
  by_cases hfull : context₁.count.messageBlockIndex = 64
  · obtain ⟨h₃, hsame₃⟩ := h₂.process (h₂.holds.index.symm.trans hfull)
    refine ⟨sha1ProcessMessageBlock context₁.count, fun message => ?_, hend _ hsame₃ ⟨_, h₃⟩⟩
    rw [hloop, if_pos hfull]
  · have hkeep := h₂.keep <| by
      rw [h₂.holds.index, List.length_append, List.length_append] at hfull
      simp only [List.length_append, List.length_nil, List.length_singleton] at hfull ⊢
      omega
    refine ⟨context₁.count, fun message => ?_, hend _ ⟨rfl, rfl, rfl, rfl⟩ ⟨_, hkeep⟩⟩
    rw [hloop, if_neg hfull]

theorem Absorbing.inputLoop : ∀ (message : List UInt8) {m : List UInt8} {context : SHA1Context},
    Absorbing m context → ∃ context', inputLoop message context = some context' ∧
      (8 * (m ++ message).length < 2 ^ 64 → Absorbing (m ++ message) context') ∧
      (¬ 8 * (m ++ message).length < 2 ^ 64 →
        message ≠ [] → context'.corrupted = 1 ∧ context'.computed = false)
  | [], m, context, h => by
    refine ⟨context, rfl, fun _ => ?_, fun _ hne => absurd rfl hne⟩
    rwa [List.append_nil]
  | b :: message, m, context, h => by
    obtain ⟨context₁, hround, hfits, hlong⟩ := h.octet b
    have happend : m ++ b :: message = m ++ [b] ++ message := List.append_cons ..
    have hlen : (m ++ b :: message).length = m.length + 1 + message.length := by
      rw [happend, List.length_append, List.length_append, List.length_singleton]
    rw [hround, happend]
    by_cases hlt : 8 * (m.length + 1) < 2 ^ 64
    · obtain ⟨context₂, hloop, hfits₂, hlong₂⟩ := Absorbing.inputLoop message (hfits hlt)
      refine ⟨context₂, hloop, hfits₂, fun hge _ => hlong₂ hge ?_⟩
      rintro rfl
      exact hge (by rwa [List.append_nil, List.length_append, List.length_singleton])
    · obtain ⟨hcorrupted, hcomputed⟩ := hlong hlt
      refine ⟨context₁, inputLoop_corrupted (by rw [hcorrupted]; decide) message, fun hlt' => ?_,
        fun _ _ => ⟨hcorrupted, hcomputed⟩⟩
      rw [← happend, hlen] at hlt'
      omega

end

/-- A call with a context. -/
inductive Call
  | reset
  | input (message : Option (List UInt8))
  | result (room : Bool)

/-- What a call returns, and the digest that it stores. -/
structure Reply where
  code : ℤ
  digest : Option (List UInt8)
deriving DecidableEq

variable (codes : Codes)

def exec (context : SHA1Context) : Call → Option (Reply × SHA1Context)
  | .reset => some (⟨codes.shaSuccess, none⟩, sha1Reset context)
  | .input message => do
    let (code, context) ← sha1Input codes message context
    return (⟨code, none⟩, context)
  | .result room => do
    let (code, digest, context) ← sha1Result codes room context
    return (⟨code, digest⟩, context)

/-- The replies of a run of calls. -/
def replies : List Call → SHA1Context → Option (List Reply)
  | [], _ => some []
  | call :: calls, context => do
    let (reply, context) ← exec codes context call
    let rest ← replies calls context
    return reply :: rest

/-- What a context is for: a message that is taken in, the digest of a message, or an error. -/
inductive Hasher
  | absorbing (m : List UInt8)
  | computed (m : List UInt8)
  | corrupted (code : ℤ)

namespace Hasher

/-- `SHA1Input` of a message that is not empty. -/
def input (message : List UInt8) : Hasher → ℤ × Hasher
  | absorbing m =>
    -- the portion that makes the message too long is accepted
    (codes.shaSuccess, if 8 * (m ++ message).length < 2 ^ 64 then absorbing (m ++ message)
      else corrupted 1)
  | computed _ => (codes.shaStateError, corrupted codes.shaStateError)
  | corrupted code => (code, corrupted code)

def result : Hasher → Reply × Hasher
  | absorbing m | computed m => (⟨codes.shaSuccess, some (digest m)⟩, computed m)
  | corrupted code => (⟨code, none⟩, corrupted code)

def exec (s : Hasher) : Call → Reply × Hasher
  | .reset => (⟨codes.shaSuccess, none⟩, absorbing [])
  | .input none => (⟨codes.shaNull, none⟩, s)
  | .input (some []) => (⟨codes.shaSuccess, none⟩, s)
  | .input (some message) =>
    let (code, s) := s.input codes message
    (⟨code, none⟩, s)
  | .result false => (⟨codes.shaNull, none⟩, s)
  | .result true => s.result codes

def replies : List Call → Hasher → List Reply
  | [], _ => []
  | call :: calls, s => (s.exec codes call).1 :: replies calls (s.exec codes call).2

end Hasher

/-- The context is in the state. -/
inductive Shows : Hasher → SHA1Context → Prop
  | absorbing {m : List UInt8} {context : SHA1Context} : Absorbing m context →
      Shows (.absorbing m) context
  | computed {m : List UInt8} {context : SHA1Context} : context.intermediateHash = words m →
      context.computed = true → context.corrupted = 0 → Shows (.computed m) context
  | corrupted {code : ℤ} {context : SHA1Context} : context.corrupted = code → code ≠ 0 →
      (context.computed = true → code = codes.shaStateError) → Shows (.corrupted code) context

variable {codes} {s : Hasher} {context : SHA1Context}

theorem Shows.reset (context : SHA1Context) : Shows codes (.absorbing []) (sha1Reset context) :=
  .absorbing ⟨⟨[], Absorbed.start (by decide) initial, rfl, rfl⟩,
    by simp [SHA1Context.bits, sha1Reset], rfl, rfl⟩

theorem octets_word (w : UInt32) : octets 4 w.toNat =
    [(w >>> 24).toUInt8, (w >>> 16).toUInt8, (w >>> 8).toUInt8, (w >>> 0).toUInt8] := by
  have hw := w.toNat_lt
  simp only [octets, List.range, List.range.loop, List.map, List.cons.injEq, ← UInt8.toNat_inj]
  simp [Nat.shiftRight_eq_div_pow]

/-- The octets that `SHA1Result` stores. -/
theorem stored_eq (hash : Hash) : ((List.range sha1HashSize).map fun i =>
    (hash.toList.getD (i >>> 2) 0 >>> (8 * (3 - UInt32.ofNat (i &&& 0x03)))).toUInt8) =
      hash.toList.flatMap fun w => octets 4 w.toNat := by
  have hlen : hash.toList.length = 5 := Vector.length_toList
  generalize hash.toList = words at hlen
  match words, hlen with
  | [a, b, c, d, e], _ =>
    simp only [List.flatMap_cons, List.flatMap_nil, octets_word]
    rfl

theorem Shows.input (h : Shows codes s context) {message : List UInt8} (hne : message ≠ []) :
    ∃ context', sha1Input codes (some message) context =
        some ((s.input codes message).1, context') ∧
      Shows codes (s.input codes message).2 context' := by
  have hsome : some message ≠ some [] := fun heq => hne (Option.some.inj heq)
  rw [sha1Input, if_neg hsome]
  cases h with
  | @absorbing m _ h =>
    obtain ⟨context', hloop, hfits, hlong⟩ := h.inputLoop message
    refine ⟨context', ?_, ?_⟩
    · rw [h.computed, h.corrupted, hloop]
      rfl
    · by_cases hlt : 8 * (m ++ message).length < 2 ^ 64
      · have hstate : ((Hasher.absorbing m).input codes message).2 = .absorbing (m ++ message) :=
          if_pos hlt
        rw [hstate]
        exact .absorbing (hfits hlt)
      · have hstate : ((Hasher.absorbing m).input codes message).2 = .corrupted 1 := if_neg hlt
        rw [hstate]
        obtain ⟨hcorrupted, hcomputed⟩ := hlong hlt hne
        exact .corrupted hcorrupted (by decide) (by rw [hcomputed]; exact nofun)
  | computed _ hcomputed _ =>
    exact ⟨_, if_pos hcomputed, .corrupted rfl codes.stateError_ne fun _ => rfl⟩
  | @corrupted code _ hcorrupted hne hcode =>
    by_cases hcomputed : context.computed
    · refine ⟨{ context with corrupted := codes.shaStateError }, (if_pos hcomputed).trans ?_,
        .corrupted (hcode hcomputed).symm hne hcode⟩
      rw [hcode hcomputed]
      rfl
    · refine ⟨context, (if_neg hcomputed).trans ?_, .corrupted hcorrupted hne hcode⟩
      rw [hcorrupted]
      exact if_pos hne

theorem Shows.result (h : Shows codes s context) : ∃ context', sha1Result codes true context =
      some ((s.result codes).1.code, (s.result codes).1.digest, context') ∧
    Shows codes (s.result codes).2 context' := by
  cases h with
  | @absorbing m _ h =>
    obtain ⟨rest, hpending⟩ := h.pending
    obtain ⟨context', hpad, hhash, -, hcorrupted⟩ := hpending.pad h.bits
    refine ⟨{ context' with
      messageBlock := Vector.replicate 64 0, lengthLow := 0, lengthHigh := 0, computed := true },
      ?_, .computed hhash rfl (hcorrupted.trans h.corrupted)⟩
    rw [sha1Result, h.computed, h.corrupted, hpad]
    exact congrArg (fun octets => some (codes.shaSuccess, some octets, _))
      ((stored_eq _).trans (congrArg _ (congrArg _ hhash)))
  | @computed m _ hhash hcomputed hcorrupted =>
    refine ⟨context, ?_, .computed hhash hcomputed hcorrupted⟩
    rw [sha1Result, hcomputed, hcorrupted]
    exact congrArg (fun octets => some (codes.shaSuccess, some octets, context))
      ((stored_eq _).trans (congrArg _ (congrArg _ hhash)))
  | @corrupted code _ hcorrupted hne hcode =>
    refine ⟨context, ?_, .corrupted hcorrupted hne hcode⟩
    rw [sha1Result, hcorrupted]
    exact if_pos hne

/-- One call. -/
theorem Shows.exec (h : Shows codes s context) (call : Call) : ∃ context',
    exec codes context call = some ((s.exec codes call).1, context') ∧
      Shows codes (s.exec codes call).2 context' := by
  match call with
  | .reset => exact ⟨_, rfl, .reset context⟩
  | .input none => exact ⟨context, rfl, h⟩
  | .input (some []) => exact ⟨context, rfl, h⟩
  | .input (some (b :: message)) =>
    obtain ⟨context', hinput, h'⟩ := h.input (List.cons_ne_nil b message)
    exact ⟨context', Option.bind_eq_some_iff.2 ⟨_, hinput, rfl⟩, h'⟩
  | .result false => exact ⟨context, rfl, h⟩
  | .result true =>
    obtain ⟨context', hresult, h'⟩ := h.result
    exact ⟨context', Option.bind_eq_some_iff.2 ⟨_, hresult, rfl⟩, h'⟩

/-- In every run of calls from a reset on, a context replies as the standard has it. -/
theorem replies_eq (codes : Codes) (calls : List Call) (context : SHA1Context) :
    replies codes calls (sha1Reset context) =
      some (Hasher.replies codes calls (.absorbing [])) := by
  have hrun : ∀ (calls : List Call) {s : Hasher} {context : SHA1Context}, Shows codes s context →
      replies codes calls context = some (s.replies codes calls) := fun calls => by
    induction calls with
    | nil => exact fun _ => rfl
    | cons call calls ih =>
      intro s context h
      obtain ⟨context', hexec, h'⟩ := h.exec call
      exact Option.bind_eq_some_iff.2 ⟨_, hexec, Option.bind_eq_some_iff.2 ⟨_, ih h', rfl⟩⟩
  exact hrun calls (.reset context)

end CPPCodes.Sha1
