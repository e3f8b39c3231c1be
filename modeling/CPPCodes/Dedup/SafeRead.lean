import CPPCodes.Dedup.Device
import Mathlib.Tactic.Common

/-!
# Reading a block

`File::Read` and the loop of `SafeRead`, on any answers of `pread` that a file may give. The loop
ends with all bytes or with an error (`safeRead_ends_iff`). It takes an empty answer for progress,
so at the end of the file it goes on for ever: a read comes to an end exactly if it is refused, if
the file has the block, or if `pread` fails (`settles_iff`).
-/

namespace CPPCodes.Dedup

inductive SeekType
  | canSeek
  | cannotSeek

/-- The bytes that a file has. No offset of a file reaches 2^63. -/
structure Contents where
  byte : ℕ → Option UInt8
  bounded : ∀ i, 2 ^ 63 ≤ i → byte i = none

structure File where
  contents : Contents
  size : UInt64

/-- The constructor, given the end of the file that `lseek64` returns. -/
def File.new (contents : Contents) (seek : SeekType) (seekEnd : Int64) : Option File :=
  match seek with
  | .canSeek => (fileSize seekEnd).map fun size => { contents, size }
  | .cannotSeek => some { contents, size := 0xFFFFFFFFFFFFFFFF }

/-- What `pread` returns: the bytes that it copied, or an error, which may be EAGAIN. -/
inductive Answer
  | bytes (read : List UInt8)
  | again
  | error

/-- The variables of `SafeRead`, with what is in front of `buf`. -/
structure ReadState where
  toRead : UInt64
  offset : UInt64
  copied : List UInt8

namespace ReadState

def start (count offset : UInt64) : ReadState := { toRead := count, offset, copied := [] }

/-- The body of the loop. -/
def next (s : ReadState) : Answer → ReadState
  | .bytes read =>
    { toRead := s.toRead - UInt64.ofNat read.length
      offset := s.offset + UInt64.ofNat read.length
      copied := s.copied ++ read }
  | _ => s

end ReadState

/-- The loop of `SafeRead` from the call `k` of `pread` on, in at most `fuel` passes. -/
def safeRead (answers : ℕ → Answer) : ℕ → ℕ → ReadState → Option (List UInt8)
  | 0, _, _ => none
  | fuel + 1, k, s =>
    if 0 < s.toRead then
      match answers k with
      | .error => some s.copied
      | answer => safeRead answers fuel (k + 1) (s.next answer)
    else some s.copied

inductive Outcome
  | refused
  | assertFailed
  | done (buf : List UInt8)

/-- `File::Read`, in at most `fuel` passes of the loop. -/
def File.read (file : File) (answers : ℕ → Answer) (fuel : ℕ) (count offset : UInt64) :
    Option Outcome :=
  if canRead file.size count offset then
    (safeRead answers fuel 0 (.start count offset)).map fun buf =>
      if buf.length = count.toNat then .done buf else .assertFailed
  else some .refused

/-- The bytes are those of the file from the offset on. -/
def Contents.At (contents : Contents) (offset : ℕ) (bs : List UInt8) : Prop :=
  ∀ j < bs.length, contents.byte (offset + j) = bs[j]?

/-- The file has the bytes of the block. -/
def Contents.Has (contents : Contents) (offset count : ℕ) : Prop :=
  ∀ j < count, (contents.byte (offset + j)).isSome

/-- What `pread` may answer: no more bytes than it was asked for, those of the file, and none only
at the end. An offset that is negative as an `off_t` is an error. -/
def Contents.MayAnswer (contents : Contents) (toRead offset : UInt64) : Answer → Prop
  | .bytes read => offset.toNat < 2 ^ 63 ∧ read.length ≤ toRead.toNat ∧
      contents.At offset.toNat read ∧ (read = [] → contents.byte offset.toNat = none)
  | _ => True

section Run

variable (answers : ℕ → Answer)

/-- The variables in front of the call `k`. -/
def stateAt (s : ReadState) : ℕ → ReadState
  | 0 => s
  | k + 1 => (stateAt s k).next (answers k)

/-- The loop gets to the call `k`. -/
def Gets (s : ReadState) (k : ℕ) : Prop :=
  ∀ j < k, answers j ≠ .error ∧ 0 < (stateAt answers s j).toRead

/-- The answers are those of the file, and EAGAIN is not for ever. -/
structure Answered (contents : Contents) (s : ReadState) : Prop where
  may : ∀ k, Gets answers s (k + 1) → contents.MayAnswer (stateAt answers s k).toRead
    (stateAt answers s k).offset (answers k)
  again : ∃ last, ∀ k ≥ last, answers k ≠ .again

/-- The read comes to an end, and has the block if it returns true. -/
def File.Settles (file : File) (count offset : UInt64) : Prop :=
  (∃ fuel out, file.read answers fuel count offset = some out) ∧
    ∀ fuel buf, file.read answers fuel count offset = some (.done buf) →
      buf.length = count.toNat ∧ file.contents.At offset.toNat buf

end Run

variable {answers : ℕ → Answer} {s : ReadState}

theorem gets_zero (s : ReadState) : Gets answers s 0 := fun j hj => absurd hj (Nat.not_lt_zero j)

theorem Gets.succ {k : ℕ} (h : Gets answers s k) (hanswer : answers k ≠ .error)
    (hpos : 0 < (stateAt answers s k).toRead) : Gets answers s (k + 1) := by
  intro j hj
  rcases Nat.lt_succ_iff_lt_or_eq.1 hj with hlt | rfl
  · exact h j hlt
  · exact ⟨hanswer, hpos⟩

theorem Gets.mono {j k : ℕ} (h : Gets answers s k) (hle : j ≤ k) : Gets answers s j :=
  fun i hi => h i (Nat.lt_of_lt_of_le hi hle)

/-- How the loop ends: everything is read, or a call fails. -/
theorem safeRead_some : ∀ (fuel k : ℕ) (buf : List UInt8), Gets answers s k →
    safeRead answers fuel k (stateAt answers s k) = some buf →
      ∃ n, Gets answers s n ∧ buf = (stateAt answers s n).copied ∧
        ((stateAt answers s n).toRead = 0 ∨ answers n = .error)
  | 0, _, _, _, h => nomatch h
  | fuel + 1, k, buf, hgets, h => by
    unfold safeRead at h
    split_ifs at h with hpos
    · have hnext : answers k ≠ .error →
          safeRead answers fuel (k + 1) (stateAt answers s (k + 1)) = some buf → _ :=
        fun hanswer => safeRead_some fuel (k + 1) buf (hgets.succ hanswer hpos)
      cases hanswer : answers k with
      | error =>
        simp only [hanswer] at h
        exact ⟨k, hgets, (Option.some.inj h).symm, .inr hanswer⟩
      | again | bytes read =>
        simp only [hanswer] at h
        refine hnext (by simp [hanswer]) ?_
        unfold stateAt
        rwa [hanswer]
    · exact ⟨k, hgets, (Option.some.inj h).symm, .inl (by simpa using hpos)⟩

/-- The loop ends with the call at which it should. -/
theorem safeRead_ends {n : ℕ}
    (h : (stateAt answers s n).toRead = 0 ∨ answers n = .error) :
    ∀ d k, k + d = n → ∃ buf, safeRead answers (d + 1) k (stateAt answers s k) = some buf := by
  intro d
  induction d with
  | zero =>
    rintro k rfl
    unfold safeRead
    split_ifs with hpos
    · have hanswer : answers k = .error :=
        h.resolve_left fun hzero => absurd (hzero ▸ hpos) (UInt64.lt_irrefl 0)
      simp [hanswer]
    · exact ⟨_, rfl⟩
  | succ d ih =>
    intro k hk
    obtain ⟨buf, hbuf⟩ := ih (k + 1) (by omega)
    unfold safeRead
    split_ifs with hpos
    · cases hanswer : answers k with
      | error => exact ⟨_, rfl⟩
      | again | bytes read =>
        unfold stateAt at hbuf
        rw [hanswer] at hbuf
        exact ⟨buf, hbuf⟩
    · exact ⟨_, rfl⟩

theorem safeRead_ends_iff : (∃ fuel buf, safeRead answers fuel 0 s = some buf) ↔
    ∃ n, (stateAt answers s n).toRead = 0 ∨ answers n = .error := by
  constructor
  · rintro ⟨fuel, buf, hbuf⟩
    obtain ⟨n, -, -, hend⟩ := safeRead_some fuel 0 buf (gets_zero s) hbuf
    exact ⟨n, hend⟩
  · rintro ⟨n, hend⟩
    obtain ⟨buf, hbuf⟩ := safeRead_ends hend n 0 (by omega)
    exact ⟨n + 1, buf, hbuf⟩

theorem Contents.At.append {contents : Contents} {offset : ℕ} {bs bs' : List UInt8}
    (h : contents.At offset bs) (h' : contents.At (offset + bs.length) bs') :
    contents.At offset (bs ++ bs') := by
  intro j hj
  rw [List.length_append] at hj
  rcases Nat.lt_or_ge j bs.length with hlt | hge
  · rw [List.getElem?_append_left hlt]
    exact h j hlt
  · rw [List.getElem?_append_right hge, ← h' (j - bs.length) (by omega)]
    congr 1
    omega

theorem Contents.At.has {contents : Contents} {offset : ℕ} {bs : List UInt8}
    (h : contents.At offset bs) : contents.Has offset bs.length := by
  intro j hj
  rw [h j hj, List.getElem?_eq_getElem hj]
  rfl

/-- The bytes that the file has at an offset end below 2^63. -/
theorem Contents.At.end_le {contents : Contents} {offset : ℕ} {bs : List UInt8}
    (h : contents.At offset bs) (hoffset : offset < 2 ^ 63) : offset + bs.length ≤ 2 ^ 63 := by
  by_contra hlt
  have hhas := h.has (2 ^ 63 - offset) (by omega)
  rw [contents.bounded _ (by omega)] at hhas
  exact absurd hhas (by simp)

/-- Of the block, `copied` is read and `toRead` bytes are left. -/
structure Reading (contents : Contents) (count offset : UInt64) (s : ReadState) : Prop where
  left : s.toRead.toNat + s.copied.length = count.toNat
  moved : s.offset.toNat = offset.toNat + s.copied.length
  copied : contents.At offset.toNat s.copied

theorem Reading.start (contents : Contents) (count offset : UInt64) :
    Reading contents count offset (.start count offset) :=
  ⟨rfl, rfl, fun j hj => absurd hj (by simp [ReadState.start])⟩

theorem toNat_ofNat_of_le {n : ℕ} {x : UInt64} (h : n ≤ x.toNat) : (UInt64.ofNat n).toNat = n := by
  have hlt := x.toNat_lt
  rw [UInt64.toNat_ofNat', Nat.mod_eq_of_lt (by omega)]

theorem Reading.next {contents : Contents} {count offset : UInt64} {s : ReadState}
    (h : Reading contents count offset s) {answer : Answer}
    (hmay : contents.MayAnswer s.toRead s.offset answer) :
    Reading contents count offset (s.next answer) := by
  cases answer with
  | again | error => exact h
  | bytes read =>
    obtain ⟨hoffset, hlen, hat, -⟩ := hmay
    have hread := toNat_ofNat_of_le hlen
    have hend := hat.end_le hoffset
    have hleft := h.left
    have hmoved := h.moved
    refine ⟨?_, ?_, h.copied.append (hmoved ▸ hat)⟩
    · simp only [ReadState.next, List.length_append]
      rw [UInt64.toNat_sub_of_le _ _ (UInt64.le_iff_toNat_le.2 (by omega)), hread]
      omega
    · simp only [ReadState.next, List.length_append]
      rw [UInt64.toNat_add, hread, Nat.mod_eq_of_lt (by omega)]
      omega

variable {contents : Contents} {count offset : UInt64}

theorem Answered.reading (h : Answered answers contents (.start count offset)) :
    ∀ {k : ℕ}, Gets answers (.start count offset) k →
      Reading contents count offset (stateAt answers (.start count offset) k)
  | 0, _ => .start contents count offset
  | k + 1, hgets => (h.reading (hgets.mono (Nat.le_succ k))).next (h.may k hgets)

/-- In front of bytes of the file an answer moves on. -/
theorem Answered.moves (h : Answered answers contents (.start count offset)) {k : ℕ}
    (hgets : Gets answers (.start count offset) (k + 1)) (hagain : answers k ≠ .again)
    (hhas : contents.Has offset.toNat count.toNat) :
    (stateAt answers (.start count offset) (k + 1)).toRead.toNat <
      (stateAt answers (.start count offset) k).toRead.toNat := by
  have hreading := h.reading (hgets.mono (Nat.le_succ k))
  have hmay := h.may k hgets
  obtain ⟨herror, hpos⟩ := hgets k (Nat.lt_succ_self k)
  cases hanswer : answers k with
  | again => exact absurd hanswer hagain
  | error => exact absurd hanswer herror
  | bytes read =>
    rw [hanswer] at hmay
    obtain ⟨-, hlen, -, hempty⟩ := hmay
    have hleft := hreading.left
    rw [UInt64.lt_iff_toNat_lt, UInt64.toNat_zero] at hpos
    have hsome := hhas (stateAt answers (.start count offset) k).copied.length (by omega)
    rw [← hreading.moved] at hsome
    have hne : 0 < read.length := by
      refine List.length_pos_of_ne_nil fun hnil => ?_
      rw [hempty hnil] at hsome
      exact absurd hsome (by simp)
    have hread := toNat_ofNat_of_le hlen
    simp only [stateAt, hanswer, ReadState.next]
    rw [UInt64.toNat_sub_of_le _ _ (UInt64.le_iff_toNat_le.2 (by omega)), hread]
    omega

/-- A block that the file has is read in the end, unless a call fails. -/
theorem Answered.ends (h : Answered answers contents (.start count offset))
    (hhas : contents.Has offset.toNat count.toNat) :
    ∃ n, (stateAt answers (.start count offset) n).toRead = 0 ∨ answers n = .error := by
  by_contra hno
  have hall : ∀ k, Gets answers (.start count offset) k := by
    intro k j _
    obtain ⟨hpos, hanswer⟩ := not_or.1 (not_exists.1 hno j)
    exact ⟨hanswer, UInt64.pos_iff_ne_zero.2 hpos⟩
  obtain ⟨last, hlast⟩ := h.again
  have hdown : ∀ d, (stateAt answers (.start count offset) (last + d)).toRead.toNat + d ≤
      (stateAt answers (.start count offset) last).toRead.toNat := by
    intro d
    induction d with
    | zero => exact Nat.le_refl _
    | succ d ih =>
      have hmove : (stateAt answers (.start count offset) (last + (d + 1))).toRead.toNat <
          (stateAt answers (.start count offset) (last + d)).toRead.toNat :=
        h.moves (hall (last + d + 1)) (hlast _ (Nat.le_add_right _ _)) hhas
      omega
  have := hdown ((stateAt answers (.start count offset) last).toRead.toNat + 1)
  omega

theorem Answered.ends_iff (h : Answered answers contents (.start count offset)) :
    (∃ fuel buf, safeRead answers fuel 0 (.start count offset) = some buf) ↔
      contents.Has offset.toNat count.toNat ∨ ∃ k, answers k = .error := by
  constructor
  · rintro ⟨fuel, buf, hbuf⟩
    obtain ⟨n, hgets, -, hzero | herror⟩ :=
      safeRead_some fuel 0 buf (gets_zero (.start count offset)) hbuf
    · have hreading := h.reading hgets
      have hleft := hreading.left
      rw [hzero, UInt64.toNat_zero, Nat.zero_add] at hleft
      exact .inl (hleft ▸ hreading.copied.has)
    · exact .inr ⟨n, herror⟩
  · rintro (hhas | ⟨k, herror⟩)
    · exact safeRead_ends_iff.2 (h.ends hhas)
    · exact safeRead_ends_iff.2 ⟨k, .inr herror⟩

/-- Whatever the answers, what `Read` returns as read is the block. -/
theorem Answered.done {file : File} (h : Answered answers file.contents (.start count offset))
    {fuel : ℕ} {buf : List UInt8} (hread : file.read answers fuel count offset = some (.done buf)) :
    buf.length = count.toNat ∧ file.contents.At offset.toNat buf := by
  unfold File.read at hread
  split_ifs at hread with hcan
  · obtain ⟨buf', hbuf, hout⟩ := Option.map_eq_some_iff.1 hread
    split_ifs at hout with hlen
    obtain rfl : buf' = buf := Outcome.done.inj hout
    obtain ⟨n, hgets, rfl, -⟩ := safeRead_some fuel 0 buf' (gets_zero (.start count offset)) hbuf
    exact ⟨hlen, (h.reading hgets).copied⟩
  · exact absurd (Option.some.inj hread) (by simp)

theorem Answered.settles {file : File} (h : Answered answers file.contents (.start count offset))
    (hends : canRead file.size count offset = false ∨
      ∃ fuel buf, safeRead answers fuel 0 (.start count offset) = some buf) :
    file.Settles answers count offset := by
  refine ⟨?_, fun fuel buf hread => h.done hread⟩
  rcases hends with hcan | ⟨fuel, buf, hbuf⟩
  · exact ⟨0, .refused, by simp [File.read, hcan]⟩
  · by_cases hcan : canRead file.size count offset = true
    · exact ⟨fuel, _, by rw [File.read, if_pos hcan, hbuf, Option.map_some]⟩
    · exact ⟨0, .refused, if_neg hcan⟩

theorem File.Settles.ends {file : File} (h : file.Settles answers count offset)
    (hcan : canRead file.size count offset = true) :
    ∃ fuel buf, safeRead answers fuel 0 (.start count offset) = some buf := by
  obtain ⟨⟨fuel, out, hread⟩, -⟩ := h
  unfold File.read at hread
  rw [if_pos hcan] at hread
  obtain ⟨buf, hbuf, -⟩ := Option.map_eq_some_iff.1 hread
  exact ⟨fuel, buf, hbuf⟩

/-- With the size of the file the test of `Read` refuses what would never end. -/
theorem settles_of_size {file : File} (h : Answered answers file.contents (.start count offset))
    (hsize : file.contents.Has 0 file.size.toNat) (hsum : offset.toNat + count.toNat < 2 ^ 64) :
    file.Settles answers count offset := by
  refine h.settles ?_
  rw [or_iff_not_imp_left, h.ends_iff]
  refine fun hcan => .inl fun j hj => ?_
  have hlt : offset.toNat + count.toNat < file.size.toNat := by
    have hcan' : canRead file.size count offset = true := by simpa using hcan
    unfold canRead at hcan'
    rw [decide_eq_true_iff, UInt64.not_le, UInt64.lt_iff_toNat_lt, UInt64.toNat_add,
      Nat.mod_eq_of_lt hsum] at hcan'
    exact hcan'
  have hbyte := hsize (offset.toNat + j) (by omega)
  rwa [Nat.zero_add] at hbyte

/-- A read comes to an end exactly if it is refused, or the file has the block, or a call of `pread`
fails. -/
theorem settles_iff (file : File) (count offset : UInt64)
    (h : Answered answers file.contents (.start count offset)) :
    file.Settles answers count offset ↔
      canRead file.size count offset = false ∨
        file.contents.Has offset.toNat count.toNat ∨ ∃ k, answers k = .error := by
  rw [← h.ends_iff]
  refine ⟨fun hsettles => ?_, h.settles⟩
  by_cases hcan : canRead file.size count offset = true
  · exact .inr (hsettles.ends hcan)
  · exact .inl (by simpa using hcan)

/-- A byte, read at the first call. -/
theorem settles_iff_byte :
    (File.mk ⟨fun i => if i = 0 then some 7 else none, fun i hi => if_neg (by omega)⟩
      0xFFFFFFFFFFFFFFFF).Settles (fun _ => .bytes [7]) 1 0 := by
  refine (settles_iff _ 1 0 ⟨fun k hgets => ?_, 0, fun _ _ => by simp⟩).2 (.inr (.inl ?_))
  · rcases k with _ | k
    · refine ⟨by decide, by decide, fun j hj => ?_, by simp⟩
      obtain rfl : j = 0 := Nat.lt_one_iff.1 hj
      rfl
    · exact absurd (hgets 1 (by omega)).2 (by decide)
  · intro j hj
    have hone : j < 1 := hj
    simp [Nat.lt_one_iff.1 hone]

theorem stateAt_nil (s : ReadState) (k : ℕ) : stateAt (fun _ => .bytes []) s k = s := by
  induction k with
  | zero => rfl
  | succ k ih =>
    unfold stateAt
    rw [ih]
    simp [ReadState.next]

/-- An empty file that cannot seek, where `pread` always answers that it is at the end. -/
theorem not_settles :
    ¬ ∀ (contents : Contents) (seek : SeekType) (seekEnd : Int64) (file : File),
      File.new contents seek seekEnd = some file →
      ∀ (answers : ℕ → Answer) (count offset : UInt64),
        Answered answers file.contents (.start count offset) →
        file.Settles answers count offset := by
  intro h
  have hmay : ∀ k, Contents.MayAnswer ⟨fun _ => none, fun _ _ => rfl⟩
      (stateAt (fun _ => .bytes []) (.start 1 0) k).toRead
      (stateAt (fun _ => .bytes []) (.start 1 0) k).offset (.bytes []) := by
    intro k
    rw [stateAt_nil]
    exact ⟨by decide, by simp, by simp [Contents.At], fun _ => rfl⟩
  have hsettles := h ⟨fun _ => none, fun _ _ => rfl⟩ .cannotSeek 0 _ rfl (fun _ => .bytes []) 1 0
    ⟨fun k _ => hmay k, 0, fun _ _ => by simp⟩
  rcases safeRead_ends_iff.1 (hsettles.ends (by decide)) with ⟨n, hzero | herror⟩
  · rw [stateAt_nil] at hzero
    exact absurd hzero (by decide)
  · cases herror

end CPPCodes.Dedup
