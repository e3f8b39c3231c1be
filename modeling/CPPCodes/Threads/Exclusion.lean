import CPPCodes.Lib.Transition
import CPPCodes.Threads.Schedule

/-!
# Mutual exclusion

In every state that the threads can reach the counters of the lock are the numbers of the threads
that hold it and wait for it (`Agrees.consistent`), and as long as there are fewer than 2^31 threads
no assert fails and no counter overflows (`Agrees.noFailure`).
-/

namespace CPPCodes.Threads

open Tally Transition Phase

namespace RWLock

variable {lock : RWLock}

/-- A lock whose writer flag is right, and whose counters have room for one more. -/
structure Sound (lock : RWLock) : Prop where
  acquired : lock.writer.acquired = true → lock.lockState = .kWrite
  reading : lock.reader.acquired < 2 ^ 31 - 1
  readers : lock.reader.pending < 2 ^ 31 - 1
  writers : lock.writer.pending < 2 ^ 31 - 1

theorem incr_eq {n : ℤ} (h : n < 2 ^ 31 - 1) : incr n = some (n + 1) := if_pos h

theorem decr_eq {n : ℤ} (h : 0 < n) : decr n = some (n - 1) := if_pos (by omega)

theorem not_acquired (h : lock.writer.acquired = true → lock.lockState = .kWrite)
    (hstate : lock.lockState ≠ .kWrite) : lock.writer.acquired = false := by
  rw [← Bool.not_eq_true]
  exact fun hacq => hstate (h hacq)

theorem readAcquire_isSome (h : lock.Sound) (hstate : lock.lockState ≠ .kWrite) :
    lock.readAcquire.isSome := by
  have hfree : lock.lockState = .kUnlocked ∨ lock.lockState = .kRead := by
    rcases hl : lock.lockState with - | - | - <;> simp [hl] at hstate ⊢
  simp [readAcquire, hfree, not_acquired h.acquired hstate, incr_eq h.reading]

theorem readLoop_isSome (h : lock.Sound) (block : Bool) : (lock.readLoop block).isSome := by
  unfold readLoop
  split_ifs with hbusy hblock
  · simp [incr_eq h.readers]
  · rfl
  · exact readAcquire_isSome h (not_or.1 hbusy).2

theorem readLockBool_isSome (h : lock.Sound) (block : Bool) :
    (lock.readLockBool block).isSome := by
  unfold readLockBool
  split
  next hstate => exact readAcquire_isSome h (by rw [hstate]; simp)
  all_goals exact readLoop_isSome h block

theorem writeLoop_isSome (h : lock.writer.acquired = true → lock.lockState = .kWrite)
    (hpending : 0 < lock.writer.pending) : lock.writeLoop.isSome := by
  unfold writeLoop
  split_ifs with hstate
  · rfl
  · have hfree : lock.lockState = .kUnlocked := not_not.1 hstate
    have hacq := not_acquired h (by simp [hfree])
    simp [decr_eq hpending, writeAcquire, hfree, hacq]

theorem writeLockBool_isSome (h : lock.Sound) (block : Bool) :
    (lock.writeLockBool block).isSome := by
  unfold writeLockBool
  split
  next hstate =>
    have hacq := not_acquired h.acquired (by simp [hstate])
    simp [writeAcquire, hstate, hacq]
  all_goals
    next hstate =>
      split_ifs
      · simp [incr_eq h.writers, writeLoop, hstate]
      · rfl

theorem assertLocked_isSome {out : Option (Out × RWLock)} (hsome : out.isSome)
    (hne : ∀ lock, out ≠ some (.ret false, lock)) : (assertLocked out).isSome := by
  unfold assertLocked
  split
  next lock => exact absurd rfl (hne lock)
  next => exact hsome

theorem call_isSome (h : lock.Sound) (op : Op) : (lock.call op).isSome := by
  cases op with
  | readLock =>
    refine assertLocked_isSome (readLockBool_isSome h true) fun lock hres => ?_
    rcases readLockBool_cases hres with ⟨-, heq⟩ | ⟨-, -, -, heq⟩ | ⟨-, -, hblock, -⟩
    · simp at heq
    · simp at heq
    · simp at hblock
  | tryReadLock => exact readLockBool_isSome h false
  | writeLock =>
    refine assertLocked_isSome (writeLockBool_isSome h true) fun lock hres => ?_
    rcases writeLockBool_cases hres with ⟨-, heq⟩ | ⟨-, -, heq⟩ | ⟨-, hblock, -⟩
    · simp at heq
    · simp at heq
    · simp at hblock
  | tryWriteLock => exact writeLockBool_isSome h false

theorem readWoken_isSome (h : (lock.addPendingReader (-1)).Sound)
    (hpending : 0 < lock.reader.pending) : (assertLocked lock.readWoken).isSome := by
  refine assertLocked_isSome ?_ fun lock hres => ?_
  · simp only [readWoken, decr_eq hpending]
    exact readLoop_isSome h true
  · rcases readWoken_cases hres with ⟨-, heq⟩ | ⟨-, heq⟩ <;> simp at heq

theorem writeWoken_isSome (h : lock.writer.acquired = true → lock.lockState = .kWrite)
    (hpending : 0 < lock.writer.pending) : (assertLocked lock.writeLoop).isSome := by
  refine assertLocked_isSome (writeLoop_isSome h hpending) fun lock hres => ?_
  rcases writeLoop_cases hres with ⟨-, heq⟩ | ⟨-, heq⟩ <;> simp at heq

theorem unlock_isSome (hread : lock.lockState = .kRead → 0 < lock.reader.acquired)
    (hwrite : lock.lockState = .kWrite →
      lock.writer.acquired = true ∧ lock.reader.acquired = 0)
    (hstate : lock.lockState ≠ .kUnlocked) : lock.unlock.isSome := by
  unfold unlock
  rw [Option.isSome_map]
  unfold release
  split
  next hfree => exact absurd hfree hstate
  next hstate =>
    rw [if_pos (hread hstate), decr_eq (hread hstate)]
    rfl
  next hstate =>
    rw [if_pos (hwrite hstate)]
    rfl

end RWLock

variable {ι : Type} [Fintype ι]

/-- The lock counts its holders and the threads in its waits, and its state says which of them there
are. -/
structure Consistent (s : State ι) : Prop where
  readers : s.lock.reader.acquired = tally isReading s.phase
  oneWriter : ∀ i j, s.phase i = .writing → s.phase j = .writing → i = j
  writer : s.lock.writer.acquired = true ↔ Writing s.phase
  exclusive : Writing s.phase → ¬ Reading s.phase
  kWrite : s.lock.lockState = .kWrite ↔ s.lock.writer.acquired = true
  kRead : s.lock.lockState = .kRead ↔ 0 < s.lock.reader.acquired
  kUnlocked : s.lock.lockState = .kUnlocked ↔
    s.lock.writer.acquired = false ∧ s.lock.reader.acquired = 0
  pendingReaders : s.lock.reader.pending = tally isWaitRead s.phase
  pendingWriters : s.lock.writer.pending = tally isWaitWrite s.phase

/-- No function that a thread may be in fails an assert or overflows a counter. -/
structure NoFailure (s : State ι) : Prop where
  call : ∀ i op, s.phase i = .idle → (s.lock.call op).isSome
  wakeRead : ∀ i n, s.phase i = .waitRead n → (RWLock.assertLocked s.lock.readWoken).isSome
  wakeWrite : ∀ i n, s.phase i = .waitWrite n → (RWLock.assertLocked s.lock.writeLoop).isSome
  unlock : ∀ i, (s.phase i).Holds → s.lock.unlock.isSome

theorem Agrees.consistent {s : State ι} (h : Agrees s) : Consistent s := by
  obtain ⟨hlock, hexcl⟩ := h
  have hread : 0 < s.lock.reader.acquired ↔ Reading s.phase := by
    rw [hlock, ← tally_isReading]
    simp [lockOf]
  refine ⟨by rw [hlock]; rfl, hexcl.writer, by rw [hlock, lockOf_acquired], hexcl.reader,
    by rw [hlock, lockOf_kWrite, lockOf_acquired], ?_, ?_, by rw [hlock]; rfl, by rw [hlock]; rfl⟩
  · rw [hread, hlock, lockOf_kRead]
    exact ⟨fun hr => hr.2, fun hr => ⟨fun hw => hexcl.reader hw hr, hr⟩⟩
  · have hzero : s.lock.reader.acquired = 0 ↔ ¬ Reading s.phase := by
      rw [← hread, hlock]
      simp [lockOf]
    rw [hzero, hlock, lockOf_kUnlocked, lockOf_not_acquired]
    rfl

theorem Agrees.noFailure {s : State ι} (h : Agrees s) (hcard : Fintype.card ι < 2 ^ 31) :
    NoFailure s := by
  have hc := h.consistent
  obtain ⟨hlock, hexcl⟩ := h
  -- a thread that is not counted leaves room for itself
  have hroom : ∀ (q : Phase → Bool) i, q (s.phase i) = false →
      (tally q s.phase : ℤ) < 2 ^ 31 - 1 := by
    intro q i hi
    have := tally_lt_card q s.phase hi
    omega
  refine ⟨fun i op hi => ?_, fun i n hi => ?_, fun i n hi => ?_, fun i hi => ?_⟩
  · refine RWLock.call_isSome ⟨hc.kWrite.2, ?_, ?_, ?_⟩ op
    · exact hc.readers ▸ hroom isReading i (by rw [hi]; rfl)
    · exact hc.pendingReaders ▸ hroom isWaitRead i (by rw [hi]; rfl)
    · exact hc.pendingWriters ▸ hroom isWaitWrite i (by rw [hi]; rfl)
  · have hpos : 0 < s.lock.reader.pending := by
      rw [hc.pendingReaders]
      exact_mod_cast tally_isWaitRead.2 ⟨i, n, hi⟩
    have hle : tally isWaitRead s.phase ≤ Fintype.card ι := tally_le_card ..
    refine RWLock.readWoken_isSome ⟨hc.kWrite.2, ?_, ?_, ?_⟩ hpos
    · exact hc.readers ▸ hroom isReading i (by rw [hi]; rfl)
    · simp only [RWLock.addPendingReader, hc.pendingReaders]
      omega
    · exact hc.pendingWriters ▸ hroom isWaitWrite i (by rw [hi]; rfl)
  · refine RWLock.writeWoken_isSome hc.kWrite.2 ?_
    rw [hc.pendingWriters]
    exact_mod_cast tally_isWaitWrite.2 ⟨i, n, hi⟩
  · refine RWLock.unlock_isSome hc.kRead.1 (fun hstate => ?_) ?_
    · have hw := hc.kWrite.1 hstate
      refine ⟨hw, ?_⟩
      have hno := mt tally_isReading.1 (hexcl.reader (hc.writer.1 hw))
      rw [hc.readers]
      omega
    · rw [hlock, Ne, lockOf_kUnlocked]
      exact not_free hi

/-- A reader that finds the lock free gets it, whoever waits. -/
theorem Agrees.overtakes {s : State ι} (h : Agrees s)
    (hstate : s.lock.lockState = .kUnlocked) (op : Op) (hop : op.IsRead) :
    s.lock.call op = some (.ret true, s.lock.addReader) := by
  obtain ⟨hacq, hzero⟩ := h.consistent.kUnlocked.1 hstate
  have hacquire : s.lock.readAcquire = some (.ret true, s.lock.addReader) := by
    simp [RWLock.readAcquire, hstate, hacq, hzero, incr, RWLock.addReader]
  cases op with
  | readLock | tryReadLock =>
    simp [RWLock.call, RWLock.readLockBool, hstate, hacquire, RWLock.assertLocked]
  | writeLock | tryWriteLock => exact hop.elim

variable [DecidableEq ι]

theorem Agrees.runs {acts : List (Act ι)} {s : State ι} (h : Runs Step .init acts s) : Agrees s :=
  h.invariant (fun _ _ _ h hs => (hs.refines h).2) .init

end CPPCodes.Threads
