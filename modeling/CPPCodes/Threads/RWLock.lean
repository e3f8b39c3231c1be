import Mathlib.Algebra.Ring.Int.Defs
import Mathlib.Tactic.Common

/-!
# The reader writer lock

`RWLock` of RWLock.cpp. A function is what it does with the mutex locked: up to its return, or up to
a wait, and from the end of a wait on. `none` is a failed assert or an overflow of an `int32_t`.
-/

namespace CPPCodes.Threads

inductive LockType
  | kUnlocked
  | kRead
  | kWrite
  deriving DecidableEq

structure Reader where
  pending : ℤ := 0
  acquired : ℤ := 0
  deriving DecidableEq

structure Writer where
  pending : ℤ := 0
  acquired : Bool := false
  deriving DecidableEq

@[ext]
structure RWLock where
  lockState : LockType := .kUnlocked
  reader : Reader := {}
  writer : Writer := {}
  deriving DecidableEq

/-- Where a function lets go of the mutex: with its result, or in a wait. -/
inductive Out
  | ret (locked : Bool)
  | wait
  deriving DecidableEq

/-- What `Unlock` does with the condition variables. -/
inductive Notify
  | none
  | writer
  | readers
  deriving DecidableEq

/-- `++` on an `int32_t`. -/
def incr (n : ℤ) : Option ℤ := if n < 2 ^ 31 - 1 then some (n + 1) else none

/-- `--` on an `int32_t`. -/
def decr (n : ℤ) : Option ℤ := if -2 ^ 31 < n then some (n - 1) else none

inductive Op
  | readLock
  | tryReadLock
  | writeLock
  | tryWriteLock

def Op.IsRead : Op → Prop
  | .readLock | .tryReadLock => True
  | .writeLock | .tryWriteLock => False

def Op.IsTry : Op → Prop
  | .tryReadLock | .tryWriteLock => True
  | .readLock | .writeLock => False

namespace RWLock

variable (lock : RWLock)

/-- The end of `ReadLock(bool)`. -/
def readAcquire : Option (Out × RWLock) :=
  if (lock.lockState = .kUnlocked ∨ lock.lockState = .kRead) ∧ lock.writer.acquired = false then do
    let acquired ← incr lock.reader.acquired
    return (.ret true, { lock with lockState := .kRead, reader := { lock.reader with acquired } })
  else none

/-- The loop of `ReadLock(bool)` up to the next wait. -/
def readLoop (block : Bool) : Option (Out × RWLock) :=
  if lock.writer.pending ≠ 0 ∨ lock.lockState = .kWrite then
    if block then do
      let pending ← incr lock.reader.pending
      return (.wait, { lock with reader := { lock.reader with pending } })
    else some (.ret false, lock)
  else lock.readAcquire

/-- `ReadLock(bool)`. -/
def readLockBool (block : Bool) : Option (Out × RWLock) :=
  match lock.lockState with
  | .kUnlocked => lock.readAcquire
  | .kRead | .kWrite => lock.readLoop block

/-- `ReadLock(true)` behind its wait. -/
def readWoken : Option (Out × RWLock) := do
  let pending ← decr lock.reader.pending
  readLoop { lock with reader := { lock.reader with pending } } true

/-- The end of `WriteLock(bool)`. -/
def writeAcquire : Option (Out × RWLock) :=
  if lock.writer.acquired = false ∧ lock.lockState = .kUnlocked then
    some (.ret true, { lock with
      lockState := .kWrite
      writer := { lock.writer with acquired := true } })
  else none

/-- The loop of `WriteLock(bool)` up to the next wait; it starts again behind a wait. -/
def writeLoop : Option (Out × RWLock) :=
  if lock.lockState ≠ .kUnlocked then some (.wait, lock)
  else do
    let pending ← decr lock.writer.pending
    writeAcquire { lock with writer := { lock.writer with pending } }

/-- `WriteLock(bool)`. -/
def writeLockBool (block : Bool) : Option (Out × RWLock) :=
  match lock.lockState with
  | .kUnlocked => lock.writeAcquire
  | .kRead | .kWrite =>
    if block then do
      let pending ← incr lock.writer.pending
      writeLoop { lock with writer := { lock.writer with pending } }
    else some (.ret false, lock)

/-- The assert of `ReadLock()` and `WriteLock()`. -/
def assertLocked : Option (Out × RWLock) → Option (Out × RWLock)
  | some (.ret false, _) => none
  | res => res

/-- The public functions. -/
def call : Op → Option (Out × RWLock)
  | .readLock => assertLocked (lock.readLockBool true)
  | .tryReadLock => lock.readLockBool false
  | .writeLock => assertLocked (lock.writeLockBool true)
  | .tryWriteLock => lock.writeLockBool false

/-- The `switch` of `Unlock`. -/
def release : Option RWLock :=
  match lock.lockState with
  | .kUnlocked => none
  | .kRead =>
    if 0 < lock.reader.acquired then do
      let acquired ← decr lock.reader.acquired
      let lock := { lock with reader := { lock.reader with acquired } }
      return if acquired = 0 then { lock with lockState := .kUnlocked } else lock
    else none
  | .kWrite =>
    if lock.writer.acquired = true ∧ lock.reader.acquired = 0 then
      some { lock with lockState := .kUnlocked, writer := { lock.writer with acquired := false } }
    else none

/-- Whom `Unlock` notifies. -/
def notify : Notify :=
  if lock.lockState ≠ .kUnlocked then .none
  else if lock.writer.pending ≠ 0 then .writer
  else if lock.reader.pending ≠ 0 then .readers
  else .none

def unlock : Option (Notify × RWLock) := lock.release.map fun lock => (lock.notify, lock)

end RWLock

/-! ## What the functions do -/

namespace RWLock

variable {lock : RWLock} {res : Out × RWLock}

theorem incr_cases {n m : ℤ} (h : incr n = some m) : m = n + 1 := by
  unfold incr at h
  split_ifs at h
  exact (Option.some.inj h).symm

theorem decr_cases {n m : ℤ} (h : decr n = some m) : m = n - 1 := by
  unfold decr at h
  split_ifs at h
  exact (Option.some.inj h).symm

/-- The lock with a reader more. -/
def addReader (lock : RWLock) : RWLock :=
  { lock with
    lockState := .kRead
    reader := { lock.reader with acquired := lock.reader.acquired + 1 } }

/-- The lock with a reader less. -/
def dropReader (lock : RWLock) : RWLock :=
  { lock with
    lockState := if lock.reader.acquired - 1 = 0 then .kUnlocked else .kRead
    reader := { lock.reader with acquired := lock.reader.acquired - 1 } }

/-- The lock with `n` readers more in their wait. -/
def addPendingReader (lock : RWLock) (n : ℤ) : RWLock :=
  { lock with reader := { lock.reader with pending := lock.reader.pending + n } }

def addWriter (lock : RWLock) : RWLock :=
  { lock with lockState := .kWrite, writer := { lock.writer with acquired := true } }

def dropWriter (lock : RWLock) : RWLock :=
  { lock with lockState := .kUnlocked, writer := { lock.writer with acquired := false } }

def addPendingWriter (lock : RWLock) (n : ℤ) : RWLock :=
  { lock with writer := { lock.writer with pending := lock.writer.pending + n } }

/-- A reader has to wait, unless it comes when the lock is free. -/
def Busy (lock : RWLock) : Prop := lock.writer.pending ≠ 0 ∨ lock.lockState = .kWrite

theorem readAcquire_cases (h : lock.readAcquire = some res) :
    res = (.ret true, lock.addReader) := by
  unfold readAcquire at h
  split_ifs at h
  simp only [Option.bind_eq_bind, Option.bind_eq_some_iff] at h
  obtain ⟨acquired, hincr, heq⟩ := h
  rw [← Option.some.inj heq, incr_cases hincr]
  rfl

theorem readLoop_cases {block : Bool} (h : lock.readLoop block = some res) :
    lock.Busy ∧ block = true ∧ res = (.wait, lock.addPendingReader 1) ∨
      lock.Busy ∧ block = false ∧ res = (.ret false, lock) ∨
      ¬ lock.Busy ∧ res = (.ret true, lock.addReader) := by
  unfold readLoop at h
  split_ifs at h with hbusy hblock
  · simp only [Option.bind_eq_bind, Option.bind_eq_some_iff] at h
    obtain ⟨pending, hincr, heq⟩ := h
    refine .inl ⟨hbusy, hblock, ?_⟩
    rw [← Option.some.inj heq, incr_cases hincr]
    rfl
  · exact .inr (.inl ⟨hbusy, by simpa using hblock, (Option.some.inj h).symm⟩)
  · exact .inr (.inr ⟨hbusy, readAcquire_cases h⟩)

theorem readLockBool_cases {block : Bool} (h : lock.readLockBool block = some res) :
    (lock.lockState = .kUnlocked ∨ ¬ lock.Busy) ∧ res = (.ret true, lock.addReader) ∨
      lock.lockState ≠ .kUnlocked ∧ lock.Busy ∧ block = true ∧
        res = (.wait, lock.addPendingReader 1) ∨
      lock.lockState ≠ .kUnlocked ∧ lock.Busy ∧ block = false ∧ res = (.ret false, lock) := by
  unfold readLockBool at h
  split at h
  next hstate => exact .inl ⟨.inl hstate, readAcquire_cases h⟩
  all_goals
    next hstate =>
      have hne : lock.lockState ≠ .kUnlocked := by rw [hstate]; simp
      rcases readLoop_cases h with ⟨hbusy, hblock, hres⟩ | ⟨hbusy, hblock, hres⟩ | ⟨hbusy, hres⟩
      · exact .inr (.inl ⟨hne, hbusy, hblock, hres⟩)
      · exact .inr (.inr ⟨hne, hbusy, hblock, hres⟩)
      · exact .inl ⟨.inr hbusy, hres⟩

theorem writeAcquire_cases (h : lock.writeAcquire = some res) :
    lock.lockState = .kUnlocked ∧ res = (.ret true, lock.addWriter) := by
  unfold writeAcquire at h
  split_ifs at h with hfree
  exact ⟨hfree.2, (Option.some.inj h).symm⟩

theorem writeLoop_cases (h : lock.writeLoop = some res) :
    lock.lockState ≠ .kUnlocked ∧ res = (.wait, lock) ∨
      lock.lockState = .kUnlocked ∧ res = (.ret true, (lock.addPendingWriter (-1)).addWriter) := by
  unfold writeLoop at h
  split_ifs at h with hstate
  · exact .inl ⟨hstate, (Option.some.inj h).symm⟩
  · simp only [Option.bind_eq_bind, Option.bind_eq_some_iff] at h
    obtain ⟨pending, hdecr, heq⟩ := h
    obtain ⟨hfree, rfl⟩ := writeAcquire_cases heq
    refine .inr ⟨hfree, ?_⟩
    rw [decr_cases hdecr]
    rfl

theorem writeLockBool_cases {block : Bool} (h : lock.writeLockBool block = some res) :
    lock.lockState = .kUnlocked ∧ res = (.ret true, lock.addWriter) ∨
      lock.lockState ≠ .kUnlocked ∧ block = true ∧ res = (.wait, lock.addPendingWriter 1) ∨
      lock.lockState ≠ .kUnlocked ∧ block = false ∧ res = (.ret false, lock) := by
  unfold writeLockBool at h
  split at h
  next => exact .inl (writeAcquire_cases h)
  all_goals
    next hstate =>
      have hne : lock.lockState ≠ .kUnlocked := by rw [hstate]; simp
      split_ifs at h with hblock
      · simp only [Option.bind_eq_bind, Option.bind_eq_some_iff] at h
        obtain ⟨pending, hincr, hloop⟩ := h
        rcases writeLoop_cases hloop with ⟨-, rfl⟩ | ⟨hfree, -⟩
        · refine .inr (.inl ⟨hne, hblock, ?_⟩)
          rw [incr_cases hincr]
          rfl
        · exact absurd hfree hne
      · exact .inr (.inr ⟨hne, by simpa using hblock, (Option.some.inj h).symm⟩)

theorem assertLocked_eq_some {out : Option (Out × RWLock)} (h : assertLocked out = some res) :
    out = some res ∧ res.1 ≠ .ret false := by
  unfold assertLocked at h
  split at h
  · simp at h
  · next hne => exact ⟨h, fun heq => hne res.2 (by rw [h, ← heq])⟩

/-- What a call for reading does. -/
theorem call_read_cases {op : Op} (hop : op.IsRead) (h : lock.call op = some res) :
    (lock.lockState = .kUnlocked ∨ ¬ lock.Busy) ∧ res = (.ret true, lock.addReader) ∨
      lock.lockState ≠ .kUnlocked ∧ lock.Busy ∧ op = .readLock ∧
        res = (.wait, lock.addPendingReader 1) ∨
      lock.lockState ≠ .kUnlocked ∧ lock.Busy ∧ op = .tryReadLock ∧ res = (.ret false, lock) := by
  cases op with
  | writeLock | tryWriteLock => exact hop.elim
  | readLock =>
    obtain ⟨h, -⟩ := assertLocked_eq_some h
    rcases readLockBool_cases h with hres | ⟨hne, hbusy, -, hres⟩ | ⟨-, -, hblock, -⟩
    · exact .inl hres
    · exact .inr (.inl ⟨hne, hbusy, rfl, hres⟩)
    · simp at hblock
  | tryReadLock =>
    rcases readLockBool_cases h with hres | ⟨-, -, hblock, -⟩ | ⟨hne, hbusy, -, hres⟩
    · exact .inl hres
    · simp at hblock
    · exact .inr (.inr ⟨hne, hbusy, rfl, hres⟩)

theorem tryReadLock_busy (hstate : lock.lockState ≠ .kUnlocked) (hbusy : lock.Busy) :
    lock.call .tryReadLock = some (.ret false, lock) := by
  have hloop : lock.readLoop false = some (.ret false, lock) := if_pos hbusy
  show lock.readLockBool false = _
  unfold readLockBool
  split
  next hfree => exact absurd hfree hstate
  all_goals exact hloop

/-- What a call for writing does. -/
theorem call_write_cases {op : Op} (hop : ¬ op.IsRead) (h : lock.call op = some res) :
    lock.lockState = .kUnlocked ∧ res = (.ret true, lock.addWriter) ∨
      lock.lockState ≠ .kUnlocked ∧ op = .writeLock ∧ res = (.wait, lock.addPendingWriter 1) ∨
      lock.lockState ≠ .kUnlocked ∧ op = .tryWriteLock ∧ res = (.ret false, lock) := by
  cases op with
  | readLock | tryReadLock => exact absurd trivial hop
  | writeLock =>
    obtain ⟨h, -⟩ := assertLocked_eq_some h
    rcases writeLockBool_cases h with hres | ⟨hne, -, hres⟩ | ⟨-, hblock, -⟩
    · exact .inl hres
    · exact .inr (.inl ⟨hne, rfl, hres⟩)
    · simp at hblock
  | tryWriteLock =>
    rcases writeLockBool_cases h with hres | ⟨-, hblock, -⟩ | ⟨hne, -, hres⟩
    · exact .inl hres
    · simp at hblock
    · exact .inr (.inr ⟨hne, rfl, hres⟩)

/-- What a reader does behind its wait. -/
theorem readWoken_cases (h : lock.readWoken = some res) :
    lock.Busy ∧ res = (.wait, lock) ∨
      ¬ lock.Busy ∧ res = (.ret true, (lock.addPendingReader (-1)).addReader) := by
  unfold readWoken at h
  simp only [Option.bind_eq_bind, Option.bind_eq_some_iff] at h
  obtain ⟨pending, hdecr, hloop⟩ := h
  obtain rfl := decr_cases hdecr
  rcases readLoop_cases hloop with ⟨hbusy, -, hres⟩ | ⟨-, hblock, -⟩ | ⟨hbusy, hres⟩
  · refine .inl ⟨hbusy, hres.trans ?_⟩
    simp [addPendingReader]
  · simp at hblock
  · exact .inr ⟨hbusy, hres⟩

/-- What `Unlock` does for a reader and for a writer. -/
theorem unlock_cases {n : Notify} {lock' : RWLock} (h : lock.unlock = some (n, lock')) :
    n = lock'.notify ∧ (lock.lockState = .kRead ∧ lock' = lock.dropReader ∨
      lock.lockState = .kWrite ∧ lock' = lock.dropWriter) := by
  unfold unlock at h
  simp only [Option.map_eq_some_iff, Prod.mk.injEq] at h
  obtain ⟨l, h, rfl, rfl⟩ := h
  refine ⟨rfl, ?_⟩
  unfold release at h
  split at h
  · simp at h
  · next hstate =>
    split_ifs at h
    simp only [Option.bind_eq_bind, Option.bind_eq_some_iff] at h
    obtain ⟨acquired, hdecr, heq⟩ := h
    refine .inl ⟨hstate, ?_⟩
    rw [← Option.some.inj heq, decr_cases hdecr]
    unfold dropReader
    split_ifs <;> simp [hstate]
  · next hstate =>
    split_ifs at h
    exact .inr ⟨hstate, (Option.some.inj h).symm⟩

end RWLock

end CPPCodes.Threads
