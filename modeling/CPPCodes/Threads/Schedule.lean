import CPPCodes.Lib.Tally
import CPPCodes.Threads.Phases

/-!
# Threads that use the lock

Any number of threads call the functions of `RWLock` in any order, a holder unlocking before it
takes the lock again. One step is what a thread does while it has the mutex. As long as the lock
agrees with the threads, it lets them do only what `Grant` allows, and agrees with them afterwards
(`Step.refines`).
-/

namespace CPPCodes.Threads

open Tally

structure State (ι : Type) where
  lock : RWLock
  phase : ι → Phase

variable {ι : Type}

def State.init : State ι where
  lock := {}
  phase _ := .idle

/-- The phase of a thread that waits in the function, and of one that got the lock from it. -/
def Op.waiting : Op → Phase
  | .readLock | .tryReadLock => .waitRead false
  | .writeLock | .tryWriteLock => .waitWrite false

def Op.holding : Op → Phase
  | .readLock | .tryReadLock => .reading
  | .writeLock | .tryWriteLock => .writing

variable [DecidableEq ι]

/-- What becomes of the thread that has called the function. -/
def State.after (s : State ι) (i : ι) (op : Op) : Out × RWLock → State ι
  | (.ret true, lock) => { lock, phase := Function.update s.phase i op.holding }
  | (.ret false, lock) => { s with lock }
  | (.wait, lock) => { lock, phase := Function.update s.phase i op.waiting }

/-- The steps. A thread that is in a wait may go on at any time, be it notified or not. A holder may
try to lock as well, as long as that fails. -/
inductive Step : State ι → Act ι → State ι → Prop
  | call {s : State ι} {i : ι} {op : Op} {res : Out × RWLock} : s.phase i = .idle →
      s.lock.call op = some res → Step s (.call i op) (s.after i op res)
  | tryFails {s : State ι} {i : ι} {op : Op} {lock : RWLock} : (s.phase i).Holds →
      s.lock.call op = some (.ret false, lock) → Step s (.call i op) { s with lock }
  | wakeRead {s : State ι} {i : ι} {n : Bool} {res : Out × RWLock} : s.phase i = .waitRead n →
      RWLock.assertLocked s.lock.readWoken = some res →
      Step s (.wake i n) (s.after i .readLock res)
  | wakeWrite {s : State ι} {i : ι} {n : Bool} {res : Out × RWLock} : s.phase i = .waitWrite n →
      RWLock.assertLocked s.lock.writeLoop = some res →
      Step s (.wake i n) (s.after i .writeLock res)
  | unlock {s : State ι} {i : ι} {n : Notify} {lock : RWLock} {phase : ι → Phase} :
      (s.phase i).Holds → s.lock.unlock = some (n, lock) →
      Notified n (Function.update s.phase i .idle) phase → Step s (.unlock i) { lock, phase }

namespace Phase

def isReading : Phase → Bool
  | .reading => true
  | _ => false

def isWriting : Phase → Bool
  | .writing => true
  | _ => false

def isWaitRead : Phase → Bool
  | .waitRead _ => true
  | _ => false

def isWaitWrite : Phase → Bool
  | .waitWrite _ => true
  | _ => false

theorem not_isReading {ph : Phase} (h : ¬ ph.Holds) : ph.isReading = false := by
  rcases ph with - | - | - | n | n <;> simp [isReading, Holds] at h ⊢

end Phase

open Phase

variable [Fintype ι]

def lockOf (p : ι → Phase) : RWLock where
  lockState := if 0 < tally isWriting p then .kWrite
    else if 0 < tally isReading p then .kRead else .kUnlocked
  reader := { pending := tally isWaitRead p, acquired := tally isReading p }
  writer := { pending := tally isWaitWrite p, acquired := decide (0 < tally isWriting p) }

omit [DecidableEq ι]

theorem tally_isReading {p : ι → Phase} : 0 < tally isReading p ↔ Reading p := by
  rw [tally_pos]
  refine exists_congr fun i => ?_
  rcases p i with - | - | - | n | n <;> simp [isReading]

theorem tally_isWriting {p : ι → Phase} : 0 < tally isWriting p ↔ Writing p := by
  rw [tally_pos]
  refine exists_congr fun i => ?_
  rcases p i with - | - | - | n | n <;> simp [isWriting]

theorem tally_isWaitRead {p : ι → Phase} : 0 < tally isWaitRead p ↔ PendingReader p := by
  rw [tally_pos]
  refine exists_congr fun i => ?_
  rcases p i with - | - | - | n | n <;> simp [isWaitRead]

theorem tally_isWaitWrite {p : ι → Phase} : 0 < tally isWaitWrite p ↔ PendingWriter p := by
  rw [tally_pos]
  refine exists_congr fun i => ?_
  rcases p i with - | - | - | n | n <;> simp [isWaitWrite]

theorem lockOf_kWrite {p : ι → Phase} : (lockOf p).lockState = .kWrite ↔ Writing p := by
  rw [← tally_isWriting]
  simp only [lockOf]
  split_ifs <;> simp_all

theorem lockOf_kRead {p : ι → Phase} :
    (lockOf p).lockState = .kRead ↔ ¬ Writing p ∧ Reading p := by
  rw [← tally_isWriting, ← tally_isReading]
  simp only [lockOf]
  split_ifs <;> simp_all

theorem lockOf_kUnlocked {p : ι → Phase} : (lockOf p).lockState = .kUnlocked ↔ Free p := by
  unfold Free
  rw [← tally_isWriting, ← tally_isReading]
  simp only [lockOf]
  split_ifs <;> simp_all

theorem lockOf_busy {p : ι → Phase} : (lockOf p).Busy ↔ Writing p ∨ PendingWriter p := by
  unfold RWLock.Busy
  rw [lockOf_kWrite, ← tally_isWaitWrite, or_comm]
  refine or_congr Iff.rfl ?_
  simp [lockOf, Nat.pos_iff_ne_zero]

theorem lockOf_acquired {p : ι → Phase} : (lockOf p).writer.acquired = true ↔ Writing p := by
  rw [← tally_isWriting]
  simp [lockOf]

theorem lockOf_not_acquired {p : ι → Phase} :
    (lockOf p).writer.acquired = false ↔ ¬ Writing p := by
  rw [← lockOf_acquired, Bool.not_eq_true]

theorem lockOf_sameHolders {p q : ι → Phase} (h : SameHolders p q) :
    (lockOf q).lockState = (lockOf p).lockState ∧
      (lockOf q).writer.acquired = (lockOf p).writer.acquired := by
  refine ⟨?_, by rw [Bool.eq_iff_iff, lockOf_acquired, lockOf_acquired, h.writing]⟩
  by_cases hw : Writing p
  · rw [lockOf_kWrite.2 hw, lockOf_kWrite.2 (h.writing.2 hw)]
  · by_cases hr : Reading p
    · rw [lockOf_kRead.2 ⟨hw, hr⟩, lockOf_kRead.2 ⟨mt h.writing.1 hw, h.reading.2 hr⟩]
    · rw [lockOf_kUnlocked.2 ⟨hw, hr⟩, lockOf_kUnlocked.2 (h.free.2 ⟨hw, hr⟩)]

/-- The lock agrees with the threads, and they exclude each other. -/
structure Agrees (s : State ι) : Prop where
  lock : s.lock = lockOf s.phase
  exclusive : Exclusive s.phase

theorem Agrees.init : Agrees (State.init : State ι) where
  lock := by
    have hno : ∀ q : Phase → Bool, q .idle = false → tally q (fun _ : ι => Phase.idle) = 0 :=
      fun q hq => (tally_eq_zero q _).2 fun _ => hq
    simp only [State.init, lockOf, hno isReading rfl, hno isWriting rfl, hno isWaitRead rfl,
      hno isWaitWrite rfl]
    rfl
  exclusive := ⟨fun i j hi => by simp [State.init] at hi, fun ⟨i, hi⟩ => by simp [State.init] at hi⟩

variable [DecidableEq ι] {p q : ι → Phase} {i : ι}

/-- A lock whose counters have changed as the thread `i` has. -/
theorem eq_lockOf {lock : RWLock} {v : Phase}
    (hstate : lock.lockState = (lockOf (Function.update p i v)).lockState)
    (hwriting : lock.writer.acquired = (lockOf (Function.update p i v)).writer.acquired)
    (hreading : lock.reader.acquired + (p i).isReading.toNat =
      (lockOf p).reader.acquired + v.isReading.toNat)
    (hwaitRead : lock.reader.pending + (p i).isWaitRead.toNat =
      (lockOf p).reader.pending + v.isWaitRead.toNat)
    (hwaitWrite : lock.writer.pending + (p i).isWaitWrite.toNat =
      (lockOf p).writer.pending + v.isWaitWrite.toNat) :
    lock = lockOf (Function.update p i v) := by
  have h₁ := tally_update isReading p i v
  have h₂ := tally_update isWaitRead p i v
  have h₃ := tally_update isWaitWrite p i v
  rcases lock with ⟨state, ⟨pr, ar⟩, ⟨pw, aw⟩⟩
  simp only [lockOf] at *
  simp only [RWLock.mk.injEq, Reader.mk.injEq, Writer.mk.injEq]
  refine ⟨hstate, ⟨?_, ?_⟩, ?_, hwriting⟩ <;> omega

theorem lockOf_reading (hw : ¬ Writing p) :
    (lockOf (Function.update p i .reading)).lockState = .kRead ∧
      (lockOf (Function.update p i .reading)).writer.acquired = false := by
  have hw' : ¬ Writing (Function.update p i .reading) := fun h =>
    (writing_of_update h).elim (by simp) hw
  exact ⟨lockOf_kRead.2 ⟨hw', i, Function.update_self ..⟩,
    lockOf_not_acquired.2 hw'⟩

theorem lockOf_writing :
    (lockOf (Function.update p i .writing)).lockState = .kWrite ∧
      (lockOf (Function.update p i .writing)).writer.acquired = true :=
  have hw : Writing (Function.update p i .writing) := ⟨i, Function.update_self ..⟩
  ⟨lockOf_kWrite.2 hw, lockOf_acquired.2 hw⟩

theorem lockOf_idle (hw : ¬ Writing (Function.update p i .idle)) :
    (lockOf (Function.update p i .idle)).lockState =
        (if tally isReading (Function.update p i .idle) = 0 then .kUnlocked else .kRead) ∧
      (lockOf (Function.update p i .idle)).writer.acquired = false := by
  refine ⟨?_, lockOf_not_acquired.2 hw⟩
  split_ifs with hzero
  · refine lockOf_kUnlocked.2 ⟨hw, fun hr => ?_⟩
    exact absurd (tally_isReading.2 hr) (by omega)
  · exact lockOf_kRead.2 ⟨hw, tally_isReading.1 (by omega)⟩

theorem addReader_lockOf (hi : p i = .idle) (hw : ¬ Writing p) :
    (lockOf p).addReader = lockOf (Function.update p i .reading) := by
  obtain ⟨hstate, hacq⟩ := lockOf_reading (i := i) hw
  refine eq_lockOf hstate.symm ((lockOf_not_acquired.2 hw).trans hacq.symm) ?_ ?_ ?_ <;>
    simp [RWLock.addReader, hi, isReading, isWaitRead, isWaitWrite]

theorem readWoken_lockOf {n : Bool} (hi : p i = .waitRead n) (hw : ¬ Writing p) :
    ((lockOf p).addPendingReader (-1)).addReader = lockOf (Function.update p i .reading) := by
  obtain ⟨hstate, hacq⟩ := lockOf_reading (i := i) hw
  refine eq_lockOf hstate.symm ((lockOf_not_acquired.2 hw).trans hacq.symm) ?_ ?_ ?_ <;>
    simp [RWLock.addReader, RWLock.addPendingReader, hi, isReading, isWaitRead, isWaitWrite]

theorem addWriter_lockOf (hi : p i = .idle) :
    (lockOf p).addWriter = lockOf (Function.update p i .writing) := by
  refine eq_lockOf lockOf_writing.1.symm lockOf_writing.2.symm ?_ ?_ ?_ <;>
    simp [RWLock.addWriter, hi, isReading, isWaitRead, isWaitWrite]

theorem writeWoken_lockOf {n : Bool} (hi : p i = .waitWrite n) :
    ((lockOf p).addPendingWriter (-1)).addWriter = lockOf (Function.update p i .writing) := by
  refine eq_lockOf lockOf_writing.1.symm lockOf_writing.2.symm ?_ ?_ ?_ <;>
    simp [RWLock.addWriter, RWLock.addPendingWriter, hi, isReading, isWaitRead, isWaitWrite]

theorem addPendingReader_lockOf (hi : p i = .idle) :
    (lockOf p).addPendingReader 1 = lockOf (Function.update p i (.waitRead false)) := by
  obtain ⟨hstate, hacq⟩ := lockOf_sameHolders (SameHolders.update (p := p) (i := i)
    (v := .waitRead false) (by simp [hi, Holds]) (by simp [Holds]))
  refine eq_lockOf hstate.symm hacq.symm ?_ ?_ ?_ <;>
    simp [RWLock.addPendingReader, hi, isReading, isWaitRead, isWaitWrite]

theorem addPendingWriter_lockOf (hi : p i = .idle) :
    (lockOf p).addPendingWriter 1 = lockOf (Function.update p i (.waitWrite false)) := by
  obtain ⟨hstate, hacq⟩ := lockOf_sameHolders (SameHolders.update (p := p) (i := i)
    (v := .waitWrite false) (by simp [hi, Holds]) (by simp [Holds]))
  refine eq_lockOf hstate.symm hacq.symm ?_ ?_ ?_ <;>
    simp [RWLock.addPendingWriter, hi, isReading, isWaitRead, isWaitWrite]

theorem dropReader_lockOf (hi : p i = .reading) (hw : ¬ Writing p) :
    (lockOf p).dropReader = lockOf (Function.update p i .idle) := by
  obtain ⟨hstate, hacq⟩ := lockOf_idle (p := p) (i := i)
    fun h => (writing_of_update h).elim (by simp) hw
  have htally := tally_update isReading p i .idle
  simp only [hi, isReading, Bool.toNat_true, Bool.toNat_false] at htally
  refine eq_lockOf (hstate.trans ?_).symm ((lockOf_not_acquired.2 hw).trans hacq.symm) ?_ ?_ ?_
  · simp only [RWLock.dropReader, lockOf]
    exact if_congr (by omega) rfl rfl
  all_goals simp [RWLock.dropReader, hi, isReading, isWaitRead, isWaitWrite]

theorem dropWriter_lockOf (hp : Exclusive p) (hi : p i = .writing) :
    (lockOf p).dropWriter = lockOf (Function.update p i .idle) := by
  have hw : ¬ Writing (Function.update p i .idle) := by
    rintro ⟨j, hj⟩
    obtain rfl := hp.writer i j hi (writing_update (by simp) hj)
    simp at hj
  obtain ⟨hstate, hacq⟩ := lockOf_idle hw
  have htally := tally_update isReading p i .idle
  have hzero : tally isReading p = 0 := by
    have := mt tally_isReading.1 (hp.reader ⟨i, hi⟩)
    omega
  simp only [hi, isReading, Bool.toNat_false] at htally
  refine eq_lockOf (hstate.trans (if_pos (by omega))).symm hacq.symm ?_ ?_ ?_ <;>
    simp [RWLock.dropWriter, hi, isReading, isWaitRead, isWaitWrite]

/-- Threads of the same kinds agree with the same lock. -/
theorem lockOf_update {v : Phase} (hi : ¬ (p i).Holds) (hv : ¬ v.Holds)
    (hwaitRead : v.isWaitRead = (p i).isWaitRead) (hwaitWrite : v.isWaitWrite = (p i).isWaitWrite) :
    lockOf (Function.update p i v) = lockOf p := by
  obtain ⟨hstate, hacq⟩ := lockOf_sameHolders (SameHolders.update hi hv)
  exact (eq_lockOf hstate.symm hacq.symm (by rw [not_isReading hi, not_isReading hv])
    (by rw [hwaitRead]) (by rw [hwaitWrite])).symm

theorem lockOf_notified {n : Notify} (h : Notified n p q) : lockOf q = lockOf p := by
  cases h with
  | none | nobody => rfl
  | writer hi =>
    exact lockOf_update (by simp [hi, Holds]) (by simp [Holds]) (by simp [hi, isWaitRead])
      (by simp [hi, isWaitWrite])
  | readers =>
    have h₁ := tally_map isReading p notifyReader fun ph => by cases ph <;> rfl
    have h₂ := tally_map isWaitRead p notifyReader fun ph => by cases ph <;> rfl
    have h₃ := tally_map isWaitWrite p notifyReader fun ph => by cases ph <;> rfl
    have h₄ := tally_map isWriting p notifyReader fun ph => by cases ph <;> rfl
    simp only [lockOf, h₁, h₂, h₃, h₄]

theorem notify_released {lock : RWLock} (hlock : lock = lockOf p) (h : Notified lock.notify p q) :
    Released p q := by
  subst hlock
  unfold RWLock.notify at h
  split_ifs at h with hfree hwriter hreader
  · cases h
    exact .held (mt lockOf_kUnlocked.2 hfree) rfl
  · refine .writer (lockOf_kUnlocked.1 (not_not.1 hfree)) ?_ h
    exact tally_isWaitWrite.1 (by simpa [lockOf, Nat.pos_iff_ne_zero] using hwriter)
  · refine .readers (lockOf_kUnlocked.1 (not_not.1 hfree)) (fun hw => ?_) h
    exact absurd (tally_isWaitWrite.2 hw) (by simpa [lockOf] using hwriter)
  · refine .readers (lockOf_kUnlocked.1 (not_not.1 hfree)) (fun hw => ?_) ?_
    · exact absurd (tally_isWaitWrite.2 hw) (by simpa [lockOf] using hwriter)
    · cases h
      have hno : ∀ i n, p i ≠ .waitRead n := fun i n hi =>
        absurd (tally_isWaitRead.2 ⟨i, n, hi⟩) (by simpa [lockOf] using hreader)
      have heq : (fun i => (p i).notifyReader) = p := by
        funext i
        rcases hi : p i with - | - | - | n | n
        case waitRead => exact absurd hi (hno i n)
        all_goals rfl
      rw [← heq]
      nth_rewrite 1 [heq]
      exact .readers

/-- A step of the threads is one that they are granted, and the lock agrees with them again. -/
theorem Step.refines {s t : State ι} {act : Act ι} (h : Agrees s) (hs : Step s act t) :
    Grant s.phase act t.phase ∧ Agrees t := by
  suffices hstep : Grant s.phase act t.phase ∧ t.lock = lockOf t.phase from
    ⟨hstep.1, hstep.2, h.exclusive.grant hstep.1⟩
  obtain ⟨hlock, hexcl⟩ := h
  rcases s with ⟨lock, p⟩
  simp only at hlock hexcl
  subst hlock
  cases hs with
  | @call i op res hi hcall =>
    by_cases hop : op.IsRead
    · have hholding : op.holding = .reading := by cases op <;> first | rfl | exact hop.elim
      rcases RWLock.call_read_cases hop hcall with ⟨hstate, rfl⟩ | ⟨hstate, hbusy, rfl, rfl⟩ |
        ⟨hstate, -, rfl, rfl⟩
      · rw [lockOf_kUnlocked, lockOf_busy, not_or] at hstate
        simp only [State.after, hholding]
        exact ⟨.read hi hop hstate, addReader_lockOf hi (hstate.elim (·.1) (·.1))⟩
      · exact ⟨.readWait hi (mt lockOf_kUnlocked.2 hstate) (lockOf_busy.1 hbusy),
          addPendingReader_lockOf hi⟩
      · exact ⟨.fail trivial (mt lockOf_kUnlocked.2 hstate), rfl⟩
    · have hholding : op.holding = .writing := by
        cases op <;> first | rfl | exact absurd trivial hop
      rcases RWLock.call_write_cases hop hcall with ⟨hstate, rfl⟩ | ⟨hstate, rfl, rfl⟩ |
        ⟨hstate, rfl, rfl⟩
      · simp only [State.after, hholding]
        exact ⟨.write hi hop (lockOf_kUnlocked.1 hstate), addWriter_lockOf hi⟩
      · exact ⟨.writeWait hi (mt lockOf_kUnlocked.2 hstate), addPendingWriter_lockOf hi⟩
      · exact ⟨.fail trivial (mt lockOf_kUnlocked.2 hstate), rfl⟩
  | @tryFails i op lock hi hcall =>
    by_cases hop : op.IsRead
    · rcases RWLock.call_read_cases hop hcall with ⟨-, heq⟩ | ⟨-, -, -, heq⟩ |
        ⟨hstate, -, rfl, heq⟩
      · simp at heq
      · simp at heq
      · exact ⟨.fail trivial (mt lockOf_kUnlocked.2 hstate), (Prod.mk.inj heq).2⟩
    · rcases RWLock.call_write_cases hop hcall with ⟨-, heq⟩ | ⟨-, -, heq⟩ |
        ⟨hstate, rfl, heq⟩
      · simp at heq
      · simp at heq
      · exact ⟨.fail trivial (mt lockOf_kUnlocked.2 hstate), (Prod.mk.inj heq).2⟩
  | @wakeRead i n res hi hwake =>
    change p i = .waitRead n at hi
    obtain ⟨hwake, -⟩ := RWLock.assertLocked_eq_some hwake
    rcases RWLock.readWoken_cases hwake with ⟨hbusy, rfl⟩ | ⟨hbusy, rfl⟩
    · refine ⟨.readAgain hi (lockOf_busy.1 hbusy), (lockOf_update ?_ ?_ ?_ ?_).symm⟩ <;>
        simp [hi, Holds, Op.waiting, isWaitRead, isWaitWrite]
    · rw [lockOf_busy, not_or] at hbusy
      exact ⟨.readWoken hi hbusy.1 hbusy.2, readWoken_lockOf hi hbusy.1⟩
  | @wakeWrite i n res hi hwake =>
    change p i = .waitWrite n at hi
    obtain ⟨hwake, -⟩ := RWLock.assertLocked_eq_some hwake
    rcases RWLock.writeLoop_cases hwake with ⟨hstate, rfl⟩ | ⟨hstate, rfl⟩
    · refine ⟨.writeAgain hi (mt lockOf_kUnlocked.2 hstate), (lockOf_update ?_ ?_ ?_ ?_).symm⟩ <;>
        simp [hi, Holds, Op.waiting, isWaitRead, isWaitWrite]
    · exact ⟨.writeWoken hi (lockOf_kUnlocked.1 hstate), writeWoken_lockOf hi⟩
  | @unlock i n lock phase hi hunlock hn =>
    obtain ⟨rfl, hdrop⟩ := RWLock.unlock_cases hunlock
    have hdrop' : lock = lockOf (Function.update p i .idle) := by
      rcases hdrop with ⟨hstate, rfl⟩ | ⟨hstate, rfl⟩
      · have hw := (lockOf_kRead.1 hstate).1
        exact dropReader_lockOf (hi.resolve_right fun hi' => hw ⟨i, hi'⟩) hw
      · have hr := hexcl.reader (lockOf_kWrite.1 hstate)
        exact dropWriter_lockOf hexcl (hi.resolve_left fun hi' => hr ⟨i, hi'⟩)
    exact ⟨.unlock hi (notify_released hdrop' hn), hdrop'.trans (lockOf_notified hn).symm⟩

end CPPCodes.Threads
