import CPPCodes.Threads.Exclusion

/-!
# No wakeup is lost

Whenever the lock is free and a thread waits for it, a thread that has been notified is on its way,
a writer if one waits (`Awake`). A notified thread that finds the lock free takes it, so the threads
never all wait for a lock that nobody holds (`wakeup`).
-/

namespace CPPCodes.Threads

open Tally Transition Phase

variable {ι : Type}

/-- With the lock free, a waiting writer has been notified, or without one all waiting readers
have. -/
structure Awake (p : ι → Phase) : Prop where
  writer : Free p → PendingWriter p → ∃ i, p i = .waitWrite true
  readers : Free p → ¬ PendingWriter p → ∀ i n, p i = .waitRead n → n = true

theorem Awake.of_not_free {p : ι → Phase} (h : ¬ Free p) : Awake p :=
  ⟨fun hfree => absurd hfree h, fun hfree => absurd hfree h⟩

theorem Awake.init : Awake (State.init : State ι).phase :=
  ⟨fun _ ⟨i, n, hi⟩ => by simp [State.init] at hi, fun _ _ i n hi => by simp [State.init] at hi⟩

variable [DecidableEq ι] {p q : ι → Phase} {i : ι}

theorem PendingWriter.update {n : Bool} (h : PendingWriter p) (hi : p i = .waitRead n) (v : Phase) :
    PendingWriter (Function.update p i v) := by
  obtain ⟨j, m, hj⟩ := h
  refine ⟨j, m, ?_⟩
  rw [Function.update_of_ne]
  · exact hj
  · rintro rfl
    simp [hi] at hj

theorem Awake.released (h : Released p q) : Awake q := by
  have hsame := SameHolders.released h
  cases h with
  | held hfree _ => exact .of_not_free (mt hsame.free.1 hfree)
  | writer hfree hwriter hn =>
    have hnotified : ∃ i, q i = .waitWrite true := by
      cases hn with
      | writer hi => exact ⟨_, Function.update_self ..⟩
      | nobody hnone =>
        obtain ⟨i, n, hi⟩ := hwriter
        rcases n with - | -
        · exact absurd hi (hnone i)
        · exact ⟨i, hi⟩
    refine ⟨fun _ _ => hnotified, fun _ hno => ?_⟩
    obtain ⟨i, hi⟩ := hnotified
    exact absurd ⟨i, true, hi⟩ hno
  | readers hfree hwriter hn =>
    cases hn with
    | readers =>
      have hkeep : ∀ i n, (p i).notifyReader = .waitWrite n → p i = .waitWrite n := by
        intro i n hi
        rcases hp : p i with - | - | - | m | m <;> rw [hp] at hi <;> simp_all [notifyReader]
      refine ⟨fun _ hw => ?_, fun _ _ i n hi => ?_⟩
      · obtain ⟨i, n, hi⟩ := hw
        exact absurd ⟨i, n, hkeep i n hi⟩ hwriter
      · rcases hp : p i with - | - | - | m | m <;> simp [hp, notifyReader] at hi
        exact hi

theorem Awake.grant {act : Act ι} (h : Awake p) (hg : Grant p act q) : Awake q := by
  cases hg with
  | read | readWoken => exact .of_not_free (not_free (i := _) (.inl (Function.update_self ..)))
  | write | writeWoken => exact .of_not_free (not_free (i := _) (.inr (Function.update_self ..)))
  | fail => exact h
  | readWait hi hfree | writeWait hi hfree | writeAgain hi hfree =>
    refine .of_not_free (mt (SameHolders.free (.update ?_ ?_)).1 hfree) <;> simp [hi, Holds]
  | @readAgain i n hi hbusy =>
    have hsame : SameHolders p (Function.update p i (.waitRead false)) :=
      .update (by simp [hi, Holds]) (by simp [Holds])
    have hwriter : Free p → PendingWriter p := fun hfree => hbusy.resolve_left hfree.1
    refine ⟨fun hfree _ => ?_, fun hfree hno => ?_⟩
    · obtain ⟨j, hj⟩ := h.writer (hsame.free.1 hfree) (hwriter (hsame.free.1 hfree))
      refine ⟨j, ?_⟩
      rw [Function.update_of_ne]
      · exact hj
      · rintro rfl
        simp [hi] at hj
    · exact absurd ((hwriter (hsame.free.1 hfree)).update hi _) hno
  | unlock _ hrel => exact .released hrel

variable [Fintype ι]

theorem Awake.runs {acts : List (Act ι)} {s : State ι} (h : Runs Step .init acts s) :
    Awake s.phase := by
  have hboth := h.invariant (I := fun s => Agrees s ∧ Awake s.phase)
    (fun s act t hs hstep => ⟨(hstep.refines hs.1).2, hs.2.grant (hstep.refines hs.1).1⟩)
    ⟨.init, .init⟩
  exact hboth.2

/-- A notified thread, be it a reader or a writer. -/
def Phase.IsNotified (ph : Phase) : Prop := ph = .waitRead true ∨ ph = .waitWrite true

theorem wakeWrite_free {s : State ι} (h : Agrees s) (hfree : Free s.phase) {n : Bool}
    (hi : s.phase i = .waitWrite n) : ∃ t, Step s (.wake i n) t ∧ (t.phase i).Holds := by
  have hc := h.consistent
  have hpos : 0 < s.lock.writer.pending := by
    rw [hc.pendingWriters]
    exact_mod_cast tally_isWaitWrite.2 ⟨i, n, hi⟩
  obtain ⟨res, hres⟩ := Option.isSome_iff_exists.1 (RWLock.writeWoken_isSome hc.kWrite.2 hpos)
  refine ⟨_, .wakeWrite hi hres, ?_⟩
  rcases RWLock.writeLoop_cases (RWLock.assertLocked_eq_some hres).1 with ⟨hstate, -⟩ | ⟨-, rfl⟩
  · rw [h.lock] at hstate
    exact absurd (lockOf_kUnlocked.2 hfree) hstate
  · exact .inr (Function.update_self ..)

theorem wakeRead_free {s : State ι} (h : Agrees s) (hfree : Free s.phase)
    (hwriter : ¬ PendingWriter s.phase) {n : Bool} (hi : s.phase i = .waitRead n) :
    ∃ t, Step s (.wake i n) t ∧ (t.phase i).Holds := by
  have hc := h.consistent
  have hpos : 0 < s.lock.reader.pending := by
    rw [hc.pendingReaders]
    exact_mod_cast tally_isWaitRead.2 ⟨i, n, hi⟩
  have hstate : s.lock.lockState = .kUnlocked := h.lock ▸ lockOf_kUnlocked.2 hfree
  obtain ⟨hacq, hzero⟩ := hc.kUnlocked.1 hstate
  have hbusy : ¬ s.lock.Busy := by
    rw [h.lock, lockOf_busy, not_or]
    exact ⟨hfree.1, hwriter⟩
  have hpending : s.lock.writer.pending = 0 := not_not.1 (not_or.1 hbusy).1
  have hres : RWLock.assertLocked s.lock.readWoken =
      some (.ret true, (s.lock.addPendingReader (-1)).addReader) := by
    simp [RWLock.readWoken, RWLock.decr_eq hpos, RWLock.readLoop, hpending, hstate,
      RWLock.readAcquire, hacq, hzero, incr, RWLock.assertLocked, RWLock.addReader,
      RWLock.addPendingReader, sub_eq_add_neg]
  exact ⟨_, .wakeRead hi hres, .inl (Function.update_self ..)⟩

/-- In every reachable state in which the lock is free and a thread waits, a thread that waits has
been notified, a writer if one waits, and there is one that can go on and gets the lock. -/
theorem wakeup {acts : List (Act ι)} {s : State ι} (h : Runs Step .init acts s)
    (hfree : s.lock.lockState = .kUnlocked)
    (hwait : PendingReader s.phase ∨ PendingWriter s.phase) :
    (∃ i, (s.phase i).IsNotified) ∧
      (0 < s.lock.writer.pending → ∃ i, s.phase i = .waitWrite true) ∧
      ∃ i t, (s.phase i).IsNotified ∧ Step s (.wake i true) t ∧ (t.phase i).Holds := by
  have hs := Agrees.runs h
  have hawake := Awake.runs h
  rw [hs.lock, lockOf_kUnlocked] at hfree
  have hpending : 0 < s.lock.writer.pending ↔ PendingWriter s.phase := by
    rw [hs.consistent.pendingWriters, ← tally_isWaitWrite, Int.natCast_pos]
  suffices hrun : ∃ i t, (s.phase i).IsNotified ∧ Step s (.wake i true) t ∧ (t.phase i).Holds from
    ⟨hrun.imp fun i ht => ht.choose_spec.1, fun hpos => hawake.writer hfree (hpending.1 hpos), hrun⟩
  by_cases hwriter : PendingWriter s.phase
  · obtain ⟨i, hi⟩ := hawake.writer hfree hwriter
    obtain ⟨t, hstep, hholds⟩ := wakeWrite_free hs hfree hi
    exact ⟨i, t, .inr hi, hstep, hholds⟩
  · obtain ⟨i, n, hi⟩ := hwait.resolve_right hwriter
    obtain rfl := hawake.readers hfree hwriter i n hi
    obtain ⟨t, hstep, hholds⟩ := wakeRead_free hs hfree hwriter hi
    exact ⟨i, t, .inl hi, hstep, hholds⟩

/-- A reader has unlocked, and the writer that it has notified has not run yet. -/
theorem window_runs : ∃ s : State (Fin 3),
    Runs Step .init [.call 0 .readLock, .call 1 .writeLock, .unlock 0] s ∧
      s.lock.lockState = .kUnlocked ∧ 0 < s.lock.writer.pending ∧
      s.phase 1 = .waitWrite true ∧ s.phase 2 = .idle := by
  have hrun : Runs Step (State.init : State (Fin 3))
      ((([] ++ [.call 0 .readLock]) ++ [.call 1 .writeLock]) ++ [.unlock 0]) _ :=
    .snoc (.snoc (.snoc (.nil _) (.call rfl rfl)) (.call rfl rfl))
      (.unlock (.inl rfl) rfl (.writer (i := 1) rfl))
  exact ⟨_, hrun, rfl, by decide, rfl, rfl⟩

theorem wakeup_window : ∃ s : State (Fin 3),
    Runs Step .init [.call 0 .readLock, .call 1 .writeLock, .unlock 0] s ∧
      ∃ i t, (s.phase i).IsNotified ∧ Step s (.wake i true) t ∧ (t.phase i).Holds := by
  obtain ⟨s, hrun, hfree, -, hwaits, -⟩ := window_runs
  exact ⟨s, hrun, (wakeup hrun hfree (.inr ⟨1, true, hwaits⟩)).2.2⟩

end CPPCodes.Threads
