import CPPCodes.Threads.Wakeup

/-!
# Writers before readers

A reader that comes while a writer waits waits as well, and gets the lock only after one of the
writers that waited has had it. That is what the loop of `ReadLock(bool)` sees to, but a reader that
comes when the lock is free does not get to the loop: in the window between an `Unlock` and the run
of the writer that it has notified, a reader overtakes the writer (`preferred_iff`).
-/

namespace CPPCodes.Threads

open Tally Transition Phase

variable {ι : Type} [DecidableEq ι]

/-- A step with which none of the writers that wait in `s` gets the lock. -/
def StepBefore (s : State ι) (t : State ι) (act : Act ι) (u : State ι) : Prop :=
  Step t act u ∧ ∀ w n, s.phase w = .waitWrite n → u.phase w ≠ .writing

/-- The call of the reader `r` leaves the preference to the writers that wait in `s`: `TryReadLock`
returns false, and as long as none of these writers has got the lock the reader that has called
`ReadLock` has not got it either. -/
structure Preferred (s : State ι) (r : ι) : Prop where
  tryReadLock : s.lock.call .tryReadLock = some (.ret false, s.lock)
  readLock : ∀ t, Step s (.call r .readLock) t → ∀ acts u, Runs (StepBefore s) t acts u →
    u.phase r ≠ .reading

variable [Fintype ι] {s : State ι} {r : ι}

/-- A waiting reader goes on waiting as long as one of the writers does. -/
theorem StepBefore.waits {t u : State ι} {act : Act ι} {w : ι} (hstep : StepBefore s t act u)
    (ht : Agrees t) (hw : ∃ n, s.phase w = .waitWrite n) (hr : ∃ n, t.phase r = .waitRead n)
    (htw : ∃ n, t.phase w = .waitWrite n) :
    (∃ n, u.phase r = .waitRead n) ∧ ∃ n, u.phase w = .waitWrite n := by
  obtain ⟨hstep, hbefore⟩ := hstep
  obtain ⟨hgrant, -⟩ := hstep.refines ht
  obtain ⟨n, hn⟩ := hw
  obtain ⟨m, hm⟩ := hr
  obtain ⟨k, hk⟩ := htw
  refine ⟨(hgrant.waitRead hm).resolve_left fun h => h.2 ⟨w, k, hk⟩,
    (hgrant.waitWrite hk).resolve_left fun h => hbefore w n hn h.1⟩

/-- A reader that has come to its wait does not get the lock before one of the writers. -/
theorem runs_stepBefore {t u : State ι} {acts : List (Act ι)} {w : ι}
    (h : Runs (StepBefore s) t acts u) (ht : Agrees t) (hw : ∃ n, s.phase w = .waitWrite n)
    (hr : ∃ n, t.phase r = .waitRead n) (htw : ∃ n, t.phase w = .waitWrite n) :
    ∃ n, u.phase r = .waitRead n := by
  have hinv := h.invariant (I := fun v => Agrees v ∧ (∃ n, v.phase r = .waitRead n) ∧
      ∃ n, v.phase w = .waitWrite n)
    (fun v act v' hv hstep => ⟨(hstep.1.refines hv.1).2, hstep.waits hv.1 hw hv.2.1 hv.2.2⟩)
    ⟨ht, hr, htw⟩
  exact hinv.2.1

theorem Agrees.preferred (h : Agrees s) (hstate : s.lock.lockState ≠ .kUnlocked)
    (hpending : 0 < s.lock.writer.pending) (hidle : s.phase r = .idle) : Preferred s r := by
  have hbusy : s.lock.Busy := .inl hpending.ne'
  obtain ⟨w, n, hw⟩ : PendingWriter s.phase := by
    rw [h.consistent.pendingWriters, Int.natCast_pos] at hpending
    exact tally_isWaitWrite.1 hpending
  refine ⟨RWLock.tryReadLock_busy hstate hbusy, fun t hstep acts u hruns hreading => ?_⟩
  obtain ⟨hgrant, ht⟩ := hstep.refines h
  rw [h.lock, Ne, lockOf_kUnlocked] at hstate
  generalize hq : t.phase = q at hgrant
  cases hgrant with
  | read _ _ hfree =>
    rcases hfree with hfree | ⟨-, hno⟩
    · exact hstate hfree
    · exact hno ⟨w, n, hw⟩
  | write _ hop => exact hop trivial
  | fail hop => exact hop
  | readWait =>
    have hne : w ≠ r := by
      rintro rfl
      simp [hidle] at hw
    obtain ⟨m, hm⟩ := runs_stepBefore hruns ht ⟨n, hw⟩ (r := r) ⟨false, by simp [hq]⟩
      ⟨n, by simp [hq, hne, hw]⟩
    simp [hm] at hreading

/-- A reader that calls while a writer waits leaves the preference to the waiting writers exactly if
it does not find the lock free. If it does, both functions give it the lock at once. -/
theorem preferred_iff {acts : List (Act ι)} (h : Runs Step .init acts s)
    (hpending : 0 < s.lock.writer.pending) (hidle : s.phase r = .idle) :
    (Preferred s r ↔ s.lock.lockState ≠ .kUnlocked) ∧
      (s.lock.lockState = .kUnlocked → ∀ op : Op, op.IsRead →
        ∃ t, Step s (.call r op) t ∧ t.phase r = .reading) := by
  have hs := Agrees.runs h
  refine ⟨⟨fun hpref hstate => ?_, fun hstate => hs.preferred hstate hpending hidle⟩,
    fun hstate op hop => ⟨_, .call hidle (hs.overtakes hstate op hop), ?_⟩⟩
  · have hcall := hs.overtakes hstate .tryReadLock trivial
    simp [hpref.tryReadLock] at hcall
  · cases op with
    | readLock | tryReadLock => exact Function.update_self ..
    | writeLock | tryWriteLock => exact hop.elim

/-- A thread that comes while a reader holds the lock and a writer waits leaves the preference to
the writer. -/
theorem preferred_iff_read : ∃ s : State (Fin 3),
    Runs Step .init [.call 0 .readLock, .call 1 .writeLock] s ∧ Preferred s 2 := by
  have hrun : Runs Step (State.init : State (Fin 3))
      (([] ++ [.call 0 .readLock]) ++ [.call 1 .writeLock]) _ :=
    .snoc (.snoc (.nil _) (.call rfl rfl)) (.call rfl rfl)
  exact ⟨_, hrun, (preferred_iff hrun (by decide) rfl).1.2 (by decide)⟩

/-- In the window the thread overtakes the writer. -/
theorem not_preferred : ∃ s : State (Fin 3),
    Runs Step .init [.call 0 .readLock, .call 1 .writeLock, .unlock 0] s ∧
      0 < s.lock.writer.pending ∧ s.phase 2 = .idle ∧ ¬ Preferred s 2 := by
  obtain ⟨s, hrun, hstate, hpending, -, hidle⟩ := window_runs
  refine ⟨s, hrun, hpending, hidle, fun hpref => ?_⟩
  have hcall := (Agrees.runs hrun).overtakes hstate .tryReadLock trivial
  simp [hpref.tryReadLock] at hcall

end CPPCodes.Threads
