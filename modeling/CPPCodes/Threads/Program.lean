import CPPCodes.Threads.Wakeup

/-!
# The program

`main` of RWLock.cpp: readers that lock and unlock, and writers that increment `ds.i` while they
hold the lock, each of them `iterations` times. The increment is a load and a store, and the lock
keeps the other writers from coming between the two (`Program.Sound`). No thread is left waiting for
good (`Program.Ends`).
-/

namespace CPPCodes.Threads

open Tally Transition Phase

/-- The threads that `main` starts. -/
abbrev Thread (nreaders nwriters : ℕ) := Fin nreaders ⊕ Fin nwriters

/-- How far a writer is with `++ds.i`. -/
inductive Increment
  | before
  | loaded (v : UInt64)
  | stored

/-- `ds`, and for each thread the variable of its loop. -/
structure Program (nreaders nwriters : ℕ) where
  state : State (Thread nreaders nwriters)
  i : UInt64
  round : Thread nreaders nwriters → ℕ
  increment : Fin nwriters → Increment

variable {nreaders nwriters : ℕ}

/-- What `ReaderFunc` and `WriteFunc` lock with. -/
def lockOp : Thread nreaders nwriters → Op
  | .inl _ => .readLock
  | .inr _ => .writeLock

inductive Label (nreaders nwriters : ℕ)
  | lock (act : Act (Thread nreaders nwriters))
  | load (k : Fin nwriters)
  | store (k : Fin nwriters)

/-- A wait that ends without a notification. -/
def Label.Spurious : Label nreaders nwriters → Prop
  | .lock (.wake _ n) => n = false
  | _ => False

namespace Program

def init : Program nreaders nwriters where
  state := .init
  i := 0
  round _ := 0
  increment _ := .before

/-- The steps of `ReaderFunc` and `WriteFunc`. -/
inductive Advance (iterations : ℕ) :
    Program nreaders nwriters → Label nreaders nwriters → Program nreaders nwriters → Prop
  | call {m : Program nreaders nwriters} {t : Thread nreaders nwriters}
      {s : State (Thread nreaders nwriters)} : m.state.phase t = .idle → m.round t < iterations →
      Step m.state (.call t (lockOp t)) s →
      Advance iterations m (.lock (.call t (lockOp t))) { m with state := s }
  | wake {m : Program nreaders nwriters} {t : Thread nreaders nwriters} {n : Bool}
      {s : State (Thread nreaders nwriters)} : Step m.state (.wake t n) s →
      Advance iterations m (.lock (.wake t n)) { m with state := s }
  | readUnlock {m : Program nreaders nwriters} {k : Fin nreaders}
      {s : State (Thread nreaders nwriters)} : Step m.state (.unlock (.inl k)) s →
      Advance iterations m (.lock (.unlock (.inl k)))
        { m with state := s, round := Function.update m.round (.inl k) (m.round (.inl k) + 1) }
  | load {m : Program nreaders nwriters} {k : Fin nwriters} : m.state.phase (.inr k) = .writing →
      m.increment k = .before →
      Advance iterations m (.load k)
        { m with increment := Function.update m.increment k (.loaded m.i) }
  | store {m : Program nreaders nwriters} {k : Fin nwriters} {v : UInt64} :
      m.increment k = .loaded v →
      Advance iterations m (.store k)
        { m with i := v + 1, increment := Function.update m.increment k .stored }
  | writeUnlock {m : Program nreaders nwriters} {k : Fin nwriters}
      {s : State (Thread nreaders nwriters)} : m.increment k = .stored →
      Step m.state (.unlock (.inr k)) s →
      Advance iterations m (.lock (.unlock (.inr k)))
        { m with
          state := s
          round := Function.update m.round (.inr k) (m.round (.inr k) + 1)
          increment := Function.update m.increment k .before }

/-- All threads have come to the end of their loops, so that `main` has joined them. -/
def Finished (iterations : ℕ) (m : Program nreaders nwriters) : Prop :=
  ∀ t, m.state.phase t = .idle ∧ ¬ m.round t < iterations

/-- How often a writer has stored. -/
def written (m : Program nreaders nwriters) (k : Fin nwriters) : ℕ :=
  match m.increment k with
  | .before | .loaded _ => m.round (.inr k)
  | .stored => m.round (.inr k) + 1

/-- A thread is in a round only while there is one left, readers only read and writers only write,
and only the writer that holds the lock is in the middle of its increment. -/
structure Sound (iterations : ℕ) (m : Program nreaders nwriters) : Prop where
  agrees : Agrees m.state
  awake : Awake m.state.phase
  fits : ∀ t, (m.state.phase t).Fits t.isRight
  round_le : ∀ t, m.round t ≤ iterations
  round_lt : ∀ t, m.state.phase t ≠ .idle → m.round t < iterations
  inside : ∀ k, m.increment k ≠ .before → m.state.phase (.inr k) = .writing
  loaded : ∀ k v, m.increment k = .loaded v → v = m.i
  count : m.i = UInt64.ofNat (∑ k, m.written k)

variable {iterations : ℕ} {m u : Program nreaders nwriters}

theorem Sound.init : Sound iterations (init : Program nreaders nwriters) where
  agrees := .init
  awake := .init
  fits _ := trivial
  round_le _ := Nat.zero_le _
  round_lt _ h := absurd rfl h
  inside _ h := absurd rfl h
  loaded _ _ h := by simp [Program.init] at h
  count := by simp [Program.init, written]

theorem isRead_lockOp (t : Thread nreaders nwriters) : (lockOp t).IsRead ↔ t.isRight = false := by
  rcases t with k | k <;> simp [lockOp, Op.IsRead]

/-- A call, or what comes behind a wait. -/
theorem Sound.lock {act : Act (Thread nreaders nwriters)} {s : State (Thread nreaders nwriters)}
    (h : Sound iterations m) (hs : Step m.state act s) (hunlock : ∀ t, act ≠ .unlock t)
    (hcall : ∀ t op, act = .call t op → op = lockOp t ∧ m.round t < iterations) :
    Sound iterations { m with state := s } := by
  obtain ⟨hgrant, hagrees⟩ := hs.refines h.agrees
  refine ⟨hagrees, h.awake.grant hgrant, ?_, h.round_le, fun t ht => ?_, fun k hk => ?_, h.loaded,
    h.count⟩
  · refine hgrant.fits h.fits fun t op hop => ?_
    rw [(hcall t op hop).1]
    exact isRead_lockOp t
  · by_contra hround
    refine ht (hgrant.enters ?_ fun op hop => hround (hcall t op hop).2)
    by_contra hbusy
    exact hround (h.round_lt t hbusy)
  · exact hgrant.keeps (h.inside k hk) (hunlock _)

/-- The end of a round. -/
theorem Sound.unlock {t : Thread nreaders nwriters} {s : State (Thread nreaders nwriters)}
    (h : Sound iterations m) (hs : Step m.state (.unlock t) s)
    {increment : Fin nwriters → Increment}
    (hsame : ∀ k, t ≠ .inr k → increment k = m.increment k)
    (hself : ∀ k, t = .inr k → increment k = .before ∧ m.increment k = .stored) :
    Sound iterations
      { m with state := s, round := Function.update m.round t (m.round t + 1), increment } := by
  obtain ⟨hgrant, hagrees⟩ := hs.refines h.agrees
  have hlt : m.round t < iterations := h.round_lt t hgrant.unlock_holds.ne_idle
  refine ⟨hagrees, h.awake.grant hgrant, hgrant.fits h.fits fun _ _ hop => by simp at hop,
    fun j => ?_, fun j hj => ?_, fun k hk => ?_, fun k v hk => ?_, ?_⟩
  · show Function.update m.round t _ j ≤ _
    rw [Function.update_apply]
    split_ifs
    · exact hlt
    · exact h.round_le j
  · have hne : j ≠ t := by
      rintro rfl
      exact hj hgrant.unlock_idle
    show Function.update m.round t _ j < _
    rw [Function.update_of_ne hne]
    refine h.round_lt j fun hidle => hj (hgrant.enters hidle fun op hop => by simp at hop)
  · have hne : t ≠ .inr k := fun heq => hk (hself k heq).1
    refine hgrant.keeps (h.inside k ?_) fun heq => hne (Act.unlock.inj heq)
    rwa [← hsame k hne]
  · have hne : t ≠ .inr k := by
      rintro heq
      simp [(hself k heq).1] at hk
    exact h.loaded k v ((hsame k hne).symm.trans hk)
  · refine h.count.trans (congrArg _ (Finset.sum_congr rfl fun k _ => ?_))
    by_cases hk : t = .inr k
    · subst hk
      simp [written, (hself k rfl).1, (hself k rfl).2]
    · simp only [written, hsame k hk, Function.update_of_ne (Ne.symm hk)]

theorem Sound.inside_update {k : Fin nwriters} (h : Sound iterations m)
    (hk : m.state.phase (.inr k) = .writing) {v : Increment} (j : Fin nwriters)
    (hj : Function.update m.increment k v j ≠ .before) : m.state.phase (.inr j) = .writing := by
  by_cases hne : j = k
  · rw [hne]
    exact hk
  · exact h.inside j (by rwa [Function.update_of_ne hne] at hj)

theorem Sound.load {k : Fin nwriters} (h : Sound iterations m)
    (hk : m.state.phase (.inr k) = .writing) (hbefore : m.increment k = .before) :
    Sound iterations { m with increment := Function.update m.increment k (.loaded m.i) } := by
  refine ⟨h.agrees, h.awake, h.fits, h.round_le, h.round_lt, h.inside_update hk,
    fun j v hj => ?_, ?_⟩
  · change Function.update m.increment k _ j = _ at hj
    by_cases hne : j = k
    · subst hne
      rw [Function.update_self] at hj
      exact (Increment.loaded.inj hj).symm
    · exact h.loaded j v (by rwa [Function.update_of_ne hne] at hj)
  · refine h.count.trans (congrArg _ (Finset.sum_congr rfl fun j _ => ?_))
    by_cases hne : j = k
    · subst hne
      simp [written, hbefore]
    · simp only [written, Function.update_of_ne hne]

theorem sum_written_store {k : Fin nwriters} {v w : UInt64} (hv : m.increment k = .loaded v) :
    ∑ j, written { m with i := w, increment := Function.update m.increment k .stored } j =
      ∑ j, m.written j + 1 := by
  have hwritten : ∀ j,
      written { m with i := w, increment := Function.update m.increment k .stored } j =
        Function.update m.written k (m.written k + 1) j := by
    intro j
    by_cases hne : j = k
    · subst hne
      simp [written, hv]
    · simp only [written, Function.update_of_ne hne]
  have hupdate := sum_update_add id m.written k (m.written k + 1)
  simp only [hwritten]
  simp only [id] at hupdate
  omega

theorem Sound.store {k : Fin nwriters} {v : UInt64} (h : Sound iterations m)
    (hv : m.increment k = .loaded v) :
    Sound iterations
      { m with i := v + 1, increment := Function.update m.increment k .stored } := by
  have hk : m.state.phase (.inr k) = .writing := h.inside k (by simp [hv])
  refine ⟨h.agrees, h.awake, h.fits, h.round_le, h.round_lt, h.inside_update hk,
    fun j w hj => ?_, ?_⟩
  · -- another writer with a value of its own would hold the lock as well
    change Function.update m.increment k _ j = _ at hj
    by_cases hne : j = k
    · subst hne
      simp at hj
    · rw [Function.update_of_ne hne] at hj
      have hholds := h.inside j (by simp [hj])
      exact absurd (Sum.inr.inj (h.agrees.exclusive.writer _ _ hholds hk)) hne
  · calc v + 1 = UInt64.ofNat (∑ j, m.written j) + 1 := by rw [h.loaded k v hv, h.count]
      _ = UInt64.ofNat (∑ j, m.written j + 1) := (UInt64.ofNat_add _ 1).symm
      _ = _ := congrArg _ (sum_written_store hv).symm

theorem Advance.sound {a : Label nreaders nwriters} (h : Sound iterations m)
    (hs : Advance iterations m a u) : Sound iterations u := by
  cases hs with
  | call _ hround hs =>
    refine h.lock hs (fun _ => by simp) fun t op hop => ?_
    cases hop
    exact ⟨rfl, hround⟩
  | wake hs => exact h.lock hs (fun _ => by simp) fun _ _ hop => by simp at hop
  | readUnlock hs => exact h.unlock hs (fun _ _ => rfl) fun _ heq => by simp at heq
  | load hk hbefore => exact h.load hk hbefore
  | store hv => exact h.store hv
  | writeUnlock hstored hs =>
    refine h.unlock hs (fun j hj => Function.update_of_ne ?_ _ _) fun j heq => ?_
    · rintro rfl
      exact hj rfl
    · cases heq
      exact ⟨Function.update_self .., hstored⟩

theorem Sound.runs {acts : List (Label nreaders nwriters)}
    (h : Runs (Advance iterations) Program.init acts m) : Sound iterations m :=
  h.invariant (fun _ _ _ h hs => hs.sound h) .init

/-- Each writer has stored in every round. -/
theorem Sound.finished (h : Sound iterations m) (hfin : m.Finished iterations) :
    m.i = UInt64.ofNat (iterations * nwriters) := by
  have hwritten : ∀ k, m.written k = iterations := by
    intro k
    obtain ⟨hidle, hround⟩ := hfin (.inr k)
    have hbefore : m.increment k = .before := by
      by_contra hne
      exact absurd ((h.inside k hne).symm.trans hidle) (by simp)
    have hle := h.round_le (.inr k)
    simp only [written, hbefore]
    omega
  rw [h.count, Finset.sum_congr rfl fun k _ => hwritten k, Finset.sum_const, Finset.card_fin,
    nsmul_eq_mul, Nat.mul_comm, Nat.cast_id]

/-- A program that has not come to its end can go on without a spurious wakeup, and it does not go
on for ever without one. -/
structure Ends (iterations : ℕ) (m : Program nreaders nwriters) : Prop where
  goesOn : ¬ m.Finished iterations → ∃ a u, ¬ a.Spurious ∧ Advance iterations m a u
  bound : ∃ n, ∀ acts u, Runs (Advance iterations) m acts u → (∀ a ∈ acts, ¬ a.Spurious) →
    acts.length ≤ n

theorem exists_unlock {s : State (Thread nreaders nwriters)} (h : NoFailure s)
    {t : Thread nreaders nwriters} (ht : (s.phase t).Holds) : ∃ s', Step s (.unlock t) s' := by
  obtain ⟨⟨n, lock⟩, hunlock⟩ := Option.isSome_iff_exists.1 (h.unlock t ht)
  obtain ⟨q, hq⟩ := exists_notified n (Function.update s.phase t .idle)
  exact ⟨_, .unlock ht hunlock hq⟩

/-- A thread that holds the lock goes on to its `Unlock`. -/
theorem Sound.holder_goesOn (h : Sound iterations m) (hok : NoFailure m.state)
    {t : Thread nreaders nwriters} (ht : (m.state.phase t).Holds) :
    ∃ a u, ¬ a.Spurious ∧ Advance iterations m a u := by
  obtain ⟨s, hs⟩ := exists_unlock hok ht
  rcases t with k | k
  · exact ⟨_, _, id, .readUnlock hs⟩
  · have hwriting : m.state.phase (.inr k) = .writing := by
      refine ht.resolve_left fun hreading => ?_
      have hfits := h.fits (.inr k)
      simp [hreading, Phase.Fits] at hfits
    rcases hk : m.increment k with - | v | -
    · exact ⟨_, _, id, .load hwriting hk⟩
    · exact ⟨_, _, id, .store hk⟩
    · exact ⟨_, _, id, .writeUnlock hk hs⟩

/-- With the lock free, a thread that has been notified goes on. -/
theorem Sound.waiter_goesOn (h : Sound iterations m) (hok : NoFailure m.state)
    (hfree : Free m.state.phase)
    (hwait : PendingReader m.state.phase ∨ PendingWriter m.state.phase) :
    ∃ a u, ¬ a.Spurious ∧ Advance iterations m a u := by
  by_cases hwriter : PendingWriter m.state.phase
  · obtain ⟨t, ht⟩ := h.awake.writer hfree hwriter
    obtain ⟨res, hres⟩ := Option.isSome_iff_exists.1 (hok.wakeWrite t true ht)
    exact ⟨_, _, by simp [Label.Spurious], .wake (.wakeWrite ht hres)⟩
  · obtain ⟨t, n, ht⟩ := hwait.resolve_right hwriter
    obtain rfl := h.awake.readers hfree hwriter t n ht
    obtain ⟨res, hres⟩ := Option.isSome_iff_exists.1 (hok.wakeRead t true ht)
    exact ⟨_, _, by simp [Label.Spurious], .wake (.wakeRead ht hres)⟩

theorem Sound.goesOn (h : Sound iterations m) (hok : NoFailure m.state)
    (hfin : ¬ m.Finished iterations) : ∃ a u, ¬ a.Spurious ∧ Advance iterations m a u := by
  by_cases hholder : ∃ t, (m.state.phase t).Holds
  · exact h.holder_goesOn hok hholder.choose_spec
  have hfree : Free m.state.phase :=
    ⟨fun ⟨t, ht⟩ => hholder ⟨t, .inr ht⟩, fun ⟨t, ht⟩ => hholder ⟨t, .inl ht⟩⟩
  by_cases hwait : PendingReader m.state.phase ∨ PendingWriter m.state.phase
  · exact h.waiter_goesOn hok hfree hwait
  have hidle : ∀ t, m.state.phase t = .idle := by
    intro t
    rw [not_or] at hwait
    rcases ht : m.state.phase t with - | - | - | n | n
    · rfl
    · exact absurd ⟨t, .inl ht⟩ hholder
    · exact absurd ⟨t, .inr ht⟩ hholder
    · exact absurd ⟨t, n, ht⟩ hwait.1
    · exact absurd ⟨t, n, ht⟩ hwait.2
  -- nobody is in the lock, so a thread that has a round left calls it
  obtain ⟨t, ht⟩ := not_forall.1 hfin
  have hround : m.round t < iterations := by
    by_contra hround
    exact ht ⟨hidle t, hround⟩
  obtain ⟨res, hres⟩ := Option.isSome_iff_exists.1 (hok.call t (lockOp t) (hidle t))
  exact ⟨_, _, id, .call (hidle t) hround (.call (hidle t) hres)⟩

/-- The steps that a thread has left until it is idle again. -/
def phaseCost : Phase → ℕ
  | .idle => 3
  | .waitRead _ | .waitWrite _ => 2
  | .reading | .writing => 1

def incrementCost : Increment → ℕ
  | .before => 2
  | .loaded _ => 1
  | .stored => 0

/-- What a thread has left to do, the waits that end in the next wait left out. -/
def left (iterations : ℕ) (m : Program nreaders nwriters) : Thread nreaders nwriters → ℕ
  | .inl k => 5 * (iterations - m.round (.inl k)) + phaseCost (m.state.phase (.inl k))
  | .inr k => 5 * (iterations - m.round (.inr k)) + phaseCost (m.state.phase (.inr k)) +
      incrementCost (m.increment k)

def isNotified : Phase → Bool
  | .waitRead n | .waitWrite n => n
  | _ => false

/-- A notified thread may have to wait again, but then it is not notified any more; new
notifications come from an `Unlock` only. -/
def rank (iterations : ℕ) (m : Program nreaders nwriters) : ℕ :=
  (nreaders + nwriters + 1) * ∑ t, left iterations m t + tally isNotified m.state.phase

theorem phaseCost_forget (ph : Phase) : phaseCost ph.forget = phaseCost ph := by
  cases ph <;> rfl

theorem phaseCost_congr {ph ph' : Phase} (h : ph.forget = ph'.forget) :
    phaseCost ph = phaseCost ph' := by
  rw [← phaseCost_forget, h, phaseCost_forget]

theorem rank_lt {t : Thread nreaders nwriters} (ht : left iterations u t < left iterations m t)
    (hle : ∀ j, j ≠ t → left iterations u j = left iterations m j) :
    rank iterations u < rank iterations m := by
  have hlt : ∑ j, left iterations u j < ∑ j, left iterations m j := by
    refine Finset.sum_lt_sum (fun j _ => ?_) ⟨t, Finset.mem_univ t, ht⟩
    by_cases hj : j = t
    · exact hj ▸ ht.le
    · exact (hle j hj).le
  have hnotified : tally isNotified u.state.phase ≤ nreaders + nwriters := by
    have := tally_le_card isNotified u.state.phase
    rwa [Fintype.card_sum, Fintype.card_fin, Fintype.card_fin] at this
  have hmul := Nat.mul_le_mul_left (nreaders + nwriters + 1) (Nat.succ_le_of_lt hlt)
  rw [Nat.mul_succ] at hmul
  unfold rank
  omega

theorem phaseCost_lt {ph : Phase} (h : ph ≠ .idle) : phaseCost ph < 3 := by
  cases ph <;> simp [phaseCost] at h ⊢

theorem phaseCost_holds {ph : Phase} (h : ph.Holds) : phaseCost ph = 1 := by
  rcases h with rfl | rfl <;> rfl

/-- Where only the lock and the phases have changed. -/
theorem left_lock (m : Program nreaders nwriters) (s : State (Thread nreaders nwriters))
    (t : Thread nreaders nwriters) :
    left iterations { m with state := s } t + phaseCost (m.state.phase t) =
      left iterations m t + phaseCost (s.phase t) := by
  rcases t with k | k
  · simp only [left]
    omega
  · simp only [left]
    omega

theorem left_lock_lt {s : State (Thread nreaders nwriters)} {t : Thread nreaders nwriters}
    (h : phaseCost (s.phase t) < phaseCost (m.state.phase t)) :
    left iterations { m with state := s } t < left iterations m t := by
  have hleft : _ = left iterations m t + _ := left_lock m s t
  omega

theorem left_lock_eq {s : State (Thread nreaders nwriters)} {t : Thread nreaders nwriters}
    (h : phaseCost (s.phase t) = phaseCost (m.state.phase t)) :
    left iterations { m with state := s } t = left iterations m t := by
  have hleft : _ = left iterations m t + _ := left_lock m s t
  omega

theorem left_unlock {t : Thread nreaders nwriters} {s : State (Thread nreaders nwriters)}
    {increment : Fin nwriters → Increment} (h : Sound iterations m)
    (hs : Step m.state (.unlock t) s)
    (hself : ∀ k, t = .inr k → increment k = .before ∧ m.increment k = .stored) :
    left iterations
        { m with state := s, round := Function.update m.round t (m.round t + 1), increment } t <
      left iterations m t := by
  have hgrant := (hs.refines h.agrees).1
  have hlt := h.round_lt t hgrant.unlock_holds.ne_idle
  have hafter : phaseCost (s.phase t) = 3 := congrArg phaseCost hgrant.unlock_idle
  have hbefore := phaseCost_holds hgrant.unlock_holds
  rcases t with k | k
  · simp only [left, Function.update_self, hafter, hbefore]
    omega
  · obtain ⟨hk, hk'⟩ := hself k rfl
    simp only [left, Function.update_self, hafter, hbefore, hk, hk', incrementCost]
    omega

theorem left_unlock_other {t j : Thread nreaders nwriters} {s : State (Thread nreaders nwriters)}
    {increment : Fin nwriters → Increment} (h : Sound iterations m)
    (hs : Step m.state (.unlock t) s) (hj : j ≠ t)
    (hsame : ∀ k, t ≠ .inr k → increment k = m.increment k) :
    left iterations
        { m with state := s, round := Function.update m.round t (m.round t + 1), increment } j =
      left iterations m j := by
  have hphase := phaseCost_congr ((hs.refines h.agrees).1.other hj)
  rcases j with k | k
  · simp only [left, Function.update_of_ne hj, hphase]
  · simp only [left, Function.update_of_ne hj, hphase, hsame k (Ne.symm hj)]

/-- Where only a writer has gone on with its increment. -/
theorem rank_increment {k : Fin nwriters} {v : UInt64} {next : Increment}
    (h : incrementCost next < incrementCost (m.increment k)) :
    rank iterations { m with i := v, increment := Function.update m.increment k next } <
      rank iterations m := by
  refine rank_lt (t := .inr k) ?_ fun j hj => ?_
  · simp only [left, Function.update_self]
    omega
  · rcases j with j | j
    · rfl
    · have hne : j ≠ k := fun heq => hj (heq ▸ rfl)
      simp only [left, Function.update_of_ne hne]

theorem rank_wake {t : Thread nreaders nwriters} {s : State (Thread nreaders nwriters)}
    (h : Sound iterations m) (hs : Step m.state (.wake t true) s) :
    rank iterations { m with state := s } < rank iterations m := by
  have hgrant := (hs.refines h.agrees).1
  obtain ⟨hwait, hnext⟩ := hgrant.wake_cases
  have hcost : phaseCost (m.state.phase t) = 2 := by
    rcases hwait with hwait | hwait <;> rw [hwait] <;> rfl
  rcases hnext with hholds | hagain
  · refine rank_lt (t := t) (left_lock_lt ?_) fun j hj => left_lock_eq ?_
    · rw [hcost, phaseCost_holds hholds]
      exact Nat.one_lt_two
    · exact phaseCost_congr (hgrant.other hj)
  · -- nobody has got further, but one notification less is under way
    have hleft : ∀ j, left iterations { m with state := s } j = left iterations m j := by
      intro j
      refine left_lock_eq ?_
      rw [hagain, Function.update_apply]
      split_ifs with hj
      · rw [hj, phaseCost_forget]
      · rfl
    have hnotified := tally_update isNotified m.state.phase t (m.state.phase t).forget
    have hself : isNotified (m.state.phase t) = true ∧
        isNotified (m.state.phase t).forget = false := by
      rcases hwait with hwait | hwait <;> rw [hwait] <;> exact ⟨rfl, rfl⟩
    rw [← hagain, hself.1, hself.2, Bool.toNat_true, Bool.toNat_false] at hnotified
    simp only [rank, hleft]
    omega

/-- Every step but a spurious wakeup brings the end nearer. -/
theorem Advance.rank_lt {a : Label nreaders nwriters} (h : Sound iterations m)
    (hs : Advance iterations m a u) (ha : ¬ a.Spurious) :
    rank iterations u < rank iterations m := by
  cases hs with
  | @call t s hidle _ hs =>
    have hgrant := (hs.refines h.agrees).1
    refine Program.rank_lt (t := t) (left_lock_lt ?_) fun j hj => left_lock_eq ?_
    · rw [hidle]
      exact phaseCost_lt (hgrant.call_ne_idle (by rcases t with k | k <;> exact id))
    · exact phaseCost_congr (hgrant.other hj)
  | @wake t n s hs =>
    obtain rfl : n = true := by simpa [Label.Spurious] using ha
    exact rank_wake h hs
  | readUnlock hs =>
    exact Program.rank_lt (left_unlock h hs fun _ heq => by simp at heq)
      fun j hj => left_unlock_other h hs hj fun _ _ => rfl
  | load _ hbefore => exact rank_increment (by simp [hbefore, incrementCost])
  | store hv => exact rank_increment (by simp [hv, incrementCost])
  | @writeUnlock k s hstored hs =>
    refine Program.rank_lt (left_unlock h hs fun j heq => ?_)
      fun j hj => left_unlock_other h hs hj fun i hi => Function.update_of_ne ?_ _ _
    · cases heq
      exact ⟨Function.update_self .., hstored⟩
    · rintro rfl
      exact hi rfl

theorem Sound.ends (h : Sound iterations m) (hok : NoFailure m.state) : Ends iterations m where
  goesOn := h.goesOn hok
  bound := by
    refine ⟨rank iterations m, fun acts u hr hacts => ?_⟩
    have hle := (hr.length_le_rank (I := Sound iterations) (rank iterations)
      (fun _ _ _ hm ha hs => ⟨hs.sound hm, hs.rank_lt hm ha⟩) hacts h).2
    omega

end Program

/-- However the threads are scheduled, the lock counts its holders and the waiting threads, admits
one writer or any number of readers, and fails no assert. In the program every increment of `ds.i`
counts, and it comes to its end. -/
theorem exclusion :
    (∀ (ι : Type) [Fintype ι] [DecidableEq ι], Fintype.card ι < 2 ^ 31 →
      ∀ (acts : List (Act ι)) (s : State ι), Runs Step .init acts s →
        Consistent s ∧ NoFailure s) ∧
      ∀ nreaders nwriters iterations : ℕ, nreaders + nwriters < 2 ^ 31 → iterations < 2 ^ 31 →
        ∀ (acts : List (Label nreaders nwriters)) (m : Program nreaders nwriters),
          Runs (Program.Advance iterations) .init acts m →
            Consistent m.state ∧ NoFailure m.state ∧ m.Ends iterations ∧
              (m.Finished iterations → m.i.toNat = iterations * nwriters) := by
  refine ⟨fun ι _ _ hcard acts s hr => ?_,
    fun nreaders nwriters iterations hcard hiter acts m hr => ?_⟩
  · have hs := Agrees.runs hr
    exact ⟨hs.consistent, hs.noFailure hcard⟩
  · have hm := Program.Sound.runs hr
    have hok : NoFailure m.state := by
      refine hm.agrees.noFailure ?_
      rwa [Fintype.card_sum, Fintype.card_fin, Fintype.card_fin]
    refine ⟨hm.agrees.consistent, hok, hm.ends hok, fun hfin => ?_⟩
    have hlt : iterations * nwriters < 2 ^ 31 * 2 ^ 31 :=
      Nat.mul_lt_mul'' hiter (by omega)
    rw [hm.finished hfin]
    exact UInt64.toNat_ofNat_of_lt' (hlt.trans (by decide))

/-- A writer that does its one round. -/
theorem round_runs : ∃ m : Program 0 1,
    Runs (Program.Advance 1) .init
      [.lock (.call (.inr 0) .writeLock), .load 0, .store 0, .lock (.unlock (.inr 0))] m ∧
      m.Finished 1 := by
  have hrun : Runs (Program.Advance 1) (Program.init : Program 0 1)
      (((([] ++ [.lock (.call (.inr 0) .writeLock)]) ++ [.load 0]) ++ [.store 0]) ++
        [.lock (.unlock (.inr 0))]) _ :=
    .snoc (.snoc (.snoc (.snoc (.nil _) (.call rfl Nat.one_pos (.call rfl rfl))) (.load rfl rfl))
      (.store rfl)) (.writeUnlock rfl (.unlock (.inr rfl) rfl .none))
  refine ⟨_, hrun, fun t => ?_⟩
  rcases t with k | k
  · exact k.elim0
  · have hk : k = 0 := Subsingleton.elim k 0
    subst hk
    exact ⟨rfl, lt_irrefl 1⟩

/-- Two readers that hold the lock, and the program with one writer. -/
theorem exclusion_round :
    (∃ s : State (Fin 2),
      Runs Step .init [.call 0 .readLock, .call 1 .tryReadLock] s ∧ Consistent s ∧ NoFailure s) ∧
    ∃ m : Program 0 1,
      Runs (Program.Advance 1) .init
        [.lock (.call (.inr 0) .writeLock), .load 0, .store 0, .lock (.unlock (.inr 0))] m ∧
      m.Finished 1 ∧ m.i.toNat = 1 * 1 := by
  have hlock : Runs Step (State.init : State (Fin 2))
      (([] ++ [.call 0 .readLock]) ++ [.call 1 .tryReadLock]) _ :=
    .snoc (.snoc (.nil _) (.call rfl rfl)) (.call rfl rfl)
  obtain ⟨m, hrun, hfin⟩ := round_runs
  exact ⟨⟨_, hlock, exclusion.1 (Fin 2) (by decide) _ _ hlock⟩,
    m, hrun, hfin, (exclusion.2 0 1 1 (by decide) (by decide) _ _ hrun).2.2.2 hfin⟩

end CPPCodes.Threads
