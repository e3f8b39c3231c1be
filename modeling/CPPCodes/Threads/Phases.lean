import CPPCodes.Threads.RWLock
import Mathlib.Logic.Function.Basic
import Mathlib.Tactic.Common

/-!
# What the threads do

Where each thread is with respect to the lock, and the steps that the lock is meant to let it take
(`Grant`): no lock is consulted here, only the other threads. What these steps preserve holds of the
lock itself once it is shown to take no others.
-/

namespace CPPCodes.Threads

/-- A thread outside of the lock, a holder, or a thread in one of the two waits, which may have been
notified and not run since. -/
inductive Phase
  | idle
  | reading
  | writing
  | waitRead (notified : Bool)
  | waitWrite (notified : Bool)
  deriving DecidableEq

namespace Phase

def Holds (ph : Phase) : Prop := ph = .reading ∨ ph = .writing

theorem Holds.ne_idle {ph : Phase} (h : ph.Holds) : ph ≠ .idle := by
  rcases h with rfl | rfl <;> simp

/-- What `notify_all` does to a thread. -/
def notifyReader : Phase → Phase
  | .waitRead _ => .waitRead true
  | ph => ph

/-- The phase without whether the thread has been notified. -/
def forget : Phase → Phase
  | .waitRead _ => .waitRead false
  | .waitWrite _ => .waitWrite false
  | ph => ph

end Phase

inductive Act (ι : Type)
  | call (i : ι) (op : Op)
  | wake (i : ι) (notified : Bool)
  | unlock (i : ι)

variable {ι : Type}

def Act.thread : Act ι → ι
  | .call i _ | .wake i _ | .unlock i => i

def Writing (p : ι → Phase) : Prop := ∃ i, p i = .writing

def Reading (p : ι → Phase) : Prop := ∃ i, p i = .reading

def Free (p : ι → Phase) : Prop := ¬ Writing p ∧ ¬ Reading p

def PendingWriter (p : ι → Phase) : Prop := ∃ i n, p i = .waitWrite n

def PendingReader (p : ι → Phase) : Prop := ∃ i n, p i = .waitRead n

theorem not_free {p : ι → Phase} {i : ι} (h : (p i).Holds) : ¬ Free p := by
  rintro ⟨hw, hr⟩
  rcases h with h | h
  · exact hr ⟨i, h⟩
  · exact hw ⟨i, h⟩

/-- The threads that hold the lock are the same ones. -/
def SameHolders (p q : ι → Phase) : Prop :=
  ∀ i ph, ph.Holds → (q i = ph ↔ p i = ph)

namespace SameHolders

variable {p q : ι → Phase}

theorem refl (p : ι → Phase) : SameHolders p p := fun _ _ _ => Iff.rfl

theorem writing (h : SameHolders p q) : Writing q ↔ Writing p :=
  exists_congr fun i => h i .writing (.inr rfl)

theorem reading (h : SameHolders p q) : Reading q ↔ Reading p :=
  exists_congr fun i => h i .reading (.inl rfl)

theorem free (h : SameHolders p q) : Free q ↔ Free p :=
  and_congr (not_congr h.writing) (not_congr h.reading)

end SameHolders

/-- There is one writer at most, and with it no reader. -/
structure Exclusive (p : ι → Phase) : Prop where
  writer : ∀ i j, p i = .writing → p j = .writing → i = j
  reader : Writing p → ¬ Reading p

theorem Exclusive.congr {p q : ι → Phase} (h : Exclusive p) (hpq : SameHolders p q) :
    Exclusive q where
  writer i j hi hj := h.writer i j ((hpq i _ (.inr rfl)).1 hi) ((hpq j _ (.inr rfl)).1 hj)
  reader hw hr := h.reader (hpq.writing.1 hw) (hpq.reading.1 hr)

variable [DecidableEq ι]

/-- What a notification does to the threads. `notify_one` picks any thread that is blocked. -/
inductive Notified : Notify → (ι → Phase) → (ι → Phase) → Prop
  | none {p : ι → Phase} : Notified .none p p
  | writer {p : ι → Phase} {i : ι} : p i = .waitWrite false →
      Notified .writer p (Function.update p i (.waitWrite true))
  | nobody {p : ι → Phase} : (∀ i, p i ≠ .waitWrite false) → Notified .writer p p
  | readers {p : ι → Phase} : Notified .readers p fun i => (p i).notifyReader

/-- Whom the thread that has let go of the lock notifies. -/
inductive Released (p q : ι → Phase) : Prop
  | held : ¬ Free p → q = p → Released p q
  | writer : Free p → PendingWriter p → Notified .writer p q → Released p q
  | readers : Free p → ¬ PendingWriter p → Notified .readers p q → Released p q

/-- The steps of the threads. -/
inductive Grant : (ι → Phase) → Act ι → (ι → Phase) → Prop
  | read {p : ι → Phase} {i : ι} {op : Op} : p i = .idle → op.IsRead →
      (Free p ∨ ¬ Writing p ∧ ¬ PendingWriter p) →
      Grant p (.call i op) (Function.update p i .reading)
  | readWait {p : ι → Phase} {i : ι} : p i = .idle → ¬ Free p →
      (Writing p ∨ PendingWriter p) →
      Grant p (.call i .readLock) (Function.update p i (.waitRead false))
  | write {p : ι → Phase} {i : ι} {op : Op} : p i = .idle → ¬ op.IsRead → Free p →
      Grant p (.call i op) (Function.update p i .writing)
  | writeWait {p : ι → Phase} {i : ι} : p i = .idle → ¬ Free p →
      Grant p (.call i .writeLock) (Function.update p i (.waitWrite false))
  | fail {p : ι → Phase} {i : ι} {op : Op} : op.IsTry → ¬ Free p → Grant p (.call i op) p
  | readWoken {p : ι → Phase} {i : ι} {n : Bool} : p i = .waitRead n → ¬ Writing p →
      ¬ PendingWriter p → Grant p (.wake i n) (Function.update p i .reading)
  | readAgain {p : ι → Phase} {i : ι} {n : Bool} : p i = .waitRead n →
      (Writing p ∨ PendingWriter p) → Grant p (.wake i n) (Function.update p i (.waitRead false))
  | writeWoken {p : ι → Phase} {i : ι} {n : Bool} : p i = .waitWrite n → Free p →
      Grant p (.wake i n) (Function.update p i .writing)
  | writeAgain {p : ι → Phase} {i : ι} {n : Bool} : p i = .waitWrite n → ¬ Free p →
      Grant p (.wake i n) (Function.update p i (.waitWrite false))
  | unlock {p q : ι → Phase} {i : ι} : (p i).Holds →
      Released (Function.update p i .idle) q → Grant p (.unlock i) q

theorem exists_notified (n : Notify) (p : ι → Phase) : ∃ q, Notified n p q := by
  cases n with
  | none => exact ⟨p, .none⟩
  | readers => exact ⟨_, .readers⟩
  | writer =>
    by_cases h : ∃ i, p i = .waitWrite false
    · obtain ⟨i, hi⟩ := h
      exact ⟨_, .writer hi⟩
    · exact ⟨p, .nobody (not_exists.1 h)⟩

namespace SameHolders

variable {p q : ι → Phase}

/-- A thread that does not hold the lock and does not get it. -/
theorem update {i : ι} {v : Phase} (hi : ¬ (p i).Holds) (hv : ¬ v.Holds) :
    SameHolders p (Function.update p i v) := by
  intro j ph hph
  by_cases hj : j = i
  · subst hj
    rw [Function.update_self]
    exact iff_of_false (fun heq => hv (heq ▸ hph)) (fun heq => hi (heq ▸ hph))
  · rw [Function.update_of_ne hj]

theorem notified {n : Notify} (h : Notified n p q) : SameHolders p q := by
  cases h with
  | none | nobody => exact .refl p
  | writer hi => exact .update (by simp [hi, Phase.Holds]) (by simp [Phase.Holds])
  | readers =>
    intro i ph hph
    rcases hi : p i with - | - | - | n | n <;> rcases hph with rfl | rfl <;>
      simp [Phase.notifyReader, hi]

theorem released (h : Released p q) : SameHolders p q := by
  cases h with
  | held _ heq => exact heq ▸ .refl p
  | writer _ _ hn | readers _ _ hn => exact .notified hn

end SameHolders

theorem writing_update {p : ι → Phase} {i j : ι} {v : Phase} (hv : v ≠ .writing) :
    Function.update p i v j = .writing → p j = .writing := by
  rw [Function.update_apply]
  split_ifs
  · exact fun h => absurd h hv
  · exact id

theorem writing_of_update {p : ι → Phase} {i : ι} {v : Phase}
    (h : Writing (Function.update p i v)) : v = .writing ∨ Writing p := by
  obtain ⟨j, hj⟩ := h
  rw [Function.update_apply] at hj
  split_ifs at hj
  · exact .inl hj
  · exact .inr ⟨j, hj⟩

theorem Exclusive.read {p : ι → Phase} {i : ι} (hw : ¬ Writing p) :
    Exclusive (Function.update p i .reading) := by
  have hno : ∀ j, Function.update p i .reading j ≠ .writing :=
    fun j hj => hw ⟨j, writing_update (by simp) hj⟩
  exact ⟨fun j _ hj => absurd hj (hno j), fun ⟨j, hj⟩ => absurd hj (hno j)⟩

theorem Exclusive.write {p : ι → Phase} {i : ι} (hfree : Free p) :
    Exclusive (Function.update p i .writing) := by
  have hi : ∀ j, Function.update p i .writing j = .writing → j = i := by
    intro j hj
    by_contra hne
    rw [Function.update_of_ne hne] at hj
    exact hfree.1 ⟨j, hj⟩
  refine ⟨fun j k hj hk => (hi j hj).trans (hi k hk).symm, ?_⟩
  rintro - ⟨j, hj⟩
  by_cases hne : j = i
  · subst hne
    simp at hj
  · rw [Function.update_of_ne hne] at hj
    exact hfree.2 ⟨j, hj⟩

theorem Exclusive.idle {p : ι → Phase} (h : Exclusive p) (i : ι) :
    Exclusive (Function.update p i .idle) where
  writer j k hj hk := h.writer j k (writing_update (by simp) hj) (writing_update (by simp) hk)
  reader := by
    rintro ⟨j, hj⟩ ⟨k, hk⟩
    refine h.reader ⟨j, writing_update (by simp) hj⟩ ⟨k, ?_⟩
    by_cases hne : k = i
    · subst hne
      simp at hk
    · rwa [Function.update_of_ne hne] at hk

theorem Exclusive.grant {p q : ι → Phase} {act : Act ι} (h : Exclusive p) (hg : Grant p act q) :
    Exclusive q := by
  cases hg with
  | read _ _ hfree => exact .read (hfree.elim (·.1) (·.1))
  | readWoken _ hw _ => exact .read hw
  | write _ _ hfree | writeWoken _ hfree => exact .write hfree
  | fail => exact h
  | readWait hi | writeWait hi | readAgain hi | writeAgain hi =>
    exact h.congr (.update (by simp [hi, Phase.Holds]) (by simp [Phase.Holds]))
  | @unlock q i hi hrel => exact (h.idle i).congr (.released hrel)

theorem Notified.forget {n : Notify} {p q : ι → Phase} (h : Notified n p q) (j : ι) :
    (q j).forget = (p j).forget := by
  cases h with
  | none | nobody => rfl
  | @writer _ i hi =>
    rw [Function.update_apply]
    split_ifs with hj
    · rw [hj, hi]
      rfl
    · rfl
  | readers =>
    show (p j).notifyReader.forget = (p j).forget
    cases p j <;> rfl

theorem Released.forget {p q : ι → Phase} (h : Released p q) (j : ι) :
    (q j).forget = (p j).forget := by
  cases h with
  | held _ heq => rw [heq]
  | writer _ _ hn | readers _ _ hn => exact hn.forget j

/-- A step changes another thread at most by a notification. -/
theorem Grant.other {p q : ι → Phase} {act : Act ι} (hg : Grant p act q) {j : ι}
    (hj : j ≠ act.thread) : (q j).forget = (p j).forget := by
  cases hg with
  | fail => rfl
  | unlock _ hrel => exact (hrel.forget j).trans (congrArg _ (Function.update_of_ne hj _ _))
  | _ => exact congrArg _ (Function.update_of_ne hj _ _)

theorem Grant.waitWrite {p q : ι → Phase} {act : Act ι} (hg : Grant p act q) {w : ι} {n : Bool}
    (hw : p w = .waitWrite n) : q w = .writing ∧ Free p ∨ ∃ m, q w = .waitWrite m := by
  by_cases hact : w = act.thread
  · subst hact
    cases hg with
    | read hi | readWait hi | write hi | writeWait hi | readWoken hi | readAgain hi =>
      exact absurd (hi.symm.trans hw) (by simp)
    | fail => exact .inr ⟨n, hw⟩
    | writeWoken _ hfree => exact .inl ⟨Function.update_self .., hfree⟩
    | writeAgain => exact .inr ⟨false, Function.update_self ..⟩
    | unlock hi => rcases hi with hi | hi <;> exact absurd (hi.symm.trans hw) (by simp)
  · have hforget := hg.other hact
    rw [hw] at hforget
    rcases hq : q w with - | - | - | m | m <;> simp [hq, Phase.forget] at hforget ⊢

theorem Grant.waitRead {p q : ι → Phase} {act : Act ι} (hg : Grant p act q) {r : ι} {n : Bool}
    (hr : p r = .waitRead n) : q r = .reading ∧ ¬ PendingWriter p ∨ ∃ m, q r = .waitRead m := by
  by_cases hact : r = act.thread
  · subst hact
    cases hg with
    | read hi | readWait hi | write hi | writeWait hi | writeWoken hi | writeAgain hi =>
      exact absurd (hi.symm.trans hr) (by simp)
    | fail => exact .inr ⟨n, hr⟩
    | readWoken _ _ hpending => exact .inl ⟨Function.update_self .., hpending⟩
    | readAgain => exact .inr ⟨false, Function.update_self ..⟩
    | unlock hi => rcases hi with hi | hi <;> exact absurd (hi.symm.trans hr) (by simp)
  · have hforget := hg.other hact
    rw [hr] at hforget
    rcases hq : q r with - | - | - | m | m <;> simp [hq, Phase.forget] at hforget ⊢

theorem Phase.forget_eq_idle {ph : Phase} : ph.forget = .idle ↔ ph = .idle := by
  cases ph <;> simp [Phase.forget]

theorem Phase.forget_eq_writing {ph : Phase} : ph.forget = .writing ↔ ph = .writing := by
  cases ph <;> simp [Phase.forget]

theorem Grant.unlock_idle {p q : ι → Phase} {i : ι} (hg : Grant p (.unlock i) q) : q i = .idle := by
  cases hg with
  | unlock _ hrel =>
    have hforget := hrel.forget i
    rw [Function.update_self] at hforget
    exact Phase.forget_eq_idle.1 hforget

theorem Grant.unlock_holds {p q : ι → Phase} {i : ι} (hg : Grant p (.unlock i) q) :
    (p i).Holds := by
  cases hg with
  | unlock hi => exact hi

theorem Grant.call_ne_idle {p q : ι → Phase} {i : ι} {op : Op} (hg : Grant p (.call i op) q)
    (hop : ¬ op.IsTry) : q i ≠ .idle := by
  cases hg with
  | read | readWait | write | writeWait => simp
  | fail htry => exact absurd htry hop

/-- A thread that goes on behind a wait gets the lock, or waits again without a notification. -/
theorem Grant.wake_cases {p q : ι → Phase} {i : ι} {n : Bool} (hg : Grant p (.wake i n) q) :
    (p i = .waitRead n ∨ p i = .waitWrite n) ∧
      ((q i).Holds ∨ q = Function.update p i (p i).forget) := by
  cases hg with
  | readWoken hi => exact ⟨.inl hi, .inl (.inl (Function.update_self ..))⟩
  | readAgain hi =>
    refine ⟨.inl hi, .inr ?_⟩
    rw [hi]
    rfl
  | writeWoken hi => exact ⟨.inr hi, .inl (.inr (Function.update_self ..))⟩
  | writeAgain hi =>
    refine ⟨.inr hi, .inr ?_⟩
    rw [hi]
    rfl

/-- A writer keeps the lock until it unlocks. -/
theorem Grant.keeps {p q : ι → Phase} {act : Act ι} (hg : Grant p act q) {j : ι}
    (hj : p j = .writing) (hact : act ≠ .unlock j) : q j = .writing := by
  by_cases hself : j = act.thread
  · subst hself
    cases hg with
    | read hi | readWait hi | write hi | writeWait hi | readWoken hi | readAgain hi =>
      exact absurd (hi.symm.trans hj) (by simp)
    | writeWoken hi | writeAgain hi => exact absurd (hi.symm.trans hj) (by simp)
    | fail => exact hj
    | unlock => exact absurd rfl hact
  · have hforget := hg.other hself
    rw [hj] at hforget
    exact Phase.forget_eq_writing.1 hforget

/-- A thread leaves the outside of the lock by a call only. -/
theorem Grant.enters {p q : ι → Phase} {act : Act ι} (hg : Grant p act q) {j : ι}
    (hj : p j = .idle) (hact : ∀ op, act ≠ .call j op) : q j = .idle := by
  by_cases hself : j = act.thread
  · subst hself
    cases hg with
    | read | readWait | write | writeWait => exact absurd rfl (hact _)
    | fail => exact hj
    | readWoken hi | readAgain hi | writeWoken hi | writeAgain hi =>
      exact absurd (hi.symm.trans hj) (by simp)
    | unlock hi => rcases hi with hi | hi <;> exact absurd (hi.symm.trans hj) (by simp)
  · have hforget := hg.other hself
    rw [hj] at hforget
    exact Phase.forget_eq_idle.1 hforget

/-- The phases of a thread that only reads, or only writes. -/
def Phase.Fits (writes : Bool) : Phase → Prop
  | .idle => True
  | .reading | .waitRead _ => writes = false
  | .writing | .waitWrite _ => writes = true

theorem Phase.fits_forget {writes : Bool} {ph : Phase} :
    ph.forget.Fits writes ↔ ph.Fits writes := by
  cases ph <;> rfl

theorem Phase.fits_update {p : ι → Phase} {i : ι} {v : Phase} {writes : Bool} (h : v.Fits writes) :
    (Function.update p i v i).Fits writes := by
  rw [Function.update_self]
  exact h

/-- A thread that only reads stays one, and so does one that only writes. -/
theorem Grant.fits {p q : ι → Phase} {act : Act ι} (hg : Grant p act q) {writes : ι → Bool}
    (hp : ∀ j, (p j).Fits (writes j))
    (hact : ∀ i op, act = .call i op → (op.IsRead ↔ writes i = false)) (j : ι) :
    (q j).Fits (writes j) := by
  by_cases hself : j = act.thread
  · subst hself
    cases hg with
    | read _ hop => exact Phase.fits_update ((hact _ _ rfl).1 hop)
    | readWait => exact Phase.fits_update ((hact _ _ rfl).1 trivial)
    | write _ hop =>
      exact Phase.fits_update (eq_true_of_ne_false (mt (hact _ _ rfl).2 hop))
    | writeWait => exact Phase.fits_update (eq_true_of_ne_false (mt (hact _ _ rfl).2 id))
    | fail => exact hp _
    | @readWoken i n hi | @readAgain i n hi | @writeWoken i n hi | @writeAgain i n hi =>
      have hfits := hp i
      rw [hi] at hfits
      exact Phase.fits_update hfits
    | @unlock q i hi hrel =>
      show Phase.Fits (writes i) (q i)
      rw [Grant.unlock_idle (.unlock hi hrel)]
      trivial
  · rw [← Phase.fits_forget, hg.other hself, Phase.fits_forget]
    exact hp j

end CPPCodes.Threads
