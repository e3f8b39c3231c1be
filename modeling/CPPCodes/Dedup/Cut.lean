import CPPCodes.Dedup.Chunking
import Mathlib.Data.List.Basic
import Mathlib.Order.Nat
import Mathlib.Tactic.Common

/-!
# Where a buffer is cut

The rule of TTTD on the hash values that follow the start of a chunk (`Cut`), and that `Chunkify`
follows it (`chunkify_spec`). It reports a chunk as ready, or ends at the end of the buffer, unless
it cuts at the largest size for want of a break and the buffer goes on (`Breaks`).
-/

namespace CPPCodes.Dedup

namespace ChunkSize

structure Valid (size : ChunkSize) : Prop where
  one_le : 1 ≤ size.min.toNat
  min_le : size.min.toNat ≤ size.max.toNat
  main_ne : size.mainDivisor ≠ 0
  backup_ne : size.backupDivisor ≠ 0

theorem dedupAlgo_valid {σ : Type} (hasher : σ) : (dedupAlgo hasher).chunkSize.Valid := by
  have hsize : (dedupAlgo hasher).chunkSize = (dedupAlgo ()).chunkSize := rfl
  rw [hsize]
  exact ⟨by decide, by decide, by decide, by decide⟩

variable (size : ChunkSize) (hs : List UInt64)

/-- A chunk may end behind the byte `it`, and the divisor divides the hash value there. -/
def BreakAt (divisor : UInt64) (it : ℕ) : Prop :=
  size.min.toNat ≤ it + 1 ∧ it + 1 ≤ size.max.toNat ∧
    ∃ hash, hs[it]? = some hash ∧ hash % divisor = 0

/-- The rule: where the chunk ends, and how many bytes are hashed to find out. -/
inductive Cut : (stop fed : ℕ) → Prop
  | main {it : ℕ} : size.BreakAt hs size.mainDivisor it →
      (∀ j < it, ¬ size.BreakAt hs size.mainDivisor j) → Cut (it + 1) (it + 1)
  | backup {it : ℕ} : (∀ j, ¬ size.BreakAt hs size.mainDivisor j) → size.max.toNat ≤ hs.length →
      size.BreakAt hs size.backupDivisor it →
      (∀ j, it < j → ¬ size.BreakAt hs size.backupDivisor j) → Cut (it + 1) size.max.toNat
  | max : (∀ j, ¬ size.BreakAt hs size.mainDivisor j) → size.max.toNat ≤ hs.length →
      (∀ j, ¬ size.BreakAt hs size.backupDivisor j) → Cut size.max.toNat size.max.toNat
  | stop : (∀ j, ¬ size.BreakAt hs size.mainDivisor j) → hs.length < size.max.toNat →
      Cut hs.length hs.length

/-- There is a break, or the buffer ends before one is needed. -/
def Breaks : Prop :=
  hs.length ≤ size.max.toNat ∨
    ∃ it, size.BreakAt hs size.mainDivisor it ∨ size.BreakAt hs size.backupDivisor it

variable {size hs}

theorem BreakAt.lt_length {divisor : UInt64} {it : ℕ} (h : size.BreakAt hs divisor it) :
    it < hs.length := by
  obtain ⟨-, -, hash, hget, -⟩ := h
  exact (List.getElem?_eq_some_iff.1 hget).1

theorem Cut.stop_le {stop fed : ℕ} (h : size.Cut hs stop fed) : stop ≤ hs.length := by
  cases h with
  | main hmain _ => exact hmain.lt_length
  | backup _ _ hbackup _ => exact hbackup.lt_length
  | max _ hmax _ => exact hmax
  | stop => exact le_rfl

theorem Cut.stop_pos {stop fed : ℕ} (hv : size.Valid) (hne : 0 < hs.length)
    (h : size.Cut hs stop fed) : 0 < stop := by
  have hone := hv.one_le
  have hmin := hv.min_le
  cases h with
  | main | backup => omega
  | max => omega
  | stop => exact hne

/-- The rule leaves no choice. -/
theorem Cut.unique {stop fed stop' fed' : ℕ} (h : size.Cut hs stop fed)
    (h' : size.Cut hs stop' fed') : stop = stop' ∧ fed = fed' := by
  cases h with
  | @main it hmain hfirst =>
    cases h' with
    | @main it' hmain' hfirst' =>
      rcases Nat.lt_trichotomy it it' with hlt | rfl | hlt
      · exact absurd hmain (hfirst' it hlt)
      · exact ⟨rfl, rfl⟩
      · exact absurd hmain' (hfirst it' hlt)
    | backup hno | max hno | stop hno => exact absurd hmain (hno it)
  | @backup it hno hmax hbackup hlast =>
    cases h' with
    | main hmain => exact absurd hmain (hno _)
    | @backup it' _ _ hbackup' hlast' =>
      rcases Nat.lt_trichotomy it it' with hlt | rfl | hlt
      · exact absurd hbackup' (hlast it' hlt)
      · exact ⟨rfl, rfl⟩
      · exact absurd hbackup (hlast' it hlt)
    | max _ _ hno' => exact absurd hbackup (hno' it)
    | stop _ hlt => omega
  | max hno hmax hno' =>
    cases h' with
    | main hmain => exact absurd hmain (hno _)
    | backup _ _ hbackup => exact absurd hbackup (hno' _)
    | max => exact ⟨rfl, rfl⟩
    | stop _ hlt => omega
  | stop hno hlt =>
    cases h' with
    | main hmain => exact absurd hmain (hno _)
    | backup _ hmax | max _ hmax => omega
    | stop => exact ⟨rfl, rfl⟩

/-! ## The loop -/

theorem breakAt_iff {divisor hash : UInt64} {it : ℕ} (hget : hs[it]? = some hash) :
    size.BreakAt hs divisor it ↔
      size.min.toNat ≤ it + 1 ∧ it + 1 ≤ size.max.toNat ∧ hash % divisor = 0 := by
  simp [BreakAt, hget]

/-- `backupIt` is the last break before `it` for the backup divisor, or the end if there is none. -/
def LastBackup (size : ChunkSize) (hs : List UInt64) (it backupIt : ℕ) : Prop :=
  (backupIt = hs.length ∧ ∀ j < it, ¬ size.BreakAt hs size.backupDivisor j) ∨
    (size.BreakAt hs size.backupDivisor backupIt ∧
      ∀ j, backupIt < j → j < it → ¬ size.BreakAt hs size.backupDivisor j)

/-- What the loop has found out in front of the byte `it`. -/
structure Scanned (size : ChunkSize) (hs : List UInt64) (it backupIt : ℕ) : Prop where
  below : it < size.max.toNat
  main : ∀ j < it, ¬ size.BreakAt hs size.mainDivisor j
  backup : LastBackup size hs it backupIt

theorem Scanned.start (hv : size.Valid) : Scanned size hs 0 hs.length where
  below := Nat.lt_of_lt_of_le (Nat.lt_of_lt_of_le Nat.one_pos hv.one_le) hv.min_le
  main := fun j hj => absurd hj (Nat.not_lt_zero j)
  backup := .inl ⟨rfl, fun j hj => absurd hj (Nat.not_lt_zero j)⟩

theorem LastBackup.succ {hash : UInt64} {it backupIt : ℕ} (h : LastBackup size hs it backupIt)
    (hget : hs[it]? = some hash) (hmin : size.min.toNat ≤ it + 1) (hmax : it + 1 ≤ size.max.toNat) :
    LastBackup size hs (it + 1) (if hash % size.backupDivisor = 0 then it else backupIt) := by
  split_ifs with hzero
  · exact .inr ⟨(breakAt_iff hget).2 ⟨hmin, hmax, hzero⟩, fun j hj hj' => by omega⟩
  · have hit : ¬ size.BreakAt hs size.backupDivisor it :=
      fun hbreak => hzero ((breakAt_iff hget).1 hbreak).2.2
    rcases h with ⟨rfl, hnone⟩ | ⟨hbackup, hlast⟩
    · refine .inl ⟨rfl, fun j hj => ?_⟩
      rcases Nat.lt_succ_iff_lt_or_eq.1 hj with hj | rfl
      · exact hnone j hj
      · exact hit
    · refine .inr ⟨hbackup, fun j hj hj' => ?_⟩
      rcases Nat.lt_succ_iff_lt_or_eq.1 hj' with hj' | rfl
      · exact hlast j hj hj'
      · exact hit

theorem LastBackup.short {it backupIt : ℕ} (h : LastBackup size hs it backupIt)
    (hmin : it + 1 < size.min.toNat) : LastBackup size hs (it + 1) backupIt := by
  have hit : ∀ j < it + 1, ¬ size.BreakAt hs size.backupDivisor j := by
    rintro j hj ⟨hle, -⟩
    omega
  rcases h with ⟨rfl, -⟩ | ⟨hbackup, -⟩
  · exact .inl ⟨rfl, hit⟩
  · exact .inr ⟨hbackup, fun j _ hj => hit j hj⟩

theorem Scanned.main_succ {hash : UInt64} {it backupIt : ℕ} (h : Scanned size hs it backupIt)
    (hget : hs[it]? = some hash) (hne : ¬ hash % size.mainDivisor = 0) :
    ∀ j < it + 1, ¬ size.BreakAt hs size.mainDivisor j := by
  intro j hj
  rcases Nat.lt_succ_iff_lt_or_eq.1 hj with hj | rfl
  · exact h.main j hj
  · exact fun hbreak => hne ((breakAt_iff hget).1 hbreak).2.2

/-- Behind the largest size nothing is a break. -/
theorem BreakAt.lt_max {divisor : UInt64} {it : ℕ} (h : size.BreakAt hs divisor it) :
    it < size.max.toNat := h.2.1

/-- How the loop ends: by the rule, and with `ready` or at the end unless there is no break. -/
def Exit (size : ChunkSize) (hs : List UInt64) (stop : ℕ) (ready : Bool) (fed : ℕ) : Prop :=
  size.Cut hs stop fed ∧ ((ready = true ∨ stop = hs.length) ↔ size.Breaks hs)

theorem Exit.main {hash : UInt64} {it backupIt : ℕ} (h : Scanned size hs it backupIt)
    (hget : hs[it]? = some hash) (hmin : size.min.toNat ≤ it + 1)
    (hzero : hash % size.mainDivisor = 0) : Exit size hs (it + 1) true (it + 1) := by
  have hbreak : size.BreakAt hs size.mainDivisor it :=
    (breakAt_iff hget).2 ⟨hmin, h.below, hzero⟩
  exact ⟨.main hbreak h.main, iff_of_true (.inl rfl) (.inr ⟨it, .inl hbreak⟩)⟩

theorem Exit.backup {backupIt : ℕ}
    (hmain : ∀ j < size.max.toNat, ¬ size.BreakAt hs size.mainDivisor j)
    (hlen : size.max.toNat ≤ hs.length) (h : LastBackup size hs size.max.toNat backupIt)
    (hne : backupIt ≠ hs.length) : Exit size hs (backupIt + 1) true size.max.toNat := by
  obtain ⟨hbackup, hlast⟩ := h.resolve_left fun hnone => hne hnone.1
  refine ⟨.backup (fun j hj => hmain j hj.lt_max hj) hlen hbackup
    (fun j hj hj' => hlast j hj hj'.lt_max hj'), iff_of_true (.inl rfl) (.inr ⟨_, .inr hbackup⟩)⟩

theorem Exit.max (hmain : ∀ j < size.max.toNat, ¬ size.BreakAt hs size.mainDivisor j)
    (hlen : size.max.toNat ≤ hs.length) (h : LastBackup size hs size.max.toNat hs.length) :
    Exit size hs size.max.toNat false size.max.toNat := by
  have hbackup : ∀ j, ¬ size.BreakAt hs size.backupDivisor j := by
    rcases h with ⟨-, hnone⟩ | ⟨hbackup, -⟩
    · exact fun j hj => hnone j hj.lt_max hj
    · exact absurd hbackup.lt_length (Nat.lt_irrefl _)
  have hno : ∀ j, ¬ size.BreakAt hs size.mainDivisor j := fun j hj => hmain j hj.lt_max hj
  refine ⟨.max hno hlen hbackup, ⟨fun hend => ?_, fun hbreaks => ?_⟩⟩
  · exact .inl (hend.resolve_left (by simp)).ge
  · rcases hbreaks with hle | ⟨j, hj | hj⟩
    · exact .inr (Nat.le_antisymm hlen hle)
    · exact absurd hj (hno j)
    · exact absurd hj (hbackup j)

theorem Exit.stop {backupIt : ℕ} (h : Scanned size hs hs.length backupIt) :
    Exit size hs hs.length false hs.length :=
  ⟨.stop (fun j hj => h.main j hj.lt_length hj) h.below, iff_of_true (.inr rfl) (.inl h.below.le)⟩

end ChunkSize

namespace Hasher

variable {σ C : Type} (H : Hasher σ C)

/-- The hasher after the bytes. -/
def feed (s : σ) (bytes : List C) : σ := bytes.foldl (fun s c => (H.update s c).2) s

/-- The hash values after each of the bytes. -/
def hashes : σ → List C → List UInt64
  | _, [] => []
  | s, c :: bytes => (H.update s c).1 :: hashes (H.update s c).2 bytes

@[simp] theorem length_hashes (s : σ) (bytes : List C) :
    (H.hashes s bytes).length = bytes.length := by
  induction bytes generalizing s with
  | nil => rfl
  | cons c bytes ih => simp [hashes, ih]

theorem hashes_append (s : σ) (pre rest : List C) :
    H.hashes s (pre ++ rest) = H.hashes s pre ++ H.hashes (H.feed s pre) rest := by
  induction pre generalizing s with
  | nil => rfl
  | cons c pre ih => simp only [List.cons_append, hashes, ih, feed, List.foldl_cons]

theorem feed_concat (s : σ) (pre : List C) (c : C) :
    H.feed s (pre ++ [c]) = (H.update (H.feed s pre) c).2 := by
  simp [feed]

/-- The hash value that the loop gets for the byte behind `pre`. -/
theorem getElem?_hashes (s : σ) (pre : List C) (c : C) (bytes : List C) :
    (H.hashes s (pre ++ c :: bytes))[pre.length]? = some (H.update (H.feed s pre) c).1 := by
  rw [hashes_append, List.getElem?_append_right (by simp)]
  simp [hashes]

end Hasher

namespace TTTD

open ChunkSize

variable {σ C : Type} (H : Hasher σ C) {size : ChunkSize}

theorem chunkLoop_spec (hv : size.Valid) (s : σ) (all : List C) :
    ∀ (pre bytes : List C) (backupIt : ℕ), all = pre ++ bytes →
      Scanned size (H.hashes s all) pre.length backupIt →
      ∃ stop ready fed, chunkLoop H size all.length bytes (H.feed s pre) pre.length pre.length
          backupIt = some ((stop, ready), H.feed s (all.take fed)) ∧
        Exit size (H.hashes s all) stop ready fed
  | pre, [], backupIt, hall, hscan => by
    have hlen : pre.length = (H.hashes s all).length := by simp [hall]
    rw [hlen] at hscan
    refine ⟨all.length, false, all.length, ?_, by simpa using Exit.stop hscan⟩
    simp [chunkLoop, hall]
  | pre, c :: bytes, backupIt, hall, hscan => by
    have hget : (H.hashes s all)[pre.length]? = some (H.update (H.feed s pre) c).1 := by
      rw [hall, H.getElem?_hashes]
    have hall' : all = pre ++ [c] ++ bytes := by rw [hall, List.append_assoc]; rfl
    have hfeed : H.feed s (all.take (pre.length + 1)) = (H.update (H.feed s pre) c).2 := by
      rw [hall', ← H.feed_concat, List.take_left' (by simp)]
    have hlt : pre.length < (H.hashes s all).length := (List.getElem?_eq_some_iff.1 hget).1
    have hbelow := hscan.below
    -- the passes of the loop that go on
    have hnext : ∀ backupIt', Scanned size (H.hashes s all) (pre.length + 1) backupIt' →
        ∃ stop ready fed, chunkLoop H size all.length bytes (H.update (H.feed s pre) c).2
            (pre.length + 1) (pre.length + 1) backupIt' =
              some ((stop, ready), H.feed s (all.take fed)) ∧
          Exit size (H.hashes s all) stop ready fed := by
      intro backupIt' hscan'
      have hloop := chunkLoop_spec hv s all (pre ++ [c]) bytes backupIt' hall' (by simpa using hscan')
      simpa [H.feed_concat] using hloop
    unfold chunkLoop
    simp only [hv.main_ne, hv.backup_ne, if_false]
    by_cases hmin : pre.length + 1 < size.min.toNat
    · rw [if_pos hmin]
      have hmin' := hv.min_le
      refine hnext backupIt ⟨by omega, ?_, hscan.backup.short hmin⟩
      rintro j hj ⟨hle, -⟩
      omega
    rw [if_neg hmin]
    have hbackup := hscan.backup.succ hget (Nat.not_lt.1 hmin) hbelow
    generalize (if (H.update (H.feed s pre) c).1 % size.backupDivisor = 0 then pre.length
      else backupIt) = backupIt' at hbackup ⊢
    split_ifs with hzero hmax hend
    · exact ⟨_, _, _, by rw [hfeed], Exit.main hscan hget (Nat.not_lt.1 hmin) hzero⟩
    · exact hnext backupIt' ⟨hmax, hscan.main_succ hget hzero, hbackup⟩
    · have heq : pre.length + 1 = size.max.toNat := by omega
      have hmain := hscan.main_succ hget hzero
      rw [heq] at hmain hbackup hfeed
      refine ⟨_, _, _, by rw [hfeed], Exit.backup hmain (heq ▸ hlt) hbackup ?_⟩
      simpa using hend
    · have heq : pre.length + 1 = size.max.toNat := by omega
      have hmain := hscan.main_succ hget hzero
      obtain rfl : backupIt' = (H.hashes s all).length := by simpa using hend
      rw [heq] at hmain hbackup hfeed ⊢
      exact ⟨_, _, _, by rw [hfeed], Exit.max hmain (heq ▸ hlt) hbackup⟩

/-- `Chunkify` cuts by the rule. -/
theorem chunkify_spec (algo : TTTD σ) (hv : algo.chunkSize.Valid) (bytes : List C) :
    ∃ stop ready fed, chunkify H algo bytes = some ((stop, ready),
        { algo with hasher := H.feed (H.reset algo.hasher) (bytes.take fed) }) ∧
      Exit algo.chunkSize (H.hashes (H.reset algo.hasher) bytes) stop ready fed := by
  have hstart : Scanned algo.chunkSize (H.hashes (H.reset algo.hasher) bytes) 0
    (H.hashes (H.reset algo.hasher) bytes).length := Scanned.start hv
  rw [Hasher.length_hashes] at hstart
  obtain ⟨stop, ready, fed, hloop, hexit⟩ := chunkLoop_spec H hv (H.reset algo.hasher) bytes [] bytes
    bytes.length rfl hstart
  refine ⟨stop, ready, fed, ?_, hexit⟩
  have hloop' : chunkLoop H algo.chunkSize bytes.length bytes (H.reset algo.hasher) 0 0
    bytes.length = _ := hloop
  unfold chunkify
  rw [hloop']
  rfl

end TTTD

end CPPCodes.Dedup
