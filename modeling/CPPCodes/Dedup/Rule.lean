import CPPCodes.Dedup.Cut
import Mathlib.Order.Bounds.Basic

/-!
# The rule in numbers of bytes

Where `Chunkify` of TTTD cuts, said of the lengths `i` that a chunk may have and the hash values
after `i` bytes (`Rule`). A cut in front of the end stays where it is when bytes are appended.
-/

namespace CPPCodes.Dedup

namespace ChunkSize

variable (size : ChunkSize) (hs : List UInt64)

/-- A chunk may have `i` bytes, and the divisor divides the hash value after `i` bytes. -/
def Fits (divisor : UInt64) (i : ℕ) : Prop :=
  size.min.toNat ≤ i ∧ i ≤ size.max.toNat ∧ ∃ hash, hs[i - 1]? = some hash ∧ hash % divisor = 0

/-- The smallest length that fits the main divisor; or else, with enough bytes, the largest that
fits the backup divisor, or the largest there may be; or else all bytes. -/
structure Rule (stop : ℕ) : Prop where
  main : (∃ i, size.Fits hs size.mainDivisor i) →
    IsLeast {i | size.Fits hs size.mainDivisor i} stop
  backup : (∀ i, ¬ size.Fits hs size.mainDivisor i) → size.max.toNat ≤ hs.length →
    (∃ i, size.Fits hs size.backupDivisor i) →
      IsGreatest {i | size.Fits hs size.backupDivisor i} stop
  max : (∀ i, ¬ size.Fits hs size.mainDivisor i) → size.max.toNat ≤ hs.length →
    (∀ i, ¬ size.Fits hs size.backupDivisor i) → stop = size.max.toNat
  stop : (∀ i, ¬ size.Fits hs size.mainDivisor i) → hs.length < size.max.toNat → stop = hs.length

variable {size hs}

theorem fits_succ {divisor : UInt64} {it : ℕ} :
    size.Fits hs divisor (it + 1) ↔ size.BreakAt hs divisor it := Iff.rfl

/-- Every length that fits is the place behind a break. -/
theorem Fits.eq_succ (hv : size.Valid) {divisor : UInt64} {i : ℕ} (h : size.Fits hs divisor i) :
    ∃ it, i = it + 1 ∧ size.BreakAt hs divisor it := by
  have hpos : 1 ≤ i := hv.one_le.trans h.1
  obtain ⟨it, rfl⟩ := Nat.exists_eq_succ_of_ne_zero (Nat.one_le_iff_ne_zero.1 hpos)
  exact ⟨it, rfl, fits_succ.1 h⟩

theorem not_fits_iff (hv : size.Valid) {divisor : UInt64} :
    (∀ i, ¬ size.Fits hs divisor i) ↔ ∀ it, ¬ size.BreakAt hs divisor it := by
  refine ⟨fun hno it hbreak => hno (it + 1) (fits_succ.2 hbreak), fun hno i hfits => ?_⟩
  obtain ⟨it, -, hbreak⟩ := hfits.eq_succ hv
  exact hno it hbreak

theorem isLeast_fits (hv : size.Valid) {divisor : UInt64} {it : ℕ}
    (hbreak : size.BreakAt hs divisor it) (hfirst : ∀ j < it, ¬ size.BreakAt hs divisor j) :
    IsLeast {i | size.Fits hs divisor i} (it + 1) := by
  refine ⟨fits_succ.2 hbreak, fun i hfits => ?_⟩
  obtain ⟨j, rfl, hj⟩ := Fits.eq_succ hv hfits
  by_contra hlt
  exact hfirst j (by omega) hj

theorem isGreatest_fits (hv : size.Valid) {divisor : UInt64} {it : ℕ}
    (hbreak : size.BreakAt hs divisor it) (hlast : ∀ j, it < j → ¬ size.BreakAt hs divisor j) :
    IsGreatest {i | size.Fits hs divisor i} (it + 1) := by
  refine ⟨fits_succ.2 hbreak, fun i hfits => ?_⟩
  obtain ⟨j, rfl, hj⟩ := Fits.eq_succ hv hfits
  by_contra hlt
  exact hlast j (by omega) hj

theorem Cut.rule (hv : size.Valid) {stop fed : ℕ} (h : size.Cut hs stop fed) :
    size.Rule hs stop := by
  cases h with
  | @main it hmain hfirst =>
    have hfits : size.Fits hs size.mainDivisor (it + 1) := fits_succ.2 hmain
    exact ⟨fun _ => isLeast_fits hv hmain hfirst, fun hno => absurd hfits (hno _),
      fun hno => absurd hfits (hno _), fun hno => absurd hfits (hno _)⟩
  | @backup it hno hmax hbackup hlast =>
    have hno' := (not_fits_iff hv).2 hno
    refine ⟨fun hex => absurd hex (not_exists.2 hno'),
      fun _ _ _ => isGreatest_fits hv hbackup hlast,
      fun _ _ hnone => absurd (fits_succ.2 hbackup) (hnone _), fun _ hlt => by omega⟩
  | max hno hmax hnone =>
    have hno' := (not_fits_iff hv).2 hno
    have hnone' := (not_fits_iff hv).2 hnone
    exact ⟨fun hex => absurd hex (not_exists.2 hno'),
      fun _ _ hex => absurd hex (not_exists.2 hnone'), fun _ _ _ => rfl, fun _ hlt => by omega⟩
  | stop hno hlt =>
    exact ⟨fun hex => absurd hex (not_exists.2 ((not_fits_iff hv).2 hno)),
      fun _ hmax => by omega, fun _ hmax => by omega, fun _ _ => rfl⟩

theorem Cut.stop_le_max {stop fed : ℕ} (h : size.Cut hs stop fed) : stop ≤ size.max.toNat := by
  cases h with
  | main hmain _ => exact hmain.lt_max
  | backup _ _ hbackup _ => exact hbackup.lt_max
  | max => exact le_rfl
  | stop _ hlt => exact hlt.le

theorem Cut.min_le_stop (hv : size.Valid) {stop fed : ℕ} (h : size.Cut hs stop fed) :
    size.min.toNat ≤ stop ∨ stop = hs.length := by
  cases h with
  | main hmain _ => exact .inl hmain.1
  | backup _ _ hbackup _ => exact .inl hbackup.1
  | max => exact .inl hv.min_le
  | stop => exact .inr rfl

theorem breakAt_append {divisor : UInt64} {it : ℕ} (hit : it < hs.length) (more : List UInt64) :
    size.BreakAt (hs ++ more) divisor it ↔ size.BreakAt hs divisor it := by
  unfold BreakAt
  rw [List.getElem?_append_left hit]

theorem not_breakAt_append {divisor : UInt64} (hmax : size.max.toNat ≤ hs.length)
    (hno : ∀ j, ¬ size.BreakAt hs divisor j) (more : List UInt64) (j : ℕ) :
    ¬ size.BreakAt (hs ++ more) divisor j :=
  fun hj => hno j ((breakAt_append (hj.lt_max.trans_le hmax) more).1 hj)

theorem Cut.append {stop fed : ℕ} (h : size.Cut hs stop fed) (hlt : stop < hs.length)
    (more : List UInt64) : size.Cut (hs ++ more) stop fed := by
  cases h with
  | @main it hmain hfirst =>
    refine .main ((breakAt_append (by omega) more).2 hmain) fun j hj hbreak => ?_
    exact hfirst j hj ((breakAt_append (by omega) more).1 hbreak)
  | @backup it hno hmax hbackup hlast =>
    refine .backup (not_breakAt_append hmax hno more) ?_
      ((breakAt_append (by omega) more).2 hbackup) fun j hj hbreak => ?_
    · rw [List.length_append]
      omega
    · exact hlast j hj ((breakAt_append (hbreak.lt_max.trans_le hmax) more).1 hbreak)
  | max hno hmax hnone =>
    refine .max (not_breakAt_append hmax hno more) ?_ (not_breakAt_append hmax hnone more)
    rw [List.length_append]
    omega
  | stop => omega

end ChunkSize

namespace TTTD

variable {σ C : Type} (H : Hasher σ C)

/-- `Chunkify` cuts by the rule. What it returns is a chunk of a size between the limits, unless the
end comes first, and more bytes do not move a cut in front of the end. -/
theorem chunkify_rule (algo : TTTD σ) (hv : algo.chunkSize.Valid) (bytes : List C)
    (hne : bytes ≠ []) :
    ∃ stop ready algo', chunkify H algo bytes = some ((stop, ready), algo') ∧
      algo.chunkSize.Rule (H.hashes (H.reset algo.hasher) bytes) stop ∧
      0 < stop ∧ stop ≤ algo.chunkSize.max.toNat ∧
      (algo.chunkSize.min.toNat ≤ stop ∨ stop = bytes.length) ∧
      (stop < bytes.length → ∀ more, ∃ ready' algo'',
        chunkify H algo (bytes ++ more) = some ((stop, ready'), algo'')) := by
  obtain ⟨stop, ready, fed, hchunk, hcut, -⟩ := chunkify_spec H algo hv bytes
  have hlen : (H.hashes (H.reset algo.hasher) bytes).length = bytes.length := H.length_hashes _ _
  refine ⟨stop, ready, _, hchunk, hcut.rule hv,
    hcut.stop_pos hv (by rw [hlen]; exact List.length_pos_of_ne_nil hne), hcut.stop_le_max,
    hlen ▸ hcut.min_le_stop hv, fun hlt more => ?_⟩
  obtain ⟨stop', ready', fed', hchunk', hcut', -⟩ := chunkify_spec H algo hv (bytes ++ more)
  have hmore := hcut.append (hlen.symm ▸ hlt) (H.hashes (H.feed (H.reset algo.hasher) bytes) more)
  rw [← H.hashes_append] at hmore
  obtain ⟨rfl, -⟩ := hmore.unique hcut'
  exact ⟨ready', _, hchunk'⟩

/-- Two bytes, by the backup divisor. -/
theorem chunkify_rule_two :
    ∃ ready algo', chunkify (⟨id, fun s c => (c, s)⟩ : Hasher Unit UInt64) ⟨(), ⟨1, 2, 4, 2⟩⟩
      [1, 2, 3] = some ((2, ready), algo') ∧ 2 ≤ (2 : UInt64).toNat := by
  obtain ⟨stop, ready, algo', hchunk, -, -, hmax, -⟩ :=
    chunkify_rule (⟨id, fun s c => (c, s)⟩ : Hasher Unit UInt64) ⟨(), ⟨1, 2, 4, 2⟩⟩
      ⟨by decide, by decide, by decide, by decide⟩ [1, 2, 3] (by simp)
  have hrun : chunkify (⟨id, fun s c => (c, s)⟩ : Hasher Unit UInt64) ⟨(), ⟨1, 2, 4, 2⟩⟩
    [1, 2, 3] = some ((2, true), ⟨(), ⟨1, 2, 4, 2⟩⟩) := rfl
  obtain rfl : stop = 2 := by
    rw [hrun] at hchunk
    exact (Prod.mk.inj (Prod.mk.inj (Option.some.inj hchunk)).1).1.symm
  exact ⟨ready, algo', hchunk, hmax⟩

end TTTD

end CPPCodes.Dedup
