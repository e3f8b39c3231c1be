import CPPCodes.Coins.DPCoin
import Mathlib.Data.List.Chain

/-!
# The walk through the predecessors

`main` of DPCoin.cpp goes from the value through `predecessors` to 0. From an amount that can be
paid each step pays a coin, and there are as many as the least number (`walk_spec`). What it has for
an amount that cannot be paid is one more than the amount, so for such a value the walk reads behind
the end, and it ends exactly for a value that can be paid (`walksBack_iff`).
-/

namespace CPPCodes.Coins

open Change

/-- The loop of `main`, in at most `fuel` passes: the indexes that it prints. -/
def walk (predecessors : List UInt32) : ℕ → (index : UInt32) → Option (List UInt32)
  | 0, _ => none
  | fuel + 1, index =>
    if index = 0 then some [] else do
      let index ← predecessors[index.toNat]?
      let printed ← walk predecessors fuel index
      return index :: printed

/-- The walk of `main`, which begins with the last of the predecessors. -/
def walkBack (predecessors : List UInt32) (fuel : ℕ) : Option (List UInt32) := do
  let index ← predecessors.getLast?
  let printed ← walk predecessors fuel index
  return index :: printed

/-- The indexes lead from the amount to 0, each one coin less. -/
structure Payment (denoms : List UInt32) (amount : UInt32) (count : ℕ) (indexes : List UInt32) :
    Prop where
  length : indexes.length = count
  step : (amount :: indexes).IsChain fun v w => ∃ d ∈ denoms, v.toNat = w.toNat + d.toNat
  last : (amount :: indexes).getLast? = some 0

/-- The walk comes to an end. If the value can be paid, it is a payment with `coins[value]` coins;
there is no step to make from the value 0. -/
def WalksBack (denoms : List UInt32) (value : UInt32) : Prop :=
  ∃ result, dpCoin denoms value = some result ∧ ∃ fuel printed,
    walkBack result.predecessors fuel = some printed ∧
    (Payable (amounts denoms) value.toNat → ∃ count, result.coins[value.toNat]? = some count ∧
      if value = 0 then count = 0 ∧ printed = [0]
      else Payment denoms value count.toNat printed)

variable {denoms : List UInt32} {value : UInt32} {result : DPCoinResult}

/-- From an amount that can be paid a step pays a coin. -/
theorem Leads.pays {a pred : ℕ} (h : Leads denoms value a pred) (ha : a ≠ 0)
    (hpay : Payable (amounts denoms) a) :
    ∃ d ∈ amounts denoms, a = pred + d ∧ ∃ n ≤ value.toNat, Least denoms value pred n ∧
      Least denoms value a (n + 1) := by
  cases h with
  | zero hzero => exact absurd hzero ha
  | marker hno => exact absurd hpay hno
  | coin hd hle hpred hn hrest hall =>
    subst hpred
    exact ⟨_, hd, by omega, _, hn, hrest, hall⟩

theorem Leads.of_zero {pred : ℕ} (h : Leads denoms value 0 pred) (hpos : 0 ∉ denoms) :
    pred = 0 := by
  cases h with
  | zero _ hpred => exact hpred
  | coin hd hle =>
    obtain rfl := Nat.le_zero.1 hle
    exact absurd hd (zero_notMem_amounts hpos)
  | marker hno => exact absurd ⟨[], pays_nil _⟩ hno

theorem payable_of_least {a n : ℕ} (h : Least denoms value a n) (hn : n ≤ value.toNat) :
    Payable (amounts denoms) a :=
  payable_iff.2 ⟨n, h.1.resolve_left (by omega)⟩

theorem walk_spec (hpos : 0 ∉ denoms) (h : Paid denoms value (value.toNat + 1) result) :
    ∀ (fuel : ℕ) {n : ℕ} {a : UInt32}, a.toNat < fuel → a.toNat < value.toNat + 1 →
      Least denoms value a.toNat n → n ≤ value.toNat →
      ∃ printed, walk result.predecessors fuel a = some printed ∧ Payment denoms a n printed
  | 0, _, _, hfuel, _, _, _ => absurd hfuel (Nat.not_lt_zero _)
  | fuel + 1, n, a, hfuel, ha, hleast, hn => by
    unfold walk
    split_ifs with hzero
    · subst hzero
      obtain rfl : n = 0 := hleast.unique (isLeast_zero _ _)
      exact ⟨[], rfl, rfl, .singleton _, rfl⟩
    · have hne : a.toNat ≠ 0 := fun hnat => hzero (UInt32.toNat_inj.1 hnat)
      obtain ⟨pred, hget, hleads⟩ := h.predecessors a.toNat ha
      obtain ⟨_, ⟨d, hd, rfl⟩, hsum, m, hm, hrest, hall⟩ :=
        hleads.pays hne (payable_of_least hleast hn)
      obtain rfl := hleast.unique hall
      have hd0 : d.toNat ≠ 0 := fun hnat => zero_notMem_amounts hpos ⟨d, hd, hnat⟩
      obtain ⟨printed, hwalk, hpays⟩ :=
        walk_spec hpos h fuel (by omega) (by omega) hrest hm
      rw [hget]
      simp only [Option.bind_eq_bind, Option.bind_some, hwalk]
      refine ⟨_, rfl, by rw [List.length_cons, hpays.length], ?_, ?_⟩
      · exact List.isChain_cons_cons.2 ⟨⟨d, hd, hsum⟩, hpays.step⟩
      · rw [List.getLast?_cons_cons]
        exact hpays.last

/-- For a value other than 0, what the walk begins with is the first step of the loop. -/
theorem walkBack_eq_walk (h : Paid denoms value (value.toNat + 1) result) (hne : value ≠ 0)
    (fuel : ℕ) :
    walkBack result.predecessors fuel = walk result.predecessors (fuel + 1) value := by
  rw [walk, if_neg hne, walkBack, List.getLast?_eq_getElem?, h.predecessors_length,
    Nat.add_sub_cancel]

/-- Behind a value that cannot be paid there is nothing to read. -/
theorem walkBack_none (h : Paid denoms value (value.toNat + 1) result)
    (hvalue : value.toNat < 2 ^ 31 - 1) (hpay : ¬ Payable (amounts denoms) value.toNat) (fuel : ℕ) :
    walkBack result.predecessors fuel = none := by
  have hne : value ≠ 0 := by
    rintro rfl
    exact hpay ⟨[], pays_nil _⟩
  obtain ⟨pred, hget, hleads⟩ := h.predecessors value.toNat (Nat.lt_succ_self _)
  have hpred : pred.toNat = value.toNat + 1 := by
    cases hleads with
    | zero hzero => exact absurd (UInt32.toNat_inj.1 hzero) hne
    | coin hd hle hpred hn hrest hall =>
      obtain ⟨coins, hpays⟩ := payable_of_least hrest hn
      exact absurd ⟨_, hpays.cons hd hle⟩ hpay
    | marker _ hpred => exact hpred
  have hbehind : result.predecessors[pred.toNat]? = none := by
    rw [List.getElem?_eq_none_iff, h.predecessors_length, hpred]
  rw [walkBack_eq_walk h hne, walk, if_neg hne, hget, Option.bind_eq_bind, Option.bind_some]
  rcases fuel with _ | fuel
  · rfl
  · have hne' : pred ≠ 0 := by
      rintro rfl
      exact absurd hpred (by simp)
    rw [walk, if_neg hne', hbehind]
    rfl

theorem WalksBack.payable (hwalks : WalksBack denoms value) (hpos : 0 ∉ denoms)
    (hvalue : value.toNat < 2 ^ 31 - 1) : Payable (amounts denoms) value.toNat := by
  obtain ⟨result, hdp, hpaid⟩ := dpCoin_spec hpos hvalue
  obtain ⟨result', hdp', fuel, printed, hwalk, -⟩ := hwalks
  obtain rfl := Option.some.inj (hdp.symm.trans hdp')
  by_contra hpay
  rw [walkBack_none hpaid hvalue hpay] at hwalk
  cases hwalk

/-- The walk comes to an end as it should exactly for a value that can be paid. -/
theorem walksBack_iff (denoms : List UInt32) (value : UInt32) (hpos : 0 ∉ denoms)
    (hvalue : value.toNat < 2 ^ 31 - 1) :
    WalksBack denoms value ↔ Payable (amounts denoms) value.toNat := by
  obtain ⟨result, hdp, hpaid⟩ := dpCoin_spec hpos hvalue
  constructor
  · intro hwalks
    exact hwalks.payable hpos hvalue
  · intro hpay
    obtain ⟨count, hget, hcount⟩ := hpaid.coins value.toNat (Nat.lt_succ_self _)
    refine ⟨result, hdp, ?_⟩
    by_cases hzero : value = 0
    · subst hzero
      obtain ⟨pred, hpred, hleads⟩ := hpaid.predecessors 0 (Nat.succ_pos _)
      obtain rfl : pred = 0 := UInt32.toNat_inj.1 (hleads.of_zero hpos)
      obtain rfl : count = 0 := UInt32.toNat_inj.1 (hcount.unique (isLeast_zero _ _))
      have hlast : result.predecessors.getLast? = some 0 := by
        rw [List.getLast?_eq_getElem?, hpaid.predecessors_length]
        exact hpred
      refine ⟨1, [0], ?_, fun _ => ⟨0, hget, by rw [if_pos rfl]; exact ⟨rfl, rfl⟩⟩⟩
      rw [walkBack, hlast]
      rfl
    · have hleast :=
        ((fewest_iff (zero_notMem_amounts hpos) (Nat.lt_succ_self _)).2 hcount).least hpay
      have hlt := lt_of_mem_counts (zero_notMem_amounts hpos) (Nat.lt_succ_self _) hleast.1
      obtain ⟨printed, hwalk, hpays⟩ :=
        walk_spec hpos hpaid _ (Nat.lt_succ_self _) (Nat.lt_succ_self _) hcount (by omega)
      refine ⟨value.toNat, printed, (walkBack_eq_walk hpaid hzero _).trans hwalk,
        fun _ => ⟨count, hget, ?_⟩⟩
      rwa [if_neg hzero]

/-- Seven in coins of two and three. -/
theorem walksBack_iff_seven : WalksBack [2, 3] 7 :=
  (walksBack_iff [2, 3] 7 (by decide) (by decide)).2
    ⟨[2, 2, 3], by simp [amounts], rfl⟩

/-- One, with coins of two: the walk reads `predecessors[2]`, and there are two. -/
theorem not_walksBack : ¬ ∀ (denoms : List UInt32) (value : UInt32), denoms ≠ [] → denoms.Nodup →
    0 ∉ denoms → value.toNat < 2 ^ 31 - 1 → WalksBack denoms value := by
  intro h
  have hwalks := h [2] 1 (by decide) (by decide) (by decide) (by decide)
  obtain ⟨coins, hmem, hsum⟩ := hwalks.payable (by decide) (by decide)
  rcases coins with _ | ⟨c, coins⟩
  · cases hsum
  · obtain ⟨d, hd, rfl⟩ := hmem c List.mem_cons_self
    obtain rfl := List.mem_singleton.1 hd
    rw [List.sum_cons] at hsum
    have htwo : (2 : UInt32).toNat = 2 := rfl
    have hone : (1 : UInt32).toNat = 1 := rfl
    omega

end CPPCodes.Coins
