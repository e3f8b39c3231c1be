import CPPCodes.Lib.Change
import CPPCodes.Lib.Grid

/-!
# Change by a table

Coin.cpp. The table has a row for each denomination, filled from the first on, in which the entry
for an amount is the least number of coins of the denominations up to there, or a marker
(`buildCoinTable_spec`). The walk back through it pays the value with that many coins
(`coinsLoop_spec`).
-/

namespace CPPCodes.Coins

open Change

abbrev CoinTable := Grid UInt32

section BuildCoinTable

variable (denoms : List UInt32) (value : UInt32)

/-- `prev_c` in the inner loop. -/
def prevCount (d : ℕ) (table : CoinTable) (c : ℕ) : Option UInt32 :=
  if 0 < d then table.get (d - 1) c else some (value + 1)

/-- `min_c` in the inner loop. -/
def minCount (d : ℕ) (table : CoinTable) (c : ℕ) : Option UInt32 := do
  let prevC ← prevCount value d table c
  let denom ← denoms[d]?
  if c < denom.toNat then return prevC
  else
    let rest ← table.get d (c - denom.toNat)
    return min prevC (rest + 1)

/-- The body of the inner loop. -/
def fillCount (d : ℕ) (table : CoinTable) (c : ℕ) : Option CoinTable := do
  let minC ← minCount denoms value d table c
  table.set d c minC

/-- The inner loop, over `c` from 1 on. -/
def fillRow (table : CoinTable) (d : ℕ) : Option CoinTable := do
  let counts ← table[d]?
  (List.range' 1 (counts.length - 1)).foldlM (fillCount denoms value d) table

def buildCoinTable : Option CoinTable :=
  let table := denoms.map fun _ => List.replicate (value + 1).toNat 0
  (List.range denoms.length).foldlM (fillRow denoms value) table

end BuildCoinTable

section GetCoins

variable (denoms : List UInt32) (table : CoinTable)

/-- Whether the amount is paid without the last denomination. -/
def skips (dIndex v : ℕ) : Option Bool :=
  if 0 < dIndex then do
    let count ← table.get dIndex v
    let prevCount ← table.get (dIndex - 1) v
    return count = prevCount
  else some false

/-- The loop of `GetCoins`, in at most `fuel` passes. -/
def coinsLoop : ℕ → (dIndex : ℕ) → (v : UInt32) → Option (List UInt32)
  | 0, _, _ => none
  | fuel + 1, dIndex, v =>
    if v = 0 then some [] else do
      let skip ← skips table dIndex v.toNat
      if skip then coinsLoop fuel (dIndex - 1) v
      else
        let denom ← denoms[dIndex]?
        if denom ≤ v then
          let result ← coinsLoop fuel dIndex (v - denom)
          return denom :: result
        else none

def getCoins (fuel : ℕ) (value : UInt32) : Option (List UInt32) := do
  let count ← table.get (denoms.length - 1) value.toNat
  if value < count then return [] else coinsLoop denoms table fuel (denoms.length - 1) value

end GetCoins

/-- The denominations as numbers. -/
def amounts (denoms : List UInt32) : Set ℕ := {n | ∃ denom ∈ denoms, denom.toNat = n}

/-- The number is the least that the first denominations pay the amount with, or the marker. -/
def Counts (denoms : List UInt32) (value : UInt32) (n c e : ℕ) : Prop :=
  IsLeast (insert (value.toNat + 1) (counts (amounts (denoms.take n)) c)) e

variable {denoms : List UInt32} {value : UInt32}

theorem zero_notMem_amounts (hpos : 0 ∉ denoms) : 0 ∉ amounts denoms := by
  rintro ⟨denom, hmem, hzero⟩
  obtain rfl : denom = 0 := UInt32.toNat_inj.1 hzero
  exact hpos hmem

theorem amounts_take_succ {d : ℕ} {denom : UInt32} (h : denoms[d]? = some denom) :
    amounts (denoms.take (d + 1)) = insert denom.toNat (amounts (denoms.take d)) := by
  ext n
  rw [List.take_add_one, h]
  simp [amounts, or_and_right, exists_or, or_comm, eq_comm]

theorem amounts_take_zero : amounts (denoms.take 0) = ∅ := by
  simp [amounts]

/-- The last row is about all denominations. -/
theorem take_last (hne : denoms ≠ []) : denoms.take (denoms.length - 1 + 1) = denoms := by
  rw [Nat.sub_add_cancel (List.length_pos_of_ne_nil hne), List.take_length]

/-- No sum of the loops gets to 2^32. -/
theorem toNat_add_one {x : UInt32} (h : x.toNat ≤ 2 ^ 31) : (x + 1).toNat = x.toNat + 1 := by
  rw [UInt32.toNat_add, UInt32.toNat_one, Nat.mod_eq_of_lt (by omega)]

theorem toNat_min (x y : UInt32) : (min x y).toNat = min x.toNat y.toNat := by
  have hmin : min x y = if x ≤ y then x else y := rfl
  rw [hmin, Nat.min_def, apply_ite UInt32.toNat]
  simp only [UInt32.le_iff_toNat_le]

/-- What the entry for an amount should be, in row `d`. -/
def RowCounts (denoms : List UInt32) (value : UInt32) (d c : ℕ) (count : UInt32) : Prop :=
  Counts denoms value (d + 1) c count.toNat

/-- All entries of the table are as they should be. -/
def Complete (denoms : List UInt32) (value : UInt32) (table : CoinTable) : Prop :=
  ∀ d < denoms.length, ∀ c < value.toNat + 1, ∃ count, table.get d c = some count ∧
    RowCounts denoms value d c count

theorem Counts.le_cap {n c e : ℕ} (h : Counts denoms value n c e) : e ≤ value.toNat + 1 :=
  h.2 (.inl rfl)

theorem prevCount_spec (hvalue : value.toNat < 2 ^ 31 - 1) {d c : ℕ} (hd : d < denoms.length)
    (hc : 1 ≤ c) (hcv : c < value.toNat + 1) {table : CoinTable}
    (h : Grid.Filled (RowCounts denoms value) denoms.length (value.toNat + 1) d c table) :
    ∃ prevC, prevCount value d table c = some prevC ∧ Counts denoms value d c prevC.toNat := by
  rcases d with _ | d
  · refine ⟨value + 1, rfl, ?_⟩
    unfold Counts
    rw [toNat_add_one (by omega), amounts_take_zero]
    exact isLeast_empty _ (by omega)
  · exact h.right d (by omega) c hcv (.inl (Nat.lt_succ_self d))

theorem minCount_spec (hvalue : value.toNat < 2 ^ 31 - 1) {d c : ℕ} (hd : d < denoms.length)
    (hpos : 0 ∉ denoms) (hc : 1 ≤ c) (hcv : c < value.toNat + 1) {table : CoinTable}
    (h : Grid.Filled (RowCounts denoms value) denoms.length (value.toNat + 1) d c table) :
    ∃ minC, minCount denoms value d table c = some minC ∧ RowCounts denoms value d c minC := by
  have hget : denoms[d]? = some denoms[d] := List.getElem?_eq_getElem hd
  obtain ⟨prevC, hprevC, hcount⟩ := prevCount_spec hvalue hd hc hcv h
  unfold minCount RowCounts Counts
  rw [hprevC, hget, amounts_take_succ hget]
  simp only [Option.bind_eq_bind, Option.bind_some]
  split_ifs with hlt
  · exact ⟨prevC, rfl, isLeast_insert_of_lt hlt hcount⟩
  · have hdenom : denoms[d].toNat ≠ 0 := fun hzero =>
      zero_notMem_amounts hpos ⟨denoms[d], List.getElem_mem hd, hzero⟩
    obtain ⟨rest, hrest, hrestC⟩ := h.right d hd (c - denoms[d].toNat) (by omega)
      (.inr (.inl ⟨rfl, by omega⟩))
    have hle := hrestC.le_cap
    refine ⟨min prevC (rest + 1), by rw [hrest]; rfl, ?_⟩
    unfold RowCounts Counts at hrestC
    rw [amounts_take_succ hget] at hrestC
    rw [toNat_min, toNat_add_one (by omega)]
    exact isLeast_insert (by omega) hcount hrestC

theorem buildCoinTable_spec (hvalue : value.toNat < 2 ^ 31 - 1) (hpos : 0 ∉ denoms) :
    ∃ table, buildCoinTable denoms value = some table ∧ Complete denoms value table := by
  unfold buildCoinTable
  rw [toNat_add_one (by omega)]
  refine Grid.Filled.fill (fun d hd table h => ?_)
    (Grid.Filled.start denoms (value.toNat + 1) fun d _ => isLeast_zero _ _)
  obtain ⟨counts, hcounts, hlen⟩ := h.sized.exists_row hd
  unfold fillRow
  rw [hcounts, Option.bind_eq_bind, Option.bind_some, hlen]
  exact h.row hd (by omega) fun c hc hcv table h => minCount_spec hvalue hd hpos hc hcv h

/-- What a pass of the loop does for an amount that the first denominations pay. -/
theorem skips_spec {table : CoinTable} (h : Complete denoms value table) {d v e : ℕ}
    (hd : d < denoms.length) (hv : v < value.toNat + 1) (hpos : v ≠ 0)
    (he : Counts denoms value (d + 1) v e) (hpay : e < value.toNat + 1) :
    (0 < d ∧ skips table d v = some true ∧ Counts denoms value d v e) ∨
      skips table d v = some false ∧ denoms[d].toNat ≤ v ∧ ∀ q,
        Counts denoms value (d + 1) (v - denoms[d].toNat) q → e = q + 1 := by
  have htake := amounts_take_succ (List.getElem?_eq_getElem hd)
  -- with a coin of the last denomination
  have hcoin : ∀ p, Counts denoms value d v p → e ≠ p → denoms[d].toNat ≤ v ∧ ∀ q,
      Counts denoms value (d + 1) (v - denoms[d].toNat) q → e = q + 1 := by
    intro p hp hne
    unfold Counts at he ⊢
    rw [htake] at he ⊢
    have hle : denoms[d].toNat ≤ v := by
      by_contra hlt
      exact hne (he.unique (isLeast_insert_of_lt (by omega) hp))
    exact ⟨hle, fun q hq => (eq_of_ne hp he hpay hne hq).2⟩
  rcases d with _ | d
  · have hp : Counts denoms value 0 v (value.toNat + 1) := by
      unfold Counts
      rw [amounts_take_zero]
      exact isLeast_empty _ hpos
    exact .inr ⟨rfl, hcoin _ hp hpay.ne⟩
  · obtain ⟨count, hget, hcount⟩ := h (d + 1) hd v hv
    obtain ⟨prevC, hget', hprevC⟩ := h d (by omega) v hv
    obtain rfl : e = count.toNat := he.unique hcount
    have hskips : skips table (d + 1) v = some (decide (count = prevC)) := by
      unfold skips
      rw [if_pos (Nat.succ_pos d), hget, Nat.add_sub_cancel, hget']
      rfl
    by_cases heq : count = prevC
    · subst heq
      exact .inl ⟨Nat.succ_pos d, by rw [hskips, decide_eq_true rfl], hprevC⟩
    · have hne : count.toNat ≠ prevC.toNat := fun hnat => heq (UInt32.toNat_inj.1 hnat)
      exact .inr ⟨by rw [hskips, decide_eq_false heq], hcoin _ hprevC hne⟩

theorem coinsLoop_spec {table : CoinTable} (h : Complete denoms value table) (hpos : 0 ∉ denoms) :
    ∀ (fuel : ℕ) {d e : ℕ} {v : UInt32}, v.toNat + d < fuel → d < denoms.length →
      v.toNat < value.toNat + 1 → Counts denoms value (d + 1) v.toNat e → e < value.toNat + 1 →
      ∃ result, coinsLoop denoms table fuel d v = some result ∧ result.length = e ∧
        Pays (amounts denoms) v.toNat (result.map UInt32.toNat)
  | 0, _, _, _, hfuel, _, _, _, _ => absurd hfuel (Nat.not_lt_zero _)
  | fuel + 1, d, e, v, hfuel, hd, hv, he, hpay => by
    unfold coinsLoop
    split_ifs with hzero
    · subst hzero
      obtain rfl : e = 0 := he.unique (isLeast_zero _ _)
      exact ⟨[], rfl, rfl, pays_nil _⟩
    · have hne : v.toNat ≠ 0 := fun hnat => hzero (UInt32.toNat_inj.1 hnat)
      rcases skips_spec h hd hv hne he hpay with ⟨hd0, hskips, hprev⟩ | ⟨hskips, hle, hrest⟩
      · obtain ⟨d, rfl⟩ := Nat.exists_eq_succ_of_ne_zero hd0.ne'
        obtain ⟨result, hrun, hlen, hpays⟩ :=
          coinsLoop_spec h hpos fuel (by omega) (by omega) hv hprev hpay
        rw [hskips]
        exact ⟨result, hrun, hlen, hpays⟩
      · have hdenom : denoms[d].toNat ≠ 0 := fun hnat =>
          zero_notMem_amounts hpos ⟨denoms[d], List.getElem_mem hd, hnat⟩
        have hle' : denoms[d] ≤ v := UInt32.le_iff_toNat_le.2 hle
        have hsub := UInt32.toNat_sub_of_le v denoms[d] hle'
        obtain ⟨count, -, hcount⟩ := h d hd (v - denoms[d]).toNat (by omega)
        have hq : Counts denoms value (d + 1) (v.toNat - denoms[d].toNat) count.toNat := by
          rwa [← hsub]
        obtain rfl := hrest _ hq
        obtain ⟨result, hrun, hlen, hpays⟩ :=
          coinsLoop_spec h hpos fuel (by omega) hd (by omega) hcount (by omega)
        rw [hskips, List.getElem?_eq_getElem hd]
        simp only [Option.bind_eq_bind, Option.bind_some, Bool.false_eq_true, if_false, if_pos hle',
          hrun]
        refine ⟨_, rfl, by rw [List.length_cons, hlen], ?_⟩
        rw [List.map_cons]
        exact Pays.cons (hsub ▸ hpays) ⟨denoms[d], List.getElem_mem hd, rfl⟩ hle

theorem RowCounts.fewest (hpos : 0 ∉ denoms) {d c : ℕ} {count : UInt32} (hc : c ≤ value.toNat)
    (h : RowCounts denoms value d c count) :
    Fewest (amounts (denoms.take (d + 1))) (value.toNat + 1) c count.toNat := by
  refine (fewest_iff (fun hzero => ?_) (Nat.lt_succ_of_le hc)).2 h
  obtain ⟨denom, hmem, hnat⟩ := hzero
  exact zero_notMem_amounts hpos ⟨denom, List.mem_of_mem_take hmem, hnat⟩

theorem getCoins_spec {table : CoinTable} (h : Complete denoms value table) (hne : denoms ≠ [])
    (hpos : 0 ∉ denoms) :
    ∃ fuel coins, getCoins denoms table fuel value = some coins ∧
      (Payable (amounts denoms) value.toNat →
        Pays (amounts denoms) value.toNat (coins.map UInt32.toNat) ∧
        IsLeast (counts (amounts denoms) value.toNat) coins.length) ∧
      (¬ Payable (amounts denoms) value.toNat → coins = []) := by
  have hlen := List.length_pos_of_ne_nil hne
  obtain ⟨count, hget, hrow⟩ := h (denoms.length - 1) (by omega) value.toNat (Nat.lt_succ_self _)
  have hlast := hrow.fewest hpos (Nat.le_refl _)
  rw [take_last hne] at hlast
  unfold getCoins
  rw [hget]
  by_cases hpay : Payable (amounts denoms) value.toNat
  · have hleast := hlast.least hpay
    have hlt := lt_of_mem_counts (zero_notMem_amounts hpos) (Nat.lt_succ_self _) hleast.1
    obtain ⟨coins, hrun, hcoins, hpays⟩ :=
      coinsLoop_spec h hpos _ (Nat.lt_succ_self _) (by omega) (Nat.lt_succ_self _) hrow hlt
    have hnot : ¬ value < count := UInt32.not_lt.2 (UInt32.le_iff_toNat_le.2 (by omega))
    refine ⟨value.toNat + (denoms.length - 1) + 1, coins, ?_,
      fun _ => ⟨hpays, hcoins.symm ▸ hleast⟩, fun hno => absurd hpay hno⟩
    simp only [Option.bind_eq_bind, Option.bind_some, if_neg hnot]
    exact hrun
  · have hcap := hlast.marker hpay
    have hlt : value < count := UInt32.lt_iff_toNat_lt.2 (by omega)
    refine ⟨0, [], ?_, fun hyes => absurd hyes hpay, fun _ => rfl⟩
    simp only [Option.bind_eq_bind, Option.bind_some, if_pos hlt]
    rfl

/-- The entries of the table are the least numbers of coins, and `GetCoins` comes to an end: with
the least number of coins that pay the value, or with none if they do not pay it. -/
def GivesChange (denoms : List UInt32) (value : UInt32) : Prop :=
  ∃ table, buildCoinTable denoms value = some table ∧
    (∀ i < denoms.length, ∀ c ≤ value.toNat, ∃ count, table.get i c = some count ∧
      Fewest (amounts (denoms.take (i + 1))) (value.toNat + 1) c count.toNat) ∧
    ∃ fuel coins, getCoins denoms table fuel value = some coins ∧
      (Payable (amounts denoms) value.toNat →
        Pays (amounts denoms) value.toNat (coins.map UInt32.toNat) ∧
        IsLeast (counts (amounts denoms) value.toNat) coins.length) ∧
      (¬ Payable (amounts denoms) value.toNat → coins = [])

theorem givesChange (denoms : List UInt32) (value : UInt32) (hne : denoms ≠ [])
    (hpos : 0 ∉ denoms) (hvalue : value.toNat < 2 ^ 31 - 1) : GivesChange denoms value := by
  obtain ⟨table, hbuild, h⟩ := buildCoinTable_spec hvalue hpos
  refine ⟨table, hbuild, fun i hi c hc => ?_, getCoins_spec h hne hpos⟩
  obtain ⟨count, hget, hrow⟩ := h i hi c (Nat.lt_succ_of_le hc)
  exact ⟨count, hget, hrow.fewest hpos hc⟩

/-- Seven in coins of two and three. -/
theorem givesChange_seven : GivesChange [2, 3] 7 :=
  givesChange [2, 3] 7 (by decide) (by decide) (by decide)

end CPPCodes.Coins
