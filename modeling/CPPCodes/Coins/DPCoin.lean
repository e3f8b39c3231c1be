import CPPCodes.Coins.Table

/-!
# Change by amounts

DPCoin.cpp. The numbers of coins are found amount by amount, each from those of the amounts that are
left behind the coin paid first, and `predecessors` has what is left (`dpCoin_spec`). The numbers
are those in the last row of the table of Coin.cpp (`coins_eq_lastRow`).
-/

namespace CPPCodes.Coins

open Change

structure DPCoinResult where
  coins : List UInt32
  predecessors : List UInt32

/-- The variables of the inner loop. -/
structure Best where
  pred : UInt32
  count : UInt32

section DPCoin

variable (denoms : List UInt32) (value : UInt32)

/-- The body of the inner loop. -/
def tryDenom (coins : List UInt32) (v : UInt32) (best : Best) (d : UInt32) : Option Best :=
  if v < d then some best else do
    let left ← coins[(v - d).toNat]?
    let c := left + 1
    return if c < best.count then ⟨v - d, c⟩ else best

/-- The body of the outer loop, for the amount `v`. -/
def payAmount (result : DPCoinResult) (v : ℕ) : Option DPCoinResult := do
  let best ← denoms.foldlM (tryDenom result.coins (.ofNat v)) ⟨.ofNat v + 1, value + 1⟩
  if v < result.coins.length ∧ v < result.predecessors.length then
    return ⟨result.coins.set v best.count, result.predecessors.set v best.pred⟩
  else none

def dpCoin : Option DPCoinResult :=
  let zeros := List.replicate (value + 1).toNat 0
  (List.range' 1 value.toNat).foldlM (payAmount denoms value) ⟨zeros, zeros⟩

end DPCoin

variable {denoms : List UInt32} {value : UInt32}

/-- The number is the least that the denominations pay the amount with, or the marker. -/
def Least (denoms : List UInt32) (value : UInt32) (a e : ℕ) : Prop :=
  IsLeast (insert (value.toNat + 1) (counts (amounts denoms) a)) e

theorem Least.le_cap {a e : ℕ} (h : Least denoms value a e) : e ≤ value.toNat + 1 := h.2 (.inl rfl)

/-- What `predecessors` has for an amount. -/
inductive Leads (denoms : List UInt32) (value : UInt32) (a pred : ℕ) : Prop
  | zero : a = 0 → pred = 0 → Leads denoms value a pred
  | coin {d n : ℕ} : d ∈ amounts denoms → d ≤ a → pred = a - d → n ≤ value.toNat →
      Least denoms value (a - d) n → Least denoms value a (n + 1) → Leads denoms value a pred
  | marker : ¬ Payable (amounts denoms) a → pred = a + 1 → Leads denoms value a pred

/-- What the inner loop has found for the amount `v` with the denominations `ds`. -/
structure Tried (value : UInt32) (coins : List UInt32) (v : UInt32) (ds : List UInt32)
    (best : Best) :
    Prop where
  le_cap : best.count.toNat ≤ value.toNat + 1
  le : ∀ d ∈ ds, d ≤ v → best.count.toNat ≤ (coins.getD (v - d).toNat 0).toNat + 1
  eq : best = ⟨v + 1, value + 1⟩ ∨ best.count.toNat ≤ value.toNat ∧ ∃ d ∈ ds, d ≤ v ∧
    best.pred = v - d ∧ best.count.toNat = (coins.getD (v - d).toNat 0).toNat + 1

theorem Tried.start (hvalue : value.toNat < 2 ^ 31 - 1) (coins : List UInt32) (v : UInt32) :
    Tried value coins v [] ⟨v + 1, value + 1⟩ :=
  ⟨(toNat_add_one (by omega)).le, by simp, .inl rfl⟩

/-- The denomination is no better. -/
theorem Tried.keep {coins ds : List UInt32} {v : UInt32} {best : Best} {d : UInt32}
    (h : Tried value coins v ds best)
    (hd : d ≤ v → best.count.toNat ≤ (coins.getD (v - d).toNat 0).toNat + 1) :
    Tried value coins v (ds ++ [d]) best where
  le_cap := h.le_cap
  le d' hd' hle := by
    rcases List.mem_append.1 hd' with hd' | hd'
    · exact h.le d' hd' hle
    · obtain rfl := List.mem_singleton.1 hd'
      exact hd hle
  eq := by
    refine h.eq.imp_right ?_
    rintro ⟨hcount, d', hd', hrest⟩
    exact ⟨hcount, d', List.mem_append_left _ hd', hrest⟩

/-- The denomination is better than those in front. -/
theorem Tried.take {coins ds : List UInt32} {v : UInt32} {best : Best} {d c : UInt32}
    (h : Tried value coins v ds best) (hle : d ≤ v)
    (hc : c.toNat = (coins.getD (v - d).toNat 0).toNat + 1) (hless : c.toNat < best.count.toNat) :
    Tried value coins v (ds ++ [d]) ⟨v - d, c⟩ where
  le_cap := hless.le.trans h.le_cap
  le d' hd' hle' := by
    rcases List.mem_append.1 hd' with hd' | hd'
    · exact hless.le.trans (h.le d' hd' hle')
    · obtain rfl := List.mem_singleton.1 hd'
      exact hc.le
  eq := .inr ⟨Nat.le_of_lt_succ (Nat.lt_of_lt_of_le hless h.le_cap), d, by simp, hle, rfl, hc⟩

theorem Tried.next {coins ds : List UInt32} {v : UInt32} {best : Best} {d : UInt32}
    (h : Tried value coins v ds best) (hvalue : value.toNat < 2 ^ 31 - 1)
    (hcoins : d ≤ v → ∃ left, coins[(v - d).toNat]? = some left ∧ left.toNat ≤ value.toNat + 1) :
    ∃ best', tryDenom coins v best d = some best' ∧ Tried value coins v (ds ++ [d]) best' := by
  unfold tryDenom
  split_ifs with hlt
  · exact ⟨best, rfl, h.keep fun hle => absurd hlt (UInt32.not_lt.2 hle)⟩
  · have hle : d ≤ v := UInt32.not_lt.1 hlt
    obtain ⟨left, hleft, hbound⟩ := hcoins hle
    have hget : coins.getD (v - d).toNat 0 = left := by
      rw [List.getD_eq_getElem?_getD, hleft, Option.getD_some]
    have hadd : (left + 1).toNat = (coins.getD (v - d).toNat 0).toNat + 1 := by
      rw [hget, toNat_add_one (by omega)]
    rw [hleft]
    simp only [Option.bind_eq_bind, Option.bind_some]
    refine ⟨_, rfl, ?_⟩
    split_ifs with hless
    · exact h.take hle hadd (UInt32.lt_iff_toNat_lt.1 hless)
    · have hge := UInt32.le_iff_toNat_le.1 (UInt32.not_lt.1 hless)
      exact h.keep fun _ => hge.trans hadd.le

/-- The entries for the amounts in front of `v` are right. -/
structure Paid (denoms : List UInt32) (value : UInt32) (v : ℕ) (result : DPCoinResult) : Prop where
  coins_length : result.coins.length = value.toNat + 1
  predecessors_length : result.predecessors.length = value.toNat + 1
  coins : ∀ a < v, ∃ count, result.coins[a]? = some count ∧ Least denoms value a count.toNat
  predecessors : ∀ a < v, ∃ pred, result.predecessors[a]? = some pred ∧
    Leads denoms value a pred.toNat

theorem Paid.start (denoms : List UInt32) (value : UInt32) :
    Paid denoms value 1
      ⟨List.replicate (value.toNat + 1) 0, List.replicate (value.toNat + 1) 0⟩ := by
  have hget : ∀ a < 1, (List.replicate (value.toNat + 1) (0 : UInt32))[a]? = some 0 := by
    intro a ha
    rw [List.getElem?_replicate, if_pos (by omega)]
  refine ⟨List.length_replicate, List.length_replicate, fun a ha => ⟨0, hget a ha, ?_⟩,
    fun a ha => ⟨0, hget a ha, .zero (by omega) rfl⟩⟩
  obtain rfl : a = 0 := by omega
  exact isLeast_zero _ _

/-- What is left behind a coin is an amount in front. -/
theorem Paid.exists_left (hpos : 0 ∉ denoms) {v d : UInt32} {result : DPCoinResult}
    (h : Paid denoms value v.toNat result) (hv : 1 ≤ v.toNat) (hd : d ∈ denoms) (hle : d ≤ v) :
    ∃ left, result.coins[(v - d).toNat]? = some left ∧
      (v - d).toNat = v.toNat - d.toNat ∧ Least denoms value (v.toNat - d.toNat) left.toNat := by
  have hsub := UInt32.toNat_sub_of_le v d hle
  have hzero : d.toNat ≠ 0 := fun hzero => zero_notMem_amounts hpos ⟨d, hd, hzero⟩
  obtain ⟨left, hget, hleft⟩ := h.coins (v - d).toNat (by omega)
  rw [hsub] at hleft
  exact ⟨left, hget, hsub, hleft⟩

/-- What the inner loop finds is right. -/
theorem Paid.found (hpos : 0 ∉ denoms) {v : UInt32} {result : DPCoinResult} {best : Best}
    (h : Paid denoms value v.toNat result) (hv : 1 ≤ v.toNat) (hvv : v.toNat < value.toNat + 1)
    (hvalue : value.toNat < 2 ^ 31 - 1) (hbest : Tried value result.coins v denoms best) :
    Least denoms value v.toNat best.count.toNat ∧
      Leads denoms value v.toNat best.pred.toNat := by
  have hleft : ∀ d ∈ denoms, d ≤ v → (v - d).toNat = v.toNat - d.toNat ∧
      Least denoms value (v.toNat - d.toNat) (result.coins.getD (v - d).toNat 0).toNat := by
    intro d hd hle
    obtain ⟨left, hget, hsub, hleft⟩ := h.exists_left hpos hv hd hle
    refine ⟨hsub, ?_⟩
    rwa [List.getD_eq_getElem?_getD, hget, Option.getD_some]
  have hleast : Least denoms value v.toNat best.count.toNat := by
    refine isLeast_of_first (by omega)
      (q := fun d => (result.coins.getD (v - UInt32.ofNat d).toNat 0).toNat) ?_ hbest.le_cap ?_ ?_
    · rintro _ ⟨d, hd, rfl⟩ hle
      rw [UInt32.ofNat_toNat]
      exact (hleft d hd (UInt32.le_iff_toNat_le.2 hle)).2
    · rintro _ ⟨d, hd, rfl⟩ hle
      rw [UInt32.ofNat_toNat]
      exact hbest.le d hd (UInt32.le_iff_toNat_le.2 hle)
    · rcases hbest.eq with rfl | ⟨-, d, hd, hle, -, hcount⟩
      · exact .inl (toNat_add_one (by omega))
      · refine .inr ⟨d.toNat, ⟨d, hd, rfl⟩, UInt32.le_iff_toNat_le.1 hle, ?_⟩
        rwa [UInt32.ofNat_toNat]
  refine ⟨hleast, ?_⟩
  rcases hbest.eq with rfl | ⟨hcap, d, hd, hle, hpred, hcount⟩
  · refine .marker (fun hpay => ?_) (toNat_add_one (by omega))
    have hlt := (lt_of_mem_counts (zero_notMem_amounts hpos) hvv
      (((fewest_iff (zero_notMem_amounts hpos) hvv).2 hleast).least hpay).1)
    rw [toNat_add_one (by omega)] at hlt
    exact Nat.lt_irrefl _ hlt
  · obtain ⟨hsub, hrest⟩ := hleft d hd hle
    refine .coin ⟨d, hd, rfl⟩ (UInt32.le_iff_toNat_le.1 hle) (by rw [hpred, hsub]) ?_ hrest
      (hcount ▸ hleast)
    omega

theorem Paid.next (hpos : 0 ∉ denoms) {v : ℕ} {result : DPCoinResult}
    (h : Paid denoms value v result) (hv : 1 ≤ v) (hvv : v < value.toNat + 1)
    (hvalue : value.toNat < 2 ^ 31 - 1) :
    ∃ result', payAmount denoms value result v = some result' ∧
      Paid denoms value (v + 1) result' := by
  have hnat : (UInt32.ofNat v).toNat = v := by
    rw [UInt32.toNat_ofNat', Nat.mod_eq_of_lt (by omega)]
  have hpaid : Paid denoms value (UInt32.ofNat v).toNat result := by rwa [hnat]
  have hcoins : ∀ d ∈ denoms, d ≤ UInt32.ofNat v → ∃ left,
      result.coins[(UInt32.ofNat v - d).toNat]? = some left ∧ left.toNat ≤ value.toNat + 1 := by
    intro d hd hle
    obtain ⟨left, hget, -, hleft⟩ := hpaid.exists_left hpos (by omega) hd hle
    exact ⟨left, hget, hleft.le_cap⟩
  obtain ⟨best, hloop, hbest⟩ := Loop.exists_foldlM (P := Tried value result.coins (.ofNat v))
    (Tried.start hvalue result.coins (.ofNat v)) fun _ d hd _ htried =>
      htried.next hvalue (hcoins d hd)
  obtain ⟨hcount, hpred⟩ := hpaid.found hpos (by omega) (by omega) hvalue hbest
  rw [hnat] at hcount hpred
  have hlen := h.coins_length
  have hlen' := h.predecessors_length
  unfold payAmount
  rw [hloop, Option.bind_eq_bind, Option.bind_some, if_pos ⟨by omega, by omega⟩]
  refine ⟨_, rfl, by rw [List.length_set, hlen], by rw [List.length_set, hlen'], fun a ha => ?_,
    fun a ha => ?_⟩
  · rcases Nat.lt_succ_iff_lt_or_eq.1 ha with hlt | rfl
    · rw [List.getElem?_set_ne (by omega)]
      exact h.coins a hlt
    · exact ⟨best.count, List.getElem?_set_self (by omega), hcount⟩
  · rcases Nat.lt_succ_iff_lt_or_eq.1 ha with hlt | rfl
    · rw [List.getElem?_set_ne (by omega)]
      exact h.predecessors a hlt
    · exact ⟨best.pred, List.getElem?_set_self (by omega), hpred⟩

theorem dpCoin_spec (hpos : 0 ∉ denoms) (hvalue : value.toNat < 2 ^ 31 - 1) :
    ∃ result, dpCoin denoms value = some result ∧
      Paid denoms value (value.toNat + 1) result := by
  unfold dpCoin
  rw [toNat_add_one (by omega), Nat.add_comm value.toNat 1]
  refine Loop.exists_foldlM_range' (P := Paid denoms value) ?_ fun v hv hvv result h =>
    h.next hpos hv (by omega) hvalue
  rw [Nat.add_comm]
  exact Paid.start denoms value

/-- `DPCoin` finds the last row of the table. -/
theorem coins_eq_lastRow (denoms : List UInt32) (value : UInt32) (hne : denoms ≠ [])
    (hpos : 0 ∉ denoms) (hvalue : value.toNat < 2 ^ 31 - 1) :
    ∃ result table, dpCoin denoms value = some result ∧
      buildCoinTable denoms value = some table ∧ ∀ v ≤ value.toNat, ∃ count,
        result.coins[v]? = some count ∧ table.get (denoms.length - 1) v = some count ∧
        (¬ Payable (amounts denoms) v → count = value + 1) := by
  obtain ⟨result, hdp, hpaid⟩ := dpCoin_spec hpos hvalue
  obtain ⟨table, hbuild, htable⟩ := buildCoinTable_spec hvalue hpos
  have hlen := List.length_pos_of_ne_nil hne
  refine ⟨result, table, hdp, hbuild, fun v hv => ?_⟩
  obtain ⟨count, hget, hcount⟩ := hpaid.coins v (Nat.lt_succ_of_le hv)
  obtain ⟨entry, hentry, hrow⟩ := htable (denoms.length - 1) (by omega) v (Nat.lt_succ_of_le hv)
  unfold RowCounts Counts at hrow
  rw [take_last hne] at hrow
  obtain rfl : entry = count := UInt32.toNat_inj.1 (hrow.unique hcount)
  refine ⟨entry, hget, hentry, fun hpay => UInt32.toNat_inj.1 ?_⟩
  rw [toNat_add_one (by omega)]
  exact ((fewest_iff (zero_notMem_amounts hpos) (Nat.lt_succ_of_le hv)).2 hcount).marker hpay

/-- Seven in coins of two and three. -/
theorem coins_eq_lastRow_seven :
    ∃ result table, dpCoin [2, 3] 7 = some result ∧ buildCoinTable [2, 3] 7 = some table ∧
      ∀ v ≤ (7 : UInt32).toNat, ∃ count,
        result.coins[v]? = some count ∧ table.get ([2, 3].length - 1) v = some count ∧
        (¬ Payable (amounts [2, 3]) v → count = 7 + 1) :=
  coins_eq_lastRow [2, 3] 7 (by decide) (by decide) (by decide)

end CPPCodes.Coins
