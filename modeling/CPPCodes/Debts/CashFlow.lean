import CPPCodes.Lib.Settlement
import CPPCodes.Lib.Signed
import Mathlib.Algebra.Order.BigOperators.Group.Finset
import Mathlib.Algebra.BigOperators.Fin
import Mathlib.Data.Fin.VecNotation

/-!
# Minimum cash flow

temp.c, for any number `n + 1` of people in place of `N`. Who is owed most is paid by whoever owes
most, until nobody owes: every payment settles one of the two for good. An `int` that overflows,
which is not defined, is `none`.
-/

namespace CPPCodes.Debts

open Settlement Signed

variable {n : ℕ}

/-- The loop of `getMin` and `getMax`: the first index that no later one is better than. -/
def best (better : ℤ → ℤ → Bool) (arr : Fin (n + 1) → ℤ) : Fin (n + 1) :=
  (List.finRange n).foldl (fun ind i => if better (arr i.succ) (arr ind) then i.succ else ind) 0

def getMin (arr : Fin (n + 1) → ℤ) : Fin (n + 1) := best (· < ·) arr

def getMax (arr : Fin (n + 1) → ℤ) : Fin (n + 1) := best (· > ·) arr

def minOf2 (x y : ℤ) : ℤ := if x < y then x else y

/-- `minCashFlowRec`, to a depth of `fuel` calls, with what it prints. -/
def minCashFlowRec : ℕ → (Fin (n + 1) → ℤ) → Option (List (Payment (Fin (n + 1)) ℤ))
  | 0, _ => none
  | fuel + 1, amount =>
    let mxCredit := getMax amount
    let mxDebit := getMin amount
    if amount mxCredit = 0 ∧ amount mxDebit = 0 then some []
    else do
      let owed ← checked 32 (-amount mxDebit)
      let min := minOf2 owed (amount mxCredit)
      let credit ← checked 32 (amount mxCredit - min)
      let amount := Function.update amount mxCredit credit
      let debit ← checked 32 (amount mxDebit + min)
      let amount := Function.update amount mxDebit debit
      let rest ← minCashFlowRec fuel amount
      return ⟨mxDebit, mxCredit, min⟩ :: rest

/-- The inner loop of `minCashFlow`. -/
def amountOf (graph : Fin (n + 1) → Fin (n + 1) → ℤ) (p : Fin (n + 1)) : Option ℤ :=
  (List.finRange (n + 1)).foldlM (fun amount i => do
    let debt ← checked 32 (graph i p - graph p i)
    checked 32 (amount + debt)) 0

def amounts (graph : Fin (n + 1) → Fin (n + 1) → ℤ) : Option (Fin (n + 1) → ℤ) :=
  if ∀ p, (amountOf graph p).isSome then some fun p => (amountOf graph p).getD 0 else none

/-- No calls are deeper than there are people. -/
def minCashFlow (graph : Fin (n + 1) → Fin (n + 1) → ℤ) :
    Option (List (Payment (Fin (n + 1)) ℤ)) := do
  minCashFlowRec (n + 2) (← amounts graph)

theorem foldl_best {better : ℤ → ℤ → Bool} (hirrefl : ∀ x, better x x = false)
    (hbetter : ∀ x y z, better x y = true → better z y = false → better z x = false)
    (arr : Fin (n + 1) → ℤ) : ∀ (is : List (Fin n)) (ind : Fin (n + 1)) (seen : Set (Fin (n + 1))),
      (∀ j ∈ seen, better (arr j) (arr ind) = false) →
      ∀ j, (j ∈ seen ∨ ∃ i ∈ is, j = i.succ) → better (arr j) (arr (is.foldl (fun ind i =>
        if better (arr i.succ) (arr ind) then i.succ else ind) ind)) = false
  | [], _, _, hseen, j, hj => by
    rcases hj with hj | ⟨i, hi, -⟩
    · exact hseen j hj
    · cases hi
  | i :: is, ind, seen, hseen, j, hj => by
    rw [List.foldl_cons]
    refine foldl_best hirrefl hbetter arr is _ (insert i.succ seen) (fun k hk => ?_) j ?_
    · split_ifs with h
      · rcases hk with rfl | hk
        · exact hirrefl _
        · exact hbetter _ _ _ h (hseen k hk)
      · rcases hk with rfl | hk
        · exact Bool.eq_false_iff.2 h
        · exact hseen k hk
    · rcases hj with hj | ⟨i', hi', rfl⟩
      · exact .inl (.inr hj)
      · rcases List.mem_cons.1 hi' with rfl | hi'
        · exact .inl (.inl rfl)
        · exact .inr ⟨i', hi', rfl⟩

theorem best_spec (better : ℤ → ℤ → Bool) (hirrefl : ∀ x, better x x = false)
    (hbetter : ∀ x y z, better x y = true → better z y = false → better z x = false)
    (arr : Fin (n + 1) → ℤ) (j : Fin (n + 1)) : better (arr j) (arr (best better arr)) = false := by
  refine foldl_best hirrefl hbetter arr _ 0 {0} (fun k hk => ?_) j ?_
  · rw [Set.mem_singleton_iff.1 hk]
    exact hirrefl _
  · induction j using Fin.cases with
    | zero => exact .inl rfl
    | succ i => exact .inr ⟨i, List.mem_finRange i, rfl⟩

theorem getMin_le (arr : Fin (n + 1) → ℤ) (j : Fin (n + 1)) : arr (getMin arr) ≤ arr j := by
  have h := best_spec (· < ·) (by simp) (fun x y z h1 h2 => by
    simp only [decide_eq_true_eq, decide_eq_false_iff_not] at h1 h2 ⊢
    omega) arr j
  exact not_lt.1 (of_decide_eq_false h)

theorem le_getMax (arr : Fin (n + 1) → ℤ) (j : Fin (n + 1)) : arr j ≤ arr (getMax arr) := by
  have h := best_spec (· > ·) (by simp) (fun x y z h1 h2 => by
    simp only [decide_eq_true_eq, decide_eq_false_iff_not] at h1 h2 ⊢
    omega) arr j
  exact not_lt.1 (of_decide_eq_false h)

theorem minOf2_eq (x y : ℤ) : minOf2 x y = min x y := by
  unfold minOf2
  split_ifs with h
  · exact (min_eq_left h.le).symm
  · exact (min_eq_right (not_lt.1 h)).symm

/-- What `int`s the amounts can be so that none overflows. -/
def Small (net : Fin (n + 1) → ℤ) : Prop := ∀ p, -2 ^ 31 < net p ∧ net p < 2 ^ 31

theorem exists_ends {net : Fin (n + 1) → ℤ} (hsum : ∑ p, net p = 0)
    (h : ¬ (net (getMax net) = 0 ∧ net (getMin net) = 0)) :
    net (getMin net) < 0 ∧ 0 < net (getMax net) := by
  have hne : ∃ p ∈ Finset.univ, net p ≠ 0 := by
    by_contra hno
    push Not at hno
    exact h ⟨hno _ (Finset.mem_univ _), hno _ (Finset.mem_univ _)⟩
  obtain ⟨p, -, hp⟩ := Finset.exists_pos_of_sum_zero_of_exists_nonzero net hsum hne
  have hneg : ∑ p, -net p = 0 := by rw [Finset.sum_neg_distrib, hsum, neg_zero]
  obtain ⟨q, -, hq⟩ := Finset.exists_pos_of_sum_zero_of_exists_nonzero (fun p => -net p) hneg
    (hne.imp fun p hp => ⟨hp.1, neg_ne_zero.2 hp.2⟩)
  exact ⟨(getMin_le net q).trans_lt (neg_pos.1 hq), hp.trans_le (le_getMax net p)⟩

theorem Small.after {net : Fin (n + 1) → ℤ} (hs : Small net) {payer payee : Fin (n + 1)}
    (hpayer : net payer < 0) (hpayee : 0 < net payee) :
    Small (after net (clearing net payer payee)) := fun p => by
  have hb := after_between hpayer hpayee p
  obtain ⟨h1, h2⟩ := hs p
  exact ⟨(lt_min h1 (by decide)).trans_le hb.1, hb.2.trans_lt (max_lt h2 (by decide))⟩

/-- The two assignments are the payment. -/
theorem update_update {net : Fin (n + 1) → ℤ} {payer payee : Fin (n + 1)} (hpayer : net payer < 0)
    (hpayee : 0 < net payee) :
    Function.update (Function.update net payee (net payee - min (-net payer) (net payee))) payer
      (net payer + min (-net payer) (net payee)) = after net (clearing net payer payee) := by
  funext i
  rw [Function.update_apply, Function.update_apply]
  split_ifs with h1 h2
  · rw [h1, after_payer hpayer hpayee]
  · rw [h2, after_payee hpayer hpayee]
  · exact (after_other h1 h2).symm

theorem minCashFlowRec_spec : ∀ (fuel : ℕ) {net : Fin (n + 1) → ℤ}, (unsettled net).card < fuel →
    ∑ p, net p = 0 → Small net → ∃ ps, minCashFlowRec fuel net = some ps ∧ Pays net ps
  | 0, _, h, _, _ => absurd h (Nat.not_lt_zero _)
  | fuel + 1, net, hfuel, hsum, hs => by
    unfold minCashFlowRec
    by_cases h : net (getMax net) = 0 ∧ net (getMin net) = 0
    · refine ⟨[], if_pos h, .done fun p => ?_⟩
      have h1 := getMin_le net p
      have h2 := le_getMax net p
      omega
    · obtain ⟨hpayer, hpayee⟩ := exists_ends hsum h
      have hne := payer_ne_payee hpayer hpayee
      obtain ⟨hlow, -⟩ := hs (getMin net)
      obtain ⟨-, hhigh⟩ := hs (getMax net)
      have hfits : ∀ x : ℤ, -2 ^ 31 ≤ x → x < 2 ^ 31 → checked 32 x = some x := fun x h1 h2 =>
        checked_eq ⟨h1, h2⟩
      obtain ⟨ps, hps, hpays⟩ := minCashFlowRec_spec fuel
        ((Finset.card_lt_card (unsettled_after hpayer hpayee)).trans_le (Nat.le_of_lt_succ hfuel))
        ((sum_after _ _).trans hsum) (hs.after hpayer hpayee)
      have hmin1 := min_le_left (-net (getMin net)) (net (getMax net))
      have hmin2 := min_le_right (-net (getMin net)) (net (getMax net))
      have hpos := clearing_pos hpayer hpayee
      rw [clearing] at hpos
      refine ⟨_, ?_, .pay hpayer hpayee hpays⟩
      rw [if_neg h, hfits _ (by omega) (by omega)]
      simp only [Option.bind_eq_bind, Option.bind_some, minOf2_eq]
      rw [hfits _ (by omega) (by omega), Option.bind_some, Function.update_of_ne hne,
        hfits _ (by omega) (by omega), Option.bind_some, update_update hpayer hpayee, hps]
      rfl

/-- Whoever owes `INT_MIN` owes most, and no `int` is its negative. -/
theorem minCashFlowRec_intMin (fuel : ℕ) {net : Fin (n + 1) → ℤ} (hlow : ∀ p, -2 ^ 31 ≤ net p)
    (h : ∃ p, net p = -2 ^ 31) : minCashFlowRec (fuel + 1) net = none := by
  obtain ⟨p, hp⟩ := h
  have hmin : net (getMin net) = -2 ^ 31 := le_antisymm (hp ▸ getMin_le net p) (hlow _)
  have hchecked : checked 32 (-net (getMin net)) = none := by
    rw [hmin]
    rfl
  unfold minCashFlowRec
  refine (if_neg (by rw [hmin]; simp)).trans ?_
  rw [hchecked]
  rfl

/-- What a person is owed, less what the person owes. -/
def net (graph : Fin (n + 1) → Fin (n + 1) → ℤ) (p : Fin (n + 1)) : ℤ :=
  ∑ i, (graph i p - graph p i)

theorem sum_net (graph : Fin (n + 1) → Fin (n + 1) → ℤ) : ∑ p, net graph p = 0 := by
  unfold net
  simp only [Finset.sum_sub_distrib]
  rw [Finset.sum_comm, sub_self]

theorem foldlM_checked {f : Fin (n + 1) → ℤ} : ∀ {is : List (Fin (n + 1))} {a a' : ℤ}, Fits 32 a →
    is.foldlM (fun amount i => do
      let debt ← checked 32 (f i)
      checked 32 (amount + debt)) a = some a' → a' = a + (is.map f).sum ∧ Fits 32 a'
  | [], a, a', ha, h => by
    cases h
    exact ⟨by simp, ha⟩
  | i :: is, a, a', ha, h => by
    rw [List.foldlM_cons] at h
    obtain ⟨b, hb, h⟩ := Option.bind_eq_some_iff.1 h
    obtain ⟨debt, hdebt, hb⟩ := Option.bind_eq_some_iff.1 hb
    have hd := checked_eq_some.1 hdebt
    have hb := checked_eq_some.1 hb
    obtain ⟨rfl, ha'⟩ := foldlM_checked (hb.2 ▸ hb.1) h
    refine ⟨?_, ha'⟩
    rw [← hb.2, ← hd.2, List.map_cons, List.sum_cons, add_assoc]

theorem amounts_eq {graph : Fin (n + 1) → Fin (n + 1) → ℤ} {amount : Fin (n + 1) → ℤ}
    (h : amounts graph = some amount) : amount = net graph ∧ ∀ p, Fits 32 (net graph p) := by
  unfold amounts at h
  split_ifs at h with hall
  cases h
  have hp : ∀ p, (amountOf graph p).getD 0 = net graph p ∧ Fits 32 (net graph p) := fun p => by
    obtain ⟨a, ha⟩ := Option.isSome_iff_exists.1 (hall p)
    obtain ⟨hsum, hfits⟩ := foldlM_checked (by decide) ha
    have heq : a = net graph p := by
      rw [hsum, zero_add, net, Fin.sum_univ_def]
    exact ⟨by rw [ha, Option.getD_some, heq], heq ▸ hfits⟩
  exact ⟨funext fun p => (hp p).1, fun p => (hp p).2⟩

/-- Unless an amount overflows on the way, or is `INT_MIN`, which has no negative, everybody gets
what is owed: from people who owe, to people who are owed, in fewer payments than there are people
who have something to settle, and in no more money than any payments that settle the same. -/
theorem minCashFlow_cases (graph : Fin (n + 1) → Fin (n + 1) → ℤ) :
    ((amounts graph = none ∨ ∃ p, net graph p = -2 ^ 31) ∧ minCashFlow graph = none) ∨
      ∃ ps, minCashFlow graph = some ps ∧ Settles (net graph) ps ∧
        (∀ p ∈ ps, 0 < p.amount ∧ net graph p.payer < 0 ∧ 0 < net graph p.payee) ∧
        (ps = [] ∨ ps.length < (unsettled (net graph)).card) ∧
        ∀ ps', (∀ p ∈ ps', 0 ≤ p.amount) → Settles (net graph) ps' → total ps ≤ total ps' := by
  cases hamounts : amounts graph with
  | none => exact .inl ⟨.inl rfl, by rw [minCashFlow, hamounts]; rfl⟩
  | some amount =>
    obtain ⟨rfl, hfits⟩ := amounts_eq hamounts
    have hcall : minCashFlow graph = minCashFlowRec (n + 2) (net graph) := by
      rw [minCashFlow, hamounts]
      rfl
    by_cases hmin : ∃ p, net graph p = -2 ^ 31
    · exact .inl ⟨.inr hmin, hcall.trans (minCashFlowRec_intMin (n + 1) (fun p => (hfits p).1) hmin)⟩
    · push Not at hmin
      have hsmall : Small (net graph) := fun p => by
        obtain ⟨h1, h2⟩ := hfits p
        exact ⟨lt_of_le_of_ne h1 (hmin p).symm, h2⟩
      have hcard : (unsettled (net graph)).card < n + 2 := by
        have := Finset.card_le_univ (unsettled (net graph))
        rw [Fintype.card_fin] at this
        omega
      obtain ⟨ps, hps, hpays⟩ := minCashFlowRec_spec (n + 2) hcard (sum_net graph) hsmall
      exact .inr ⟨ps, hcall.trans hps, hpays.settles, hpays.mem, hpays.length_lt,
        fun ps' hpos hs => hpays.total_le hpos hs⟩

/-- Two people who owe each other. -/
example : minCashFlow ![![0, 1], ![3, 0]] = some [⟨1, 0, 2⟩] := rfl

end CPPCodes.Debts
