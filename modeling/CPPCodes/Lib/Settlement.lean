import Mathlib.Algebra.BigOperators.Group.Finset.Piecewise
import Mathlib.Algebra.Order.BigOperators.Group.Finset
import Mathlib.Tactic.Linarith

/-!
# Settling debts

Payments settle the nets of some people when everybody gets on balance what is owed to them. If
each payment is from somebody who owes to somebody who is owed, as much as fits both, then every
one clears a person (`Pays.length_lt`), and no payments that settle the nets move less
(`Pays.total_le`).
-/

namespace Settlement

variable {ι M : Type*}

structure Payment (ι M : Type*) where
  payer : ι
  payee : ι
  amount : M

variable [DecidableEq ι] [CommRing M]

/-- What a person gets from a payment. -/
def Payment.gain (p : Payment ι M) (i : ι) : M :=
  (if i = p.payee then p.amount else 0) - if i = p.payer then p.amount else 0

/-- What a person gets on balance. -/
def balance (ps : List (Payment ι M)) (i : ι) : M := (ps.map fun p => p.gain i).sum

def total (ps : List (Payment ι M)) : M := (ps.map Payment.amount).sum

def Settles (net : ι → M) (ps : List (Payment ι M)) : Prop := ∀ i, balance ps i = net i

/-- What is still to be settled after a payment. -/
def after (net : ι → M) (p : Payment ι M) (i : ι) : M := net i - p.gain i

theorem Settles.cons {net : ι → M} {p : Payment ι M} {ps : List (Payment ι M)}
    (h : Settles (after net p) ps) : Settles net (p :: ps) := fun i => by
  rw [balance, List.map_cons, List.sum_cons, ← balance, h i, after, add_sub_cancel]

theorem sum_gain [Fintype ι] (p : Payment ι M) : ∑ i, p.gain i = 0 := by
  simp [Payment.gain, Finset.sum_sub_distrib]

theorem sum_after [Fintype ι] (net : ι → M) (p : Payment ι M) :
    ∑ i, after net p i = ∑ i, net i := by
  unfold after
  rw [Finset.sum_sub_distrib, sum_gain, sub_zero]

variable [LinearOrder M]

/-- The payment that clears one of two people. -/
def clearing (net : ι → M) (payer payee : ι) : Payment ι M :=
  ⟨payer, payee, min (-net payer) (net payee)⟩

/-- Payments from people who owe to people who are owed, each clearing one of the two. -/
inductive Pays : (ι → M) → List (Payment ι M) → Prop
  | done {net : ι → M} : (∀ i, net i = 0) → Pays net []
  | pay {net : ι → M} {payer payee : ι} {ps : List (Payment ι M)} : net payer < 0 → 0 < net payee →
      Pays (after net (clearing net payer payee)) ps → Pays net (clearing net payer payee :: ps)

variable {net : ι → M} {payer payee : ι} {ps : List (Payment ι M)}

theorem Pays.settles (h : Pays net ps) : Settles net ps := by
  induction h with
  | done hz => exact fun i => (hz i).symm
  | pay _ _ _ ih => exact ih.cons

section Clearing

variable (hpayer : net payer < 0) (hpayee : 0 < net payee)
include hpayer hpayee

omit [DecidableEq ι] in
theorem payer_ne_payee : payer ≠ payee := by
  rintro rfl
  exact absurd (hpayer.trans hpayee) (lt_irrefl _)

theorem after_payer : after net (clearing net payer payee) payer =
    net payer + min (-net payer) (net payee) := by
  rw [after, Payment.gain, clearing, if_neg (payer_ne_payee hpayer hpayee), if_pos rfl, zero_sub,
    sub_neg_eq_add]

theorem after_payee : after net (clearing net payer payee) payee =
    net payee - min (-net payer) (net payee) := by
  rw [after, Payment.gain, clearing, if_pos rfl, if_neg (payer_ne_payee hpayer hpayee).symm,
    sub_zero]

/-- One of the two is cleared. -/
theorem clears : after net (clearing net payer payee) payer = 0 ∨
    after net (clearing net payer payee) payee = 0 := by
  rw [after_payer hpayer hpayee, after_payee hpayer hpayee]
  rcases min_choice (-net payer) (net payee) with h | h
  · exact .inl (by rw [h, add_neg_cancel])
  · exact .inr (by rw [h, sub_self])

end Clearing

theorem after_other {i : ι} (h1 : i ≠ payer) (h2 : i ≠ payee) :
    after net (clearing net payer payee) i = net i := by
  rw [after, Payment.gain, clearing, if_neg h2, if_neg h1, sub_zero, sub_zero]

variable [IsStrictOrderedRing M]

section Step

variable (hpayer : net payer < 0) (hpayee : 0 < net payee)
include hpayer hpayee

omit [DecidableEq ι] in
theorem clearing_pos : 0 < (clearing net payer payee).amount :=
  lt_min (neg_pos.2 hpayer) hpayee

/-- A payment brings nobody's net past 0, and nobody's further from it. -/
theorem after_between (i : ι) : min (net i) 0 ≤ after net (clearing net payer payee) i ∧
    after net (clearing net payer payee) i ≤ max (net i) 0 := by
  have hpos := clearing_pos hpayer hpayee
  have h1 := min_le_left (-net payer) (net payee)
  have h2 := min_le_right (-net payer) (net payee)
  rw [clearing] at hpos
  by_cases hi : i = payer
  · subst hi
    rw [after_payer hpayer hpayee]
    exact ⟨(min_le_left _ _).trans (by linarith), le_max_of_le_right (by linarith)⟩
  by_cases hi' : i = payee
  · subst hi'
    rw [after_payee hpayer hpayee]
    exact ⟨(min_le_right _ _).trans (by linarith), (le_max_left _ _).trans' (by linarith)⟩
  · rw [after_other hi hi']
    exact ⟨min_le_left _ _, le_max_left _ _⟩

theorem after_eq_zero {i : ι} (h : net i = 0) : after net (clearing net payer payee) i = 0 := by
  have := after_between hpayer hpayee i
  rw [h, min_self, max_self] at this
  exact le_antisymm this.2 this.1

/-- What is owed to people shrinks by the payment. -/
theorem max_after (i : ι) : max (net i) 0 =
    (if i = payee then (clearing net payer payee).amount else 0) +
      max (after net (clearing net payer payee) i) 0 := by
  have h1 := min_le_left (-net payer) (net payee)
  have h2 := min_le_right (-net payer) (net payee)
  by_cases hi : i = payer
  · subst hi
    rw [after_payer hpayer hpayee, if_neg (payer_ne_payee hpayer hpayee), max_eq_right hpayer.le,
      max_eq_right (by linarith), zero_add]
  by_cases hi' : i = payee
  · subst hi'
    rw [after_payee hpayer hpayee, if_pos rfl, max_eq_left hpayee.le, max_eq_left (by linarith),
      clearing, add_sub_cancel]
  · rw [after_other hi hi', if_neg hi', zero_add]

end Step

/-- Every payment is from somebody who owes to somebody who is owed. -/
theorem Pays.mem (h : Pays net ps) : ∀ p ∈ ps,
    0 < p.amount ∧ net p.payer < 0 ∧ 0 < net p.payee := by
  induction h with
  | done => exact List.forall_mem_nil _
  | pay hpayer hpayee _ ih =>
    refine List.forall_mem_cons.2 ⟨⟨clearing_pos hpayer hpayee, hpayer, hpayee⟩, fun p hp => ?_⟩
    obtain ⟨hpos, h1, h2⟩ := ih p hp
    have hlow := (after_between hpayer hpayee p.payer).1
    have hhigh := (after_between hpayer hpayee p.payee).2
    refine ⟨hpos, ?_, ?_⟩
    · rcases min_lt_iff.1 (hlow.trans_lt h1) with h | h
      · exact h
      · exact absurd h (lt_irrefl 0)
    · rcases lt_max_iff.1 (h2.trans_le hhigh) with h | h
      · exact h
      · exact absurd h (lt_irrefl 0)

theorem gain_le (p : Payment ι M) (hp : 0 ≤ p.amount) (i : ι) :
    max (p.gain i) 0 ≤ if i = p.payee then p.amount else 0 := by
  unfold Payment.gain
  split_ifs <;> simp [hp]

section Everybody

variable [Fintype ι]

/-- The people who owe or are owed something. -/
def unsettled (net : ι → M) : Finset ι := Finset.univ.filter fun i => net i ≠ 0

omit [DecidableEq ι] [IsStrictOrderedRing M] in
theorem mem_unsettled {i : ι} : i ∈ unsettled net ↔ net i ≠ 0 := by simp [unsettled]

theorem unsettled_after (hpayer : net payer < 0) (hpayee : 0 < net payee) :
    unsettled (after net (clearing net payer payee)) ⊂ unsettled net := by
  refine Finset.ssubset_iff_of_subset (fun i hi => ?_) |>.2 ?_
  · rw [mem_unsettled] at hi ⊢
    exact fun h => hi (after_eq_zero hpayer hpayee h)
  · rcases clears hpayer hpayee with h | h
    · exact ⟨payer, mem_unsettled.2 hpayer.ne, fun h' => mem_unsettled.1 h' h⟩
    · exact ⟨payee, mem_unsettled.2 hpayee.ne', fun h' => mem_unsettled.1 h' h⟩

/-- There are fewer payments than people who have something to settle: the last payment clears
two of them. -/
theorem Pays.length_lt (h : Pays net ps) : ps = [] ∨ ps.length < (unsettled net).card := by
  induction h with
  | done => exact .inl rfl
  | @pay net payer payee ps hpayer hpayee _ ih =>
    refine .inr ?_
    have hcard := Finset.card_lt_card (unsettled_after hpayer hpayee)
    rcases ih with rfl | ih
    · have htwo : ({payer, payee} : Finset ι) ⊆ unsettled net := by
        intro i hi
        rcases Finset.mem_insert.1 hi with rfl | hi
        · exact mem_unsettled.2 hpayer.ne
        · exact Finset.mem_singleton.1 hi ▸ mem_unsettled.2 hpayee.ne'
      have hle := Finset.card_le_card htwo
      rw [Finset.card_pair (payer_ne_payee hpayer hpayee)] at hle
      exact hle
    · rw [List.length_cons]
      omega

/-- What moves is what is owed. -/
theorem Pays.total_eq (h : Pays net ps) : total ps = ∑ i, max (net i) 0 := by
  induction h with
  | done hz => simp [total, hz]
  | pay hpayer hpayee _ ih =>
    rw [total, List.map_cons, List.sum_cons, ← total, ih,
      Finset.sum_congr rfl fun i _ => max_after hpayer hpayee i, Finset.sum_add_distrib,
      Finset.sum_ite_eq' Finset.univ]
    simp [clearing]

/-- Whatever payments settle the nets, they move what is owed. -/
theorem sum_max_le_total : ∀ {ps : List (Payment ι M)}, (∀ p ∈ ps, 0 ≤ p.amount) →
    ∑ i, max (balance ps i) 0 ≤ total ps
  | [], _ => by simp [balance, total]
  | p :: ps, h => by
    obtain ⟨hp, hps⟩ := List.forall_mem_cons.1 h
    have hstep : ∀ i, max (balance (p :: ps) i) 0 ≤
        (if i = p.payee then p.amount else 0) + max (balance ps i) 0 := fun i => by
      have hgain := gain_le p hp i
      rw [balance, List.map_cons, List.sum_cons, ← balance]
      exact max_le (add_le_add ((le_max_left _ _).trans hgain) (le_max_left _ _))
        (add_nonneg ((le_max_right _ _).trans hgain) (le_max_right _ _))
    calc ∑ i, max (balance (p :: ps) i) 0
        ≤ ∑ i, ((if i = p.payee then p.amount else 0) + max (balance ps i) 0) :=
          Finset.sum_le_sum fun i _ => hstep i
      _ = p.amount + ∑ i, max (balance ps i) 0 := by
          rw [Finset.sum_add_distrib]
          simp
      _ ≤ p.amount + total ps := by
          have := sum_max_le_total hps
          linarith
      _ = total (p :: ps) := rfl

theorem Pays.total_le (h : Pays net ps) {ps' : List (Payment ι M)} (hpos : ∀ p ∈ ps', 0 ≤ p.amount)
    (hs : Settles net ps') : total ps ≤ total ps' := by
  have heq : ∀ i, max (balance ps' i) 0 = max (net i) 0 := fun i => by rw [hs i]
  rw [h.total_eq, ← Finset.sum_congr rfl fun i _ => heq i]
  exact sum_max_le_total hpos

end Everybody

end Settlement
