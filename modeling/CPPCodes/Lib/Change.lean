import Mathlib.Data.List.Perm.Basic
import Mathlib.Data.Set.Insert
import Mathlib.Order.Bounds.Basic
import Mathlib.Algebra.BigOperators.Group.List.Basic
import Mathlib.Algebra.Ring.Nat

/-!
# Paying an amount in coins

The least number of coins of some denominations that pay an amount, with a marker above all these
numbers for an amount that cannot be paid (`Fewest`). It is the least element of the numbers and the
marker (`fewest_iff`), so it obeys the two recurrences of the coin problem: by one denomination more
(`isLeast_insert`), and by the coin that is paid first (`isLeast_of_first`).
-/

namespace Change

variable {S : Set ℕ} {a d cap e p q : ℕ}

/-- The coins are of the denominations and pay the amount. -/
structure Pays (S : Set ℕ) (a : ℕ) (coins : List ℕ) : Prop where
  mem : ∀ c ∈ coins, c ∈ S
  sum : coins.sum = a

def Payable (S : Set ℕ) (a : ℕ) : Prop := ∃ coins, Pays S a coins

/-- The numbers of coins that pay the amount. -/
def counts (S : Set ℕ) (a : ℕ) : Set ℕ := {n | ∃ coins, Pays S a coins ∧ coins.length = n}

/-- The least number of coins that pay the amount, or the marker. -/
structure Fewest (S : Set ℕ) (cap a e : ℕ) : Prop where
  least : Payable S a → IsLeast (counts S a) e
  marker : ¬ Payable S a → e = cap

theorem pays_nil (S : Set ℕ) : Pays S 0 [] := ⟨by simp, rfl⟩

theorem Pays.cons {coins : List ℕ} (h : Pays S (a - d) coins) (hd : d ∈ S) (hle : d ≤ a) :
    Pays S a (d :: coins) := by
  refine ⟨List.forall_mem_cons.2 ⟨hd, h.mem⟩, ?_⟩
  rw [List.sum_cons, h.sum]
  omega

theorem Pays.mono {T : Set ℕ} {coins : List ℕ} (h : Pays S a coins) (hsub : S ⊆ T) :
    Pays T a coins := ⟨fun c hc => hsub (h.mem c hc), h.sum⟩

/-- Without a coin of one denomination, the rest pays the rest. -/
theorem Pays.erase {coins : List ℕ} (h : Pays S a coins) (hd : d ∈ coins) :
    d ≤ a ∧ Pays S (a - d) (coins.erase d) ∧ (coins.erase d).length + 1 = coins.length := by
  have hperm := List.perm_cons_erase hd
  have hsum := hperm.sum_eq
  rw [h.sum, List.sum_cons] at hsum
  refine ⟨by omega, ⟨fun c hc => h.mem c (List.mem_of_mem_erase hc), by omega⟩, ?_⟩
  exact hperm.length_eq.symm

/-- Coins that are worth something are no more than the amount. -/
theorem Pays.length_le (hpos : 0 ∉ S) : ∀ {coins : List ℕ} {a : ℕ}, Pays S a coins →
    coins.length ≤ a
  | [], _, _ => Nat.zero_le _
  | c :: coins, a, h => by
    have hc : c ≠ 0 := fun hzero => hpos (hzero ▸ h.mem c List.mem_cons_self)
    have hsum := h.sum
    rw [List.sum_cons] at hsum
    have hrest : Pays S (a - c) coins :=
      ⟨fun c hc => h.mem c (List.mem_cons_of_mem _ hc), by omega⟩
    have hle := hrest.length_le hpos
    rw [List.length_cons]
    omega

theorem payable_iff : Payable S a ↔ (counts S a).Nonempty :=
  ⟨fun ⟨coins, h⟩ => ⟨_, coins, h, rfl⟩, fun ⟨_, coins, h, _⟩ => ⟨coins, h⟩⟩

theorem lt_of_mem_counts (hpos : 0 ∉ S) (hcap : a < cap) (h : e ∈ counts S a) : e < cap := by
  obtain ⟨coins, hpays, rfl⟩ := h
  exact (hpays.length_le hpos).trans_lt hcap

theorem fewest_iff (hpos : 0 ∉ S) (hcap : a < cap) :
    Fewest S cap a e ↔ IsLeast (insert cap (counts S a)) e := by
  constructor
  · intro h
    by_cases hpay : Payable S a
    · obtain ⟨hmem, hlow⟩ := h.least hpay
      refine ⟨.inr hmem, fun n hn => ?_⟩
      rcases hn with rfl | hn
      · exact (lt_of_mem_counts hpos hcap hmem).le
      · exact hlow hn
    · obtain rfl := h.marker hpay
      have hempty : counts S a = ∅ := Set.not_nonempty_iff_eq_empty.1 (mt payable_iff.2 hpay)
      rw [hempty]
      exact ⟨.inl rfl, fun n hn => hn.elim (fun heq => heq.ge) fun hn => hn.elim⟩
  · rintro ⟨hmem, hlow⟩
    constructor
    · intro hpay
      obtain ⟨n, hn⟩ := payable_iff.1 hpay
      have hlt := (hlow (.inr hn)).trans_lt (lt_of_mem_counts hpos hcap hn)
      exact ⟨hmem.resolve_left hlt.ne, fun n hn => hlow (.inr hn)⟩
    · exact fun hpay => hmem.resolve_right fun hmem => hpay (payable_iff.2 ⟨e, hmem⟩)

theorem isLeast_zero (S : Set ℕ) (cap : ℕ) : IsLeast (insert cap (counts S 0)) 0 :=
  ⟨.inr ⟨[], pays_nil S, rfl⟩, fun _ _ => Nat.zero_le _⟩

/-- No coins pay nothing. -/
theorem isLeast_empty (cap : ℕ) (ha : a ≠ 0) : IsLeast (insert cap (counts ∅ a)) cap := by
  refine ⟨.inl rfl, fun n hn => ?_⟩
  rcases hn with rfl | ⟨coins, hpays, -⟩
  · exact Nat.le_refl _
  · obtain rfl : coins = [] := List.eq_nil_iff_forall_not_mem.2 fun c hc => hpays.mem c hc
    exact absurd hpays.sum ha.symm

/-- A coin of a new denomination is among the coins, or the others pay the amount. -/
theorem mem_counts_insert {n : ℕ} (h : n ∈ counts (insert d S) a) :
    n ∈ counts S a ∨ d ≤ a ∧ 1 ≤ n ∧ n - 1 ∈ counts (insert d S) (a - d) := by
  obtain ⟨coins, hpays, rfl⟩ := h
  by_cases hd : d ∈ coins
  · obtain ⟨hle, hrest, hlen⟩ := hpays.erase hd
    exact .inr ⟨hle, by omega, _, hrest, by omega⟩
  · exact .inl ⟨coins, ⟨fun c hc => (hpays.mem c hc).resolve_left (ne_of_mem_of_not_mem hc hd),
      hpays.sum⟩, rfl⟩

theorem counts_mono : counts S a ⊆ counts (insert d S) a :=
  fun _ ⟨coins, hpays, hlen⟩ => ⟨coins, hpays.mono (Set.subset_insert d S), hlen⟩

/-- A denomination above the amount does not count. -/
theorem isLeast_insert_of_lt (hlt : a < d) (h : IsLeast (insert cap (counts S a)) p) :
    IsLeast (insert cap (counts (insert d S) a)) p := by
  refine ⟨h.1.imp_right fun hp => counts_mono hp, fun n hn => ?_⟩
  rcases hn with rfl | hn
  · exact h.2 (.inl rfl)
  · rcases mem_counts_insert hn with hn | ⟨hle, -⟩
    · exact h.2 (.inr hn)
    · omega

/-- By one denomination more: the amount is paid without it, or with a coin of it. -/
theorem isLeast_insert (hle : d ≤ a) (hp : IsLeast (insert cap (counts S a)) p)
    (hq : IsLeast (insert cap (counts (insert d S) (a - d))) q) :
    IsLeast (insert cap (counts (insert d S) a)) (min p (q + 1)) := by
  have hcap : p ≤ cap := hp.2 (.inl rfl)
  constructor
  · rcases Nat.le_total p (q + 1) with hmin | hmin
    · rw [min_eq_left hmin]
      exact hp.1.imp_right fun hp => counts_mono hp
    · rw [min_eq_right hmin]
      rcases hq.1 with rfl | ⟨coins, hpays, hlen⟩
      · omega
      · exact .inr ⟨d :: coins, hpays.cons (.inl rfl) hle, by rw [List.length_cons, hlen]⟩
  · rintro n (rfl | hn)
    · exact (min_le_left _ _).trans hcap
    · rcases mem_counts_insert hn with hn | ⟨-, hpos, hn⟩
      · exact (min_le_left _ _).trans (hp.2 (.inr hn))
      · have hle := hq.2 (.inr hn)
        exact (min_le_right _ _).trans (by omega)

/-- Where a new denomination makes a difference, a coin of it is paid. -/
theorem eq_of_ne (hp : IsLeast (insert cap (counts S a)) p)
    (he : IsLeast (insert cap (counts (insert d S) a)) e) (hlt : e < cap) (hne : e ≠ p)
    (hq : IsLeast (insert cap (counts (insert d S) (a - d))) q) : d ≤ a ∧ e = q + 1 := by
  have hpe : p ≤ e → e = p := fun hle =>
    le_antisymm (he.2 (hp.1.imp_right fun hp => counts_mono hp)) hle
  rcases mem_counts_insert (he.1.resolve_left hlt.ne) with hold | ⟨hle, hpos, hrest⟩
  · exact absurd (hpe (hp.2 (.inr hold))) hne
  · have hqe := hq.2 (.inr hrest)
    refine ⟨hle, ?_⟩
    rcases hq.1 with rfl | ⟨coins, hpays, hlen⟩
    · omega
    · have heq := he.2 (.inr ⟨d :: coins, hpays.cons (.inl rfl) hle, rfl⟩)
      rw [List.length_cons, hlen] at heq
      omega

/-- By the coin that is paid first, for the numbers `q` of the amounts that are left. -/
theorem isLeast_of_first {q : ℕ → ℕ} (ha : a ≠ 0)
    (hq : ∀ d ∈ S, d ≤ a → IsLeast (insert cap (counts S (a - d))) (q d))
    (hcap : e ≤ cap) (hlow : ∀ d ∈ S, d ≤ a → e ≤ q d + 1)
    (hmem : e = cap ∨ ∃ d ∈ S, d ≤ a ∧ e = q d + 1) :
    IsLeast (insert cap (counts S a)) e := by
  constructor
  · refine hmem.imp_right ?_
    rintro ⟨d, hd, hle, rfl⟩
    rcases (hq d hd hle).1 with heq | ⟨coins, hpays, hlen⟩
    · omega
    · exact ⟨d :: coins, hpays.cons hd hle, by rw [List.length_cons, hlen]⟩
  · rintro n (rfl | ⟨coins, hpays, rfl⟩)
    · exact hcap
    · rcases coins with _ | ⟨c, coins⟩
      · exact absurd hpays.sum ha.symm
      · have hc := hpays.mem c List.mem_cons_self
        obtain ⟨hle, hrest, hlen⟩ := hpays.erase List.mem_cons_self
        have hqle := (hq c hc hle).2 (.inr ⟨_, hrest, rfl⟩)
        exact (hlow c hc hle).trans (by omega)

end Change
