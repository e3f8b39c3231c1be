import CPPCodes.Lib.Sieve

/-!
# A segment of odd numbers is sieved by odd numbers

`print_prime` of prime2.cpp. Flag `i` is that of the odd number `even_start + 1 + 2 * i`. For an odd
`end` it is `end` that is made even and not `even_end`: the last odd number has no flag, and the
first call of `find_first_odd_divisible` fails its assert. For an even one all is well
(`printPrime_eq_some_iff`).
-/

namespace CPPCodes.Primes

open Sieve

namespace Prime2

/-- The numbers that the loop passes over. -/
def skipped (s : ℕ) : Bool :=
  (s != 3 && s % 3 == 0) || (s != 5 && s % 5 == 0) || (s != 7 && s % 7 == 0)

/-- `find_first_odd_divisible`; `none` if an assert fails. -/
def findFirstOddDivisible (start end_ divby : ℕ) : Option ℕ :=
  if start % 2 = 0 ∧ end_ % 2 = 0 then findFirst 2 end_ divby (end_ + 2) (start + 1) else none

/-- The loop of `print_prime`, where `e` is the square root of `even_end`. -/
def sieveLoop (even_start even_end end_ e : ℕ) : ℕ → ℕ → List Bool → Option (List Bool)
  | 0, _, _ => none
  | fuel + 1, s, notprimes =>
    if s ≤ e then
      if skipped s then sieveLoop even_start even_end end_ e fuel (s + 2) notprimes
      else do
        let first ← findFirstOddDivisible even_start even_end s
        if first > end_ then sieveLoop even_start even_end end_ e fuel (s + 2) notprimes
        else
          let notprimes ← markLoop true (some s) (end_ + 1) s (s + s) (end_ + 2) notprimes
            ((first - even_start) / 2) first
          sieveLoop even_start even_end end_ e fuel (s + 2) notprimes
    else some notprimes

def evenStart (start : ℕ) : ℕ := if start % 2 ≠ 0 then start - 1 else start

/-- `print_prime`: what it prints. -/
def printPrime (start end_ : ℕ) : Option (List ℕ) := do
  let even_start := evenStart start
  let even_end := end_
  let end_ := if even_end % 2 ≠ 0 then end_ + 1 else end_
  let nelements := (even_end - even_start) / 2
  let e := Nat.sqrt even_end
  let notprimes ← sieveLoop even_start even_end end_ e (e + 1) 3 (List.replicate nelements false)
  let odds := listed (fun e first => !e && first != 1) 2 notprimes (even_start + 1)
  return if start ≤ 2 then 2 :: odds else odds

theorem not_skipped {q : ℕ} (hq : q.Prime) : skipped q = false := by
  unfold skipped
  rw [not_multiple Nat.prime_three hq, not_multiple Nat.prime_five hq,
    not_multiple Nat.prime_seven hq]
  rfl

/-- Flag `i` is marked by a proper divisor of its number. -/
def Hit (even_start d i : ℕ) : Prop := d ∣ even_start + 1 + 2 * i ∧ even_start + 1 + 2 * i ≠ d

/-- What is marked in front of the turn for `s`. -/
def Struck (even_start s i : ℕ) : Prop :=
  ∃ d, 3 ≤ d ∧ d < s ∧ d % 2 = 1 ∧ skipped d = false ∧ Hit even_start d i

variable {even_start end_ s n : ℕ} {P : ℕ → Prop} {v : List Bool}

theorem struck_succ (hs : 3 ≤ s) (hodd : s % 2 = 1) {i : ℕ} : Struck even_start (s + 2) i ↔
    Struck even_start s i ∨ skipped s = false ∧ Hit even_start s i := by
  constructor
  · rintro ⟨d, hd, hlt, hdodd, hhit⟩
    by_cases hds : d = s
    · exact .inr (hds ▸ hhit)
    · exact .inl ⟨d, hd, by omega, hdodd, hhit⟩
  · rintro (⟨d, hd, hlt, hdodd, hhit⟩ | hhit)
    · exact ⟨d, hd, by omega, hdodd, hhit⟩
    · exact ⟨s, hs, by omega, hodd, hhit⟩

/-- Bounds that are even: the flags are those of the odd numbers between them. -/
structure Segment (even_start end_ : ℕ) : Prop where
  start : even_start % 2 = 0
  stop : end_ % 2 = 0
  le : even_start ≤ end_

theorem Segment.exists_first (h : Segment even_start end_) (s : ℕ) :
    ∃ r, findFirstOddDivisible even_start end_ s = some r ∧
      First 2 end_ s (even_start + 1) r := by
  obtain ⟨r, hrun, hfirst⟩ := findFirst_spec Nat.two_pos end_ s (end_ + 2)
    (by omega : end_ + 1 - (even_start + 1) < end_ + 2)
  exact ⟨r, (if_pos ⟨h.start, h.stop⟩).trans hrun, hfirst⟩

/-- From the first multiple on, every other multiple of an odd number is odd. -/
theorem Segment.exists_marked (h : Segment even_start end_) (hodd : s % 2 = 1)
    (hv : Marks true ((end_ - even_start) / 2) P v) {r : ℕ}
    (hfirst : First 2 end_ s (even_start + 1) r) (hr : r ≤ end_) :
    ∃ v', markLoop true (some s) (end_ + 1) s (s + s) (end_ + 2) v ((r - even_start) / 2) r =
        some v' ∧
      Marks true ((end_ - even_start) / 2) (fun i => P i ∨ Hit even_start s i) v' := by
  have hstart := h.start
  have hstop := h.stop
  have hmarked := hfirst.exists_marked (Nat.lt_succ_of_le hr) le_rfl Nat.two_pos (by omega)
    (Nat.coprime_two_right.2 (Nat.odd_iff.2 hodd)) (fun i => by omega) hv
    (Nat.lt_succ_self (end_ + 1))
  obtain ⟨-, -, k, rfl⟩ := hfirst.found.resolve_left (by omega)
  have hindex : (even_start + 1 + k * 2 - (even_start + 1)) / 2 =
      (even_start + 1 + k * 2 - even_start) / 2 := by omega
  rw [hindex, Nat.two_mul] at hmarked
  exact hmarked

theorem sieveLoop_spec (h : Segment even_start end_) {e : ℕ} : ∀ (fuel s : ℕ) {v : List Bool},
    3 ≤ s → s % 2 = 1 → e + 1 - s < fuel →
    Marks true ((end_ - even_start) / 2) (Struck even_start s) v →
    ∃ v' s', sieveLoop even_start end_ end_ e fuel s v = some v' ∧ e < s' ∧
      Marks true ((end_ - even_start) / 2) (Struck even_start s') v'
  | 0, _, _, _, _, hfuel, _ => absurd hfuel (Nat.not_lt_zero _)
  | fuel + 1, s, v, hs, hodd, hfuel, hv => by
    unfold sieveLoop
    by_cases hse : s ≤ e
    · rw [if_pos hse]
      have hnext : ∀ {v' : List Bool}, Marks true ((end_ - even_start) / 2)
          (Struck even_start (s + 2)) v' →
          ∃ v'' s', sieveLoop even_start end_ end_ e fuel (s + 2) v' = some v'' ∧ e < s' ∧
            Marks true ((end_ - even_start) / 2) (Struck even_start s') v'' := fun hv' =>
        sieveLoop_spec h fuel (s + 2) (by omega) (by omega) (by omega) hv'
      by_cases hskipped : skipped s
      · rw [if_pos hskipped]
        refine hnext (hv.congr fun i _ => ?_)
        rw [struck_succ hs hodd]
        simp [hskipped]
      · rw [if_neg hskipped]
        obtain ⟨r, hfind, hfirst⟩ := h.exists_first s
        simp only [hfind, Option.bind_eq_bind, Option.bind_some]
        by_cases hr : r > end_
        · rw [if_pos hr]
          refine hnext (hv.congr fun i hi => ?_)
          have hmiss : ¬ Hit even_start s i := fun hhit => by
            have hle := hfirst.le i (by omega) (by rw [Nat.mul_comm]; exact hhit.1)
            omega
          rw [struck_succ hs hodd]
          simp [hmiss]
        · rw [if_neg hr]
          obtain ⟨v₁, hmark, hv₁⟩ := h.exists_marked hodd hv hfirst (by omega)
          rw [hmark, Option.bind_some]
          refine hnext (hv₁.congr fun i _ => ?_)
          rw [struck_succ hs hodd]
          simp [hskipped]
    · rw [if_neg hse]
      exact ⟨v, s, rfl, by omega, hv⟩

/-- Of the odd numbers from 3 on, those without a mark are the primes. -/
theorem struck_iff {e i : ℕ} (heven : even_start % 2 = 0) (hone : even_start + 1 + 2 * i ≠ 1)
    (hend : even_start + 1 + 2 * i ≤ end_) (he : Nat.sqrt end_ < e) :
    Struck even_start e i ↔ ¬ (even_start + 1 + 2 * i).Prime := by
  constructor
  · rintro ⟨d, hd, -, -, -, hdvd, hne⟩ hprime
    rcases (Nat.dvd_prime hprime).1 hdvd with rfl | heq
    · omega
    · exact hne heq.symm
  · intro hprime
    obtain ⟨q, hq, hdvd, hsq, hdouble⟩ := exists_prime_divisor (by omega) hprime
    have hle : q ≤ Nat.sqrt end_ := Nat.le_sqrt.2 (by omega)
    have hodd : q % 2 = 1 := by
      by_contra heven'
      have htwo : 2 ∣ even_start + 1 + 2 * i :=
        (Nat.dvd_of_mod_eq_zero (by omega : q % 2 = 0)).trans hdvd
      have hmod := Nat.mod_eq_zero_of_dvd htwo
      omega
    have htwo := hq.two_le
    exact ⟨q, by omega, by omega, hodd, not_skipped hq, hdvd, by omega⟩

theorem evenStart_spec {start : ℕ} (hstart : 1 ≤ start) :
    evenStart start % 2 = 0 ∧ evenStart start ≤ start ∧ start ≤ evenStart start + 1 := by
  unfold evenStart
  split <;> omega

/-- The odd numbers without a mark, when the loop is at an end. -/
theorem Segment.mem_odds (h : Segment even_start end_) {start e x : ℕ} (hle : start ≤ end_)
    (hbefore : even_start ≤ start) (hafter : start ≤ even_start + 1) (he : Nat.sqrt end_ < e)
    (hv : Marks true ((end_ - even_start) / 2) (Struck even_start e) v) :
    x ∈ listed (fun e first => !e && first != 1) 2 v (even_start + 1) ↔
      start ≤ x ∧ x ≤ end_ ∧ x ≠ 2 ∧ x.Prime := by
  have hstart := h.start
  have hstop := h.stop
  rw [hv.mem_listed fun _ => rfl]
  constructor
  · rintro ⟨i, hi, hx, hmark, hprint⟩
    rw [Nat.mul_comm] at hx
    simp only [Bool.not_true, Bool.not_false, Bool.true_and, bne_iff_ne] at hprint
    rw [struck_iff hstart (hx ▸ hprint) (by omega) he, not_not, ← hx] at hmark
    exact ⟨by omega, by omega, by omega, hmark⟩
  · rintro ⟨hxstart, hxend, hxtwo, hprime⟩
    have hxodd := hprime.eq_two_or_odd.resolve_left hxtwo
    have htwo := hprime.two_le
    have hsum : even_start + 1 + 2 * ((x - even_start - 1) / 2) = x := by omega
    refine ⟨(x - even_start - 1) / 2, by omega, by rw [Nat.mul_comm, hsum], ?_, ?_⟩
    · rw [struck_iff hstart (by omega) (by omega) he, not_not, hsum]
      exact hprime
    · simp only [Bool.not_true, Bool.not_false, Bool.true_and, bne_iff_ne]
      omega

/-- The odd primes are all of them, with 2 in front where the start is not greater. -/
theorem eq_primesIn_of_odds {start : ℕ} {odds : List ℕ} (hend : 2 ≤ end_)
    (hsorted : odds.Pairwise (· < ·))
    (hodds : ∀ x, x ∈ odds ↔ start ≤ x ∧ x ≤ end_ ∧ x ≠ 2 ∧ x.Prime) :
    (if start ≤ 2 then 2 :: odds else odds) = primesIn start end_ := by
  refine eq_primesIn ?_ fun x => ?_
  · split
    · refine List.pairwise_cons.2 ⟨fun x hx => ?_, hsorted⟩
      obtain ⟨-, -, hne, hprime⟩ := (hodds x).1 hx
      exact Nat.lt_of_le_of_ne hprime.two_le hne.symm
    · exact hsorted
  · split
    · rw [List.mem_cons, hodds]
      constructor
      · rintro (rfl | ⟨hxstart, hxend, -, hprime⟩)
        · exact ⟨by omega, hend, Nat.prime_two⟩
        · exact ⟨hxstart, hxend, hprime⟩
      · rintro ⟨hxstart, hxend, hprime⟩
        by_cases hxtwo : x = 2
        · exact .inl hxtwo
        · exact .inr ⟨hxstart, hxend, hxtwo, hprime⟩
    · rw [hodds]
      constructor
      · rintro ⟨hxstart, hxend, -, hprime⟩
        exact ⟨hxstart, hxend, hprime⟩
      · rintro ⟨hxstart, hxend, hprime⟩
        exact ⟨hxstart, hxend, by omega, hprime⟩

theorem printPrime_of_even {start end_ : ℕ} (hstart : 1 ≤ start) (hle : start ≤ end_)
    (heven : end_ % 2 = 0) : printPrime start end_ = some (primesIn start end_) := by
  obtain ⟨hstart₂, hbefore, hafter⟩ := evenStart_spec hstart
  have hend : (if end_ % 2 ≠ 0 then end_ + 1 else end_) = end_ := if_neg (by omega)
  unfold printPrime
  simp only [hend]
  generalize evenStart start = even_start at *
  have hsegment : Segment even_start end_ := ⟨hstart₂, heven, by omega⟩
  have hv₀ : Marks true ((end_ - even_start) / 2) (Struck even_start 3)
      (List.replicate ((end_ - even_start) / 2) false) := by
    refine (marks_replicate true _).congr fun i _ => ⟨False.elim, ?_⟩
    rintro ⟨d, hd, hlt, -⟩
    omega
  obtain ⟨v, e, hrun, he, hv⟩ := sieveLoop_spec hsegment (Nat.sqrt end_ + 1) 3 (Nat.le_refl 3) rfl
    (by omega : Nat.sqrt end_ + 1 - 3 < Nat.sqrt end_ + 1) hv₀
  simp only [hrun, Option.bind_eq_bind, Option.bind_some]
  exact congrArg some (eq_primesIn_of_odds (by omega) (listed_pairwise Nat.two_pos _ _)
    fun x => hsegment.mem_odds hle hbefore hafter he hv)

/-- From 9 on the first turn fails an assert. -/
theorem printPrime_none {start end_ : ℕ} (hodd : end_ % 2 = 1) (hend : 9 ≤ end_) :
    printPrime start end_ = none := by
  have hsqrt : 3 ≤ Nat.sqrt end_ := Nat.le_sqrt.2 hend
  unfold printPrime
  simp only
  have hloop : ∀ even_start end_' fuel v,
      sieveLoop even_start end_ end_' (Nat.sqrt end_) (fuel + 1) 3 v = none := by
    intro even_start end_' fuel v
    have hfind : findFirstOddDivisible even_start end_ 3 = none := if_neg (by omega)
    unfold sieveLoop
    rw [if_pos hsqrt, if_neg (by decide), hfind]
    rfl
  rw [hloop]
  rfl

/-- Below there is no flag for the end, or it is 1 and 2 is printed. -/
theorem printPrime_ne {start end_ : ℕ} (hstart : 1 ≤ start) (hle : start ≤ end_)
    (hodd : end_ % 2 = 1) (hend : end_ < 9) :
    printPrime start end_ ≠ some (primesIn start end_) := by
  intro hprint
  obtain ⟨-, hbefore, -⟩ := evenStart_spec hstart
  have hsqrt : ¬ 3 ≤ Nat.sqrt end_ := by
    rw [Nat.le_sqrt]
    omega
  have hloop : ∀ even_start end_' fuel v,
      sieveLoop even_start end_ end_' (Nat.sqrt end_) (fuel + 1) 3 v = some v :=
    fun _ _ _ _ => if_neg hsqrt
  unfold printPrime at hprint
  simp only [hloop, Option.bind_eq_bind, Option.bind_some] at hprint
  generalize evenStart start = even_start at *
  have hout := Option.some_inj.1 hprint
  have hodds : ∀ x, x ∈ listed (fun e first => !e && first != 1) 2
      (List.replicate ((end_ - even_start) / 2) false) (even_start + 1) → x ≠ end_ := fun x hx => by
    obtain ⟨i, hi, hx, -, -⟩ := ((marks_replicate true _).mem_listed fun _ => rfl).1 hx
    omega
  by_cases hone : end_ = 1
  · subst hone
    have hmem : 2 ∈ primesIn start 1 := by
      rw [← hout, if_pos (by omega)]
      exact List.mem_cons_self
    exact absurd (mem_primesIn.1 hmem).2.1 (by decide)
  · have hprime : end_.Prime := by
      obtain rfl | rfl | rfl : end_ = 3 ∨ end_ = 5 ∨ end_ = 7 := by omega
      · exact Nat.prime_three
      · exact Nat.prime_five
      · exact Nat.prime_seven
    have hmem : end_ ∈ primesIn start end_ := mem_primesIn.2 ⟨hle, Nat.le_refl _, hprime⟩
    rw [← hout] at hmem
    split at hmem
    · rcases List.mem_cons.1 hmem with heq | hmem
      · omega
      · exact hodds _ hmem rfl
    · exact hodds _ hmem rfl

/-- The primes are printed if and only if the end is even. -/
theorem printPrime_eq_some_iff {start end_ : ℕ} (hstart : 1 ≤ start) (hle : start ≤ end_) :
    printPrime start end_ = some (primesIn start end_) ↔ end_ % 2 = 0 := by
  constructor
  · intro hprint
    by_contra heven
    by_cases hend : 9 ≤ end_
    · rw [printPrime_none (by omega) hend] at hprint
      exact absurd hprint nofun
    · exact printPrime_ne hstart hle (by omega) (by omega) hprint
  · exact printPrime_of_even hstart hle

end Prime2

end CPPCodes.Primes
