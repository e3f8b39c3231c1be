import CPPCodes.Lib.Loop
import CPPCodes.Lib.Sieve

/-!
# A segment is sieved by the primes up to the square root

`compute_all_primes` and `print_prime` of prime1.cpp; square roots are exact, so `prime > sq` says
that the square of the prime is greater. Flag `i` is that of `even_start + i`, and there is one for
each number below `even_end`. If `end` is odd that is all of them (`sieveLoop_spec`). If it is even
there is none for `end` itself, and the multiples of two come up to it (`printPrime_none`).
-/

namespace CPPCodes.Primes

open Sieve

/-- The limits of the problem. -/
structure Limits (start end_ : ℕ) : Prop where
  pos : 1 ≤ start
  le : start ≤ end_
  end_le : end_ ≤ 1000000000
  length : end_ - start ≤ 100000

namespace Prime1

/-- The numbers whose multiples `compute_all_primes` passes over. -/
def skipped (s : ℕ) : Bool :=
  (s != 2 && s % 2 == 0) || (s != 3 && s % 3 == 0) || (s != 5 && s % 5 == 0) ||
    (s != 7 && s % 7 == 0)

/-- `compute_all_primes`: what it leaves in an empty `result`. -/
def computeAllPrimes (max : ℕ) : Option (List ℕ) := do
  let e := Nat.sqrt max + 1
  let primes := List.replicate e true
  let primes ← write primes 0 false
  let primes ← write primes 1 false
  let primes ← (List.range' 2 (e - 2)).foldlM (fun primes s =>
    if skipped s then some primes
    else markLoop false none primes.length s s (primes.length + 1) primes (s + s) (s + s)) primes
  return listed (fun flag _ => flag) 1 primes 0

/-- `find_first_odd_divisible`; `none` if an assert fails. -/
def findFirstOddDivisible (start end_ divby : ℕ) : Option ℕ :=
  if start % 2 = 0 ∧ end_ % 2 = 0 then findFirst 1 end_ divby (end_ + 2) start else none

def evenStart (start : ℕ) : ℕ := if start % 2 ≠ 0 then start - 1 else start

def evenEnd (end_ : ℕ) : ℕ := if end_ % 2 ≠ 0 then end_ + 1 else end_

/-- The loop of `print_prime` over the basic primes. -/
def sieveLoop (even_start even_end end_ : ℕ) : List ℕ → List Bool → Option (List Bool)
  | [], primes => some primes
  | prime :: basic_primes, primes =>
    if prime * prime > even_end then some primes
    else do
      let cur ← findFirstOddDivisible even_start even_end prime
      if cur > end_ then sieveLoop even_start even_end end_ basic_primes primes
      else
        let primes ← markLoop false (some prime) (end_ + 1) prime prime (end_ + 2) primes
          (cur - even_start) cur
        sieveLoop even_start even_end end_ basic_primes primes

/-- `print_prime`: what it prints. -/
def printPrime (basic_primes : List ℕ) (start end_ : ℕ) : Option (List ℕ) := do
  let primes := List.replicate (evenEnd end_ - evenStart start) true
  let primes ← sieveLoop (evenStart start) (evenEnd end_) end_ basic_primes primes
  return listed (fun flag cur => flag && cur != 1 && decide (cur ≥ start) && decide (cur ≤ end_)) 1
    primes (evenStart start)

theorem not_skipped {q : ℕ} (hq : q.Prime) : skipped q = false := by
  unfold skipped
  rw [not_multiple Nat.prime_two hq, not_multiple Nat.prime_three hq,
    not_multiple Nat.prime_five hq, not_multiple Nat.prime_seven hq]
  rfl

/-- What is marked in front of the turn for `s`. -/
def Struck (s j : ℕ) : Prop :=
  j < 2 ∨ ∃ d, 2 ≤ d ∧ d < s ∧ skipped d = false ∧ d ∣ j ∧ d + d ≤ j

theorem struck_iff {e j : ℕ} (hj : j < e) : Struck e j ↔ ¬ j.Prime := by
  constructor
  · rintro (hlt | ⟨d, hd, -, -, hdvd, hle⟩) hprime
    · exact absurd hprime.two_le (by omega)
    · rcases (Nat.dvd_prime hprime).1 hdvd with rfl | rfl
      · omega
      · omega
  · intro hprime
    by_cases hlt : j < 2
    · exact .inl hlt
    · obtain ⟨q, hq, hdvd, -, hle⟩ := exists_prime_divisor (by omega) hprime
      have htwo := hq.two_le
      exact .inr ⟨q, htwo, by omega, not_skipped hq, hdvd, hle⟩

theorem struck_two {j : ℕ} : Struck 2 j ↔ (False ∨ j = 0) ∨ j = 1 := by
  unfold Struck
  constructor
  · rintro (hlt | ⟨d, hd, hlt, -⟩)
    · rw [false_or]
      omega
    · omega
  · rw [false_or]
    exact fun h => .inl (by omega)

/-- The turn for `s` marks its multiples, unless it is passed over. -/
theorem struck_succ {s j : ℕ} (hs : 2 ≤ s) : Struck (s + 1) j ↔
    Struck s j ∨ skipped s = false ∧ s ∣ j ∧ s + s ≤ j := by
  unfold Struck
  constructor
  · rintro (hlt | ⟨d, hd, hds, hdiv⟩)
    · exact .inl (.inl hlt)
    · rcases Nat.lt_succ_iff_lt_or_eq.1 hds with hds | rfl
      · exact .inl (.inr ⟨d, hd, hds, hdiv⟩)
      · exact .inr hdiv
  · rintro ((hlt | ⟨d, hd, hds, hdiv⟩) | hdiv)
    · exact .inl hlt
    · exact .inr ⟨d, hd, by omega, hdiv⟩
    · exact .inr ⟨s, hs, Nat.lt_succ_self s, hdiv⟩

theorem exists_start {root : ℕ} (hroot : 1 ≤ root) :
    ∃ v₀ v₁, write (List.replicate (root + 1) true) 0 false = some v₀ ∧
      write v₀ 1 false = some v₁ ∧ Marks false (root + 1) (Struck 2) v₁ := by
  obtain ⟨v₀, hwrite₀, h₀⟩ := (marks_replicate false (root + 1)).write (by omega : 0 < root + 1)
  obtain ⟨v₁, hwrite₁, h₁⟩ := h₀.write (by omega : 1 < root + 1)
  exact ⟨v₀, v₁, hwrite₀, hwrite₁, h₁.congr fun j _ => struck_two.symm⟩

theorem struck_skip {e s : ℕ} {v : List Bool} (hs : 2 ≤ s) (hskipped : skipped s = true)
    (h : Marks false e (Struck s) v) : Marks false e (Struck (s + 1)) v :=
  h.congr fun j _ => by rw [struck_succ hs]; simp [hskipped]

theorem exists_struck_mark {e s : ℕ} {v : List Bool} (hs : 2 ≤ s) (hskipped : ¬ skipped s = true)
    (h : Marks false e (Struck s) v) :
    ∃ v', markLoop false none e s s (e + 1) v (s + s) (s + s) = some v' ∧
      Marks false e (Struck (s + 1)) v' := by
  obtain ⟨v', hrun, h'⟩ := h.multiples (by omega : 0 < s) (Nat.lt_succ_self e)
  refine ⟨v', hrun, h'.congr fun j _ => ?_⟩
  rw [struck_succ hs]
  simp [hskipped]

/-- Behind the last turn the primes are listed. -/
theorem listed_struck {root : ℕ} {v : List Bool}
    (h : Marks false (root + 1) (Struck (root + 1)) v) :
    listed (fun flag _ => flag) 1 v 0 = primesIn 0 root := by
  refine eq_primesIn (listed_pairwise Nat.one_pos _ _) fun x => ?_
  rw [h.mem_listed fun _ => rfl]
  constructor
  · rintro ⟨i, hi, rfl, hstruck, -⟩
    rw [struck_iff hi, not_not] at hstruck
    rw [Nat.zero_add, Nat.mul_one]
    exact ⟨Nat.zero_le _, by omega, hstruck⟩
  · rintro ⟨-, hx, hprime⟩
    refine ⟨x, by omega, by rw [Nat.zero_add, Nat.mul_one], ?_, rfl⟩
    rw [struck_iff (by omega), not_not]
    exact hprime

theorem computeAllPrimes_eq {max : ℕ} (hmax : 1 ≤ max) :
    computeAllPrimes max = some (primesIn 0 (Nat.sqrt max)) := by
  have hsqrt : 1 ≤ Nat.sqrt max := Nat.le_sqrt.2 hmax
  unfold computeAllPrimes
  generalize Nat.sqrt max = root at *
  obtain ⟨v₀, v₁, hwrite₀, hwrite₁, hstart⟩ := exists_start hsqrt
  obtain ⟨v, hloop, hmarks⟩ := Loop.exists_foldlM_range' (n := root + 1 - 2)
    (P := fun s v => Marks false (root + 1) (Struck s) v) (f := fun primes s =>
      if skipped s then some primes
      else markLoop false none primes.length s s (primes.length + 1) primes (s + s) (s + s))
    hstart fun s hs hlt v hv => by
      by_cases hskipped : skipped s
      · exact ⟨v, if_pos hskipped, struck_skip hs hskipped hv⟩
      · obtain ⟨v', hrun, hv'⟩ := exists_struck_mark hs hskipped hv
        exact ⟨v', (if_neg hskipped).trans (by rw [hv.length, hrun]), hv'⟩
  have hend : 2 + (root + 1 - 2) = root + 1 := by omega
  simp only [hwrite₀, hwrite₁, hloop, Option.bind_eq_bind, Option.bind_some]
  rw [hend] at hmarks
  exact congrArg some (listed_struck hmarks)

/-- Flag `i` is marked by a prime that is a proper divisor of `even_start + i`. -/
def Hit (even_start prime i : ℕ) : Prop := prime ∣ even_start + i ∧ even_start + i ≠ prime

/-- The numbers of a segment from an even start up to an odd end. -/
structure Segment (even_start end_ : ℕ) : Prop where
  even : even_start % 2 = 0
  odd : end_ % 2 = 1
  le : even_start ≤ end_

variable {even_start end_ prime : ℕ} {P : ℕ → Prop} {v : List Bool}

theorem Segment.exists_first (h : Segment even_start end_) (prime : ℕ) :
    ∃ r, findFirstOddDivisible even_start (end_ + 1) prime = some r ∧
      First 1 (end_ + 1) prime even_start r := by
  obtain ⟨r, hrun, hfirst⟩ := findFirst_spec Nat.one_pos (end_ + 1) prime (end_ + 1 + 2)
    (by omega : end_ + 1 + 1 - even_start < end_ + 1 + 2)
  refine ⟨r, ?_, hfirst⟩
  unfold findFirstOddDivisible
  rw [if_pos ⟨h.even, by have hodd := h.odd; omega⟩, hrun]

/-- From the first multiple on, the multiples of the segment are marked. -/
theorem exists_marked (hprime : 0 < prime) (hv : Marks false (end_ + 1 - even_start) P v) {r : ℕ}
    (hfirst : First 1 (end_ + 1) prime even_start r) (hr : r ≤ end_) :
    ∃ v', markLoop false (some prime) (end_ + 1) prime prime (end_ + 2) v (r - even_start) r =
        some v' ∧
      Marks false (end_ + 1 - even_start) (fun i => P i ∨ Hit even_start prime i) v' := by
  have hmarked := hfirst.exists_marked (Nat.lt_succ_of_le hr) (Nat.le_succ _) Nat.one_pos hprime
    (Nat.coprime_one_right prime) (fun i => by omega) hv (Nat.lt_succ_self (end_ + 1))
  simp only [Nat.one_mul, Nat.div_one] at hmarked
  exact hmarked

theorem sieveLoop_spec (h : Segment even_start end_) : ∀ {basic_primes : List ℕ} {P : ℕ → Prop}
    {v : List Bool}, (∀ prime ∈ basic_primes, 0 < prime) →
    Marks false (end_ + 1 - even_start) P v →
    ∃ v', sieveLoop even_start (end_ + 1) end_ basic_primes v = some v' ∧
      Marks false (end_ + 1 - even_start) (fun i => P i ∨
        ∃ prime ∈ basic_primes.takeWhile (fun prime => decide (prime * prime ≤ end_ + 1)),
          Hit even_start prime i) v'
  | [], P, v, _, hv => ⟨v, rfl, hv.congr fun i _ => by simp⟩
  | prime :: basic_primes, P, v, hpos, hv => by
    obtain ⟨hprime, hpos⟩ := List.forall_mem_cons.1 hpos
    unfold sieveLoop
    by_cases hsq : prime * prime > end_ + 1
    · rw [if_pos hsq, List.takeWhile_cons_of_neg (by simpa using hsq)]
      exact ⟨v, rfl, hv.congr fun i _ => by simp⟩
    · rw [if_neg hsq, List.takeWhile_cons_of_pos (by simpa using hsq)]
      obtain ⟨r, hfind, hfirst⟩ := h.exists_first prime
      simp only [hfind, Option.bind_eq_bind, Option.bind_some]
      by_cases hr : r > end_
      · rw [if_pos hr]
        obtain ⟨v', hrun, hv'⟩ := sieveLoop_spec h hpos hv
        refine ⟨v', hrun, hv'.congr fun i hi => ?_⟩
        have hmiss : ¬ Hit even_start prime i := fun hhit => by
          have hle := hfirst.le i (by omega) (by rw [Nat.mul_one]; exact hhit.1)
          omega
        simp [hmiss]
      · rw [if_neg hr]
        obtain ⟨v₁, hmark, hv₁⟩ := exists_marked hprime hv hfirst (by omega)
        obtain ⟨v', hrun, hv'⟩ := sieveLoop_spec h hpos hv₁
        refine ⟨v', by rw [hmark, Option.bind_some, hrun], hv'.congr fun i _ => ?_⟩
        simp [or_assoc]

theorem evenStart_spec {start : ℕ} (hstart : 1 ≤ start) :
    evenStart start % 2 = 0 ∧ evenStart start ≤ start ∧ start ≤ evenStart start + 1 := by
  unfold evenStart
  split <;> omega

theorem evenEnd_of_odd {end_ : ℕ} (h : end_ % 2 = 1) : evenEnd end_ = end_ + 1 :=
  if_pos (by omega)

theorem evenEnd_of_even {end_ : ℕ} (h : end_ % 2 = 0) : evenEnd end_ = end_ :=
  if_neg (by omega)

/-- The numbers without a mark, when the basic primes have had their turns. -/
theorem mem_printed {start root x : ℕ} (hstart : 1 ≤ start) (hbefore : even_start ≤ start)
    (hroot : Nat.sqrt end_ ≤ root)
    (hv : Marks false (end_ + 1 - even_start) (fun i => False ∨
      ∃ prime ∈ (primesIn 0 root).takeWhile (fun prime => decide (prime * prime ≤ end_ + 1)),
        Hit even_start prime i) v) :
    x ∈ listed (fun flag cur => flag && cur != 1 && decide (cur ≥ start) && decide (cur ≤ end_)) 1
        v even_start ↔
      start ≤ x ∧ x ≤ end_ ∧ x.Prime := by
  rw [hv.mem_listed fun _ => rfl]
  constructor
  · rintro ⟨i, hi, hx, hmark, hprint⟩
    rw [Nat.mul_one] at hx
    simp only [Bool.not_false, Bool.true_and, Bool.and_eq_true, bne_iff_ne, decide_eq_true_eq]
      at hprint
    refine ⟨hprint.1.2, hprint.2, ?_⟩
    by_contra hprime
    obtain ⟨q, hq, hdvd, hsq, hdouble⟩ := exists_prime_divisor (by omega) hprime
    have hsqrt : q ≤ Nat.sqrt end_ := Nat.le_sqrt.2 (hsq.trans hprint.2)
    refine hmark (.inr ⟨q, mem_takeWhile ?_ (primesIn_pairwise 0 _) ?_ ?_, ?_⟩)
    · intro a b hab hb
      have hle := Nat.mul_le_mul hab.le hab.le
      rw [decide_eq_true_eq] at hb ⊢
      omega
    · exact mem_primesIn.2 ⟨Nat.zero_le q, hsqrt.trans hroot, hq⟩
    · exact decide_eq_true (by omega)
    · have hpos := hq.pos
      exact ⟨hx ▸ hdvd, by omega⟩
  · rintro ⟨hxstart, hxend, hprime⟩
    have htwo := hprime.two_le
    have hsum : even_start + (x - even_start) = x := by omega
    refine ⟨x - even_start, by omega, by rw [Nat.mul_one, hsum], ?_, ?_⟩
    · rintro (hfalse | ⟨q, hq, hhit⟩)
      · exact hfalse
      · rw [Hit, hsum] at hhit
        have hqprime := (mem_primesIn.1 ((List.takeWhile_sublist _).subset hq)).2.2
        exact hhit.2 ((Nat.prime_dvd_prime_iff_eq hqprime hprime).1 hhit.1).symm
    · simp only [Bool.not_false, Bool.true_and, Bool.and_eq_true, bne_iff_ne, decide_eq_true_eq]
      exact ⟨⟨by omega, hxstart⟩, hxend⟩

theorem printPrime_of_odd {start end_ max : ℕ} (hstart : 1 ≤ start) (hle : start ≤ end_)
    (hmax : end_ ≤ max) (hodd : end_ % 2 = 1) :
    printPrime (primesIn 0 (Nat.sqrt max)) start end_ = some (primesIn start end_) := by
  obtain ⟨heven, hbefore, hafter⟩ := evenStart_spec hstart
  unfold printPrime
  rw [evenEnd_of_odd hodd]
  generalize evenStart start = even_start at *
  have hsegment : Segment even_start end_ := ⟨heven, hodd, by omega⟩
  have hpos : ∀ prime ∈ primesIn 0 (Nat.sqrt max), 0 < prime := fun prime hprime =>
    (mem_primesIn.1 hprime).2.2.pos
  obtain ⟨v, hrun, hv⟩ := sieveLoop_spec hsegment hpos
    (marks_replicate false (end_ + 1 - even_start))
  have hloop : sieveLoop even_start (end_ + 1) end_ (primesIn 0 (Nat.sqrt max))
      (List.replicate (end_ + 1 - even_start) true) = some v := hrun
  simp only [hloop, Option.bind_eq_bind, Option.bind_some]
  exact congrArg some (eq_primesIn (listed_pairwise Nat.one_pos _ _) fun x =>
    mem_printed hstart hbefore (Nat.sqrt_le_sqrt hmax) hv)

/-- The primes up to a number from 2 on begin with 2. -/
theorem primesIn_eq_cons {max : ℕ} (h : 2 ≤ max) : ∃ rest, primesIn 0 max = 2 :: rest := by
  have hmem : 2 ∈ primesIn 0 max := mem_primesIn.2 ⟨Nat.zero_le 2, h, Nat.prime_two⟩
  have hsorted := primesIn_pairwise 0 max
  cases hprimes : primesIn 0 max with
  | nil =>
    rw [hprimes] at hmem
    exact absurd hmem List.not_mem_nil
  | cons q rest =>
    have hq : q.Prime := (mem_primesIn.1 (hprimes ▸ List.mem_cons_self : q ∈ primesIn 0 max)).2.2
    rw [hprimes] at hmem hsorted
    rcases List.mem_cons.1 hmem with rfl | hmem
    · exact ⟨rest, rfl⟩
    · have hlt := List.rel_of_pairwise_cons hsorted hmem
      exact absurd hq.two_le (by omega)

/-- The multiples of two reach `end`, for which there is no flag. -/
theorem printPrime_none {start end_ max : ℕ} (hstart : 1 ≤ start) (hle : start ≤ end_)
    (hmax : end_ ≤ max) (heven : end_ % 2 = 0) (hend : 4 ≤ end_) :
    printPrime (primesIn 0 (Nat.sqrt max)) start end_ = none := by
  obtain ⟨hstart₂, hbefore, -⟩ := evenStart_spec hstart
  obtain ⟨rest, hrest⟩ := primesIn_eq_cons (Nat.le_sqrt.2 (by omega) : 2 ≤ Nat.sqrt max)
  unfold printPrime
  rw [evenEnd_of_even heven, hrest]
  generalize evenStart start = even_start at *
  obtain ⟨r, hrun, hfirst⟩ := findFirst_spec Nat.one_pos end_ 2 (end_ + 2)
    (by omega : end_ + 1 - even_start < end_ + 2)
  have hfind : findFirstOddDivisible even_start end_ 2 = some r := by
    unfold findFirstOddDivisible
    rw [if_pos ⟨hstart₂, heven⟩, hrun]
  have hr : r = even_start := by
    have hle := hfirst.le 0 (by omega) (by rw [Nat.zero_mul]; exact Nat.dvd_of_mod_eq_zero hstart₂)
    rcases hfirst.found with hr | ⟨-, -, k, hr⟩ <;> omega
  have hturn : Turn (some 2) (end_ + 1) 2 2 0 even_start (end_ - even_start)
      ((end_ - even_start) / 2) := by
    refine ⟨by omega, fun h => ?_, by omega⟩
    have heq := Option.some_inj.1 h
    omega
  have hmark := markLoop_none (end_ + 2) _ (marks_replicate false (end_ - even_start)) hturn
    (Nat.le_refl _)
  have hnone : sieveLoop even_start end_ end_ (2 :: rest)
      (List.replicate (end_ - even_start) true) = none := by
    unfold sieveLoop
    rw [if_neg (by omega), hfind, hr]
    simp only [Option.bind_eq_bind, Option.bind_some, Nat.sub_self]
    rw [if_neg (by omega)]
    exact (congrArg (Option.bind · _) hmark).trans rfl
  simp only [hnone, Option.bind_eq_bind, Option.bind_none]

/-- Up to 2 no prime is small enough to sieve, and no number after 1 is printed. -/
theorem printPrime_two {start max : ℕ} (hstart : 1 ≤ start) (hle : start ≤ 2) :
    printPrime (primesIn 0 (Nat.sqrt max)) start 2 ≠ some (primesIn start 2) := by
  intro h
  obtain ⟨-, hbefore, -⟩ := evenStart_spec hstart
  have hloop : ∀ v, sieveLoop (evenStart start) 2 2 (primesIn 0 (Nat.sqrt max)) v = some v := by
    intro v
    cases hprimes : primesIn 0 (Nat.sqrt max) with
    | nil => rfl
    | cons q rest =>
      have hq : q ∈ primesIn 0 (Nat.sqrt max) := hprimes ▸ List.mem_cons_self
      have htwo := (mem_primesIn.1 hq).2.2.two_le
      have hsq := Nat.mul_le_mul htwo htwo
      unfold sieveLoop
      rw [if_pos (by omega)]
  unfold printPrime at h
  rw [evenEnd_of_even rfl] at h
  simp only [hloop, Option.bind_eq_bind, Option.bind_some] at h
  have hmem : 2 ∈ primesIn start 2 := mem_primesIn.2 ⟨hle, Nat.le_refl 2, Nat.prime_two⟩
  rw [← Option.some_inj.1 h] at hmem
  obtain ⟨i, hi, hx, -, -⟩ := ((marks_replicate false _).mem_listed fun _ => rfl).1 hmem
  omega

/-- The primes are printed if and only if the end is odd. -/
theorem printPrime_iff (start end_ max : ℕ) (h : Limits start end_) (hmax : end_ ≤ max)
    (_hbound : max ≤ 1000000000) :
    (computeAllPrimes max).bind (fun basic_primes => printPrime basic_primes start end_) =
      some (primesIn start end_) ↔ end_ % 2 = 1 := by
  have hstart := h.pos
  have hle := h.le
  rw [computeAllPrimes_eq (by omega), Option.bind_some]
  constructor
  · intro hprint
    by_contra hodd
    have heven : end_ % 2 = 0 := by omega
    by_cases hend : 4 ≤ end_
    · rw [printPrime_none hstart hle hmax heven hend] at hprint
      exact absurd hprint nofun
    · obtain rfl : end_ = 2 := by omega
      exact printPrime_two hstart hle hprint
  · exact printPrime_of_odd hstart hle hmax

theorem printPrime_iff_three :
    (computeAllPrimes 3).bind (fun basic_primes => printPrime basic_primes 1 3) = some [2, 3] := by
  have hprint := (printPrime_iff 1 3 3 ⟨by decide, by decide, by decide, by decide⟩ (by decide)
    (by decide)).2 rfl
  exact hprint.trans (congrArg some (by decide))

theorem not_printPrime :
    (computeAllPrimes 10).bind (fun basic_primes => printPrime basic_primes 1 10) ≠
      some (primesIn 1 10) := by
  rw [computeAllPrimes_eq (by decide), Option.bind_some,
    printPrime_none (by decide) (by decide) (by decide) rfl (by decide)]
  exact nofun

end Prime1

end CPPCodes.Primes
