import CPPCodes.Primes.Prime1
import CPPCodes.Primes.Prime2

/-!
# All numbers up to the end are sieved

`initialize_not_primes`, `set_all_multiples` and `print_prime` of prime1-old.cpp, with a flag for
every number up to `end`. The initialisation writes the flags of 0 to 7 whatever the end is, so it
needs an end of 7 or more (`printPrime_eq_some_iff`). With prime2.cpp, which needs an even one, the
program agrees for the even ends from 8 on (`printPrimes_agree_iff`).
-/

namespace CPPCodes.Primes

open Sieve

namespace Prime1Old

/-- `for (auto s = p; s <= end; s += p) notprimes[s] = true`. -/
def setMultiplesOf (notprimes : List Bool) (p end_ : ℕ) : Option (List Bool) :=
  markLoop true none (end_ + 1) p p (end_ + 2) notprimes p p

def initializeNotPrimes (notprimes : List Bool) (end_ : ℕ) : Option (List Bool) := do
  let notprimes ← setMultiplesOf notprimes 2 end_
  let notprimes ← setMultiplesOf notprimes 3 end_
  let notprimes ← setMultiplesOf notprimes 5 end_
  let notprimes ← setMultiplesOf notprimes 7 end_
  let notprimes ← write notprimes 0 true
  let notprimes ← write notprimes 1 true
  let notprimes ← write notprimes 2 false
  let notprimes ← write notprimes 3 false
  let notprimes ← write notprimes 5 false
  write notprimes 7 false

def setAllMultiples (notprimes : List Bool) (s end_ : ℕ) : Option (List Bool) := do
  let flag ← notprimes[s]?
  if flag then some notprimes
  else markLoop true none (end_ + 1) s s (end_ + 2) notprimes (s + s) (s + s)

/-- `for (auto s = 9; s <= end; s += 2) set_all_multiples(notprimes, s, end)`, from `s` on. -/
def sieveLoop (end_ : ℕ) : ℕ → ℕ → List Bool → Option (List Bool)
  | 0, _, _ => none
  | fuel + 1, s, notprimes =>
    if s ≤ end_ then do
      let notprimes ← setAllMultiples notprimes s end_
      sieveLoop end_ fuel (s + 2) notprimes
    else some notprimes

/-- The numbers of the list whose flags are not set. -/
def printLoop (notprimes : List Bool) : List ℕ → Option (List ℕ)
  | [] => some []
  | s :: rest => do
    let flag ← notprimes[s]?
    let out ← printLoop notprimes rest
    return if flag then out else s :: out

/-- `print_prime`: what it prints. -/
def printPrime (start end_ : ℕ) : Option (List ℕ) := do
  let notprimes ← initializeNotPrimes (List.replicate (end_ + 1) false) end_
  let notprimes ← sieveLoop end_ (end_ + 1) 9 notprimes
  printLoop notprimes (List.range' start (end_ + 1 - start))

variable {end_ n s : ℕ} {P : ℕ → Prop} {v : List Bool}

theorem setMultiplesOf_spec (hv : Marks true (end_ + 1) P v) {p : ℕ} (hp : 0 < p) :
    ∃ v', setMultiplesOf v p end_ = some v' ∧
      Marks true (end_ + 1) (fun i => P i ∨ p ∣ i ∧ p ≤ i) v' := by
  have hplace : ∀ i, (∃ k, Turn none (end_ + 1) p p p p i k) ↔ i < end_ + 1 ∧ p ∣ i ∧ p ≤ i := by
    intro i
    have hturn : (∃ k, Turn none (end_ + 1) p (1 * p) p (0 + 1 * p) i k) ↔ _ :=
      exists_turn_place_iff
    simp only [Nat.one_mul, Nat.zero_add] at hturn
    rw [hturn]
    refine and_congr_right fun _ => ⟨?_, ?_⟩
    · rintro ⟨-, hle, hdvd⟩
      rw [← Nat.sub_add_cancel hle]
      exact ⟨Nat.dvd_add hdvd (Nat.dvd_refl p), Nat.le_add_left p _⟩
    · exact fun ⟨hdvd, hle⟩ => ⟨nofun, hle, Nat.dvd_sub hdvd (Nat.dvd_refl p)⟩
  obtain ⟨v', hrun, hv'⟩ := markLoop_spec none (end_ + 1) p hp (end_ + 2) hv
    (by omega : end_ + 1 - p < end_ + 2) fun i k hturn => ((hplace i).1 ⟨k, hturn⟩).1
  refine ⟨v', hrun, hv'.congr fun i hi => ?_⟩
  rw [hplace, and_iff_right hi]

/-- What is marked in front of the turn for `s`: the multiples of the small primes and of those that
have had a turn. -/
def Struck (s i : ℕ) : Prop :=
  i < 2 ∨ ∃ q, q.Prime ∧ (q < 9 ∨ q < s) ∧ q ∣ i ∧ q + q ≤ i

theorem prime_lt_nine {q : ℕ} (hq : q.Prime) (hlt : q < 9) : q = 2 ∨ q = 3 ∨ q = 5 ∨ q = 7 := by
  have htwo := hq.two_le
  have hodd := hq.eq_two_or_odd
  omega

theorem add_self_le {q i : ℕ} (hdvd : q ∣ i) (hlt : q < i) : q + q ≤ i := by
  obtain ⟨k, rfl⟩ := hdvd
  have hk : 2 ≤ k := by
    by_contra hk
    obtain rfl | rfl : k = 0 ∨ k = 1 := by omega
    · omega
    · omega
  rw [← Nat.mul_two]
  exact Nat.mul_le_mul_left q hk

theorem struck_not_prime {i : ℕ} (h : Struck s i) : ¬ i.Prime := by
  intro hprime
  rcases h with hlt | ⟨q, hq, -, hdvd, hle⟩
  · exact absurd hprime.two_le (by omega)
  · have heq := (Nat.prime_dvd_prime_iff_eq hq hprime).1 hdvd
    have htwo := hq.two_le
    omega

/-- The first four loops mark the multiples of the primes up to 7. -/
theorem exists_smallMultiples (end_ : ℕ) : ∃ v₂ v₃ v₅ v₇,
    setMultiplesOf (List.replicate (end_ + 1) false) 2 end_ = some v₂ ∧
      setMultiplesOf v₂ 3 end_ = some v₃ ∧ setMultiplesOf v₃ 5 end_ = some v₅ ∧
      setMultiplesOf v₅ 7 end_ = some v₇ ∧
      Marks true (end_ + 1) (fun i => ∃ q, q.Prime ∧ q < 9 ∧ q ∣ i ∧ q ≤ i) v₇ := by
  obtain ⟨v₂, hrun₂, hv₂⟩ := setMultiplesOf_spec (marks_replicate true (end_ + 1)) Nat.two_pos
  obtain ⟨v₃, hrun₃, hv₃⟩ := setMultiplesOf_spec hv₂ (by decide : 0 < 3)
  obtain ⟨v₅, hrun₅, hv₅⟩ := setMultiplesOf_spec hv₃ (by decide : 0 < 5)
  obtain ⟨v₇, hrun₇, hv₇⟩ := setMultiplesOf_spec hv₅ (by decide : 0 < 7)
  refine ⟨v₂, v₃, v₅, v₇, hrun₂, hrun₃, hrun₅, hrun₇, hv₇.congr fun i _ => ?_⟩
  constructor
  · rintro ((((hfalse | h) | h) | h) | h)
    · exact hfalse.elim
    · exact ⟨2, Nat.prime_two, by decide, h⟩
    · exact ⟨3, Nat.prime_three, by decide, h⟩
    · exact ⟨5, Nat.prime_five, by decide, h⟩
    · exact ⟨7, Nat.prime_seven, by decide, h⟩
  · rintro ⟨q, hq, hlt, h⟩
    rcases prime_lt_nine hq hlt with rfl | rfl | rfl | rfl
    · exact .inl (.inl (.inl (.inr h)))
    · exact .inl (.inl (.inr h))
    · exact .inl (.inr h)
    · exact .inr h

/-- The writes behind the loops take the primes up to 7 out again. -/
theorem struck_nine {i : ℕ} : Struck 9 i ↔
    ((((((∃ q, q.Prime ∧ q < 9 ∧ q ∣ i ∧ q ≤ i) ∨ i = 0) ∨ i = 1) ∧ i ≠ 2) ∧ i ≠ 3) ∧ i ≠ 5) ∧
      i ≠ 7 := by
  constructor
  · intro h
    have hne : ∀ p, p.Prime → i ≠ p := fun p hp heq => struck_not_prime h (heq ▸ hp)
    refine ⟨⟨⟨⟨?_, hne 2 Nat.prime_two⟩, hne 3 Nat.prime_three⟩, hne 5 Nat.prime_five⟩,
      hne 7 Nat.prime_seven⟩
    rcases h with hlt | ⟨q, hq, hlt, hdvd, hle⟩
    · omega
    · exact .inl (.inl ⟨q, hq, by omega, hdvd, by omega⟩)
  · rintro ⟨⟨⟨⟨(⟨q, hq, hlt, hdvd, hle⟩ | rfl) | rfl, hne₂⟩, hne₃⟩, hne₅⟩, hne₇⟩
    · have hne : q ≠ i := by
        rcases prime_lt_nine hq hlt with rfl | rfl | rfl | rfl <;> omega
      exact .inr ⟨q, hq, .inl hlt, hdvd, add_self_le hdvd (Nat.lt_of_le_of_ne hle hne)⟩
    · exact .inl (by decide)
    · exact .inl (by decide)

theorem initializeNotPrimes_spec (hend : 7 ≤ end_) :
    ∃ v, initializeNotPrimes (List.replicate (end_ + 1) false) end_ = some v ∧
      Marks true (end_ + 1) (Struck 9) v := by
  obtain ⟨v₂, v₃, v₅, v₇, hrun₂, hrun₃, hrun₅, hrun₇, hv₇⟩ := exists_smallMultiples end_
  obtain ⟨w₀, hwrite₀, hw₀⟩ := hv₇.write (by omega : 0 < end_ + 1)
  obtain ⟨w₁, hwrite₁, hw₁⟩ := hw₀.write (by omega : 1 < end_ + 1)
  obtain ⟨w₂, hwrite₂, hw₂⟩ := hw₁.write_not (by omega : 2 < end_ + 1)
  obtain ⟨w₃, hwrite₃, hw₃⟩ := hw₂.write_not (by omega : 3 < end_ + 1)
  obtain ⟨w₅, hwrite₅, hw₅⟩ := hw₃.write_not (by omega : 5 < end_ + 1)
  obtain ⟨w₇, hwrite₇, hw₇⟩ := hw₅.write_not (by omega : 7 < end_ + 1)
  rw [Bool.not_true] at hwrite₂ hwrite₃ hwrite₅ hwrite₇
  refine ⟨w₇, ?_, hw₇.congr fun i _ => struck_nine.symm⟩
  unfold initializeNotPrimes
  simp only [hrun₂, hrun₃, hrun₅, hrun₇, hwrite₀, hwrite₁, hwrite₂, hwrite₃, hwrite₅, hwrite₇,
    Option.bind_eq_bind, Option.bind_some]

theorem length_write {w w' : List Bool} {i : ℕ} {b : Bool} (h : write w i b = some w') :
    i < w.length ∧ w'.length = w.length := by
  unfold write at h
  split at h
  · rename_i hi
    obtain rfl := Option.some_inj.1 h
    exact ⟨hi, List.length_set⟩
  · exact absurd h nofun

/-- The write for 7 is outside of a vector that is shorter. -/
theorem initializeNotPrimes_none (hend : end_ < 7) :
    initializeNotPrimes (List.replicate (end_ + 1) false) end_ = none := by
  obtain ⟨v₂, v₃, v₅, v₇, hrun₂, hrun₃, hrun₅, hrun₇, hv₇⟩ := exists_smallMultiples end_
  unfold initializeNotPrimes
  simp only [hrun₂, hrun₃, hrun₅, hrun₇, Option.bind_eq_bind, Option.bind_some]
  rw [Option.eq_none_iff_forall_ne_some]
  intro w h
  obtain ⟨w₀, h₀, h⟩ := Option.bind_eq_some_iff.1 h
  obtain ⟨w₁, h₁, h⟩ := Option.bind_eq_some_iff.1 h
  obtain ⟨w₂, h₂, h⟩ := Option.bind_eq_some_iff.1 h
  obtain ⟨w₃, h₃, h⟩ := Option.bind_eq_some_iff.1 h
  obtain ⟨w₅, h₅, h⟩ := Option.bind_eq_some_iff.1 h
  have hlast := (length_write h).1
  rw [(length_write h₅).2, (length_write h₃).2, (length_write h₂).2, (length_write h₁).2,
    (length_write h₀).2, hv₇.length] at hlast
  omega

theorem struck_iff {i : ℕ} (hi : i < s) : Struck s i ↔ ¬ i.Prime := by
  refine ⟨struck_not_prime, fun hprime => ?_⟩
  by_cases hlt : i < 2
  · exact .inl hlt
  · obtain ⟨q, hq, hdvd, -, hle⟩ := exists_prime_divisor (by omega) hprime
    exact .inr ⟨q, hq, .inr (by omega), hdvd, hle⟩

/-- In front of its turn an odd number has a mark unless it is prime. -/
theorem struck_self_iff (hs : 2 ≤ s) : Struck s s ↔ ¬ s.Prime := by
  refine ⟨struck_not_prime, fun hprime => ?_⟩
  obtain ⟨q, hq, hdvd, -, hle⟩ := exists_prime_divisor hs hprime
  have htwo := hq.two_le
  exact .inr ⟨q, hq, .inr (by omega), hdvd, hle⟩

theorem struck_succ (hodd : s % 2 = 1) {i : ℕ} : Struck (s + 2) i ↔
    Struck s i ∨ s.Prime ∧ s ∣ i ∧ s + s ≤ i := by
  constructor
  · rintro (hlt | ⟨q, hq, hlt, hdvd, hle⟩)
    · exact .inl (.inl hlt)
    · by_cases hqs : q = s
      · exact .inr (hqs ▸ ⟨hq, hdvd, hle⟩)
      · have hqodd := hq.eq_two_or_odd
        exact .inl (.inr ⟨q, hq, by omega, hdvd, hle⟩)
  · rintro ((hlt | ⟨q, hq, hlt, hdvd, hle⟩) | ⟨hprime, hdvd, hle⟩)
    · exact .inl hlt
    · exact .inr ⟨q, hq, by omega, hdvd, hle⟩
    · exact .inr ⟨s, hprime, .inr (by omega), hdvd, hle⟩

theorem setAllMultiples_spec (hs : 9 ≤ s) (hodd : s % 2 = 1) (hend : s ≤ end_)
    (hv : Marks true (end_ + 1) (Struck s) v) :
    ∃ v', setAllMultiples v s end_ = some v' ∧ Marks true (end_ + 1) (Struck (s + 2)) v' := by
  have hs' : s < end_ + 1 := by omega
  unfold setAllMultiples
  by_cases hprime : s.Prime
  · have hget : v[s]? = some false := (hv.not_iff hs').2 fun hstruck =>
      struck_not_prime hstruck hprime
    obtain ⟨v', hrun, hv'⟩ := hv.multiples (by omega : 0 < s) (Nat.lt_succ_self (end_ + 1))
    refine ⟨v', ?_, hv'.congr fun i _ => ?_⟩
    · rw [hget]
      exact hrun
    · rw [struck_succ hodd, and_iff_right hprime]
  · have hget : v[s]? = some true := (hv.iff s hs').2 ((struck_self_iff (by omega)).2 hprime)
    refine ⟨v, ?_, hv.congr fun i _ => ?_⟩
    · rw [hget]
      rfl
    · rw [struck_succ hodd]
      simp [hprime]

theorem sieveLoop_spec : ∀ (fuel s : ℕ) {v : List Bool}, 9 ≤ s → s % 2 = 1 → end_ + 1 - s < fuel →
    Marks true (end_ + 1) (Struck s) v →
    ∃ v', sieveLoop end_ fuel s v = some v' ∧
      Marks true (end_ + 1) (fun i => ¬ i.Prime) v'
  | 0, _, _, _, _, hfuel, _ => absurd hfuel (Nat.not_lt_zero _)
  | fuel + 1, s, v, hs, hodd, hfuel, hv => by
    unfold sieveLoop
    by_cases hend : s ≤ end_
    · rw [if_pos hend]
      obtain ⟨v₁, hrun₁, hv₁⟩ := setAllMultiples_spec hs hodd hend hv
      simp only [hrun₁, Option.bind_eq_bind, Option.bind_some]
      exact sieveLoop_spec fuel (s + 2) (by omega) (by omega) (by omega) hv₁
    · rw [if_neg hend]
      exact ⟨v, rfl, hv.congr fun i hi => struck_iff (by omega)⟩

theorem printLoop_spec (hv : Marks true n (fun i => ¬ i.Prime) v) : ∀ {l : List ℕ},
    (∀ s ∈ l, s < n) → printLoop v l = some (l.filter fun s => decide s.Prime)
  | [], _ => rfl
  | s :: l, hl => by
    obtain ⟨hs, hl⟩ := List.forall_mem_cons.1 hl
    have ih := printLoop_spec hv hl
    unfold printLoop
    by_cases hprime : s.Prime
    · have hget : v[s]? = some false := (hv.not_iff hs).2 (not_not.2 hprime)
      rw [hget, ih, List.filter_cons_of_pos (by simpa using hprime)]
      rfl
    · have hget : v[s]? = some true := (hv.iff s hs).2 hprime
      rw [hget, ih, List.filter_cons_of_neg (by simpa using hprime)]
      rfl

/-- The primes are printed if and only if the end is not below 7. -/
theorem printPrime_eq_some_iff (start end_ : ℕ) :
    printPrime start end_ = some (primesIn start end_) ↔ 7 ≤ end_ := by
  unfold printPrime
  constructor
  · intro hprint
    by_contra hend
    rw [initializeNotPrimes_none (by omega)] at hprint
    exact absurd hprint nofun
  · intro hend
    obtain ⟨v₀, hinit, hv₀⟩ := initializeNotPrimes_spec hend
    obtain ⟨v, hrun, hv⟩ := sieveLoop_spec (end_ + 1) 9 (Nat.le_refl 9) rfl (by omega) hv₀
    simp only [hinit, hrun, Option.bind_eq_bind, Option.bind_some]
    refine printLoop_spec hv fun s hs => ?_
    have hlt := List.mem_range'_1.1 hs
    omega

end Prime1Old

/-- Both programs print the primes if and only if the end is even and from 8 on. -/
theorem printPrimes_agree_iff (start end_ : ℕ) (h : Limits start end_) :
    (Prime2.printPrime start end_ = some (primesIn start end_) ∧
      Prime1Old.printPrime start end_ = some (primesIn start end_)) ↔
    end_ % 2 = 0 ∧ 8 ≤ end_ := by
  rw [Prime2.printPrime_eq_some_iff h.pos h.le, Prime1Old.printPrime_eq_some_iff]
  omega

theorem printPrimes_agree_iff_ten :
    Prime2.printPrime 1 10 = some [2, 3, 5, 7] ∧ Prime1Old.printPrime 1 10 = some [2, 3, 5, 7] := by
  have hprimes : primesIn 1 10 = [2, 3, 5, 7] := by decide
  rw [← hprimes]
  exact (printPrimes_agree_iff 1 10 ⟨by decide, by decide, by decide, by decide⟩).2
    ⟨rfl, by decide⟩

theorem not_printPrimes_agree :
    ¬ (Prime2.printPrime 3 5 = some (primesIn 3 5) ∧
      Prime1Old.printPrime 3 5 = some (primesIn 3 5)) := by
  rw [Prime1Old.printPrime_eq_some_iff]
  exact fun h => absurd h.2 (by decide)

end CPPCodes.Primes
