import CPPCodes.Primes.Prime1

/-!
# The counters of the basic sieve are ints

`compute_all_primes` once more: its loops count with an `int`, which is not defined beyond the
largest, and the flags are looked up one by one. A counter is at most twice the number of flags, so
below 2 ^ 58 none is too large and the primes are those of `Prime1.computeAllPrimes`.
-/

namespace CPPCodes.Primes.BasicSieve

open Sieve Prime1

/-- The sum of two `int`s that are not negative. -/
def add (x y : ℕ) : Option ℕ := if x + y < 2 ^ 31 then some (x + y) else none

/-- The loop over the multiples of `s`. -/
def multiplesLoop (sz s : ℕ) : (fuel : ℕ) → List Bool → (i : ℕ) → Option (List Bool)
  | 0, _, _ => none
  | fuel + 1, primes, i =>
    if i < sz then do
      let primes ← write primes i false
      let i ← add i s
      multiplesLoop sz s fuel primes i
    else some primes

/-- The loop that marks. -/
def sieveLoop (e : ℕ) : (fuel : ℕ) → List Bool → (s : ℕ) → Option (List Bool)
  | 0, _, _ => none
  | fuel + 1, primes, s =>
    if s < e then
      if skipped s then (add s 1).bind (sieveLoop e fuel primes)
      else do
        let sz := primes.length
        let i ← add s s
        let primes ← multiplesLoop sz s (sz + 1) primes i
        let s ← add s 1
        sieveLoop e fuel primes s
    else some primes

/-- The loop that appends the primes to `result`. -/
def resultLoop (e : ℕ) (primes : List Bool) : (fuel : ℕ) → List ℕ → (s : ℕ) → Option (List ℕ)
  | 0, _, _ => none
  | fuel + 1, result, s =>
    if s < e then do
      let flag ← primes[s]?
      let result := if flag == true then result ++ [s] else result
      let s ← add s 1
      resultLoop e primes fuel result s
    else some result

/-- `compute_all_primes`. -/
def computeAllPrimes (result : List ℕ) (max : ℕ) : Option (List ℕ) := do
  let e := Nat.sqrt max + 1
  let primes := List.replicate e true
  let primes ← write primes 0 false
  let primes ← write primes 1 false
  let primes ← sieveLoop e e primes 2
  resultLoop e primes (e + 1) result 0

variable {e s : ℕ}

theorem add_eq {x y : ℕ} (h : x + y < 2 ^ 31) : add x y = some (x + y) := if_pos h

theorem multiplesLoop_eq {sz : ℕ} (hs : sz + s ≤ 2 ^ 31) : ∀ (fuel : ℕ) (primes : List Bool)
    (i : ℕ), multiplesLoop sz s fuel primes i = markLoop false none sz s s fuel primes i i
  | 0, _, _ => rfl
  | fuel + 1, primes, i => by
    unfold multiplesLoop markLoop
    by_cases hi : i < sz
    · rw [if_pos hi, if_pos hi, if_neg (by simp)]
      simp only [add_eq (show i + s < 2 ^ 31 by omega), Option.bind_eq_bind, Option.bind_some,
        multiplesLoop_eq hs fuel]
    · rw [if_neg hi, if_neg hi]

/-- The loop goes on as long as its counter is small, and marks what is to be marked. -/
theorem sieveLoop_spec (he : e ≤ 2 ^ 30) : ∀ (fuel : ℕ) {v : List Bool} {s : ℕ}, 2 ≤ s → s ≤ e →
    e - s < fuel → Marks false e (Struck s) v →
    ∃ v', sieveLoop e fuel v s = some v' ∧ Marks false e (Struck e) v'
  | 0, _, _, _, _, hfuel, _ => absurd hfuel (Nat.not_lt_zero _)
  | fuel + 1, v, s, hs, hle, hfuel, h => by
    unfold sieveLoop
    rcases Nat.eq_or_lt_of_le hle with rfl | hlt
    · exact ⟨v, if_neg (Nat.lt_irrefl s), h⟩
    · have hnext : add s 1 = some (s + 1) := add_eq (by omega)
      rw [if_pos hlt]
      by_cases hskipped : skipped s
      · rw [if_pos hskipped, hnext]
        exact sieveLoop_spec he fuel (by omega) hlt (by omega) (struck_skip hs hskipped h)
      · obtain ⟨v₁, hrun, h₁⟩ := exists_struck_mark hs hskipped h
        obtain ⟨v', hrest, h'⟩ := sieveLoop_spec he fuel (by omega) hlt (by omega) h₁
        refine ⟨v', ?_, h'⟩
        rw [if_neg hskipped]
        simp only [add_eq (show s + s < 2 ^ 31 by omega), Option.bind_eq_bind, Option.bind_some,
          h.length, multiplesLoop_eq (show e + s ≤ 2 ^ 31 by omega), hrun, hnext, hrest]

theorem resultLoop_eq {v : List Bool} (hv : v.length < 2 ^ 31) : ∀ (fuel : ℕ) (result : List ℕ)
    {s : ℕ}, s ≤ v.length → v.length - s < fuel →
    resultLoop v.length v fuel result s =
      some (result ++ listed (fun flag _ => flag) 1 (v.drop s) s)
  | 0, _, _, _, hfuel => absurd hfuel (Nat.not_lt_zero _)
  | fuel + 1, result, s, hle, hfuel => by
    unfold resultLoop
    rcases Nat.eq_or_lt_of_le hle with rfl | hlt
    · rw [if_neg (Nat.lt_irrefl _), List.drop_length, listed, List.append_nil]
    · have hnext : add s 1 = some (s + 1) := add_eq (by omega)
      rw [if_pos hlt, List.getElem?_eq_getElem hlt, List.drop_eq_getElem_cons hlt, listed]
      simp only [Option.bind_eq_bind, Option.bind_some, hnext,
        resultLoop_eq hv fuel _ hlt (by omega), beq_true]
      cases v[s] <;> simp

/-- The primes up to the square root are appended, in increasing order. -/
theorem computeAllPrimes_appends (result : List ℕ) (max : ℕ) (hmax : 1 ≤ max)
    (hint : max < 2 ^ 58) :
    computeAllPrimes result max = some (result ++ primesIn 0 (Nat.sqrt max)) := by
  have hsqrt : 1 ≤ Nat.sqrt max := Nat.le_sqrt.2 hmax
  have hlt : Nat.sqrt max < 2 ^ 29 := Nat.sqrt_lt.2 (by omega)
  unfold computeAllPrimes
  generalize Nat.sqrt max = root at *
  obtain ⟨v₀, v₁, hwrite₀, hwrite₁, hstart⟩ := exists_start hsqrt
  obtain ⟨v, hloop, hmarks⟩ := sieveLoop_spec (by omega : root + 1 ≤ 2 ^ 30) (root + 1)
    (Nat.le_refl 2) (by omega) (by omega) hstart
  have hlength := hmarks.length
  have hresult := resultLoop_eq (by omega : v.length < 2 ^ 31) (root + 1 + 1) result
    (Nat.zero_le _) (by omega)
  rw [hlength, List.drop_zero, listed_struck hmarks] at hresult
  simp only [hwrite₀, hwrite₁, hloop, hresult, Option.bind_eq_bind, Option.bind_some]

theorem computeAllPrimes_appends_max : computeAllPrimes [] (2 ^ 58 - 1) =
    some ([] ++ primesIn 0 (Nat.sqrt (2 ^ 58 - 1))) :=
  computeAllPrimes_appends [] (2 ^ 58 - 1) (by omega) (by omega)

end CPPCodes.Primes.BasicSieve
