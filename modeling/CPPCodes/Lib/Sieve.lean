import Mathlib.Data.List.Sort
import Mathlib.Data.Nat.Prime.Basic
import Mathlib.Data.Nat.Sqrt

/-!
# Sieving a vector of flags

A loop goes over an arithmetic progression of numbers and marks the flag of each (`markLoop_spec`).
The first number of a progression that a divisor has is looked up by trial (`findFirst_spec`), and
from it the multiples are a progression themselves (`exists_mul_iff`). The numbers without a mark
are listed in increasing order (`listed_eq`).
-/

namespace Sieve

/-- `v[i] = b`, where an index that is not below the size fails. -/
def write (v : List Bool) (i : ℕ) (b : Bool) : Option (List Bool) :=
  if i < v.length then some (v.set i b) else none

/-- The vector has `n` flags, of which those in `P` are `b` and the others are not. -/
structure Marks (b : Bool) (n : ℕ) (P : ℕ → Prop) (v : List Bool) : Prop where
  length : v.length = n
  iff : ∀ i < n, v[i]? = some b ↔ P i

variable {b : Bool} {n : ℕ} {P Q : ℕ → Prop} {v : List Bool}

theorem Marks.congr (h : Marks b n P v) (hiff : ∀ i < n, P i ↔ Q i) : Marks b n Q v where
  length := h.length
  iff := fun i hi => (h.iff i hi).trans (hiff i hi)

theorem Marks.not_iff (h : Marks b n P v) {i : ℕ} (hi : i < n) : v[i]? = some (!b) ↔ ¬ P i := by
  rw [← h.iff i hi, List.getElem?_eq_getElem (h.length.symm ▸ hi), Option.some_inj, Option.some_inj,
    Bool.eq_not]

theorem marks_replicate (b : Bool) (n : ℕ) : Marks b n (fun _ => False) (List.replicate n !b) where
  length := List.length_replicate
  iff := fun i hi => by
    rw [List.getElem?_replicate, if_pos hi]
    cases b <;> decide

theorem Marks.write (h : Marks b n P v) {i : ℕ} (hi : i < n) :
    ∃ v', write v i b = some v' ∧ Marks b n (fun j => P j ∨ j = i) v' := by
  have hlt : i < v.length := h.length.symm ▸ hi
  refine ⟨v.set i b, if_pos hlt, ?_, fun j hj => ?_⟩
  · rw [List.length_set, h.length]
  · by_cases hij : j = i
    · subst hij
      rw [List.getElem?_set_self hlt]
      exact ⟨fun _ => .inr rfl, fun _ => rfl⟩
    · rw [List.getElem?_set_ne (Ne.symm hij), h.iff j hj]
      exact ⟨.inl, fun hor => hor.resolve_right hij⟩

theorem Marks.write_not (h : Marks b n P v) {i : ℕ} (hi : i < n) :
    ∃ v', Sieve.write v i (!b) = some v' ∧ Marks b n (fun j => P j ∧ j ≠ i) v' := by
  have hlt : i < v.length := h.length.symm ▸ hi
  refine ⟨v.set i (!b), if_pos hlt, ?_, fun j hj => ?_⟩
  · rw [List.length_set, h.length]
  · by_cases hij : j = i
    · subst hij
      rw [List.getElem?_set_self hlt]
      cases b <;> simp
    · rw [List.getElem?_set_ne (Ne.symm hij), h.iff j hj]
      exact ⟨fun hp => ⟨hp, hij⟩, And.left⟩

theorem Marks.write_none (h : Marks b n P v) {i : ℕ} (hi : n ≤ i) (c : Bool) :
    Sieve.write v i c = none :=
  if_neg (by rw [h.length]; omega)

/-- `for (; cur < bound; index += di, cur += dc) v[index] = b`, where one number may be left out. -/
def markLoop (b : Bool) (left : Option ℕ) (bound di dc : ℕ) :
    ℕ → List Bool → (index cur : ℕ) → Option (List Bool)
  | 0, _, _, _ => none
  | fuel + 1, v, index, cur =>
    if cur < bound then
      if left = some cur then markLoop b left bound di dc fuel v (index + di) (cur + dc)
      else do
        let v ← write v index b
        markLoop b left bound di dc fuel v (index + di) (cur + dc)
    else some v

variable {left : Option ℕ} {bound di dc : ℕ}

/-- The turn for the `k`-th number marks the flag `i`. -/
def Turn (left : Option ℕ) (bound di dc index cur i k : ℕ) : Prop :=
  cur + k * dc < bound ∧ left ≠ some (cur + k * dc) ∧ i = index + k * di

theorem turn_zero {index cur i : ℕ} : Turn left bound di dc index cur i 0 ↔
    cur < bound ∧ left ≠ some cur ∧ i = index := by
  unfold Turn
  rw [Nat.zero_mul, Nat.zero_mul, Nat.add_zero, Nat.add_zero]

theorem turn_succ {index cur i k : ℕ} : Turn left bound di dc index cur i (k + 1) ↔
    Turn left bound di dc (index + di) (cur + dc) i k := by
  unfold Turn
  rw [Nat.add_one_mul, Nat.add_one_mul, Nat.add_comm _ dc, Nat.add_comm _ di, ← Nat.add_assoc,
    ← Nat.add_assoc]

/-- The turns behind the first are those from the next number on. -/
theorem exists_turn_iff {index cur i : ℕ} : (∃ k, Turn left bound di dc index cur i k) ↔
    (cur < bound ∧ left ≠ some cur ∧ i = index) ∨
      ∃ k, Turn left bound di dc (index + di) (cur + dc) i k := by
  constructor
  · rintro ⟨_ | k, h⟩
    · exact .inl (turn_zero.1 h)
    · exact .inr ⟨k, turn_succ.1 h⟩
  · rintro (h | ⟨k, h⟩)
    · exact ⟨0, turn_zero.2 h⟩
    · exact ⟨k + 1, turn_succ.2 h⟩

theorem not_turn {index cur i k : ℕ} (h : ¬ cur < bound) : ¬ Turn left bound di dc index cur i k :=
  fun hturn => h ((Nat.le_add_right cur (k * dc)).trans_lt hturn.1)

theorem markLoop_spec (left : Option ℕ) (bound di : ℕ) (hdc : 0 < dc) :
    ∀ (fuel : ℕ) {v : List Bool} {P : ℕ → Prop} {index cur : ℕ},
    Marks b n P v → bound - cur < fuel →
    (∀ i k, Turn left bound di dc index cur i k → i < n) →
    ∃ v', markLoop b left bound di dc fuel v index cur = some v' ∧
      Marks b n (fun i => P i ∨ ∃ k, Turn left bound di dc index cur i k) v'
  | 0, _, _, _, _, _, hfuel, _ => absurd hfuel (Nat.not_lt_zero _)
  | fuel + 1, v, P, index, cur, h, hfuel, hindex => by
    unfold markLoop
    by_cases hcur : cur < bound
    · rw [if_pos hcur]
      have hrest : ∀ i k, Turn left bound di dc (index + di) (cur + dc) i k → i < n :=
        fun i k hturn => hindex i (k + 1) (turn_succ.2 hturn)
      by_cases hleft : left = some cur
      · rw [if_pos hleft]
        obtain ⟨v', hrun, h'⟩ := markLoop_spec left bound di hdc fuel h (by omega) hrest
        refine ⟨v', hrun, h'.congr fun i _ => ?_⟩
        have hsplit : (∃ k, Turn left bound di dc index cur i k) ↔ _ := exists_turn_iff
        rw [hsplit]
        simp [hleft]
      · rw [if_neg hleft]
        obtain ⟨v₁, hwrite, h₁⟩ := h.write (hindex index 0 (turn_zero.2 ⟨hcur, hleft, rfl⟩))
        obtain ⟨v', hrun, h'⟩ := markLoop_spec left bound di hdc fuel h₁ (by omega) hrest
        refine ⟨v', ?_, h'.congr fun i _ => ?_⟩
        · simp only [hwrite, Option.bind_eq_bind, Option.bind_some, hrun]
        · have hsplit : (∃ k, Turn left bound di dc index cur i k) ↔ _ := exists_turn_iff
          rw [hsplit]
          simp [hcur, hleft, or_assoc]
    · rw [if_neg hcur]
      refine ⟨v, rfl, h.congr fun i _ => ?_⟩
      simp [not_turn hcur]

/-- A turn for a flag that is not there fails. -/
theorem markLoop_none : ∀ (fuel k : ℕ) {v : List Bool} {P : ℕ → Prop} {index cur i : ℕ},
    Marks b n P v → Turn left bound di dc index cur i k → n ≤ i →
    markLoop b left bound di dc fuel v index cur = none
  | 0, _, _, _, _, _, _, _, _, _ => rfl
  | fuel + 1, k, v, P, index, cur, i, h, hturn, hi => by
    have hcur : cur < bound := (Nat.le_add_right cur (k * dc)).trans_lt hturn.1
    unfold markLoop
    rw [if_pos hcur]
    cases k with
    | zero =>
      obtain ⟨-, hleft, rfl⟩ := turn_zero.1 hturn
      rw [if_neg hleft, h.write_none hi]
      rfl
    | succ k =>
      have hrest := turn_succ.1 hturn
      split
      · exact markLoop_none fuel k h hrest hi
      · by_cases hindex : index < n
        · obtain ⟨v₁, hwrite, h₁⟩ := h.write hindex
          rw [hwrite]
          exact markLoop_none fuel k h₁ hrest hi
        · rw [h.write_none (by omega)]
          rfl

/-- `for (; no <= end; no += step) if (no % divby == 0) return no; return end + 1`. -/
def findFirst (step end_ divby : ℕ) : ℕ → ℕ → Option ℕ
  | 0, _ => none
  | fuel + 1, no =>
    if no ≤ end_ then
      if no % divby = 0 then some no else findFirst step end_ divby fuel (no + step)
    else some (end_ + 1)

/-- The first multiple in the progression from `no` on, or the number behind the end. -/
structure First (step end_ divby no r : ℕ) : Prop where
  found : r = end_ + 1 ∨ r ≤ end_ ∧ divby ∣ r ∧ ∃ k, r = no + k * step
  le : ∀ k, no + k * step ≤ end_ → divby ∣ no + k * step → r ≤ no + k * step

theorem findFirst_spec {step : ℕ} (hstep : 0 < step) (end_ divby : ℕ) : ∀ (fuel : ℕ) {no : ℕ},
    end_ + 1 - no < fuel →
      ∃ r, findFirst step end_ divby fuel no = some r ∧ First step end_ divby no r
  | 0, _, hfuel => absurd hfuel (Nat.not_lt_zero _)
  | fuel + 1, no, hfuel => by
    unfold findFirst
    by_cases hno : no ≤ end_
    · rw [if_pos hno]
      by_cases hdvd : no % divby = 0
      · rw [if_pos hdvd]
        refine ⟨no, rfl, .inr ⟨hno, Nat.dvd_of_mod_eq_zero hdvd, 0, by rw [Nat.zero_mul]; rfl⟩, ?_⟩
        exact fun k _ _ => Nat.le_add_right _ _
      · rw [if_neg hdvd]
        obtain ⟨r, hrun, hfound, hle⟩ := findFirst_spec hstep end_ divby fuel
          (by omega : end_ + 1 - (no + step) < fuel)
        have hnext : ∀ k, no + step + k * step = no + (k + 1) * step := fun k => by
          rw [Nat.add_one_mul, Nat.add_assoc, Nat.add_comm step]
        refine ⟨r, hrun, ?_, fun k hk hkdvd => ?_⟩
        · refine hfound.imp_right fun ⟨hr, hdvd', k, hk⟩ => ⟨hr, hdvd', k + 1, ?_⟩
          rw [hk, hnext]
        · cases k with
          | zero =>
            rw [Nat.zero_mul, Nat.add_zero] at hkdvd
            exact absurd (Nat.mod_eq_zero_of_dvd hkdvd) hdvd
          | succ k =>
            rw [← hnext] at hk hkdvd ⊢
            exact hle k hk hkdvd
    · rw [if_neg hno]
      refine ⟨end_ + 1, rfl, .inl rfl, fun k hk _ => absurd ((Nat.le_add_right _ _).trans hk) hno⟩

/-- From a number on, those that differ from it by multiples. -/
theorem exists_mul_iff {d r c : ℕ} : (∃ k, c = r + k * d) ↔ r ≤ c ∧ d ∣ c - r := by
  constructor
  · rintro ⟨k, rfl⟩
    exact ⟨Nat.le_add_right _ _, by rw [Nat.add_sub_cancel_left]; exact Nat.dvd_mul_left d k⟩
  · rintro ⟨hle, k, hk⟩
    exact ⟨k, by rw [Nat.mul_comm k d]; omega⟩

/-- Where flag `i` is that of the number `first + width * i`: from one multiple on, every `q`-th
flag is marked whose number is in front of the bound. -/
theorem exists_turn_place_iff {first width i j q : ℕ} :
    (∃ k, Turn left bound q (width * q) j (first + width * j) i k) ↔
      first + width * i < bound ∧ left ≠ some (first + width * i) ∧ j ≤ i ∧ q ∣ i - j := by
  have hnumber : ∀ k, first + width * j + k * (width * q) = first + width * (j + k * q) := by
    intro k
    rw [Nat.mul_add, Nat.add_assoc, Nat.mul_left_comm]
  constructor
  · rintro ⟨k, hlt, hleft, rfl⟩
    rw [hnumber] at hlt hleft
    exact ⟨hlt, hleft, exists_mul_iff.1 ⟨k, rfl⟩⟩
  · rintro ⟨hlt, hleft, hmul⟩
    obtain ⟨k, rfl⟩ := exists_mul_iff.2 hmul
    exact ⟨k, by rwa [hnumber], by rwa [hnumber], rfl⟩

/-- The multiples of a number behind itself. -/
theorem exists_turn_multiple_iff {d i : ℕ} : (∃ k, Turn none bound d d (d + d) (d + d) i k) ↔
    i < bound ∧ d ∣ i ∧ d + d ≤ i := by
  have hturn : (∃ k, Turn none bound d (1 * d) (d + d) (0 + 1 * (d + d)) i k) ↔ _ :=
    exists_turn_place_iff
  simp only [Nat.one_mul, Nat.zero_add] at hturn
  rw [hturn]
  constructor
  · rintro ⟨hlt, -, hle, hdvd⟩
    refine ⟨hlt, ?_, hle⟩
    rw [← Nat.sub_add_cancel hle]
    exact Nat.dvd_add hdvd (Nat.dvd_add (Nat.dvd_refl d) (Nat.dvd_refl d))
  · rintro ⟨hlt, hdvd, hle⟩
    exact ⟨hlt, nofun, hle, Nat.dvd_sub hdvd (Nat.dvd_add (Nat.dvd_refl d) (Nat.dvd_refl d))⟩

theorem Marks.multiples (h : Marks b n P v) {d fuel : ℕ} (hd : 0 < d) (hfuel : n < fuel) :
    ∃ v', markLoop b none n d d fuel v (d + d) (d + d) = some v' ∧
      Marks b n (fun i => P i ∨ d ∣ i ∧ d + d ≤ i) v' := by
  obtain ⟨v', hrun, h'⟩ := markLoop_spec none n d hd fuel h (by omega : n - (d + d) < fuel)
    fun i k hturn => (exists_turn_multiple_iff.1 ⟨k, hturn⟩).1
  refine ⟨v', hrun, h'.congr fun i hi => ?_⟩
  rw [exists_turn_multiple_iff, and_iff_right hi]

/-- From the first multiple on the others are marked, where flag `i` is that of the number
`first + width * i` and the number itself is left out. -/
theorem First.exists_marked {width top q first r fuel : ℕ} (hfirst : First width top q first r)
    (hr : r < bound) (hbound : bound ≤ top + 1) (hwidth : 0 < width) (hq : 0 < q)
    (hcoprime : Nat.Coprime q width) (hn : ∀ i, i < n ↔ first + width * i < bound)
    (h : Marks b n P v) (hfuel : bound < fuel) :
    ∃ v', markLoop b (some q) bound q (width * q) fuel v ((r - first) / width) r = some v' ∧
      Marks b n (fun i => P i ∨ q ∣ first + width * i ∧ first + width * i ≠ q) v' := by
  obtain ⟨-, hdvd, k, rfl⟩ := hfirst.found.resolve_left (by omega)
  rw [Nat.mul_comm k width] at hdvd hfirst ⊢
  have hsplit : ∀ {i}, k ≤ i → first + width * i = first + width * k + width * (i - k) := by
    intro i hki
    rw [Nat.add_assoc, ← Nat.mul_add, Nat.add_sub_cancel' hki]
  have hplace : ∀ i, (∃ j, Turn (some q) bound q (width * q) k (first + width * k) i j) ↔
      first + width * i < bound ∧ q ∣ first + width * i ∧ first + width * i ≠ q := fun i => by
    rw [exists_turn_place_iff]
    refine and_congr_right fun hi => ?_
    constructor
    · rintro ⟨hne, hki, hmul⟩
      rw [hsplit hki]
      refine ⟨Nat.dvd_add hdvd (Nat.dvd_mul_left_of_dvd hmul width), fun heq => hne ?_⟩
      rw [hsplit hki, heq]
    · rintro ⟨hmul, hne⟩
      have hle := hfirst.le i (by rw [Nat.mul_comm]; omega) (by rwa [Nat.mul_comm])
      rw [Nat.mul_comm i] at hle
      have hki : k ≤ i := Nat.le_of_mul_le_mul_left (Nat.le_of_add_le_add_left hle) hwidth
      rw [hsplit hki] at hmul
      exact ⟨fun heq => hne (Option.some_inj.1 heq).symm, hki,
        hcoprime.dvd_of_dvd_mul_left ((Nat.dvd_add_right hdvd).1 hmul)⟩
  rw [Nat.add_sub_cancel_left, Nat.mul_div_cancel_left k hwidth]
  obtain ⟨v', hrun, hv'⟩ := markLoop_spec (some q) bound q (Nat.mul_pos hwidth hq) fuel h
    (by omega : bound - (first + width * k) < fuel) fun i j hturn =>
      (hn i).2 ((hplace i).1 ⟨j, hturn⟩).1
  refine ⟨v', hrun, hv'.congr fun i hi => ?_⟩
  rw [hplace, and_iff_right ((hn i).1 hi)]

/-- The numbers from `cur` on, `step` apart, whose flags have it that they are printed. -/
def listed (print : Bool → ℕ → Bool) (step : ℕ) : List Bool → ℕ → List ℕ
  | [], _ => []
  | e :: v, cur =>
    if print e cur then cur :: listed print step v (cur + step)
    else listed print step v (cur + step)

variable {print : Bool → ℕ → Bool} {step : ℕ}

theorem mem_listed {x : ℕ} : ∀ {v : List Bool} {cur : ℕ}, x ∈ listed print step v cur ↔
    ∃ i e, v[i]? = some e ∧ x = cur + i * step ∧ print e x = true
  | [], _ => by simp [listed]
  | e :: v, cur => by
    have ih : x ∈ listed print step v (cur + step) ↔ _ := mem_listed
    have hnext : ∀ i, cur + step + i * step = cur + (i + 1) * step := fun i => by
      rw [Nat.add_one_mul, Nat.add_assoc, Nat.add_comm step]
    have hsplit : (∃ i e', (e :: v)[i]? = some e' ∧ x = cur + i * step ∧ print e' x = true) ↔
        (x = cur ∧ print e x = true) ∨
          ∃ i e', v[i]? = some e' ∧ x = cur + step + i * step ∧ print e' x = true := by
      constructor
      · rintro ⟨_ | i, e', hget, hx, hprint⟩
        · rw [List.getElem?_cons_zero, Option.some_inj] at hget
          rw [Nat.zero_mul, Nat.add_zero] at hx
          exact .inl ⟨hx, hget ▸ hprint⟩
        · rw [List.getElem?_cons_succ] at hget
          exact .inr ⟨i, e', hget, by rw [hnext, hx], hprint⟩
      · rintro (⟨hx, hprint⟩ | ⟨i, e', hget, hx, hprint⟩)
        · exact ⟨0, e, rfl, by rw [Nat.zero_mul, Nat.add_zero, hx], hprint⟩
        · exact ⟨i + 1, e', hget, by rw [← hnext, hx], hprint⟩
    rw [hsplit, ← ih, listed]
    by_cases hprint : print e cur
    · rw [if_pos hprint, List.mem_cons]
      refine or_congr_left ⟨fun hx => ⟨hx, hx ▸ hprint⟩, And.left⟩
    · rw [if_neg hprint]
      refine ⟨.inr, fun hor => hor.resolve_left ?_⟩
      rintro ⟨rfl, hprint'⟩
      exact hprint hprint'

theorem listed_pairwise (hstep : 0 < step) : ∀ (v : List Bool) (cur : ℕ),
    (listed print step v cur).Pairwise (· < ·)
  | [], _ => .nil
  | e :: v, cur => by
    have ih := listed_pairwise hstep v (cur + step)
    rw [listed]
    split
    · refine List.pairwise_cons.2 ⟨fun x hx => ?_, ih⟩
      obtain ⟨i, -, -, rfl, -⟩ := mem_listed.1 hx
      omega
    · exact ih

/-- Where no number with a mark is printed. -/
theorem Marks.mem_listed (h : Marks b n P v) {cur x : ℕ} (hprint : ∀ x, print b x = false) :
    x ∈ listed print step v cur ↔
      ∃ i < n, x = cur + i * step ∧ ¬ P i ∧ print (!b) x = true := by
  rw [Sieve.mem_listed]
  constructor
  · rintro ⟨i, e, hget, hx, hshow⟩
    have hi : i < n := h.length ▸ (List.getElem?_eq_some_iff.1 hget).1
    have he : e = !b := by
      refine Bool.eq_not.2 fun heq => ?_
      rw [heq, hprint] at hshow
      exact absurd hshow (by decide)
    subst he
    exact ⟨i, hi, hx, (h.not_iff hi).1 hget, hshow⟩
  · rintro ⟨i, hi, hx, hmark, hshow⟩
    exact ⟨i, !b, (h.not_iff hi).2 hmark, hx, hshow⟩

/-- The primes from `start` to `end_`, in increasing order. -/
def primesIn (start end_ : ℕ) : List ℕ :=
  (List.range' start (end_ + 1 - start)).filter fun p => decide p.Prime

theorem mem_primesIn {start end_ x : ℕ} :
    x ∈ primesIn start end_ ↔ start ≤ x ∧ x ≤ end_ ∧ x.Prime := by
  unfold primesIn
  rw [List.mem_filter, List.mem_range'_1, decide_eq_true_eq]
  constructor
  · rintro ⟨hx, hprime⟩
    exact ⟨hx.1, by omega, hprime⟩
  · rintro ⟨hstart, hend, hprime⟩
    exact ⟨by omega, hprime⟩

theorem primesIn_pairwise (start end_ : ℕ) : (primesIn start end_).Pairwise (· < ·) :=
  (List.pairwise_lt_range' 1 Nat.one_pos).filter _

/-- A list is that of the primes if it is increasing and has no other numbers. -/
theorem eq_primesIn {start end_ : ℕ} {l : List ℕ} (hl : l.Pairwise (· < ·))
    (hmem : ∀ x, x ∈ l ↔ start ≤ x ∧ x ≤ end_ ∧ x.Prime) : l = primesIn start end_ :=
  hl.eq_of_mem_iff (primesIn_pairwise start end_) fun x => by rw [hmem, mem_primesIn]

/-- A number that is not prime has a prime divisor up to its square root. -/
theorem exists_prime_divisor {c : ℕ} (hc : 2 ≤ c) (hprime : ¬ c.Prime) :
    ∃ q, q.Prime ∧ q ∣ c ∧ q * q ≤ c ∧ q + q ≤ c := by
  have hq := Nat.minFac_prime (by omega : c ≠ 1)
  have hsq := Nat.minFac_sq_le_self (by omega : 0 < c) hprime
  rw [Nat.pow_two] at hsq
  have hdouble : c.minFac + c.minFac ≤ c.minFac * c.minFac := by
    rw [← Nat.two_mul]
    exact Nat.mul_le_mul_right _ hq.two_le
  exact ⟨c.minFac, hq, Nat.minFac_dvd c, hsq, hdouble.trans hsq⟩

/-- In an increasing list, the front with a property that goes down has all that have it. -/
theorem mem_takeWhile {p : ℕ → Bool} (hp : ∀ a b, a < b → p b = true → p a = true) {x : ℕ} :
    ∀ {l : List ℕ}, l.Pairwise (· < ·) → x ∈ l → p x = true → x ∈ l.takeWhile p
  | [], _, hx, _ => absurd hx List.not_mem_nil
  | y :: l, hl, hx, hpx => by
    obtain ⟨hy, hl⟩ := List.pairwise_cons.1 hl
    rcases List.mem_cons.1 hx with rfl | hx
    · rw [List.takeWhile_cons_of_pos hpx]
      exact List.mem_cons_self
    · rw [List.takeWhile_cons_of_pos (hp y x (hy x hx) hpx)]
      exact List.mem_cons_of_mem y (mem_takeWhile hp hl hx hpx)

/-- A prime is no multiple of another. -/
theorem not_multiple {p q : ℕ} (hp : p.Prime) (hq : q.Prime) : (q != p && q % p == 0) = false := by
  rw [Bool.and_eq_false_iff]
  by_cases hpq : q = p
  · exact .inl (by simp [hpq])
  · refine .inr (beq_false_of_ne fun hmod => hpq ?_)
    exact ((Nat.prime_dvd_prime_iff_eq hp hq).1 (Nat.dvd_of_mod_eq_zero hmod)).symm

end Sieve
