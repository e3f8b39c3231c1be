import CPPCodes.Dates.Date
import CPPCodes.Lib.Calendar

/-!
# Subtraction against the calendar

The lengths of the months and years are those of the Gregorian calendar, and so are the two
formulas of `operator -`, for the same year and across years (`sub_same`, `sub_across`). Between
them `operator >` decides which date to take away from which, and it compares months and days even
when the years differ. Where it calls the earlier date the greater, the two calls swap the dates
for ever, so the difference is right exactly for the dates of `Comparable` (`sub_iff`).
-/

namespace CPPCodes.Dates

namespace Date

/-- A day of its month. -/
def Valid (d : Date) : Prop := 1 ≤ d.day.toNat ∧ d.day.toNat ≤ (d.daysInMonth d.month).toNat

instance (d : Date) : Decidable d.Valid := inferInstanceAs (Decidable (_ ∧ _))

def dayNumber (d : Date) : ℤ := Calendar.dayNumber d.year.toNat d.month.toNat d.day.toNat

variable {a b c d : Date}

theorem mod_eq_zero_iff (y : UInt16) {m : UInt16} : y % m = 0 ↔ (m.toNat : ℤ) ∣ y.toNat := by
  rw [← UInt16.toNat_inj, UInt16.toNat_mod, Int.natCast_dvd_natCast, Nat.dvd_iff_mod_eq_zero]
  rfl

theorem checkLeapYear_eq (y : UInt16) : checkLeapYear y = decide (Calendar.IsLeap y.toNat) := by
  rw [Bool.eq_iff_iff, decide_eq_true_iff]
  unfold checkLeapYear Calendar.IsLeap
  simp only [mod_eq_zero_iff, UInt16.reduceToNat, Nat.cast_ofNat]
  split_ifs <;> simp only [true_iff, false_iff] <;> omega

theorem kDaysInYear_eq : kDaysInYear = 365 := by decide

theorem daysInYear_toNat (y : UInt16) :
    ((daysInYear y).toNat : ℤ) = Calendar.yearLength y.toNat := by
  unfold daysInYear Calendar.yearLength
  rw [kDaysInYear_eq, checkLeapYear_eq]
  split_ifs with h <;> simp only [h, decide_true, decide_false] <;> rfl

theorem daysInMonthOf_toNat (leap : Bool) (m : Month) :
    (daysInMonthOf leap m).toNat = Calendar.monthLength leap m.toNat := by
  cases leap <;> cases m <;> decide

/-- The months before one, added up as `ElapsedDays` does it. -/
def monthsBefore (leap : Bool) (m : Month) : UInt16 :=
  (months.take m.toNat).foldl (fun days m => days + (daysInMonthOf leap m).toUInt16) 0

theorem monthsBefore_toNat (leap : Bool) (m : Month) :
    (monthsBefore leap m).toNat = Calendar.daysBeforeMonth leap m.toNat := by
  cases leap <;> cases m <;> decide

/-- The year has room for the months before one and the days of that one. -/
theorem daysBeforeMonth_add_le (leap : Bool) (m : Month) :
    Calendar.daysBeforeMonth leap m.toNat + Calendar.monthLength leap m.toNat
      ≤ Calendar.daysBeforeMonth leap 12 := by
  cases leap <;> cases m <;> decide

theorem elapsedDays_spec (h : d.Valid) :
    (d.elapsedDays.toNat : ℤ) = Calendar.daysBeforeMonth (Calendar.IsLeap d.year.toNat) d.month.toNat
      + d.day.toNat ∧ (d.elapsedDays.toNat : ℤ) ≤ Calendar.yearLength d.year.toNat := by
  have hday : d.day.toNat ≤ Calendar.monthLength d.isLeapYear d.month.toNat := by
    rw [← daysInMonthOf_toNat]
    exact h.2
  have hroom := daysBeforeMonth_add_le d.isLeapYear d.month
  have hyear :
      (Calendar.daysBeforeMonth d.isLeapYear 12 : ℤ) = Calendar.yearLength d.year.toNat := by
    rw [isLeapYear, checkLeapYear_eq, Calendar.daysBeforeMonth_year]
  have hlen := (Calendar.yearLength_mem d.year.toNat).2
  have hadd : d.elapsedDays.toNat
      = Calendar.daysBeforeMonth d.isLeapYear d.month.toNat + d.day.toNat := by
    rw [show d.elapsedDays = monthsBefore d.isLeapYear d.month + d.day.toUInt16 from rfl,
      UInt16.toNat_add, monthsBefore_toNat, UInt8.toNat_toUInt16]
    omega
  rw [hadd, Nat.cast_add]
  refine ⟨?_, by omega⟩
  rw [isLeapYear, checkLeapYear_eq]

theorem remainingDays_spec (h : d.Valid) :
    (d.remainingDays.toNat : ℤ) = Calendar.yearLength d.year.toNat - d.elapsedDays.toNat := by
  have hyear := daysInYear_toNat d.year
  have hlen := (Calendar.yearLength_mem d.year.toNat).2
  have hle := (elapsedDays_spec h).2
  unfold remainingDays
  rw [UInt32.toNat_toUInt16, UInt32.toNat_sub, UInt16.toNat_toUInt32]
  omega

/-- The promotion of a small unsigned integer to `int`. -/
theorem toInt32_eq (x : UInt16) : x.toUInt32.toInt32 = Int32.ofInt x.toNat := by
  rw [Int32.ofInt_eq_ofNat, ← UInt32.toInt32_ofNat', UInt32.ofNat_uInt16ToNat]

theorem daysInYear_toInt32 (y : ℕ) (hy : y < 2 ^ 16) :
    (daysInYear (.ofNat y)).toInt32 = Int32.ofInt (Calendar.yearLength y) := by
  have h := daysInYear_toNat (.ofNat y)
  rw [UInt16.toNat_ofNat_of_lt' hy] at h
  rw [← h, Int32.ofInt_eq_ofNat, ← UInt32.toInt32_ofNat', UInt32.ofNat_toNat]

theorem foldl_daysInYear (y : ℕ) : ∀ (n : ℕ) (z : ℤ), y + n ≤ 2 ^ 16 →
    (List.range' y n).foldl (fun d y => d + (daysInYear (.ofNat y)).toInt32) (Int32.ofInt z)
      = Int32.ofInt (z + ∑ i ∈ Finset.range n, Calendar.yearLength (y + i))
  | 0, z, _ => by simp
  | n + 1, z, hn => by
    rw [List.range'_concat, List.foldl_append, foldl_daysInYear y n z (by omega), List.foldl_cons,
      List.foldl_nil, one_mul, daysInYear_toInt32 (y + n) (by omega), ← Int32.ofInt_add,
      Finset.sum_range_succ, add_assoc, Nat.cast_add]

theorem daysBetween_eq (h : a.year < b.year) :
    daysBetween a.year b.year = Int32.ofInt (Calendar.daysBeforeYear b.year.toNat
      - Calendar.daysBeforeYear a.year.toNat - Calendar.yearLength a.year.toNat) := by
  have hlt : a.year.toNat < b.year.toNat := h
  have hb := b.year.toNat_lt
  obtain ⟨n, hn⟩ : ∃ n, b.year.toNat = a.year.toNat + 1 + n := ⟨_, (Nat.add_sub_of_le hlt).symm⟩
  have hloop := foldl_daysInYear (a.year.toNat + 1) n 0 (by omega)
  have hsum := Calendar.daysBeforeYear_add (a.year.toNat + 1) n
  rw [Calendar.daysBeforeYear_succ] at hsum
  unfold daysBetween
  rw [show b.year.toNat - (a.year.toNat + 1) = n by omega,
    show (0 : Int32) = Int32.ofInt 0 from rfl, hloop, hn]
  push_cast
  rw [hsum]
  congr 1
  ring

theorem dayNumber_eq (h : d.Valid) :
    d.dayNumber = Calendar.daysBeforeYear d.year.toNat + d.elapsedDays.toNat := by
  rw [(elapsedDays_spec h).1]
  unfold dayNumber Calendar.dayNumber
  ring

/-- The closed formula keeps the numbers of all days small. -/
theorem daysBeforeYear_bounds (y : UInt16) :
    -366 ≤ Calendar.daysBeforeYear y.toNat ∧ Calendar.daysBeforeYear y.toNat < 2 ^ 25 := by
  have := y.toNat_lt
  unfold Calendar.daysBeforeYear
  omega

/-- `a - b` comes to the end and is `v`. -/
def Minus (a b : Date) (v : Int32) : Prop := ∃ fuel, sub fuel a b = some v

/-- `a - b` comes to the end and is the number of days from `b` to `a`. -/
def DayDifference (a b : Date) : Prop := ∃ v, Minus a b v ∧ v.toInt = a.dayNumber - b.dayNumber

theorem toInt_difference (ha : a.Valid) (hb : b.Valid) :
    (Int32.ofInt (a.dayNumber - b.dayNumber)).toInt = a.dayNumber - b.dayNumber := by
  have hab := daysBeforeYear_bounds a.year
  have hbb := daysBeforeYear_bounds b.year
  have hea := (elapsedDays_spec ha).2
  have heb := (elapsedDays_spec hb).2
  have hla := (Calendar.yearLength_mem a.year.toNat).2
  have hlb := (Calendar.yearLength_mem b.year.toNat).2
  rw [dayNumber_eq ha, dayNumber_eq hb]
  exact Int32.toInt_ofInt_of_le (by omega) (by omega)

theorem sub_same (ha : a.Valid) (hb : b.Valid) (hy : a.year = b.year) (fuel : ℕ) :
    sub (fuel + 1) a b = some (Int32.ofInt (a.dayNumber - b.dayNumber)) := by
  unfold sub
  by_cases hab : a = b
  · simp [hab]
  · rw [if_neg hab, if_pos hy, toInt32_eq, toInt32_eq, ← Int32.ofInt_sub, dayNumber_eq ha,
      dayNumber_eq hb, hy]
    congr 2
    ring

theorem sub_across (ha : a.Valid) (hb : b.Valid) (hy : a.year < b.year) (hgt : a.gt b = false)
    (fuel : ℕ) : sub (fuel + 1) a b = some (Int32.ofInt (a.dayNumber - b.dayNumber)) := by
  have hne : a.year ≠ b.year := UInt16.ne_of_lt hy
  have hab : a ≠ b := fun h => hne (congrArg Date.year h)
  have hrem := remainingDays_spec ha
  unfold sub
  rw [if_neg hab, if_neg hne, hgt, if_neg (by simp), daysBetween_eq hy, toInt32_eq, toInt32_eq,
    ← Int32.ofInt_add, ← Int32.ofInt_add, ← Int32.ofInt_neg, dayNumber_eq ha, dayNumber_eq hb, hrem]
  congr 2
  ring

/-- A date of an earlier year, and no later in month or day. -/
structure Before (a b : Date) : Prop where
  year : a.year < b.year
  month : a.month.toNat ≤ b.month.toNat
  day : a.day ≤ b.day

def Comparable (a b : Date) : Prop := a.year = b.year ∨ Before a b ∨ Before b a

theorem gt_of_year (h : b.year < a.year) : a.gt b = true := by simp [gt, h]

theorem gt_eq_false_iff (h : a.year < b.year) : a.gt b = false ↔ Before a b := by
  have hy : ¬ b.year < a.year := UInt16.not_lt.2 (UInt16.le_of_lt h)
  unfold gt
  rw [if_neg hy]
  constructor
  · intro hf
    split_ifs at hf with hm hd
    exact ⟨h, Nat.le_of_not_lt hm, UInt8.not_lt.1 hd⟩
  · intro hB
    rw [if_neg (Nat.not_lt.2 hB.month), if_neg (UInt8.not_lt.2 hB.day)]

theorem sub_before (ha : a.Valid) (hb : b.Valid) (h : Before a b) (fuel : ℕ) :
    sub (fuel + 1) a b = some (Int32.ofInt (a.dayNumber - b.dayNumber)) :=
  sub_across ha hb h.year ((gt_eq_false_iff h.year).2 h) fuel

/-- The later date less the earlier takes one more call. -/
theorem sub_gt (hne : a.year ≠ b.year) (hgt : a.gt b = true) (fuel : ℕ) :
    sub (fuel + 1) a b = (sub fuel b a).map (- ·) := by
  have hab : a ≠ b := fun h => hne (congrArg Date.year h)
  rw [sub, if_neg hab, if_neg hne, if_pos hgt]

/-- Each date counts as greater than the other, and the calls do not come to an end. -/
theorem sub_swaps (hne : a.year ≠ b.year) (hab : a.gt b = true) (hba : b.gt a = true) :
    ∀ fuel, sub fuel a b = none ∧ sub fuel b a = none
  | 0 => ⟨rfl, rfl⟩
  | fuel + 1 => by
    obtain ⟨h1, h2⟩ := sub_swaps hne hab hba fuel
    rw [sub_gt hne hab, sub_gt hne.symm hba, h1, h2]
    exact ⟨rfl, rfl⟩

theorem not_comparable (h : ¬ Comparable a b) :
    a.year ≠ b.year ∧ a.gt b = true ∧ b.gt a = true := by
  unfold Comparable at h
  push Not at h
  obtain ⟨hne, hab, hba⟩ := h
  rcases UInt16.lt_or_lt_of_ne hne with hlt | hlt
  · exact ⟨hne, by simpa using mt (gt_eq_false_iff hlt).1 hab, gt_of_year hlt⟩
  · exact ⟨hne, gt_of_year hlt, by simpa using mt (gt_eq_false_iff hlt).1 hba⟩

theorem minus_of_comparable (ha : a.Valid) (hb : b.Valid) (h : Comparable a b) :
    Minus a b (Int32.ofInt (a.dayNumber - b.dayNumber)) := by
  rcases h with hy | h | h
  · exact ⟨1, sub_same ha hb hy 0⟩
  · exact ⟨1, sub_before ha hb h 0⟩
  · refine ⟨2, ?_⟩
    rw [sub_gt (UInt16.ne_of_lt h.year).symm (gt_of_year h.year), sub_before hb ha h 0,
      Option.map_some, ← Int32.ofInt_neg]
    congr 2
    ring

/-- The calls come to an end only for dates that are comparable. -/
theorem Minus.comparable {v : Int32} (h : Minus a b v) : Comparable a b := by
  obtain ⟨fuel, hv⟩ := h
  by_contra hno
  obtain ⟨hne, hab, hba⟩ := not_comparable hno
  rw [(sub_swaps hne hab hba fuel).1] at hv
  cases hv

theorem dayDifference_iff (ha : a.Valid) (hb : b.Valid) : DayDifference a b ↔ Comparable a b := by
  constructor
  · rintro ⟨v, hv, -⟩
    exact hv.comparable
  · exact fun h => ⟨_, minus_of_comparable ha hb h, toInt_difference ha hb⟩

theorem Comparable.symm (h : Comparable a b) : Comparable b a := by
  rcases h with h | h | h
  · exact .inl h.symm
  · exact .inr (.inr h)
  · exact .inr (.inl h)

/-- The difference of two dates is the number of days between them exactly when they are of the
same year or the one of the later year is no earlier in month and in day; otherwise the calls do
not come to an end. So differences swap their sign, and add up, for dates that are so in pairs. -/
theorem sub_iff (ha : a.Valid) (hb : b.Valid) :
    (DayDifference a b ↔ Comparable a b) ∧ ((∃ v, Minus a b v) ↔ Comparable a b) ∧
    (Comparable a b → ∃ v w, Minus a b v ∧ Minus b a w ∧ v.toInt = -w.toInt) ∧
    ∀ c : Date, c.Valid → Comparable a b → Comparable b c → Comparable a c →
      ∃ u v w, Minus a b u ∧ Minus b c v ∧ Minus a c w ∧ u.toInt + v.toInt = w.toInt := by
  refine ⟨dayDifference_iff ha hb,
    ⟨fun ⟨_, hv⟩ => hv.comparable, fun h => ⟨_, minus_of_comparable ha hb h⟩⟩,
    fun h => ⟨_, _, minus_of_comparable ha hb h, minus_of_comparable hb ha h.symm, ?_⟩,
    fun c hc hab hbc hac => ⟨_, _, _, minus_of_comparable ha hb hab, minus_of_comparable hb hc hbc,
      minus_of_comparable ha hc hac, ?_⟩⟩
  · rw [toInt_difference ha hb, toInt_difference hb ha]
    ring
  · rw [toInt_difference ha hb, toInt_difference hb hc, toInt_difference ha hc]
    ring

theorem sub_iff_leap : DayDifference ⟨2020, .FEB, 29⟩ ⟨2021, .MARCH, 31⟩ :=
  (sub_iff (by decide) (by decide)).1.2 (.inr (.inl ⟨by decide, by decide, by decide⟩))

/-- The second month of a year counts as later than the first of the next. -/
theorem not_dayDifference : ¬ ∀ a b : Date, a.Valid → b.Valid → DayDifference a b := by
  intro h
  have hd := h ⟨2019, .FEB, 1⟩ ⟨2020, .JAN, 1⟩ (by decide) (by decide)
  rcases (dayDifference_iff (by decide) (by decide)).1 hd with hy | hB | hB
  · exact absurd hy (by decide)
  · exact absurd hB.month (by decide)
  · exact absurd hB.year (by decide)

end Date

end CPPCodes.Dates
