import CPPCodes.Dates.Date
import Mathlib.Data.List.Basic
import Mathlib.Data.Prod.Lex
import Mathlib.Order.Nat
import Mathlib.Tactic.Common

/-!
# The order of dates

`operator <` goes on to the month when the year is not smaller, and so does not see that it is
greater. So it orders two dates exactly if no field of the one is smaller and another greater
(`ordered_iff`); then it is the lexicographic order.
-/

namespace CPPCodes.Dates

namespace Date

/-- `operator <`. -/
def lt (d rhs : Date) : Bool :=
  if d.year < rhs.year then true
  else if d.month.toNat < rhs.month.toNat then true
  else if d.day < rhs.day then true
  else false

/-- `operator ==`. -/
def same (d rhs : Date) : Bool :=
  if d.year = rhs.year ∧ d.month = rhs.month ∧ d.day = rhs.day then true else false

/-- Year, month and day, to be compared in this order. -/
def key (d : Date) : ℕ ×ₗ ℕ ×ₗ ℕ := toLex (d.year.toNat, toLex (d.month.toNat, d.day.toNat))

/-- No field is greater than the other date's. -/
structure Within (a b : Date) : Prop where
  year : a.year.toNat ≤ b.year.toNat
  month : a.month.toNat ≤ b.month.toNat
  day : a.day.toNat ≤ b.day.toNat

/-- The fields do not disagree about the order of the dates. -/
def InLine (a b : Date) : Prop := Within a b ∨ Within b a

/-- One of the three holds, and no other. -/
def ExactlyOne (p q r : Prop) : Prop := (p ∧ ¬ q ∧ ¬ r) ∨ (¬ p ∧ q ∧ ¬ r) ∨ (¬ p ∧ ¬ q ∧ r)

/-- What the operators of a total order say of two dates, and of a third. -/
structure Ordered (a b c : Date) : Prop where
  one : ExactlyOne (a.lt b = true) (a.same b = true) (b.lt a = true)
  gt : a.gt b = true ↔ b.lt a = true
  trans : a.lt b = true → b.lt c = true → a.lt c = true
  lex : a.lt b = true ↔ a.key < b.key

variable {a b c : Date}

theorem month_toNat_inj {m m' : Month} : m.toNat = m'.toNat ↔ m = m' := by
  unfold Month.toNat
  exact List.idxOf_inj (by cases m <;> decide)

theorem lt_iff : a.lt b = true ↔ a.year.toNat < b.year.toNat ∨ a.month.toNat < b.month.toNat ∨
    a.day.toNat < b.day.toNat := by
  rw [← UInt16.lt_iff_toNat_lt, ← UInt8.lt_iff_toNat_lt]
  unfold lt
  split_ifs with hy hm hd
  · exact iff_of_true rfl (.inl hy)
  · exact iff_of_true rfl (.inr (.inl hm))
  · exact iff_of_true rfl (.inr (.inr hd))
  · exact iff_of_false (by simp) (by tauto)

theorem gt_iff : a.gt b = true ↔ b.lt a = true := by
  unfold gt lt
  rfl

theorem same_iff : a.same b = true ↔ a.year.toNat = b.year.toNat ∧
    a.month.toNat = b.month.toNat ∧ a.day.toNat = b.day.toNat := by
  rw [UInt16.toNat_inj, month_toNat_inj, UInt8.toNat_inj]
  unfold same
  simp

theorem key_lt_iff : a.key < b.key ↔ a.year.toNat < b.year.toNat ∨
    a.year.toNat = b.year.toNat ∧ (a.month.toNat < b.month.toNat ∨
      a.month.toNat = b.month.toNat ∧ a.day.toNat < b.day.toNat) := by
  unfold key
  rw [Prod.Lex.toLex_lt_toLex, Prod.Lex.toLex_lt_toLex]

theorem not_lt_iff : ¬ a.lt b = true ↔ Within b a := by
  rw [lt_iff]
  constructor
  · exact fun h => ⟨by omega, by omega, by omega⟩
  · rintro ⟨hy, hm, hd⟩
    omega

theorem Within.trans (hab : Within a b) (hbc : Within b c) : Within a c :=
  ⟨hab.year.trans hbc.year, hab.month.trans hbc.month, hab.day.trans hbc.day⟩

theorem same_iff_within : a.same b = true ↔ Within a b ∧ Within b a := by
  rw [same_iff]
  constructor
  · rintro ⟨hy, hm, hd⟩
    exact ⟨⟨hy.le, hm.le, hd.le⟩, ⟨hy.ge, hm.ge, hd.ge⟩⟩
  · rintro ⟨h, h'⟩
    exact ⟨h.year.antisymm h'.year, h.month.antisymm h'.month, h.day.antisymm h'.day⟩

/-- In line, the first field that differs decides as every field does. -/
theorem InLine.lt_iff_key_lt (h : InLine a b) : a.lt b = true ↔ a.key < b.key := by
  rw [lt_iff, key_lt_iff]
  rcases h with h | h
  all_goals
    have hy := h.year
    have hm := h.month
    have hd := h.day
    omega

theorem InLine.trans (h : InLine a b) (hab : a.lt b = true) (hbc : b.lt c = true) :
    a.lt c = true := by
  have hle : Within a b := h.resolve_right fun h' => not_lt_iff.2 h' hab
  by_contra hac
  exact not_lt_iff.2 ((not_lt_iff.1 hac).trans hle) hbc

/-- The operators order two dates exactly if they are in line, whatever the third. -/
theorem ordered_iff (a b c : Date) : Ordered a b c ↔ InLine a b := by
  constructor
  · intro h
    by_contra hno
    obtain ⟨hab, hba⟩ := not_or.1 hno
    have hlt : a.lt b = true := by_contra fun hlt => hba (not_lt_iff.1 hlt)
    have hgt : b.lt a = true := by_contra fun hgt => hab (not_lt_iff.1 hgt)
    rcases h.one with ⟨-, -, hn⟩ | ⟨hn, -⟩ | ⟨hn, -⟩
    · exact hn hgt
    · exact hn hlt
    · exact hn hlt
  · intro h
    refine ⟨?_, gt_iff, h.trans, h.lt_iff_key_lt⟩
    unfold ExactlyOne
    rw [same_iff_within, ← not_lt_iff, ← not_lt_iff]
    have hone : ¬ (a.lt b = true ∧ b.lt a = true) := by
      rintro ⟨hab, hba⟩
      exact h.elim (fun h => not_lt_iff.2 h hba) (fun h => not_lt_iff.2 h hab)
    tauto

/-- January 2020 is less than February 2019, which is less than January 2020. -/
theorem not_ordered : ¬ ∀ a b c : Date, Ordered a b c := by
  intro h
  have hone := (h ⟨2020, .JAN, 1⟩ ⟨2019, .FEB, 1⟩ ⟨2019, .FEB, 1⟩).one
  unfold ExactlyOne at hone
  have hlt : lt ⟨2020, .JAN, 1⟩ ⟨2019, .FEB, 1⟩ = true := rfl
  have hgt : lt ⟨2019, .FEB, 1⟩ ⟨2020, .JAN, 1⟩ = true := rfl
  tauto

end Date

end CPPCodes.Dates
