import Mathlib.Data.Int.Notation
import Mathlib.Data.Nat.Notation

/-!
# Dates

`Date` of date.h with its methods. The integers are as wide as the program's, and are promoted
where it promotes them. `operator -` calls itself; `sub` gives it a number of calls to make.
-/

namespace CPPCodes.Dates

inductive Month
  | JAN
  | FEB
  | MARCH
  | APRIl
  | MAY
  | JUNE
  | JULY
  | AUGUST
  | SEPTEMBER
  | OCT
  | NOV
  | DEC
  deriving DecidableEq, Repr

/-- The enumerators in turn, as the conversions to and from `int` number them. -/
def months : List Month :=
  [.JAN, .FEB, .MARCH, .APRIl, .MAY, .JUNE, .JULY, .AUGUST, .SEPTEMBER, .OCT, .NOV, .DEC]

def Month.toNat (m : Month) : ℕ := months.idxOf m

@[ext]
structure Date where
  year : UInt16
  month : Month
  day : UInt8
  deriving DecidableEq, Repr

namespace Date

def kDaysInMonth : Month → UInt8
  | .JAN => 31
  | .FEB => 28
  | .MARCH => 31
  | .APRIl => 30
  | .MAY => 31
  | .JUNE => 30
  | .JULY => 31
  | .AUGUST => 31
  | .SEPTEMBER => 30
  | .OCT => 31
  | .NOV => 30
  | .DEC => 31

/-- `Accumulate` of the array. -/
def kDaysInYear : UInt16 := (months.foldl (fun sum m => sum + (kDaysInMonth m).toUInt32) 0).toUInt16

def checkLeapYear (year : UInt16) : Bool :=
  if year % 400 = 0 then true
  else if year % 100 = 0 then false
  else if year % 4 = 0 then true
  else false

variable (d rhs : Date)

def isLeapYear : Bool := checkLeapYear d.year

def daysInYear (year : UInt16) : UInt32 := kDaysInYear.toUInt32 + (checkLeapYear year).toUInt32

/-- `DaysInMonth` in a leap year or another. -/
def daysInMonthOf (leap : Bool) (month : Month) : UInt8 :=
  kDaysInMonth month + if month = .FEB then leap.toUInt8 else 0

def daysInMonth (month : Month) : UInt8 := daysInMonthOf d.isLeapYear month

def elapsedDays : UInt16 :=
  (months.take d.month.toNat).foldl (fun days m => days + (d.daysInMonth m).toUInt16) 0
    + d.day.toUInt16

def remainingDays : UInt16 := (daysInYear d.year - d.elapsedDays.toUInt32).toUInt16

/-- `operator >`. -/
def gt : Bool :=
  if rhs.year < d.year then true
  else if rhs.month.toNat < d.month.toNat then true
  else if rhs.day < d.day then true
  else false

/-- The loop of `operator -` over the years between. -/
def daysBetween (year rhsYear : UInt16) : Int32 :=
  (List.range' (year.toNat + 1) (rhsYear.toNat - (year.toNat + 1))).foldl
    (fun d y => d + (daysInYear (.ofNat y)).toInt32) 0

/-- `operator -`, to a depth of `fuel` calls. -/
def sub : ℕ → Date → Date → Option Int32
  | 0, _, _ => none
  | fuel + 1, d, rhs =>
    if d = rhs then some 0
    else if d.year = rhs.year then
      some (d.elapsedDays.toUInt32.toInt32 - rhs.elapsedDays.toUInt32.toInt32)
    else if d.gt rhs then (sub fuel rhs d).map (- ·)
    else some (-(daysBetween d.year rhs.year + d.remainingDays.toUInt32.toInt32
      + rhs.elapsedDays.toUInt32.toInt32))

end Date

end CPPCodes.Dates
