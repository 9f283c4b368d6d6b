/-!
# The calendar

Dates of the years 1 to 9999 in the proleptic Gregorian calendar, and days counted from the first
of January of the year 1.
-/

namespace AuditTrail.Calendar

def isLeap (y : Nat) : Bool := y % 4 == 0 && (y % 100 != 0 || y % 400 == 0)

def daysBeforeYear (y : Nat) : Nat := 365 * (y - 1) + (y - 1) / 4 - (y - 1) / 100 + (y - 1) / 400

/-- Days of a year before a month, in a year of 365 days. -/
def daysBeforeMonth : Nat → Nat
  | 2 => 31 | 3 => 59 | 4 => 90 | 5 => 120 | 6 => 151 | 7 => 181
  | 8 => 212 | 9 => 243 | 10 => 273 | 11 => 304 | 12 => 334
  | _ => 0

def daysInMonth (y m : Nat) : Nat :=
  match m with
  | 2 => if isLeap y then 29 else 28
  | 4 | 6 | 9 | 11 => 30
  | _ => 31

structure Date where
  year : Nat
  month : Nat
  day : Nat
deriving DecidableEq

namespace Date

def isValid (d : Date) : Bool :=
  1 ≤ d.year && d.year ≤ 9999 && 1 ≤ d.month && d.month ≤ 12 && 1 ≤ d.day &&
    d.day ≤ daysInMonth d.year d.month

def monthStart (y m : Nat) : Nat := daysBeforeMonth m + if isLeap y && 2 < m then 1 else 0

def days (d : Date) : Nat := daysBeforeYear d.year + monthStart d.year d.month + (d.day - 1)

end Date

/-- The year of a day, searched upward from a year that is not later. -/
def yearFrom (day y : Nat) : Nat :=
  if daysBeforeYear (y + 1) ≤ day ∧ y < day then yearFrom day (y + 1) else y
termination_by day - y

def yearOf (day : Nat) : Nat := yearFrom day (day / 366 + 1)

def monthOf (y dayOfYear : Nat) : Nat :=
  ((List.range' 1 12).reverse.find? fun m => Date.monthStart y m ≤ dayOfYear).getD 1

def dateOf (day : Nat) : Date :=
  let y := yearOf day
  let rest := day - daysBeforeYear y
  let m := monthOf y rest
  ⟨y, m, rest - Date.monthStart y m + 1⟩

/-- Days from the first of January of the year 1 to the end of the year 9999. -/
def dayLimit : Nat := 3652059

/-- Days before the Monday of the first week of a year, which holds the first Thursday; counted
from the seventh day before the year 1. -/
def weekOneMonday (y : Nat) : Nat :=
  let first := daysBeforeYear y
  let weekday := first % 7
  first + 7 - weekday + if 3 < weekday then 7 else 0

def hasWeek53 (y : Nat) : Bool :=
  let weekday := daysBeforeYear y % 7
  weekday == 3 || (weekday == 2 && isLeap y)

/-- The day of a week date, if it lies before the end of the year 9999. -/
def ofWeek? (y week weekday : Nat) : Option Nat :=
  if 1 ≤ y ∧ y ≤ 9999 ∧ 1 ≤ week ∧ (week ≤ 52 ∨ (week = 53 ∧ hasWeek53 y)) ∧ 1 ≤ weekday ∧ weekday ≤ 7 then
    let day := weekOneMonday y + (week - 1) * 7 + (weekday - 1) - 7
    if day < dayLimit then some day else none
  else none

end AuditTrail.Calendar
