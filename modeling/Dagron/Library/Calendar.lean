import Mathlib.Algebra.GroupWithZero.Nat
import Mathlib.Data.List.Basic
import Mathlib.Data.Int.Basic

/-! The Gregorian calendar, before and after the day it began: each date has a number, each number
is of one date, and every day of the week is of every date of some year.
-/

namespace Dagron.Library.Calendar

-- Years

def leap (year : Int) : Bool :=
  year % 4 = 0 ∧ (year % 100 ≠ 0 ∨ year % 400 = 0)

/-- How many days come before a year, from the first day of the year nought. -/
def daysBefore (year : Int) : Int :=
  365 * year + (year + 3) / 4 - (year + 99) / 100 + (year + 399) / 400

theorem leap_iff {year : Int}
    : leap year ↔ year % 4 = 0 ∧ (year % 100 ≠ 0 ∨ year % 400 = 0) := by
  simp [leap]

def months (long : Bool) : List Nat :=
  [31, if long then 29 else 28, 31, 30, 31, 30, 31, 31, 30, 31, 30, 31]

theorem daysBefore_succ (year : Int)
    : daysBefore (year + 1) = daysBefore year + (months (leap year)).sum := by
  unfold daysBefore
  cases is_ : leap year with
  | true =>
      rw [leap_iff] at is_
      show _ = _ + (366 : Int)
      omega
  | false =>
      rw [Bool.eq_false_iff, Ne, leap_iff] at is_
      show _ = _ + (365 : Int)
      omega

theorem daysBefore_near (year : Int)
    : 400 * daysBefore year ≤ 146097 * year + 699
        ∧ 146097 * year ≤ 400 * daysBefore year + 396 := by
  unfold daysBefore
  omega

theorem exists_year (day : Int)
    : ∃ year, daysBefore year ≤ day ∧ day < daysBefore (year + 1) := by
  generalize share : day * 400 / 146097 = near
  have earlier := daysBefore_near (near - 1)
  have here := daysBefore_near near
  have later := daysBefore_near (near + 1)
  have last := daysBefore_near (near + 1 + 1)
  by_cases begun : daysBefore (near + 1) ≤ day
  · exact ⟨near + 1, begun, by omega⟩
  by_cases begun' : daysBefore near ≤ day
  · exact ⟨near, begun', by omega⟩
  · refine ⟨near - 1, by omega, ?_⟩
    rw [Int.sub_add_cancel]
    omega

-- Months

def monthLength (long : Bool) (month : Nat) : Nat :=
  (months long).getD (month - 1) 0

def daysBeforeMonth (long : Bool) (month : Nat) : Nat :=
  ((months long).take (month - 1)).sum

/-- A place below the sum of some lengths is within one of them, after those before it: by induction
over the lengths.
-/
theorem exists_part {lengths : List Nat} {place : Nat} (within : place < lengths.sum)
    : ∃ part < lengths.length, (lengths.take part).sum ≤ place
        ∧ place < (lengths.take part).sum + lengths.getD part 0 := by
  induction lengths generalizing place with
  | nil => cases within
  | cons length rest ih =>
      rw [List.sum_cons] at within
      by_cases first : place < length
      · exact ⟨0, by simp, by simp, by simpa using first⟩
      · obtain ⟨part, short, since, till⟩ := @ih (place - length) (by omega)
        refine ⟨part + 1, by simpa using short, ?_, ?_⟩
        · rw [List.take_succ_cons, List.sum_cons]
          omega
        · rw [List.take_succ_cons, List.sum_cons, List.getD_cons_succ]
          omega

-- Dates

/-- A date: a day of a month of a year. -/
structure Date where
  year
    : Int
  month
    : Nat
  day
    : Nat
  is_month
    : 1 ≤ month ∧ month ≤ 12
  is_day
    : 1 ≤ day ∧ day ≤ monthLength (leap year) month

/-- The number of the first day of 1970, from the first of the year nought. -/
def epoch : Int :=
  719528

/-- The number of a date, counted from the first day of 1970. -/
def Date.number (date : Date) : Int :=
  daysBefore date.year - epoch + daysBeforeMonth (leap date.year) date.month + (date.day - 1)

theorem exists_date (number : Int)
    : ∃ date : Date, date.number = number := by
  obtain ⟨year, since, till⟩ := exists_year (number + epoch)
  rw [daysBefore_succ] at till
  obtain ⟨place, counted⟩ := Int.eq_ofNat_of_zero_le (Int.sub_nonneg_of_le since)
  have within : place < (months (leap year)).sum := by omega
  obtain ⟨part, short, since', till'⟩ := exists_part within
  have twelve : (months (leap year)).length = 12 := rfl
  refine ⟨⟨year, part + 1, place - ((months (leap year)).take part).sum + 1, by omega, ?_⟩, ?_⟩
  · rw [monthLength, Nat.add_sub_cancel]
    omega
  · rw [Date.number, daysBeforeMonth]
    dsimp only
    rw [Nat.add_sub_cancel]
    omega

def longest (month : Nat) : Nat :=
  monthLength true month

theorem longest_le {month : Nat} (within : month ≤ 12)
    : longest month ≤ 31 := by
  have all : ∀ month < 13, longest month ≤ 31 := by decide
  exact all month (Nat.lt_succ_of_le within)

theorem monthLength_le_longest (long : Bool) (month : Nat)
    : monthLength long month ≤ longest month := by
  have all : ∀ long, ∀ month < 13, monthLength long month ≤ longest month := by decide
  by_cases small : month < 13
  · exact all long month small
  · have none_ : (months long)[month - 1]? = none :=
      List.getElem?_eq_none (by show 12 ≤ month - 1; omega)
    rw [monthLength, List.getD_eq_getElem?_getD, none_]
    exact Nat.zero_le _

-- Days of the week

/-- The day of the week of a day's number, from Sunday on: the first day of 1970 was a Thursday. -/
def weekdayOf (number : Int) : Nat :=
  ((number + 4) % 7).toNat

theorem weekdayOf_lt (number : Int)
    : weekdayOf number < 7 := by
  unfold weekdayOf
  omega

theorem exists_leap_year {first : Nat} (within : first < 7)
    : ∃ year, leap year ∧ weekdayOf (daysBefore year - epoch) = first := by
  have all : ∀ first < 7, ∃ turn < 7, leap (1972 + 4 * (turn : Nat))
      ∧ weekdayOf (daysBefore (1972 + 4 * (turn : Nat)) - epoch) = first := by decide
  obtain ⟨turn, -, found⟩ := all first within
  exact ⟨_, found⟩

theorem exists_weekday {month day day' : Nat} (month_ : 1 ≤ month ∧ month ≤ 12)
    (day_ : 1 ≤ day ∧ day ≤ longest month) (within : day' < 7)
    : ∃ date : Date, date.month = month ∧ date.day = day ∧ weekdayOf date.number = day' := by
  have offset : ∃ first < 7, (first + daysBeforeMonth true month + (day - 1)) % 7 = day' :=
    ⟨(day' + 6 * (daysBeforeMonth true month + (day - 1))) % 7, by omega, by omega⟩
  obtain ⟨first, below, same⟩ := offset
  obtain ⟨year, long, begins⟩ := exists_leap_year below
  refine ⟨⟨year, month, day, month_, by rwa [long]⟩, rfl, rfl, ?_⟩
  rw [weekdayOf, Date.number]
  rw [weekdayOf] at begins
  dsimp only
  rw [long]
  omega

end Dagron.Library.Calendar
