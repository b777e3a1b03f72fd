import Dagron.Library.Calendar

/-! The date of a day, told from the number of days since the first of 1970. Years begin in March there,
so that a leap day is the last of its year, and four hundred years are an era.
-/

namespace Dagron.Ci
open Dagron.Library.Calendar

/-- The year, the month and the day of a number of days since the first of 1970. -/
def civil (days : Int) : Int × Nat × Nat :=
  let z := days + 719468
  let era := z / 146097
  let doe := z % 146097
  let yoe := (doe - doe / 1460 + doe / 36524 - doe / 146096) / 365
  let y := yoe + era * 400
  let doy := doe - (365 * yoe + yoe / 4 - yoe / 100)
  let mp := (5 * doy + 2) / 153
  let d := (doy - (153 * mp + 2) / 5 + 1).toNat
  let m := (if mp < 10 then mp + 3 else mp - 9).toNat
  (if m ≤ 2 then y + 1 else y, m, d)

/-- The days of an era without those that its leap years have more than others, nearly. -/
def evened (doe : Int) : Int :=
  doe - doe / 1460 + doe / 36524 - doe / 146096

theorem evened_mono {first second : Int} (order : first ≤ second)
    : evened first ≤ evened second := by
  unfold evened
  omega

/-- How many days of an era come before a year of it, where a year begins in March. -/
def beginning (yoe : Int) : Int :=
  365 * yoe + yoe / 4 - yoe / 100 + yoe / 400

/-- A day's year of its era is found: the days of the year are between its first and its last. -/
theorem yoe_eq {yoe doe : Int} (within : 0 ≤ yoe ∧ yoe < 400) (since : beginning yoe ≤ doe)
    (till : doe < beginning (yoe + 1))
    : evened doe / 365 = yoe := by
  have ends : ∀ yoe < 400, evened (beginning (yoe : Nat)) / 365 = (yoe : Nat)
      ∧ evened (beginning ((yoe : Nat) + 1) - 1) / 365 = (yoe : Nat) := by decide +kernel
  obtain ⟨number, rfl⟩ := Int.eq_ofNat_of_zero_le within.1
  obtain ⟨first, last⟩ := ends number (by omega)
  have order := evened_mono since
  have order' := evened_mono (Int.le_sub_one_of_lt till)
  omega

theorem daysBefore_eq (year : Int)
    : daysBefore year = beginning (year - 1) + 366
        ∧ daysBefore year + (leap year).toNat = beginning year + 1 := by
  have long := @leap_iff year
  unfold daysBefore beginning
  refine ⟨by omega, ?_⟩
  cases is_ : leap year with
  | true =>
      rw [long] at is_
      rw [Bool.toNat_true]
      omega
  | false =>
      rw [Bool.eq_false_iff, Ne, long] at is_
      rw [Bool.toNat_false]
      omega

theorem beginning_era (era yoe : Int)
    : beginning (yoe + era * 400) = 146097 * era + beginning yoe := by
  unfold beginning
  omega

def fromMarch (month : Nat) : Nat :=
  (month + 9) % 12

def ofYear (month day : Nat) : Nat :=
  (153 * fromMarch month + 2) / 5 + (day - 1)

/-- Days told from March are the calendar's, their months are found, and a leap day is the last. -/
structure FromMarch (long : Bool) (month day : Nat) : Prop where
  early
    : month ≤ 2 → daysBeforeMonth long month + (day - 1) + 306 = ofYear month day
        ∧ ofYear month day < 365 + long.toNat
  late
    : 2 < month → daysBeforeMonth long month + (day - 1) = ofYear month day + 59 + long.toNat
        ∧ ofYear month day < 365
  found
    : (5 * ofYear month day + 2) / 153 = fromMarch month

theorem fromMarch_spec {long : Bool} {month day : Nat} (is_month : 1 ≤ month ∧ month ≤ 12)
    (is_day : 1 ≤ day ∧ day ≤ monthLength long month)
    : FromMarch long month day := by
  have all : ∀ long, ∀ month ∈ List.range' 1 12, ∀ day ∈ List.range' 1 (monthLength long month),
      (month ≤ 2 → daysBeforeMonth long month + (day - 1) + 306 = ofYear month day
          ∧ ofYear month day < 365 + long.toNat)
        ∧ (2 < month → daysBeforeMonth long month + (day - 1) = ofYear month day + 59 + long.toNat
          ∧ ofYear month day < 365)
        ∧ (5 * ofYear month day + 2) / 153 = fromMarch month := by decide +kernel
  obtain ⟨early, late, found⟩ := all long month (List.mem_range'_1.mpr (by omega)) day
    (List.mem_range'_1.mpr (by omega))
  exact ⟨early, late, found⟩

theorem civil_eq {days march : Int} {month day : Nat} (is_month : 1 ≤ month ∧ month ≤ 12)
    (some_ : 1 ≤ day) (found : (5 * ofYear month day + 2) / 153 = fromMarch month)
    (counted : days + 719468 = beginning march + ofYear month day)
    (within : beginning march + ofYear month day < beginning (march + 1))
    : civil days = (if month ≤ 2 then march + 1 else march, month, day) := by
  have split : march % 400 + march / 400 * 400 = march := by omega
  have era := beginning_era (march / 400) (march % 400)
  have era' := beginning_era (march / 400) (march % 400 + 1)
  rw [split] at era
  rw [Int.add_right_comm, split] at era'
  have bounds : 0 ≤ beginning (march % 400) ∧ beginning (march % 400 + 1) ≤ 146097 := by
    unfold beginning
    omega
  obtain ⟨doe, doe_⟩ : ∃ doe, doe = beginning (march % 400) + ofYear month day := ⟨_, rfl⟩
  have quotient : (days + 719468) / 146097 = march / 400 := by omega
  have rest : (days + 719468) % 146097 = doe := by omega
  have yoe : evened doe / 365 = march % 400 := yoe_eq (by omega) (by omega) (by omega)
  have doy : doe - (365 * (march % 400) + march % 400 / 4 - march % 400 / 100) = ofYear month day := by
    have small : march % 400 / 400 = 0 := by omega
    rw [doe_, beginning, small]
    omega
  have mp : (5 * (ofYear month day : Int) + 2) / 153 = fromMarch month := by exact_mod_cast found
  have m : (if (fromMarch month : Int) < 10 then (fromMarch month : Int) + 3 else fromMarch month - 9).toNat
      = month := by
    unfold fromMarch
    split <;> omega
  have d : ((ofYear month day : Int) - (153 * (fromMarch month : Int) + 2) / 5 + 1).toNat = day := by
    unfold ofYear
    omega
  unfold evened at yoe
  simp only [civil, quotient, rest, yoe, doy, mp, m, d, split]

theorem civil_number (date : Date)
    : civil date.number = (date.year, date.month, date.day) := by
  obtain ⟨year, month, day, is_month, is_day⟩ := date
  obtain ⟨early, late, found⟩ := fromMarch_spec is_month is_day
  obtain ⟨before, before'⟩ := daysBefore_eq year
  by_cases first : month ≤ 2
  · obtain ⟨table, small⟩ := early first
    have found := @civil_eq (Date.mk year month day is_month is_day).number (year - 1) month day
      is_month is_day.1 found (by simp only [Date.number, epoch]; omega)
      (by rw [Int.sub_add_cancel]; omega)
    rwa [if_pos first, Int.sub_add_cancel] at found
  · obtain ⟨table, small⟩ := late (by omega)
    have next := (daysBefore_eq (year + 1)).1
    rw [Int.add_sub_cancel] at next
    have next' := (daysBefore_eq (year + 1)).2
    have found := @civil_eq (Date.mk year month day is_month is_day).number year month day
      is_month is_day.1 found (by simp only [Date.number, epoch]; omega) (by omega)
    rwa [if_neg first] at found

end Dagron.Ci
