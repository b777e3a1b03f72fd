import Mathlib.Algebra.Group.Nat.Defs
import Mathlib.Algebra.GroupWithZero.Nat
import Mathlib.Data.List.Basic
import Mathlib.Order.Lattice

/-! Timestamps as text: an instant written with its calendar date, its time of day and its
offset. Within four-digit years texts sort as the instants they write; a year past them is
written with a sign, which sorts before every digit.
-/

namespace Dagron.Library.Timestamp

-- Texts that sort as numbers

/-- The numbers below a bound are written as texts that sort as they do. -/
def Sorts (bound : Nat) (write : Nat → List Char) : Prop :=
  ∀ first second, first < second → second < bound → write first < write second

/-- Of two texts of one length, what follows them does not change which is first, by induction
along them.
-/
theorem append_lt {first second rest rest' : List Char} (even : first.length = second.length)
    (less : first < second)
    : first ++ rest < second ++ rest' := by
  induction first generalizing second with
  | nil =>
      cases second with
      | nil => cases less
      | cons => cases even
  | cons head tail ih =>
      cases second with
      | nil => cases less
      | cons head' tail' =>
          rw [List.cons_append, List.cons_append, List.cons_lt_cons_iff]
          rcases List.cons_lt_cons_iff.mp less with less | ⟨same, less⟩
          · exact .inl less
          · exact .inr ⟨same, ih (Nat.succ.inj even) less⟩

namespace Sorts

variable {bound bound' : Nat} {write write' : Nat → List Char}

theorem mono (sorts : Sorts bound write) (less : bound' ≤ bound)
    : Sorts bound' write :=
  fun first second below within => sorts first second below (within.trans_le less)

theorem cons (char : Char) (sorts : Sorts bound write)
    : Sorts bound (fun number => char :: write number) := by
  intro first second less within
  exact List.cons_lt_cons_iff.mpr (.inr ⟨rfl, sorts first second less within⟩)

theorem pair (sorts : Sorts bound write)
    (even : ∀ first second, first < bound → second < bound → (write first).length = (write second).length)
    (sorts' : Sorts bound' write')
    : Sorts (bound * bound') (fun number => write (number / bound') ++ write' (number % bound')) := by
  intro first second less within
  have positive : 0 < bound' := Nat.pos_of_mul_pos_left (Nat.zero_lt_of_lt within)
  have part {number : Nat} (within : number < bound * bound')
      : number / bound' < bound :=
    Nat.div_lt_of_lt_mul (Nat.mul_comm bound bound' ▸ within)
  rcases Nat.lt_or_eq_of_le (@Nat.div_le_div_right _ _ bound' less.le) with high | same
  · exact append_lt (even _ _ (part (less.trans within)) (part within)) (sorts _ _ high (part within))
  · dsimp only
    rw [same]
    refine List.append_left_lt (sorts' _ _ ?_ (Nat.mod_lt _ positive))
    have first_ := Nat.div_add_mod first bound'
    have second_ := Nat.div_add_mod second bound'
    rw [same] at first_
    omega

end Sorts

-- Digits

/-- The last digits of a number, as many as its field is wide. -/
def pad : Nat → Nat → List Char
  | 0, _ => []
  | width + 1, number => pad width (number / 10) ++ [Nat.digitChar (number % 10)]

@[simp]
theorem length_pad (width number : Nat)
    : (pad width number).length = width := by
  induction width generalizing number with
  | zero => rfl
  | succ width ih => simp [pad, ih]

theorem sorts_pad (width : Nat)
    : Sorts (10 ^ width) (pad width) := by
  induction width with
  | zero =>
      intro first second less within
      omega
  | succ width ih =>
      have digit : Sorts 10 (fun number => [Nat.digitChar number]) := by
        have all : ∀ second < 10, ∀ first < second,
            [Nat.digitChar first] < [Nat.digitChar second] := by decide
        exact fun first second less within => all second within first less
      exact ih.pair (fun _ _ _ _ => by rw [length_pad, length_pad]) digit

theorem pad_succ (width number : Nat)
    : ∃ digit rest, pad (width + 1) number = digit :: rest ∧ '+' < digit := by
  have signless : ∀ digit < 10, '+' < Nat.digitChar digit := by decide
  induction width generalizing number with
  | zero => exact ⟨_, [], rfl, signless _ (Nat.mod_lt _ (by decide))⟩
  | succ width ih =>
      obtain ⟨digit, rest, begins, less⟩ := ih (number / 10)
      exact ⟨digit, rest ++ [Nat.digitChar (number % 10)], by rw [pad, begins, List.cons_append],
        less⟩

-- Times of day

/-- The offset of an instant that is told in universal time. -/
def offset : List Char :=
  "+00:00".toList

/-- A fraction in groups of three digits, as many as it needs, and the offset. -/
def fraction : Nat → Nat → List Char
  | 0, _ => offset
  | groups + 1, number =>
      if number = 0 then offset
      else pad 3 (number / 1000 ^ groups) ++ fraction groups (number % 1000 ^ groups)

theorem sorts_fraction (groups : Nat)
    : Sorts (1000 ^ groups) (fraction groups) := by
  induction groups with
  | zero =>
      intro first second less within
      omega
  | succ groups ih =>
      intro first second less within
      have some_ : second ≠ 0 := Nat.ne_zero_of_lt less
      have pair := (sorts_pad 3).pair (fun _ _ _ _ => by rw [length_pad, length_pad]) ih
      simp only [fraction, if_neg some_]
      split
      · obtain ⟨digit, rest, begins, sign⟩ := pad_succ 2 (second / 1000 ^ groups)
        rw [begins]
        exact List.cons_lt_cons_iff.mpr (.inl sign)
      · refine pair first second less ?_
        rwa [Nat.pow_succ, Nat.mul_comm] at within

/-- The nanoseconds of a second, where there are any, and the offset. -/
def nanos (number : Nat) : List Char :=
  if number = 0 then offset else '.' :: fraction 3 number

theorem sorts_nanos
    : Sorts 1000000000 nanos := by
  intro first second less within
  have some_ : second ≠ 0 := Nat.ne_zero_of_lt less
  simp only [nanos, if_neg some_]
  split
  · exact List.cons_lt_cons_iff.mpr (.inl (by decide))
  · exact (sorts_fraction 3).cons '.' first second less within

def second (number : Nat) : List Char :=
  pad 2 (number / 1000000000) ++ nanos (number % 1000000000)

def minute (number : Nat) : List Char :=
  pad 2 (number / 60000000000) ++ ':' :: second (number % 60000000000)

def timeOfDay (number : Nat) : List Char :=
  pad 2 (number / 3600000000000) ++ ':' :: minute (number % 3600000000000)

theorem sorts_field {bound : Nat} (less : bound ≤ 100)
    : Sorts bound (pad 2) :=
  (sorts_pad 2).mono less

theorem sorts_timeOfDay
    : Sorts 86400000000000 timeOfDay := by
  have even {bound : Nat} (first second : Nat) (_ : first < bound) (_ : second < bound)
      : (pad 2 first).length = (pad 2 second).length := by
    rw [length_pad, length_pad]
  have seconds : Sorts 60000000000 second :=
    (@sorts_field 60 (by decide)).pair even sorts_nanos
  have minutes : Sorts 3600000000000 minute :=
    (@sorts_field 60 (by decide)).pair even (seconds.cons ':')
  exact (@sorts_field 24 (by decide)).pair even (minutes.cons ':')

-- Dates

/-- How many days come before a year, from the first day of the year nought. -/
def daysBefore (year : Nat) : Nat :=
  365 * year + (year + 3) / 4 - (year + 99) / 100 + (year + 399) / 400

/-- The year of a day: it is near the day's share of four hundred years. -/
def yearOf (day : Nat) : Nat :=
  let near := day * 400 / 146097
  if daysBefore (near + 1) ≤ day then near + 1
  else if daysBefore near ≤ day then near else near - 1

theorem daysBefore_succ (year : Nat)
    : daysBefore year + 365 ≤ daysBefore (year + 1)
        ∧ daysBefore (year + 1) ≤ daysBefore year + 366 := by
  have fours := @Nat.succ_div (year + 3) 4
  have centuries := @Nat.succ_div (year + 99) 100
  have eras := @Nat.succ_div (year + 399) 400
  have century : 100 ∣ year + 99 + 1 → 4 ∣ year + 3 + 1 := by omega
  have era : 400 ∣ year + 399 + 1 → 100 ∣ year + 99 + 1 := by omega
  simp only [daysBefore, Nat.add_right_comm year 1, fours, centuries, eras]
  split <;> split <;> split <;> omega

theorem daysBefore_le {first second : Nat} (less : first ≤ second)
    : daysBefore first ≤ daysBefore second := by
  induction less with
  | refl => exact Nat.le_refl _
  | step _ ih => exact ih.trans (Nat.le_of_add_right_le (daysBefore_succ _).1)

theorem daysBefore_near (year : Nat)
    : 400 * daysBefore year ≤ 146097 * year + 699
        ∧ 146097 * year ≤ 400 * daysBefore year + 396 := by
  unfold daysBefore
  omega

theorem yearOf_spec (day : Nat)
    : daysBefore (yearOf day) ≤ day ∧ day < daysBefore (yearOf day + 1) := by
  unfold yearOf
  dsimp only
  generalize share : day * 400 / 146097 = near
  have after := daysBefore_near (near + 1 + 1)
  split
  · omega
  split
  · omega
  · cases near with
    | zero =>
        have none_ : daysBefore 0 = 0 := rfl
        omega
    | succ near =>
        have before := daysBefore_near near
        rw [Nat.add_sub_cancel]
        omega

theorem yearOf_eq {day year : Nat} (since : daysBefore year ≤ day) (till : day < daysBefore (year + 1))
    : yearOf day = year := by
  obtain ⟨since', till'⟩ := yearOf_spec day
  rcases Nat.lt_trichotomy (yearOf day) year with less | same | more
  · have order := daysBefore_le (Nat.lt_iff_add_one_le.mp less)
    omega
  · exact same
  · have order := daysBefore_le (Nat.lt_iff_add_one_le.mp more)
    omega

def months (year : Nat) : List Nat :=
  [31, daysBefore (year + 1) - daysBefore year - 337, 31, 30, 31, 30, 31, 31, 30, 31, 30, 31]

/-- The month of a day of the year, and its day of that month. -/
def monthDay : List Nat → Nat → Nat → Nat × Nat
  | [], month, day => (month, day)
  | length :: rest, month, day =>
      if day < length then (month, day) else monthDay rest (month + 1) (day - length)

theorem le_monthDay (lengths : List Nat) (month day : Nat)
    : month ≤ (monthDay lengths month day).1 := by
  induction lengths generalizing month day with
  | nil => exact Nat.le_refl _
  | cons length rest ih =>
      unfold monthDay
      split
      · exact Nat.le_refl _
      · exact (Nat.le_succ month).trans (ih _ _)

theorem monthDay_lt (lengths : List Nat) (month : Nat) {first second : Nat} (less : first < second)
    : (monthDay lengths month first).1 < (monthDay lengths month second).1
      ∨ (monthDay lengths month first).1 = (monthDay lengths month second).1
        ∧ (monthDay lengths month first).2 < (monthDay lengths month second).2 := by
  induction lengths generalizing month first second with
  | nil => exact .inr ⟨rfl, less⟩
  | cons length rest ih =>
      unfold monthDay
      split <;> split
      · exact .inr ⟨rfl, less⟩
      · exact .inl (Nat.lt_of_succ_le (le_monthDay rest (month + 1) _))
      · omega
      · exact ih (month + 1) (by omega)

theorem monthDay_bounds {lengths : List Nat} {longest month day : Nat}
    (longest_ : ∀ length ∈ lengths, length ≤ longest) (within : day < lengths.sum)
    : (monthDay lengths month day).1 < month + lengths.length
      ∧ (monthDay lengths month day).2 < longest := by
  induction lengths generalizing month day with
  | nil => cases within
  | cons length rest ih =>
      have long := longest_ length List.mem_cons_self
      rw [List.sum_cons] at within
      rw [List.length_cons]
      unfold monthDay
      split
      · dsimp only
        omega
      · have later := @ih (month + 1) (day - length)
          (fun other among => longest_ other (List.mem_cons_of_mem _ among)) (by omega)
        omega

def yearText (year : Int) : List Char :=
  if 0 ≤ year ∧ year ≤ 9999 then pad 4 year.toNat
  else
    let digits := Nat.toDigits 10 year.natAbs
    (if year < 0 then '-' else '+') :: (List.replicate (4 - digits.length) '0' ++ digits)

def dayText (year day : Nat) : List Char :=
  let (month, day) := monthDay (months year) 1 day
  pad 2 month ++ '-' :: pad 2 (day + 1)

/-- How many years are reckoned before the year nought: a whole number of cycles of the calendar. -/
def eras : Nat :=
  400000

/-- A day's date; days are counted from the first day of the year nought. -/
def date (day : Int) : List Char :=
  let reckoned := (day + daysBefore eras).toNat
  let year := yearOf reckoned
  yearText (year - eras) ++ '-' :: dayText year (reckoned - daysBefore year)

theorem daysBefore_eras (year : Nat)
    : daysBefore (year + eras) = daysBefore year + daysBefore eras := by
  unfold daysBefore eras
  omega

theorem sum_months (year : Nat)
    : (months year).sum = daysBefore (year + 1) - daysBefore year
        ∧ ∀ length ∈ months year, length ≤ 31 := by
  have days := daysBefore_succ year
  refine ⟨?_, ?_⟩
  · simp only [months, List.sum_cons, List.sum_nil]
    omega
  · simp only [months, List.mem_cons, List.not_mem_nil, or_false]
    omega

theorem dayText_lt {year first second : Nat} (less : first < second)
    (within : daysBefore year + second < daysBefore (year + 1))
    : dayText year first < dayText year second := by
  obtain ⟨sum, longest⟩ := sum_months year
  obtain ⟨_, days⟩ := @monthDay_bounds (months year) 31 1 first longest (by omega)
  obtain ⟨month, days'⟩ := @monthDay_bounds (months year) 31 1 second longest (by omega)
  have twelve : (months year).length = 12 := rfl
  unfold dayText
  dsimp only
  rcases monthDay_lt (months year) 1 less with earlier | ⟨same, earlier⟩
  · exact append_lt (by simp) (sorts_pad 2 _ _ earlier (by omega))
  · rw [same]
    refine List.append_left_lt (List.cons_lt_cons_iff.mpr (.inr ⟨rfl, ?_⟩))
    exact sorts_pad 2 _ _ (by omega) (by omega)

def writtenDays : Nat :=
  daysBefore 10000

theorem date_eq {day : Nat} (within : day < writtenDays)
    : date day = pad 4 (yearOf day)
        ++ '-' :: dayText (yearOf day + eras) (day - daysBefore (yearOf day)) := by
  obtain ⟨since, till⟩ := yearOf_spec day
  have year : yearOf (day + daysBefore eras) = yearOf day + eras := by
    refine yearOf_eq ?_ ?_
    · rw [daysBefore_eras]
      omega
    · rw [Nat.add_right_comm, daysBefore_eras]
      omega
  have early : yearOf day < 10000 := by
    by_contra late
    have order := daysBefore_le (Nat.le_of_not_lt late)
    unfold writtenDays at within
    omega
  have reckoned : ((day : Int) + daysBefore eras).toNat = day + daysBefore eras := by omega
  simp only [date, reckoned, year, daysBefore_eras]
  have small : 0 ≤ ((yearOf day + eras : Nat) : Int) - eras
      ∧ ((yearOf day + eras : Nat) : Int) - eras ≤ 9999 := by omega
  have same : (((yearOf day + eras : Nat) : Int) - eras).toNat = yearOf day := by omega
  have rest : day + daysBefore eras - (daysBefore (yearOf day) + daysBefore eras)
      = day - daysBefore (yearOf day) := by omega
  rw [yearText, if_pos small, same, rest]

theorem sorts_date
    : Sorts writtenDays (fun day => date day) := by
  intro first second less within
  dsimp only
  rw [date_eq (less.trans within), date_eq within]
  obtain ⟨since, till⟩ := yearOf_spec first
  obtain ⟨since', till'⟩ := yearOf_spec second
  rcases Nat.lt_trichotomy (yearOf first) (yearOf second) with earlier | same | later
  · have four : Sorts 10000 (pad 4) := sorts_pad 4
    refine append_lt (by simp) (four _ _ earlier ?_)
    by_contra late
    have order := daysBefore_le (Nat.le_of_not_lt late)
    unfold writtenDays at within
    omega
  · rw [same] at since till ⊢
    refine List.append_left_lt (List.cons_lt_cons_iff.mpr (.inr ⟨rfl, ?_⟩))
    refine dayText_lt (by omega) ?_
    rw [Nat.add_right_comm, daysBefore_eras, daysBefore_eras]
    omega
  · have order := daysBefore_le (Nat.lt_iff_add_one_le.mp later)
    omega

-- Instants

def dayNanos : Nat :=
  86400000000000

/-- The first instant of the year nought; instants are counted from the first of 1970. -/
def firstWritten : Int :=
  -62167219200000000000

/-- The last instant that is written with a four-digit year. -/
def lastWritten : Int :=
  253402300799999999999

def Written (instant : Int) : Prop :=
  firstWritten ≤ instant ∧ instant ≤ lastWritten

instance : DecidablePred Written := fun instant => by
  unfold Written
  infer_instance

def stamp (instant : Int) : List Char :=
  let since := instant - firstWritten
  date (since / dayNanos) ++ 'T' :: timeOfDay (since % dayNanos).toNat

theorem stamp_eq {instant : Int} (since : firstWritten ≤ instant)
    : stamp instant = date ((instant - firstWritten).toNat / dayNanos : Nat)
        ++ 'T' :: timeOfDay ((instant - firstWritten).toNat % dayNanos) := by
  obtain ⟨number, counted⟩ := Int.eq_ofNat_of_zero_le (Int.sub_nonneg_of_le since)
  rw [stamp, counted]
  norm_cast

theorem writtenDays_eq
    : writtenDays * dayNanos = (lastWritten - firstWritten).toNat + 1 := by
  decide

theorem written_lt {instant : Int} (written : Written instant)
    : firstWritten ≤ instant ∧ (instant - firstWritten).toNat < writtenDays * dayNanos := by
  obtain ⟨since, till⟩ := written
  refine ⟨since, ?_⟩
  rw [writtenDays_eq]
  omega

theorem stamp_lt {first second : Int} (written : Written first) (written' : Written second)
    (less : first < second)
    : stamp first < stamp second := by
  have even (first second : Nat) (within : first < writtenDays) (within' : second < writtenDays)
      : (date first).length = (date second).length := by
    rw [date_eq within, date_eq within']
    simp [dayText]
  have sorts : Sorts (writtenDays * dayNanos)
      (fun number => date (number / dayNanos : Nat) ++ 'T' :: timeOfDay (number % dayNanos)) :=
    sorts_date.pair even (sorts_timeOfDay.cons 'T')
  obtain ⟨since, _⟩ := written_lt written
  obtain ⟨since', within⟩ := written_lt written'
  rw [stamp_eq since, stamp_eq since']
  exact sorts _ _ (by omega) within

theorem date_past {day : Nat} (past : writtenDays ≤ day)
    : ∃ rest, date day = '+' :: rest := by
  obtain ⟨_, till⟩ := yearOf_spec (day + daysBefore eras)
  have late : 10000 + eras ≤ yearOf (day + daysBefore eras) := by
    by_contra early
    have order := daysBefore_le (Nat.lt_iff_add_one_le.mp (Nat.lt_of_not_le early))
    rw [daysBefore_eras 10000] at order
    unfold writtenDays at past
    omega
  have reckoned : ((day : Int) + daysBefore eras).toNat = day + daysBefore eras := by omega
  simp only [date, reckoned]
  have large : ¬ (0 ≤ (yearOf (day + daysBefore eras) : Int) - eras
      ∧ (yearOf (day + daysBefore eras) : Int) - eras ≤ 9999) := by omega
  have positive : ¬ (yearOf (day + daysBefore eras) : Int) - eras < 0 := by omega
  rw [yearText, if_neg large, if_neg positive]
  exact ⟨_, List.cons_append⟩

theorem day_lt {instant : Int} (written : Written instant)
    : (instant - firstWritten).toNat / dayNanos < writtenDays :=
  (Nat.div_lt_iff_lt_mul (by decide : 0 < dayNanos)).mpr (written_lt written).2

theorem le_day {past : Int} (later : lastWritten < past)
    : writtenDays ≤ (past - firstWritten).toNat / dayNanos := by
  refine (Nat.le_div_iff_mul_le (by decide : 0 < dayNanos)).mpr ?_
  have ordered : firstWritten ≤ lastWritten := by decide
  rw [writtenDays_eq]
  omega

theorem stamp_past {past instant : Int} (later : lastWritten < past) (written : Written instant)
    : stamp past < stamp instant := by
  have since : firstWritten ≤ past := (by decide : firstWritten ≤ lastWritten).trans later.le
  obtain ⟨rest, signed⟩ := date_past (le_day later)
  obtain ⟨digit, rest', begins, less⟩ :=
    pad_succ 3 (yearOf ((instant - firstWritten).toNat / dayNanos))
  rw [stamp_eq since, stamp_eq written.1, signed, date_eq (day_lt written), begins]
  exact List.cons_lt_cons_iff.mpr (.inl less)

end Dagron.Library.Timestamp
