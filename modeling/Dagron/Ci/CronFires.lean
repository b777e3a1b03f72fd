import Dagron.Ci.Cron
import Dagron.Ci.Civil
import Mathlib.Order.Bounds.Basic

/-! When a cron fires: the minutes that its fields name, and the first of them after a time. The day rule is
one cron's own where both day fields are restricted, and where those that are not leave no day out.
-/

namespace Dagron.Ci
open Dagron.Library.Calendar

/-- The shortest time between two fires of one schedule. -/
def SHORTEST : Int :=
  5 * 60

namespace Cron

/-- Whether a cron fires on a day of the month that is a day of the week. -/
def dayOk (cron : Cron) (day weekday : Nat) : Bool :=
  match cron.daysRestricted, cron.weekdaysRestricted with
  | true, true => cron.days.getD day false || cron.weekdays.getD weekday false
  | true, false => cron.days.getD day false
  | false, true => cron.weekdays.getD weekday false
  | false, false => true

/-- Whether the minute that begins at a time is one the cron fires at. -/
def firesAt (cron : Cron) (secs : Int) : Bool :=
  let days := secs / 86400
  let inDay := secs % 86400
  let (_, month, day) := civil days
  let weekday := ((days + 4) % 7).toNat
  cron.dayOk day weekday
    && cron.months.getD month false
    && cron.hours.getD (inDay / 3600).toNat false
    && cron.minutes.getD (inDay % 3600 / 60).toNat false

/-- Looks at times up to an end, minute by minute on a day that the cron fires on. Each time round the time is
a minute later at least.
-/
def search (cron : Cron) (ended : Int) : Nat → Int → Option Int
  | 0, _ => none
  | rounds + 1, t =>
      if t < ended then
        let days := t / 86400
        let (_, month, day) := civil days
        let weekday := ((days + 4) % 7).toNat
        if !cron.dayOk day weekday || !cron.months.getD month false then
          cron.search ended rounds ((days + 1) * 86400)
        else if cron.firesAt t then some t
        else cron.search ended rounds (t + 60)
      else none

def horizon : Nat :=
  5 * 366 * 86400

/-- The minute after a time, no sooner than the shortest time after the fire before. -/
def firstMinute (after : Int) (last : Option Int) : Int :=
  let since := match last with
    | some last => max after (last + SHORTEST - 1)
    | none => after
  since / 60 * 60 + 60

/-- The first minute after a time the cron fires at, and no sooner than the shortest time after the fire
before, where there was one.
-/
def next (cron : Cron) (after : Int) (last : Option Int) : Option Int :=
  let t := firstMinute after last
  cron.search (t + horizon) (horizon / 60) t

end Cron

-- The search

namespace Cron

variable {cron : Cron}

def Fires (cron : Cron) (time : Int) : Prop :=
  time % 60 = 0 ∧ cron.firesAt time

theorem day_of_firesAt {secs : Int} (fires : cron.firesAt secs)
    : cron.dayOk (civil (secs / 86400)).2.2 ((secs / 86400 + 4) % 7).toNat
        ∧ cron.months.getD (civil (secs / 86400)).2.1 false := by
  simp only [firesAt, Bool.and_eq_true] at fires
  exact fires.1.1

/-- What is found is the least minute from a time on, if there is one before the end: by induction on the
rounds, of which there are enough.
-/
theorem search_spec {ended time : Int} {rounds : Nat} (minute : time % 60 = 0)
    (enough : ended ≤ time + 60 * rounds)
    : match cron.search ended rounds time with
      | some found => IsLeast {other | time ≤ other ∧ cron.Fires other} found ∧ found < ended
      | none => ∀ other, time ≤ other → cron.Fires other → ended ≤ other := by
  induction rounds generalizing time with
  | zero =>
      intro other since _
      omega
  | succ rounds ih =>
      have later {time' : Int} (step : time + 60 ≤ time') (minute' : time' % 60 = 0)
          (passed : ∀ other, time ≤ other → cron.Fires other → time' ≤ other)
          : match cron.search ended rounds time' with
            | some found => IsLeast {other | time ≤ other ∧ cron.Fires other} found ∧ found < ended
            | none => ∀ other, time ≤ other → cron.Fires other → ended ≤ other := by
        have rest := @ih time' minute' (by omega)
        split at rest
        next found same =>
          obtain ⟨⟨⟨since, fires⟩, least⟩, before⟩ := rest
          refine ⟨⟨⟨by omega, fires⟩, fun other ⟨since', fires'⟩ => ?_⟩, before⟩
          exact least ⟨passed other since' fires', fires'⟩
        next => exact fun other since fires => rest other (passed other since fires) fires
      rw [search]
      by_cases before : time < ended
      · rw [if_pos before]
        dsimp only
        by_cases idle : (!cron.dayOk (civil (time / 86400)).2.2 ((time / 86400 + 4) % 7).toNat
            || !cron.months.getD (civil (time / 86400)).2.1 false) = true
        · rw [if_pos idle]
          refine later (by omega) (by omega) fun other since fires => ?_
          by_contra sooner
          have day : other / 86400 = time / 86400 := by omega
          have on := day_of_firesAt fires.2
          rw [day] at on
          rw [on.1, on.2] at idle
          cases idle
        rw [if_neg idle]
        by_cases fires : cron.firesAt time
        · rw [if_pos fires]
          exact ⟨⟨⟨Int.le_refl _, minute, fires⟩, fun other ⟨since, _⟩ => since⟩, before⟩
        · rw [if_neg fires]
          refine later (Int.le_refl _) (by omega) fun other since fires' => ?_
          have differ : other ≠ time := by
            rintro rfl
            exact fires fires'.2
          have minute' := fires'.1
          omega
      · rw [if_neg before]
        intro other since _
        omega

theorem firstMinute_le {after : Int} {last : Option Int} {time : Int} (minute : time % 60 = 0)
    : firstMinute after last ≤ time ↔ after < time ∧ ∀ before ∈ last, before + SHORTEST ≤ time := by
  unfold firstMinute SHORTEST
  cases last with
  | none =>
      simp only [Option.not_mem_none, false_implies, implies_true, and_true]
      omega
  | some last =>
      simp only [Option.mem_def, Option.some.injEq, forall_eq']
      omega

/-- A minute that a cron fires at after a time and no sooner than the shortest time after the fire before. -/
def Due (cron : Cron) (after : Int) (last : Option Int) (time : Int) : Prop :=
  cron.Fires time ∧ after < time ∧ ∀ before ∈ last, before + SHORTEST ≤ time

/-- The next time is the least that is due, and there is none where none is due within the horizon. -/
theorem next_spec (cron : Cron) (after : Int) (last : Option Int)
    : match cron.next after last with
      | some found => IsLeast {time | cron.Due after last time} found
          ∧ found < firstMinute after last + horizon
      | none => ∀ time, cron.Due after last time → firstMinute after last + horizon ≤ time := by
  have minute : firstMinute after last % 60 = 0 := by
    unfold firstMinute
    cases last <;> dsimp only <;> omega
  have searched := @search_spec cron (firstMinute after last + horizon) (firstMinute after last)
    (horizon / 60) minute (by unfold horizon; omega)
  have due (time : Int) : cron.Due after last time ↔ firstMinute after last ≤ time ∧ cron.Fires time :=
    ⟨fun ⟨fires, rest⟩ => ⟨(firstMinute_le fires.1).mpr rest, fires⟩,
      fun ⟨since, fires⟩ => ⟨fires, (firstMinute_le fires.1).mp since⟩⟩
  simp only [due]
  rw [next]
  split at searched
  next => exact searched
  next => exact fun time ⟨since, fires⟩ => searched time since fires

end Cron

-- The days of a cron

namespace Line

/-- The days that cron runs on: where both day fields are restricted those of either, otherwise those of
both.
-/
def DayRuns (line : Line) (day weekday : Nat) : Prop :=
  if Restricted line.day ∧ Restricted line.weekday then
    Field.day.Has line.day day ∨ line.HasWeekday weekday
  else Field.day.Has line.day day ∧ line.HasWeekday weekday

/-- The days that a line is read as: a day field that is not restricted is passed over. -/
def DayMarked (line : Line) (day weekday : Nat) : Prop :=
  if Restricted line.day ∧ Restricted line.weekday then
    Field.day.Has line.day day ∨ line.HasWeekday weekday
  else (Restricted line.day → Field.day.Has line.day day)
    ∧ (Restricted line.weekday → line.HasWeekday weekday)

/-- A time is in a minute of a line, by some rule of its days. -/
def RunsBy (line : Line) (rule : Nat → Nat → Prop) (secs : Int) : Prop :=
  ∃ date : Date, date.number = secs / 86400 ∧ rule date.day (weekdayOf date.number)
    ∧ Field.month.Has line.month date.month
    ∧ Field.hour.Has line.hour (secs % 86400 / 3600).toNat
    ∧ Field.minute.Has line.minute (secs % 86400 % 3600 / 60).toNat

def Runs (line : Line) (secs : Int) : Prop :=
  line.RunsBy line.DayRuns secs

theorem runsBy_iff {line : Line} {rule : Nat → Nat → Prop} {secs : Int} {date : Date}
    (number : date.number = secs / 86400)
    : line.RunsBy rule secs ↔ rule date.day (weekdayOf date.number)
        ∧ Field.month.Has line.month date.month
        ∧ Field.hour.Has line.hour (secs % 86400 / 3600).toNat
        ∧ Field.minute.Has line.minute (secs % 86400 % 3600 / 60).toNat := by
  constructor
  · rintro ⟨other, number', runs⟩
    have same := (civil_number other).symm.trans ((number'.trans number.symm) ▸ civil_number date)
    obtain ⟨-, month, day⟩ : _ ∧ other.month = date.month ∧ other.day = date.day := by
      simpa only [Prod.mk.injEq] using same
    rwa [month, day, number', ← number] at runs
  · exact fun runs => ⟨date, number, runs⟩

def Reaches (line : Line) (day : Nat) : Prop :=
  ∃ month, Field.month.Has line.month month ∧ 1 ≤ day ∧ day ≤ longest month

/-- A day field that begins with a star names every day there is: of the month, every one that is in a month
of the line; of the week, all seven, unless no day of the month is left to run on.
-/
structure StarsAreWhole (line : Line) : Prop where
  days
    : ¬ Restricted line.day → ∀ day, line.Reaches day → Field.day.Has line.day day
  weekdays
    : ¬ Restricted line.weekday →
      (∃ day, line.Reaches day ∧ (Restricted line.day → Field.day.Has line.day day)) →
      ∀ weekday < 7, line.HasWeekday weekday

theorem rules_agree_iff {line : Line} (some_ : ∃ value, Field.weekday.Has line.weekday value)
    : (∀ day weekday, line.Reaches day → weekday < 7 →
        (line.DayMarked day weekday ↔ line.DayRuns day weekday))
      ↔ line.StarsAreWhole := by
  unfold DayMarked DayRuns
  by_cases both : Restricted line.day ∧ Restricted line.weekday
  · simp only [if_pos both, implies_true, true_iff]
    exact ⟨fun starred => absurd both.1 starred, fun starred => absurd both.2 starred⟩
  simp only [if_neg both]
  constructor
  · intro agree
    constructor
    · intro starred day reaches
      obtain ⟨value, has⟩ := some_
      refine ((agree day (value % 7) reaches (Nat.mod_lt _ (by decide))).mp ⟨?_, ?_⟩).1
      · exact fun restricted => absurd restricted starred
      · exact fun _ => ⟨value, has, rfl⟩
    · rintro starred ⟨day, reaches, has⟩ weekday within
      refine ((agree day weekday reaches within).mp ⟨has, ?_⟩).2
      exact fun restricted => absurd restricted starred
  · rintro ⟨days, weekdays⟩ day weekday reaches within
    refine ⟨fun ⟨inDays, inWeek⟩ => ⟨?_, ?_⟩, fun ⟨inDays, inWeek⟩ => ⟨fun _ => inDays, fun _ => inWeek⟩⟩
    · by_cases restricted : Restricted line.day
      · exact inDays restricted
      · exact days restricted day reaches
    · by_cases restricted : Restricted line.weekday
      · exact inWeek restricted
      · exact weekdays restricted ⟨day, reaches, inDays⟩ weekday within

end Line

namespace Cron

variable {cron : Cron} {line : Line}

theorem dayOk_iff (reads : cron.Reads line) (day weekday : Nat)
    : cron.dayOk day weekday ↔ line.DayMarked day weekday := by
  simp only [dayOk, Line.DayMarked, ← reads.daysRestricted, ← reads.weekdaysRestricted, ← reads.days,
    ← reads.weekdays]
  cases cron.daysRestricted <;> cases cron.weekdaysRestricted <;> simp

theorem firesAt_iff (reads : cron.Reads line) (secs : Int)
    : cron.firesAt secs ↔ line.RunsBy line.DayMarked secs := by
  obtain ⟨date, number⟩ := exists_date (secs / 86400)
  have told : civil (secs / 86400) = (date.year, date.month, date.day) := number ▸ civil_number date
  rw [Line.runsBy_iff number, firesAt]
  simp only [told, Bool.and_eq_true, dayOk_iff reads, reads.months, reads.hours, reads.minutes, and_assoc]
  rw [weekdayOf, number]

/-- A cron that is read fires when cron would where each star names every day, and else on some day on which
cron would not, or not on some day on which cron would.
-/
theorem firesAt_runs_iff (reads : cron.Reads line)
    : (∀ secs, cron.firesAt secs ↔ line.Runs secs) ↔ line.StarsAreWhole := by
  obtain ⟨⟨minute, is_minute⟩, ⟨hour, is_hour⟩, -, is_weekday⟩ := reads.some_
  rw [← Line.rules_agree_iff is_weekday]
  constructor
  · rintro same day day' ⟨month, is_month, is_day⟩ within
    have month_ := is_month.within (fields_named (by simp))
    have hour_ := is_hour.within (fields_named (by simp))
    have minute_ := is_minute.within (fields_named (by simp))
    simp only [Field.month, Field.hour, Field.minute] at month_ hour_ minute_
    obtain ⟨date, rfl, rfl, rfl⟩ := exists_weekday month_ is_day within
    obtain ⟨secs, told⟩ : ∃ secs : Int, secs = date.number * 86400 + hour * 3600 + minute * 60 := ⟨_, rfl⟩
    have number : date.number = secs / 86400 := by omega
    have inDay : (secs % 86400 / 3600).toNat = hour := by omega
    have inHour : (secs % 86400 % 3600 / 60).toNat = minute := by omega
    have here := same secs
    rw [firesAt_iff reads, Line.Runs, Line.runsBy_iff number, Line.runsBy_iff number, inDay, inHour] at here
    simpa only [is_month, is_hour, is_minute, and_true] using here
  · intro agree secs
    rw [firesAt_iff reads]
    refine exists_congr fun date => and_congr_right fun _ => and_congr_left fun runs => ?_
    refine agree date.day _ ⟨date.month, runs.1, date.is_day.1, ?_⟩ (weekdayOf_lt _)
    exact date.is_day.2.trans (monthLength_le_longest _ _)

end Cron

end Dagron.Ci
