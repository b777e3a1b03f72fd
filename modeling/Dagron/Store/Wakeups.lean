import Dagron.Store.Deadlines

/-! Wake-ups: the arithmetic of when a failed attempt is tried again, when a time sensor wakes and
when a loop goes round, from the numbers in a specification to an instant of the clock.
-/

namespace Dagron.Store

open Dagron.Library Dagron.Spec

/-- The most a number of 64 bits without a sign can be. -/
def maxU64 : Nat :=
  2 ^ 64 - 1

/-- The seconds before a failed attempt is tried again: a delay doubled for each attempt before it,
ten times at most, and no longer than its ceiling where it has one.
-/
def retryDelay (delaySecs : Nat) (maxDelaySecs : Option Nat) (attempt : Nat) : Nat :=
  -- The attempt's number is cut to 32 bits first.
  let shift := min (attempt % 2 ^ 32 - 1) 10
  let delay := min (delaySecs * 2 ^ shift) maxU64
  match maxDelaySecs with
  | some cap => min delay cap
  | none => delay

/-- When a failed attempt of a task is tried again, or nothing where the arithmetic panics. -/
def retryAt (now : Time) (task : TaskSpec) (attempt : Nat) : Option Time :=
  Time.after now (retryDelay task.retryDelaySecs task.retryMaxDelaySecs attempt)

/-- When a time sensor that is reached wakes, or why its deadline cannot be read; nothing where the
arithmetic panics.
-/
def waitDeadline (parseInstant : String → Except String Time) (now : Time) (wait : WaitSpec)
    : Option (Except String Time) :=
  match wait.waitFor, wait.untilTime with
  | some duration, _ =>
      match parseDurationSecs duration with
      | .ok secs => (Time.after now secs).map .ok
      | .error problem => some (.error ("invalid wait.for '" ++ duration ++ "': " ++ problem))
  | none, some text =>
      some ((parseInstant text).mapError ("invalid wait.until '" ++ text ++ "': " ++ ·))
  | none, none => some (.ok now)

/-- An instant that is no sooner than now, and no sooner than a delay from now where the clock
reaches that far.
-/
structure NoSooner (now : Time) (delay : Nat) (wakes : Time) : Prop where
  present
    : now ≤ wakes
  delayed
    : now + seconds delay ≤ latestInstant → now + seconds delay ≤ wakes

/-- What the clock owes a task: each retry, sensor and loop of it is given an instant, no sooner
than its delay from now.
-/
structure WakesInTime (parseInstant : String → Except String Time) (now : Time) (task : TaskSpec)
    : Prop where
  retries
    : ∀ attempt, ∃ wakes, retryAt now task attempt = some wakes
        ∧ NoSooner now (retryDelay task.retryDelaySecs task.retryMaxDelaySecs attempt) wakes
  sensors
    : ∀ wait ∈ task.wait, ∀ duration ∈ wait.waitFor, ∀ secs,
        parseDurationSecs duration = .ok secs →
          ∃ wakes, waitDeadline parseInstant now wait = some (.ok wakes)
            ∧ NoSooner now secs wakes
  loops
    : ∀ loop ∈ task.repeatSpec,
        NoSooner now (min loop.delaySecs maxRepeatDelaySecs) (delayedRetryAt now loop.delaySecs)

/-- The longest delay of a task's retries, that of its eleventh attempt. -/
def longestDelay (delaySecs : Nat) (maxDelaySecs : Option Nat) : Nat :=
  min (delaySecs * 2 ^ 10) (min (maxDelaySecs.getD maxU64) maxU64)

/-- The delays whose instants the clock reaches: the longest of the retries', and each sensor's. -/
structure WakeupsFit (now : Time) (task : TaskSpec) : Prop where
  retries
    : Fits now (longestDelay task.retryDelaySecs task.retryMaxDelaySecs)
  sensors
    : ∀ wait ∈ task.wait, ∀ duration ∈ wait.waitFor, ∀ secs,
        parseDurationSecs duration = .ok secs → Fits now secs

section Delays

variable {now : Time} {delay secs delaySecs : Nat} {maxDelaySecs : Option Nat}

theorem Fits.mono (fits : Fits now secs) (shorter : delay ≤ secs)
    : Fits now delay := by
  obtain ⟨within, till⟩ := fits
  refine ⟨shorter.trans within, ?_⟩
  unfold seconds at till ⊢
  unfold Time at *
  omega

theorem NoSooner.seconds (now : Time) (delay : Nat)
    : NoSooner now delay (now + Store.seconds delay) where
  present := by
    unfold Store.seconds
    unfold Time at *
    omega
  delayed _ := Int.le_refl _

/-- An instant comes out of the arithmetic where the span fits, and is then no sooner than it. -/
theorem after_noSooner_iff
    : (∃ wakes, Time.after now delay = some wakes ∧ NoSooner now delay wakes) ↔ Fits now delay := by
  constructor
  · rintro ⟨wakes, came, _⟩
    obtain ⟨within, till, _⟩ := Time.after_eq_some_iff.mp came
    exact ⟨within, till⟩
  · rintro ⟨within, till⟩
    exact ⟨_, Time.after_eq_some_iff.mpr ⟨within, till, rfl⟩, .seconds now delay⟩

theorem retryDelay_le (attempt : Nat)
    : retryDelay delaySecs maxDelaySecs attempt ≤ longestDelay delaySecs maxDelaySecs := by
  have doubled : delaySecs * 2 ^ min (attempt % 2 ^ 32 - 1) 10 ≤ delaySecs * 2 ^ 10 :=
    Nat.mul_le_mul_left _ (Nat.pow_le_pow_right (by decide) (Nat.min_le_right _ _))
  unfold retryDelay longestDelay
  cases maxDelaySecs with
  | none => simp only [Option.getD_none, Nat.min_self]; omega
  | some cap => simp only [Option.getD_some]; omega

theorem retryDelay_eleven
    : retryDelay delaySecs maxDelaySecs 11 = longestDelay delaySecs maxDelaySecs := by
  unfold retryDelay longestDelay
  cases maxDelaySecs with
  | none => rw [Option.getD_none, Nat.min_self]; rfl
  | some cap => rw [Option.getD_some, Nat.min_comm cap, ← Nat.min_assoc]; rfl

theorem delayedRetryAt_noSooner
    : NoSooner now (min delay maxRepeatDelaySecs) (delayedRetryAt now delay) := by
  unfold delayedRetryAt
  cases came : Time.after now (min delay maxRepeatDelaySecs) with
  | some wakes =>
      obtain ⟨_, _, rfl⟩ := Time.after_eq_some_iff.mp came
      exact .seconds _ _
  | none =>
      refine ⟨Int.le_refl _, fun reached => ?_⟩
      -- A year is a span, so that only the end of the clock can be in the way.
      have short : min delay maxRepeatDelaySecs ≤ maxSpanSecs :=
        (Nat.min_le_right _ _).trans (by decide)
      rw [Time.after_eq_some_iff.mpr ⟨short, reached, rfl⟩] at came
      cases came

end Delays

section Sensors

variable {parseInstant : String → Except String Time} {now : Time} {wait : WaitSpec}
  {duration : String} {secs : Nat}

theorem waitDeadline_eq_after (timed : wait.waitFor = some duration)
    (reads : parseDurationSecs duration = .ok secs)
    : waitDeadline parseInstant now wait = (Time.after now secs).map .ok := by
  unfold waitDeadline
  rw [timed]
  dsimp only
  rw [reads]

theorem sensor_noSooner_iff (timed : wait.waitFor = some duration)
    (reads : parseDurationSecs duration = .ok secs)
    : (∃ wakes, waitDeadline parseInstant now wait = some (.ok wakes) ∧ NoSooner now secs wakes)
      ↔ Fits now secs := by
  rw [waitDeadline_eq_after timed reads, ← after_noSooner_iff]
  refine exists_congr fun wakes => and_congr_left fun _ => ?_
  rw [Option.map_eq_some_iff]
  exact ⟨fun ⟨_, came, same⟩ => Except.ok.inj same ▸ came, fun came => ⟨wakes, came, rfl⟩⟩

end Sensors

/-- The wake-ups of an accepted specification come out of the arithmetic, no sooner than their
delays, exactly where the clock reaches the longest of them.
-/
theorem wakes_in_time_iff (dag : DagGraph) (parseInstant : String → Except String Time)
    (now : Time)
    : (∀ task ∈ dag.spec.tasks, WakesInTime parseInstant now task)
      ↔ ∀ task ∈ dag.spec.tasks, WakeupsFit now task := by
  refine forall₂_congr fun task _ => ⟨fun wakes => ⟨?_, ?_⟩, fun fit => ⟨?_, ?_, ?_⟩⟩
  · have eleventh := wakes.retries 11
    rw [retryDelay_eleven] at eleventh
    exact after_noSooner_iff.mp (by rwa [retryAt, retryDelay_eleven] at eleventh)
  · intro wait waits duration timed secs reads
    exact (sensor_noSooner_iff timed reads).mp
      (wakes.sensors wait waits duration timed secs reads)
  · intro attempt
    exact after_noSooner_iff.mpr (fit.retries.mono (retryDelay_le attempt))
  · intro wait waits duration timed secs reads
    exact (sensor_noSooner_iff timed reads).mpr
      (fit.sensors wait waits duration timed secs reads)
  · exact fun loop _ => delayedRetryAt_noSooner

/-- A workflow of one command whose retries are so many seconds apart. -/
def slowBuild (delaySecs : Nat) : DagSpec where
  name := "build"
  tasks := [{ name := "make", command := ["make"], maxAttempts := 2, retryDelaySecs := delaySecs }]

/-- A delay of 64 bits that no span of time can be: the first retry panics. -/
theorem not_wakes_in_time
    : ¬ ∀ (spec : DagSpec) (fanouts : FanoutsPlain spec.tasks) (dag : DagGraph),
        DagGraph.fromSpec spec fanouts = .ok dag →
          ∀ (parseInstant : String → Except String Time) (now : Time), now ≤ latestInstant →
            ∀ task ∈ dag.spec.tasks, WakesInTime parseInstant now task := by
  intro kept
  have plain : FanoutsPlain (slowBuild (2 ^ 63)).tasks := by decide
  have checked : validate (slowBuild (2 ^ 63)).dedupe = .ok () := by rfl
  obtain ⟨dag, accepted⟩ : ∃ dag, DagGraph.fromSpec (slowBuild (2 ^ 63)) plain = .ok dag := by
    unfold DagGraph.fromSpec
    split
    case h_1 message refused =>
      rw [checked] at refused
      cases refused
    case h_2 => exact ⟨_, rfl⟩
  have wakes := kept _ _ dag accepted (fun _ => .error "") 0 (by decide)
  rw [DagGraph.fromSpec_spec accepted] at wakes
  obtain ⟨_, came, _⟩ := (wakes _ (.head _)).retries 1
  have panics (task : TaskSpec) (slow : task.retryDelaySecs = 2 ^ 63)
      (free : task.retryMaxDelaySecs = none) : retryAt 0 task 1 = none := by
    rw [retryAt, slow, free]
    decide
  rw [panics _ rfl rfl] at came
  cases came

end Dagron.Store
