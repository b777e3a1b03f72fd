import Dagron.Spec.Duration
import Dagron.Store.Progress

/-! Deadlines: the arithmetic of a run's budget and of a gate's timeout, from the number in a
specification to the text the sweeps compare.
-/

namespace Dagron.Store

open Dagron.Library Dagron.Library.Timestamp Dagron.Spec

-- Spans

theorem Time.after_eq_some_iff {now ends : Time} {secs : Nat}
    : Time.after now secs = some ends
      ↔ secs ≤ maxSpanSecs ∧ now + seconds secs ≤ latestInstant ∧ ends = now + seconds secs := by
  unfold Time.after
  have short : min secs (2 ^ 63 - 1) ≤ maxSpanSecs ↔ secs ≤ maxSpanSecs := by
    unfold maxSpanSecs
    omega
  simp only [short]
  split
  case isTrue fits => simp [fits, eq_comm]
  case isFalse fits =>
    simp only [reduceCtorEq, false_iff]
    exact fun ⟨within, till, _⟩ => fits ⟨within, till⟩

/-- A span fits where the instant it ends is the clock's. -/
def Fits (now : Time) (secs : Nat) : Prop :=
  secs ≤ maxSpanSecs ∧ now + seconds secs ≤ latestInstant

theorem deadlineOf_eq_some_iff {now : Time} {span : Option Nat} {deadline : Option Time}
    : deadlineOf now span = some deadline
      ↔ (∀ secs ∈ span, Fits now secs) ∧ deadline = span.map (fun secs => now + seconds secs) := by
  cases span with
  | none => simp [deadlineOf, eq_comm]
  | some secs =>
      simp only [deadlineOf, Option.map_eq_some_iff, Time.after_eq_some_iff, Option.mem_some_iff,
        forall_eq', Option.map_some, Fits]
      constructor
      · rintro ⟨ends, ⟨within, till, rfl⟩, rfl⟩
        exact ⟨⟨within, till⟩, rfl⟩
      · rintro ⟨⟨within, till⟩, rfl⟩
        exact ⟨_, ⟨within, till, rfl⟩, rfl⟩

theorem asI64_le (value : Nat)
    : asI64 value ≤ value := by
  have most : asI64 value ≤ ((2 ^ 64 : Nat) - 1 : Int) / 2 := Int.bmod_le (by decide)
  by_cases small : (value : Int) ≤ ((2 ^ 64 : Nat) - 1 : Int) / 2
  · exact (Int.bmod_eq_of_le (by omega) (by omega)).le
  · omega

theorem asI64_eq {value : Nat} (fits : value ≤ maxSpanSecs)
    : asI64 value = value := by
  unfold maxSpanSecs at fits
  exact Int.bmod_eq_of_le (by omega) (by omega)

-- Runs

/-- The rows of a run made at an instant, and the instant its budget counts from: it starts at
once, or waits and is let in later.
-/
inductive RunStarts (dag : DagGraph) (submission : Submission) (created admitted : Time)
    : RunRow → Time → Prop
  | atOnce {deadlineAt alertDeadlineAt : Option Time}
      (deadline : deadlineOf created dag.spec.runTimeoutSecs = some deadlineAt)
      (alert : deadlineOf created dag.spec.alertWithinSecs = some alertDeadlineAt)
      : RunStarts dag submission created admitted
        (runRowOf dag submission.trigger submission.run created false deadlineAt alertDeadlineAt)
        created
  | letIn {deadlineAt alertDeadlineAt : Option Time}
      (deadline : deadlineOf created dag.spec.runTimeoutSecs = some deadlineAt)
      (alert : deadlineOf created dag.spec.alertWithinSecs = some alertDeadlineAt)
      {waiting : RunRow} (made : waiting = runRowOf dag submission.trigger submission.run created
        true deadlineAt alertDeadlineAt)
      : RunStarts dag submission created admitted (waiting.letIn admitted waiting) admitted

theorem createRun_panics_iff {env : Env} {now : Time} {submission : Submission} {db : Db}
    {dag : DagGraph} (room : submission.diskOk = true) (graph : runGraph db submission = .ok dag)
    : createRun env now submission db = .error .panicked
      ↔ deadlineOf now dag.spec.runTimeoutSecs = none
        ∨ deadlineOf now dag.spec.alertWithinSecs = none := by
  simp only [createRun, room, graph, Bool.not_true, Bool.false_eq_true, if_false, bind, Except.bind,
    pure, Except.pure]
  cases deadlineOf now dag.spec.runTimeoutSecs with
  | none => exact ⟨fun _ => .inl rfl, fun _ => rfl⟩
  | some deadlineAt =>
      cases deadlineOf now dag.spec.alertWithinSecs with
      | none => exact ⟨fun _ => .inr rfl, fun _ => rfl⟩
      | some alertDeadlineAt =>
          simp only [reduceCtorEq, or_self, iff_false]
          cases (weigh env now dag.spec submission.trigger submission.run db).2 with
          | refuse => rintro ⟨⟩
          | start | wait =>
              dsimp only
              split <;> rintro ⟨⟩

theorem lt_of_stamp_lt {deadline now : Time} (written : Written deadline) (written' : Written now)
    (passed : stamp deadline < stamp now)
    : deadline < now := by
  rcases Int.lt_trichotomy deadline now with less | same | more
  · exact less
  · rw [same] at passed
    exact absurd passed (List.lt_irrefl _)
  · exact absurd passed (List.lt_asymm (stamp_lt written' written more))

section Runs

variable {dag : DagGraph} {submission : Submission} {created admitted started now : Time}
  {row : RunRow}

/-- A run is not let in before its budget, where that ends in a four-digit year, is all there. -/
theorem RunStarts.not_early (starts : RunStarts dag submission created admitted row started)
    (written : Written created) {budget : Nat} (limits : dag.spec.runTimeoutSecs = some budget)
    (fits : max created admitted + seconds budget ≤ lastWritten)
    (now_ : Written now) (overdue : row.overdue now)
    : started + seconds budget ≤ now := by
  have whole : 0 ≤ seconds budget := by
    unfold seconds
    omega
  have later : created ≤ max created admitted := Int.le_max_left created admitted
  have later' : admitted ≤ max created admitted := Int.le_max_right created admitted
  have since := written.1
  have read : Written (created + seconds budget) :=
    ⟨by unfold Time at *; omega, by unfold Time at *; omega⟩
  obtain ⟨_, _, passed, _⟩ := overdue
  cases starts with
  | atOnce deadline =>
      obtain ⟨_, rfl⟩ := deadlineOf_eq_some_iff.mp deadline
      simp only [runRowOf, limits, Option.map_some, Option.any_some, decide_eq_true_eq] at passed
      exact (lt_of_stamp_lt read now_ passed).le
  | letIn deadline alert made =>
      subst made
      have moved : created + seconds budget + max (admitted - created) 0
          = max created admitted + seconds budget := by
        unfold Time at *
        omega
      obtain ⟨_, rfl⟩ := deadlineOf_eq_some_iff.mp deadline
      simp only [RunRow.letIn, runRowOf, limits, deadlineAfterWait, if_true, Option.map_some,
        Option.any_some, decide_eq_true_eq, moved] at passed
      have read' : Written (max created admitted + seconds budget) :=
        ⟨by unfold Time at *; omega, fits⟩
      have held : lastWritten ≤ latestInstant := by decide
      rw [if_pos ⟨read, written, fits.trans held⟩] at passed
      have after := lt_of_stamp_lt read' now_ passed
      unfold Time at *
      omega

theorem overdue_past {deadline : Time} (later : lastWritten < deadline)
    (open_ : row.status = .running ∧ row.stoppingAs.isNone)
    (deadlineAt : row.deadlineAt = some deadline)
    (admitted : row.queuedAt.isNone ∨ row.admittedAt.isSome)
    : row.overdue firstWritten := by
  refine ⟨open_.1, open_.2, ?_, admitted⟩
  rw [deadlineAt, Option.any_some, decide_eq_true_eq]
  exact stamp_past later (by decide)

theorem RunStarts.early (written : Written created) (written' : Written admitted) {budget : Nat}
    (limits : dag.spec.runTimeoutSecs = some budget) (fits : Fits created budget)
    (alerts : ∀ secs ∈ dag.spec.alertWithinSecs, Fits created secs)
    (past : lastWritten < max created admitted + seconds budget)
    : ∃ row started, RunStarts dag submission created admitted row started
        ∧ row.overdue firstWritten ∧ firstWritten < started + seconds budget := by
  have since := written.1
  have till := written.2
  have since' := written'.1
  have till' := written'.2
  have whole : 0 ≤ seconds budget := by
    unfold seconds
    omega
  have deadline : deadlineOf created dag.spec.runTimeoutSecs = some (some (created + seconds budget)) :=
    deadlineOf_eq_some_iff.mpr ⟨fun secs set => by rw [limits] at set; cases set; exact fits,
      by rw [limits]; rfl⟩
  have alert := deadlineOf_eq_some_iff.mpr ⟨alerts, rfl⟩
  have ordered : firstWritten ≤ lastWritten := by decide
  by_cases atOnce : lastWritten < created + seconds budget
  · refine ⟨_, created, .atOnce deadline alert, overdue_past atOnce ⟨rfl, rfl⟩ rfl (.inl rfl), ?_⟩
    unfold Time at *
    omega
  · have later : lastWritten < admitted + seconds budget := by
      unfold Time at *
      omega
    have moved : created + seconds budget + max (admitted - created) 0 = admitted + seconds budget := by
      unfold Time at *
      omega
    have last : admitted + seconds budget ≤ latestInstant := by
      have wide : 3 * lastWritten - 2 * firstWritten ≤ latestInstant := by decide
      unfold Time at *
      omega
    refine ⟨_, admitted, .letIn deadline alert rfl, overdue_past later ⟨rfl, rfl⟩ ?_ (.inr rfl), ?_⟩
    · have read : Written (created + seconds budget) :=
        ⟨by unfold Time at *; omega, by unfold Time at *; omega⟩
      simp only [RunRow.letIn, runRowOf, deadlineAfterWait, Option.map_some, if_true, moved]
      rw [if_pos ⟨read, written, last⟩]
    · unfold Time at *
      omega

end Runs

-- Gates

def GateAsks (dag : DagGraph) (submission : Submission) (since : Time) (task : TaskSpec)
    (gate : TaskRow) : Prop :=
  gate.scheduledAt = some since ∧ ∃ created heldBy seat, seat.task = task
    ∧ gate.toTaskColumns = (rowOf dag submission.run created heldBy seat).toTaskColumns

/-- The sweep does not panic at a gate, and decides it once it has asked for so long. -/
def PromptGate (since : Time) (timeout : Nat) (gate : TaskRow) : Prop :=
  Db.timeoutPanics gate = false
    ∧ ∀ now secs, Db.expiredTimeout now gate = some secs → since + seconds timeout ≤ now

theorem timeoutDeadline_eq_some_iff {since deadline : Time} {timeout : Int}
    : Db.timeoutDeadline since timeout = some deadline
      ↔ (timeout.natAbs ≤ maxSpanSecs ∧ earliestInstant ≤ deadline ∧ deadline ≤ latestInstant)
        ∧ deadline = since + timeout * 1000000000 := by
  unfold Db.timeoutDeadline
  dsimp only
  split
  case isTrue fits =>
    constructor
    · rintro ⟨⟩
      exact ⟨fits, rfl⟩
    · rintro ⟨_, rfl⟩
      rfl
  case isFalse fits =>
    refine ⟨nofun, ?_⟩
    rintro ⟨fits', rfl⟩
    exact absurd fits' fits

theorem GateAsks.timed {dag : DagGraph} {submission : Submission} {since : Time} {task : TaskSpec}
    {gate : TaskRow} {timeout : Nat} (asks : GateAsks dag submission since task gate)
    (written : Written since) (times : task.approvalTimeoutSecs = some timeout)
    : Db.timedSince gate = some (since, asI64 timeout) := by
  obtain ⟨asked, created, heldBy, seat, rfl, columns⟩ := asks
  have stored : gate.approvalTimeoutSecs = some (asI64 timeout) := by
    rw [congrArg TaskColumns.approvalTimeoutSecs columns]
    simp only [rowOf, times, Option.map_some]
  rw [Db.timedSince, asked, stored, Option.filter_some, if_pos (decide_eq_true written)]

section Gates

variable {since now : Time} {gate : TaskRow} {secs : Int}

theorem timeoutPanics_eq (timed : Db.timedSince gate = some (since, secs))
    : Db.timeoutPanics gate = (Db.timeoutDeadline since secs).isNone := by
  rw [Db.timeoutPanics, timed, Option.any_some]

theorem expiredTimeout_eq (timed : Db.timedSince gate = some (since, secs))
    : Db.expiredTimeout now gate = (Db.timeoutDeadline since secs).bind (fun deadline =>
        if deadline ≤ now then some secs else none) := by
  rw [Db.expiredTimeout, timed, Option.bind_some]

end Gates

theorem promptGate_iff {since : Time} {gate : TaskRow} {timeout : Nat}
    (timed : Db.timedSince gate = some (since, asI64 timeout)) (written : Written since)
    : PromptGate since timeout gate ↔ Fits since timeout := by
  constructor
  · rintro ⟨ends, late⟩
    rw [timeoutPanics_eq timed, Option.isNone_eq_false_iff] at ends
    obtain ⟨deadline, ends⟩ := Option.isSome_iff_exists.mp ends
    have late := late deadline (asI64 timeout) (by
      rw [expiredTimeout_eq timed, ends, Option.bind_some, if_pos (le_refl _)])
    obtain ⟨⟨within, _, till⟩, rfl⟩ := timeoutDeadline_eq_some_iff.mp ends
    have less := asI64_le timeout
    have same : asI64 timeout = timeout := by
      unfold seconds at late
      unfold Time at *
      omega
    rw [same] at within till
    exact ⟨by rwa [Int.natAbs_natCast] at within, till⟩
  · rintro ⟨within, till⟩
    have same := asI64_eq within
    have early : earliestInstant ≤ firstWritten := by decide
    have since_ := written.1
    have whole : 0 ≤ seconds timeout := by
      unfold seconds
      omega
    have ends : Db.timeoutDeadline since (asI64 timeout) = some (since + seconds timeout) := by
      rw [same]
      refine timeoutDeadline_eq_some_iff.mpr ⟨⟨?_, ?_, till⟩, rfl⟩
      · rwa [Int.natAbs_natCast]
      · unfold Time at *
        omega
    refine ⟨by rw [timeoutPanics_eq timed, ends, Option.isNone_some], ?_⟩
    intro now secs expired
    rw [expiredTimeout_eq timed, ends, Option.bind_some, Option.ite_none_right_eq_some] at expired
    exact expired.1

-- Every specification

/-- What a run made at an instant is owed: its durations are read as they are written, making
it does not panic, it is overdue only once its whole budget has passed since it started, and so
is a gate of it that asks since an instant.
-/
structure Prompt (env : Env) (submission : Submission) (db : Db) (dag : DagGraph)
    (created admitted since : Time) : Prop where
  durations
    : ∀ duration secs, parseDurationSecs duration = .ok secs →
        ∃ number, parseU64 (trim (durationParts (trim duration.toList)).1) = some number
          ∧ secs = number * (durationParts (trim duration.toList)).2 ∧ secs < 2 ^ 64
  made
    : createRun env created submission db ≠ .error .panicked
  runs
    : ∀ budget ∈ dag.spec.runTimeoutSecs, ∀ row started,
        RunStarts dag submission created admitted row started →
          ∀ now, Written now → row.overdue now → started + seconds budget ≤ now
  gates
    : ∀ task ∈ dag.spec.tasks, ∀ timeout ∈ task.approvalTimeoutSecs, ∀ gate,
        GateAsks dag submission since task gate → PromptGate since timeout gate

/-- The budgets whose arithmetic comes out: a run's ends in a four-digit year however late it
is let in, and its alert and its gates' timeouts end while the clock runs.
-/
structure BudgetsFit (dag : DagGraph) (created admitted since : Time) : Prop where
  runs
    : ∀ budget ∈ dag.spec.runTimeoutSecs, max created admitted + seconds budget ≤ lastWritten
  alerts
    : ∀ within ∈ dag.spec.alertWithinSecs, Fits created within
  gates
    : ∀ task ∈ dag.spec.tasks, ∀ timeout ∈ task.approvalTimeoutSecs, Fits since timeout

theorem fits_of_written {now : Time} {secs : Nat} (since : firstWritten ≤ now)
    (till : now + seconds secs ≤ lastWritten)
    : Fits now secs := by
  have held : lastWritten ≤ latestInstant := by decide
  refine ⟨?_, till.trans held⟩
  have wide : lastWritten - firstWritten ≤ maxSpanSecs * 1000000000 := by decide
  unfold seconds at till
  unfold Time at *
  omega

/-- A run's deadline arithmetic is total and never early exactly where its budgets fit. -/
theorem deadlines_prompt_iff {env : Env} {submission : Submission} {db : Db} {dag : DagGraph}
    {created admitted since : Time} (room : submission.diskOk = true)
    (graph : runGraph db submission = .ok dag) (written : Written created)
    (written' : Written admitted) (written'' : Written since)
    : Prompt env submission db dag created admitted since
      ↔ BudgetsFit dag created admitted since := by
  have panics := @createRun_panics_iff env created submission db dag room graph
  constructor
  · intro prompt
    obtain ⟨runs, alerts⟩ := not_or.mp (fun none_ => prompt.made (panics.mpr none_))
    obtain ⟨_, runs⟩ := Option.ne_none_iff_exists'.mp runs
    obtain ⟨_, alerts⟩ := Option.ne_none_iff_exists'.mp alerts
    have runs := (deadlineOf_eq_some_iff.mp runs).1
    have alerts := (deadlineOf_eq_some_iff.mp alerts).1
    refine ⟨?_, alerts, ?_⟩
    · intro budget limits
      by_contra past
      obtain ⟨row, started, starts, overdue, early⟩ := RunStarts.early written written' limits
        (runs budget limits) alerts (Int.lt_of_not_ge past)
      have late := prompt.runs budget limits row started starts firstWritten (by decide) overdue
      exact absurd early (Int.not_lt.mpr late)
    · intro task among timeout times
      let seat : Seat := ⟨task, 0, 0⟩
      let gate : TaskRow := { rowOf dag submission.run created 0 seat with scheduledAt := some since }
      have asks : GateAsks dag submission since task gate :=
        ⟨rfl, created, 0, seat, rfl, rfl⟩
      exact (promptGate_iff (asks.timed written'' times) written'').mp
        (prompt.gates task among timeout times gate asks)
  · intro fit
    refine ⟨fun duration secs => parseDurationSecs_ok, ?_, ?_, ?_⟩
    · intro panicked
      have later : created ≤ max created admitted := Int.le_max_left created admitted
      have runs (secs : Nat) (limits : secs ∈ dag.spec.runTimeoutSecs) : Fits created secs := by
        have till := fit.runs secs limits
        refine fits_of_written written.1 ?_
        unfold Time at *
        omega
      rcases panics.mp panicked with none_ | none_
      · rw [deadlineOf_eq_some_iff.mpr ⟨runs, rfl⟩] at none_
        cases none_
      · rw [deadlineOf_eq_some_iff.mpr ⟨fit.alerts, rfl⟩] at none_
        cases none_
    · intro budget limits row started starts now now_ overdue
      exact starts.not_early written limits (fit.runs budget limits) now_ overdue
    · intro task among timeout times gate asks
      exact (promptGate_iff (asks.timed written'' times) written'').mpr
        (fit.gates task among timeout times)

def timedReport (budget : Nat) : DagGraph where
  spec := { plainReport.spec with runTimeoutSecs := some budget }
  parameters := []
  wellFormed := plainReport.wellFormed

/-- An hour's budget is kept. -/
theorem deadlines_prompt_iff_hour
    : Prompt plainEnv (submit (timedReport 3600) 0) .empty (timedReport 3600) 0 1 2 := by
  refine (deadlines_prompt_iff rfl rfl (by decide) (by decide) (by decide)).mpr ⟨?_, ?_, ?_⟩
  · intro budget limits
    cases limits
    decide
  · nofun
  · intro task among timeout times
    have none_ : ∀ task ∈ (timedReport 3600).spec.tasks, task.approvalTimeoutSecs = none := by decide
    rw [none_ task among] at times
    cases times

/-- A budget of ten thousand years is over at once: its deadline's text sorts before any now. -/
theorem not_deadlines_prompt
    : ¬ ∀ (submission : Submission) (db : Db) (dag : DagGraph) (created admitted since : Time),
        submission.diskOk = true → runGraph db submission = .ok dag → Written created →
          Written admitted → Written since →
            Prompt plainEnv submission db dag created admitted since := by
  intro kept
  have prompt := kept (submit (timedReport 315576000000) 0) .empty (timedReport 315576000000) 0 0 0
    rfl rfl (by decide) (by decide) (by decide)
  have late := prompt.runs 315576000000 rfl _ 0 (.atOnce rfl rfl) 0 (by decide) (by decide)
  revert late
  decide

end Dagron.Store
