import Dagron.Store.Again

/-! The end of a run whose tasks have all ended, and the runs that wait for room under their
workflow's cap.
-/

namespace Dagron.Store

open Dagron.Library Dagron.Spec

def RunRow.reapable (run : RunRow) : Prop :=
  run.status = .running ∧ run.stoppingAs.isNone ∧ (run.queuedAt.isNone ∨ run.admittedAt.isSome)

instance (run : RunRow) : Decidable run.reapable := by
  unfold RunRow.reapable
  infer_instance

def RunRow.queued (run : RunRow) : Prop :=
  run.status = .running ∧ run.stoppingAs.isNone ∧ run.queuedAt.isSome ∧ run.admittedAt.isNone

instance (run : RunRow) : Decidable run.queued := by
  unfold RunRow.queued
  infer_instance

/-- How many waiting runs of one key a pass lets in at most. -/
def admitAtOnce : Nat :=
  64

/-- A deadline moved on by as long as its run waited, where the text of both can be read. -/
def deadlineAfterWait (deadlineAt queuedAt : Option Time) (now : Time) : Option Time :=
  deadlineAt.map fun deadline =>
    match queuedAt with
    | none => deadline
    | some queued =>
        let moved := deadline + max (now - queued) 0
        if Timestamp.Written deadline ∧ Timestamp.Written queued ∧ moved ≤ latestInstant then moved
        else deadline

/-- A waiting run let in, its deadline moved on from where it was read. -/
def RunRow.letIn (now : Time) (waiting run : RunRow) : RunRow :=
  { run with
    admittedAt := some now
    deadlineAt := deadlineAfterWait waiting.deadlineAt waiting.queuedAt now }

namespace Db

-- Reaping

/-- How a run has ended, if each of its tasks has: failed where one failed that may not. -/
def outcomeOf (db : Db) (run : Nat) : Option RunStatus :=
  let tasks := db.tasks.select (fun task => task.runId = run)
  if tasks.all (fun task => task.status.terminal) then
    some (if tasks.any (fun task => task.status = .failed ∧ task.allowFailure = false)
      then .failed else .succeeded)
  else none

/-- The output of the task a run's result is taken from. -/
def resultOf (db : Db) (run : RunRow) : Option String :=
  match run.resultFrom with
  | none => run.output
  | some name =>
      ((db.tasks.select (fun task => task.runId = run.id ∧ task.name = name)).head?).bind
        (fun task => task.output)

def reapRun (now : Time) (ended : Nat × RunStatus) (db : Db) : Db :=
  let cond (row : RunRow) : Prop := row.id = ended.1 ∧ row.status = .running
  if db.runs.count cond = 0 then db
  else
    (db.updateRuns cond (fun row => { row with
      status := ended.2
      finishedAt := some now
      completionPendingAt := none
      startPendingAt := none
      output := if ended.2 = .succeeded then db.resultOf row else row.output })).emit
      (.runCompleted ended.1 ended.2)

/-- What a reap reads: the runs among some whose tasks have all ended, and how each has. It
writes them one by one later, and other operations may commit before it does.
-/
def readOutcomes (runs : List Nat) (db : Db) : List (Nat × RunStatus) :=
  (db.runs.select (fun run => run.reapable ∧ run.id ∈ runs)).filterMap
    (fun run => (db.outcomeOf run.id).map (fun status => (run.id, status)))

-- Letting runs in

/-- Lets one waiting run in: its tasks are no longer held, and its deadline starts now. -/
def letIn (now : Time) (waiting : RunRow) (db : Db) : Db :=
  let cond (run : RunRow) : Prop := run.id = waiting.id ∧ run.queued
  if db.runs.count cond = 0 then db
  else
    (db.updateRuns cond (RunRow.letIn now waiting)).updateTasks
      (fun task => task.runId = waiting.id ∧ task.status = .pending ∧ 0 < task.remainingDeps)
      (fun task => { task with
        remainingDeps := task.remainingDeps - 1, scheduledAt := some now })

/-- Lets waiting runs in, in order, while each one's cap has room. -/
def letInEach (now : Time) : List RunRow → Nat → Db → Db
  | [], _, db => db
  | waiting :: rest, running, db =>
      if (waiting.definition.maxActiveRuns.filter (fun max => 0 < max)).any
          (fun cap => cap ≤ running) then db
      else if db.runs.count (fun run => run.id = waiting.id ∧ run.queued) = 0 then
        letInEach now rest running db
      else letInEach now rest (running + 1) (db.letIn now waiting)

/-- The waiting runs of a key, the longest waiting first. -/
def admissionNext (name : String) (key : Option String) (db : Db) : List RunRow :=
  ((db.runs.select (fun run => run.queued ∧ run.definition.name = name
    ∧ run.concurrencyKey = key)).insertionSort
    (fun first second => noLater first.queuedAt second.queuedAt
      ∧ (first.queuedAt ≠ second.queuedAt ∨ first.id ≤ second.id))).take admitAtOnce

def admitKey (now : Time) (key : String × Option String) (db : Db) : Db :=
  let (inFlight, waiting) := db.runsInFlight key.1 key.2 none
  db.letInEach now (db.admissionNext key.1 key.2) (inFlight - waiting)

/-- Lets in the runs that wait, where the runs before them have made room; one transaction. -/
def admitWaitingRuns (now : Time) (db : Db) : Db :=
  let keys := ((db.runs.select RunRow.queued).map
    (fun run => (run.definition.name, run.concurrencyKey))).dedup
  keys.foldl (fun db key => db.admitKey now key) db

section LetIn

variable {now : Time} {Kept : Db → Prop} (keep : ∀ db row, Kept db → Kept (letIn now row db))

include keep

theorem letInEach_rule (rows : List RunRow) (running : Nat) {db : Db} (kept : Kept db)
    : Kept (db.letInEach now rows running) := by
  induction rows generalizing db running with
  | nil => exact kept
  | cons row rest ih =>
      unfold letInEach
      split
      · exact kept
      split
      · exact ih running kept
      · exact ih _ (keep db row kept)

/-- What holds of a store, and of it as each run is let in, holds once those that may be are. -/
theorem admitWaitingRuns_rule {db : Db} (kept : Kept db)
    : Kept (db.admitWaitingRuns now) :=
  List.foldlRecOn _ _ kept fun _ kept _ _ => letInEach_rule keep _ _ kept

end LetIn

end Db

end Dagron.Store
