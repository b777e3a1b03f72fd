import Mathlib.Data.List.Sort
import Dagron.Library.Transition
import Dagron.Store.Schema

/-! Stopping runs: a cancel asks, a deadline asks, and a run ends when the last of its tasks
that was asked to stop has stopped.
-/

namespace Dagron.Store

open Dagron.Library Dagron.Spec

/-- When the lease of a task asked to stop runs out: a whole lease from now. -/
def stopLease (env : Env) (now : Time) : Time :=
  now + seconds env.leaseSecs

/-- What nothing runs for: it has not started, it waits for a person, or it is parked. -/
def TaskRow.idle (task : TaskRow) : Prop :=
  task.status = .pending ∨ task.status = .ready ∨ task.status = .awaitingApproval
    ∨ (task.status = .running ∧ task.claimedBy.isNone)

def TaskRow.held (task : TaskRow) : Prop :=
  task.status = .running ∧ task.claimedBy.isSome

/-- Whether a task was asked to stop and its worker has not said that its work is gone. -/
def TaskRow.stopping (task : TaskRow) : Prop :=
  task.status = .running ∧ task.stopRequestedAt.isSome

instance (task : TaskRow) : Decidable task.idle := by
  unfold TaskRow.idle
  infer_instance

instance (task : TaskRow) : Decidable task.held := by
  unfold TaskRow.held
  infer_instance

instance (task : TaskRow) : Decidable task.stopping := by
  unfold TaskRow.stopping
  infer_instance

/-- A task asked to stop; one asked before keeps the lease it has. -/
def TaskRow.askToStop (env : Env) (now : Time) (task : TaskRow) : TaskRow :=
  { task with
    leaseExpiresAt :=
      if task.stopRequestedAt.isNone then some (stopLease env now) else task.leaseExpiresAt
    stopRequestedAt := some (task.stopRequestedAt.getD now) }

/-- Whether a run's deadline, as text, has passed while it ran. -/
def RunRow.overdue (now : Time) (run : RunRow) : Prop :=
  run.status = .running ∧ run.stoppingAs.isNone
    ∧ run.deadlineAt.any (fun deadline => Timestamp.stamp deadline < Timestamp.stamp now)
    ∧ (run.queuedAt.isNone ∨ run.admittedAt.isSome)

instance (now : Time) : DecidablePred (RunRow.overdue now) := fun run => by
  unfold RunRow.overdue
  infer_instance

def RunRow.stopped (now : Time) (status : RunStatus) (run : RunRow) : RunRow :=
  { run with
    status := status
    finishedAt := some now
    completionPendingAt := none
    startPendingAt := none
    stoppingAs := none
    stopRequestedAt := none }

/-- A run asked to stop because its deadline has passed. -/
def RunRow.timedOut (now : Time) (run : RunRow) : RunRow :=
  { run with
    stoppingAs := some .failed
    stopRequestedAt := some now
    startPendingAt := none
    output := some "run deadline exceeded (run_timeout_secs)" }

namespace Db

/-- Cancels a run's tasks that nothing runs for, and asks those a worker holds to stop. -/
def stopRunTasks (env : Env) (now : Time) (run : Nat) (db : Db) : Db :=
  let cancelled := db.updateTasks (fun task => task.runId = run ∧ task.idle)
    (fun task => { task with
      status := .cancelled
      finishedAt := some now
      claimedBy := none
      leaseExpiresAt := none })
  cancelled.updateTasks (fun task => task.runId = run ∧ task.held) (TaskRow.askToStop env now)

/-- Ends a run that was asked to stop, once none of its tasks is still stopping. -/
def finishStoppedRun (now : Time) (run : Nat) (db : Db) : Db :=
  match (db.run? run).bind (fun row => if row.status = .running then row.stoppingAs else none) with
  | none => db
  | some status =>
      if db.countTasks (fun task => task.runId = run ∧ task.stopping) = 0 then
        (db.updateRuns (fun row => row.id = run) (RunRow.stopped now status)).emit
          (.runCompleted run status)
      else db

/-- Settles a task that was asked to stop and is held under a claim: cancelled, its run ended
where it was the last one stopping. Nothing for any other row.
-/
def settleStopping (now : Time) (id : Nat) (worker : String) (fence : Nat) (db : Db)
    : Option Db :=
  match (db.task? id).filter (fun task => task.claimedBy = some worker ∧ task.version = fence
    ∧ task.stopping) with
  | none => none
  | some task =>
      let settled := db.updateTasks (fun row => row.id = id)
        (fun row => { row with
          status := .cancelled
          finishedAt := some now
          claimedBy := none
          leaseExpiresAt := none
          stopRequestedAt := none })
      some (settled.finishStoppedRun now task.runId)

/-- A worker's word that the work of a task asked to stop is gone. -/
def settleStoppedTask (now : Time) (id : Nat) (worker : String) (fence : Nat) (db : Db) : Db :=
  (db.settleStopping now id worker fence).getD db

/-- A worker that could not see a task's teardown through: its lease lapses soon, so that the
teardown is taken up again.
-/
def releaseStoppingTask (now : Time) (id : Nat) (worker : String) (fence retrySecs : Nat)
    (db : Db) : Db :=
  db.updateTasks
    (fun task => task.id = id ∧ task.claimedBy = some worker ∧ task.version = fence
      ∧ task.stopping)
    (fun task => { task with leaseExpiresAt := some (now + seconds retrySecs) })

def cancelRun (env : Env) (now : Time) (run : Nat) (db : Db) : Db :=
  if db.runs.count (fun row => row.id = run ∧ row.status = .running) = 0 then db
  else
    let asked := db.updateRuns (fun row => row.id = run ∧ row.status = .running)
      (fun row => { row with
        stoppingAs := some (row.stoppingAs.getD .cancelled)
        stopRequestedAt := some (row.stopRequestedAt.getD now)
        startPendingAt := none })
    (asked.stopRunTasks env now run).finishStoppedRun now run

/-- Stops the runs whose deadline has passed: each ends failed once its work has stopped. -/
def cancelOverdueRuns (env : Env) (now : Time) (db : Db) : Db :=
  let overdue := (db.runs.select (RunRow.overdue now)).map (fun run => run.id)
  let asked := db.updateRuns (RunRow.overdue now) (RunRow.timedOut now)
  overdue.foldl (fun db run => (db.stopRunTasks env now run).finishStoppedRun now run) asked

/-- The runs asked to stop that were left with no task stopping, as the sweep that ends them
reads them.
-/
def strandedStoppedRuns (db : Db) : List Nat :=
  (db.runs.select (fun run => run.stoppingAs.isSome ∧ run.status = .running
    ∧ db.countTasks (fun task => task.runId = run.id ∧ task.stopping) = 0)).map
    (fun run => run.id)

/-- Applies a stop again to one run, and ends it where nothing of it is stopping. -/
def endStoppedRun (env : Env) (now : Time) (run : Nat) (db : Db) : Db :=
  let cleared := (db.stopRunTasks env now run).updateTasks
    (fun task => task.runId = run ∧ task.status ≠ .running ∧ task.stopRequestedAt.isSome)
    (fun task => { task with stopRequestedAt := none })
  cleared.finishStoppedRun now run

/-- The tasks asked to stop whose lease has lapsed, which nobody is watching. -/
def dueTeardowns (now : Time) (classes : List String) (db : Db) : List TaskRow :=
  (db.tasks.select (fun task => task.stopping
    ∧ task.leaseExpiresAt.any (fun lease => lease < now) ∧ task.sessionId.isNone
    ∧ (classes = [] ∨ task.runnerClass ∈ classes))).insertionSort
    (fun first second => first.leaseExpiresAt.getD 0 ≤ second.leaseExpiresAt.getD 0)

/-- Takes a task's teardown under a new claim, unless it has changed hands. -/
def claimTeardown (env : Env) (now : Time) (worker : String) (candidate : TaskRow) (db : Db)
    : Db :=
  db.updateTasks
    (fun task => task.id = candidate.id ∧ task.version = candidate.version ∧ task.stopping)
    (fun task => { task with
      claimedBy := some worker
      leaseExpiresAt := some (stopLease env now)
      version := task.version + 1 })

/-- Claims the teardowns that are due, up to a limit, passing over the tasks (held) the asking
engine still has an execution out for; one transaction.
-/
def claimTeardowns (env : Env) (now : Time) (worker : String) (limit : Nat)
    (classes : List String) (held : List Nat) (db : Db) : Db :=
  (((db.dueTeardowns now classes).filter (fun task => task.id ∉ held)).take limit).foldl
    (fun db task => db.claimTeardown env now worker task) db

end Db

end Dagron.Store
