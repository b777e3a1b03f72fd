import Dagron.Store.Fanout

/-! Running again: a person retries one task, clears one with all that depends on it, or reruns
a run, its failed part or the whole of it.
-/

namespace Dagron.Store

open Dagron.Library Dagron.Spec

/-- Why tasks are not put back to run again. -/
inductive AgainError where
  | full (reached : MaxActiveRunsReached)
  | teardownOwed (tasks : Nat)
  deriving DecidableEq

/-- Whether a task is a decided gate, whose decision counts as an attempt. -/
def TaskRow.decidedGate (task : TaskRow) : Bool :=
  task.attempt = 0 ∧ task.isApproval ∧ (task.status = .succeeded ∨ task.status = .failed)

/-- A row put back by a person's retry: ready to run, with what the last attempt left of its
result, its park and its decision gone.
-/
def TaskRow.retried (now : Time) (who : Option String) (task : TaskRow) : TaskRow :=
  { task with
    status := .ready
    claimedBy := none
    leaseExpiresAt := none
    scheduledAt := some now
    finishedAt := none
    output := none
    attemptBase := task.attemptBase + if task.decidedGate then 1 else 0
    subRunId := none
    wakeAt := none
    waitUrl := none
    waitDataset := none
    waitDatasetCursor := none
    decidedBy := none
    decisionComment := none
    cacheHit := false
    resetBy := who
    version := task.version + 1 }

/-- A row put back to wait for its dependencies again, with what it was given of a job
elsewhere gone too.
-/
def TaskRow.reset (now : Time) (who : Option String) (task : TaskRow) : TaskRow :=
  { task.retried now who with
    status := .pending
    attemptBase := task.attemptBase + if task.decidedGate then 1 else task.attempt
    attempt := 0
    externalKind := none
    externalHandle := none
    externalEndpoint := none
    externalDeadlineAt := none
    nextPollAt := none
    externalEpoch := task.externalEpoch + 1 }

/-- A run that has ended set running again; one that was never let in does not wait now. -/
def RunRow.rearmed (run : RunRow) : RunRow :=
  { run with
    status := .running
    finishedAt := none
    queuedAt := if run.admittedAt.isNone then none else run.queuedAt }

theorem RunRow.rearmed_columns (run : RunRow)
    : run.rearmed.toRunColumns = run.toRunColumns :=
  rfl

/-- A run's deadlines counted again from now, where its definition sets them. -/
def RunRow.rearmDeadlines (now : Time) (run : RunRow) : RunRow :=
  let again (secs : Option Nat) : Option Time := secs.bind (Time.after now)
  { run with
    deadlineAt := again (run.definition.runTimeoutSecs.filter (fun secs => 0 < secs))
      <|> run.deadlineAt
    alertDeadlineAt := again (run.definition.alertWithinSecs.filter (fun secs => 0 < secs))
      <|> run.alertDeadlineAt }

theorem RunRow.rearmDeadlines_columns (now : Time) (run : RunRow)
    : (run.rearmDeadlines now).toRunColumns = run.toRunColumns :=
  rfl

namespace Db

/-- Refuses to set a run running again while its key is full without it. -/
def refuseIfFull (run : Nat) (db : Db) : Except AgainError Unit :=
  match db.run? run with
  | none => .ok ()
  | some row =>
      match row.definition.maxActiveRuns.filter (fun max => 0 < max) with
      | none => .ok ()
      | some max =>
          let (active, _) := db.runsInFlight row.definition.name row.concurrencyKey (some run)
          if active < max then .ok ()
          else
            .error (.full {
              name := row.definition.name
              max := max
              active := active
              waiting := 0
              key := row.concurrencyKey
            })

/-- Sets a run running again where it has ended as (ended) says, within its cap, and says
whether it did; (set) is what else changes of its row.
-/
def rearmRun (now : Time) (run : Nat) (ended : RunStatus → Bool) (set : RunRow → RunRow)
    (db : Db) (keeps : ∀ row, (set row).toRunColumns = row.toRunColumns := by intros; rfl)
    : Except AgainError (Db × Bool) := do
  let cond (row : RunRow) : Prop := row.id = run ∧ ended row.status
  if db.runs.count cond = 0 then return (db, false)
  let armed := db.updateRuns cond (fun row => (set row).rearmed)
    (fun row => (RunRow.rearmed_columns _).trans (keeps row))
  armed.refuseIfFull run
  return (armed.updateRuns (fun row => row.id = run) (RunRow.rearmDeadlines now)
    (RunRow.rearmDeadlines_columns now), true)

/-- Counts each pending task's dependencies that are not among the settled. -/
def recount (run : Nat) (settled : TaskStatus → Bool) (db : Db) : Db :=
  db.updateTasks (fun task => task.runId = run ∧ task.status = .pending)
    (fun task => { task with
      remainingDeps := (db.depStatuses task.id).countP (fun status => !settled status) })

def broken : RunStatus → Bool
  | .failed | .cancelled => true
  | _ => false

def over_ : RunStatus → Bool
  | .succeeded | .failed | .cancelled => true
  | _ => false

/-- A person's retry of one failed or cancelled task: nothing where it is neither. -/
def retryTaskFromUi (now : Time) (id : Nat) (who : Option String) (db : Db)
    : Except AgainError Db := do
  let retryable (task : TaskRow) : Prop :=
    task.id = id ∧ (task.status = .failed ∨ task.status = .cancelled)
  match (db.task? id).filter retryable with
  | none => return db
  | some task =>
      let retried := db.updateTasks retryable (TaskRow.retried now who)
      let (armed, _) ← retried.rearmRun now task.runId broken (fun run => run)
      return armed.emit (.runAgain task.runId .retry 1 (some id))

/-- What a rerun puts back: the tasks that failed, were cancelled or were skipped. -/
def rerunnable (run : Nat) (task : TaskRow) : Prop :=
  task.runId = run
    ∧ (task.status = .failed ∨ task.status = .cancelled ∨ task.status = .skipped)

instance (run : Nat) : DecidablePred (rerunnable run) := fun task => by
  unfold rerunnable
  infer_instance

/-- Reruns a run that failed or was cancelled from where it broke: nothing for any other. -/
def rerunFromFailed (now : Time) (run : Nat) (origin : RunAgain) (who : Option String) (db : Db)
    : Except AgainError Db := do
  let (armed, ours) ← db.rearmRun now run broken (fun row => { row with output := none })
  if !ours then return db
  let reset := armed.updateTasks (rerunnable run) (TaskRow.reset now who)
  let counted := reset.recount run (fun status => status = .succeeded ∨ status = .skipped)
  return counted.emit (.runAgain run origin (armed.countTasks (rerunnable run)) none)

/-- Refuses to rerun a run whole while its tasks owe the teardown of jobs elsewhere. -/
def refuseIfTeardownOwed (run : Nat) (db : Db) : Except AgainError Unit :=
  let owing := db.countTasks (fun task => task.runId = run ∧ task.externalHandle.isSome
    ∧ task.status ≠ .running)
  if owing = 0 then .ok () else .error (.teardownOwed owing)

def instanceOf (run : Nat) (task : TaskRow) : Prop :=
  task.runId = run ∧ task.fanoutParent.isSome

instance (run : Nat) : DecidablePred (instanceOf run) := fun task => by
  unfold instanceOf
  infer_instance

/-- Removes the instances of a run's fan-outs, their edges first. -/
def dropInstances (run : Nat) (db : Db) : Db :=
  let gone (id : Nat) : Prop := (db.task? id).any (fun task => instanceOf run task)
  { db with
    deps := db.deps.delete (fun dep => gone dep.dependency ∨ gone dep.dependent)
    tasks := db.tasks.delete (instanceOf run) }

/-- Reruns a run that has ended, every task of it: nothing for any other. -/
def rerunAll (now : Time) (run : Nat) (who : Option String) (db : Db) : Except AgainError Db := do
  let (armed, ours) ← db.rearmRun now run over_ (fun row =>
    { row with output := none, wholeReruns := row.wholeReruns + 1 })
  if !ours then return db
  armed.refuseIfTeardownOwed run
  let whole := armed.dropInstances run
  let ended (task : TaskRow) : Prop :=
    task.runId = run ∧ task.fanoutParent.isNone ∧ task.status.terminal
  let reset := whole.updateTasks ended (TaskRow.reset now who)
  let counted := reset.recount run (fun status => status = .succeeded ∨ status = .skipped)
  return counted.emit (.runAgain run .rerunAll (whole.countTasks ended) none)

/-- Adds to a set of tasks what depends on one of them, round by round. -/
def downstream (deps : List DepRow) : Nat → List Nat → List Nat
  | 0, cone => cone
  | rounds + 1, cone =>
      let next := (deps.filter (fun dep => dep.dependency ∈ cone ∧ dep.dependent ∉ cone)).map
        DepRow.dependent
      downstream deps rounds (cone ++ next)

/-- Puts a task that has ended back, and every ended task that depends on it: nothing where
the task has not ended, or is not of the run.
-/
def clearTaskWithDownstream (now : Time) (run id : Nat) (who : Option String) (db : Db)
    : Except AgainError Db := do
  if db.countTasks (fun task => task.id = id ∧ task.runId = run ∧ task.status.terminal) = 0 then
    return db
  let cone := downstream db.deps.rows db.tasks.rows.length [id]
  let inCone (task : TaskRow) : Prop := task.id ∈ cone ∧ task.status.terminal
  let reset := db.updateTasks inCone (TaskRow.reset now who)
  let counted := reset.recount run TaskStatus.terminal
  let (armed, _) ← counted.rearmRun now run over_ (fun row => { row with output := none })
  return armed.emit (.runAgain run .clear (db.countTasks inCone) (some id))

end Db

end Dagron.Store
