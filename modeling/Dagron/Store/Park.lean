import Dagron.Store.Finish

/-! Tasks that wait without a worker: parked on a child workflow's run, a timer, an endpoint, a
dataset's next update or a job that runs elsewhere, or asking a person. A worker parks its
task under the version of its claim, and a sweep resolves what is parked.
-/

namespace Dagron.Store

open Dagron.Library Dagron.Spec

def sweepBatch : Nat :=
  256

/-- The instant some seconds from now, as late as a delay may be; now, where there is none. -/
def delayedRetryAt (now : Time) (delaySecs : Nat) : Time :=
  (Time.after now (min delaySecs maxRepeatDelaySecs)).getD now

def TaskRow.released (task : TaskRow) : TaskRow :=
  { task with claimedBy := none, leaseExpiresAt := none }

/-- What a worker may park under the version of its claim. -/
def TaskRow.parkable (fence : Nat) (task : TaskRow) : Prop :=
  task.status = .running ∧ task.version = fence ∧ task.stopRequestedAt.isNone

instance (fence : Nat) : DecidablePred (TaskRow.parkable fence) := fun task => by
  unfold TaskRow.parkable
  infer_instance

namespace Db

/-- A write to the running task of an id that meets a further guard. -/
def updateRunning (db : Db) (id : Nat) (guard : TaskRow → Prop) [DecidablePred guard]
    (set : TaskRow → TaskRow)
    (keeps : ∀ row, (set row).toTaskColumns = row.toTaskColumns := by intros; rfl) : Db :=
  db.updateTasks (fun task => task.id = id ∧ task.status = .running ∧ guard task) set keeps

/-- Ends the running task of an id that meets a further guard, and releases its dependents;
nothing where there is none.
-/
def endRunning (db : Db) (id : Nat) (guard : TaskRow → Prop) [DecidablePred guard]
    (set : TaskRow → TaskRow)
    (keeps : ∀ row, (set row).toTaskColumns = row.toTaskColumns := by intros; rfl) : Db :=
  (db.endTask id (fun task => task.status = .running ∧ guard task) set keeps).getD db

-- Sub-workflows

def parkSubworkflow (id fence child : Nat) (db : Db) : Db :=
  db.updateTasks (fun task => task.id = id ∧ task.parkable fence)
    (fun task => { task.released with subRunId := some child })

/-- Gives a trigger back to the queue: its child run cannot start now. -/
def releaseSubworkflowTask (id fence : Nat) (db : Db) : Db :=
  db.updateTasks (fun task => task.id = id ∧ task.parkable fence)
    (fun task => { task.released with status := .ready })

/-- Ends a trigger as its child run ended, with the child's output where it has one. -/
def resolveSubworkflow (now : Time) (id child : Nat) (succeeded : Bool) (db : Db) : Db :=
  let said := ((db.run? child).bind (fun run => run.output)).getD
    (if succeeded then "sub-workflow succeeded" else "sub-workflow failed")
  db.endRunning id (fun task => task.subRunId = some child) (fun task => { task with
    status := if succeeded then .succeeded else .failed
    finishedAt := some now
    output := some said })

/-- Puts a trigger back in the queue for its loop's next iteration. -/
def requeueParkedSubworkflow (id child : Nat) (output : Option String) (retryAt : Time)
    (db : Db) : Db :=
  db.updateRunning id (fun task => task.subRunId = some child) (fun task => { task.released with
    status := .ready
    scheduledAt := some retryAt
    subRunId := none
    finishedAt := none
    output := output
    version := task.version + 1 })

/-- Fails a trigger whose child run did not end its loop. -/
def failParkedSubworkflow (now : Time) (id child : Nat) (reason : String) (db : Db) : Db :=
  db.endRunning id (fun task => task.subRunId = some child) (fun task => { task with
    status := .failed
    finishedAt := some now
    output := some reason
    subRunId := none })

/-- A parked trigger, and how its child run ended. -/
structure EndedChild where
  task
    : Nat
  child
    : Nat
  succeeded
    : Bool
  output
    : Option String

/-- How a run that has ended counts for the trigger that waits for it. -/
def endedChild (task : TaskRow) (run : RunRow) : Option EndedChild :=
  match run.status with
  | .succeeded => some ⟨task.id, run.id, true, run.output⟩
  | .failed | .cancelled => some ⟨task.id, run.id, false, run.output⟩
  | .pending | .running => none

def parkedSubworkflows (db : Db) : List EndedChild :=
  ((db.tasks.select (fun task => task.status = .running)).filterMap (fun task =>
    (task.subRunId.bind db.run?).bind (endedChild task))).take sweepBatch

/-- Decides one trigger: it goes round again where its loop says so, and ends otherwise. -/
def reconcileSubworkflow (env : Env) (now : Time) (parked : EndedChild) (db : Db) : Db :=
  let row := db.task? parked.task
  match if parked.succeeded then row.bind (fun task => task.input.repeatSpec) else none with
  | none => db.resolveSubworkflow now parked.task parked.child parked.succeeded
  | some loop =>
      let iteration := (row.map (fun task => task.attempt)).getD 1
      match loop.decide env.host (parked.output.getD "") iteration with
      | .done => db.resolveSubworkflow now parked.task parked.child true
      | .again delaySecs =>
          db.requeueParkedSubworkflow parked.task parked.child parked.output
            (delayedRetryAt now delaySecs)
      | .fail reason => db.failParkedSubworkflow now parked.task parked.child reason

/-- The sweep of the triggers whose child run has ended. -/
def reconcileSubworkflows (env : Env) (now : Time) (db : Db) : List Db :=
  sweep (reconcileSubworkflow env now) db.parkedSubworkflows db

-- Sensors

def parkWait (id fence : Nat) (wakeAt : Time) (db : Db) : Db :=
  db.updateTasks (fun task => task.id = id ∧ task.parkable fence)
    (fun task => { task.released with wakeAt := some wakeAt })

def TimerDue (now : Time) (task : TaskRow) : Prop :=
  task.wakeAt.any (fun wakeAt => wakeAt ≤ now)

instance (now : Time) : DecidablePred (TimerDue now) := fun task => by
  unfold TimerDue
  infer_instance

def reconcileWait (now : Time) (id : Nat) (db : Db) : Db :=
  db.endRunning id (TimerDue now) (fun task => { task with
    status := .succeeded, finishedAt := some now, output := some "wait elapsed" })

/-- The sweep of the timers that are due, the longest due first. -/
def reconcileWaits (now : Time) (db : Db) : List Db :=
  let due := (db.tasks.select (fun task => task.status = .running ∧ TimerDue now task)
    ).insertionSort (fun first second => noLater first.wakeAt second.wakeAt)
  sweep (reconcileWait now) ((due.take sweepBatch).map (fun task => task.id)) db

def parkWaitUrl (id fence : Nat) (url : String) (nextPollAt : Time) (db : Db) : Db :=
  db.updateTasks (fun task => task.id = id ∧ task.parkable fence)
    (fun task => { task.released with waitUrl := some url, nextPollAt := some nextPollAt })

/-- Takes one poll of an endpoint, unless another scheduler did. -/
def claimUrlWait (until_ : Time) (seen : Nat × Option Time) (db : Db) : Db :=
  db.updateRunning seen.1 (fun task => task.waitUrl.isSome ∧ task.nextPollAt = seen.2)
    (fun task => { task with nextPollAt := some until_ })

/-- Takes the polls of endpoints that are due, up to a limit. -/
def claimDueUrlWaits (now : Time) (limit claimSecs : Nat) (db : Db) : List Db :=
  let due := (db.tasks.select (fun task => task.status = .running ∧ task.waitUrl.isSome
    ∧ task.nextPollAt.any (fun time => time ≤ now))).insertionSort
    (fun first second => noLater first.nextPollAt second.nextPollAt)
  sweep (claimUrlWait (delayedRetryAt now claimSecs))
    ((due.take limit).map (fun task => (task.id, task.nextPollAt))) db

/-- An endpoint that is not ready is polled again later. -/
def reparkUrlWait (id : Nat) (nextPollAt : Time) (db : Db) : Db :=
  db.updateRunning id (fun task => task.waitUrl.isSome)
    (fun task => { task with nextPollAt := some nextPollAt })

def resolveUrlWait (now : Time) (id : Nat) (db : Db) : Db :=
  db.endRunning id (fun task => task.waitUrl.isSome) (fun task => { task with
    status := .succeeded, finishedAt := some now, output := some "wait url ready" })

/-- The place of a dataset's last update in the ledger, counted from one; zero where it has
none.
-/
def datasetMark (uri : String) (db : Db) : Nat :=
  ((db.datasetEvents.zipIdx 1).filter (fun entry => entry.1.uri = uri)).foldl
    (fun mark entry => max mark entry.2) 0

def parkWaitDataset (id fence : Nat) (uri : String) (db : Db) : Db :=
  db.updateTasks (fun task => task.id = id ∧ task.parkable fence)
    (fun task => { task.released with
      waitDataset := some uri, waitDatasetCursor := some (db.datasetMark uri) })

def reconcileDatasetWait (now : Time) (id : Nat) (db : Db) : Db :=
  db.endRunning id (fun task => task.waitDataset.isSome) (fun task => { task with
    status := .succeeded, finishedAt := some now, output := some "dataset updated" })

/-- The sweep of the sensors whose dataset was updated since they parked. -/
def reconcileDatasetWaits (now : Time) (db : Db) : List Db :=
  let due := db.tasks.select (fun task => task.status = .running
    ∧ task.waitDataset.any (fun uri => task.waitDatasetCursor.getD 0 < db.datasetMark uri))
  sweep (reconcileDatasetWait now) ((due.take sweepBatch).map (fun task => task.id)) db

def recordDatasetUpdates (id : Nat) (uris : List String) (db : Db) : Db :=
  { db with
    datasetEvents := db.datasetEvents ++ uris.map (fun uri =>
      { uri := uri
        run := (db.task? id).map (fun task => task.runId)
        task := (db.task? id).map (fun task => task.name) }) }

def recordExternalDatasetEvent (uri : String) (db : Db) : Db :=
  { db with datasetEvents := db.datasetEvents ++ [{ uri := uri, run := none, task := none }] }

-- Jobs that run elsewhere

def parkExternal (id fence : Nat) (kind handle : String) (endpoint : Option String)
    (nextPollAt : Time) (deadlineAt : Option Time) (db : Db) : Db :=
  db.updateTasks (fun task => task.id = id ∧ task.parkable fence)
    (fun task => { task.released with
      externalKind := some kind
      externalHandle := some handle
      externalEndpoint := endpoint
      nextPollAt := some nextPollAt
      externalDeadlineAt := deadlineAt })

/-- Takes one poll of a job, unless another scheduler did. -/
def claimExternalPoll (until_ : Time) (seen : TaskRow) (db : Db) : Db :=
  db.updateRunning seen.id (fun task => task.externalHandle = seen.externalHandle
      ∧ task.nextPollAt = seen.nextPollAt)
    (fun task => { task with nextPollAt := some until_ })

/-- Takes the polls of jobs that are due, up to a limit. -/
def claimDueExternalPolls (now : Time) (limit claimSecs : Nat) (db : Db) : List Db :=
  let due := (db.tasks.select (fun task => task.status = .running ∧ task.externalHandle.isSome
    ∧ task.nextPollAt.all (fun time => time ≤ now))).insertionSort
    (fun first second => noLater first.nextPollAt second.nextPollAt)
  sweep (claimExternalPoll (delayedRetryAt now claimSecs)) (due.take limit) db

def reparkExternal (id : Nat) (handle : String) (nextPollAt : Time) (db : Db) : Db :=
  db.updateRunning id (fun task => task.externalHandle = some handle)
    (fun task => { task with nextPollAt := some nextPollAt })

def resolveExternal (now : Time) (id : Nat) (handle : String) (output : Option String)
    (db : Db) : Db :=
  db.endRunning id (fun task => task.externalHandle = some handle) (fun task => { task with
    status := .succeeded
    finishedAt := some now
    output := output <|> task.output
    externalHandle := none
    nextPollAt := none
    externalDeadlineAt := none })

/-- Fails a task whose job failed, or ran for too long: then the job is still to be stopped,
and its handle kept.
-/
def failExternal (now : Time) (id : Nat) (handle reason : String) (keepHandle : Bool) (db : Db)
    : Db :=
  db.endRunning id (fun task => task.externalHandle = some handle) (fun task => { task with
    status := .failed
    finishedAt := some now
    output := some reason
    externalHandle := if keepHandle then task.externalHandle else none
    nextPollAt := none
    externalDeadlineAt := none
    externalEpoch := task.externalEpoch + 1 })

/-- Takes the teardowns of jobs that are owed one, up to a limit; one transaction. -/
def claimDueExternalCancels (now : Time) (limit leaseSecs : Nat) (db : Db) : Db :=
  let due := ((db.tasks.select (fun task => task.externalHandle.isSome ∧ task.status ≠ .running
    ∧ task.nextPollAt.all (fun time => time ≤ now))).insertionSort
    (fun first second => noLater first.nextPollAt second.nextPollAt)).take limit
  db.updateTasks (fun task => task.id ∈ due.map (fun row => row.id))
    (fun task => { task with nextPollAt := some (delayedRetryAt now leaseSecs) })

/-- A job that was torn down, or given up on, is owed nothing more. -/
def clearExternalHandle (id : Nat) (handle : String) (db : Db) : Db :=
  db.updateTasks (fun task => task.id = id ∧ task.externalHandle = some handle)
    (fun task => { task with
      externalHandle := none, nextPollAt := none, externalDeadlineAt := none })

def recordExternalCancelFailure (id : Nat) (handle : String) (nextAt : Time) (db : Db) : Db :=
  db.updateTasks (fun task => task.id = id ∧ task.externalHandle = some handle)
    (fun task => { task with
      externalCancelAttempts := task.externalCancelAttempts + 1, nextPollAt := some nextAt })

/-- A teardown that this engine cannot make is left to another. -/
def releaseExternalCancelClaim (id : Nat) (handle : String) (nextAt : Time) (db : Db) : Db :=
  db.updateTasks (fun task => task.id = id ∧ task.externalHandle = some handle)
    (fun task => { task with nextPollAt := some nextAt })

-- Approval gates

/-- Decides a gate that asks: nothing for any other row, or under another run. -/
def resolveApproval (now : Time) (run id : Nat) (approve : Bool) (decidedBy : Option String)
    (comment : Option String) (db : Db) : Db :=
  (db.endTask id (fun task => task.runId = run ∧ task.status = .awaitingApproval)
    (fun task => { task with
      status := if approve then .succeeded else .failed
      finishedAt := some now
      output := some (if approve then "approved" else "rejected")
      decidedBy := decidedBy
      decisionComment := comment })).getD db

/-- When a gate times out that asked since an instant, or nothing where the arithmetic panics. -/
def timeoutDeadline (since : Time) (timeout : Int) : Option Time :=
  let deadline := since + timeout * 1000000000
  if timeout.natAbs ≤ maxSpanSecs ∧ earliestInstant ≤ deadline ∧ deadline ≤ latestInstant then
    some deadline
  else none

/-- Since when a gate asks, where the text can be read, and its timeout. -/
def timedSince (task : TaskRow) : Option (Time × Int) :=
  match task.scheduledAt.filter (fun since => Timestamp.Written since), task.approvalTimeoutSecs with
  | some since, some timeout => some (since, timeout)
  | _, _ => none

def timeoutPanics (task : TaskRow) : Bool :=
  (timedSince task).any (fun (since, timeout) => (timeoutDeadline since timeout).isNone)

/-- How long a gate waits, where it has waited at least as long. -/
def expiredTimeout (now : Time) (task : TaskRow) : Option Int :=
  (timedSince task).bind fun (since, timeout) =>
    (timeoutDeadline since timeout).bind fun deadline =>
      if deadline ≤ now then some timeout else none

/-- Decides a gate that has waited too long, as the gate says; it is rejected by default. -/
def resolveExpiredApproval (now : Time) (task : TaskRow) (db : Db) : Db :=
  match expiredTimeout now task with
  | none => db
  | some timeout =>
      let approve : Bool := task.approvalOnTimeout = some "approve"
      db.resolveApproval now task.runId task.id approve (some "timeout")
        (some ("approval_timeout_secs (" ++ toString timeout ++ "s) elapsed; defaulted to "
          ++ if approve then "approve" else "reject"))

/-- The sweep of the gates that have waited too long; a panic at one ends it there. -/
def resolveExpiredApprovals (now : Time) (db : Db) : List Db :=
  sweep (resolveExpiredApproval now)
    ((db.tasks.select (fun task => task.status = .awaitingApproval
      ∧ task.approvalTimeoutSecs.isSome)).takeWhile (fun task => !timeoutPanics task)) db

end Db

end Dagron.Store
