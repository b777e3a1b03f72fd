import Dagron.Store.Reap

/-! The store's operations as one transition system: each operation commits one or more states,
in any order with the others, and a crash may end it after any of its commits.
-/

namespace Dagron.Store

open Dagron.Library Dagron.Spec

/-- What a claim gives a worker to dispatch: a task, and the version the claim left it at. -/
structure Ticket where
  task
    : Nat
  fence
    : Nat
  deriving DecidableEq, Repr

/-- How a worker parks what it dispatches, or gives it back. -/
inductive Parking where
  | subworkflow (child : Nat)
  | release
  | wait (wakeAt : Time)
  | waitUrl (url : String) (nextPollAt : Time)
  | waitDataset (uri : String)
  | external (kind handle : String) (endpoint : Option String) (nextPollAt : Time)
    (deadlineAt : Option Time)

/-- The store, the dispatches that are under way, the failures that were written and whose
gangs have not been told, and what reaps and stop sweeps have read and not gone by yet: runs
with how they ended, and stopped runs left with no task stopping.
-/
structure World where
  db
    : Db
  dispatched
    : List Ticket := []
  failures
    : List Nat := []
  outcomes
    : List (Nat × RunStatus) := []
  stranded
    : List Nat := []

/-- The operations on the store. -/
inductive Op where
  | createRun (now : Time) (submission : Submission)
  | advanceReadyTasks (now : Time)
  | claimReady (now : Time) (worker : String) (limit : Nat) (classes : List String)
    (caps : PoolBudget) (excludeGangs : Bool)
  | claimReadyGang (now : Time) (worker : String) (capacity : Nat) (classes : List String)
    (caps : PoolBudget)
  | recoverExpiredLeases (now : Time)
  | renewTaskLease (now : Time) (id : Nat) (worker : String) (fence extendSecs : Nat)
  | reclassReadyTasks (now : Time) (source target : String) (minReadyAgeSecs minAttempt : Nat)
  | reclassReadyTasksNearDeadline (now : Time) (source target : String) (withinSecs : Nat)
  | markTaskSucceeded (now : Time) (id : Nat) (worker : String) (fence : Nat)
    (output : Option String) (cacheHit : Bool)
  | markTaskFailed (now : Time) (id : Nat) (worker : String) (fence : Nat)
    (error : Option String)
  | retryTask (now : Time) (id : Nat) (worker : String) (fence : Nat) (error : Option String)
    (retryAt : Time)
  | requeueQuotaWait (now : Time) (id : Nat) (worker : String) (fence : Nat) (detail : String)
    (maxWaitSecs : Nat) (jitterPermille : Int)
  | cancelGangSiblings (now : Time) (member : Nat)
  | park (ticket : Ticket) (parking : Parking)
  | reconcileSubworkflows (now : Time)
  | reconcileWaits (now : Time)
  | claimDueUrlWaits (now : Time) (limit claimSecs : Nat)
  | reparkUrlWait (id : Nat) (nextPollAt : Time)
  | resolveUrlWait (now : Time) (id : Nat)
  | reconcileDatasetWaits (now : Time)
  | recordDatasetUpdates (id : Nat) (uris : List String)
  | recordExternalDatasetEvent (uri : String)
  | claimDueExternalPolls (now : Time) (limit claimSecs : Nat)
  | reparkExternal (id : Nat) (handle : String) (nextPollAt : Time)
  | resolveExternal (now : Time) (id : Nat) (handle : String) (output : Option String)
  | failExternal (now : Time) (id : Nat) (handle reason : String) (keepHandle : Bool)
  | claimDueExternalCancels (now : Time) (limit leaseSecs : Nat)
  | clearExternalHandle (id : Nat) (handle : String)
  | recordExternalCancelFailure (id : Nat) (handle : String) (nextAt : Time)
  | releaseExternalCancelClaim (id : Nat) (handle : String) (nextAt : Time)
  | resolveApproval (now : Time) (run id : Nat) (approve : Bool) (decidedBy comment : Option String)
  | resolveExpiredApprovals (now : Time)
  | reconcileFanouts (now : Time) (mint : Nat → Nat → Nat)
  | settleStoppedTask (now : Time) (id : Nat) (worker : String) (fence : Nat)
  | releaseStoppingTask (now : Time) (id : Nat) (worker : String) (fence retrySecs : Nat)
  | claimTeardowns (now : Time) (worker : String) (limit : Nat) (classes : List String)
    (held : List Nat)
  | cancelRun (now : Time) (run : Nat)
  | cancelOverdueRuns (now : Time)
  | readStrandedStoppedRuns
  | endStoppedRun (now : Time) (run : Nat)
  | retryTaskFromUi (now : Time) (id : Nat) (who : Option String)
  | rerunFromFailed (now : Time) (run : Nat) (origin : RunAgain) (who : Option String)
  | rerunAll (now : Time) (run : Nat) (who : Option String)
  | clearTaskWithDownstream (now : Time) (run id : Nat) (who : Option String)
  | readOutcomes (runs : List Nat)
  | reapRun (now : Time) (ended : Nat × RunStatus)
  | abandonReap (ended : Nat × RunStatus)
  | admitWaitingRuns (now : Time)
  | writePolicies (policies : List EnvironmentPolicy)

namespace World

def init : World where
  db := .empty

/-- The world after a commit of the store: a dispatch, or a failure, of a row that is gone
comes to nothing.
-/
def commit (world : World) (db : Db) : World :=
  { world with
    db := db
    dispatched := world.dispatched.filter (fun ticket => (db.task? ticket.task).isSome)
    failures := world.failures.filter (fun id => (db.task? id).isSome) }

def commitAll : World → List Db → List World
  | _, [] => []
  | world, db :: rest => world.commit db :: commitAll (world.commit db) rest

/-- The world after a claim: each row claimed is under way. -/
def dispatch (world : World) (claimed : Db × List TaskRow) : World :=
  let next := world.commit claimed.1
  { next with
    dispatched := claimed.2.map (fun row => ⟨row.id, row.version + 1⟩) ++ next.dispatched }

end World

/-- The store after a worker parks a task under the version of its claim. -/
def Db.park (ticket : Ticket) (parking : Parking) (db : Db) : Db :=
  match parking with
  | .subworkflow child => db.parkSubworkflow ticket.task ticket.fence child
  | .release => db.releaseSubworkflowTask ticket.task ticket.fence
  | .wait wakeAt => db.parkWait ticket.task ticket.fence wakeAt
  | .waitUrl url nextPollAt => db.parkWaitUrl ticket.task ticket.fence url nextPollAt
  | .waitDataset uri => db.parkWaitDataset ticket.task ticket.fence uri
  | .external kind handle endpoint nextPollAt deadlineAt =>
      db.parkExternal ticket.task ticket.fence kind handle endpoint nextPollAt deadlineAt

/-- The states an operation commits that leaves the dispatches and failures as they are. -/
def Op.writes (env : Env) (db : Db) : Op → List Db
  | .createRun now submission => (Store.createRun env now submission db).toOption.toList
  | .advanceReadyTasks now => db.advanceReadyTasks env now
  | .claimReady now worker limit classes caps excludeGangs =>
      [(db.claimReadyFiltered env now worker limit classes caps excludeGangs).1]
  | .claimReadyGang now worker capacity classes caps =>
      [(db.claimReadyGang env now worker capacity classes caps).1]
  | .recoverExpiredLeases now => [db.recoverExpiredLeases now]
  | .renewTaskLease now id worker fence extendSecs =>
      [db.renewTaskLease now id worker fence extendSecs]
  | .reclassReadyTasks now source target minReadyAgeSecs minAttempt =>
      [db.reclassReadyTasks now source target minReadyAgeSecs minAttempt]
  | .reclassReadyTasksNearDeadline now source target withinSecs =>
      [db.reclassReadyTasksNearDeadline now source target withinSecs]
  | .markTaskSucceeded now id worker fence output cacheHit =>
      [(db.markTaskSucceeded env now id worker fence output cacheHit).1]
  | .markTaskFailed now id worker fence error => [(db.markTaskFailed now id worker fence error).1]
  | .retryTask now id worker fence error retryAt =>
      [(db.retryTask now id worker fence error retryAt).1]
  | .requeueQuotaWait now id worker fence detail maxWaitSecs jitterPermille =>
      [(db.requeueQuotaWait now id worker fence detail maxWaitSecs jitterPermille).1]
  | .cancelGangSiblings now member => [db.cancelGangSiblings env now member]
  | .park ticket parking => [db.park ticket parking]
  | .reconcileSubworkflows now => db.reconcileSubworkflows env now
  | .reconcileWaits now => db.reconcileWaits now
  | .claimDueUrlWaits now limit claimSecs => db.claimDueUrlWaits now limit claimSecs
  | .reparkUrlWait id nextPollAt => [db.reparkUrlWait id nextPollAt]
  | .resolveUrlWait now id => [db.resolveUrlWait now id]
  | .reconcileDatasetWaits now => db.reconcileDatasetWaits now
  | .recordDatasetUpdates id uris => [db.recordDatasetUpdates id uris]
  | .recordExternalDatasetEvent uri => [db.recordExternalDatasetEvent uri]
  | .claimDueExternalPolls now limit claimSecs => db.claimDueExternalPolls now limit claimSecs
  | .reparkExternal id handle nextPollAt => [db.reparkExternal id handle nextPollAt]
  | .resolveExternal now id handle output => [db.resolveExternal now id handle output]
  | .failExternal now id handle reason keepHandle =>
      [db.failExternal now id handle reason keepHandle]
  | .claimDueExternalCancels now limit leaseSecs =>
      [db.claimDueExternalCancels now limit leaseSecs]
  | .clearExternalHandle id handle => [db.clearExternalHandle id handle]
  | .recordExternalCancelFailure id handle nextAt =>
      [db.recordExternalCancelFailure id handle nextAt]
  | .releaseExternalCancelClaim id handle nextAt =>
      [db.releaseExternalCancelClaim id handle nextAt]
  | .resolveApproval now run id approve decidedBy comment =>
      [db.resolveApproval now run id approve decidedBy comment]
  | .resolveExpiredApprovals now => db.resolveExpiredApprovals now
  | .reconcileFanouts now mint => db.reconcileFanouts env now mint
  | .settleStoppedTask now id worker fence => [db.settleStoppedTask now id worker fence]
  | .releaseStoppingTask now id worker fence retrySecs =>
      [db.releaseStoppingTask now id worker fence retrySecs]
  | .claimTeardowns now worker limit classes held =>
      [db.claimTeardowns env now worker limit classes held]
  | .cancelRun now run => [db.cancelRun env now run]
  | .cancelOverdueRuns now => [db.cancelOverdueRuns env now]
  | .readStrandedStoppedRuns => [db]
  | .endStoppedRun now run => [db.endStoppedRun env now run]
  | .retryTaskFromUi now id who => (db.retryTaskFromUi now id who).toOption.toList
  | .rerunFromFailed now run origin who => (db.rerunFromFailed now run origin who).toOption.toList
  | .rerunAll now run who => (db.rerunAll now run who).toOption.toList
  | .clearTaskWithDownstream now run id who =>
      (db.clearTaskWithDownstream now run id who).toOption.toList
  | .readOutcomes _ => [db]
  | .reapRun now ended => [db.reapRun now ended]
  | .abandonReap _ => [db]
  | .admitWaitingRuns now => [db.admitWaitingRuns now]
  | .writePolicies policies => [{ db with policies := policies }]

/-- The worlds an operation commits. A claim puts its rows under way, and a worker parks each
dispatch once; a failure that counted is owed to its gang, which is told once; what a reap or
a stop sweep reads, it goes by once, after whatever others commit in between, unless the reap
dies first.
-/
def Op.commits (env : Env) (op : Op) (world : World) : List World :=
  match op with
  | .claimReady now worker limit classes caps excludeGangs =>
      [world.dispatch
        (world.db.claimReadyFiltered env now worker limit classes caps excludeGangs)]
  | .claimReadyGang now worker capacity classes caps =>
      [world.dispatch (world.db.claimReadyGang env now worker capacity classes caps)]
  | .park ticket parking =>
      if ticket ∈ world.dispatched then
        [{ world with dispatched := world.dispatched.erase ticket }.commit
          (world.db.park ticket parking)]
      else []
  | .markTaskFailed now id worker fence error =>
      let (db, counted) := world.db.markTaskFailed now id worker fence error
      let next := world.commit db
      [if counted then { next with failures := id :: next.failures } else next]
  | .cancelGangSiblings now member =>
      if member ∈ world.failures then
        [{ world with failures := world.failures.erase member }.commit
          (world.db.cancelGangSiblings env now member)]
      else []
  | .readOutcomes runs =>
      [{ world with outcomes := world.db.readOutcomes runs ++ world.outcomes }.commit world.db]
  | .reapRun now ended =>
      if ended ∈ world.outcomes then
        [{ world with outcomes := world.outcomes.erase ended }.commit
          (world.db.reapRun now ended)]
      else []
  | .abandonReap ended =>
      if ended ∈ world.outcomes then
        [{ world with outcomes := world.outcomes.erase ended }.commit world.db]
      else []
  | .readStrandedStoppedRuns =>
      [{ world with stranded := world.db.strandedStoppedRuns ++ world.stranded }.commit world.db]
  | .endStoppedRun now run =>
      if run ∈ world.stranded then
        [{ world with stranded := world.stranded.erase run }.commit
          (world.db.endStoppedRun env now run)]
      else []
  | op => world.commitAll (op.writes env world.db)

def store (env : Env) : System World Op where
  init := .init
  commits := Op.commits env

end Dagron.Store
