import Dagron.Library.Table
import Dagron.Library.Timestamp
import Dagron.Spec.Protected

/-! The scheduler's store: the rows of runs, tasks and dependencies, and what of them a
reader of one run sees.
-/

namespace Dagron.Store

open Dagron.Library Dagron.Spec

abbrev Time := Int

def seconds (count : Nat) : Int :=
  count * 1000000000

/-- The statuses of a task row, which drive the whole state machine. -/
inductive TaskStatus where
  | pending
  | ready
  | running
  | awaitingApproval
  | succeeded
  | failed
  | skipped
  | cancelled
  deriving DecidableEq, Repr

def TaskStatus.terminal : TaskStatus → Bool
  | pending | ready | running | awaitingApproval => false
  | succeeded | failed | skipped | cancelled => true

/-- The statuses of a run. -/
inductive RunStatus where
  | pending
  | running
  | succeeded
  | failed
  | cancelled
  deriving DecidableEq, Repr

/-- Whether a task with a trigger rule runs, given the statuses of its direct dependencies.
A task without dependencies always runs; `cancelled` counts as a failure, and `skipped` as
none.
-/
def triggerRuleReady (rule : String) (statuses : List TaskStatus) : Bool :=
  let failed (status : TaskStatus) : Bool := status = .failed ∨ status = .cancelled
  let nonFailure (status : TaskStatus) : Bool := status = .succeeded ∨ status = .skipped
  if statuses.isEmpty then true
  else if rule = "all_done" then true
  else if rule = "one_failed" then statuses.any failed
  else if rule = "all_failed" then statuses.all failed
  else if rule = "none_failed" then statuses.all nonFailure
  else statuses.all (fun status => status = .succeeded)

/-- What the store takes from around it: text handling, and the operator's settings. -/
structure Env where
  host
    : Externals
  /-- Whether a task's stored text contains `"when"` with its quotes. -/
  mentionsWhen
    : TaskSpec → Bool
  mentionsWhen_of_when
    : ∀ task, task.when.isSome → mentionsWhen task = true
  leaseSecs
    : Nat
  maxWaitingRuns
    : Nat
  maxTasksPerRun
    : Nat

/-- The identity of a gang, one for each gang task of a run. -/
structure GangId where
  run
    : Nat
  task
    : String
  deriving DecidableEq, Repr

/-- The seat of a task row in its gang. -/
structure GangSeat where
  gang
    : GangId
  rank
    : Nat
  size
    : Nat
  deriving DecidableEq, Repr

/-- The columns of a task row that are written when it is inserted and never again. A gang is
of its members' run, and an instance of a fan-out is no fan-out itself.
-/
structure TaskColumns where
  id
    : Nat
  runId
    : Nat
  name
    : String
  input
    : TaskSpec
  triggerRule
    : String
  allowFailure
    : Bool
  isApproval
    : Bool
  approvalTimeoutSecs
    : Option Int
  approvalOnTimeout
    : Option String
  gang
    : Option GangSeat
  pool
    : Option String
  fanoutOf
    : Option String
  fanoutParent
    : Option Nat := none
  fanoutEpoch
    : Nat := 0
  gangRun
    : ∀ seat ∈ gang, seat.gang.run = runId := by simp
  single
    : fanoutParent.isSome → fanoutOf = none := by simp

/-- A task row. -/
structure TaskRow extends TaskColumns where
  status
    : TaskStatus
  remainingDeps
    : Int
  attempt
    : Nat := 0
  attemptBase
    : Nat := 0
  output
    : Option String := none
  claimedBy
    : Option String := none
  leaseExpiresAt
    : Option Time := none
  version
    : Nat := 0
  scheduledAt
    : Option Time
  finishedAt
    : Option Time := none
  runnerClass
    : String
  priority
    : Int
  sessionId
    : Option String := none
  stopRequestedAt
    : Option Time := none
  cacheHit
    : Bool := false
  subRunId
    : Option Nat := none
  wakeAt
    : Option Time := none
  waitUrl
    : Option String := none
  nextPollAt
    : Option Time := none
  waitDataset
    : Option String := none
  waitDatasetCursor
    : Option Nat := none
  externalKind
    : Option String := none
  externalHandle
    : Option String := none
  externalEndpoint
    : Option String := none
  externalEpoch
    : Nat := 0
  externalDeadlineAt
    : Option Time := none
  externalCancelAttempts
    : Nat := 0
  decidedBy
    : Option String := none
  decisionComment
    : Option String := none
  resetBy
    : Option String := none
  quotaWaitSince
    : Option Time := none
  quotaWaitVersion
    : Option Nat := none
  quotaWaits
    : Nat := 0
  quotaWaitDetail
    : Option String := none

/-- A dependency row: a task, and a task it depends on. -/
structure DepRow where
  dependent
    : Nat
  dependency
    : Nat
  deriving DecidableEq, Repr

/-- What the text kept with a run says of the workflow it was made of. -/
structure Definition where
  name
    : String
  maxActiveRuns
    : Option Nat
  runTimeoutSecs
    : Option Nat
  alertWithinSecs
    : Option Nat

/-- The columns of a run row that are written when it is made and never again, with the
definition it was made of and the record of what started it.
-/
structure RunColumns where
  id
    : Nat
  definition
    : Definition
  trigger
    : Option RunTrigger
  concurrencyKey
    : Option String
  resultFrom
    : Option String
  environment
    : Option String
  createdAt
    : Time

/-- A run row. -/
structure RunRow extends RunColumns where
  status
    : RunStatus := .running
  finishedAt
    : Option Time := none
  output
    : Option String := none
  deadlineAt
    : Option Time
  alertDeadlineAt
    : Option Time
  queuedAt
    : Option Time
  admittedAt
    : Option Time := none
  stoppingAs
    : Option RunStatus := none
  stopRequestedAt
    : Option Time := none
  startPendingAt
    : Option Time := none
  completionPendingAt
    : Option Time := none
  wholeReruns
    : Nat := 0

instance : Keyed TaskRow Nat where
  key row := row.id

instance : Keyed DepRow DepRow where
  key row := row

instance : Keyed RunRow Nat where
  key row := row.id

/-- What put tasks of a run back to run again. -/
inductive RunAgain where
  | rerun
  | rerunAll
  | retry
  | clear
  | autoRerun
  deriving DecidableEq, Repr

/-- A domain event, written in the transaction of what it tells of; a run that runs again is
told with how many tasks were put back, and the task that was asked for, if one was.
-/
inductive OutboxEvent where
  | runCompleted (run : Nat) (status : RunStatus)
  | runAgain (run : Nat) (origin : RunAgain) (tasks : Nat) (task : Option Nat)
  deriving DecidableEq, Repr

/-- One recorded update of a dataset; its place in the ledger is its position. -/
structure DatasetEvent where
  uri
    : String
  run
    : Option Nat
  task
    : Option String
  deriving DecidableEq, Repr

/-- The store. -/
structure Db where
  tasks
    : Table TaskRow
  deps
    : Table DepRow
  runs
    : Table RunRow
  policies
    : List EnvironmentPolicy := []
  outbox
    : List OutboxEvent := []
  datasetEvents
    : List DatasetEvent := []

def Db.empty : Db where
  tasks := .empty
  deps := .empty
  runs := .empty

/-- Whether a run waits in its workflow's queue, and has not been let in. -/
def RunRow.waiting (run : RunRow) : Bool :=
  run.status = .running ∧ run.queuedAt.isSome ∧ run.admittedAt.isNone

namespace Db

-- Reads

def task? (db : Db) (id : Nat) : Option TaskRow :=
  db.tasks.get? id

def run? (db : Db) (id : Nat) : Option RunRow :=
  db.runs.get? id

def policyOf (db : Db) (environment : String) : Option EnvironmentPolicy :=
  db.policies.find? (fun policy => policy.environment = environment)

def dependsOn (db : Db) (id dependency : Nat) : Prop :=
  ⟨id, dependency⟩ ∈ db.deps

instance (db : Db) (id dependency : Nat) : Decidable (db.dependsOn id dependency) :=
  inferInstanceAs (Decidable (_ ∈ db.deps.rows))

def dependenciesOf (db : Db) (id : Nat) : List Nat :=
  (db.deps.select (fun dep => dep.dependent = id)).map DepRow.dependency

/-- The statuses of a task's dependencies, as the join with their rows reads them. -/
def depStatuses (db : Db) (id : Nat) : List TaskStatus :=
  (db.dependenciesOf id).filterMap (fun dep => (db.task? dep).map TaskRow.status)

/-- The output of the task of a name in a run, trimmed; empty where it has none. -/
def outputOf (db : Db) (run : Nat) (name : String) : String :=
  match (db.tasks.select (fun task => task.runId = run ∧ task.name = name)).head? with
  | some task => String.ofList (trim (task.output.getD "").toList)
  | none => ""

def countTasks (db : Db) (cond : TaskRow → Prop) [DecidablePred cond] : Nat :=
  db.tasks.count cond

-- Writes

/-- `UPDATE task_runs`: rewrites the task rows a condition admits, leaving the columns that
are written once as they are.
-/
def updateTasks (db : Db) (cond : TaskRow → Prop) [DecidablePred cond]
    (set : TaskRow → TaskRow)
    (keeps : ∀ row, (set row).toTaskColumns = row.toTaskColumns := by intros; rfl) : Db :=
  { db with
    tasks := db.tasks.update cond set (fun row => congrArg TaskColumns.id (keeps row)) }

/-- `UPDATE workflow_runs`: rewrites the run rows a condition admits, leaving the columns that
are written once as they are.
-/
def updateRuns (db : Db) (cond : RunRow → Prop) [DecidablePred cond]
    (set : RunRow → RunRow)
    (keeps : ∀ row, (set row).toRunColumns = row.toRunColumns := by intros; rfl) : Db :=
  { db with
    runs := db.runs.update cond set (fun row => congrArg RunColumns.id (keeps row)) }

def emit (db : Db) (event : OutboxEvent) : Db :=
  { db with outbox := db.outbox ++ [event] }

/-- Counts a task that ended off the counters of its pending dependents. -/
def releaseDependents (db : Db) (ended : Nat) : Db :=
  db.updateTasks (fun task => task.status = .pending ∧ db.dependsOn task.id ended)
    (fun task => { task with remainingDeps := task.remainingDeps - 1 })

/-- Ends the task of an id, where it meets a guard, and counts it off its dependents' counters;
nothing where it does not.
-/
def endTask (db : Db) (id : Nat) (guard : TaskRow → Prop) [DecidablePred guard]
    (set : TaskRow → TaskRow)
    (keeps : ∀ row, (set row).toTaskColumns = row.toTaskColumns := by intros; rfl) : Option Db :=
  if db.countTasks (fun task => task.id = id ∧ guard task) = 0 then none
  else
    some ((db.updateTasks (fun task => task.id = id ∧ guard task) set keeps).releaseDependents id)

end Db

-- Reading through writes

namespace Db

section Tasks

variable {db : Db} {cond : TaskRow → Prop} [DecidablePred cond] {set : TaskRow → TaskRow}
  {keeps : ∀ row, (set row).toTaskColumns = row.toTaskColumns}

theorem task?_updateTasks (id : Nat)
    : (db.updateTasks cond set keeps).task? id
      = (db.task? id).map (fun task => if cond task then set task else task) := by
  exact Table.get?_update (fun row => congrArg TaskColumns.id (keeps row)) id

theorem task?_updated {id : Nat} {task : TaskRow} (found : db.task? id = some task)
    : (db.updateTasks cond set keeps).task? id = some (if cond task then set task else task) := by
  rw [task?_updateTasks, found, Option.map_some]

theorem updateTasks_none (unmet : ∀ id task, db.task? id = some task → ¬ cond task)
    : db.updateTasks cond set keeps = db := by
  have same : db.tasks.update cond set (fun row => congrArg TaskColumns.id (keeps row)) = db.tasks :=
    Table.update_none (fun row member => unmet row.id row (Table.get?_of_mem member))
  rw [updateTasks, same]

@[simp]
theorem runs_updateTasks
    : (db.updateTasks cond set keeps).runs = db.runs :=
  rfl

@[simp]
theorem run?_updateTasks (id : Nat)
    : (db.updateTasks cond set keeps).run? id = db.run? id :=
  rfl

end Tasks

section Runs

variable {db : Db} {cond : RunRow → Prop} [DecidablePred cond] {set : RunRow → RunRow}
  {keeps : ∀ row, (set row).toRunColumns = row.toRunColumns}

theorem run?_updateRuns (id : Nat)
    : (db.updateRuns cond set keeps).run? id
      = (db.run? id).map (fun run => if cond run then set run else run) := by
  exact Table.get?_update (fun row => congrArg RunColumns.id (keeps row)) id

end Runs

@[simp]
theorem tasks_emit (db : Db) (event : OutboxEvent)
    : (db.emit event).tasks = db.tasks :=
  rfl

@[simp]
theorem run?_emit (db : Db) (event : OutboxEvent) (id : Nat)
    : (db.emit event).run? id = db.run? id :=
  rfl

theorem id_of_task? {db : Db} {id : Nat} {task : TaskRow} (found : db.task? id = some task)
    : task.id = id :=
  Table.key_of_get? found

theorem task?_of_mem {db : Db} {task : TaskRow} (member : task ∈ db.tasks)
    : db.task? task.id = some task :=
  Table.get?_of_mem member

end Db

end Dagron.Store
