import Dagron.Store.Stop

/-! Making a run: what it is held to, the gates put before its tasks, whether its workflow's
cap refuses it or makes it wait, and the rows it is written as.
-/

namespace Dagron.Store

open Dagron.Library Dagron.Spec

-- Admission

/-- A run refused because its workflow, or its key, has as many runs in flight as it may. -/
structure MaxActiveRunsReached where
  name
    : String
  max
    : Nat
  active
    : Nat
  waiting
    : Nat
  key
    : Option String
  deriving DecidableEq, Repr

/-- Whether a run is in flight under a workflow's name and key, leaving one run out. -/
def RunRow.inFlight (name : String) (key : Option String) (except : Option Nat) (run : RunRow)
    : Prop :=
  run.status = .running ∧ run.definition.name = name ∧ run.concurrencyKey = key
    ∧ some run.id ≠ except

instance (name : String) (key : Option String) (except : Option Nat)
    : DecidablePred (RunRow.inFlight name key except) := fun run => by
  unfold RunRow.inFlight
  infer_instance

/-- Whether a run, new or set running again, takes the place of another: it is in flight under
the same name and key and not being stopped, and of the new run's own source where that run is
not trusted.
-/
def RunRow.superseded (name : String) (key : Option String) (own : Option RunTrigger)
    (run : RunRow) : Prop :=
  run.status = .running ∧ run.stoppingAs.isNone ∧ run.definition.name = name
    ∧ run.concurrencyKey = key
    ∧ own.all (fun own => run.trigger.any (fun trigger =>
        trigger.forgeHost = own.forgeHost ∧ trigger.repo = own.repo ∧ trigger.pr = own.pr
          ∧ trigger.gitRef = own.gitRef))

instance (name : String) (key : Option String) (own : Option RunTrigger)
    : DecidablePred (RunRow.superseded name key own) := fun run => by
  unfold RunRow.superseded
  infer_instance

namespace Db

/-- How many runs of a workflow are in flight under a key, and how many of them wait. -/
def runsInFlight (name : String) (key : Option String) (except : Option Nat) (db : Db)
    : Nat × Nat :=
  (db.runs.count (RunRow.inFlight name key except),
    db.runs.count (fun run => RunRow.inFlight name key except run
      ∧ run.queuedAt.isSome ∧ run.admittedAt.isNone))

def supersedeRun (env : Env) (now : Time) (newer run : Nat) (db : Db) : Db :=
  if db.runs.count (fun row => row.id = run ∧ row.status = .running ∧ row.stoppingAs.isNone) = 0
  then db
  else
    let asked := db.updateRuns
      (fun row => row.id = run ∧ row.status = .running ∧ row.stoppingAs.isNone)
      (fun row => { row with
        stoppingAs := some .cancelled
        stopRequestedAt := some now
        startPendingAt := none
        output := some ("superseded by run " ++ toString newer) })
    (asked.stopRunTasks env now run).finishStoppedRun now run

/-- Cancels the runs that a new run of a workflow and key takes the place of. -/
def supersedeRuns (env : Env) (now : Time) (name : String) (key : Option String) (newer : Nat)
    (own : Option RunTrigger) (db : Db) : Db :=
  let before := ((db.runs.select (RunRow.superseded name key own)).insertionSort
    (fun first second => first.createdAt < second.createdAt
      ∨ (first.createdAt = second.createdAt ∧ first.id ≤ second.id))).map (fun run => run.id)
  before.foldl (fun db run => db.supersedeRun env now newer run) db

end Db

/-- What becomes of a run at its workflow's cap. -/
inductive Admission where
  | start
  | wait
  | refuse (reached : MaxActiveRunsReached)
  deriving DecidableEq, Repr

/-- Whether a run that its workflow's other runs have been counted for starts, waits or is
refused.
-/
def admissionOf (env : Env) (spec : DagSpec) (max active waiting : Nat) : Admission :=
  let whenFull := spec.whenFull.getD .refuse
  if active < max then .start
  else if !whenFull.waits || env.maxWaitingRuns ≤ waiting then
    .refuse {
      name := spec.name
      max := max
      active := active
      waiting := if whenFull.waits then waiting else 0
      key := spec.concurrencyKey
    }
  else .wait

/-- The store after a new run of a workflow superseded the runs it takes the place of, and
what becomes of the new run.
-/
def weigh (env : Env) (now : Time) (spec : DagSpec) (trigger : Option RunTrigger) (run : Nat)
    (db : Db) : Db × Admission :=
  match spec.maxActiveRuns.filter (fun max => 0 < max) with
  | none => (db, .start)
  | some max =>
      let own := trigger.filter (fun trigger => confined (classOf (some trigger)))
      let db :=
        if spec.whenFull = some .supersede then
          db.supersedeRuns env now spec.name spec.concurrencyKey run own
        else db
      let (active, waiting) := db.runsInFlight spec.name spec.concurrencyKey none
      (db, admissionOf env spec max active waiting)

-- Rows

def latestInstant : Time :=
  8210266876799999999999

def earliestInstant : Time :=
  -8334601228800000000000

def maxSpanSecs : Nat :=
  9223372036854775

/-- The instant some seconds after another, or nothing where the arithmetic panics. -/
def Time.after (now : Time) (secs : Nat) : Option Time :=
  if min secs (2 ^ 63 - 1) ≤ maxSpanSecs ∧ now + seconds secs ≤ latestInstant then
    some (now + seconds secs)
  else none

/-- A number as the signed integer of 64 bits it is stored as. -/
def asI64 (value : Nat) : Int :=
  (value : Int).bmod (2 ^ 64)

/-- The instant a span given in a specification ends, where it gives one. -/
def deadlineOf (now : Time) (span : Option Nat) : Option (Option Time) :=
  match span with
  | none => some none
  | some secs => (Time.after now secs).map some

/-- One row to be of a task: a member of its gang, or the task itself. -/
structure Seat where
  task
    : TaskSpec
  rank
    : Nat
  id
    : Nat

/-- The seats of a graph's tasks in order, each with an id minted for it. -/
def seatsOf (dag : DagGraph) (mint : Nat → Nat) : List Seat :=
  (dag.spec.tasks.flatMap (fun task => (List.range task.rowCount).map (fun rank => (task, rank)))
    ).zipIdx.map (fun ((task, rank), index) => ⟨task, rank, mint index⟩)

/-- How many rows a task waits for: every member of a gang it depends on. -/
def depCount (dag : DagGraph) (task : TaskSpec) : Nat :=
  (task.dependsOn.map (fun dep => ((dag.taskSpec dep).map TaskSpec.rowCount).getD 1)).sum

/-- The row of a seat; (heldBy) is the one dependency more that a waiting run's tasks are
written with.
-/
def rowOf (dag : DagGraph) (run : Nat) (now : Time) (heldBy : Nat) (seat : Seat) : TaskRow :=
  let task := seat.task
  let gang := task.gang.map (fun gang =>
    ({ gang := ⟨run, task.name⟩, rank := seat.rank, size := gang.size } : GangSeat))
  let name := if gang.isSome then task.name ++ "." ++ toString seat.rank else task.name
  { id := seat.id
    runId := run
    name := name
    input := { task with
      name := name
      gangMember := gang.map (fun gang =>
        { id := task.name, rank := gang.rank, size := gang.size }) <|> task.gangMember }
    triggerRule := task.triggerRule.getD defaultTriggerRule
    allowFailure := task.allowFailure
    isApproval := task.isApproval
    approvalTimeoutSecs := task.approvalTimeoutSecs.map asI64
    approvalOnTimeout := task.approvalOnTimeout
    gang := gang
    pool := task.pool
    fanoutOf := task.withOutputOf
    status := .pending
    remainingDeps := depCount dag task + heldBy
    scheduledAt := some now
    runnerClass := (task.runnerClass <|> dag.spec.runnerClass).getD "default"
    priority := task.priority
    gangRun := by
      intro seat member
      obtain ⟨_, _, rfl⟩ := Option.map_eq_some_iff.mp member
      rfl }

def idsOf (seats : List Seat) (name : String) : List Nat :=
  (seats.filter (fun seat => seat.task.name = name)).map Seat.id

/-- The dependency rows of a graph: each row of a task depends on each row of every task it
names.
-/
def depRowsOf (dag : DagGraph) (seats : List Seat) : List DepRow :=
  dag.spec.tasks.flatMap fun task => task.dependsOn.flatMap fun dep =>
    (idsOf seats task.name).flatMap fun dependent =>
      (idsOf seats dep).map fun dependency => ⟨dependent, dependency⟩

/-- `INSERT INTO task_runs` of one row, refused where its id is taken, or its name in its
run.
-/
def insertTask (tasks : Table TaskRow) (row : TaskRow) : Option (Table TaskRow) :=
  if tasks.count (fun other => other.runId = row.runId ∧ other.name = row.name) = 0 then
    tasks.insert row
  else none

def insertTasks (tasks : Table TaskRow) : List TaskRow → Option (Table TaskRow)
  | [] => some tasks
  | row :: rest => (insertTask tasks row).bind (fun tasks => insertTasks tasks rest)

theorem insertAll_of_insertTasks {tasks tasks' : Table TaskRow} {rows : List TaskRow}
    (done : insertTasks tasks rows = some tasks')
    : tasks.insertAll rows = some tasks' := by
  induction rows generalizing tasks with
  | nil => exact done
  | cons head rest ih =>
      obtain ⟨middle, first, later⟩ := Option.bind_eq_some_iff.mp done
      unfold insertTask at first
      split at first
      · exact Option.bind_eq_some_iff.mpr ⟨middle, first, ih later⟩
      · cases first

def runRowOf (dag : DagGraph) (trigger : Option RunTrigger) (run : Nat) (now : Time)
    (waits : Bool) (deadlineAt alertDeadlineAt : Option Time) : RunRow where
  id := run
  definition := {
    name := dag.spec.name
    maxActiveRuns := dag.spec.maxActiveRuns
    runTimeoutSecs := dag.spec.runTimeoutSecs
    alertWithinSecs := dag.spec.alertWithinSecs
  }
  trigger := trigger
  concurrencyKey := dag.spec.concurrencyKey
  resultFrom := dag.spec.resultFrom
  environment := dag.spec.environment
  createdAt := now
  deadlineAt := deadlineAt
  alertDeadlineAt := alertDeadlineAt
  queuedAt := if waits then some now else none
  startPendingAt := if dag.spec.notify then some now else none

/-- Writes a run's rows, or nothing where one of them violates a constraint. -/
def insertRun (db : Db) (dag : DagGraph) (row : RunRow) (mint : Nat → Nat) : Option Db :=
  let seats := seatsOf dag mint
  let heldBy := if row.queuedAt.isSome then 1 else 0
  (db.runs.insert row).bind fun runs =>
    (insertTasks db.tasks (seats.map (rowOf dag row.id row.createdAt heldBy))).bind fun tasks =>
      (db.deps.insertAll (depRowsOf dag seats)).map fun deps =>
        { db with runs := runs, tasks := tasks, deps := deps }

-- Creation

/-- A request for a run: its graph, what asked for it, the ids minted for it and its tasks,
and whether the disk has room for it.
-/
structure Submission where
  dag
    : DagGraph
  trigger
    : Option RunTrigger
  run
    : Nat
  mint
    : Nat → Nat
  diskOk
    : Bool := true

/-- Why a run is not made. -/
inductive CreateError where
  | diskLow
  | confined (refused : Refusal)
  | invalid (message : String)
  | panicked
  | full (reached : MaxActiveRunsReached)
  | conflict
  deriving DecidableEq

/-- The graph a submission's run is made of: held to its class, with the gates of the
protected environments it uses.
-/
def runGraph (db : Db) (submission : Submission) : Except CreateError DagGraph :=
  match held submission.dag (classOf submission.trigger) with
  | .error refused => .error (.confined refused)
  | .ok dag =>
      match gated db.policyOf dag submission.trigger with
      | .error message => .error (.invalid message)
      | .ok dag => .ok dag

/-- Makes a run, all of it or, where it is refused, nothing. -/
def createRun (env : Env) (now : Time) (submission : Submission) (db : Db)
    : Except CreateError Db := do
  if !submission.diskOk then .error .diskLow
  let dag ← runGraph db submission
  let some deadlineAt := deadlineOf now dag.spec.runTimeoutSecs | .error .panicked
  let some alertDeadlineAt := deadlineOf now dag.spec.alertWithinSecs | .error .panicked
  let (admitted, admission) := weigh env now dag.spec submission.trigger submission.run db
  let waits ← match admission with
    | .start => pure false
    | .wait => pure true
    | .refuse reached => .error (.full reached)
  let row := runRowOf dag submission.trigger submission.run now waits deadlineAt alertDeadlineAt
  match insertRun admitted dag row submission.mint with
  | none => .error .conflict
  | some created => return created

end Dagron.Store
