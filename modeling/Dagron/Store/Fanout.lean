import Dagron.Spec.Expand
import Dagron.Store.Park

/-! Runtime fan-outs: a barrier row parks until its producer has printed a list, is given one
instance for each item, and ends with them.
-/

namespace Dagron.Store

open Dagron.Library Dagron.Spec

/-- A fan-out's row while it waits: parked, and held by no worker. -/
def TaskRow.parkedBarrier (task : TaskRow) : Prop :=
  task.status = .running ∧ task.fanoutOf.isSome ∧ task.claimedBy.isNone

instance (task : TaskRow) : Decidable task.parkedBarrier := by
  unfold TaskRow.parkedBarrier
  infer_instance

/-- An instance of a fan-out that was made before a version of its barrier. -/
def TaskRow.staleInstance (barrier version : Nat) (task : TaskRow) : Prop :=
  task.fanoutParent = some barrier ∧ task.fanoutEpoch < version

instance (barrier version : Nat) : DecidablePred (TaskRow.staleInstance barrier version) :=
  fun task => by
    unfold TaskRow.staleInstance
    infer_instance

def fanoutSummary (statuses : List TaskStatus) : String :=
  let count (status : TaskStatus) : Nat := statuses.count status
  "\x7b\"failed\":" ++ toString (count .failed + count .cancelled)
    ++ ",\"instances\":" ++ toString statuses.length
    ++ ",\"skipped\":" ++ toString (count .skipped)
    ++ ",\"succeeded\":" ++ toString (count .succeeded) ++ "\x7d"

/-- What a barrier comes to when it has no instance: an end of its own, or instances. -/
inductive FanoutPlan where
  | finish (succeeded : Bool) (output : String)
  | expand (instances : List TaskSpec)

/-- What the next statement of a sweep does: a commit, nothing, or an error that ends it. -/
inductive SweepStep where
  | commit (db : Db)
  | pass
  | abort

namespace Db

/-- `DELETE FROM task_dependencies` of a barrier's edges to the instances made before a version
of it.
-/
def dropStaleEdges (barrier version : Nat) (db : Db) : Db :=
  { db with
    deps := db.deps.delete (fun dep => dep.dependent = barrier
      ∧ (db.task? dep.dependency).any (fun task => task.staleInstance barrier version)) }

/-- `DELETE FROM task_runs`, refused where a dependency still names one of the rows. -/
def deleteTasks (db : Db) (cond : TaskRow → Prop) [DecidablePred cond] : Option Db :=
  let gone (id : Nat) : Prop := (db.task? id).any (fun task => cond task)
  if db.deps.count (fun dep => gone dep.dependent ∨ gone dep.dependency) = 0 then
    some { db with tasks := db.tasks.delete cond }
  else none

def finishFanout (now : Time) (id : Nat) (succeeded : Bool) (output : String) (db : Db) : Db :=
  (db.endTask id TaskRow.parkedBarrier (fun task => { task with
    status := if succeeded then .succeeded else .failed
    finishedAt := some now
    output := some output })).getD db

def instanceStatuses (barrier : Nat) (db : Db) : List TaskStatus :=
  (db.tasks.select (fun task => task.fanoutParent = some barrier)).map (fun task => task.status)

/-- What a barrier without instances comes to: its producers' outputs, read from the rows it
depends on, are made into instances within the run's ceiling.
-/
def planFanout (env : Env) (barrier : TaskRow) (db : Db) : FanoutPlan :=
  let producer := barrier.input.withOutputOf.getD ""
  let want := fanoutProducerRows producer barrier.input.dependsOn
  if want = [] then
    .finish false ("with_output_of names '" ++ producer
      ++ "', which is not among this task's dependencies — nothing to read")
  else
    let rows := (db.dependenciesOf barrier.id).filterMap db.task?
    let printed (name : String) : String :=
      (((rows.reverse.find? (fun row => row.name = name)).bind (fun row => row.output)).getD "")
    match fanoutInstances env.host barrier.input (want.map (fun name => (name, printed name))) with
    | .error problem => .finish false problem
    | .ok instances =>
        let existing := db.countTasks (fun task => task.runId = barrier.runId)
        if env.maxTasksPerRun < existing + instances.length then
          .finish false ("runtime fan-out over '" ++ producer ++ "' would add "
            ++ toString instances.length ++ " tasks to a run that already has "
            ++ toString existing ++ ", exceeding " ++ toString env.maxTasksPerRun
            ++ " (DAGRON_MAX_TASKS_PER_RUN)")
        else if instances = [] then .finish true "[]"
        else .expand instances

/-- The row of one instance of a barrier, ready to run. -/
def instanceRow (now : Time) (barrier : TaskRow) (epoch id : Nat) (leaf : TaskSpec)
    : TaskRow where
  id := id
  runId := barrier.runId
  name := leaf.name
  input := leaf
  triggerRule := defaultTriggerRule
  allowFailure := barrier.allowFailure
  isApproval := false
  approvalTimeoutSecs := none
  approvalOnTimeout := none
  gang := none
  pool := barrier.pool
  fanoutOf := none
  fanoutParent := some barrier.id
  fanoutEpoch := epoch
  status := .ready
  remainingDeps := 0
  scheduledAt := some now
  runnerClass := barrier.runnerClass
  priority := barrier.priority

/-- Writes a barrier's instances, each a dependency of it; one transaction, passed over where
the barrier has changed since it was read.
-/
def expandFanout (now : Time) (barrier : TaskRow) (instances : List TaskSpec)
    (mint : Nat → Nat) (db : Db) : SweepStep :=
  let unchanged (task : TaskRow) : Prop := task.id = barrier.id ∧ task.version = barrier.version
    ∧ task.status = .running ∧ task.claimedBy.isNone
  if db.countTasks unchanged = 0 then .pass
  else
    let stamped := db.updateTasks unchanged (fun task => { task with version := task.version + 1 })
    let rows := instances.zipIdx.map (fun (leaf, index) =>
      instanceRow now barrier (barrier.version + 1) (mint index) leaf)
    match insertTasks stamped.tasks rows,
        stamped.deps.insertAll (rows.map (fun row => ⟨barrier.id, row.id⟩)) with
    | some tasks, some deps => .commit { stamped with tasks := tasks, deps := deps }
    | _, _ => .abort

/-- What is done with a barrier whose stale instances are gone: it ends when its instances have
ended, and is given instances where it has none.
-/
def resolveFanout (env : Env) (now : Time) (barrier : TaskRow) (mint : Nat → Nat) (db : Db)
    : SweepStep :=
  let statuses := db.instanceStatuses barrier.id
  if statuses ≠ [] then
    if statuses.all TaskStatus.terminal then
      let failed := statuses.count .failed + statuses.count .cancelled
      .commit (db.finishFanout now barrier.id (failed = 0 || barrier.allowFailure)
        (fanoutSummary statuses))
    else .pass
  else
    match db.planFanout env barrier with
    | .finish succeeded output => .commit (db.finishFanout now barrier.id succeeded output)
    | .expand instances => db.expandFanout now barrier instances mint

/-- The commits of the sweep over the barriers it read; an error ends it. -/
def reconcileEach (env : Env) (now : Time) (mint : Nat → Nat → Nat)
    : List TaskRow → Db → List Db
  | [], _ => []
  | barrier :: rest, db =>
      let unlinked := db.dropStaleEdges barrier.id barrier.version
      match unlinked.deleteTasks (TaskRow.staleInstance barrier.id barrier.version) with
      | none => [unlinked]
      | some cleared =>
          match cleared.resolveFanout env now barrier (mint barrier.id) with
          | .commit next => unlinked :: cleared :: next :: reconcileEach env now mint rest next
          | .pass => unlinked :: cleared :: reconcileEach env now mint rest cleared
          | .abort => [unlinked, cleared]

/-- The parked barriers with no instance of their generation still to end. -/
def parkedFanouts (db : Db) : List TaskRow :=
  (db.tasks.select (fun barrier => barrier.parkedBarrier
    ∧ db.countTasks (fun task => task.fanoutParent = some barrier.id
      ∧ barrier.version ≤ task.fanoutEpoch ∧ ¬ task.status.terminal) = 0)).take sweepBatch

/-- The sweep that expands and ends the fan-outs that are parked. -/
def reconcileFanouts (env : Env) (now : Time) (mint : Nat → Nat → Nat) (db : Db) : List Db :=
  reconcileEach env now mint db.parkedFanouts db

end Db

end Dagron.Store
