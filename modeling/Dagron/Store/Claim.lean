import Dagron.Store.Advance
import Mathlib.Data.Char
import Mathlib.Data.List.Lex

/-! Claiming: ready tasks taken by workers under a lease, one by one or a gang at a time, and
the leases of workers that are gone.
-/

namespace Dagron.Store

open Dagron.Library Dagron.Spec

/-- What takes a slot of its pool: a running task that is not parked on something free. -/
def TaskRow.occupies (pool : String) (task : TaskRow) : Prop :=
  task.status = .running ∧ task.pool = some pool ∧ task.wakeAt.isNone ∧ task.waitUrl.isNone
    ∧ task.waitDataset.isNone ∧ task.subRunId.isNone ∧ task.fanoutOf.isNone

instance (pool : String) : DecidablePred (TaskRow.occupies pool) := fun task => by
  unfold TaskRow.occupies
  infer_instance

/-- A ready task whose time has come, of a class that is asked for. -/
def TaskRow.due (now : Time) (classes : List String) (task : TaskRow) : Prop :=
  task.status = .ready ∧ task.scheduledAt.all (fun time => time ≤ now)
    ∧ (classes = [] ∨ task.runnerClass ∈ classes)

instance (now : Time) (classes : List String) : DecidablePred (TaskRow.due now classes) :=
  fun task => by
    unfold TaskRow.due
    infer_instance

/-- A row as a claim leaves it: running under a lease, one attempt and one version on. -/
def TaskRow.claim (worker : String) (lease : Time) (task : TaskRow) : TaskRow :=
  { task with
    status := .running
    claimedBy := some worker
    leaseExpiresAt := some lease
    attempt := task.attempt + 1
    version := task.version + 1
    sessionId := none }

/-- Whether an instant, or none, comes no later than another; none comes first. -/
def noLater : Option Time → Option Time → Bool
  | none, _ => true
  | some _, none => false
  | some first, some second => first ≤ second

/-- The order in which ready tasks are taken: the more urgent first, then the longer due. -/
def TaskRow.before (first second : TaskRow) : Prop :=
  second.priority < first.priority
    ∨ (first.priority = second.priority ∧ noLater first.scheduledAt second.scheduledAt)

instance (first second : TaskRow) : Decidable (first.before second) := by
  unfold TaskRow.before
  infer_instance

/-- The slots left in each of the pools that have a capacity. -/
abbrev PoolBudget := List (String × Int)

def PoolBudget.left (budget : PoolBudget) (pool : Option String) : Option Int :=
  pool.bind fun pool => (budget.find? (fun entry => entry.1 = pool)).map Prod.snd

def PoolBudget.spend (budget : PoolBudget) (pool : Option String) : PoolBudget :=
  budget.map (fun entry => if some entry.1 = pool then (entry.1, entry.2 - 1) else entry)

namespace Db

def poolBudget (caps : PoolBudget) (db : Db) : PoolBudget :=
  caps.map fun (pool, cap) => (pool, max (cap - db.countTasks (TaskRow.occupies pool)) 0)

/-- Takes one ready task, unless it has changed since it was read. -/
def claimTask (worker : String) (lease : Time) (candidate : TaskRow) (db : Db) : Db :=
  db.updateTasks
    (fun task => task.id = candidate.id ∧ task.status = .ready ∧ task.version = candidate.version)
    (TaskRow.claim worker lease)

theorem task?_claimTask (db : Db) (worker : String) (lease : Time) (candidate : TaskRow) (id : Nat)
    : (db.claimTask worker lease candidate).task? id
      = (db.task? id).map (fun task =>
          if task.id = candidate.id ∧ task.status = .ready ∧ task.version = candidate.version then
            task.claim worker lease
          else task) :=
  task?_updateTasks id

/-- Takes the candidates in order, each while its pool has a slot left, and says which it
took, as they were.
-/
def claimEach (worker : String) (lease : Time)
    : List TaskRow → PoolBudget → Db → Db × List TaskRow
  | [], _, db => (db, [])
  | candidate :: rest, budget, db =>
      if (budget.left candidate.pool).any (fun slots => slots ≤ 0) then
        claimEach worker lease rest budget db
      else if db.countTasks (fun task => task.id = candidate.id ∧ task.status = .ready
          ∧ task.version = candidate.version) = 0 then
        claimEach worker lease rest budget db
      else
        let (claimed, others) := claimEach worker lease rest (budget.spend candidate.pool)
          (db.claimTask worker lease candidate)
        (claimed, candidate :: others)

/-- Claims up to a limit of ready tasks for a worker, of the classes it serves and within the
budgets of their pools, with or without the members of gangs; one transaction.
-/
def claimReadyFiltered (env : Env) (now : Time) (worker : String) (limit : Nat)
    (classes : List String) (caps : PoolBudget) (excludeGangs : Bool) (db : Db)
    : Db × List TaskRow :=
  let budget := db.poolBudget caps
  let exhausted := (budget.filter (fun entry => entry.2 = 0)).map Prod.fst
  let candidates := (db.tasks.select (fun task => task.due now classes
    ∧ task.pool.all (fun pool => pool ∉ exhausted)
    ∧ (excludeGangs = false ∨ task.gang.isNone))).insertionSort TaskRow.before
  db.claimEach worker (now + seconds env.leaseSecs) (candidates.take limit) budget

-- Gangs

/-- What the ready members of gangs are grouped by: gang, size and pool. -/
abbrev GangGroup := GangId × Nat × Option String

def groupOf (task : TaskRow) : Option GangGroup :=
  task.gang.map (fun seat => (seat.gang, seat.size, task.pool))

def groupRows (now : Time) (classes : List String) (db : Db) (group : GangGroup)
    : List TaskRow :=
  db.tasks.select (fun task => task.due now classes ∧ groupOf task = some group)

/-- The order in which gangs are taken: by the most urgent member, then by the one longest
due.
-/
def groupBefore (now : Time) (classes : List String) (db : Db) (first second : GangGroup)
    : Prop :=
  let urgency (group : GangGroup) : Option Int :=
    ((db.groupRows now classes group).map (fun task => task.priority)).max?
  let since (group : GangGroup) : Option Time :=
    ((db.groupRows now classes group).filterMap (fun task => task.scheduledAt)).min?
  noLater (urgency second) (urgency first) ∧
    (urgency first ≠ urgency second ∨ noLater (since first) (since second))

instance (now : Time) (classes : List String) (db : Db)
    : DecidableRel (db.groupBefore now classes) := fun first second => by
  unfold groupBefore
  infer_instance

/-- The gangs whose members are all ready and fit a capacity. -/
def gangCandidates (now : Time) (classes : List String) (capacity : Nat) (db : Db)
    : List GangGroup :=
  (((db.tasks.select (TaskRow.due now classes)).filterMap groupOf).dedup.filter
    (fun group => (db.groupRows now classes group).length = group.2.1 ∧ group.2.1 ≤ capacity)
    ).insertionSort (db.groupBefore now classes)

/-- Whether a gang's pool, where it has a capacity, seats the whole of it. -/
def seatsGang (caps : PoolBudget) (db : Db) (group : GangGroup) : Bool :=
  ((db.poolBudget caps).left group.2.2).all (fun slots => (group.2.1 : Int) ≤ slots)

/-- Claims every member of one gang whose members are all ready, or nothing. -/
def claimReadyGang (env : Env) (now : Time) (worker : String) (capacity : Nat)
    (classes : List String) (caps : PoolBudget) (db : Db) : Db × List TaskRow :=
  if capacity < 2 then (db, [])
  else
    match (db.gangCandidates now classes capacity).find? (db.seatsGang caps) with
    | none => (db, [])
    | some group =>
        let ofGang (task : TaskRow) : Prop :=
          task.gang.any (fun seat => seat.gang = group.1) ∧ task.status = .ready
        (db.updateTasks ofGang (TaskRow.claim worker (now + seconds env.leaseSecs)),
          db.tasks.select ofGang)

def siblingOf (db : Db) (member : Nat) (task : TaskRow) : Prop :=
  task.gang.isSome ∧ task.id ≠ member
    ∧ task.gang.map GangSeat.gang = ((db.task? member).bind (fun row => row.gang)).map GangSeat.gang

instance (db : Db) (member : Nat) : DecidablePred (db.siblingOf member) := fun task => by
  unfold siblingOf
  infer_instance

/-- A member of a gang failed: its siblings that a worker holds are asked to stop, and those
that nothing runs for, a gate that asks a person apart, are cancelled.
-/
def cancelGangSiblings (env : Env) (now : Time) (member : Nat) (db : Db) : Db :=
  let told (task : TaskRow) : Option String :=
    some (task.output.getD "cancelled: gang member failed")
  let asked := db.updateTasks (fun task => db.siblingOf member task ∧ task.held)
    (fun task => { task.askToStop env now with output := told task })
  asked.updateTasks
    (fun task => db.siblingOf member task ∧ task.idle ∧ task.status ≠ .awaitingApproval)
    (fun task => { task with
      status := .cancelled
      claimedBy := none
      leaseExpiresAt := none
      version := task.version + 1
      finishedAt := some now
      output := told task })

-- Leases and classes

/-- Gives back to the queue the tasks of workers whose leases have run out, except those that
were asked to stop.
-/
def recoverExpiredLeases (now : Time) (db : Db) : Db :=
  db.updateTasks
    (fun task => task.status = .running ∧ task.leaseExpiresAt.any (fun lease => lease < now)
      ∧ task.stopRequestedAt.isNone ∧ task.sessionId.isNone)
    (fun task => { task with status := .ready, claimedBy := none, leaseExpiresAt := none })

theorem columns_renewed (now : Time) (extendSecs : Nat) (task : TaskRow)
    : { task with leaseExpiresAt := some (now + seconds extendSecs) }.toTaskColumns = task.toTaskColumns :=
  rfl

/-- A worker's heartbeat: its lease on a task, if it still holds the claim, runs longer. -/
def renewTaskLease (now : Time) (id : Nat) (worker : String) (fence extendSecs : Nat) (db : Db)
    : Db :=
  db.updateTasks
    (fun task => task.id = id ∧ task.claimedBy = some worker ∧ task.version = fence
      ∧ task.status = .running)
    (fun task => { task with leaseExpiresAt := some (now + seconds extendSecs) })
    (columns_renewed now extendSecs)

/-- Moves ready tasks of a class to another where they waited long, or were tried often. -/
def reclassReadyTasks (now : Time) (source target : String) (minReadyAgeSecs minAttempt : Nat)
    (db : Db) : Db :=
  db.updateTasks
    (fun task => task.status = .ready ∧ task.runnerClass = source ∧ task.gang.isNone
      ∧ (task.scheduledAt.any (fun time => time ≤ now - seconds minReadyAgeSecs)
        ∨ minAttempt ≤ task.attempt))
    (fun task => { task with runnerClass := target })

/-- Moves ready tasks of a class to another where their run is near its deadline. -/
def reclassReadyTasksNearDeadline (now : Time) (source target : String) (withinSecs : Nat)
    (db : Db) : Db :=
  let urgent (run : RunRow) : Prop := run.status = .running
    ∧ (run.deadlineAt <|> run.alertDeadlineAt).any (fun deadline =>
        Timestamp.stamp deadline ≤ Timestamp.stamp (now + seconds withinSecs))
  db.updateTasks
    (fun task => task.status = .ready ∧ task.runnerClass = source ∧ task.gang.isNone
      ∧ ∃ run ∈ db.runs.rows, run.id = task.runId ∧ urgent run)
    (fun task => { task with runnerClass := target })

end Db

end Dagron.Store
