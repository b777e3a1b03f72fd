import Dagron.Store.Claim

/-! What a worker writes of a task it holds: that it succeeded or failed, that it is to be
tried again, or that nothing of it started. Each call carries the worker and the version of
its claim, and changes nothing under any other.
-/

namespace Dagron.Store

open Dagron.Library Dagron.Spec

/-- Whether a call of a worker, with the version of its claim, finds its claim standing and no
stop asked for.
-/
def TaskRow.heldBy (worker : String) (fence : Nat) (task : TaskRow) : Prop :=
  task.claimedBy = some worker ∧ task.version = fence ∧ task.stopRequestedAt.isNone

instance (worker : String) (fence : Nat) : DecidablePred (TaskRow.heldBy worker fence) :=
  fun task => by
    unfold TaskRow.heldBy
    infer_instance

-- Waiting for quota

/-- What one refusal for quota does to the episode it belongs to. -/
inductive QuotaStep where
  | wait (since : Time) (waits : Nat) (retryAt : Time)
  | giveUp (waits waitedSecs : Nat)
  deriving DecidableEq

/-- The whole seconds from one instant to another, none where it is earlier. -/
def elapsedSecs (since now : Time) : Nat :=
  ((now - since).tdiv 1000000000).toNat

/-- What a refusal does, given the episode it continues; the delay doubles from five seconds
to a minute, moved by a jitter in thousandths, and never passes the episode's end.
-/
def quotaStep (now : Time) (prior : Option (Time × Nat)) (maxWaitSecs : Nat)
    (jitterPermille : Int) : QuotaStep :=
  let since := (prior.map Prod.fst).getD now
  let priorWaits := (prior.map Prod.snd).getD 0
  let waits := priorWaits + 1
  let waitedSecs := elapsedSecs since now
  if maxWaitSecs ≤ waitedSecs then .giveUp waits waitedSecs
  else
    let base : Nat := min (5 * 2 ^ min priorWaits 6) 60
    let permille := max 750 (min 1250 jitterPermille)
    let retryAt := now + base * permille * 1000000
    .wait since waits (((Time.after since maxWaitSecs).map (min retryAt)).getD retryAt)

/-- What became of a claim that was refused for quota. -/
inductive QuotaRequeue where
  | requeued (waits waitedSecs : Nat)
  | expired (waits waitedSecs : Nat)
  | stale
  deriving DecidableEq

-- Results

namespace Db

/-- What a success makes ready at once: its dependents that the default rule admits. -/
def promoted (env : Env) (db : Db) (id : Nat) (task : TaskRow) : Prop :=
  db.readied env task ∧ db.dependsOn task.id id

instance (env : Env) (db : Db) (id : Nat) : DecidablePred (db.promoted env id) := fun task => by
  unfold promoted
  infer_instance

theorem columns_promoted (now : Time) (task : TaskRow)
    : { task with status := .ready, scheduledAt := some now }.toTaskColumns = task.toTaskColumns :=
  rfl

/-- Makes ready the dependents of a task that succeeded, where the default rule admits them. -/
def promoteDependents (env : Env) (now : Time) (id : Nat) (db : Db) : Db :=
  db.updateTasks (db.promoted env id)
    (fun task => { task with status := .ready, scheduledAt := some now }) (columns_promoted now)

/-- A worker's success, from running the task or from an output kept of an earlier run, and
whether it counted; a task asked to stop is settled instead.
-/
def markTaskSucceeded (env : Env) (now : Time) (id : Nat) (worker : String) (fence : Nat)
    (output : Option String) (cacheHit : Bool) (db : Db) : Db × Bool :=
  match db.endTask id (TaskRow.heldBy worker fence) (fun task => { task with
      status := .succeeded
      finishedAt := some now
      output := output
      claimedBy := none
      cacheHit := cacheHit }) with
  | some ended => (ended.promoteDependents env now id, true)
  | none => (db.settleStoppedTask now id worker fence, false)

/-- A worker's failure, and whether it counted; a task asked to stop is settled instead. -/
def markTaskFailed (now : Time) (id : Nat) (worker : String) (fence : Nat)
    (error : Option String) (db : Db) : Db × Bool :=
  match db.endTask id (TaskRow.heldBy worker fence) (fun task => { task with
      status := .failed
      finishedAt := some now
      output := error
      claimedBy := none }) with
  | some ended => (ended, true)
  | none => (db.settleStoppedTask now id worker fence, false)

/-- Puts a task back to be tried again at an instant, and says whether it did; a task asked to
stop is settled instead.
-/
def retryTask (now : Time) (id : Nat) (worker : String) (fence : Nat) (error : Option String)
    (retryAt : Time) (db : Db) : Db × Bool :=
  if db.countTasks (fun task => task.id = id ∧ task.heldBy worker fence) = 0 then
    (db.settleStoppedTask now id worker fence, false)
  else
    (db.updateTasks (fun task => task.id = id ∧ task.heldBy worker fence)
      (fun task => { task with
        status := .ready
        scheduledAt := some retryAt
        claimedBy := none
        leaseExpiresAt := none
        output := error }), true)

/-- Hands a claim that was refused for quota back to the queue, with the attempt it took, while
its episode lasts; (jitterPermille) is drawn from the task and the claim.
-/
def requeueQuotaWait (now : Time) (id : Nat) (worker : String) (fence : Nat) (detail : String)
    (maxWaitSecs : Nat) (jitterPermille : Int) (db : Db) : Db × QuotaRequeue :=
  let held (task : TaskRow) : Prop := task.heldBy worker fence ∧ task.status = .running
  match (db.task? id).filter held with
  | none => (db.settleStoppedTask now id worker fence, .stale)
  | some task =>
      let prior :=
        if task.quotaWaitVersion.map (fun version => version + 1) = some fence then
          task.quotaWaitSince.map (fun since => (since, task.quotaWaits))
        else none
      match quotaStep now prior maxWaitSecs jitterPermille with
      | .giveUp waits waitedSecs => (db, .expired waits waitedSecs)
      | .wait since waits retryAt =>
          (db.updateTasks (fun task => task.id = id ∧ held task)
            (fun task => { task with
              status := .ready
              scheduledAt := some retryAt
              claimedBy := none
              leaseExpiresAt := none
              attempt := task.attempt - 1
              quotaWaitSince := some since
              quotaWaits := waits
              quotaWaitVersion := some task.version
              quotaWaitDetail := some (String.ofList ((trim detail.toList).take 400)) }),
            .requeued waits (elapsedSecs since now))

end Db

end Dagron.Store
