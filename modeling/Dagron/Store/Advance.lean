import Dagron.Store.Create

/-! The readiness sweep: pending tasks whose counters have reached zero become ready, park, ask
a person, are skipped, or fail on a condition that cannot be decided.
-/

namespace Dagron.Store

open Dagron.Library Dagron.Spec

/-- Whether a task can be decided by its dependencies' statuses alone: under the default rule,
no gate, and with nothing in its stored text that may be a condition.
-/
def TaskRow.defaultShaped (env : Env) (task : TaskRow) : Prop :=
  task.triggerRule = defaultTriggerRule ∧ task.isApproval = false
    ∧ env.mentionsWhen task.input = false

instance (env : Env) (task : TaskRow) : Decidable (task.defaultShaped env) := by
  unfold TaskRow.defaultShaped
  infer_instance

/-- What the sweep finds for a task whose counter is zero. -/
inductive Readiness where
  | run
  | skip
  | fail (message : String)

namespace Db

def allSucceeded (db : Db) (id : Nat) : Prop :=
  ∀ status ∈ db.depStatuses id, status = .succeeded

instance (db : Db) (id : Nat) : Decidable (db.allSucceeded id) := by
  unfold allSucceeded
  infer_instance

-- The default shape

def readied (env : Env) (db : Db) (task : TaskRow) : Prop :=
  task.status = .pending ∧ task.remainingDeps = 0 ∧ task.defaultShaped env
    ∧ task.fanoutOf.isNone ∧ db.allSucceeded task.id

def skipped (env : Env) (db : Db) (task : TaskRow) : Prop :=
  task.status = .pending ∧ task.remainingDeps = 0 ∧ task.defaultShaped env
    ∧ ¬ db.allSucceeded task.id

instance (env : Env) (db : Db) : DecidablePred (db.readied env) := fun task => by
  unfold readied
  infer_instance

instance (env : Env) (db : Db) : DecidablePred (db.skipped env) := fun task => by
  unfold skipped
  infer_instance

def readyDefault (env : Env) (now : Time) (db : Db) : Db :=
  db.updateTasks (db.readied env)
    (fun task => { task with status := .ready, scheduledAt := some now })

/-- Skips what the default rule refuses, and counts each off its dependents; one transaction. -/
def skipDefault (env : Env) (now : Time) (db : Db) : Db :=
  let ids := (db.tasks.select (db.skipped env)).map (fun task => task.id)
  let marked := db.updateTasks (db.skipped env)
    (fun task => { task with status := .skipped, finishedAt := some now })
  ids.foldl releaseDependents marked

-- Every other shape

/-- A task's runtime condition, decided over its run's outputs. -/
def whenGate (env : Env) (db : Db) (task : TaskRow) : Except String Bool :=
  match task.input.when with
  | none => .ok true
  | some cond =>
      let ctx : Bindings := (whenOutputRefs cond).map
        (fun name => ("tasks." ++ name ++ ".output", db.outputOf task.runId name))
      match evalWhen env.host (substitute env.host cond ctx) with
      | .ok holds => .ok holds
      | .error problem =>
          .error ("runtime when '" ++ cond ++ "' failed to evaluate: " ++ problem)

/-- What becomes of a task whose dependencies are all terminal: its condition first, and then
its trigger rule over their statuses.
-/
def readiness (env : Env) (db : Db) (task : TaskRow) : Readiness :=
  match db.whenGate env task with
  | .error message => .fail message
  | .ok holds =>
      if holds && triggerRuleReady task.triggerRule (db.depStatuses task.id) then .run else .skip

/-- Moves one task of the sweep's candidates, if it is pending still: a runtime fan-out parks,
a gate asks, and any other task becomes ready, is skipped or fails.
-/
def advanceCandidate (env : Env) (now : Time) (candidate : TaskRow) (db : Db) : Db :=
  match db.readiness env candidate with
  | .fail message =>
      (db.endTask candidate.id (fun task => task.status = .pending) (fun task => { task with
        status := .failed, output := some message, finishedAt := some now })).getD db
  | .skip =>
      (db.endTask candidate.id (fun task => task.status = .pending) (fun task => { task with
        status := .skipped, finishedAt := some now })).getD db
  | .run =>
      if candidate.fanoutOf.isSome then
        db.updateTasks (fun task => task.id = candidate.id ∧ task.status = .pending)
          (fun task => { task with
            status := .running
            scheduledAt := some now
            claimedBy := none
            leaseExpiresAt := none })
      else if candidate.isApproval then
        db.updateTasks (fun task => task.id = candidate.id ∧ task.status = .pending)
          (fun task => { task with status := .awaitingApproval, scheduledAt := some now })
      else
        db.updateTasks (fun task => task.id = candidate.id ∧ task.status = .pending)
          (fun task => { task with status := .ready, scheduledAt := some now })

/-- The pending tasks with nothing left to wait for, by id. -/
def advanceCandidates (db : Db) : List TaskRow :=
  (db.tasks.select (fun task => task.status = .pending ∧ task.remainingDeps = 0)).insertionSort
    (fun first second => first.id ≤ second.id)

/-- One pass over the candidates: its commits, and how many tasks it moved. -/
def advanceExotic (env : Env) (now : Time) : List TaskRow → Db → List Db × Nat
  | [], _ => ([], 0)
  | candidate :: rest, db =>
      let moved := db.countTasks (fun task => task.id = candidate.id ∧ task.status = .pending)
      let next := db.advanceCandidate env now candidate
      let (commits, others) := advanceExotic env now rest next
      (next :: commits, moved + others)

/-- (advanceRounds rounds) is the commits of at most so many rounds, each the set-based pass
and then the pass over every candidate left; a round that moves nothing is the last.
-/
def advanceRounds (env : Env) (now : Time) : Nat → Db → List Db
  | 0, _ => []
  | rounds + 1, db =>
      if db.advanceCandidates = [] then []
      else
        let ready := db.readyDefault env now
        let settled := ready.skipDefault env now
        let (commits, moved) := settled.advanceExotic env now settled.advanceCandidates
        let round := ready :: settled :: commits
        if db.countTasks (db.readied env) + ready.countTasks (ready.skipped env) + moved = 0 then
          round
        else round ++ advanceRounds env now rounds (round.getLastD db)

def advanceReadyTasks (env : Env) (now : Time) (db : Db) : List Db :=
  db.advanceRounds env now 64

end Db

end Dagron.Store
