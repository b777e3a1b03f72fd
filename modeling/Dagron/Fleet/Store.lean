import Mathlib.Data.List.Sort
import Dagron.Library.Table
import Dagron.Library.Transition

/-! Fleet mode's rows: each job as its forge says it stands, each runner that the fleet started, and the claim
under which a repository's fleet is looked over. Each statement, or transaction, of the store is one step.
-/

namespace Dagron.Fleet

open Dagron.Library

-- Rows

/-- What a job is, as its forge says of the workflow run it is of. -/
inductive Trust where
  | trusted
  | untrusted
  deriving DecidableEq

inductive JobAction where
  | queued
  | inProgress
  | completed
  deriving DecidableEq

/-- A job's delivery: what its forge says of it. -/
structure Job where
  forgeHost
    : String
  action
    : JobAction
  id
    : Nat
  runId
    : Nat
  runAttempt
    : Nat
  name
    : String
  workflow
    : Option String
  labels
    : List String
  headSha
    : String
  runnerName
    : Option String
  conclusion
    : Option String
  deriving DecidableEq

inductive JobState where
  | queued
  | running
  | done
  deriving DecidableEq

/-- What came of running a job again whose runner died. -/
inductive Retry where
  | due
  | asked
  | refused
  deriving DecidableEq

/-- A row of the fleet's jobs; times are milliseconds. -/
structure FleetJob where
  forgeHost
    : String
  jobId
    : String
  repoId
    : String
  workflowRun
    : String
  runAttempt
    : Nat
  name
    : String
  workflow
    : Option String
  labels
    : List String
  class_
    : String
  headSha
    : String
  trust
    : Option Trust
  state
    : JobState
  conclusion
    : Option String := none
  runnerName
    : Option String := none
  queuedAt
    : Nat
  startedAt
    : Option Nat := none
  finishedAt
    : Option Nat := none
  askedAt
    : Option Nat := none
  retry
    : Option Retry := none
  retryAt
    : Option Nat := none
  deriving DecidableEq

instance : Keyed FleetJob (String × String) where
  key row := (row.forgeHost, row.jobId)

inductive RunnerState where
  | wanted
  | launched
  | busy
  | ended
  deriving DecidableEq

/-- A row of the fleet's runners. -/
structure Runner where
  name
    : String
  repoId
    : String
  class_
    : String
  cell
    : String
  org
    : Option String
  trust
    : Trust
  state
    : RunnerState
  forgeId
    : Option String := none
  runId
    : Option String := none
  jobId
    : Option String := none
  reason
    : Option String := none
  runEnd
    : Option String := none
  createdAt
    : Nat
  launchedAt
    : Option Nat := none
  endedAt
    : Option Nat := none
  sweptAt
    : Option Nat := none
  deriving DecidableEq

instance : Keyed Runner String where
  key row := row.name

/-- A repository's row: what the fleet reads and writes of it. -/
structure Repo where
  id
    : String
  forge
    : String
  forgeHost
    : String
  fullName
    : String
  cell
    : String
  disconnectedAt
    : Option Nat := none
  fleetDueAt
    : Option Nat := none
  fleetClaim
    : Option String := none
  fleetPokedAt
    : Option Nat := none
  deriving DecidableEq

instance : Keyed Repo String where
  key row := row.id

/-- The most of a class's runners out at once: for every repository together, and for one. -/
structure Quota where
  all
    : Option Nat := none
  repository
    : Option Nat := none

/-- A look that a looker is at: the repository it claimed, and the jobs it has read to be run again. -/
structure Look where
  claim
    : String
  repoId
    : String
  died
    : List (String × String) := []
  deriving DecidableEq

structure World where
  now
    : Nat := 0
  repos
    : Table Repo := .empty
  jobs
    : Table FleetJob := .empty
  runners
    : Table Runner := .empty
  looks
    : List Look := []

-- Deliveries

def Job.key (job : Job) : String × String :=
  (job.forgeHost, toString job.id)

def jobEnded : String :=
  "its job ended"

/-- A new job's trust: what another job of its workflow run was told. -/
def trustOfItsRun (jobs : Table FleetJob) (repoId workflowRun : String) : Option Trust :=
  (jobs.rows.find? fun row =>
    row.repoId = repoId ∧ row.workflowRun = workflowRun ∧ row.trust.isSome).bind FleetJob.trust

def World.newJob (world : World) (repoId : String) (job : Job) (class_ : String) (state : JobState)
    : FleetJob where
  forgeHost := job.forgeHost
  jobId := toString job.id
  repoId := repoId
  workflowRun := toString job.runId
  runAttempt := job.runAttempt
  name := job.name
  workflow := job.workflow
  labels := job.labels
  class_ := class_
  headSha := job.headSha
  trust := trustOfItsRun world.jobs repoId (toString job.runId)
  state := state
  queuedAt := world.now

def FleetJob.start (now : Nat) (job : Job) (row : FleetJob) : FleetJob :=
  { row with state := .running, runnerName := job.runnerName, startedAt := some now }

def FleetJob.finish (now : Nat) (job : Job) (row : FleetJob) : FleetJob :=
  { row with
    state := .done
    conclusion := job.conclusion
    runnerName := job.runnerName.or row.runnerName
    finishedAt := some now }

def FleetJob.advance (now : Nat) (job : Job) (row : FleetJob) : FleetJob :=
  match job.action with
  | .queued => row
  | .inProgress => if row.state = .queued then row.start now job else row
  | .completed => if row.state ≠ .done then row.finish now job else row

theorem FleetJob.key_advance (now : Nat) (job : Job) (row : FleetJob)
    : Keyed.key (row.advance now job) = Keyed.key row := by
  unfold FleetJob.advance
  split
  · rfl
  · split <;> rfl
  · split <;> rfl

def World.connected (world : World) (repoId : String) : Bool :=
  (world.repos.get? repoId).any fun repo => repo.disconnectedAt.isNone

/-- The job of a delivery, written or moved forward. One is kept waiting only where its repository is
connected.
-/
def World.writeJob (world : World) (repoId : String) (job : Job) (class_ : String) : Table FleetJob :=
  let new := world.newJob repoId job class_
  match job.action with
  | .queued => if world.connected repoId then world.jobs.insertOrIgnore (new .queued) else world.jobs
  | .inProgress =>
      world.jobs.upsert ((new .running).start world.now job) (FleetJob.advance world.now job)
        (FleetJob.key_advance world.now job)
  | .completed =>
      world.jobs.upsert ((new .done).finish world.now job) (FleetJob.advance world.now job)
        (FleetJob.key_advance world.now job)

/-- What a job's delivery that names a runner says of that runner, by its name alone. -/
def runnerHeard (now : Nat) (job : Job) (runners : Table Runner) : Table Runner :=
  match job.runnerName, job.action with
  | none, _ | _, .queued => runners
  | some name, .inProgress =>
      runners.update (fun row => row.name = name ∧ (row.state = .wanted ∨ row.state = .launched)) fun row =>
        { row with state := .busy, jobId := some (toString job.id) }
  | some name, .completed =>
      runners.update (fun row => row.name = name ∧ row.state ≠ .ended) fun row =>
        { row with
          state := .ended
          jobId := row.jobId.or (some (toString job.id))
          endedAt := some now
          reason := some jobEnded }

/-- Writes what a job's delivery says: the job's row, moved forward and never back; the runner it names; and
the repository made due for a look, unless one is going.
-/
def World.fleetJob (world : World) (repoId : String) (job : Job) (class_ : String) : World :=
  { world with
    jobs := world.writeJob repoId job class_
    runners := runnerHeard world.now job world.runners
    repos := world.repos.update (fun row => row.id = repoId ∧ row.fleetClaim = none) fun row =>
      { row with fleetDueAt := some world.now } }

/-- What a job's delivery says of a runner, where the job's repository is not connected. -/
def World.fleetRunnerHeard (world : World) (job : Job) : World :=
  { world with runners := runnerHeard world.now job world.runners }

/-- Makes a repository due for a look now, or for another look where one is going. -/
def World.fleetDue (world : World) (repoId : String) : World :=
  { world with
    repos := world.repos.update (fun row => row.id = repoId ∧ row.disconnectedAt = none) fun row =>
      { row with
        fleetPokedAt := some world.now
        fleetDueAt := if row.fleetClaim = none then some world.now else row.fleetDueAt } }

-- Looks

def World.mostOverdue (world : World) : Option Repo :=
  (world.repos.select fun row => ∃ due ∈ row.fleetDueAt, due ≤ world.now).foldl
    (fun found row => match found with
      | none => some row
      | some other =>
          if row.fleetDueAt.getD 0 < other.fleetDueAt.getD 0
              ∨ row.fleetDueAt.getD 0 = other.fleetDueAt.getD 0 ∧ row.id < other.id then some row
          else found)
    none

def World.look (world : World) (claim : String) : Option Look :=
  world.looks.find? fun look => look.claim = claim

/-- Claims the repository that is most overdue for a look, for a lease. A looker is at one look at a time. -/
def World.claimFleet (world : World) (claim : String) (lease : Nat) : Option World :=
  if (world.look claim).isSome then none
  else world.mostOverdue.map fun repo =>
    { world with
      repos := world.repos.update (fun row => row.id = repo.id) fun row =>
        { row with
          fleetClaim := some claim
          fleetPokedAt := none
          fleetDueAt := some (world.now + lease) }
      looks := ⟨claim, repo.id, []⟩ :: world.looks }

/-- Whether a repository is to be looked over again: a job of it waits or is due to be run again, a look was
asked for while one went, or a runner of it is still out.
-/
def World.isOpen (world : World) (repo : Repo) : Bool :=
  (repo.disconnectedAt.isNone
      && (repo.fleetPokedAt.isSome
        || world.jobs.rows.any fun job =>
            job.repoId = repo.id ∧ (job.state = .queued ∨ job.retry = some .due)))
    || world.runners.rows.any fun runner => runner.repoId = repo.id ∧ runner.sweptAt = none

/-- Ends a look that a claim holds: where the claim was lost, nothing of the repository changes. -/
def World.finishFleet (world : World) (claim : String) (again : Nat) : Option World :=
  (world.look claim).map fun look =>
    { world with
      repos := world.repos.update (fun row => row.id = look.repoId ∧ row.fleetClaim = some claim) fun row =>
        { row with
          fleetClaim := none
          fleetDueAt := if world.isOpen row then some (world.now + again) else none }
      looks := world.looks.filter fun other => other.claim ≠ claim }

/-- A look that ends without a word: its looker stopped, or the database failed. -/
def World.stopLook (world : World) (claim : String) : World :=
  { world with looks := world.looks.filter fun other => other.claim ≠ claim }

/-- What the forge says a workflow run is: each of its jobs is that. -/
def World.fleetTold (world : World) (repoId workflowRun : String) (trust : Trust) : World :=
  { world with
    jobs := world.jobs.update
      (fun row => row.repoId = repoId ∧ row.workflowRun = workflowRun ∧ row.trust = none) fun row =>
        { row with trust := some trust } }

def World.fleetAsked (world : World) (key : String × String) : World :=
  { world with
    jobs := world.jobs.update (fun row => Keyed.key row = key) fun row =>
      { row with askedAt := some world.now } }

/-- The forge has no such job now: it is over, however it ended. -/
def World.fleetJobGone (world : World) (key : String × String) : World :=
  { world with
    jobs := world.jobs.update (fun row => Keyed.key row = key ∧ row.state ≠ .done) fun row =>
      { row with state := .done, finishedAt := some world.now } }

-- Runners

def World.hasPlace (world : World) (quota : Quota) (class_ repoId : String) : Prop :=
  (∀ most ∈ quota.all,
      world.runners.count (fun row => row.class_ = class_ ∧ row.state ≠ .ended) < most)
    ∧ ∀ most ∈ quota.repository,
      world.runners.count (fun row => row.class_ = class_ ∧ row.repoId = repoId ∧ row.state ≠ .ended) < most

instance (world : World) (quota : Quota) (class_ repoId : String)
    : Decidable (world.hasPlace quota class_ repoId) :=
  inferInstanceAs (Decidable (_ ∧ _))

/-- Writes the row of a runner that the fleet wants, unless its class has as many out as its quota lets it:
the count and the row are one statement.
-/
def World.fleetWant (world : World) (quota : Quota) (repo : Repo) (class_ name : String) (org : Option String)
    (trust : Trust) : Option World :=
  if world.hasPlace quota class_ repo.id then
    let row : Runner :=
      { name, repoId := repo.id, class_, cell := repo.cell, org, trust, state := .wanted,
        createdAt := world.now }
    (world.runners.insert row).map fun runners => { world with runners }
  else some world

def World.fleetRunner (world : World) (name : String) (cond : Runner → Prop) [DecidablePred cond]
    (set : Runner → Runner) (keeps : ∀ row, Keyed.key (set row) = Keyed.key row := by intros; rfl) : World :=
  { world with runners := world.runners.update (fun row => row.name = name ∧ cond row) set keeps }

def World.fleetRegistered (world : World) (name forgeId : String) : World :=
  world.fleetRunner name (fun _ => True) fun row => { row with forgeId := some forgeId }

def World.fleetLaunched (world : World) (name runId : String) : World :=
  world.fleetRunner name (fun row => row.state = .wanted) fun row =>
    { row with state := .launched, runId := some runId, launchedAt := some world.now }

/-- The runner is over, for a reason: the first one stands. -/
def World.fleetEnded (world : World) (name reason : String) : World :=
  world.fleetRunner name (fun row => row.state ≠ .ended) fun row =>
    { row with state := .ended, reason := some reason, endedAt := some world.now }

/-- How the runner's run was seen to end: the first seen stands. -/
def World.fleetRunEnd (world : World) (name how : String) : World :=
  world.fleetRunner name (fun row => row.runEnd = none) fun row => { row with runEnd := some how }

def World.fleetSwept (world : World) (name : String) : World :=
  world.fleetRunner name (fun row => row.state = .ended) fun row => { row with sweptAt := some world.now }

-- Jobs that are run again

/-- Why a runner's row says it ended, where its run ended and did not succeed. -/
def diedReasons : List String :=
  ["its run failed", "its cell has no such run"]

def World.runnerDied (world : World) (job : FleetJob) : Bool :=
  job.state = .done ∧ job.conclusion = some "failure"
    ∧ ∃ runner ∈ world.runners.rows, job.runnerName = some runner.name
      ∧ ((∃ reason ∈ runner.reason, reason ∈ diedReasons)
        ∨ runner.runEnd = some "failed" ∨ runner.runEnd = some "gone")

/-- The jobs of a repository that failed on a runner that died, and are yet to be run again: those not yet
decided that ended inside a time, and those due that may be asked for, the first to end first.
-/
def World.fleetDied (world : World) (repoId : String) (within limit : Nat) : List (String × String) :=
  let died := world.jobs.select fun job =>
    job.repoId = repoId ∧ world.runnerDied job
      ∧ (job.retry = none ∧ (∃ finished ∈ job.finishedAt, world.now < finished + within)
        ∨ job.retry = some .due ∧ ∀ at_ ∈ job.retryAt, at_ ≤ world.now)
  ((died.insertionSort fun first second =>
    first.finishedAt.getD 0 < second.finishedAt.getD 0
      ∨ first.finishedAt.getD 0 = second.finishedAt.getD 0 ∧ first.jobId ≤ second.jobId).take limit).map
    Keyed.key

def World.readDied (world : World) (claim : String) (within limit : Nat) : Option World :=
  (world.look claim).map fun look =>
    { world with
      looks := world.looks.map fun other =>
        if other.claim = claim then { other with died := world.fleetDied look.repoId within limit }
        else other }

/-- What came of running a job again: one that was asked for stays so. -/
def World.fleetRetry (world : World) (key : String × String) (retry : Retry) (again : Option Nat) : World :=
  { world with
    jobs := world.jobs.update (fun row => Keyed.key row = key ∧ row.retry ≠ some .asked) fun row =>
      { row with retry := some retry, retryAt := again.map (world.now + ·) } }

/-- A look writes what came of a job that it read to be run again, as its label's settings, its times and the
forge's answer say.
-/
def World.retryDied (world : World) (claim : String) (key : String × String) (retry : Retry)
    (again : Option Nat) : Option World :=
  if ∃ look ∈ world.look claim, key ∈ look.died then some (world.fleetRetry key retry again) else none

-- Repositories

/-- Connects a repository, as the row it was where it was connected before. -/
def World.connectRepo (world : World) (repo : Repo) : Option World :=
  match world.repos.rows.find? fun row => row.forgeHost = repo.forgeHost ∧ row.fullName = repo.fullName with
  | some was =>
      some { world with
        repos := world.repos.update (fun row => row.id = was.id ∧ row.disconnectedAt ≠ none) fun row =>
          { row with disconnectedAt := none, forge := repo.forge, cell := repo.cell } }
  | none =>
      let row : Repo :=
        { id := repo.id, forge := repo.forge, forgeHost := repo.forgeHost, fullName := repo.fullName,
          cell := repo.cell }
      (world.repos.insert row).map fun repos => { world with repos }

/-- Disconnects a repository, and closes its jobs that wait: nothing would say that they ended. -/
def World.disconnectRepo (world : World) (forgeHost fullName : String) : Option World :=
  (world.repos.rows.find? fun row =>
      row.forgeHost = forgeHost ∧ row.fullName = fullName ∧ row.disconnectedAt = none).map fun was =>
    { world with
      repos := world.repos.update (fun row => row.id = was.id) fun row =>
        { row with disconnectedAt := some world.now }
      jobs := world.jobs.update (fun row => row.repoId = was.id ∧ row.state = .queued) fun row =>
        { row with state := .done } }

def World.dropFleetBefore (world : World) (horizon : Nat) : World :=
  { world with
    jobs := world.jobs.delete fun row =>
      row.state = .done ∧ (∃ finished ∈ row.finishedAt, finished < horizon) ∧ row.retry ≠ some .due
    runners := world.runners.delete fun row => ∃ swept ∈ row.sweptAt, swept < horizon }

-- Steps

/-- What happens to the fleet's rows: a delivery, a step of a look, or what is done to a repository. -/
inductive Op where
  | tick (passed : Nat)
  | job (repoId : String) (job : Job) (class_ : String)
  | heard (job : Job)
  | due (repoId : String)
  | claim (claim : String) (lease : Nat)
  | finish (claim : String) (again : Nat)
  | stop (claim : String)
  | told (repoId workflowRun : String) (trust : Trust)
  | asked (key : String × String)
  | gone (key : String × String)
  | want (repoId class_ name : String) (org : Option String) (trust : Trust)
  | registered (name forgeId : String)
  | launched (name runId : String)
  | ended (name reason : String)
  | runEnd (name how : String)
  | swept (name : String)
  | died (claim : String) (within limit : Nat)
  | retry (claim : String) (key : String × String) (retry : Retry) (again : Option Nat)
  | connect (repo : Repo)
  | disconnect (forgeHost fullName : String)
  | drop (horizon : Nat)
  deriving DecidableEq

/-- One step; (quota) is what each class's label says of its runners. -/
def World.step (quota : String → Quota) (world : World) : Op → Option World
  | .tick passed => some { world with now := world.now + passed }
  | .job repoId job class_ => (world.repos.get? repoId).map fun _ => world.fleetJob repoId job class_
  | .heard job => some (world.fleetRunnerHeard job)
  | .due repoId => some (world.fleetDue repoId)
  | .claim claim lease => world.claimFleet claim lease
  | .finish claim again => world.finishFleet claim again
  | .stop claim => some (world.stopLook claim)
  | .told repoId workflowRun trust => some (world.fleetTold repoId workflowRun trust)
  | .asked key => some (world.fleetAsked key)
  | .gone key => some (world.fleetJobGone key)
  | .want repoId class_ name org trust =>
      (world.repos.get? repoId).bind fun repo => world.fleetWant (quota class_) repo class_ name org trust
  | .registered name forgeId => some (world.fleetRegistered name forgeId)
  | .launched name runId => some (world.fleetLaunched name runId)
  | .ended name reason => some (world.fleetEnded name reason)
  | .runEnd name how => some (world.fleetRunEnd name how)
  | .swept name => some (world.fleetSwept name)
  | .died claim within limit => world.readDied claim within limit
  | .retry claim key retry again => world.retryDied claim key retry again
  | .connect repo => world.connectRepo repo
  | .disconnect forgeHost fullName => world.disconnectRepo forgeHost fullName
  | .drop horizon => some (world.dropFleetBefore horizon)

def fleetSystem (quota : String → Quota) (repos : Table Repo) : System World Op where
  init := { repos }
  commits op world := (world.step quota op).toList

end Dagron.Fleet
