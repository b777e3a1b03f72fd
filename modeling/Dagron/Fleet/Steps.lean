import Dagron.Fleet.Store

/-! What one step does to a job's row and to a runner's: a job moves forward as its deliveries say and as
nothing else does, and a runner that has ended, or that has a run, keeps that.
-/

namespace Dagron.Fleet

open Dagron.Library

-- Runners

def Runner.out (row : Runner) : Prop :=
  row.state ≠ .ended

/-- What becomes of a runner's row: it is of its class and its repository still, it does not come back once it
ended, and its run is the one it was launched in.
-/
structure Runner.Moves (before after : Runner) : Prop where
  name
    : after.name = before.name
  class_
    : after.class_ = before.class_
  repoId
    : after.repoId = before.repoId
  out
    : after.out → before.out
  runId
    : before.state ≠ .wanted → after.state ≠ .wanted ∧ after.runId = before.runId

theorem Runner.Moves.refl (row : Runner)
    : row.Moves row :=
  ⟨rfl, rfl, rfl, id, fun launched => ⟨launched, rfl⟩⟩

/-- Runners whose rows were each left or moved. -/
structure RunnersMove (before after : Table Runner) : Prop where
  kept
    : ∀ name row, before.get? name = some row → ∃ next, after.get? name = some next ∧ row.Moves next
  from_
    : ∀ next ∈ after, ∃ row ∈ before, row.Moves next

theorem RunnersMove.refl (runners : Table Runner)
    : RunnersMove runners runners :=
  ⟨fun _ row found => ⟨row, found, .refl row⟩, fun row there => ⟨row, there, .refl row⟩⟩

theorem RunnersMove.update {runners : Table Runner} {cond : Runner → Prop} [DecidablePred cond]
    {set : Runner → Runner} {keeps : ∀ row, Keyed.key (set row) = Keyed.key row}
    (moves : ∀ row, cond row → row.Moves (set row))
    : RunnersMove runners (runners.update cond set keeps) := by
  have one (row : Runner) : row.Moves (if cond row then set row else row) := by
    split
    next met => exact moves row met
    next => exact .refl row
  refine ⟨fun name row found => ⟨_, ?_, one row⟩, fun next there => ?_⟩
  · rw [Table.get?_update keeps, found]
    rfl
  · obtain ⟨row, present, rfl⟩ := Table.mem_update.mp there
    exact ⟨row, present, one row⟩

theorem runnersMove_heard (now : Nat) (job : Job) (runners : Table Runner)
    : RunnersMove runners (runnerHeard now job runners) := by
  unfold runnerHeard
  split
  · exact .refl runners
  · exact .refl runners
  · apply RunnersMove.update
    rintro row ⟨-, live⟩
    refine ⟨rfl, rfl, rfl, fun _ => ?_, fun _ => ⟨by simp, rfl⟩⟩
    obtain wanted | launched := live
    · simp [Runner.out, wanted]
    · simp [Runner.out, launched]
  · apply RunnersMove.update
    rintro row ⟨-, live⟩
    exact ⟨rfl, rfl, rfl, fun _ => live, fun _ => ⟨by simp, rfl⟩⟩

theorem World.runnersMove_fleetRunner (world : World) (name : String) {cond : Runner → Prop}
    [DecidablePred cond] {set : Runner → Runner} {keeps : ∀ row, Keyed.key (set row) = Keyed.key row}
    (moves : ∀ row, cond row → row.Moves (set row))
    : RunnersMove world.runners (world.fleetRunner name cond set keeps).runners :=
  @RunnersMove.update _ _ _ set keeps fun row met => moves row met.2

theorem World.runnersMove_registered (world : World) (name forgeId : String)
    : RunnersMove world.runners (world.fleetRegistered name forgeId).runners :=
  world.runnersMove_fleetRunner name fun _ _ => ⟨rfl, rfl, rfl, id, fun launched => ⟨launched, rfl⟩⟩

theorem World.runnersMove_launched (world : World) (name runId : String)
    : RunnersMove world.runners (world.fleetLaunched name runId).runners :=
  world.runnersMove_fleetRunner name fun row wanted =>
    ⟨rfl, rfl, rfl, fun _ => by simp [Runner.out, wanted], fun launched => absurd wanted launched⟩

theorem World.runnersMove_ended (world : World) (name reason : String)
    : RunnersMove world.runners (world.fleetEnded name reason).runners :=
  world.runnersMove_fleetRunner name fun _ live => ⟨rfl, rfl, rfl, fun _ => live, fun _ => ⟨by simp, rfl⟩⟩

theorem World.runnersMove_runEnd (world : World) (name how : String)
    : RunnersMove world.runners (world.fleetRunEnd name how).runners :=
  world.runnersMove_fleetRunner name fun _ _ => ⟨rfl, rfl, rfl, id, fun launched => ⟨launched, rfl⟩⟩

theorem World.runnersMove_swept (world : World) (name : String)
    : RunnersMove world.runners (world.fleetSwept name).runners :=
  world.runnersMove_fleetRunner name fun _ _ => ⟨rfl, rfl, rfl, id, fun launched => ⟨launched, rfl⟩⟩

/-- All that a step does to the runners: it moves them, writes one that has a place, or drops some. -/
inductive RunnersStep (quota : String → Quota) (world : World) : Op → Table Runner → Prop where
  | moved {op : Op} {after : Table Runner} (moves : RunnersMove world.runners after)
      : RunnersStep quota world op after
  | wanted {op : Op} {after : Table Runner} {row : Runner} (done : world.runners.insert row = some after)
      (place : world.hasPlace (quota row.class_) row.class_ row.repoId)
      : RunnersStep quota world op after
  | dropped {horizon : Nat} {after : Table Runner}
      (some_ : ∀ row ∈ after, row ∈ world.runners)
      : RunnersStep quota world (.drop horizon) after

theorem runners_step {quota : String → Quota} {world next : World} {op : Op}
    (done : world.step quota op = some next)
    : RunnersStep quota world op next.runners := by
  cases op with
  | job repoId job class_ =>
      obtain ⟨-, -, rfl⟩ := Option.map_eq_some_iff.mp done
      exact .moved (runnersMove_heard _ job _)
  | heard job =>
      obtain rfl := Option.some.inj done
      exact .moved (runnersMove_heard _ job _)
  | want repoId class_ name org trust =>
      obtain ⟨repo, -, done⟩ := Option.bind_eq_some_iff.mp done
      unfold World.fleetWant at done
      split at done
      next place =>
        obtain ⟨runners, inserted, rfl⟩ := Option.map_eq_some_iff.mp done
        exact .wanted inserted place
      next =>
        obtain rfl := Option.some.inj done
        exact .moved (.refl _)
  | registered name forgeId =>
      obtain rfl := Option.some.inj done
      exact .moved (world.runnersMove_registered name forgeId)
  | launched name runId =>
      obtain rfl := Option.some.inj done
      exact .moved (world.runnersMove_launched name runId)
  | ended name reason =>
      obtain rfl := Option.some.inj done
      exact .moved (world.runnersMove_ended name reason)
  | runEnd name how =>
      obtain rfl := Option.some.inj done
      exact .moved (world.runnersMove_runEnd name how)
  | swept name =>
      obtain rfl := Option.some.inj done
      exact .moved (world.runnersMove_swept name)
  | drop horizon =>
      obtain rfl := Option.some.inj done
      exact .dropped fun row there => (Table.mem_delete.mp there).1
  | tick | due | stop | told | asked | gone =>
      obtain rfl := Option.some.inj done
      exact .moved (.refl _)
  | claim claim lease =>
      obtain ⟨-, done⟩ := Option.ite_none_left_eq_some.mp done
      obtain ⟨-, -, rfl⟩ := Option.map_eq_some_iff.mp done
      exact .moved (.refl _)
  | finish | died | disconnect =>
      obtain ⟨-, -, rfl⟩ := Option.map_eq_some_iff.mp done
      exact .moved (.refl _)
  | retry claim key retry again =>
      obtain ⟨-, done⟩ := Option.ite_none_right_eq_some.mp done
      obtain rfl := Option.some.inj done
      exact .moved (.refl _)
  | connect repo =>
      change world.connectRepo repo = some next at done
      unfold World.connectRepo at done
      split at done
      · obtain rfl := Option.some.inj done
        exact .moved (.refl _)
      · obtain ⟨-, -, rfl⟩ := Option.map_eq_some_iff.mp done
        exact .moved (.refl _)

-- Jobs

/-- How a job stands: what its deliveries are to say of its row. -/
structure Standing where
  state
    : JobState
  runnerName
    : Option String
  startedAt
    : Option Nat
  finishedAt
    : Option Nat
  deriving DecidableEq

def FleetJob.standing (row : FleetJob) : Standing where
  state := row.state
  runnerName := row.runnerName
  startedAt := row.startedAt
  finishedAt := row.finishedAt

def World.standing (world : World) (key : String × String) : Option Standing :=
  (world.jobs.get? key).map FleetJob.standing

def JobState.rank : JobState → Nat
  | .queued => 0
  | .running => 1
  | .done => 2

/-- How a job stands once a delivery was heard, of a repository that is connected or not. -/
def Standing.hear (connected : Bool) (now : Nat) (job : Job) (before : Option Standing) : Option Standing :=
  match job.action, before with
  | .queued, none => if connected then some ⟨.queued, none, none, none⟩ else none
  | .queued, some was => some was
  | .inProgress, none => some ⟨.running, job.runnerName, some now, none⟩
  | .inProgress, some was =>
      if was.state = .queued then some ⟨.running, job.runnerName, some now, was.finishedAt⟩ else some was
  | .completed, none => some ⟨.done, job.runnerName.or none, none, some now⟩
  | .completed, some was =>
      if was.state ≠ .done then some ⟨.done, job.runnerName.or was.runnerName, was.startedAt, some now⟩
      else some was

theorem FleetJob.standing_advance (now : Nat) (job : Job) (row : FleetJob) (connected : Bool)
    : some (row.advance now job).standing = Standing.hear connected now job (some row.standing) := by
  have state : row.standing.state = row.state := rfl
  unfold FleetJob.advance Standing.hear
  cases job.action with
  | queued => rfl
  | inProgress | completed =>
      simp only [state]
      split_ifs <;> rfl

theorem World.standing_fleetJob (world : World) (repoId : String) (job : Job) (class_ : String)
    (key : String × String)
    : (world.fleetJob repoId job class_).standing key
      = if key = job.key then Standing.hear (world.connected repoId) world.now job (world.standing key)
        else world.standing key := by
  change ((world.writeJob repoId job class_).get? key).map FleetJob.standing
    = if key = job.key then
        Standing.hear (world.connected repoId) world.now job ((world.jobs.get? key).map FleetJob.standing)
      else (world.jobs.get? key).map FleetJob.standing
  -- A row that was there is moved forward by the delivery, and one that was not is written as it says.
  have written (read : Option FleetJob)
      (first : world.jobs.get? key = none → read.map FleetJob.standing
        = Standing.hear (world.connected repoId) world.now job none)
      (later : ∀ row, world.jobs.get? key = some row → read = some (row.advance world.now job))
      : read.map FleetJob.standing
        = Standing.hear (world.connected repoId) world.now job
            ((world.jobs.get? key).map FleetJob.standing) := by
    cases found : world.jobs.get? key with
    | none => exact first found
    | some row =>
        rw [later row found]
        exact row.standing_advance world.now job _
  unfold World.writeJob
  split
  next action =>
    split
    next connected =>
      rw [Table.get?_insertOrIgnore]
      change ((if key = job.key then _ else _) : Option FleetJob).map _ = _
      split_ifs
      · refine written _ (fun absent => ?_) fun row found => ?_
        · simp only [absent, Standing.hear, action, connected]
          rfl
        · simp only [found, FleetJob.advance, action]
          rfl
      · rfl
    next apart =>
      split_ifs
      · refine written _ (fun absent => ?_) fun row found => ?_
        · simp only [absent, Standing.hear, action, if_neg apart]
          rfl
        · simp only [found, FleetJob.advance, action]
      · rfl
  all_goals
    rename_i action
    rw [Table.get?_upsert]
    change ((if key = job.key then _ else _) : Option FleetJob).map _ = _
    split_ifs
    · refine written _ (fun absent => ?_) fun row found => by rw [found]; rfl
      simp only [absent, Standing.hear, action]
      rfl
    · rfl

theorem standing_update {world next : World} {cond : FleetJob → Prop} [DecidablePred cond]
    {set : FleetJob → FleetJob} (keeps : ∀ row, Keyed.key (set row) = Keyed.key row)
    (updated : next.jobs = world.jobs.update cond set keeps)
    (same : ∀ row, (set row).standing = row.standing) (key : String × String)
    : next.standing key = world.standing key := by
  rw [World.standing, updated, Table.get?_update keeps, Option.map_map, World.standing]
  congr 1
  funext row
  dsimp only [Function.comp]
  split
  · exact same row
  · rfl

-- Repositories

theorem connected_update {world next : World} {cond : Repo → Prop} [DecidablePred cond] {set : Repo → Repo}
    (keeps : ∀ row, Keyed.key (set row) = Keyed.key row)
    (updated : next.repos = world.repos.update cond set keeps)
    (same : ∀ row, (set row).disconnectedAt = row.disconnectedAt) (repoId : String)
    : next.connected repoId = world.connected repoId := by
  rw [World.connected, updated, Table.get?_update keeps, World.connected]
  cases world.repos.get? repoId with
  | none => rfl
  | some row =>
      rw [Option.map_some, Option.any_some, Option.any_some]
      split
      · rw [same]
      · rfl

end Dagron.Fleet
