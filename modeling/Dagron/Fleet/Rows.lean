import Mathlib.Data.List.Induction
import Dagron.Fleet.Steps

/-! A job's deliveries come in any order, and more than once, between the steps of any looks: what its row says
in the end of how far it is depends on which came, and on no order of theirs.
-/

namespace Dagron.Fleet

open Dagron.Library

-- Deliveries and looks

/-- Whether a step is a delivery or one of a look, and so not one that closes a job, drops a row, or connects
or disconnects a repository.
-/
def Op.ofFleet : Op → Bool
  | .gone _ | .connect _ | .disconnect _ _ | .drop _ => false
  | _ => true

theorem connected_step {quota : String → Quota} {world next : World} {op : Op} (ofFleet : op.ofFleet)
    (done : world.step quota op = some next) (repoId : String)
    : next.connected repoId = world.connected repoId := by
  cases op with
  | job id job class_ =>
      obtain ⟨-, -, rfl⟩ := Option.map_eq_some_iff.mp done
      refine connected_update ?_ rfl ?_ repoId <;> exact fun _ => rfl
  | due id =>
      obtain rfl := Option.some.inj done
      refine connected_update ?_ rfl ?_ repoId <;> exact fun _ => rfl
  | claim claim lease =>
      obtain ⟨-, done⟩ := Option.ite_none_left_eq_some.mp done
      obtain ⟨repo, -, rfl⟩ := Option.map_eq_some_iff.mp done
      refine connected_update ?_ rfl ?_ repoId <;> exact fun _ => rfl
  | finish claim again =>
      obtain ⟨look, -, rfl⟩ := Option.map_eq_some_iff.mp done
      refine connected_update ?_ rfl ?_ repoId <;> exact fun _ => rfl
  | want id class_ name org trust =>
      obtain ⟨repo, -, done⟩ := Option.bind_eq_some_iff.mp done
      unfold World.fleetWant at done
      split at done
      · obtain ⟨runners, -, rfl⟩ := Option.map_eq_some_iff.mp done
        rfl
      · obtain rfl := Option.some.inj done
        rfl
  | died claim within limit =>
      obtain ⟨-, -, rfl⟩ := Option.map_eq_some_iff.mp done
      rfl
  | retry claim key retry again =>
      obtain ⟨-, done⟩ := Option.ite_none_right_eq_some.mp done
      obtain rfl := Option.some.inj done
      rfl
  | tick | heard | stop | told | asked | registered | launched | ended | runEnd | swept =>
      obtain rfl := Option.some.inj done
      rfl
  | gone | connect | disconnect | drop => cases ofFleet

/-- How a job stands after a step of the fleet: its deliveries alone say. -/
def World.standingAfter (world : World) (key : String × String) : Op → Option Standing
  | .job repoId job _ =>
      if key = job.key then Standing.hear (world.connected repoId) world.now job (world.standing key)
      else world.standing key
  | _ => world.standing key

/-- A delivery of a job is heard by its row; nothing else that the fleet does changes how a job stands. -/
theorem standing_step {quota : String → Quota} {world next : World} {op : Op} (ofFleet : op.ofFleet)
    (done : world.step quota op = some next) (key : String × String)
    : next.standing key = world.standingAfter key op := by
  cases op with
  | job repoId job class_ =>
      obtain ⟨-, -, rfl⟩ := Option.map_eq_some_iff.mp done
      exact world.standing_fleetJob repoId job class_ key
  | told repoId workflowRun trust | asked job =>
      obtain rfl := Option.some.inj done
      refine standing_update ?_ rfl ?_ key <;> exact fun _ => rfl
  | retry claim job retry again =>
      obtain ⟨-, done⟩ := Option.ite_none_right_eq_some.mp done
      obtain rfl := Option.some.inj done
      refine standing_update ?_ rfl ?_ key <;> exact fun _ => rfl
  | claim claim lease =>
      obtain ⟨-, done⟩ := Option.ite_none_left_eq_some.mp done
      obtain ⟨repo, -, rfl⟩ := Option.map_eq_some_iff.mp done
      rfl
  | finish | died =>
      obtain ⟨-, -, rfl⟩ := Option.map_eq_some_iff.mp done
      rfl
  | want id class_ name org trust =>
      obtain ⟨repo, -, done⟩ := Option.bind_eq_some_iff.mp done
      unfold World.fleetWant at done
      split at done
      · obtain ⟨runners, -, rfl⟩ := Option.map_eq_some_iff.mp done
        rfl
      · obtain rfl := Option.some.inj done
        rfl
  | tick | heard | due | stop | registered | launched | ended | runEnd | swept =>
      obtain rfl := Option.some.inj done
      rfl
  | gone | connect | disconnect | drop => cases ofFleet

theorem rank_le_hear (connected : Bool) (now : Nat) (job : Job) (was : Standing)
    : ∃ next ∈ Standing.hear connected now job (some was), was.state.rank ≤ next.state.rank := by
  unfold Standing.hear
  cases job.action with
  | queued => exact ⟨was, rfl, Nat.le_refl _⟩
  | inProgress =>
      by_cases queued : was.state = .queued
      · exact ⟨_, if_pos queued, by rw [queued]; exact Nat.zero_le _⟩
      · exact ⟨was, if_neg queued, Nat.le_refl _⟩
  | completed =>
      by_cases done : was.state = .done
      · exact ⟨was, if_neg (not_not_intro done), Nat.le_refl _⟩
      · exact ⟨_, if_pos done, by cases was.state <;> simp [JobState.rank]⟩

theorem rank_le_step {quota : String → Quota} {world next : World} {op : Op} (ofFleet : op.ofFleet)
    (done : world.step quota op = some next) {key : String × String} {was : Standing}
    (stood : was ∈ world.standing key)
    : ∃ after ∈ next.standing key, was.state.rank ≤ after.state.rank := by
  have same := standing_step ofFleet done key
  cases op with
  | job repoId job class_ =>
      rw [World.standingAfter, stood] at same
      rw [same]
      split_ifs
      · exact rank_le_hear _ _ job was
      · exact ⟨was, rfl, Nat.le_refl _⟩
  | _ => exact ⟨was, same.trans stood, Nat.le_refl _⟩

theorem runner_step {quota : String → Quota} {world next : World} {op : Op} (ofFleet : op.ofFleet)
    (done : world.step quota op = some next) {name : String} {row : Runner}
    (found : world.runners.get? name = some row)
    : ∃ after, next.runners.get? name = some after ∧ row.Moves after := by
  obtain moves | ⟨inserted, -⟩ := runners_step done
  · exact moves.kept name row found
  · obtain ⟨fresh, reads⟩ := Table.get?_insert inserted
    refine ⟨row, ?_, .refl row⟩
    rw [reads, if_neg]
    · exact found
    · intro same
      rw [← same, found] at fresh
      cases fresh
  · cases ofFleet

-- What was heard

/-- A delivery that was heard: the repository it was of, and when. -/
structure Heard where
  repoId
    : String
  now
    : Nat
  job
    : Job

def heardIn (key : String × String) (commit : Commit World Op) : Option Heard :=
  match commit.label with
  | .job repoId job _ => if key = job.key then some ⟨repoId, commit.before.now, job⟩ else none
  | _ => none

/-- The deliveries of a job, in the order they were heard. -/
def heardOf (key : String × String) (commits : List (Commit World Op)) : List Heard :=
  commits.filterMap (heardIn key)

def deliveries (key : String × String) (commits : List (Commit World Op)) : List (String × Job) :=
  (heardOf key commits).map fun heard => (heard.repoId, heard.job)

/-- How a job stands that was not known, once some deliveries were heard. -/
def Standing.after (connected : String → Bool) (heard : List Heard) : Option Standing :=
  heard.foldl (fun before one => Standing.hear (connected one.repoId) one.now one.job before) none

/-- How far a job is by the deliveries that were heard of it, whatever their order. -/
def stateOf (connected : String → Bool) (heard : List (String × Job)) : Option JobState :=
  if heard.any fun one => one.2.action = .completed then some .done
  else if heard.any fun one => one.2.action = .inProgress then some .running
  else if heard.any fun one => one.2.action = .queued ∧ connected one.1 then some .queued
  else none

theorem standing_linked {quota : String → Quota} {connected : String → Bool} {start last : World}
    {commits : List (Commit World Op)} (linked : Linked start commits last)
    (steps : ∀ commit ∈ commits, commit.label.ofFleet
      ∧ commit.before.step quota commit.label = some commit.after
      ∧ ∀ repoId, commit.before.connected repoId = connected repoId)
    (key : String × String)
    : last.standing key
      = (heardOf key commits).foldl
          (fun before one => Standing.hear (connected one.repoId) one.now one.job before)
          (start.standing key) := by
  induction commits generalizing start with
  | nil =>
      obtain rfl : start = last := linked
      rfl
  | cons commit rest ih =>
      obtain ⟨rfl, linked⟩ := linked
      obtain ⟨⟨ofFleet, done, same⟩, steps⟩ := List.forall_mem_cons.mp steps
      have stands := standing_step ofFleet done key
      rw [ih linked steps, heardOf, heardOf, List.filterMap_cons]
      cases label : commit.label with
      | job repoId job class_ =>
          simp only [label, same, heardIn, World.standingAfter] at stands ⊢
          by_cases here : key = job.key
          · rw [if_pos here] at stands
            rw [if_pos here, stands]
            rfl
          · rw [if_neg here] at stands
            rw [if_neg here, stands]
      | _ =>
          simp only [label, heardIn, World.standingAfter] at stands ⊢
          rw [stands]

/-- How far a job is once a delivery was heard, by how far it was. -/
def JobState.hear (connected : Bool) : JobAction → Option JobState → Option JobState
  | .queued, none => if connected then some .queued else none
  | .queued, some was => some was
  | .inProgress, some .done => some .done
  | .inProgress, _ => some .running
  | .completed, _ => some .done

theorem state_hear (connected : Bool) (now : Nat) (job : Job) (before : Option Standing)
    : (Standing.hear connected now job before).map Standing.state
      = JobState.hear connected job.action (before.map Standing.state) := by
  unfold Standing.hear
  cases job.action with
  | queued =>
      cases before with
      | none => cases connected <;> rfl
      | some was => rfl
  | inProgress | completed =>
      cases before with
      | none => rfl
      | some was =>
          obtain ⟨state, runnerName, startedAt, finishedAt⟩ := was
          cases state <;> rfl

theorem stateOf_concat (connected : String → Bool) (heard : List (String × Job)) (one : String × Job)
    : stateOf connected (heard ++ [one])
      = JobState.hear (connected one.1) one.2.action (stateOf connected heard) := by
  simp only [stateOf, List.any_append, List.any_cons, List.any_nil, Bool.or_false]
  cases heard.any fun one => decide (one.2.action = .completed)
    <;> cases heard.any fun one => decide (one.2.action = .inProgress)
    <;> cases heard.any fun one => decide (one.2.action = .queued ∧ connected one.1)
    <;> cases connected one.1 <;> cases one.2.action <;> rfl

theorem state_after (connected : String → Bool) (heard : List Heard)
    : (Standing.after connected heard).map Standing.state
      = stateOf connected (heard.map fun one => (one.repoId, one.job)) := by
  induction heard using List.reverseRecOn with
  | nil => rfl
  | append_singleton heard one ih =>
      rw [Standing.after, List.foldl_append, ← Standing.after, List.foldl_cons, List.foldl_nil, state_hear, ih,
        List.map_append, List.map_singleton, stateOf_concat]

theorem stateOf_congr {connected : String → Bool} {heard other : List (String × Job)}
    (same : ∀ one, one ∈ heard ↔ one ∈ other)
    : stateOf connected heard = stateOf connected other := by
  have any (test : String × Job → Bool) : heard.any test = other.any test := by
    rw [Bool.eq_iff_iff, List.any_eq_true, List.any_eq_true]
    simp only [same]
  rw [stateOf, stateOf, any, any, any]

/-- All that a delivery does to how a job stands: it leaves it, or has it wait, run or be done. -/
theorem hear_cases {connected : Bool} {now : Nat} {job : Job} {before : Option Standing} {standing : Standing}
    (stands : standing ∈ Standing.hear connected now job before)
    : before = some standing
      ∨ standing = ⟨.queued, none, none, none⟩
      ∨ (job.action = .inProgress ∧ (∀ was ∈ before, was.state = .queued)
          ∧ standing = ⟨.running, job.runnerName, some now, before.bind Standing.finishedAt⟩)
      ∨ (job.action = .completed
          ∧ standing = ⟨.done, job.runnerName.or (before.bind Standing.runnerName),
              before.bind Standing.startedAt, some now⟩) := by
  unfold Standing.hear at stands
  split at stands
  next =>
    obtain ⟨-, stands⟩ := Option.ite_none_right_eq_some.mp stands
    exact Or.inr (Or.inl (Option.some.inj stands).symm)
  next => exact Or.inl stands
  next action => exact Or.inr (Or.inr (Or.inl ⟨action, nofun, (Option.some.inj stands).symm⟩))
  next was action =>
    split at stands
    next queued =>
      exact Or.inr (Or.inr (Or.inl ⟨action, fun _ same => Option.some.inj same ▸ queued,
        (Option.some.inj stands).symm⟩))
    next => exact Or.inl stands
  next action => exact Or.inr (Or.inr (Or.inr ⟨action, (Option.some.inj stands).symm⟩))
  next was action =>
    split at stands
    next => exact Or.inr (Or.inr (Or.inr ⟨action, (Option.some.inj stands).symm⟩))
    next => exact Or.inl stands

theorem finished_after (connected : String → Bool) (heard : List Heard)
    : ∀ standing ∈ Standing.after connected heard,
      standing.finishedAt.isSome ↔ standing.state = .done := by
  induction heard using List.reverseRecOn with
  | nil => nofun
  | append_singleton heard one ih =>
      rw [Standing.after, List.foldl_append, ← Standing.after, List.foldl_cons, List.foldl_nil]
      intro standing stands
      obtain same | rfl | ⟨-, queued, rfl⟩ | ⟨-, rfl⟩ := hear_cases stands
      · exact ih standing same
      · simp
      · cases before : Standing.after connected heard with
        | none => simp
        | some was => simpa [queued was before] using ih was before
      · simp

/-- A job of whose runner its deliveries name one, or none, has it unless it waits, by induction from the last
delivery.
-/
theorem runner_after (connected : String → Bool) {heard : List Heard} {name : Option String}
    (named : ∀ one ∈ heard, one.job.action ≠ .queued → one.job.runnerName = name)
    : ∀ standing ∈ Standing.after connected heard,
      standing.runnerName = if standing.state = .queued then none else name := by
  induction heard using List.reverseRecOn with
  | nil => nofun
  | append_singleton heard one ih =>
      obtain ⟨earlier, last⟩ := List.forall_mem_append.mp named
      have own := last one List.mem_cons_self
      rw [Standing.after, List.foldl_append, ← Standing.after, List.foldl_cons, List.foldl_nil]
      intro standing stands
      obtain same | rfl | ⟨action, -, rfl⟩ | ⟨action, rfl⟩ := hear_cases stands
      · exact ih earlier standing same
      · rfl
      · exact own (by rw [action]; nofun)
      · rw [own (by rw [action]; nofun)]
        cases before : Standing.after connected heard with
        | none => simp
        | some was =>
            have had := ih earlier was before
            by_cases queued : was.state = .queued
            · simp [had, queued]
            · simp [had, queued]

-- Whole runs

variable {quota : String → Quota} {repos : Table Repo} {commits : List (Commit World Op)} {world : World}

def connectedIn (repos : Table Repo) (repoId : String) : Bool :=
  ({ repos } : World).connected repoId

/-- Each commit of a run of deliveries and looks is a step of the fleet, and the repositories stay as they are. -/
theorem steps_of_history
    (history : (fleetSystem quota repos).History (fun op _ => op.ofFleet) { repos } commits world)
    : ∀ commit ∈ commits, commit.label.ofFleet
      ∧ commit.before.step quota commit.label = some commit.after
      ∧ ∀ repoId, commit.before.connected repoId = connectedIn repos repoId := by
  have rule := @System.History.rule _ _ _ _
    (fun world => ∀ repoId, world.connected repoId = connectedIn repos repoId)
    (fun commit => commit.label.ofFleet ∧ commit.before.step quota commit.label = some commit.after)
    _ _ _ history (fun _ => rfl) ?_
  · exact fun commit member => ⟨(rule.2 commit member).2.2.1, (rule.2 commit member).2.2.2, (rule.2 commit member).1⟩
  · intro op origin same commit member _ ofFleet
    obtain ⟨next, done, rfl⟩ := mem_commitsFrom_toList.mp member
    exact ⟨fun repoId => (connected_step ofFleet done repoId).trans (same repoId), ofFleet, done⟩

theorem standing_of_history
    (history : (fleetSystem quota repos).History (fun op _ => op.ofFleet) { repos } commits world)
    (key : String × String)
    : world.standing key = Standing.after (connectedIn repos) (heardOf key commits) :=
  standing_linked history.linked (steps_of_history history) key

theorem runner_of_history
    (history : (fleetSystem quota repos).History (fun op _ => op.ofFleet) { repos } commits world)
    {key : String × String} {name : Option String}
    (named : ∀ one ∈ deliveries key commits, one.2.action ≠ .queued → one.2.runnerName = name)
    : (world.standing key).map Standing.runnerName
      = ((world.standing key).map Standing.state).map fun state => if state = .queued then none else name := by
  have each : ∀ one ∈ heardOf key commits, one.job.action ≠ .queued → one.job.runnerName = name :=
    fun one heard => named (one.repoId, one.job) (List.mem_map_of_mem heard)
  have has := runner_after (connectedIn repos) each
  rw [standing_of_history history, Option.map_map]
  exact Option.map_congr has

theorem runId_of_history
    (history : (fleetSystem quota repos).History (fun op _ => op.ofFleet) { repos } commits world)
    {commit : Commit World Op} (member : commit ∈ commits) {name runId : String}
    (launched : commit.label = .launched name runId) {row : Runner}
    (found : commit.before.runners.get? name = some row) (wanted : row.state = .wanted)
    : ∃ after, world.runners.get? name = some after ∧ after.runId = some runId := by
  have steps := steps_of_history history
  obtain ⟨early, late, rfl⟩ := List.append_of_mem member
  have kept := @System.History.carry _ _ _ _ (fun world => ∃ row, world.runners.get? name = some row
    ∧ row.state ≠ .wanted ∧ row.runId = some runId) _ _ _ _ _ history ?_ ?_
  · obtain ⟨⟨after, found, -, is⟩, -⟩ := kept
    exact ⟨after, found, is⟩
  · rintro later among ⟨row, found, started, is⟩
    obtain ⟨ofFleet, done, -⟩ := steps later (by simp [among])
    obtain ⟨after, found, moves⟩ := runner_step ofFleet done found
    obtain ⟨started, same⟩ := moves.runId started
    exact ⟨after, found, started, same.trans is⟩
  · obtain ⟨-, done, -⟩ := steps commit member
    rw [launched] at done
    obtain same := Option.some.inj done
    have key : Keyed.key row = name := Table.key_of_get? found
    refine ⟨{ row with state := .launched, runId := some runId, launchedAt := some commit.before.now }, ?_,
      nofun, rfl⟩
    rw [← same, World.fleetLaunched, World.fleetRunner, Table.get?_update, found, Option.map_some, if_pos ⟨key, wanted⟩]

def oneRepo : Table Repo :=
  ⟨[{ id := "repo", forge := "github", forgeHost := "github.com", fullName := "acme/widgets", cell := "default" }],
    by decide⟩

/-- A delivery of one job, of which a runner is named that has it. -/
def delivered (action : JobAction) : Job where
  forgeHost := "github.com"
  action := action
  id := 1
  runId := 77
  runAttempt := 1
  name := "build"
  workflow := none
  labels := ["dagron"]
  headSha := "4b47"
  runnerName := if action = .queued then none else some "dagron-a"
  conclusion := if action = .completed then some "success" else none

def unlimited (_ : String) : Quota :=
  {}

def oneFleet : System World Op :=
  fleetSystem unlimited oneRepo

theorem oneFleet_history {ops : List Op} (permits : oneFleet.Permits (fun op _ => op.ofFleet) { repos := oneRepo } ops)
    : oneFleet.History (fun op _ => op.ofFleet) { repos := oneRepo } (oneFleet.trace { repos := oneRepo } ops)
        (oneFleet.outcome { repos := oneRepo } ops) :=
  .whole .start permits

/-- A runner that is wanted for the job, before it is launched. -/
def wantedRunner : Runner where
  name := "dagron-a"
  repoId := "repo"
  class_ := "dagron"
  cell := "default"
  org := none
  trust := .trusted
  state := .wanted
  createdAt := 0

/-- A runner is wanted for a job that waits, and launched; then it starts the job. -/
def launchedRun : List Op :=
  [.job "repo" (delivered .queued) "dagron", .want "repo" "dagron" "dagron-a" none .trusted,
    .launched "dagron-a" "run-1", .job "repo" (delivered .inProgress) "dagron"]

def inOrder : List Op :=
  [.job "repo" (delivered .inProgress) "dagron", .job "repo" (delivered .completed) "dagron"]

def outOfOrder : List Op :=
  inOrder.reverse

theorem same_deliveries (one : String × Job)
    : one ∈ deliveries ("github.com", "1") (oneFleet.trace { repos := oneRepo } inOrder)
      ↔ one ∈ deliveries ("github.com", "1") (oneFleet.trace { repos := oneRepo } outOfOrder) := by
  have first : deliveries ("github.com", "1") (oneFleet.trace { repos := oneRepo } inOrder)
      = [("repo", delivered .inProgress), ("repo", delivered .completed)] := rfl
  have second : deliveries ("github.com", "1") (oneFleet.trace { repos := oneRepo } outOfOrder)
      = [("repo", delivered .completed), ("repo", delivered .inProgress)] := rfl
  rw [first, second]
  simp [or_comm]

end Dagron.Fleet
