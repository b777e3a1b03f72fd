import Dagron.Fleet.Looks

/-! The retention pass forgets the jobs that are closed, each once it was closed long enough ago, and no other, as
long as no repository is disconnected while a job of it waits: such a job is closed without a time.
-/

namespace Dagron.Fleet

open Dagron.Library

variable {quota : String → Quota} {world next : World} {op : Op}

-- Since when a job is over

/-- Whether nothing is to be done for a job any more: it is over, and is not due to be run again. -/
def FleetJob.closed (row : FleetJob) : Prop :=
  row.state = .done ∧ row.retry ≠ some .due

instance (row : FleetJob) : Decidable row.closed :=
  inferInstanceAs (Decidable (_ ∧ _))

/-- The rows, watched: since when each job has been over, whatever its row says of that. -/
structure Watched where
  world
    : World := {}
  since
    : String × String → Option Nat := fun _ => none

/-- What is seen as a step ends: a job that was over still is since then, and one that is over now is from now. -/
def Watched.see (before : Watched) (next : World) : Watched where
  world := next
  since key :=
    if (next.standing key).map Standing.state = some .done then
      some (if (before.world.standing key).map Standing.state = some .done then
        (before.since key).getD next.now
      else next.now)
    else none

def watchedSystem (quota : String → Quota) : System Watched Op where
  init := {}
  commits op watched := (watched.world.step quota op).toList.map watched.see

/-- Whether a retention pass forgets each closed job that has been over since before its horizon, and keeps each
job that is open.
-/
def Watched.ForgetsAt (watched : Watched) (horizon : Nat) : Prop :=
  ∀ key row, watched.world.jobs.get? key = some row →
    (row.closed → ∃ since ∈ watched.since key, since ≤ watched.world.now
      ∧ (since < horizon → (watched.world.dropFleetBefore horizon).jobs.get? key = none))
    ∧ (¬ row.closed → (watched.world.dropFleetBefore horizon).jobs.get? key = some row)

def Watched.Forgets (watched : Watched) : Prop :=
  ∀ horizon, watched.ForgetsAt horizon

/-- A step that closes no job without a time: it disconnects no repository that a job of waits. -/
def Op.dates (op : Op) (world : World) : Prop :=
  match op with
  | .disconnect forgeHost fullName =>
      ∀ repo ∈ world.repos.rows,
        repo.forgeHost = forgeHost ∧ repo.fullName = fullName ∧ repo.disconnectedAt = none →
        ∀ job ∈ world.jobs.rows, job.repoId = repo.id → job.state ≠ .queued
  | _ => True

instance (op : Op) (world : World) : Decidable (op.dates world) := by
  unfold Op.dates
  split <;> infer_instance

-- What one step does to a job that is over

/-- A job that is over after a step stood so before it, or was not over and ended in the step. -/
def EndsIn (before : Option Standing) (now : Nat) (after : Standing) : Prop :=
  before = some after ∨ before.map Standing.state ≠ some .done ∧ after.finishedAt = some now

theorem endsIn_hear {connected : Bool} {now : Nat} {job : Job} {before : Option Standing} {after : Standing}
    (heard : Standing.hear connected now job before = some after) (ended : after.state = .done)
    : EndsIn before now after := by
  unfold Standing.hear at heard
  split at heard
  · split at heard
    · obtain rfl := Option.some.inj heard
      cases ended
    · cases heard
  · exact .inl heard
  · obtain rfl := Option.some.inj heard
    cases ended
  · split at heard
    · obtain rfl := Option.some.inj heard
      cases ended
    · exact .inl heard
  · obtain rfl := Option.some.inj heard
    exact .inr ⟨nofun, rfl⟩
  · split at heard
    next live =>
      obtain rfl := Option.some.inj heard
      exact .inr ⟨fun was => live (Option.some.inj was), rfl⟩
    next => exact .inl heard

/-- A step that closes no job without a time leaves each that is over with the time it ended. -/
theorem endsIn_step (dates : op.dates world) (done : world.step quota op = some next) {key : String × String}
    {after : Standing} (stands : next.standing key = some after) (ended : after.state = .done)
    : EndsIn (world.standing key) next.now after := by
  by_cases ofFleet : op.ofFleet
  · rw [standing_step ofFleet done key] at stands
    cases op with
    | job repoId job class_ =>
        obtain ⟨-, -, rfl⟩ := Option.map_eq_some_iff.mp done
        dsimp only [World.standingAfter] at stands
        split at stands
        · exact endsIn_hear stands ended
        · exact .inl stands
    | _ => exact .inl stands
  · cases op with
    | gone job =>
        obtain rfl := Option.some.inj done
        rw [World.standing, World.fleetJobGone, Table.get?_update, Option.map_map] at stands
        obtain ⟨row, found, rfl⟩ := Option.map_eq_some_iff.mp stands
        rw [World.standing, found]
        dsimp only [Function.comp] at ended ⊢
        by_cases live : Keyed.key row = job ∧ row.state ≠ .done
        · refine .inr ⟨fun was => live.2 (Option.some.inj was), ?_⟩
          rw [if_pos live]
          rfl
        · rw [if_neg live]
          exact .inl rfl
    | connect repo =>
        change world.connectRepo repo = some next at done
        unfold World.connectRepo at done
        split at done
        · obtain rfl := Option.some.inj done
          exact .inl stands
        · obtain ⟨repos, -, rfl⟩ := Option.map_eq_some_iff.mp done
          exact .inl stands
    | disconnect forgeHost fullName =>
        obtain ⟨was, found, rfl⟩ := Option.map_eq_some_iff.mp done
        have named := List.find?_some found
        -- No job of the repository waits, so that none is closed.
        have quiet := dates was (List.mem_of_find?_eq_some found) (of_decide_eq_true named)
        dsimp only [World.standing] at stands
        rw [Table.update_none (fun row there waits => quiet row there waits.1 waits.2)] at stands
        exact .inl stands
    | drop horizon =>
        obtain rfl := Option.some.inj done
        rw [World.standing, World.dropFleetBefore, Table.get?_delete] at stands
        obtain ⟨row, kept, rfl⟩ := Option.map_eq_some_iff.mp stands
        rw [World.standing, (Option.filter_eq_some_iff.mp kept).1]
        exact .inl rfl
    | _ => exact absurd rfl ofFleet

-- Closed jobs are forgotten

/-- Each job that is over says when it ended, and has been over since then or later. -/
def Watched.Dated (watched : Watched) : Prop :=
  ∀ key standing, watched.world.standing key = some standing → standing.state = .done →
    ∃ finished ∈ standing.finishedAt, ∃ since ∈ watched.since key,
      finished ≤ since ∧ since ≤ watched.world.now

theorem now_step (done : world.step quota op = some next)
    : world.now ≤ next.now := by
  cases op with
  | tick passed =>
      obtain rfl := Option.some.inj done
      exact Nat.le_add_right _ passed
  | job | finish | died | disconnect =>
      obtain ⟨-, -, rfl⟩ := Option.map_eq_some_iff.mp done
      exact Nat.le_refl _
  | claim claim lease =>
      obtain ⟨-, done⟩ := Option.ite_none_left_eq_some.mp done
      obtain ⟨-, -, rfl⟩ := Option.map_eq_some_iff.mp done
      exact Nat.le_refl _
  | want repoId class_ name org trust =>
      obtain ⟨repo, -, done⟩ := Option.bind_eq_some_iff.mp done
      unfold World.fleetWant at done
      split at done
      · obtain ⟨-, -, rfl⟩ := Option.map_eq_some_iff.mp done
        exact Nat.le_refl _
      · obtain rfl := Option.some.inj done
        exact Nat.le_refl _
  | retry claim key retry again =>
      obtain ⟨-, done⟩ := Option.ite_none_right_eq_some.mp done
      obtain rfl := Option.some.inj done
      exact Nat.le_refl _
  | connect repo =>
      change world.connectRepo repo = some next at done
      unfold World.connectRepo at done
      split at done
      · obtain rfl := Option.some.inj done
        exact Nat.le_refl _
      · obtain ⟨-, -, rfl⟩ := Option.map_eq_some_iff.mp done
        exact Nat.le_refl _
  | heard | due | stop | told | asked | gone | registered | launched | ended | runEnd | swept | drop =>
      obtain rfl := Option.some.inj done
      exact Nat.le_refl _

theorem Watched.Dated.step {watched : Watched} (dated : watched.Dated) (dates : op.dates watched.world)
    (done : watched.world.step quota op = some next)
    : (watched.see next).Dated := by
  intro key standing stands ended
  have now := now_step done
  have state : (next.standing key).map Standing.state = some .done := by
    rw [show next.standing key = some standing from stands, Option.map_some, ended]
  have seen : (watched.see next).since key
      = some (if (watched.world.standing key).map Standing.state = some .done then
          (watched.since key).getD next.now else next.now) :=
    if_pos state
  obtain stood | ⟨live, stamped⟩ := endsIn_step dates done stands ended
  · obtain ⟨finished, is, since, has, early, late⟩ := dated key standing stood ended
    refine ⟨finished, is, since, ?_, early, Nat.le_trans late now⟩
    rw [seen, stood, Option.map_some, ended, if_pos rfl, has]
    rfl
  · refine ⟨next.now, stamped, next.now, ?_, Nat.le_refl _, Nat.le_refl _⟩
    rw [seen, if_neg live]
    rfl

/-- Where each job that is over says when it ended, a retention pass forgets what is closed, and no more. -/
theorem Watched.Dated.forgets {watched : Watched} (dated : watched.Dated)
    : watched.Forgets := by
  intro horizon key row found
  have stands : watched.world.standing key = some row.standing := by
    rw [World.standing, found]
    rfl
  have dropped : (watched.world.dropFleetBefore horizon).jobs.get? key
      = (watched.world.jobs.get? key).filter fun row =>
          ¬ (row.state = .done ∧ (∃ finished ∈ row.finishedAt, finished < horizon)
            ∧ row.retry ≠ some .due) :=
    Table.get?_delete key
  rw [dropped, found]
  constructor
  · rintro ⟨ended, settled⟩
    obtain ⟨finished, is, since, has, early, late⟩ := dated key row.standing stands ended
    refine ⟨since, has, late, fun old => ?_⟩
    have past : ∃ finished ∈ row.finishedAt, finished < horizon := ⟨finished, is, Nat.lt_of_le_of_lt early old⟩
    rw [Option.filter_some, if_neg]
    simp only [ended, past, settled, ne_eq, not_false_eq_true, and_self, not_true_eq_false, decide_false,
      Bool.false_eq_true]
  · intro open_
    rw [Option.filter_some, if_pos]
    exact decide_eq_true fun all => open_ ⟨all.1, all.2.2⟩

/-- Closed jobs are forgotten in the end, and no open one is. In every run of deliveries, of any lookers' steps and
of what is done to repositories, none of which is disconnected while a job of it waits, each job that is closed has
been over since some time, and a retention pass whose horizon is past that time removes its row; and no retention
pass removes the row of a job that is open.
-/
theorem closed_jobs_are_forgotten {commits : List (Commit Watched Op)} {watched : Watched}
    (history : (watchedSystem quota).History (fun op watched => op.dates watched.world) {} commits watched)
    : watched.Forgets
      ∧ ∀ commit ∈ commits, commit.before.Forgets := by
  have rule := @System.History.rule _ _ _ _ Watched.Dated (fun _ => True) _ _ _ history ?_ ?_
  · exact ⟨rule.1.forgets, fun commit member => (rule.2 commit member).1.forgets⟩
  · exact fun key standing stands => nomatch stands
  · intro op origin before commit member dated dates
    dsimp only [watchedSystem] at member
    cases done : origin.world.step quota op with
    | none =>
        rw [done] at member
        cases member
    | some next =>
        rw [done] at member
        obtain rfl := mem_commitsFrom_singleton.mp member
        exact ⟨before.step dates done, trivial⟩

-- A job that is forgotten, and one that is kept for ever

/-- A repository is disconnected while a job of it runs, whose end is heard after that; a day passes. -/
def endsAway : List Op :=
  [.connect widgets, .job "repo" (failing .queued) "dagron", .job "repo" (failing .inProgress) "dagron",
    .disconnect "github.com" "acme/widgets", .job "repo" (failing .completed) "dagron", .tick 86400000]

/-- A repository is disconnected while a job of it waits; a day passes. -/
def closedWaiting : List Op :=
  [.connect widgets, .job "repo" (failing .queued) "dagron", .disconnect "github.com" "acme/widgets",
    .tick 86400000]

theorem closed_jobs_are_forgotten_endsAway
    : let watched := (watchedSystem unlimited).outcome {} endsAway
      watched.since ("github.com", "1") = some 0
        ∧ (watched.world.dropFleetBefore 1).jobs.get? ("github.com", "1") = none := by
  have kept := (closed_jobs_are_forgotten (@System.History.whole _ _ (watchedSystem unlimited)
    (fun op watched => op.dates watched.world) _ _ _ .start endsAway (by decide +kernel))).1
  have since : ((watchedSystem unlimited).outcome {} endsAway).since ("github.com", "1") = some 0 := by
    decide +kernel
  have closed : ∃ row, ((watchedSystem unlimited).outcome {} endsAway).world.jobs.get? ("github.com", "1")
      = some row ∧ row.closed := by
    refine ⟨_, rfl, ?_⟩
    decide +kernel
  obtain ⟨row, found, closed⟩ := closed
  obtain ⟨at_, is, -, forgotten⟩ := (kept 1 ("github.com", "1") row found).1 closed
  obtain rfl := Option.some.inj (since.symm.trans is)
  exact ⟨since, forgotten (by decide)⟩

/-- A job that waited as its repository was disconnected is closed, and no retention pass removes its row. -/
theorem a_closed_job_is_kept
    : ¬ ∀ (quota : String → Quota) commits watched,
        (watchedSystem quota).History (fun _ _ => True) {} commits watched →
        watched.Forgets ∧ ∀ commit ∈ commits, commit.before.Forgets := by
  intro forgets
  have kept := (forgets unlimited _ _ (@System.History.whole _ _ (watchedSystem unlimited)
    (fun _ _ => True) _ _ _ .start closedWaiting (by decide +kernel))).1
  have closed : ∃ row, ((watchedSystem unlimited).outcome {} closedWaiting).world.jobs.get? ("github.com", "1")
      = some row ∧ row.closed := by
    refine ⟨_, rfl, ?_⟩
    decide +kernel
  obtain ⟨row, found, closed⟩ := closed
  obtain ⟨since, is, -, forgotten⟩ := (kept 86400000 ("github.com", "1") row found).1 closed
  have early : since < 86400000 := by
    have read : ((watchedSystem unlimited).outcome {} closedWaiting).since ("github.com", "1") = some 0 := by
      decide +kernel
    obtain rfl := Option.some.inj (read.symm.trans is)
    decide
  have there : (((watchedSystem unlimited).outcome {} closedWaiting).world.dropFleetBefore 86400000).jobs.get?
      ("github.com", "1") ≠ none := by
    decide +kernel
  exact there (forgotten early)

end Dagron.Fleet
