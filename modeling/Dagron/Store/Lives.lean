import Dagron.Store.Progress

/-! What tasks and runs go through over whole histories: no task gets anywhere without an attempt, no row of a run's
own goes, and no run is made anything else. The purge of runs that ended long ago is no operation here.
-/

namespace Dagron.Store

open Dagron.Library

-- What is begun

/-- Whether a task may run: it is a barrier, which nobody claims, or an attempt of it was claimed. -/
def Life.Begun (life : Life) : Prop :=
  life.columns.fanoutOf.isSome ∨ 0 < life.attempt

/-- What a task has that stands where it does: none waits, asks or is skipped with an attempt, only gates ask, and
what runs, is held or has succeeded was begun, or was approved; and it had no more attempts than versions.
-/
structure Life.Earned (life : Life) : Prop where
  waits
    : life.status = .pending → life.attempt = 0
  asks
    : life.status = .awaitingApproval → life.attempt = 0 ∧ life.columns.isApproval = true
  skipped
    : life.status = .skipped → life.attempt = 0
  runs
    : life.status = .running → life.Begun
  held
    : life.claimedBy.isSome → life.Begun
  succeeded
    : life.status = .succeeded → life.Begun ∨ life.columns.isApproval = true
  counted
    : life.attemptBase + life.attempt ≤ life.version

theorem Life.Fresh.earned {life : Life} (fresh : life.Fresh)
    : life.Earned := by
  have unheld : life.claimedBy.isSome → life.Begun := fun held => by
    rw [fresh.claimedBy] at held
    cases held
  have counted : life.attemptBase + life.attempt ≤ life.version := by simp [fresh.attempts]
  rcases fresh.start with ⟨pending, _⟩ | ⟨ready, _⟩
  · refine ⟨fun _ => fresh.attempts.1, ?_, ?_, ?_, unheld, ?_, counted⟩ <;> rw [pending] <;> exact nofun
  · refine ⟨?_, ?_, ?_, ?_, unheld, ?_, counted⟩ <;> rw [ready] <;> exact nofun

theorem Life.Step.counted {move : Move} {life life' : Life} (step : Life.Step move life life')
    (counted : life.attemptBase + life.attempt ≤ life.version)
    : life'.attemptBase + life'.attempt ≤ life'.version := by
  cases step with
  | claim => exact Nat.succ_le_succ counted
  | requeue | claimTeardown | stamp => exact Nat.le_succ_of_le counted
  | cancel _ _ _ later => exact counted.trans later
  | retry _ _ attempt back =>
      dsimp only
      omega
  | retryFromUi | reset =>
      dsimp only
      split <;> omega
  | _ => exact counted

theorem Life.Step.earned {move : Move} {life life' : Life} (step : Life.Step move life life')
    (earned : life.Earned)
    : life'.Earned := by
  obtain ⟨waits, asks, skipped, runs, held, succeeded, counted⟩ := earned
  have counted := step.counted counted
  cases step with
  | count | recount | renew | askStop | clearStop | stamp | clearHandle =>
      exact ⟨waits, asks, skipped, runs, held, succeeded, counted⟩
  | ready | failWhen => exact ⟨nofun, nofun, nofun, nofun, held, nofun, counted⟩
  | ask pending _ gate => exact ⟨nofun, fun _ => ⟨waits pending, gate.2⟩, nofun, nofun, held, nofun, counted⟩
  | skip pending => exact ⟨nofun, nofun, fun _ => waits pending, nofun, held, nofun, counted⟩
  | parkBarrier _ _ barrier => exact ⟨nofun, nofun, nofun, fun _ => .inl barrier, nofun, nofun, counted⟩
  | claim =>
      have begun : 0 < life.attempt + 1 := Nat.succ_pos _
      exact ⟨nofun, nofun, nofun, fun _ => .inr begun, fun _ => .inr begun, nofun, counted⟩
  | recover | fail | retry | release | requeue | cancel | settle | retryFromUi =>
      exact ⟨nofun, nofun, nofun, nofun, nofun, nofun, counted⟩
  | succeed claimed => exact ⟨nofun, nofun, nofun, nofun, nofun, fun _ => .inl (held claimed), counted⟩
  | park => exact ⟨waits, asks, skipped, runs, nofun, succeeded, counted⟩
  | claimTeardown running => exact ⟨waits, asks, skipped, runs, fun _ => runs running, succeeded, counted⟩
  | resolve well running | finishBarrier well running =>
      cases well with
      | true => exact ⟨nofun, nofun, nofun, nofun, held, fun _ => .inl (runs running), counted⟩
      | false => exact ⟨nofun, nofun, nofun, nofun, held, nofun, counted⟩
  | decide approved asking =>
      cases approved with
      | true => exact ⟨nofun, nofun, nofun, nofun, held, fun _ => .inr (asks asking).2, counted⟩
      | false => exact ⟨nofun, nofun, nofun, nofun, held, nofun, counted⟩
  | reset => exact ⟨fun _ => rfl, nofun, nofun, nofun, nofun, nofun, counted⟩

/-- In every state that is reached, a task that runs, is held or has succeeded was begun by a claim since it last
waited, unless it is a barrier or an approved gate; and one that waits, asks or was skipped has no attempt.
-/
theorem every_end_is_earned {env : Env} {world : World}
    (reached : (store env).Reachable (fun _ _ => True) world) {id : Nat} {task : TaskRow}
    (found : world.db.task? id = some task)
    : task.life.Earned := by
  have all : ∀ id task, world.db.task? id = some task → task.life.Earned := by
    refine @System.Reachable.invariant _ _ _ _
      (fun world => ∀ id task, world.db.task? id = some task → task.life.Earned) _ reached ?_ ?_
    · intro id task found
      cases found
    · intro op origin _ commit member before _
      exact (writes_of_mem member).evolves.rule Life.Earned (fun _ => Life.Fresh.earned)
        (fun _ _ _ _ step => step.earned) before
  exact all id task found

/-- The first task of a run that was seen through succeeded, and was begun. -/
theorem every_end_is_earned_reportDone
    : ((((store plainEnv).outcome .init reportDone).db.task? 0).get (by decide)).life.Earned :=
  every_end_is_earned (.outcome (by decide)) (Option.some_get _).symm

-- What stays

/-- What a life keeps of an earlier one: its version never falls, and where it is the same one and is held, it is held
by the same worker with the same attempts.
-/
structure Life.Keeps (earlier life : Life) : Prop where
  later
    : earlier.version ≤ life.version
  stands
    : life.version = earlier.version → life.claimedBy = none ∨ (life.claimedBy = earlier.claimedBy
        ∧ life.attempt = earlier.attempt ∧ life.attemptBase = earlier.attemptBase)

theorem Life.Step.keeps {earlier life life' : Life} {move : Move} (step : Life.Step move life life')
    (keeps : earlier.Keeps life)
    : earlier.Keeps life' := by
  refine ⟨keeps.later.trans step.version_le, fun same => ?_⟩
  have was : life.version = earlier.version := Nat.le_antisymm (same ▸ step.version_le) keeps.later
  have stands := keeps.stands was
  cases step with
  | claim | requeue | claimTeardown | stamp | retryFromUi | reset =>
      have same : life.version + 1 = earlier.version := same
      omega
  | parkBarrier | recover | succeed | fail | retry | park | release | cancel | settle => exact .inl rfl
  | _ => exact stands

/-- In every history from any state, a task that is no instance of a fan-out stays, with the columns it was made
with; and a claim of it that stands is held by the worker that held it, with the attempt that it began.
-/
theorem own_tasks_stay {env : Env} {start world : World} {commits : List (Commit World Op)}
    (history : (store env).History (fun _ _ => True) start commits world) {id : Nat} {task : TaskRow}
    (found : start.db.task? id = some task) (own : task.fanoutParent = none)
    : ∃ row, world.db.task? id = some row ∧ row.toTaskColumns = task.toTaskColumns
        ∧ task.life.Keeps row.life := by
  let Stays (world : World) : Prop := ∃ row, world.db.task? id = some row
    ∧ row.toTaskColumns = task.toTaskColumns ∧ task.life.Keeps row.life
  have whole : Stays world ∧ ∀ commit ∈ commits, Stays commit.before ∧ Stays commit.after ∧ True := by
    refine history.rule ⟨task, found, rfl, le_refl _, fun _ => .inr ⟨rfl, rfl, rfl⟩⟩ ?_
    intro op origin _ commit member ⟨row, was, columns, keeps⟩ _
    have evolves := (writes_of_mem member).evolves
    cases is : commit.after.db.task? id with
    | none =>
        have instance_ : row.toTaskColumns.fanoutParent.isSome := evolves.dropped was is
        rw [columns, own] at instance_
        cases instance_
    | some row' =>
        have steps := evolves.kept was is
        have keeps := steps.rule task.life.Keeps keeps fun _ _ _ _ step => step.keeps
        exact ⟨⟨row', is, steps.columns.1.trans columns, keeps⟩, trivial⟩
  exact whole.1

/-- The first task of a run is still there once the run was seen through. -/
theorem own_tasks_stay_reportDone
    : ∃ row, ((store plainEnv).outcome ((store plainEnv).outcome .init (reportDone.take 1))
          (reportDone.drop 1)).db.task? 0 = some row ∧ row.fanoutParent = none := by
  have permits : (store plainEnv).Permits (fun _ _ => True)
      ((store plainEnv).outcome .init (reportDone.take 1)) (reportDone.drop 1) := by decide
  obtain ⟨row, found, columns, _⟩ := own_tasks_stay (.whole .start permits)
    (Option.some_get (by decide : (((store plainEnv).outcome .init (reportDone.take 1)).db.task? 0).isSome)).symm
    (by decide)
  exact ⟨row, found, congrArg TaskColumns.fanoutParent columns⟩

/-- In every state that is reached, every task is of a run that is there, and each dependency is between two tasks of
one run.
-/
theorem rows_belong_together {env : Env} {world : World} (reached : (store env).Reachable (fun _ _ => True) world)
    : world.db.Sited := by
  refine @System.Reachable.invariant _ _ _ _ (fun world => world.db.Sited) _ reached Db.Coherent.empty.sited ?_
  intro op origin _ commit member before _
  exact (writes_of_mem member).sited before

theorem rows_belong_together_reportDone
    : ((store plainEnv).outcome .init reportDone).db.Sited :=
  rows_belong_together (.outcome (by decide))

theorem RunLife.Steps.told_prefix {moves : List RunMove} {life life' : RunLife} (steps : RunLife.Steps moves life life')
    : life.told <+: life'.told := by
  refine steps.rule (fun other => life.told <+: other.told) List.prefix_rfl ?_
  intro move _ first second step kept
  cases step with
  | finish | reap => exact kept.trans (List.prefix_append _ _)
  | _ => exact kept

/-- In every history from any state, a run stays, with what it was made of and by; once it has stopped waiting it never
waits again, and what was told of its ends stays told.
-/
theorem runs_stay {env : Env} {start world : World} {commits : List (Commit World Op)}
    (history : (store env).History (fun _ _ => True) start commits world) {id : Nat} {run : RunRow}
    (found : start.db.run? id = some run)
    : ∃ row, world.db.run? id = some row ∧ row.toRunColumns = run.toRunColumns
        ∧ (row.waiting = true → run.waiting = true) ∧ start.db.told id <+: world.db.told id := by
  let Stays (world : World) : Prop := ∃ row, world.db.run? id = some row ∧ row.toRunColumns = run.toRunColumns
    ∧ (row.waiting = true → run.waiting = true) ∧ start.db.told id <+: world.db.told id
  have whole : Stays world ∧ ∀ commit ∈ commits, Stays commit.before ∧ Stays commit.after ∧ True := by
    refine history.rule ⟨run, found, rfl, fun waits => waits, List.prefix_rfl⟩ ?_
    intro op origin _ commit member ⟨row, was, columns, waits, told⟩ _
    obtain ⟨row', is, steps⟩ := (writes_of_mem member).runMoves was
    obtain ⟨columns', waits'⟩ := steps.columns
    rw [RunRow.waiting_life, RunRow.waiting_life] at waits'
    exact ⟨⟨row', is, columns'.trans columns, fun still => waits (waits' still), told.trans steps.told_prefix⟩, trivial⟩
  exact whole.1

theorem runs_stay_reportDone
    : ∃ row, ((store plainEnv).outcome ((store plainEnv).outcome .init (reportDone.take 1))
        (reportDone.drop 1)).db.run? 0 = some row ∧ row.createdAt = 0 := by
  have permits : (store plainEnv).Permits (fun _ _ => True)
      ((store plainEnv).outcome .init (reportDone.take 1)) (reportDone.drop 1) := by decide
  obtain ⟨row, found, columns, _⟩ := runs_stay (.whole .start permits)
    (Option.some_get (by decide : (((store plainEnv).outcome .init (reportDone.take 1)).db.run? 0).isSome)).symm
  exact ⟨row, found, congrArg RunColumns.createdAt columns⟩

end Dagron.Store
