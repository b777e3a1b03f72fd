import Dagron.Store.Endings

/-! The ends of runs over whole histories: where no task is put back behind a reap's back, a run
that is over has no live task, its end is told as it is made, and stops are kept to.
-/

namespace Dagron.Store

open Dagron.Library Dagron.Spec

-- Operations that reaps and stops do not see

/-- Whether an operation sets a run running again of which a reap has read how it ended. -/
def Op.crossesReap (world : World) (op : Op) : Prop :=
  ∃ ended ∈ world.outcomes, op.runsAgain world.db ended.1

instance (world : World) (op : Op) : Decidable (op.crossesReap world) := by
  unfold Op.crossesReap
  infer_instance

/-- Whether an operation keeps ends: it leaves no job's handle on a task it puts back, and sets
no run running again behind a reap's back.
-/
def Op.keepsEnds (op : Op) (world : World) : Prop :=
  ¬ op.retriesHandle world.db ∧ ¬ op.crossesReap world

instance (op : Op) (world : World) : Decidable (op.keepsEnds world) := by
  unfold Op.keepsEnds
  infer_instance

/-- Whether an operation puts tasks back in a run that succeeded and stays so, or in one that is
being stopped.
-/
def Op.opensOver (db : Db) (op : Op) : Prop :=
  ∃ row ∈ db.runs.rows, op.putsBack db row.id
    ∧ (op.leavesOver db row.id ∨ (row.status = .running ∧ row.stoppingAs.isSome))

instance (db : Db) (op : Op) : Decidable (op.opensOver db) := by
  unfold Op.opensOver
  infer_instance

-- Runs that are over

section Over

variable {env : Env} {op : Op} {start before after : Db} {run id : Nat} {row row' : RunRow}

theorem Rearmed.running {ended : RunStatus → Bool} (rearmed : Rearmed ended run before after)
    (was : before.run? run = some row) (is : after.run? run = some row')
    (due : row.status = .running ∨ ended row.status = true)
    : row'.status = .running := by
  rcases due with running | over_
  · rcases rearmed.run? run with kept | ⟨_, _, _, is', _, _, _, running', _⟩
    · rw [kept, was] at is
      cases is
      exact running
    · rw [is] at is'
      cases is'
      exact running'
  · exact rearmed.again row row' was over_ is

theorem Writes.running (writes : Writes env start op before after)
    (sound : row.Sound) (puts : op.putsBack before run) (leaves : ¬ op.leavesOver before run)
    (was : before.run? run = some row) (is : after.run? run = some row')
    : after = before ∨ row'.status = .running := by
  have same {status : RunStatus → Bool} {row_ : RunRow}
      (found : before.run? run = some row_) (ended : status row_.status = true)
      : status row.status = true := by
    rw [was] at found
    cases found
    exact ended
  cases op with
  | retryTaskFromUi now id who =>
      obtain ⟨rfl, done⟩ := writes.returns rfl
      rcases retryTaskFromUi_ok now done with rfl | ⟨task, _, found, _, rfl, rearmed⟩
      · exact .inl rfl
      · obtain ⟨task_, found_, _, rfl⟩ := puts
        rw [found] at found_
        cases found_
        refine .inr (rearmed.running was is ?_)
        rcases sound.status with running | over_
        · exact .inl running
        · refine .inr ?_
          cases status : row.status with
          | succeeded => exact absurd ⟨rfl, row, was, status⟩ leaves
          | failed | cancelled => rfl
          | pending | running =>
              rw [status] at over_
              cases over_
  | rerunFromFailed now again origin who =>
      obtain ⟨rfl, done⟩ := writes.returns rfl
      rcases rerunFromFailed_ok now done with
        rfl | ⟨armed, rearmed, _, _, runs, ⟨_, found, broken⟩, _⟩
      · exact .inl rfl
      · obtain ⟨rfl, _⟩ := puts
        refine .inr (rearmed.running was ?_ (.inr (same found broken)))
        unfold Db.run? at is ⊢
        rwa [← runs]
  | rerunAll now again who =>
      obtain ⟨rfl, done⟩ := writes.returns rfl
      rcases rerunAll_ok now done with
        rfl | ⟨armed, rearmed, _, _, runs, ⟨_, found, over_⟩, _⟩
      · exact .inl rfl
      · obtain ⟨rfl, _⟩ := puts
        refine .inr (rearmed.running was ?_ (.inr (same found over_)))
        unfold Db.run? at is ⊢
        rwa [← runs]
  | clearTaskWithDownstream now again id who =>
      obtain ⟨rfl, done⟩ := writes.returns rfl
      rcases clearTaskWithDownstream_ok now done with rfl | ⟨_, _, rfl, rearmed⟩
      · exact .inl rfl
      · obtain ⟨rfl, _⟩ := puts
        exact .inr (rearmed.running was is sound.status)
  | _ => cases puts

theorem Writes.unasked (writes : Writes env start op before after) (puts : op.putsBack before id)
    (was : before.run? run = some row) (is : after.run? run = some row')
    : row'.stoppingAs = row.stoppingAs := by
  obtain ⟨_, is', steps⟩ := writes.runMoves was
  rw [is] at is'
  cases is'
  refine steps.rule (fun life => life.stoppingAs = row.stoppingAs) rfl ?_
  intro move listed life life' step same
  cases step with
  | reap | rearm | letIn => exact same
  | ask | finish => cases op <;> simp [Op.runMoves, Op.putsBack] at listed puts

theorem Db.Accounts.carried (accounts : before.Accounts row)
    (carried : before.Carried row.id after) (home : row'.id = row.id)
    (over_ : Db.over_ row'.status = true → Db.over_ row.status = true)
    (stopping : row'.status = .running → row'.stoppingAs.isSome →
      row.status = .running ∧ row.stoppingAs.isSome)
    : after.Accounts row' where
  over_ ended id task' is ofRun := by
    obtain ⟨task, moves, was, there, quiet, steps⟩ := carried.found id task' is (ofRun.trans home)
    exact (steps.done quiet (accounts.over_ (over_ ended) id task was there)).1
  stopping running asked id task' is ofRun := by
    obtain ⟨running, asked⟩ := stopping running asked
    obtain ⟨task, moves, was, there, quiet, steps⟩ := carried.found id task' is (ofRun.trans home)
    exact steps.closed quiet (accounts.stopping running asked id task was there)

theorem Db.Accounts.of_running {db : Db} (running : row.status = .running) (unasked : row.stoppingAs = none)
    : db.Accounts row where
  over_ over_ := by
    rw [running] at over_
    cases over_
  stopping _ asked := by
    rw [unasked] at asked
    cases asked

end Over

/-- A world whose runs come to what their tasks do. -/
structure World.Ended (world : World) : Prop where
  closing
    : world.Closing
  accounts
    : ∀ id row, world.db.run? id = some row → world.db.Accounts row

theorem World.Ended.init
    : World.init.Ended where
  closing := .init
  accounts _ _ found := by cases found

section Worlds

variable {env : Env} {op : Op} {world : World} {commit : Commit World Op}

/-- A run whose tasks are put back comes to what its tasks do, unless it stays over or is being
stopped.
-/
theorem World.Ended.put_back (member : commit ∈ commitsFrom op world ((store env).commits op world))
    (ended : commit.before.Ended) {id : Nat} {row row' : RunRow}
    (was : commit.before.db.run? id = some row) (is : commit.after.db.run? id = some row')
    (puts : op.putsBack commit.before.db id) (bare : ¬ op.opensOver commit.before.db)
    : commit.after.db.Accounts row' := by
  have home : row.id = id := Table.key_of_get? was
  have sound := ended.closing.runs id row was
  have writes := writes_of_mem member
  have among : row ∈ commit.before.db.runs.rows := Table.mem_of_get? was
  have leaves : ¬ op.leavesOver commit.before.db id := by
    intro leaves
    rw [← home] at puts leaves
    exact bare ⟨row, among, puts, .inl leaves⟩
  rcases writes.running sound puts leaves was is with same | running
  · rw [same] at is ⊢
    exact ended.accounts id row' is
  · refine .of_running running ?_
    rw [writes.unasked puts was is]
    by_contra asked
    have asked : row.stoppingAs.isSome := Option.isSome_iff_ne_none.mpr asked
    obtain ⟨target, stops⟩ := Option.isSome_iff_exists.mp asked
    refine bare ⟨row, among, home ▸ puts, .inr ⟨(sound.asked target stops).1, asked⟩⟩

/-- A run none of whose tasks is put back, by what asks no run to stop, comes to what its tasks
do.
-/
theorem World.Ended.kept (member : commit ∈ commitsFrom op world ((store env).commits op world))
    (ended : commit.before.Ended) (after : commit.after.Closing) {id : Nat} {row row' : RunRow}
    (was : commit.before.db.run? id = some row) (is : commit.after.db.run? id = some row')
    (apart : ¬ op.putsBack commit.before.db id) (asks : op.asks = false)
    : commit.after.db.Accounts row' := by
  have home : row.id = id := Table.key_of_get? was
  have home' : row'.id = id := Table.key_of_get? is
  have writes := writes_of_mem member
  have accounts := ended.accounts id row was
  have sound := ended.closing.runs id row was
  have carried (closed : ∀ other task, commit.before.db.task? other = some task →
      task.runId = id → task.life.Closed)
      : commit.before.db.Carried row.id commit.after.db := by
    rw [home]
    exact writes.carried ended.closing.sited ended.closing.kin
      (Option.isSome_iff_exists.mpr ⟨row, was⟩) apart closed
  by_cases over_ : Db.over_ row.status = true
  · -- over runs stay so: nothing sets this one running again
    have stays : row'.status ≠ .running := fun again =>
      apart (writes.runs_again was is over_ again).1
    refine accounts.carried (carried ?_) (home'.trans home.symm) (fun _ => over_)
      (fun running => absurd running stays)
    exact fun other task found ofRun => .inl (accounts.over_ over_ other task found (ofRun.trans home.symm))
  have running : row.status = .running := sound.status.resolve_right over_
  by_cases asked : row.stoppingAs.isSome
  · have closed : ∀ other task, commit.before.db.task? other = some task → task.runId = id →
        task.life.Closed := fun other task found ofRun =>
      accounts.stopping running asked other task found (ofRun.trans home.symm)
    by_cases still : row'.status = .running
    · refine accounts.carried (carried closed) (home'.trans home.symm) ?_ (fun _ _ => ⟨running, asked⟩)
      intro over_
      rw [still] at over_
      cases over_
    · have unstopping : ∀ other task, commit.after.db.task? other = some task →
          task.runId = id → ¬ task.stopping :=
        (ended.closing.stops member after).unstopping id row row' was is running still
      refine ⟨fun _ other task' is_ ofRun => ?_, fun running => absurd running still⟩
      obtain ⟨task, moves, found, there, quiet, steps⟩ :=
        (carried closed).found other task' is_ (ofRun.trans (home'.trans home.symm))
      rcases steps.closed quiet (closed other task found (there.trans home)) with done | stops
      · exact done
      · exact absurd ⟨stops.running, stops.asked⟩ (unstopping other task' is_ (ofRun.trans home'))
  · have unasked : row.stoppingAs = none := Option.not_isSome_iff_eq_none.mp asked
    by_cases still : row'.status = .running
    · refine .of_running still ?_
      obtain ⟨_, is', steps⟩ := writes.runMoves was
      rw [is] at is'
      cases is'
      refine steps.rule (fun life => life.stoppingAs = none) unasked ?_
      intro move listed life life' step none_
      cases step with
      | ask => cases op <;> simp [Op.runMoves, Op.asks] at listed asks
      | finish => rfl
      | reap | rearm | letIn => exact none_
    · have read : commit.after.db.outcomeOf id = some row'.status := by
        have reaps : ∃ now ended, op = .reapRun now ended := by
          by_contra reaps
          obtain ⟨_, is', steps⟩ := writes.runMoves was
          rw [is] at is'
          cases is'
          refine still (steps.rule (fun life => life.status = .running ∧ life.stoppingAs = none)
            ⟨running, unasked⟩ ?_).1
          intro move listed life life' step kept
          obtain ⟨running, unasked⟩ := kept
          cases step with
          | ask => cases op <;> simp [Op.runMoves, Op.asks] at listed asks
          | finish status _ stops =>
              rw [unasked] at stops
              cases stops
          | reap =>
              cases op with
              | reapRun now ended => exact absurd ⟨now, ended, rfl⟩ reaps
              | _ => simp [Op.runMoves] at listed
          | rearm | letIn => exact ⟨by first | rfl | exact running, unasked⟩
        obtain ⟨now, ended_, rfl⟩ := reaps
        exact (ended.closing.reaped member was is running still).2
      refine ⟨fun _ other task found ofRun => ?_, fun running => absurd running still⟩
      exact after.done read other task found (ofRun.trans home')

/-- Every operation leaves runs that come to what their tasks do, but for those that put tasks
back behind the back of a reap, in a run that stays over or in one that is being stopped.
-/
theorem World.Ended.step (member : commit ∈ commitsFrom op world ((store env).commits op world))
    (ended : commit.before.Ended) (bare : ¬ op.retriesHandle commit.before.db)
    (apart : ¬ op.crossesReap commit.before) (shut : ¬ op.opensOver commit.before.db)
    : commit.after.Ended := by
  have writes := writes_of_mem member
  have after : commit.after.Closing :=
    ended.closing.step member bare (fun read listed again => apart ⟨read, listed, again⟩)
  refine ⟨after, fun id row' is => ?_⟩
  cases was : commit.before.db.run? id with
  | none =>
      obtain ⟨_, _, _, _, _, _, _, _, _, rfl, _⟩ := writes.made_run was is
      exact .of_running rfl rfl
  | some row =>
      by_cases puts : op.putsBack commit.before.db id
      · exact ended.put_back member was is puts shut
      cases asks : op.asks with
      | false => exact ended.kept member after was is puts asks
      | true =>
          rcases writes.halts asks ended.closing.tame (Option.isSome_iff_exists.mpr ⟨row, was⟩) with
            leaves | halted
          · rw [leaves.run?, was] at is
            cases is
            exact leaves.accounts (Table.key_of_get? was) (ended.accounts id row' was)
          · exact halted.accounts row' is

end Worlds

-- Histories

section Histories

variable {env : Env} {commits : List (Commit World Op)} {world : World}

theorem closing_of_history (history : (store env).History Op.keepsEnds .init commits world)
    : world.Closing ∧ ∀ commit ∈ commits, commit.before.Closing ∧ commit.after.Closing
        ∧ Announces commit ∧ Stops commit
        ∧ ∃ moves, Evolves moves commit.before.db commit.after.db := by
  refine history.rule .init ?_
  intro op origin _ commit member before keeps
  obtain ⟨bare, apart⟩ := keeps
  have after : commit.after.Closing :=
    before.step member bare (fun read listed again => apart ⟨read, listed, again⟩)
  exact ⟨after, before.announces member, before.stops member after, _, (writes_of_mem member).evolves⟩

/-- A run that is over has no live task, where nothing is put back behind the back of a reap, in
a run that stays over or in one that is being stopped.
-/
theorem no_live_task_of_over
    (reachable : (store env).Reachable
      (fun op world => op.keepsEnds world ∧ ¬ op.opensOver world.db) world)
    {run : Nat} {row : RunRow} (found : world.db.run? run = some row)
    (left : row.status ≠ .running)
    : ∀ id task, world.db.task? id = some task → task.runId = run →
        task.status.terminal = true := by
  have ended : world.Ended := by
    refine reachable.invariant .init ?_
    intro op origin _ commit member before allowed
    obtain ⟨⟨bare, apart⟩, shut⟩ := allowed
    exact before.step member bare apart shut
  have over_ := (ended.closing.runs run row found).status.resolve_left left
  have home : row.id = run := Table.key_of_get? found
  intro id task there ofRun
  exact ((ended.accounts run row found).over_ over_ id task there (ofRun.trans home.symm)).terminal

/-- A run whose first task failed and whose report was made, which a reap has read. -/
def reportRead : List Op :=
  [.createRun 0 (submit plainReport 0), .advanceReadyTasks 1,
    .claimReady 2 "worker" 1 [] [] false, .markTaskFailed 3 0 "worker" 1 none,
    .advanceReadyTasks 4, .claimReady 5 "worker" 1 [] [] false,
    .markTaskSucceeded 6 1 "worker" 1 none false, .readOutcomes [0]]

def reportReaped : List Op :=
  reportRead ++ [.reapRun 7 (0, .failed)]

/-- The task is retried before the reap goes by what it has read. -/
def reportRetried : List Op :=
  reportRead ++ [.retryTaskFromUi 7 0 none]

def reportCrossed : List Op :=
  reportRetried ++ [.reapRun 8 (0, .failed)]

/-- The run that was reaped has no live task. -/
theorem no_live_task_of_over_reportReaped
    : (store plainEnv).Reachable (fun op world => op.keepsEnds world ∧ ¬ op.opensOver world.db)
        ((store plainEnv).outcome .init reportReaped)
      ∧ ∀ id task, ((store plainEnv).outcome .init reportReaped).db.task? id = some task →
        task.runId = 0 → task.status.terminal = true := by
  have reached : (store plainEnv).Reachable
      (fun op world => op.keepsEnds world ∧ ¬ op.opensOver world.db)
      ((store plainEnv).outcome .init reportReaped) := .outcome (by decide)
  let nightly := (((store plainEnv).outcome .init reportReaped).db.run? 0).get (by decide)
  exact ⟨reached, no_live_task_of_over reached (Option.some_get _).symm
    (by decide : nightly.status ≠ .running)⟩

/-- A run that is over may have a live task: one that was retried after a reap read it. -/
theorem not_no_live_task_of_over
    : ¬ ∀ world, (store plainEnv).Reachable (fun _ _ => True) world →
        ∀ run row, world.db.run? run = some row → row.status ≠ .running →
          ∀ id task, world.db.task? id = some task → task.runId = run →
            task.status.terminal = true := by
  intro ended
  have reached : (store plainEnv).Reachable (fun _ _ => True)
      ((store plainEnv).outcome .init reportCrossed) := .outcome (by decide)
  let nightly := (((store plainEnv).outcome .init reportCrossed).db.run? 0).get (by decide)
  let shard := (((store plainEnv).outcome .init reportCrossed).db.task? 0).get (by decide)
  have over_ := ended _ reached 0 nightly (Option.some_get _).symm (by decide) 0 shard
    (Option.some_get _).symm (by decide)
  revert over_
  decide

/-- Each end of a run is told once, as it is made, and a reap makes those that have come. -/
theorem ends_are_told
    (history : (store env).History Op.keepsEnds .init commits world)
    : ∀ commit ∈ commits, Announces commit :=
  fun commit member => ((closing_of_history history).2 commit member).2.2.1

/-- The end of the run that was reaped was told. -/
theorem ends_are_told_reportReaped
    : (store plainEnv).Permits Op.keepsEnds .init reportReaped
      ∧ ∀ commit ∈ (store plainEnv).trace .init reportReaped, Announces commit := by
  have permits : (store plainEnv).Permits Op.keepsEnds .init reportReaped := by decide
  have history : (store plainEnv).History Op.keepsEnds .init
      ([] ++ (store plainEnv).trace .init reportReaped)
      ((store plainEnv).outcome .init reportReaped) :=
    .whole .start permits
  exact ⟨permits, ends_are_told history⟩

def World.afterReap (world : World) (now : Time) (ended : Nat × RunStatus) : World :=
  { world with outcomes := world.outcomes.erase ended }.commit (world.db.reapRun now ended)

theorem commits_reapRun {env : Env} {world : World} (now : Time) {ended : Nat × RunStatus}
    (read : ended ∈ world.outcomes)
    : (store env).commits (.reapRun now ended) world = [world.afterReap now ended] := by
  simp only [store, Op.commits, read, if_true, World.afterReap]

/-- A reap may end a run as failed that has no failed task: one was retried after it was read. -/
theorem not_ends_are_told
    : ¬ ∀ commits world, (store plainEnv).History (fun _ _ => True) .init commits world →
        ∀ commit ∈ commits, Announces commit := by
  intro told
  let trace := (store plainEnv).trace .init reportRetried
  let retried := (store plainEnv).outcome .init reportRetried
  have earlier : (store plainEnv).History (fun _ _ => True) .init ([] ++ trace) retried :=
    .whole .start (by decide)
  have read : (0, RunStatus.failed) ∈ retried.outcomes := by decide
  let reaped := retried.afterReap 8 (0, .failed)
  have history := earlier.operate (.reapRun 8 (0, .failed)) [reaped]
    (commits_reapRun 8 read ▸ List.prefix_refl _) (fun _ _ => trivial)
  have announced := told _ _ history ⟨.reapRun 8 (0, .failed), retried, reaped⟩
    (List.mem_append_right _ List.mem_cons_self)
  obtain ⟨broken, _⟩ := announced.reaps 8 (0, .failed) 0 ((retried.db.run? 0).get (by decide))
    ((reaped.db.run? 0).get (by decide)) rfl (Option.some_get _).symm (Option.some_get _).symm
    (by decide) (by decide)
  have unbroken (db : Db) (unfailed : ∀ task ∈ db.tasks.rows, task.status ≠ .failed)
      : ¬ db.brokenBy 0 := by
    rintro ⟨_, task, found, _, failed, _⟩
    exact unfailed task (Table.mem_of_get? found) failed
  exact unbroken reaped.db (by decide) (broken.mp (by decide))

/-- What was asked to stop stops, or is cancelled, until it is put back, and a run that was asked
to stop ends as it was asked to, once, when none of its tasks stops any more.
-/
theorem stops_are_kept
    (history : (store env).History Op.keepsEnds .init commits world)
    : (∀ commit ∈ commits, Stops commit)
      ∧ ∀ early first late, commits = early ++ first :: late →
        ∀ id task, first.after.db.task? id = some task → task.stopRequestedAt.isSome →
          (∀ commit ∈ late, (commit.after.db.task? id).isSome ∧ ¬ commit.label.rearms task) →
          (∃ last, world.db.task? id = some last ∧ last.halted)
            ∧ ∀ commit ∈ late, ∃ task', commit.before.db.task? id = some task' ∧ task'.halted := by
  have whole := closing_of_history history
  refine ⟨fun commit member => (whole.2 commit member).2.2.2.1, ?_⟩
  intro early first late split id task found asked apart
  subst split
  have closing : first.after.Closing := (whole.2 first (by simp)).2.1
  let Kept (world : World) : Prop := ∃ task', world.db.task? id = some task' ∧ task'.halted
    ∧ task'.toTaskColumns = task.toTaskColumns
  have start : Kept first.after :=
    ⟨task, found, .inl ⟨(closing.obeys id task found asked).running, asked⟩, rfl⟩
  have keep : ∀ commit ∈ late, Kept commit.before → Kept commit.after := by
    intro commit member kept
    obtain ⟨task', was, halted, same⟩ := kept
    obtain ⟨there, unarmed⟩ := apart commit member
    obtain ⟨last, is⟩ := Option.isSome_iff_exists.mp there
    obtain ⟨_, _, _, stops, moves, evolves⟩ := whole.2 commit (by simp [member])
    have unarmed : ¬ commit.label.rearms task' := by
      unfold Op.rearms at unarmed ⊢
      rwa [congrArg TaskColumns.id same, congrArg TaskColumns.runId same]
    refine ⟨last, is, stops.tasks id task' last was is unarmed halted, ?_⟩
    exact (evolves.kept was is).columns.1.trans same
  obtain ⟨⟨last, is, halted, _⟩, between⟩ := history.carry keep start
  refine ⟨⟨last, is, halted⟩, fun commit member => ?_⟩
  obtain ⟨task', is, halted, _⟩ := between commit member
  exact ⟨task', is, halted⟩

/-- The run is cancelled while a worker is at its first task, which then comes back. -/
def reportStopped : List Op :=
  [.createRun 0 (submit plainReport 0), .advanceReadyTasks 1,
    .claimReady 2 "worker" 1 [] [] false, .cancelRun 3 0,
    .markTaskSucceeded 4 0 "worker" 1 none false]

/-- The task is retried, and asked to stop, before the reap goes by what it has read. -/
def stopCrossed : List Op :=
  reportRead ++ [.retryTaskFromUi 7 0 none, .claimReady 8 "worker" 1 [] [] false,
    .cancelRun 9 0, .reapRun 10 (0, .failed)]

/-- The run that was cancelled kept to its stop. -/
theorem stops_are_kept_reportStopped
    : (store plainEnv).Permits Op.keepsEnds .init reportStopped
      ∧ ∀ commit ∈ (store plainEnv).trace .init reportStopped, Stops commit := by
  have permits : (store plainEnv).Permits Op.keepsEnds .init reportStopped := by decide
  have history : (store plainEnv).History Op.keepsEnds .init
      ([] ++ (store plainEnv).trace .init reportStopped)
      ((store plainEnv).outcome .init reportStopped) :=
    .whole .start permits
  exact ⟨permits, (stops_are_kept history).1⟩

/-- A run may end, and otherwise than it was asked to, while a task of it is stopping: a reap ends
it as it was before the task was retried and the run was cancelled.
-/
theorem not_stops_are_kept
    : ¬ ∀ commits world, (store plainEnv).History (fun _ _ => True) .init commits world →
        ∀ commit ∈ commits, Stops commit := by
  intro stops
  let trace := (store plainEnv).trace .init stopCrossed
  have history : (store plainEnv).History (fun _ _ => True) .init ([] ++ trace)
      ((store plainEnv).outcome .init stopCrossed) :=
    .whole .start (by decide)
  let last := trace.getLast (by decide)
  have unstopping := (stops _ _ history last (List.getLast_mem _)).unstopping 0
    ((last.before.db.run? 0).get (by decide)) ((last.after.db.run? 0).get (by decide))
    (Option.some_get _).symm (Option.some_get _).symm (by decide) (by decide) 0
    ((last.after.db.task? 0).get (by decide)) (Option.some_get _).symm (by decide)
  revert unstopping
  decide

end Histories

end Dagron.Store
