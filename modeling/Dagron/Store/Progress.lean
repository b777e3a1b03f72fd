import Dagron.Store.Balance

/-! The counters of a run's pending tasks are exact in every state that operations reach which
count all they end and re-open, and a run whose counters are exact is never stranded.
-/

namespace Dagron.Store

open Dagron.Library Dagron.Spec

-- What is left to be done

/-- What is left to be done stands: a failure that is owed to its gang is of a task that is
there, of a run that started, and the runs that are to be ended are there and do not wait.
-/
structure World.Owed (world : World) : Prop where
  failures
    : ∀ id ∈ world.failures, (world.db.task? id).isSome ∧ world.db.Started id
  outcomes
    : ∀ ended ∈ world.outcomes, ended.2 ≠ .running ∧ world.db.Admitted ended.1
  stranded
    : ∀ run ∈ world.stranded, world.db.Admitted run

theorem World.Owed.init
    : World.init.Owed where
  failures _ listed := by cases listed
  outcomes _ listed := by cases listed
  stranded _ listed := by cases listed

section Owed

variable {env : Env} {op : Op} {world : World} {commit : Commit World Op}

theorem Writes.started {start before after : Db} (writes : Writes env start op before after)
    (coherent : before.Coherent) {id : Nat} (was : (before.task? id).isSome)
    (started : before.Started id)
    : after.Started id := by
  intro task' is run' home'
  obtain ⟨task, was⟩ := Option.isSome_iff_exists.mp was
  have same : task'.runId = task.runId :=
    congrArg TaskColumns.runId (writes.evolves.kept was is).columns.1
  obtain ⟨run, home⟩ := Option.isSome_iff_exists.mp (coherent.homes id task was)
  obtain ⟨run'', home'', _, waits⟩ := writes.run_kept home
  rw [same, home''] at home'
  cases home'
  by_contra waiting
  have waited := waits (by simpa using waiting)
  rw [started task was run home] at waited
  cases waited

theorem started_markTaskFailed {now : Time} {id : Nat} {worker : String} {fence : Nat}
    {error : Option String} {db : Db} (coherent : db.Coherent)
    (counted : (db.markTaskFailed now id worker fence error).2 = true)
    : (db.task? id).isSome ∧ db.Started id := by
  unfold Db.markTaskFailed at counted
  split at counted
  case h_2 => cases counted
  case h_1 ended done =>
    unfold Db.endTask at done
    split at done
    · cases done
    case isFalse some_ =>
      obtain ⟨task, member, met⟩ := List.countP_pos_iff.mp (Nat.pos_of_ne_zero some_)
      obtain ⟨here, held⟩ := of_decide_eq_true met
      have found : db.task? id = some task := here ▸ Db.task?_of_mem member
      refine ⟨by simp [found], ?_⟩
      intro task' was run home
      rw [found] at was
      cases was
      by_contra waits
      have free := ((coherent.waiting _ run home (by simpa using waits)).2 id task found rfl).2
      rw [held.1] at free
      cases free

theorem Writes.admitted {start before after : Db} (writes : Writes env start op before after)
    {run : Nat} (admitted : before.Admitted run)
    : after.Admitted run := by
  obtain ⟨row, home, free⟩ := admitted
  obtain ⟨row', home', _, waits⟩ := writes.run_kept home
  refine ⟨row', home', ?_⟩
  by_contra waiting
  rw [waits (by simpa using waiting)] at free
  cases free

theorem outcomeOf_ne_running {db : Db} {run : Nat} {status : RunStatus}
    (read : db.outcomeOf run = some status)
    : status ≠ .running := by
  simp only [Db.outcomeOf] at read
  split at read
  · cases read
    split <;> rintro ⟨⟩
  · cases read

theorem admitted_of_readOutcomes {db : Db} {runs : List Nat} {ended : Nat × RunStatus}
    (read : ended ∈ db.readOutcomes runs)
    : ended.2 ≠ .running ∧ db.Admitted ended.1 := by
  obtain ⟨row, among, found⟩ := List.mem_filterMap.mp read
  obtain ⟨status, outcome, rfl⟩ := Option.map_eq_some_iff.mp found
  obtain ⟨present, reapable, _⟩ := Table.mem_select.mp among
  refine ⟨outcomeOf_ne_running outcome, row, Table.get?_of_mem present, ?_⟩
  by_contra waits
  obtain ⟨_, queued, unadmitted⟩ := (RunRow.waiting_iff row).mp (by simpa using waits)
  rcases reapable.2.2 with free | admitted
  · simp [Option.isNone_iff_eq_none.mp free] at queued
  · simp [Option.isNone_iff_eq_none.mp unadmitted] at admitted

theorem admitted_of_strandedStoppedRuns {db : Db} (coherent : db.Coherent) {run : Nat}
    (read : run ∈ db.strandedStoppedRuns)
    : db.Admitted run := by
  obtain ⟨row, among, rfl⟩ := List.mem_map.mp read
  obtain ⟨present, asked, _⟩ := Table.mem_select.mp among
  have home : db.run? row.id = some row := Table.get?_of_mem present
  refine ⟨row, home, ?_⟩
  by_contra waits
  have stopping := (coherent.waiting _ _ home (by simpa using waits)).1
  rw [stopping] at asked
  cases asked

theorem World.Owed.step (member : commit ∈ commitsFrom op world ((store env).commits op world))
    (coherent : commit.before.db.Coherent) (owed : commit.before.Owed)
    : commit.after.Owed := by
  have writes := writes_of_mem member
  have leaves := leaves_of_mem member
  refine ⟨?_, ?_, ?_⟩
  · intro id listed
    rcases leaves.failures id listed with ⟨left, there⟩ | ⟨now, worker, fence, error, rfl, counted⟩
    · obtain ⟨was, started⟩ := owed.failures id left
      exact ⟨there, writes.started coherent was started⟩
    · obtain ⟨was, started⟩ := started_markTaskFailed coherent counted
      refine ⟨?_, writes.started coherent was started⟩
      by_contra none_
      have steps := writes.moves rfl
      rw [Option.not_isSome_iff_eq_none, steps.task?_eq_none_iff] at none_
      rw [none_] at was
      cases was
  · intro ended listed
    rcases leaves.outcomes ended listed with left | ⟨runs, _, read⟩
    · exact ⟨(owed.outcomes ended left).1, writes.admitted (owed.outcomes ended left).2⟩
    · exact ⟨(admitted_of_readOutcomes read).1, writes.admitted (admitted_of_readOutcomes read).2⟩
  · intro run listed
    rcases leaves.stranded run listed with left | ⟨_, read⟩
    · exact writes.admitted (owed.stranded run left)
    · exact writes.admitted (admitted_of_strandedStoppedRuns coherent read)

theorem World.Owed.standing (owed : commit.before.Owed)
    (member : commit ∈ commitsFrom op world ((store env).commits op world))
    : op.Standing commit.before.db := by
  have leaves := leaves_of_mem member
  cases op with
  | cancelGangSiblings now id => exact (owed.failures id (leaves.tells now id rfl)).2
  | reapRun now ended => exact owed.outcomes ended (leaves.reaps now ended rfl)
  | endStoppedRun now run => exact owed.stranded run (leaves.stops now run rfl)
  | _ => trivial

end Owed

-- Worked runs

/-- An installation's settings, all but the ceilings as they are where none is set. -/
def plainEnv : Env where
  host := plainHost
  mentionsWhen task := task.when.isSome
  mentionsWhen_of_when _ given := given
  leaseSecs := 30
  maxWaitingRuns := 100
  maxTasksPerRun := 10000

/-- A request for a run of a graph, made of a run's id and with its tasks' ids in order. -/
def submit (dag : DagGraph) (run : Nat) : Submission where
  dag := dag
  trigger := none
  run := run
  mint index := 100 * run + index

/-- A task and a report that is made of it whatever comes of it. -/
def reportTasks (shard : TaskSpec) : List TaskSpec :=
  [{ shard with name := "shard" },
    { name := "report", dependsOn := ["shard"], triggerRule := some "all_done" }]

def gangReport : DagGraph where
  spec := { name := "nightly", tasks := reportTasks { name := "shard", gang := some ⟨2⟩ } }
  parameters := []
  wellFormed := by
    refine ⟨by decide, by decide, by decide, ?_, by decide, by decide, by decide⟩
    exact ⟨fun name => if name = "report" then 1 else 0, by decide⟩

def plainReport : DagGraph where
  spec := { name := "nightly", tasks := reportTasks { name := "shard" } }
  parameters := []
  wellFormed := by
    refine ⟨by decide, by decide, by decide, ?_, by decide, by decide, by decide⟩
    exact ⟨fun name => if name = "report" then 1 else 0, by decide⟩

-- Exact counters

/-- What holds of a world whose counters are exact. -/
structure World.Balanced (world : World) : Prop where
  coherent
    : world.db.Coherent
  exact_
    : world.db.board.Exact
  owed
    : world.Owed

theorem Db.Coherent.empty
    : Db.empty.Coherent where
  homes _ _ found := by cases found
  edges _ _ depends := by cases depends
  acyclic := ⟨fun _ => 0, fun _ member => by cases member⟩
  waiting _ _ found := by cases found

theorem World.Balanced.init
    : World.init.Balanced where
  coherent := .empty
  exact_ _ pending := by cases pending
  owed := .init

theorem World.Balanced.step {env : Env} {op : Op} {world : World} {commit : Commit World Op}
    (member : commit ∈ commitsFrom op world ((store env).commits op world))
    (balanced : commit.before.Balanced) (counts : op.countsAll commit.before.db)
    : commit.after.Balanced := by
  have writes := writes_of_mem member
  have steady : commit.before.db.Steady := ⟨balanced.coherent, balanced.exact_.solvent⟩
  have carried : Board.Recounts commit.before.db.board commit.after.db.board
      ∧ commit.after.db.Coherent := by
    cases anew : op.recounts with
    | true => exact writes.recounts anew steady
    | false =>
        obtain ⟨keeps, coherent⟩ :=
          writes.keeps anew counts (balanced.owed.standing member) steady
        exact ⟨keeps.recounts, coherent⟩
  exact ⟨carried.2, carried.1.exact balanced.exact_, balanced.owed.step member balanced.coherent⟩

theorem balanced_of_reachable {env : Env} {world : World}
    (reachable : (store env).Reachable (fun op world => op.countsAll world.db) world)
    : world.Balanced :=
  reachable.invariant .init (fun _ _ _ _ member before counts =>
    World.Balanced.step member before counts)

/-- In every state reached by operations that count all they end and re-open, a pending task's
counter is the number of its dependencies that have not ended, and one more while its run
waits.
-/
theorem remainingDeps_exact {env : Env} {world : World}
    (reachable : (store env).Reachable (fun op world => op.countsAll world.db) world)
    {id : Nat} {task : TaskRow} (found : world.db.task? id = some task)
    (pending : task.status = .pending)
    : task.remainingDeps = world.db.unfinished id + world.db.heldUnits task.runId := by
  have exact_ := (balanced_of_reachable reachable).exact_ id (pending_of_task? found pending)
  rw [slack_board found] at exact_
  omega

/-- A gang's member is claimed and starts, and the run's other rows are written. -/
def gangStarted : List Op :=
  [.createRun 0 (submit gangReport 0), .advanceReadyTasks 1,
    .claimReady 2 "worker" 1 [] [] false]

/-- A member of a gang fails, and its sibling is cancelled and not counted off. -/
def gangFailed : List Op :=
  gangStarted ++ [.markTaskFailed 3 0 "worker" 1 none, .cancelGangSiblings 4 0]

/-- The report of a started gang waits for both of its members. -/
theorem remainingDeps_exact_gangStarted
    : let world := (store plainEnv).outcome .init gangStarted
      let report := (world.db.task? 2).get (by decide)
      report.remainingDeps = world.db.unfinished 2 + world.db.heldUnits report.runId :=
  remainingDeps_exact (.outcome (by decide)) (Option.some_get _).symm (by decide)

/-- Counters are not exact in every reachable state: the sibling of a gang's failed member ends
uncounted.
-/
theorem not_remainingDeps_exact
    : ¬ ∀ world, (store plainEnv).Reachable (fun _ _ => True) world →
        ∀ id task, world.db.task? id = some task → task.status = .pending →
          task.remainingDeps = world.db.unfinished id + world.db.heldUnits task.runId := by
  intro exact_
  have reached : (store plainEnv).Reachable (fun _ _ => True)
      ((store plainEnv).outcome .init gangFailed) := .outcome (by decide)
  let report := (((store plainEnv).outcome .init gangFailed).db.task? 2).get (by decide)
  have counted := exact_ _ reached 2 report (Option.some_get _).symm (by decide)
  revert counted
  decide

-- The readiness sweep at rest

section Rest

variable (env : Env) (now : Time)

theorem getLastD_append (first second : List Db) (db : Db)
    : (first ++ second).getLastD db = second.getLastD (first.getLastD db) := by
  induction first generalizing db with
  | nil => rfl
  | cons head rest ih =>
      rw [List.cons_append, List.getLastD_cons, List.getLastD_cons]
      exact ih head

theorem Life.Steps.advanced {life life' : Life} (steps : Life.Steps readinessMoves life life')
    : (life'.status = .pending → life.status = .pending)
      ∧ life'.remainingDeps ≤ life.remainingDeps := by
  refine steps.rule (fun other => (other.status = .pending → life.status = .pending)
    ∧ other.remainingDeps ≤ life.remainingDeps) ⟨fun was => was, le_refl _⟩ ?_
  intro move listed first second step kept
  cases step with
  | count =>
      refine ⟨kept.1, ?_⟩
      have below := kept.2
      dsimp only
      omega
  | ready | skip | failWhen | parkBarrier | ask => exact ⟨nofun, kept.2⟩
  | _ => simp [readinessMoves] at listed

theorem Moves.started {before after : Db} (moves : Moves readinessMoves before after) {id : Nat}
    (started : ∀ task, before.task? id = some task → task.status ≠ .pending)
    : ∀ task, after.task? id = some task → task.status ≠ .pending := by
  intro task' is pending
  obtain ⟨task, was, steps⟩ := moves.of_some is
  exact started task was (steps.advanced.1 pending)

theorem moves_advanceExotic {candidates : List TaskRow} {db : Db}
    (read : ∀ candidate ∈ candidates, db.Candidate candidate)
    : Moves readinessMoves db ((Db.advanceExotic env now candidates db).1.getLastD db) := by
  induction candidates generalizing db with
  | nil => exact .refl db
  | cons candidate rest ih =>
      have step := moves_advanceCandidate env now db (read candidate List.mem_cons_self)
      simp only [Db.advanceExotic]
      rw [List.getLastD_cons]
      exact step.trans (ih (fun other among =>
        (read other (List.mem_cons_of_mem _ among)).kept step))

theorem moves_advanceRounds (rounds : Nat) (db : Db)
    : Moves readinessMoves db ((db.advanceRounds env now rounds).getLastD db) := by
  induction rounds generalizing db with
  | zero => exact .refl db
  | succ rounds ih =>
      have ready : Moves readinessMoves db (db.readyDefault env now) :=
        moves_readyDefault env now db (by decide)
      have settled := ready.trans
        (moves_skipDefault env now (db.readyDefault env now) (by decide) (by decide))
      have round := settled.trans (moves_advanceExotic env now (fun _ => candidate_of_mem))
      simp only [Db.advanceRounds]
      split
      · exact .refl db
      split
      · rw [List.getLastD_cons, List.getLastD_cons]
        exact round
      · rw [getLastD_append]
        refine Moves.trans ?_ (ih _)
        rw [List.getLastD_cons, List.getLastD_cons]
        exact round

theorem started_advanceCandidate {db : Db} {candidate : TaskRow}
    : ∀ task, (db.advanceCandidate env now candidate).task? candidate.id = some task →
      task.status ≠ .pending := by
  intro task is pending
  have ended {set : TaskRow → TaskRow} {keeps : ∀ row, (set row).toTaskColumns = row.toTaskColumns}
      (over_ : ∀ row, (set row).status.terminal = true)
      (is : ((db.endTask candidate.id (fun task => task.status = .pending) set keeps).getD
        db).task? candidate.id = some task)
      : False := by
    obtain ⟨row, was, same⟩ := task?_endTask_getD is
    have status := (TaskRow.of_uncounted_eq same).1
    rw [pending] at status
    split at status
    · have over_ := over_ row
      rw [← status] at over_
      cases over_
    case isFalse unmet => exact unmet ⟨Db.id_of_task? was, status.symm⟩
  have started {set : TaskRow → TaskRow} {keeps : ∀ row, (set row).toTaskColumns = row.toTaskColumns}
      (starts : ∀ row, (set row).status ≠ .pending)
      (is : (db.updateTasks (fun task => task.id = candidate.id ∧ task.status = .pending) set
        keeps).task? candidate.id = some task)
      : False := by
    rw [Db.task?_updateTasks] at is
    obtain ⟨row, was, rfl⟩ := Option.map_eq_some_iff.mp is
    split at pending
    · exact starts row pending
    case isFalse unmet => exact unmet ⟨Db.id_of_task? was, pending⟩
  unfold Db.advanceCandidate at is
  split at is
  · exact ended (fun _ => rfl) is
  · exact ended (fun _ => rfl) is
  · split at is
    · exact started (fun _ same => by cases same) is
    split at is
    · exact started (fun _ same => by cases same) is
    · exact started (fun _ same => by cases same) is

theorem started_advanceExotic {candidates : List TaskRow} {db : Db}
    (read : ∀ candidate ∈ candidates, db.Candidate candidate) {candidate : TaskRow}
    (among : candidate ∈ candidates)
    : ∀ task, ((Db.advanceExotic env now candidates db).1.getLastD db).task? candidate.id
        = some task → task.status ≠ .pending := by
  induction candidates generalizing db with
  | nil => cases among
  | cons head rest ih =>
      have step := moves_advanceCandidate env now db (read head List.mem_cons_self)
      have later (other : TaskRow) (among : other ∈ rest) :=
        (read other (List.mem_cons_of_mem _ among)).kept step
      simp only [Db.advanceExotic]
      rw [List.getLastD_cons]
      rcases List.mem_cons.mp among with rfl | among
      · exact (moves_advanceExotic env now later).started (started_advanceCandidate env now)
      · exact ih later among

/-- A store that the sweep leaves as it is has no candidate: a candidate would have stayed one
to the second half of the first round, which leaves none of its candidates pending.
-/
theorem advanceCandidates_of_rest {db : Db}
    (rest : ((db.advanceReadyTasks env now).getLastD db).tasks = db.tasks)
    : db.advanceCandidates = [] := by
  by_contra some_
  obtain ⟨candidate, member⟩ := List.exists_mem_of_ne_nil _ some_
  obtain ⟨present, pending, zero⟩ := Table.mem_select.mp ((List.mem_insertionSort _).mp member)
  have was : db.task? candidate.id = some candidate := Db.task?_of_mem present
  let settled := (db.readyDefault env now).skipDefault env now
  let passed := (Db.advanceExotic env now settled.advanceCandidates settled).1.getLastD settled
  have ready : Moves readinessMoves db (db.readyDefault env now) :=
    moves_readyDefault env now db (by decide)
  have first : Moves readinessMoves db settled := ready.trans
    (moves_skipDefault env now (db.readyDefault env now) (by decide) (by decide))
  have second : Moves readinessMoves settled passed :=
    moves_advanceExotic env now (fun _ => candidate_of_mem)
  have last : ∃ after, Moves readinessMoves passed after ∧ after.tasks = db.tasks := by
    obtain ⟨rounds, more⟩ : ∃ rounds, 64 = rounds + 1 := ⟨63, rfl⟩
    rw [Db.advanceReadyTasks, more] at rest
    simp only [Db.advanceRounds, if_neg some_] at rest
    split at rest
    · rw [List.getLastD_cons, List.getLastD_cons] at rest
      exact ⟨passed, .refl _, rest⟩
    · rw [getLastD_append] at rest
      simp only [List.getLastD_cons] at rest
      exact ⟨_, moves_advanceRounds env now rounds passed, rest⟩
  obtain ⟨after, third, same⟩ := last
  have is : after.task? candidate.id = some candidate := by
    unfold Db.task? at was ⊢
    rwa [same]
  obtain ⟨middle, found, steps⟩ := (second.trans third).of_some is
  obtain ⟨_, was', steps'⟩ := first.of_some found
  rw [was] at was'
  cases was'
  have waits : middle.status = .pending := steps.advanced.1 pending
  have below : middle.remainingDeps ≤ candidate.remainingDeps := steps'.advanced.2
  have above : candidate.remainingDeps ≤ middle.remainingDeps := steps.advanced.2
  have again : middle ∈ settled.advanceCandidates := by
    refine (List.mem_insertionSort _).mpr (Table.mem_select.mpr ?_)
    exact ⟨Table.mem_of_get? found, waits, by omega⟩
  have here : middle.id = candidate.id := Db.id_of_task? found
  have started := started_advanceExotic env now (fun _ => candidate_of_mem) again
  rw [here] at started
  exact third.started started candidate is pending

theorem rest_of_advanceCandidates {db : Db} (none_ : db.advanceCandidates = [])
    : ((db.advanceReadyTasks env now).getLastD db).tasks = db.tasks := by
  obtain ⟨rounds, more⟩ : ∃ rounds, 64 = rounds + 1 := ⟨63, rfl⟩
  rw [Db.advanceReadyTasks, more, Db.advanceRounds, if_pos none_, List.getLastD_nil]

end Rest

/-- No run is stranded: where operations count all they end and re-open, a run that does not
wait, with no task under way and with nothing left for the readiness sweep, has only tasks
that have ended.
-/
theorem no_run_stranded {env : Env} {world : World}
    (reachable : (store env).Reachable (fun op world => op.countsAll world.db) world)
    {run : Nat} {row : RunRow} (home : world.db.run? run = some row)
    (admitted : row.waiting = false)
    (idle : ∀ id task, world.db.task? id = some task → task.runId = run →
      task.status = .pending ∨ task.status.terminal = true)
    {now : Time}
    (rest : ((world.db.advanceReadyTasks env now).getLastD world.db).tasks = world.db.tasks)
    : ∀ id task, world.db.task? id = some task → task.runId = run →
        task.status.terminal = true := by
  have balanced := balanced_of_reachable reachable
  have none_ := advanceCandidates_of_rest env now rest
  intro id task found ofRun
  let closed (id : Nat) : Prop := ∃ task, world.db.task? id = some task ∧ task.runId = run
  have ended : world.db.board.live id = false := by
    refine balanced.exact_.all_finished balanced.coherent.acyclic ?_ ?_ id
      (show closed id from ⟨task, found, ofRun⟩)
    · intro edge member within
      obtain ⟨task, was, ofRun⟩ := within
      obtain ⟨task_, on, was_, wasOn, same⟩ :=
        balanced.coherent.edges edge.1 edge.2 (mem_edges.mp member)
      rw [was] at was_
      cases was_
      exact ⟨on, wasOn, same.symm.trans ofRun⟩
    · intro node within live
      obtain ⟨task, was, ofRun⟩ := within
      have pending : task.status = .pending := by
        rcases idle node task was ofRun with pending | over_
        · exact pending
        · rw [live_board, was] at live
          simp [over_] at live
      refine ⟨pending_of_task? was pending, ?_, ?_⟩
      · rw [remaining_board was]
        intro zero
        have candidate : task ∈ world.db.advanceCandidates :=
          (List.mem_insertionSort _).mpr
            (Table.mem_select.mpr ⟨Table.mem_of_get? was, pending, zero⟩)
        rw [none_] at candidate
        cases candidate
      · rw [hold_board was, ofRun]
        simp [Db.heldUnits, home, admitted]
  rw [live_board, found] at ended
  simpa using ended

def reportDone : List Op :=
  [.createRun 0 (submit plainReport 0), .advanceReadyTasks 1,
    .claimReady 2 "worker" 1 [] [] false, .markTaskSucceeded 3 0 "worker" 1 none false,
    .advanceReadyTasks 4, .claimReady 5 "worker" 1 [] [] false,
    .markTaskSucceeded 6 1 "worker" 1 none false]

/-- The run that was seen through has nothing left. -/
theorem no_run_stranded_reportDone
    : (store plainEnv).Reachable (fun op world => op.countsAll world.db)
        ((store plainEnv).outcome .init reportDone)
      ∧ ∀ id task, ((store plainEnv).outcome .init reportDone).db.task? id = some task →
        task.runId = 0 → task.status.terminal = true := by
  have reached : (store plainEnv).Reachable (fun op world => op.countsAll world.db)
      ((store plainEnv).outcome .init reportDone) := .outcome (by decide)
  let nightly := (((store plainEnv).outcome .init reportDone).db.run? 0).get (by decide)
  have over_ : ∀ task ∈ ((store plainEnv).outcome .init reportDone).db.tasks.rows,
      task.status = .pending ∨ task.status.terminal = true := by decide
  exact ⟨reached, no_run_stranded reached (Option.some_get _).symm
    (by decide : nightly.waiting = false)
    (fun _ task found _ => over_ task (Table.mem_of_get? found))
    (rest_of_advanceCandidates plainEnv 7 (by decide))⟩

/-- A run can be stranded: the report of a gang whose failure was not counted waits for ever. -/
theorem not_no_run_stranded
    : ¬ ∀ world, (store plainEnv).Reachable (fun _ _ => True) world →
        ∀ run row, world.db.run? run = some row → row.status = .running → row.waiting = false →
          (∀ id task, world.db.task? id = some task → task.runId = run →
            task.status = .pending ∨ task.status.terminal = true) →
          ∀ now, ((world.db.advanceReadyTasks plainEnv now).getLastD world.db).tasks
              = world.db.tasks →
            ∀ id task, world.db.task? id = some task → task.runId = run →
              task.status.terminal = true := by
  intro ended
  have reached : (store plainEnv).Reachable (fun _ _ => True)
      ((store plainEnv).outcome .init gangFailed) := .outcome (by decide)
  let nightly := (((store plainEnv).outcome .init gangFailed).db.run? 0).get (by decide)
  have idle : ∀ task ∈ ((store plainEnv).outcome .init gangFailed).db.tasks.rows,
      task.status = .pending ∨ task.status.terminal = true := by decide
  let report := (((store plainEnv).outcome .init gangFailed).db.task? 2).get (by decide)
  have over_ := ended _ reached 0 nightly (Option.some_get _).symm (by decide) (by decide)
    (fun _ task found _ => idle task (Table.mem_of_get? found)) 5
    (rest_of_advanceCandidates plainEnv 5 (by decide)) 2 report (Option.some_get _).symm
    (by decide)
  revert over_
  decide

end Dagron.Store
