import Dagron.Store.Counters

/-! What stops, ends of runs, runs that are let in and tasks that are put back do to the
counters of a steady store.
-/

namespace Dagron.Store

open Dagron.Library Dagron.Spec

-- Tasks that end uncounted

/-- The moves of a stop, which open no task that has ended. -/
def Move.stops : Move → Bool
  | .askStop | .cancel | .settle | .clearStop => true
  | _ => false

theorem Life.Steps.stops {moves : List Move} {life life' : Life} (steps : Steps moves life life')
    (stops : ∀ move ∈ moves, move.stops = true)
    : (life'.status = .pending → life.status = .pending
        ∧ life'.remainingDeps = life.remainingDeps)
      ∧ (life.status.terminal = true → life'.status.terminal = true) := by
  refine steps.rule (fun other => (other.status = .pending →
      life.status = .pending ∧ other.remainingDeps = life.remainingDeps)
    ∧ (life.status.terminal = true → other.status.terminal = true))
    ⟨fun was => ⟨was, rfl⟩, id⟩ ?_
  intro move listed first second step kept
  have stop := stops move listed
  cases step with
  | askStop | clearStop => exact kept
  | cancel | settle => exact ⟨nofun, fun _ => rfl⟩
  | _ => cases stop

section Stops

variable {moves : List Move} {before after : Db}

theorem carries_stops (steps : Moves moves before after)
    (stops : ∀ move ∈ moves, move.stops = true) (deps : after.deps = before.deps)
    (runs : after.runs = before.runs)
    (stays : LeavesWaiting before after)
    : Carries Board.Raises before after := by
  intro steady
  refine ⟨.finish (edges_of_deps_eq deps) ?_ ?_, steady.coherent.moved_tasks steps deps runs stays⟩
  · intro id live
    rw [live_board] at live ⊢
    cases is : after.task? id with
    | none => simp [is] at live
    | some task' =>
        obtain ⟨task, was, moved⟩ := steps.of_some is
        have ended := (moved.stops stops).2
        cases status : task.status.terminal with
        | false => simp [was, status]
        | true =>
            have status' : task'.status.terminal = true := ended status
            simp [is, status'] at live
  · intro id pending
    obtain ⟨task', is, status⟩ := exists_of_pending pending
    obtain ⟨task, was, moved⟩ := steps.of_some is
    obtain ⟨was_, remaining⟩ := (moved.stops stops).1 status
    refine ⟨pending_of_task? was was_, hold_of_moves steps runs is, ?_⟩
    rw [remaining_board is, remaining_board was]
    exact remaining

theorem carries_stops_counted (steps : Moves moves before after)
    (stops : ∀ move ∈ moves, move.stops = true) (deps : after.deps = before.deps)
    (runs : after.runs = before.runs)
    (stays : LeavesWaiting before after)
    (counted : ∀ id task, before.task? id = some task → task.status = .pending →
      ∀ other on on', before.dependsOn id other → before.task? other = some on →
        after.task? other = some on' → on'.status = on.status)
    : Carries Board.Keeps before after := by
  intro steady
  refine ⟨.quiet (edges_of_deps_eq deps) ?_, steady.coherent.moved_tasks steps deps runs stays⟩
  intro id pending
  obtain ⟨task', is, status⟩ := exists_of_pending pending
  obtain ⟨task, was, moved⟩ := steps.of_some is
  obtain ⟨was_, remaining⟩ := (moved.stops stops).1 status
  refine ⟨pending_of_task? was was_, ?_, hold_of_moves steps runs is, ?_⟩
  · rw [remaining_board is, remaining_board was]
    exact remaining
  · intro other edge
    rw [live_board, live_board]
    cases wasOn : before.task? other with
    | none => rw [(steps.task?_eq_none_iff other).mpr wasOn]
    | some on =>
        cases isOn : after.task? other with
        | none =>
            rw [(steps.task?_eq_none_iff other).mp isOn] at wasOn
            cases wasOn
        | some on' =>
            have same := counted id task was was_ other on on' (mem_edges.mp edge) wasOn isOn
            simp [same]

theorem leavesWaiting_of_settle (steps : Moves [.settle] before after)
    : LeavesWaiting before after := by
  intro id task task' run was is _ _ pending free
  obtain ⟨_, was', moved⟩ := steps.of_some is
  rw [was] at was'
  cases was'
  exact moved.waiting (by decide) (by decide) pending free

end Stops

-- Runs

section Runs

variable {before after : Db}

/-- Writes to run rows keep slack where a run that is changed does not wait after, and has no
pending task if it waited before.
-/
theorem carries_runs (tasks : after.tasks = before.tasks) (deps : after.deps = before.deps)
    (runs : ∀ id, after.run? id = before.run? id
      ∨ ∃ run run', before.run? id = some run ∧ after.run? id = some run'
        ∧ run'.waiting = false
        ∧ (run.waiting = false ∨ ∀ other task, before.task? other = some task →
          task.runId = id → task.status ≠ .pending))
    : Carries Board.Keeps before after := by
  intro steady
  have task? (id : Nat) : after.task? id = before.task? id := by
    unfold Db.task?
    rw [tasks]
  refine ⟨.quiet (edges_of_deps_eq deps) ?_, ?_⟩
  · intro id pending
    obtain ⟨task, is, status⟩ := exists_of_pending pending
    have was : before.task? id = some task := task? id ▸ is
    refine ⟨pending_of_task? was status, ?_, ?_, ?_⟩
    · rw [remaining_board is, remaining_board was]
    · rw [hold_board is, hold_board was]
      unfold Db.heldUnits
      rcases runs task.runId with same | ⟨run, run', found, found', waits', waits⟩
      · rw [same]
      · rcases waits with waits | none_
        · simp [found, found', waits, waits']
        · exact absurd status (none_ id task was rfl)
    · intro other _
      rw [live_board, live_board, task?]
  · have steps : Moves [] before after := .of_tasks_eq tasks
    refine steady.coherent.moved steps deps ?_ ?_
    · intro id
      rcases runs id with same | ⟨_, run', _, found', waits', _⟩
      · exact .inl same
      · exact .inr ⟨run', found', waits'⟩
    · intro id task task' run was is _ _ _ status free
      rw [task?, was] at is
      cases is
      exact ⟨status, free⟩

theorem carries_emit (db : Db) (event : OutboxEvent)
    : Carries Board.Keeps db (db.emit event) :=
  carries_runs rfl rfl (fun _ => .inl rfl)

/-- An update of run rows keeps slack where those it rewrites do not wait after, and have no
pending task if they waited before.
-/
theorem carries_updateRuns {db : Db} {cond : RunRow → Prop} [DecidablePred cond]
    {set : RunRow → RunRow} {keeps : ∀ row, (set row).toRunColumns = row.toRunColumns}
    (free : ∀ row, cond row → (set row).waiting = false)
    (idle : ∀ id row, db.run? id = some row → cond row → row.waiting = false
      ∨ ∀ other task, db.task? other = some task → task.runId = id → task.status ≠ .pending)
    : Carries Board.Keeps db (db.updateRuns cond set keeps) := by
  refine carries_runs rfl rfl ?_
  intro id
  rw [Db.run?_updateRuns]
  cases found : db.run? id with
  | none => exact .inl rfl
  | some row =>
      rw [Option.map_some]
      by_cases met : cond row
      · rw [if_pos met]
        exact .inr ⟨row, set row, rfl, rfl, free row met, idle id row found met⟩
      · rw [if_neg met]
        exact .inl rfl

/-- Stopping runs keeps slack: a run that is stopped has no pending task after, and does not
wait, and nothing outside of the runs that are stopped changes.
-/
theorem carries_stopped {stopped : Nat → Prop} (deps : after.deps = before.deps)
    (steps : Moves [.cancel, .askStop, .clearStop] before after)
    (outside : ∀ id task task', before.task? id = some task → after.task? id = some task' →
      ¬ stopped task.runId → task' = task)
    (inside : ∀ id task', after.task? id = some task' → stopped task'.runId → task'.status ≠ .pending)
    (runs : ∀ id, after.run? id = before.run? id
      ∨ (stopped id ∧ ∃ run', after.run? id = some run' ∧ run'.waiting = false))
    (waits : ∀ id run', stopped id → after.run? id = some run' → run'.waiting = false)
    : Carries Board.Keeps before after := by
  intro steady
  have home {id : Nat} {task' : TaskRow} (is : after.task? id = some task')
      : ∃ task, before.task? id = some task ∧ task'.runId = task.runId := by
    obtain ⟨task, was, steps⟩ := steps.of_some is
    exact ⟨task, was, congrArg TaskColumns.runId steps.columns.1⟩
  have same {id : Nat} {task' : TaskRow} (is : after.task? id = some task') (free : ¬ stopped task'.runId)
      : before.task? id = some task' := by
    obtain ⟨task, was, run⟩ := home is
    rw [run] at free
    rw [was, outside id task task' was is free]
  refine ⟨.quiet (edges_of_deps_eq deps) ?_, ?_⟩
  · intro id pending
    obtain ⟨task, is, status⟩ := exists_of_pending pending
    have free : ¬ stopped task.runId := fun stop => inside id task is stop status
    have was := same is free
    refine ⟨pending_of_task? was status, ?_, ?_, ?_⟩
    · rw [remaining_board is, remaining_board was]
    · rw [hold_board is, hold_board was]
      unfold Db.heldUnits
      rcases runs task.runId with kept | ⟨stop, _⟩
      · rw [kept]
      · exact absurd stop free
    · intro other edge
      obtain ⟨task_, on, was_, wasOn, run⟩ :=
        steady.coherent.edges id other (mem_edges.mp edge)
      rw [was] at was_
      cases was_
      rw [live_board, live_board, wasOn]
      cases isOn : after.task? other with
      | none =>
          rw [(steps.task?_eq_none_iff other).mp isOn] at wasOn
          cases wasOn
      | some on' => rw [outside other on on' wasOn isOn (run ▸ free)]
  · refine steady.coherent.moved steps deps ?_ ?_
    · intro id
      rcases runs id with kept | ⟨_, found⟩
      · exact .inl kept
      · exact .inr found
    · intro id task task' run was is _ found waiting status free
      have apart : ¬ stopped task.runId := by
        intro stop
        have waits' := waits _ run stop found
        rw [waiting] at waits'
        cases waits'
      rw [outside id task task' was is apart]
      exact ⟨status, free⟩

end Runs

-- Stopping runs

section Stopping

variable (env : Env) (now : Time) {db halted : Db} (run : Nat)

theorem run?_finishStoppedRun_eq (db : Db) (id : Nat)
    : (db.finishStoppedRun now run).run? id = db.run? id
      ∨ ∃ row status, id = run ∧ db.run? run = some row ∧ row.status = .running
        ∧ row.stoppingAs = some status
        ∧ (db.finishStoppedRun now run).run? id = some (row.stopped now status) := by
  unfold Db.finishStoppedRun
  split
  · exact .inl rfl
  case h_2 status asked =>
    split
    case isFalse => exact .inl rfl
    case isTrue =>
      obtain ⟨row, found, target⟩ := Option.bind_eq_some_iff.mp asked
      have running : row.status = .running := by
        by_contra other
        simp [other] at target
      rw [if_pos running] at target
      rw [Db.run?_emit]
      have read : (db.updateRuns (fun row => row.id = run) (RunRow.stopped now status)).run? id
          = (db.run? id).map (fun row => if row.id = run then row.stopped now status else row) :=
        Db.run?_updateRuns id
      by_cases here : id = run
      · subst here
        have same : row.id = id := Table.key_of_get? found
        rw [found, Option.map_some, if_pos same] at read
        exact .inr ⟨row, status, rfl, found, running, target, read⟩
      · refine .inl (read.trans ?_)
        cases other : db.run? id with
        | none => rfl
        | some row' =>
            have apart : row'.id ≠ run :=
              fun same => here ((Table.key_of_get? other).symm.trans same)
            rw [Option.map_some, if_neg apart]

theorem run?_finishStoppedRun (db : Db) (id : Nat)
    : (db.finishStoppedRun now run).run? id = db.run? id
      ∨ ∃ row row', id = run ∧ db.run? run = some row
        ∧ (db.finishStoppedRun now run).run? id = some row' ∧ row.status = .running
        ∧ row'.queuedAt = row.queuedAt ∧ row'.admittedAt = row.admittedAt := by
  rcases run?_finishStoppedRun_eq now run db id with same | ⟨row, _, here, found, running, _, read⟩
  · exact .inl same
  · exact .inr ⟨row, _, here, found, read, running, rfl, rfl⟩

theorem finishStoppedRun_ends {db : Db} {row : RunRow} {status : RunStatus}
    (found : db.run? run = some row) (running : row.status = .running)
    (asked : row.stoppingAs = some status)
    (stopped : ∀ id task, db.task? id = some task → task.runId = run → task.status ≠ .running)
    : ∃ row', (db.finishStoppedRun now run).run? run = some row' ∧ row'.status = status := by
  have none_ : db.countTasks (fun task => task.runId = run ∧ task.stopping) = 0 := by
    refine List.countP_eq_zero.mpr ?_
    intro task member
    simp only [decide_eq_true_eq]
    intro both
    exact stopped task.id task (Db.task?_of_mem member) both.1 both.2.1
  have target : (db.run? run).bind (fun row =>
      if row.status = .running then row.stoppingAs else none) = some status := by
    rw [found, Option.bind_some, if_pos running, asked]
  unfold Db.finishStoppedRun
  rw [target]
  simp only [none_, if_true, Db.run?_emit]
  have same : row.id = run := Table.key_of_get? found
  have read : (db.updateRuns (fun row => row.id = run) (RunRow.stopped now status)).run? run
      = (db.run? run).map (fun row => if row.id = run then row.stopped now status else row) :=
    Db.run?_updateRuns run
  refine ⟨row.stopped now status, ?_, rfl⟩
  exact read.trans (by rw [found, Option.map_some, if_pos same])

theorem finishStoppedRun_tasks (db : Db)
    : (db.finishStoppedRun now run).tasks = db.tasks
      ∧ (db.finishStoppedRun now run).deps = db.deps := by
  unfold Db.finishStoppedRun
  split
  · exact ⟨rfl, rfl⟩
  · split <;> exact ⟨rfl, rfl⟩

theorem Life.Steps.stopPending {life life' : Life}
    (steps : Life.Steps [.cancel, .askStop, .clearStop] life life')
    (pending : life.status = .pending)
    : life'.status = .pending ∨ life'.status = .cancelled := by
  refine steps.rule (fun other => other.status = .pending ∨ other.status = .cancelled)
    (.inl pending) ?_
  intro move listed first second step kept
  cases step with
  | cancel => exact .inr rfl
  | askStop running =>
      rw [running] at kept
      rcases kept with kept | kept <;> cases kept
  | clearStop => exact kept
  | _ => simp at listed

theorem carries_finished (steps : Moves [.cancel, .askStop, .clearStop] db halted)
    (deps : halted.deps = db.deps)
    (outside : ∀ id task task', db.task? id = some task → halted.task? id = some task' →
      task.runId ≠ run → task' = task)
    (inside : ∀ id task', halted.task? id = some task' → task'.runId = run → task'.status ≠ .pending)
    (others : ∀ id, id ≠ run → halted.run? id = db.run? id)
    (still : (db.run? run).isSome → (halted.run? run).isSome)
    (asked : ∀ row', halted.run? run = some row' → ∃ row, db.run? run = some row
      ∧ row'.status = row.status ∧ row'.queuedAt = row.queuedAt
      ∧ row'.admittedAt = row.admittedAt
      ∧ (row.waiting = true → row.stoppingAs = none →
        ∃ status, row'.stoppingAs = some status ∧ status ≠ .running))
    : Carries Board.Keeps db (halted.finishStoppedRun now run) := by
  intro steady
  obtain ⟨tasks', deps'⟩ := finishStoppedRun_tasks now run halted
  have task? (id : Nat) : (halted.finishStoppedRun now run).task? id = halted.task? id := by
    unfold Db.task?
    rw [tasks']
  have waits (row'' : RunRow) (is : (halted.finishStoppedRun now run).run? run = some row'')
      : row''.waiting = false := by
    by_contra waits
    have waits : row''.waiting = true := by simpa using waits
    simp only [RunRow.waiting, decide_eq_true_eq] at waits
    -- The run waited before, so that all its tasks were cancelled, and the stop ended it.
    have ends (row' : RunRow) (middle : halted.run? run = some row')
        (status : row'.status = .running) (queued : row'.queuedAt.isSome = true)
        (unadmitted : row'.admittedAt.isNone = true)
        : row''.status ≠ .running := by
      obtain ⟨row, found, status', queued', admitted', stop⟩ := asked row' middle
      have waited : row.waiting = true := by
        simp only [RunRow.waiting, decide_eq_true_eq]
        exact ⟨status' ▸ status, queued' ▸ queued, admitted' ▸ unadmitted⟩
      obtain ⟨free, pending⟩ := steady.coherent.waiting run row found waited
      obtain ⟨as_, target, other⟩ := stop waited free
      obtain ⟨last, is', ended⟩ := finishStoppedRun_ends now run middle status target (by
        intro other task' is' ofRun running
        obtain ⟨task, was, moved⟩ := steps.of_some is'
        have home : task'.runId = task.runId := congrArg TaskColumns.runId moved.columns.1
        have waiting := (pending other task was (home.symm.trans ofRun)).1
        have stopped : task'.status = .pending ∨ task'.status = .cancelled :=
          moved.stopPending waiting
        rw [running] at stopped
        rcases stopped with stopped | stopped <;> cases stopped)
      rw [is] at is'
      cases is'
      rw [ended]
      exact other
    rcases run?_finishStoppedRun now run halted run with same
      | ⟨row', _, _, middle, is', status, queued, admitted⟩
    · rw [same] at is
      exact ends row'' is waits.1 waits.2.1 waits.2.2 waits.1
    · rw [is] at is'
      cases is'
      exact ends row' middle status (queued ▸ waits.2.1) (admitted ▸ waits.2.2) waits.1
  refine @carries_stopped db _ (· = run) (deps'.trans deps)
    (.trans steps (.of_tasks_eq tasks')) ?_ ?_ ?_ ?_ steady
  · intro id task task' was is free
    exact outside id task task' was (task? id ▸ is) free
  · intro id task' is ofRun
    exact inside id task' (task? id ▸ is) ofRun
  · intro id
    by_cases here : id = run
    · subst here
      cases is : (halted.finishStoppedRun now id).run? id with
      | some row'' => exact .inr ⟨rfl, row'', rfl, waits row'' is⟩
      | none =>
          left
          rcases run?_finishStoppedRun now id halted id with same | ⟨_, _, _, _, is', _⟩
          · cases was : db.run? id with
            | none => rfl
            | some row =>
                have some_ := still (by simp [was])
                rw [← same, is] at some_
                cases some_
          · rw [is] at is'
            cases is'
    · rcases run?_finishStoppedRun now run halted id with same | ⟨_, _, at_, _⟩
      · exact .inl (same.trans (others id here))
      · exact absurd at_ here
  · intro id row'' here is
    subst here
    exact waits row'' is

theorem task?_stopRunTasks (db : Db) {id : Nat} {task : TaskRow} (was : db.task? id = some task)
    : ∃ task', (db.stopRunTasks env now run).task? id = some task'
        ∧ (task.runId ≠ run → task' = task) ∧ (task.runId = run → task'.status ≠ .pending) := by
  simp only [Db.stopRunTasks]
  refine ⟨_, Db.task?_updated (Db.task?_updated was), ?_, ?_⟩
  · intro other
    have unmet : ¬ (task.runId = run ∧ task.idle) := fun met => other met.1
    have unmet' : ¬ (task.runId = run ∧ task.held) := fun met => other met.1
    rw [if_neg unmet, if_neg unmet']
  · intro ofRun pending
    by_cases idle : task.runId = run ∧ task.idle
    · simp only [if_pos idle] at pending
      split at pending <;> cases pending
    · simp only [if_neg idle] at pending
      split at pending <;> exact idle ⟨ofRun, .inl pending⟩

theorem carries_stopRun {asked : Db} (tasks : asked.tasks = db.tasks) (deps : asked.deps = db.deps)
    (others : ∀ id, id ≠ run → asked.run? id = db.run? id)
    (still : (db.run? run).isSome → (asked.run? run).isSome)
    (row : ∀ row', asked.run? run = some row' → ∃ row, db.run? run = some row
      ∧ row'.status = row.status ∧ row'.queuedAt = row.queuedAt
      ∧ row'.admittedAt = row.admittedAt
      ∧ (row.waiting = true → row.stoppingAs = none →
        ∃ status, row'.stoppingAs = some status ∧ status ≠ .running))
    : Carries Board.Keeps db ((asked.stopRunTasks env now run).finishStoppedRun now run) := by
  have task? (id : Nat) : asked.task? id = db.task? id := by
    unfold Db.task?
    rw [tasks]
  have runs (id : Nat) : (asked.stopRunTasks env now run).run? id = asked.run? id := rfl
  refine carries_finished now run ?_ deps ?_ ?_ others still row
  · refine .trans (.of_tasks_eq tasks) ?_
    exact moves_stopRunTasks env now asked run (by decide) (by decide)
  · intro id task task' was is apart
    obtain ⟨other, is', same, _⟩ :=
      task?_stopRunTasks env now run asked ((task? id).trans was)
    rw [is] at is'
    cases is'
    exact same apart
  · intro id task' is ofRun
    have steps : Moves [.cancel, .askStop] asked (asked.stopRunTasks env now run) :=
      moves_stopRunTasks env now asked run (by decide) (by decide)
    obtain ⟨task, was, moved⟩ := steps.of_some is
    have home : task'.runId = task.runId := congrArg TaskColumns.runId moved.columns.1
    obtain ⟨other, is', _, started⟩ := task?_stopRunTasks env now run asked was
    rw [is] at is'
    cases is'
    exact started (home.symm.trans ofRun)

theorem run?_updateRun {db : Db} {cond : RunRow → Prop} [DecidablePred cond]
    {set : RunRow → RunRow} {keeps : ∀ row, (set row).toRunColumns = row.toRunColumns}
    (only : ∀ row, cond row → row.id = run)
    : (∀ id, id ≠ run → (db.updateRuns cond set keeps).run? id = db.run? id)
      ∧ ((db.run? run).isSome → ((db.updateRuns cond set keeps).run? run).isSome)
      ∧ ∀ row', (db.updateRuns cond set keeps).run? run = some row' →
        ∃ row, db.run? run = some row ∧ row' = if cond row then set row else row := by
  refine ⟨?_, ?_, ?_⟩
  · intro id apart
    rw [Db.run?_updateRuns]
    cases found : db.run? id with
    | none => rfl
    | some row =>
        have unmet : ¬ cond row :=
          fun met => apart ((Table.key_of_get? found).symm.trans (only row met))
        rw [Option.map_some, if_neg unmet]
  · rw [Db.run?_updateRuns]
    intro some_
    rw [Option.isSome_map]
    exact some_
  · intro row' is
    rw [Db.run?_updateRuns] at is
    obtain ⟨row, found, same⟩ := Option.map_eq_some_iff.mp is
    exact ⟨row, found, same.symm⟩

theorem carries_askedRun {db : Db} {cond : RunRow → Prop} [DecidablePred cond]
    {set : RunRow → RunRow} {keeps : ∀ row, (set row).toRunColumns = row.toRunColumns}
    (only : ∀ row, cond row → row.id = run)
    (all : ∀ row, row.id = run → row.waiting = true → row.stoppingAs = none → cond row)
    (set_ : ∀ row, (set row).status = row.status ∧ (set row).queuedAt = row.queuedAt
      ∧ (set row).admittedAt = row.admittedAt
      ∧ (row.stoppingAs = none → ∃ status, (set row).stoppingAs = some status
        ∧ status ≠ .running))
    : Carries Board.Keeps db
      (((db.updateRuns cond set keeps).stopRunTasks env now run).finishStoppedRun now run) := by
  obtain ⟨others, still, read⟩ := @run?_updateRun run db cond _ set keeps only
  refine carries_stopRun env now run rfl rfl others still ?_
  intro row' is
  obtain ⟨row, found, rfl⟩ := read row' is
  refine ⟨row, found, ?_⟩
  split
  case isTrue =>
    obtain ⟨status, queued, admitted, asked⟩ := set_ row
    exact ⟨status, queued, admitted, fun _ => asked⟩
  case isFalse unmet =>
    exact ⟨rfl, rfl, rfl, fun waits free =>
      absurd (all row (Table.key_of_get? found) waits free) unmet⟩

theorem RunRow.running_of_waiting {row : RunRow} (waits : row.waiting = true)
    : row.status = .running := by
  simp only [RunRow.waiting, decide_eq_true_eq] at waits
  exact waits.1

theorem carries_cancelRun (db : Db)
    : Carries Board.Keeps db (db.cancelRun env now run) := by
  simp only [Db.cancelRun]
  split
  · exact .refl db
  · refine carries_askedRun env now run (fun _ met => met.1) ?_ ?_
    · intro row same waits _
      exact ⟨same, row.running_of_waiting waits⟩
    · intro row
      exact ⟨rfl, rfl, rfl, fun free => ⟨_, rfl, by simp [free]⟩⟩

theorem carries_supersedeRuns (db : Db) (name : String) (key : Option String) (newer : Nat)
    (own : Option RunTrigger)
    : Carries Board.Keeps db (db.supersedeRuns env now name key newer own) := by
  refine .foldl (fun _ => True) (fun db _ run _ => ⟨?_, trivial⟩) db trivial
  simp only [Db.supersedeRun]
  split
  · exact .refl db
  · refine carries_askedRun env now run (fun _ met => met.1) ?_ ?_
    · intro row same waits free
      exact ⟨same, row.running_of_waiting waits, by simp [free]⟩
    · intro row
      exact ⟨rfl, rfl, rfl, fun _ => ⟨_, rfl, (by rintro ⟨⟩)⟩⟩

theorem RunRow.overdue.waiting {row : RunRow} (overdue : row.overdue now)
    : row.waiting = false := by
  obtain ⟨_, _, _, admitted⟩ := overdue
  unfold RunRow.waiting
  rcases admitted with admitted | admitted
  · cases queued : row.queuedAt <;> simp_all
  · cases admitted_ : row.admittedAt <;> simp_all

theorem waiting_finishStoppedRun {db : Db} {id : Nat}
    (free : ∀ row, db.run? id = some row → row.waiting = false)
    : ∀ row, (db.finishStoppedRun now run).run? id = some row → row.waiting = false := by
  intro row' is
  rcases run?_finishStoppedRun now run db id with same
    | ⟨row, after, _, found, is', status, queued, admitted⟩
  · exact free row' (same ▸ is)
  · subst run
    rw [is] at is'
    cases is'
    have waits := free row found
    simp only [RunRow.waiting, status, true_and, decide_eq_false_iff_not] at waits
    simp only [RunRow.waiting, queued, admitted, decide_eq_false_iff_not]
    exact fun both => waits both.2

theorem carries_cancelOverdueRuns (db : Db)
    : Carries Board.Keeps db (db.cancelOverdueRuns env now) := by
  have read (id : Nat)
      : (db.updateRuns (RunRow.overdue now) (RunRow.timedOut now)).run? id
        = (db.run? id).map (fun row =>
            if row.overdue now then row.timedOut now else row) :=
    Db.run?_updateRuns id
  have asks : Carries Board.Keeps db (db.updateRuns (RunRow.overdue now) (RunRow.timedOut now)) := by
    have free (row : RunRow) (overdue : row.overdue now) : row.waiting = false :=
      RunRow.overdue.waiting now overdue
    exact carries_updateRuns free (fun _ row _ overdue => .inl (free row overdue))
  simp only [Db.cancelOverdueRuns]
  refine asks.trans (.foldl (fun db' => ∀ run ∈ (db.runs.select (RunRow.overdue now)).map
    (fun run => run.id), ∀ row, db'.run? run = some row → row.waiting = false) ?_ _ ?_)
  · intro db' free run listed
    refine ⟨carries_stopRun env now run rfl rfl (fun _ _ => rfl) id ?_, ?_⟩
    · intro row is
      exact ⟨row, is, rfl, rfl, rfl, fun waits => by simp [free run listed row is] at waits⟩
    · intro other listed'
      exact waiting_finishStoppedRun now run (free other listed')
  · intro run listed row is
    obtain ⟨overdue, among, rfl⟩ := List.mem_map.mp listed
    obtain ⟨present, met⟩ := Table.mem_select.mp among
    have found : db.run? overdue.id = some overdue := Table.get?_of_mem present
    rw [read, found, Option.map_some, if_pos met] at is
    cases is
    have free : overdue.waiting = false := RunRow.overdue.waiting now met
    exact free

theorem carries_endStoppedRun (db : Db) (free : ∀ row, db.run? run = some row → row.waiting = false)
    : Carries Board.Keeps db (db.endStoppedRun env now run) := by
  intro steady
  have steps : Moves [.cancel, .askStop, .clearStop] db
      ((db.stopRunTasks env now run).updateTasks
        (fun task => task.runId = run ∧ task.status ≠ .running ∧ task.stopRequestedAt.isSome)
        (fun task => { task with stopRequestedAt := none })) := by
    refine .trans (moves_stopRunTasks env now db run (by decide) (by decide))
      (.update_step .clearStop (by decide) ?_)
    intro task met
    exact .clearStop met.2.1
  have read {id : Nat} {task : TaskRow} (was : db.task? id = some task)
      : ∃ task', ((db.stopRunTasks env now run).updateTasks
          (fun task => task.runId = run ∧ task.status ≠ .running ∧ task.stopRequestedAt.isSome)
          (fun task => { task with stopRequestedAt := none })).task? id = some task'
        ∧ (task.runId ≠ run → task' = task) ∧ (task.runId = run → task'.status ≠ .pending) := by
    obtain ⟨middle, is, same, started⟩ := task?_stopRunTasks env now run db was
    refine ⟨_, Db.task?_updated is, ?_, ?_⟩
    · intro other
      have same := same other
      subst same
      rw [if_neg (fun met => other met.1)]
    · intro ofRun
      split <;> exact started ofRun
  simp only [Db.endStoppedRun]
  refine carries_finished now run steps rfl ?_ ?_ (fun _ _ => rfl) id ?_ steady
  · intro id task task' was is apart
    obtain ⟨_, is', same, _⟩ := read was
    rw [is] at is'
    cases is'
    exact same apart
  · intro id task' is ofRun
    obtain ⟨task, was, moved⟩ := steps.of_some is
    have home : task'.runId = task.runId := congrArg TaskColumns.runId moved.columns.1
    obtain ⟨_, is', _, started⟩ := read was
    rw [is] at is'
    cases is'
    exact started (home.symm.trans ofRun)
  · intro row is
    exact ⟨row, is, rfl, rfl, rfl, fun waits => by simp [free row is] at waits⟩

end Stopping

end Dagron.Store
