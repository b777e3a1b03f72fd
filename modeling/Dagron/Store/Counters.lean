import Dagron.Store.Fence

/-! The counters of pending tasks as a countdown board, and what the statements of the store do
to it. A store is steady when its rows belong together and no counter is below the count it
stands for; each statement keeps a steady store so, and keeps the slack of its counters.
-/

namespace Dagron.Store

open Dagron.Library Dagron.Spec

-- The board of a store

def Db.awaited (db : Db) (id : Nat) : Prop :=
  ∃ dep ∈ db.deps.rows, dep.dependency = id
    ∧ (db.task? dep.dependent).any (fun task => task.status = .pending)

instance (db : Db) (id : Nat) : Decidable (db.awaited id) := by
  unfold Db.awaited
  infer_instance

def Db.unfinished (db : Db) (id : Nat) : Nat :=
  (db.depStatuses id).countP (fun status => !status.terminal)

/-- The unit a task of a run is held by besides, while its run waits in the queue. -/
def Db.heldUnits (db : Db) (run : Nat) : Nat :=
  if (db.run? run).any RunRow.waiting then 1 else 0

def Db.board (db : Db) : Board Nat where
  edges := db.deps.rows.map (fun dep => (dep.dependent, dep.dependency))
  pending id := (db.task? id).any (fun task => task.status = .pending)
  live id := (db.task? id).any (fun task => !task.status.terminal)
  remaining id := ((db.task? id).map TaskRow.remainingDeps).getD 0
  hold id := ((db.task? id).map (fun task => (db.heldUnits task.runId : Int))).getD 0

section Board

variable {db db' : Db} {id : Nat} {task : TaskRow}

@[simp]
theorem pending_board
    : db.board.pending id = (db.task? id).any (fun task => task.status = .pending) :=
  rfl

@[simp]
theorem live_board
    : db.board.live id = (db.task? id).any (fun task => !task.status.terminal) :=
  rfl

theorem exists_of_pending (pending : db.board.pending id = true)
    : ∃ task, db.task? id = some task ∧ task.status = .pending := by
  rw [pending_board] at pending
  cases found : db.task? id with
  | none => simp [found] at pending
  | some task =>
      rw [found] at pending
      exact ⟨task, rfl, by simpa using pending⟩

theorem pending_of_task? (found : db.task? id = some task) (pending : task.status = .pending)
    : db.board.pending id = true := by
  simp [found, pending]

theorem remaining_board (found : db.task? id = some task)
    : db.board.remaining id = task.remainingDeps := by
  simp [Db.board, found]

theorem hold_board (found : db.task? id = some task)
    : db.board.hold id = db.heldUnits task.runId := by
  simp [Db.board, found]

theorem mem_edges {node other : Nat}
    : (node, other) ∈ db.board.edges ↔ db.dependsOn node other := by
  constructor
  · intro member
    obtain ⟨dep, present, same⟩ := List.mem_map.mp member
    cases same
    exact present
  · exact fun present => List.mem_map.mpr ⟨_, present, rfl⟩

theorem nodup_edges (db : Db)
    : db.board.edges.Nodup := by
  refine List.Nodup.map ?_ (List.Nodup.of_map _ db.deps.nodup)
  intro first second same
  cases first
  cases second
  cases same
  rfl

theorem edges_of_deps_eq (deps : db'.deps = db.deps)
    : db'.board.edges = db.board.edges := by
  unfold Db.board
  rw [deps]

/-- The board's blockers are the unfinished dependencies, by induction over the dependencies. -/
theorem blockers_board (db : Db) (id : Nat)
    : db.board.blockers id = db.unfinished id := by
  have counted (rows : List DepRow)
      : Board.prerequisites (rows.map (fun dep => (dep.dependent, dep.dependency)))
          db.board.live id
        = ((((rows.filter (fun dep => dep.dependent = id)).map DepRow.dependency).filterMap
          (fun dep => (db.task? dep).map TaskRow.status)).countP
            (fun status => !status.terminal)) := by
    induction rows with
    | nil => rfl
    | cons dep rest ih =>
        simp only [Board.prerequisites, List.map_cons, List.countP_cons] at ih ⊢
        rw [ih]
        by_cases here : dep.dependent = id
        · cases found : db.task? dep.dependency with
          | none => simp [here, found]
          | some task => simp [here, found, List.countP_cons]
        · simp [here]
  exact counted db.deps.rows

theorem slack_board (found : db.task? id = some task)
    : db.board.slack id = task.remainingDeps - db.unfinished id - db.heldUnits task.runId := by
  rw [Board.slack, remaining_board found, hold_board found, blockers_board]

end Board

-- Steady stores

/-- The rows of a store belong together: tasks are of runs, dependencies are between tasks of
one run and make no cycle, and in a run that waits every task is pending.
-/
structure Db.Coherent (db : Db) : Prop where
  homes
    : ∀ id task, db.task? id = some task → (db.run? task.runId).isSome
  edges
    : ∀ node other, db.dependsOn node other → ∃ task on, db.task? node = some task
        ∧ db.task? other = some on ∧ task.runId = on.runId
  acyclic
    : Board.Acyclic db.board.edges
  waiting
    : ∀ id run, db.run? id = some run → run.waiting = true → run.stoppingAs = none
        ∧ ∀ other task, db.task? other = some task → task.runId = id →
          task.status = .pending ∧ task.claimedBy = none

/-- Every task is of a run that is there, and dependencies are between tasks of one run. -/
structure Db.Sited (db : Db) : Prop where
  homes
    : ∀ id task, db.task? id = some task → (db.run? task.runId).isSome
  edges
    : ∀ node other, db.dependsOn node other → ∃ task on, db.task? node = some task
        ∧ db.task? other = some on ∧ task.runId = on.runId

theorem Db.Coherent.sited {db : Db} (coherent : db.Coherent)
    : db.Sited :=
  ⟨coherent.homes, coherent.edges⟩

/-- A coherent store whose counters do not run ahead. -/
structure Db.Steady (db : Db) : Prop where
  coherent
    : db.Coherent
  solvent
    : db.board.Solvent

/-- A transaction keeps a steady store coherent, and relates the boards before and after. -/
def Carries (Rel : Board Nat → Board Nat → Prop) (before after : Db) : Prop :=
  before.Steady → Rel before.board after.board ∧ after.Coherent

namespace Carries

variable {first second third : Db}

theorem refl (db : Db)
    : Carries Board.Keeps db db :=
  fun steady => ⟨.refl _, steady.coherent⟩

theorem trans (before : Carries Board.Keeps first second) (after : Carries Board.Keeps second third)
    : Carries Board.Keeps first third := by
  intro steady
  obtain ⟨keeps, coherent⟩ := before steady
  obtain ⟨keeps', coherent'⟩ := after ⟨coherent, keeps.raises.solvent steady.solvent⟩
  exact ⟨keeps.trans keeps', coherent'⟩

theorem raises (carries : Carries Board.Keeps first second)
    : Carries Board.Raises first second := by
  intro steady
  obtain ⟨keeps, coherent⟩ := carries steady
  exact ⟨keeps.raises, coherent⟩

theorem trans_raises (before : Carries Board.Raises first second)
    (after : Carries Board.Raises second third)
    : Carries Board.Raises first third := by
  intro steady
  obtain ⟨raises, coherent⟩ := before steady
  obtain ⟨raises', coherent'⟩ := after ⟨coherent, raises.solvent steady.solvent⟩
  exact ⟨raises.trans raises', coherent'⟩

theorem then_recounts (before : Carries Board.Keeps first second)
    (after : Carries Board.Recounts second third)
    : Carries Board.Recounts first third := by
  intro steady
  obtain ⟨keeps, coherent⟩ := before steady
  obtain ⟨recounts, coherent'⟩ := after ⟨coherent, keeps.raises.solvent steady.solvent⟩
  exact ⟨keeps.then_recounts recounts, coherent'⟩

theorem recounts_then (before : Carries Board.Recounts first second)
    (after : Carries Board.Keeps second third)
    : Carries Board.Recounts first third := by
  intro steady
  obtain ⟨recounts, coherent⟩ := before steady
  obtain ⟨keeps, coherent'⟩ := after ⟨coherent, recounts.solvent steady.solvent⟩
  exact ⟨recounts.then_keeps keeps, coherent'⟩

theorem foldl {Item : Type} {statement : Db → Item → Db} {items : List Item} (Met : Db → Prop)
    (each : ∀ db, Met db → ∀ item ∈ items, Carries Board.Keeps db (statement db item)
      ∧ Met (statement db item))
    (db : Db) (met : Met db)
    : Carries Board.Keeps db (items.foldl statement db) := by
  refine (@List.foldlRecOn _ _ (fun after => Carries Board.Keeps db after ∧ Met after) _ _ _ ⟨.refl db, met⟩ ?_).1
  intro after ⟨carries, met⟩ item among
  exact ⟨carries.trans (each after met item among).1, (each after met item among).2⟩

end Carries

theorem Db.Steady.remaining_pos {db : Db} (steady : db.Steady) {id : Nat} {task : TaskRow}
    (found : db.task? id = some task) (pending : task.status = .pending) {run : RunRow}
    (home : db.run? task.runId = some run) (waits : run.waiting = true)
    : 0 < task.remainingDeps := by
  have above := steady.solvent id (pending_of_task? found pending)
  rw [slack_board found] at above
  have held : db.heldUnits task.runId = 1 := by simp [Db.heldUnits, home, waits]
  omega

-- Statements that move rows

/-- The moves that make no task pending, end none and count none. -/
def Move.quiet : Move → Bool
  | .ready | .parkBarrier | .ask | .claim | .renew | .recover | .park | .release | .requeue
  | .askStop | .claimTeardown | .clearStop | .stamp | .clearHandle => true
  | _ => false

/-- The moves that only a task with nothing left to wait for makes out of `pending`. -/
def Move.starts : Move → Bool
  | .ready | .parkBarrier | .ask | .skip | .failWhen => true
  | _ => false

def Move.counts : Move → Bool
  | .count | .recount => true
  | _ => false

namespace Life

/-- Quiet moves leave a life pending or not, ended or not, and its counter while it is pending. -/
theorem Steps.quiet {moves : List Move} {life life' : Life} (steps : Steps moves life life')
    (quiet : ∀ move ∈ moves, move.quiet = true)
    : (life'.status = .pending → life.status = .pending ∧ life'.remainingDeps = life.remainingDeps)
      ∧ life'.status.terminal = life.status.terminal := by
  refine steps.rule (fun other => (other.status = .pending →
      life.status = .pending ∧ other.remainingDeps = life.remainingDeps)
    ∧ other.status.terminal = life.status.terminal) ⟨fun was => ⟨was, rfl⟩, rfl⟩ ?_
  intro move listed first second step kept
  have silent := quiet move listed
  cases step with
  | ready was | ask was | parkBarrier was | claim was | recover was | release was | requeue was =>
      rw [was] at kept
      exact ⟨nofun, kept.2⟩
  | renew | askStop | claimTeardown | clearStop | stamp | clearHandle | park => exact kept
  | _ => cases silent

/-- A life that waits, held by nobody, is left waiting by moves that neither start nor cancel
tasks.
-/
theorem Steps.waiting {moves : List Move} {life life' : Life} (steps : Steps moves life life')
    (starts : ∀ move ∈ moves, move.starts = false) (cancel : .cancel ∉ moves)
    (pending : life.status = .pending) (free : life.claimedBy = none)
    : life'.status = .pending ∧ life'.claimedBy = none := by
  refine steps.rule (fun other => other.status = .pending ∧ other.claimedBy = none)
    ⟨pending, free⟩ ?_
  intro move listed first second step kept
  obtain ⟨pending, free⟩ := kept
  have still := starts move listed
  cases step with
  | count | recount | clearStop | clearHandle => exact ⟨pending, free⟩
  | ready | parkBarrier | ask | skip | failWhen => cases still
  | claim was | recover was | park was | release was | resolve _ was | requeue was
  | askStop was | settle was | claimTeardown was | stamp was | finishBarrier _ was
  | decide _ was =>
      rw [was] at pending
      cases pending
  | renew held | succeed held | fail held | retry held => simp [free] at held
  | cancel => exact absurd listed cancel
  | retryFromUi ended => simp [pending] at ended
  | reset ended => simp [pending, TaskStatus.terminal] at ended

/-- A life that waits for something, held by nobody, is left waiting by moves that neither
count nor cancel.
-/
theorem Steps.blocked {moves : List Move} {life life' : Life} (steps : Steps moves life life')
    (counts : ∀ move ∈ moves, move.counts = false) (cancel : .cancel ∉ moves)
    (pending : life.status = .pending) (free : life.claimedBy = none)
    (blocked : 0 < life.remainingDeps)
    : life'.status = .pending ∧ life'.claimedBy = none := by
  have whole : life'.status = .pending ∧ life'.claimedBy = none ∧ 0 < life'.remainingDeps := by
    refine steps.rule (fun other => other.status = .pending ∧ other.claimedBy = none
      ∧ 0 < other.remainingDeps) ⟨pending, free, blocked⟩ ?_
    intro move listed first second step kept
    obtain ⟨pending, free, blocked⟩ := kept
    by_cases starts : move.starts = true
    · cases step with
      | ready _ zero | parkBarrier _ zero | ask _ zero | skip _ zero | failWhen _ zero =>
          exact absurd blocked (by omega)
      | _ => cases starts
    · have single : Steps [move] first second := step.steps List.mem_cons_self
      have still := single.waiting (by simpa using starts) ?_ pending free
      · have same : second.remainingDeps = first.remainingDeps := by
          have silent := counts move listed
          cases step with
          | count | recount => cases silent
          | _ => rfl
        exact ⟨still.1, still.2, same ▸ blocked⟩
      · intro other
        simp only [List.mem_singleton] at other
        exact cancel (other ▸ listed)
  exact ⟨whole.1, whole.2.1⟩

end Life

section Statements

variable {moves : List Move} {before after : Db}

/-- A statement leaves the tasks of the runs that wait. -/
def LeavesWaiting (before after : Db) : Prop :=
  ∀ id task task' run, before.task? id = some task → after.task? id = some task' →
    before.run? task.runId = some run → run.waiting = true →
    task.status = .pending → task.claimedBy = none →
    task'.status = .pending ∧ task'.claimedBy = none

/-- Moving rows along, and keeping the runs that are there, keeps every row where it belongs. -/
theorem Db.Sited.moved (sited : before.Sited) (steps : Moves moves before after)
    (deps : after.deps = before.deps)
    (runs : ∀ id, (before.run? id).isSome → (after.run? id).isSome)
    : after.Sited := by
  have still {id : Nat} {task : TaskRow} (was : before.task? id = some task)
      : ∃ task', after.task? id = some task' ∧ task'.runId = task.runId := by
    cases is : after.task? id with
    | none =>
        rw [(steps.task?_eq_none_iff id).mp is] at was
        cases was
    | some task' =>
        obtain ⟨_, was', moved⟩ := steps.of_some is
        rw [was] at was'
        cases was'
        exact ⟨task', rfl, congrArg TaskColumns.runId moved.columns.1⟩
  refine ⟨?_, ?_⟩
  · intro id task' is
    obtain ⟨task, was, moved⟩ := steps.of_some is
    rw [show task'.runId = task.runId from congrArg TaskColumns.runId moved.columns.1]
    exact runs _ (sited.homes id task was)
  · intro node other depends
    have depended : before.dependsOn node other := by
      unfold Db.dependsOn at depends ⊢
      rwa [deps] at depends
    obtain ⟨task, on, was, wasOn, same⟩ := sited.edges node other depended
    obtain ⟨task', is, same'⟩ := still was
    obtain ⟨on', isOn, sameOn⟩ := still wasOn
    exact ⟨task', on', is, isOn, same'.trans (same.trans sameOn.symm)⟩

/-- What moves tasks keeps a store coherent, where it leaves the tasks of the runs that wait
after.
-/
theorem Db.Coherent.moved (coherent : before.Coherent) (steps : Moves moves before after)
    (deps : after.deps = before.deps)
    (runs : ∀ id, after.run? id = before.run? id
      ∨ ∃ run', after.run? id = some run' ∧ run'.waiting = false)
    (stays : ∀ id task task' run, before.task? id = some task → after.task? id = some task' →
      before.run? task.runId = some run → after.run? task.runId = some run →
      run.waiting = true → task.status = .pending → task.claimedBy = none →
      task'.status = .pending ∧ task'.claimedBy = none)
    : after.Coherent := by
  have home {id : Nat} {task' : TaskRow} (is : after.task? id = some task')
      : ∃ task, before.task? id = some task ∧ task'.runId = task.runId := by
    obtain ⟨task, was, steps⟩ := steps.of_some is
    exact ⟨task, was, congrArg TaskColumns.runId steps.columns.1⟩
  have sited : after.Sited := by
    refine coherent.sited.moved steps deps (fun id there => ?_)
    rcases runs id with kept | ⟨run', found, _⟩
    · rwa [kept]
    · rw [found]
      rfl
  refine ⟨sited.homes, sited.edges, ?_, ?_⟩
  · rw [edges_of_deps_eq deps]
    exact coherent.acyclic
  · intro id run found waits
    rcases runs id with kept | ⟨run', found', waits'⟩
    · have was : before.run? id = some run := kept ▸ found
      obtain ⟨stopping, pending⟩ := coherent.waiting id run was waits
      refine ⟨stopping, ?_⟩
      intro other task' is ofRun
      obtain ⟨task, wasTask, same⟩ := home is
      have ofRun : task.runId = id := same.symm.trans ofRun
      obtain ⟨status, free⟩ := pending other task wasTask ofRun
      subst ofRun
      exact stays other task task' run wasTask is was found waits status free
    · rw [found] at found'
      cases found'
      rw [waits] at waits'
      cases waits'

/-- A statement that writes task rows alone keeps a store coherent, where it leaves the tasks
of the runs that wait.
-/
theorem Db.Coherent.moved_tasks (coherent : before.Coherent) (steps : Moves moves before after)
    (deps : after.deps = before.deps) (runs : after.runs = before.runs)
    (stays : LeavesWaiting before after)
    : after.Coherent := by
  refine coherent.moved steps deps (fun id => .inl ?_) ?_
  · unfold Db.run?
    rw [runs]
  · intro id task task' run was is home _
    exact stays id task task' run was is home

theorem hold_of_moves (steps : Moves moves before after) (runs : after.runs = before.runs)
    {id : Nat} {task' : TaskRow} (is : after.task? id = some task')
    : after.board.hold id = before.board.hold id := by
  obtain ⟨task, was, steps⟩ := steps.of_some is
  have same : task'.runId = task.runId := congrArg TaskColumns.runId steps.columns.1
  rw [hold_board is, hold_board was, same]
  unfold Db.heldUnits Db.run?
  rw [runs]

theorem carries_quiet (steps : Moves moves before after)
    (quiet : ∀ move ∈ moves, move.quiet = true) (deps : after.deps = before.deps)
    (runs : after.runs = before.runs)
    : Carries Board.Keeps before after := by
  intro steady
  refine ⟨.quiet (edges_of_deps_eq deps) ?_, steady.coherent.moved_tasks steps deps runs ?_⟩
  · intro id pending
    obtain ⟨task', is, status⟩ := exists_of_pending pending
    obtain ⟨task, was, moved⟩ := steps.of_some is
    obtain ⟨was_, remaining⟩ := (moved.quiet quiet).1 status
    refine ⟨pending_of_task? was was_, ?_, hold_of_moves steps runs is, ?_⟩
    · rw [remaining_board is, remaining_board was]
      exact remaining
    · intro other _
      rw [live_board, live_board]
      have moved := steps other
      cases was : before.task? other with
      | none =>
          rw [(steps.task?_eq_none_iff other).mpr was]
      | some row =>
          rw [was] at moved
          cases is : after.task? other with
          | none =>
              rw [is] at moved
              cases moved
          | some row' =>
              rw [is] at moved
              cases moved with
              | some moved =>
                  have same : row'.status.terminal = row.status.terminal :=
                    (moved.quiet quiet).2
                  simp [same]
  · intro id task task' run was is home waits status free
    obtain ⟨_, was', moved⟩ := steps.of_some is
    rw [was] at was'
    cases was'
    refine moved.blocked ?_ ?_ status free (steady.remaining_pos was status home waits)
    · intro move listed
      have silent := quiet move listed
      cases move <;> first | rfl | cases silent
    · intro listed
      cases quiet _ listed

theorem Db.awaited_of_pending {db : Db} {node other : Nat} {row : TaskRow}
    (found : db.task? node = some row) (pending : row.status = .pending)
    (depends : db.dependsOn node other)
    : db.awaited other :=
  ⟨⟨node, other⟩, depends, rfl, by simp [found, pending]⟩

/-- A write to one task that does not wait, and is not made to, keeps slack where it neither
ends nor opens the task, or nothing pending depends on it.
-/
theorem carries_rewritten {id : Nat} (steps : Moves moves before after)
    (deps : after.deps = before.deps) (runs : after.runs = before.runs)
    (others : ∀ other, other ≠ id → after.task? other = before.task? other)
    (started : ∀ task, before.task? id = some task → ¬ (task.status = .pending ∧ task.claimedBy = none))
    (started' : ∀ task, after.task? id = some task → task.status ≠ .pending)
    (open_ : (∀ task task', before.task? id = some task → after.task? id = some task' →
        task'.status.terminal = task.status.terminal) ∨ ¬ before.awaited id)
    : Carries Board.Keeps before after := by
  intro steady
  refine ⟨.quiet (edges_of_deps_eq deps) ?_, steady.coherent.moved_tasks steps deps runs ?_⟩
  · intro node pending
    obtain ⟨row, is, status⟩ := exists_of_pending pending
    have apart : node ≠ id := by
      intro here
      subst here
      exact started' row is status
    have was : before.task? node = some row := others node apart ▸ is
    refine ⟨pending_of_task? was status, ?_, hold_of_moves steps runs is, ?_⟩
    · rw [remaining_board is, remaining_board was]
    · intro other edge
      rw [live_board, live_board]
      by_cases here : other = id
      · subst here
        rcases open_ with same | unawaited
        · cases wasOn : before.task? other with
          | none => rw [(steps.task?_eq_none_iff other).mpr wasOn]
          | some on =>
              cases isOn : after.task? other with
              | none =>
                  rw [(steps.task?_eq_none_iff other).mp isOn] at wasOn
                  cases wasOn
              | some on' =>
                  have same := same on on' wasOn isOn
                  simp [same]
        · exact absurd (Db.awaited_of_pending was status (mem_edges.mp edge)) unawaited
      · rw [others other here]
  · intro other row row' run was is _ _ pending free
    have apart : other ≠ id := by
      intro here
      subst here
      exact started row was ⟨pending, free⟩
    rw [others other apart, was] at is
    cases is
    exact ⟨pending, free⟩

theorem task?_updateTask {db : Db} {id : Nat} {cond : TaskRow → Prop} [DecidablePred cond]
    {set : TaskRow → TaskRow} {keeps : ∀ row, (set row).toTaskColumns = row.toTaskColumns}
    (only : ∀ task, cond task → task.id = id) {other : Nat} (apart : other ≠ id)
    : (db.updateTasks cond set keeps).task? other = db.task? other := by
  rw [Db.task?_updateTasks]
  cases was : db.task? other with
  | none => rfl
  | some row =>
      rw [Option.map_some, if_neg (fun met => apart ((Db.id_of_task? was).symm.trans (only row met)))]

end Statements

-- Statements that end tasks

section Ends

variable {db : Db}

theorem task?_releaseDependents (db : Db) (ended id : Nat)
    : (db.releaseDependents ended).task? id
      = (db.task? id).map (fun task =>
          if task.status = .pending ∧ db.dependsOn task.id ended then
            { task with remainingDeps := task.remainingDeps - 1 }
          else task) :=
  Db.task?_updateTasks id

def TaskRow.uncounted (task : TaskRow) : TaskRow :=
  { task with remainingDeps := 0 }

theorem TaskRow.of_uncounted_eq {task task' : TaskRow} (same : task'.uncounted = task.uncounted)
    : task'.status = task.status ∧ task'.claimedBy = task.claimedBy := by
  have status := congrArg TaskRow.status same
  have claimed := congrArg TaskRow.claimedBy same
  exact ⟨status, claimed⟩

theorem task?_endTask {db' : Db} {id : Nat} {guard : TaskRow → Prop} [DecidablePred guard]
    {set : TaskRow → TaskRow} {keeps : ∀ row, (set row).toTaskColumns = row.toTaskColumns}
    (done : db.endTask id guard set keeps = some db') {other : Nat} {task' : TaskRow}
    (is : db'.task? other = some task')
    : ∃ task, db.task? other = some task
        ∧ task'.uncounted = (if task.id = id ∧ guard task then set task else task).uncounted := by
  unfold Db.endTask at done
  split at done
  · cases done
  · cases done
    rw [task?_releaseDependents] at is
    obtain ⟨middle, found, rfl⟩ := Option.map_eq_some_iff.mp is
    rw [Db.task?_updateTasks] at found
    obtain ⟨task, was, same⟩ := Option.map_eq_some_iff.mp found
    refine ⟨task, was, ?_⟩
    rw [same]
    split <;> rfl

theorem task?_endTask_getD {id : Nat} {guard : TaskRow → Prop} [DecidablePred guard]
    {set : TaskRow → TaskRow} {keeps : ∀ row, (set row).toTaskColumns = row.toTaskColumns}
    {other : Nat} {task' : TaskRow}
    (is : ((db.endTask id guard set keeps).getD db).task? other = some task')
    : ∃ task, db.task? other = some task
        ∧ task'.uncounted = (if task.id = id ∧ guard task then set task else task).uncounted := by
  cases done : db.endTask id guard set keeps with
  | none =>
      rw [done, Option.getD_none] at is
      refine ⟨task', is, ?_⟩
      unfold Db.endTask at done
      split at done
      case isFalse => cases done
      case isTrue none_ =>
        have unmet := List.countP_eq_zero.mp none_ task' (Table.mem_of_get? is)
        rw [if_neg (by simpa using unmet)]
  | some db' =>
      rw [done, Option.getD_some] at is
      exact task?_endTask done is

/-- Tasks counted off one after another: every other column stands, and a pending task's
counter falls by as many of them as it depends on, by induction over them.
-/
theorem task?_releaseAll {ended : List Nat} (distinct : ended.Nodup) {id : Nat} {task : TaskRow}
    (found : db.task? id = some task)
    : ∃ task', (ended.foldl Db.releaseDependents db).task? id = some task'
        ∧ task'.uncounted = task.uncounted
        ∧ (task.status = .pending → task'.remainingDeps = task.remainingDeps
          - Board.prerequisites db.board.edges (fun other => decide (other ∈ ended)) id) := by
  induction ended generalizing db task with
  | nil =>
      refine ⟨task, found, rfl, fun _ => ?_⟩
      have none_ : Board.prerequisites db.board.edges (fun other => decide (other ∈ [])) id = 0 :=
        Board.prerequisites_eq_zero.mpr (by simp)
      rw [none_]
      omega
  | cons head rest ih =>
      obtain ⟨fresh, distinct⟩ := List.nodup_cons.mp distinct
      have same : task.id = id := Db.id_of_task? found
      have split : Board.prerequisites db.board.edges (fun other => decide (other ∈ head :: rest)) id
          = Board.prerequisites db.board.edges (fun other => decide (other = head)) id
            + Board.prerequisites db.board.edges (fun other => decide (other ∈ rest)) id := by
        apply Board.prerequisites_or
        intro other _
        refine ⟨by simp, ?_⟩
        intro both
        simp only [decide_eq_true_eq] at both
        exact fresh (both.1 ▸ both.2)
      have single := Board.prerequisites_single (nodup_edges db) id head
      have read := task?_releaseDependents db head id
      rw [found, Option.map_some] at read
      have edges : (db.releaseDependents head).board.edges = db.board.edges := rfl
      obtain ⟨task', is, same', counted⟩ := ih distinct read
      refine ⟨task', is, ?_, ?_⟩
      · rw [same']
        split <;> rfl
      · intro pending
        rw [edges] at counted
        by_cases depends : db.dependsOn id head
        · rw [if_pos (mem_edges.mpr depends)] at single
          rw [if_pos ⟨pending, same ▸ depends⟩] at counted
          rw [counted pending, split]
          dsimp only
          omega
        · rw [if_neg (fun edge => depends (mem_edges.mp edge))] at single
          rw [if_neg (fun met => depends (same ▸ met.2))] at counted
          rw [counted pending, split]
          omega

theorem carries_ended {db' : Db} {ended : List Nat} {moves : List Move} {cond : TaskRow → Prop}
    [DecidablePred cond] {set : TaskRow → TaskRow}
    {keeps : ∀ row, (set row).toTaskColumns = row.toTaskColumns}
    (steps : Moves moves db db') (done : db' = ended.foldl Db.releaseDependents
      (db.updateTasks cond set keeps))
    (distinct : ended.Nodup)
    (listed : ∀ id, id ∈ ended ↔ ∃ task, db.task? id = some task ∧ cond task)
    (live : ∀ id task, db.task? id = some task → cond task → task.status.terminal = false)
    (ends : ∀ task, cond task → (set task).status.terminal = true)
    (started : ∀ id task, db.task? id = some task → cond task →
      ¬ (task.status = .pending ∧ task.claimedBy = none ∧ 0 < task.remainingDeps))
    : Carries Board.Keeps db db' := by
  subst done
  have deps (ended : List Nat) (db : Db)
      : (ended.foldl Db.releaseDependents db).deps = db.deps
        ∧ (ended.foldl Db.releaseDependents db).runs = db.runs := by
    induction ended generalizing db with
    | nil => exact ⟨rfl, rfl⟩
    | cons head rest ih => exact ih _
  obtain ⟨sameDeps, sameRuns⟩ := deps ended (db.updateTasks cond set keeps)
  -- What a task is after: rewritten where it ended, and counted down where it is pending.
  have read {id : Nat} {task : TaskRow} (was : db.task? id = some task)
      : ∃ task', (ended.foldl Db.releaseDependents (db.updateTasks cond set keeps)).task? id = some task'
          ∧ task'.uncounted = (if cond task then set task else task).uncounted
          ∧ ((if cond task then set task else task).status = .pending →
            task'.remainingDeps = (if cond task then set task else task).remainingDeps
              - Board.prerequisites db.board.edges (fun other => decide (other ∈ ended)) id) := by
    have middle : (db.updateTasks cond set keeps).task? id
        = some (if cond task then set task else task) := by
      rw [Db.task?_updateTasks, was, Option.map_some]
    exact task?_releaseAll distinct middle
  intro steady
  refine ⟨.finish (fun other => decide (other ∈ ended)) (edges_of_deps_eq sameDeps) ?_ ?_ ?_,
    steady.coherent.moved_tasks steps sameDeps sameRuns ?_⟩
  · intro id gone
    obtain ⟨task, was, met⟩ := (listed id).mp (of_decide_eq_true gone)
    simp [was, live id task was met]
  · intro id
    rw [live_board, live_board]
    cases was : db.task? id with
    | none => rw [(steps.task?_eq_none_iff id).mpr was]; rfl
    | some task =>
        obtain ⟨task', is, same, _⟩ := read was
        have status : task'.status = (if cond task then set task else task).status :=
          (TaskRow.of_uncounted_eq same).1
        rw [is]
        by_cases met : cond task
        · have gone : id ∈ ended := (listed id).mpr ⟨task, was, met⟩
          rw [if_pos met] at status
          simp [status, ends task met, gone]
        · have kept : id ∉ ended := by
            intro gone
            obtain ⟨_, was', met'⟩ := (listed id).mp gone
            rw [was] at was'
            cases was'
            exact met met'
          rw [if_neg met] at status
          simp [status, kept]
  · intro id pending
    obtain ⟨task', is, status⟩ := exists_of_pending pending
    obtain ⟨task, was, _⟩ := steps.of_some is
    obtain ⟨task'', is', same, counted⟩ := read was
    rw [is] at is'
    cases is'
    have kept : ¬ cond task := by
      intro met
      have ended_ : task'.status = (set task).status := by
        rw [if_pos met] at same
        exact (TaskRow.of_uncounted_eq same).1
      have over_ := ends task met
      rw [← ended_, status] at over_
      cases over_
    rw [if_neg kept] at same counted
    have status : task.status = .pending := (TaskRow.of_uncounted_eq same).1.symm.trans status
    refine ⟨pending_of_task? was status, hold_of_moves steps sameRuns is, ?_⟩
    rw [remaining_board is, remaining_board was]
    exact counted status
  · intro id task task' run was is home waits status free
    obtain ⟨task'', is', same, _⟩ := read was
    rw [is] at is'
    cases is'
    have kept : ¬ cond task := fun met => started id task was met
      ⟨status, free, steady.remaining_pos was status home waits⟩
    rw [if_neg kept] at same
    obtain ⟨status', free'⟩ := TaskRow.of_uncounted_eq same
    exact ⟨status'.trans status, free'.trans free⟩

theorem carries_endTask {db' : Db} {id : Nat} {moves : List Move} {guard : TaskRow → Prop}
    [DecidablePred guard] {set : TaskRow → TaskRow}
    {keeps : ∀ row, (set row).toTaskColumns = row.toTaskColumns}
    (done : db.endTask id guard set keeps = some db') (steps : Moves moves db db')
    (live : ∀ task, db.task? id = some task → guard task → task.status.terminal = false)
    (ends : ∀ task, (set task).status.terminal = true)
    (started : ∀ task, db.task? id = some task → guard task →
      ¬ (task.status = .pending ∧ task.claimedBy = none ∧ 0 < task.remainingDeps))
    : Carries Board.Keeps db db' := by
  unfold Db.endTask at done
  split at done
  · cases done
  case isFalse some_ =>
    cases done
    obtain ⟨row, member, met⟩ := List.countP_pos_iff.mp (Nat.pos_of_ne_zero some_)
    obtain ⟨here, met⟩ := of_decide_eq_true met
    have found : db.task? id = some row := here ▸ Db.task?_of_mem member
    refine carries_ended steps (show _ = [id].foldl Db.releaseDependents _ from rfl)
      (List.nodup_singleton id) ?_ ?_ ?_ ?_
    · intro other
      rw [List.mem_singleton]
      constructor
      · intro same
        exact ⟨row, same ▸ found, here, met⟩
      · intro ended
        obtain ⟨task, was, at_, _⟩ := ended
        exact (Db.id_of_task? was).symm.trans at_
    · intro other task was met
      obtain rfl : other = id := (Db.id_of_task? was).symm.trans met.1
      exact live task was met.2
    · exact fun task _ => ends task
    · intro other task was met
      obtain rfl : other = id := (Db.id_of_task? was).symm.trans met.1
      exact started task was met.2

theorem carries_endTask_getD {id : Nat} {moves : List Move} {guard : TaskRow → Prop}
    [DecidablePred guard] {set : TaskRow → TaskRow}
    {keeps : ∀ row, (set row).toTaskColumns = row.toTaskColumns}
    (steps : Moves moves db ((db.endTask id guard set keeps).getD db))
    (live : ∀ task, db.task? id = some task → guard task → task.status.terminal = false)
    (ends : ∀ task, (set task).status.terminal = true)
    (started : ∀ task, db.task? id = some task → guard task →
      ¬ (task.status = .pending ∧ task.claimedBy = none ∧ 0 < task.remainingDeps))
    : Carries Board.Keeps db ((db.endTask id guard set keeps).getD db) := by
  cases done : db.endTask id guard set keeps with
  | none => exact .refl db
  | some db' =>
      rw [done] at steps
      exact carries_endTask done steps live ends started

end Ends

-- The readiness sweep

section Readiness

variable (env : Env) (now : Time)

theorem AdvanceStep.carries {before after : Db} (step : AdvanceStep env now before after)
    : Carries Board.Keeps before after := by
  cases step with
  | ready =>
      have steps : Moves [.ready] before (before.readyDefault env now) :=
        moves_readyDefault env now before (by decide)
      exact carries_quiet steps (by decide) rfl rfl
  | skip =>
      have steps : Moves [.skip, .count] before (before.skipDefault env now) :=
        moves_skipDefault env now before (by decide) (by decide)
      refine carries_ended steps rfl
        ((List.Sublist.map _ List.filter_sublist).nodup before.tasks.nodup) ?_ ?_
        (fun _ _ => rfl) ?_
      · intro id
        constructor
        · intro listed
          obtain ⟨task, among, rfl⟩ := List.mem_map.mp listed
          obtain ⟨present, met⟩ := Table.mem_select.mp among
          exact ⟨task, Db.task?_of_mem present, met⟩
        · intro ended
          obtain ⟨task, found, met⟩ := ended
          exact List.mem_map.mpr ⟨task, Table.mem_select.mpr ⟨Table.mem_of_get? found, met⟩,
            Db.id_of_task? found⟩
      · intro id task _ met
        rw [met.1]
        rfl
      · intro id task _ met waits
        have zero : task.remainingDeps = 0 := met.2.1
        omega
  | candidate candidate read =>
      have steps := moves_decided env now before read
      have waited (task : TaskRow) (found : before.task? candidate.id = some task)
          (pending : task.status = .pending)
          : ¬ (task.status = .pending ∧ task.claimedBy = none ∧ 0 < task.remainingDeps) := by
        have zero := (read task found pending).2
        omega
      have live (task : TaskRow) (_ : before.task? candidate.id = some task)
          (pending : task.status = .pending)
          : task.status.terminal = false := by
        rw [pending]
        rfl
      cases decision : before.readiness env candidate with
      | run =>
          rw [decision] at steps
          refine carries_quiet steps (by decide) ?_ ?_ <;>
            simp only [Db.advanceCandidate, decision] <;> split <;> try split
          all_goals rfl
      | skip | fail message =>
          simp only [Db.advanceCandidate, decision] at steps ⊢
          exact carries_endTask_getD steps live (fun _ => rfl) waited

end Readiness

end Dagron.Store
