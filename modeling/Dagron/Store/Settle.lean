import Dagron.Store.Steady

/-! What the ends that are not counted, of the siblings of a gang's failed member and of tasks
that were asked to stop, do to a steady store, and what runs that are let in or end do.
-/

namespace Dagron.Store

open Dagron.Library Dagron.Spec

-- Settled stops

section Settled

variable (now : Time) {db db' : Db} {id : Nat} {worker : String} {fence : Nat}

/-- Whether a stop was asked for of a task that is held under a claim. -/
def TaskRow.stoppingFor (worker : String) (fence : Nat) (task : TaskRow) : Prop :=
  task.claimedBy = some worker ∧ task.version = fence ∧ task.stopping

theorem carries_finishStoppedRun {run : Nat} (free : ∀ row, db.run? run = some row → row.waiting = false)
    : Carries Board.Keeps db (db.finishStoppedRun now run) := by
  obtain ⟨tasks, deps⟩ := finishStoppedRun_tasks now run db
  refine carries_runs tasks deps ?_
  intro id
  rcases run?_finishStoppedRun now run db id with same | ⟨row, row', here, found, is, _⟩
  · exact .inl same
  · subst here
    have free' := waiting_finishStoppedRun now id free row' is
    exact .inr ⟨row, row', found, is, free', .inl (free row found)⟩

theorem settleStopping_eq_some (done : db.settleStopping now id worker fence = some db')
    : ∃ task, ∃ settled : Db, db.task? id = some task ∧ task.stoppingFor worker fence
        ∧ Moves [.settle] db settled ∧ settled.deps = db.deps ∧ settled.runs = db.runs
        ∧ (∀ other on on', db.task? other = some on → settled.task? other = some on' →
          other ≠ id → on' = on)
        ∧ db' = settled.finishStoppedRun now task.runId := by
  unfold Db.settleStopping at done
  split at done
  · cases done
  case h_2 task found =>
    obtain ⟨found, held⟩ := Option.filter_eq_some_iff.mp found
    have held := of_decide_eq_true held
    cases done
    refine ⟨task, _, found, held, .update ?_, rfl, rfl, ?_, rfl⟩
    · intro row same at_
      rw [at_, found] at same
      cases same
      exact (Life.Step.settle held.2.2.1 (by simp [TaskRow.life, held.1]) held.2.2.2).steps
        (by decide)
    · intro other on on' was is apart
      rw [Db.task?_updated was] at is
      cases is
      rw [if_neg (fun at_ => apart ((Db.id_of_task? was).symm.trans at_))]

theorem Db.Coherent.free_of_running (coherent : db.Coherent) {task : TaskRow}
    (found : db.task? id = some task) (running : task.status = .running)
    : ∀ row, db.run? task.runId = some row → row.waiting = false := by
  intro row home
  by_contra waits
  have pending := (coherent.waiting _ row home (by simpa using waits)).2 id task found rfl
  rw [running] at pending
  cases pending.1

theorem raises_settleStoppedTask
    : Carries Board.Raises db (db.settleStoppedTask now id worker fence) := by
  unfold Db.settleStoppedTask
  cases done : db.settleStopping now id worker fence with
  | none => exact (Carries.refl db).raises
  | some db' =>
      intro steady
      obtain ⟨task, settled, found, held, steps, deps, runs, _, rfl⟩ :=
        settleStopping_eq_some now done
      have settles := carries_stops steps (by decide) deps runs (leavesWaiting_of_settle steps)
      refine settles.trans_raises (Carries.raises (carries_finishStoppedRun now ?_)) steady
      unfold Db.run?
      rw [runs]
      exact steady.coherent.free_of_running found held.2.2.1

theorem keeps_settleStoppedTask
    (counted : ∀ task, db.task? id = some task → task.stoppingFor worker fence →
      ∀ node row, db.task? node = some row → row.status = .pending → ¬ db.dependsOn node id)
    : Carries Board.Keeps db (db.settleStoppedTask now id worker fence) := by
  unfold Db.settleStoppedTask
  cases done : db.settleStopping now id worker fence with
  | none => exact .refl db
  | some db' =>
      intro steady
      obtain ⟨task, settled, found, held, steps, deps, runs, only, rfl⟩ :=
        settleStopping_eq_some now done
      have settles := carries_stops_counted steps (by decide) deps runs
        (leavesWaiting_of_settle steps) (by
          intro node row was pending other on on' depends wasOn isOn
          by_cases here : other = id
          · subst here
            exact absurd depends (counted task found held node row was pending)
          · rw [only other on on' wasOn isOn here])
      refine settles.trans (carries_finishStoppedRun now ?_) steady
      unfold Db.run?
      rw [runs]
      exact steady.coherent.free_of_running found held.2.2.1

end Settled

-- Siblings of a gang

section Gangs

variable (env : Env) (now : Time) {db : Db} {member : Nat}

def Db.cancelledSibling (db : Db) (member : Nat) (task : TaskRow) : Prop :=
  db.siblingOf member task ∧ task.idle ∧ task.status ≠ .awaitingApproval

theorem task?_cancelGangSiblings (member : Nat) {id : Nat} {task : TaskRow} (was : db.task? id = some task)
    : ∃ task', (db.cancelGangSiblings env now member).task? id = some task'
        ∧ (¬ db.siblingOf member task → task' = task)
        ∧ (¬ db.cancelledSibling member task → task'.status = task.status) := by
  simp only [Db.cancelGangSiblings]
  refine ⟨_, Db.task?_updated (Db.task?_updated was), ?_, ?_⟩
  · intro other
    have unmet : ¬ (db.siblingOf member task ∧ task.held) := fun met => other met.1
    simp only [if_neg unmet]
    rw [if_neg (fun met => other met.1)]
  · intro kept
    by_cases held : db.siblingOf member task ∧ task.held
    · simp only [if_pos held]
      split
      case isTrue met =>
        have running : task.status = .running := held.2.1
        rcases met.2.1 with status | status | status | ⟨_, free⟩
        · exact absurd (running.symm.trans status) (by decide)
        · exact absurd (running.symm.trans status) (by decide)
        · exact absurd (running.symm.trans status) (by decide)
        · have claimed : task.claimedBy.isSome := held.2.2
          have free : task.claimedBy.isNone := free
          rw [Option.isNone_iff_eq_none.mp free] at claimed
          cases claimed
      case isFalse => rfl
    · simp only [if_neg held]
      unfold Db.cancelledSibling at kept
      rw [if_neg kept]

theorem Db.siblingOf.run {task : TaskRow} (sibling : db.siblingOf member task)
    : ∃ row, db.task? member = some row ∧ row.runId = task.runId := by
  obtain ⟨seated, _, same⟩ := sibling
  obtain ⟨seat, seated⟩ := Option.isSome_iff_exists.mp seated
  rw [seated, Option.map_some] at same
  obtain ⟨seat', seated', gang⟩ := Option.map_eq_some_iff.mp same.symm
  obtain ⟨row, found, seated'⟩ := Option.bind_eq_some_iff.mp seated'
  refine ⟨row, found, ?_⟩
  rw [← row.gangRun seat' seated', ← task.gangRun seat seated, gang]

theorem leavesWaiting_cancelGangSiblings
    (free : ∀ task, db.task? member = some task →
      ∀ run, db.run? task.runId = some run → run.waiting = false)
    : LeavesWaiting db (db.cancelGangSiblings env now member) := by
  intro id task task' run was is home waits pending claimed
  obtain ⟨_, is', same, _⟩ := task?_cancelGangSiblings env now member was
  rw [is] at is'
  cases is'
  have apart : ¬ db.siblingOf member task := by
    intro sibling
    obtain ⟨row, found, ofRun⟩ := sibling.run
    have free := free row found run (ofRun.symm ▸ home)
    rw [waits] at free
    cases free
  rw [same apart]
  exact ⟨pending, claimed⟩

theorem raises_cancelGangSiblings
    (free : ∀ task, db.task? member = some task →
      ∀ run, db.run? task.runId = some run → run.waiting = false)
    : Carries Board.Raises db (db.cancelGangSiblings env now member) :=
  carries_stops (moves_cancelGangSiblings env now db member) (by decide) rfl rfl
    (leavesWaiting_cancelGangSiblings env now free)

theorem keeps_cancelGangSiblings
    (free : ∀ task, db.task? member = some task →
      ∀ run, db.run? task.runId = some run → run.waiting = false)
    (counted : ∀ other on, db.task? other = some on → db.cancelledSibling member on →
      ∀ node row, db.task? node = some row → row.status = .pending → ¬ db.dependsOn node other)
    : Carries Board.Keeps db (db.cancelGangSiblings env now member) := by
  refine carries_stops_counted (moves_cancelGangSiblings env now db member) (by decide) rfl rfl
    (leavesWaiting_cancelGangSiblings env now free) ?_
  intro node row was pending other on on' depends wasOn isOn
  obtain ⟨_, is', _, same⟩ := task?_cancelGangSiblings env now member wasOn
  rw [isOn] at is'
  cases is'
  exact same (fun cancelled => counted other on wasOn cancelled node row was pending depends)

end Gangs

-- Runs that end, and runs that are let in

section Runs

variable (now : Time) {db : Db}

theorem carries_reapRun {ended : Nat × RunStatus} (over_ : ended.2 ≠ .running)
    (free : ∀ row, db.run? ended.1 = some row → row.waiting = false)
    : Carries Board.Keeps db (db.reapRun now ended) := by
  simp only [Db.reapRun]
  split
  · exact .refl db
  · refine .trans (carries_updateRuns ?_ ?_) (carries_emit _ _)
    · intro row _
      simp [RunRow.waiting, over_]
    · intro id row found met
      obtain rfl : ended.1 = id := met.1.symm.trans (Table.key_of_get? found)
      exact .inl (free row found)

/-- What letting a run in does, where it does something: the run waited and waits no more, and
its pending tasks' counters fall by one.
-/
theorem letIn_cases (db : Db) (waiting : RunRow)
    : db.letIn now waiting = db
      ∨ ((∃ row row', db.run? waiting.id = some row ∧ row.waiting = true
          ∧ (db.letIn now waiting).run? waiting.id = some row' ∧ row'.waiting = false)
        ∧ (∀ id, id ≠ waiting.id → (db.letIn now waiting).run? id = db.run? id)
        ∧ (db.letIn now waiting).deps = db.deps
        ∧ ∀ id task, db.task? id = some task → ∃ task',
          (db.letIn now waiting).task? id = some task'
            ∧ task'.status = task.status ∧ task'.claimedBy = task.claimedBy
            ∧ (task.runId ≠ waiting.id → task' = task)
            ∧ (task.runId = waiting.id → task.status = .pending → 0 < task.remainingDeps →
              task'.remainingDeps = task.remainingDeps - 1)) := by
  simp only [Db.letIn]
  split
  · exact .inl rfl
  case isFalse some_ =>
    obtain ⟨row, member, met⟩ := List.countP_pos_iff.mp (Nat.pos_of_ne_zero some_)
    obtain ⟨at_, queued⟩ := of_decide_eq_true met
    have home : db.run? waiting.id = some row := at_ ▸ Table.get?_of_mem member
    have armed (id : Nat)
        : (db.updateRuns (fun run => run.id = waiting.id ∧ run.queued)
            (RunRow.letIn now waiting)).run? id
          = (db.run? id).map (fun run =>
              if run.id = waiting.id ∧ run.queued then RunRow.letIn now waiting run else run) :=
      Db.run?_updateRuns id
    refine .inr ⟨⟨row, RunRow.letIn now waiting row, home, ?_, ?_, ?_⟩, ?_, rfl, ?_⟩
    · simp only [RunRow.waiting, decide_eq_true_eq]
      exact ⟨queued.1, queued.2.2⟩
    · rw [Db.run?_updateTasks, armed, home, Option.map_some, if_pos ⟨at_, queued⟩]
    · simp [RunRow.waiting, RunRow.letIn]
    · intro id apart
      rw [Db.run?_updateTasks, armed]
      cases found : db.run? id with
      | none => rfl
      | some run =>
          have other : run.id ≠ waiting.id :=
            fun same => apart ((Table.key_of_get? found).symm.trans same)
          rw [Option.map_some, if_neg (fun met => other met.1)]
    · intro id task was
      refine ⟨_, Db.task?_updated was, ?_, ?_, ?_, ?_⟩
      · split <;> rfl
      · split <;> rfl
      · intro apart
        rw [if_neg (fun met => apart met.1)]
      · intro same pending left
        rw [if_pos ⟨same, pending, left⟩]

theorem carries_letIn (db : Db) (waiting : RunRow)
    : Carries Board.Keeps db (db.letIn now waiting) := by
  have steps := moves_letIn now db waiting
  rcases letIn_cases now db waiting with same
    | ⟨⟨row, row', home, waits, home', free⟩, others, deps, read⟩
  · rw [same]
    exact .refl db
  intro steady
  refine ⟨?_, steady.coherent.moved steps deps ?_ ?_⟩
  · intro id pending
    obtain ⟨task', is, status⟩ := exists_of_pending pending
    obtain ⟨task, was, moved⟩ := steps.of_some is
    obtain ⟨_, is', status', _, other, counted⟩ := read id task was
    rw [is] at is'
    cases is'
    have status : task.status = .pending := status'.symm.trans status
    have sameRun : task'.runId = task.runId := congrArg TaskColumns.runId moved.columns.1
    have blockers : (db.letIn now waiting).board.blockers id = db.board.blockers id := by
      rw [Board.blockers, Board.blockers, edges_of_deps_eq deps]
      refine Board.prerequisites_congr ?_
      intro on _
      rw [live_board, live_board]
      cases wasOn : db.task? on with
      | none => rw [(steps.task?_eq_none_iff on).mpr wasOn]
      | some row =>
          obtain ⟨row', isOn, sameOn, _⟩ := read on row wasOn
          simp [isOn, sameOn]
    refine ⟨pending_of_task? was status, ?_⟩
    rw [Board.slack, Board.slack, blockers, remaining_board is, remaining_board was,
      hold_board is, hold_board was, sameRun]
    by_cases same : task.runId = waiting.id
    · have left := steady.remaining_pos was status (same.symm ▸ home) waits
      have unit : db.heldUnits task.runId = 1 := by simp [Db.heldUnits, same, home, waits]
      have none_ : (db.letIn now waiting).heldUnits task.runId = 0 := by
        simp [Db.heldUnits, same, home', free]
      rw [counted same status left, unit, none_]
      omega
    · have kept : (db.letIn now waiting).heldUnits task.runId = db.heldUnits task.runId := by
        unfold Db.heldUnits
        rw [others _ same]
      rw [other same, kept]
  · intro id
    by_cases at_ : id = waiting.id
    · subst at_
      exact .inr ⟨row', home', free⟩
    · exact .inl (others id at_)
  · intro id task task' run was is _ _ _ status unheld
    obtain ⟨_, is', status', claimed, _⟩ := read id task was
    rw [is] at is'
    cases is'
    exact ⟨status'.trans status, claimed.trans unheld⟩

theorem carries_admitWaitingRuns (db : Db)
    : Carries Board.Keeps db (db.admitWaitingRuns now) :=
  Db.admitWaitingRuns_rule (fun each row carries => carries.trans (carries_letIn now each row)) (.refl db)

end Runs

end Dagron.Store
