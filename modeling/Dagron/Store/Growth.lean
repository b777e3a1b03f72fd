import Dagron.Store.Evolution
import Dagron.Store.RunCycle

/-! The transactions that add rows and drop them, and those that put them back to run again,
move the rest of the store's rows along the life cycle.
-/

namespace Dagron.Store

open Dagron.Library Dagron.Spec

-- Rows made and dropped

section Rows

variable {kinds : List Move} {db db' : Db}

theorem evolves_delete {cond : TaskRow → Prop} [DecidablePred cond]
    (instances : ∀ task, cond task → task.fanoutParent.isSome)
    (tasks : db'.tasks = db.tasks.delete cond)
    : Evolves kinds db db' := by
  have found (id : Nat) : db'.task? id = (db.task? id).filter (fun task => ¬ cond task) := by
    unfold Db.task?
    rw [tasks]
    exact Table.get?_delete id
  refine ⟨?_, ?_, ?_⟩
  · intro id task task' was is
    rw [found, was, Option.filter_eq_some_iff] at is
    cases is.1
    exact .refl
  · intro id task was is
    rw [found, was, Option.filter_eq_none_iff] at is
    exact instances task (by simpa using is task rfl)
  · intro id task' was is
    rw [found, was] at is
    cases is

theorem evolves_insert {rows : List TaskRow} (fresh : ∀ row ∈ rows, row.life.Fresh)
    (tasks : db.tasks.insertAll rows = some db'.tasks)
    : Evolves kinds db db' := by
  refine ⟨?_, ?_, ?_⟩
  · intro id task task' was is
    have kept : db'.task? id = some task := Table.get?_insertAll_of_get? tasks was
    rw [is] at kept
    cases kept
    exact .refl
  · intro id task was is
    have kept : db'.task? id = some task := Table.get?_insertAll_of_get? tasks was
    rw [is] at kept
    cases kept
  · intro id task' was is
    rcases Table.get?_insertAll tasks is with there | ⟨_, member⟩
    · rw [show db.tasks.get? id = none from was] at there
      cases there
    · exact ⟨_, fresh task' member, .refl⟩

end Rows

-- Fan-outs

section Fanouts

variable {kinds : List Move} (env : Env) (now : Time)

/-- A barrier that was read, as the store has it: parked, with the columns it was read with. -/
def Db.Read (db : Db) (barrier : TaskRow) : Prop :=
  barrier.fanoutOf.isSome
    ∧ ∃ task, db.task? barrier.id = some task ∧ task.toTaskColumns = barrier.toTaskColumns
      ∧ task.status = .running ∧ task.claimedBy = none

/-- The transactions of the fan-out sweep, each for a barrier it read. -/
inductive FanoutStep : Db → Db → Prop
  | unlink {db : Db} (barrier : TaskRow) (read : db.Read barrier)
      : FanoutStep db (db.dropStaleEdges barrier.id barrier.version)
  | clear {db db' : Db} (barrier : TaskRow) (read : db.Read barrier)
      (done : db.deleteTasks (TaskRow.staleInstance barrier.id barrier.version) = some db')
      : FanoutStep db db'
  | resolve {db db' : Db} (barrier : TaskRow) (read : db.Read barrier) (mint : Nat → Nat)
      (done : db.resolveFanout env now barrier mint = .commit db')
      : FanoutStep db db'

def fanoutMoves : List Move :=
  [.finishBarrier true, .finishBarrier false, .count, .stamp]

theorem moves_finishFanout (db : Db) (id : Nat) (succeeded : Bool) (output : String)
    : Moves [.finishBarrier succeeded, .count] db (db.finishFanout now id succeeded output) := by
  refine .endTask_getD (.finishBarrier succeeded) (by simp) (by simp) ?_
  rintro task _ ⟨running, barrier, free⟩
  exact .finishBarrier succeeded running barrier (Option.isNone_iff_eq_none.mp free)

theorem instanceRow_fresh (barrier : TaskRow) (epoch id : Nat) (leaf : TaskSpec)
    : (Db.instanceRow now barrier epoch id leaf).life.Fresh where
  plain := ⟨nofun, fun _ => rfl⟩
  attempts := ⟨rfl, rfl⟩
  claimedBy := rfl
  leased := rfl
  stopAsked := rfl
  parks := rfl
  waits := rfl
  start := .inr ⟨rfl, rfl, rfl, rfl, rfl⟩

/-- What expanding a barrier does: the barrier was parked at the version it was read with, and
its version goes on by one; instances of that version are inserted, each a dependency of it.
-/
theorem expandFanout_commit {db db' : Db} {barrier : TaskRow} {instances : List TaskSpec}
    {mint : Nat → Nat} (done : db.expandFanout now barrier instances mint = .commit db')
    : ∃ stamped : Db, ∃ rows : List TaskRow,
        Moves [.stamp] db stamped ∧ stamped.deps = db.deps ∧ stamped.runs = db.runs
        ∧ (∃ task, db.task? barrier.id = some task ∧ task.status = .running
          ∧ task.claimedBy.isNone)
        ∧ (∀ row ∈ rows, ∃ id leaf, leaf ∈ instances
          ∧ row = Db.instanceRow now barrier (barrier.version + 1) id leaf)
        ∧ stamped.tasks.insertAll rows = some db'.tasks
        ∧ stamped.deps.insertAll (rows.map (fun row => ⟨barrier.id, row.id⟩)) = some db'.deps
        ∧ db'.runs = db.runs ∧ db'.outbox = db.outbox := by
  simp only [Db.expandFanout] at done
  split at done
  · cases done
  case isFalse unchanged =>
    split at done
    case h_2 => cases done
    case h_1 tasks deps inserted linked =>
      cases done
      refine ⟨_, _, .update_step .stamp (by decide) ?_, rfl, rfl, ?_, ?_,
        insertAll_of_insertTasks inserted, linked, rfl, rfl⟩
      · rintro task ⟨_, _, running, free⟩
        exact .stamp running (Option.isNone_iff_eq_none.mp free)
      · obtain ⟨task, member, met⟩ := List.countP_pos_iff.mp (Nat.pos_of_ne_zero unchanged)
        obtain ⟨same, _, running, free⟩ := of_decide_eq_true met
        exact ⟨task, same ▸ Db.task?_of_mem member, running, free⟩
      · intro row member
        obtain ⟨⟨leaf, index⟩, within, rfl⟩ := List.mem_map.mp member
        exact ⟨_, leaf, (List.mem_zipIdx' within).2 ▸ List.getElem_mem _, rfl⟩

/-- What a barrier comes to: it ends with its instances or for itself, or is given instances. -/
theorem resolveFanout_commit {db db' : Db} {barrier : TaskRow} {mint : Nat → Nat}
    (done : db.resolveFanout env now barrier mint = .commit db')
    : (db.instanceStatuses barrier.id ≠ []
        ∧ (∀ status ∈ db.instanceStatuses barrier.id, status.terminal)
        ∧ ∃ succeeded output,
          (succeeded = true → barrier.allowFailure = true
            ∨ ∀ status ∈ db.instanceStatuses barrier.id, status ≠ .failed ∧ status ≠ .cancelled)
          ∧ db' = db.finishFanout now barrier.id succeeded output)
      ∨ (∃ succeeded output, db.planFanout env barrier = .finish succeeded output
        ∧ db' = db.finishFanout now barrier.id succeeded output)
      ∨ ∃ instances, db.planFanout env barrier = .expand instances
        ∧ db.expandFanout now barrier instances mint = .commit db' := by
  simp only [Db.resolveFanout] at done
  split at done
  case isTrue some_ =>
    split at done
    case isTrue all =>
      cases done
      refine .inl ⟨some_, List.all_eq_true.mp all, _, _, ?_, rfl⟩
      intro succeeded
      rcases Bool.or_eq_true_iff.mp succeeded with none_ | allowed
      · have none_ := of_decide_eq_true none_
        refine .inr (fun status member => ⟨?_, ?_⟩) <;> rintro rfl
        · have some_ := List.count_pos_iff.mpr member
          omega
        · have some_ := List.count_pos_iff.mpr member
          omega
      · exact .inl allowed
    case isFalse => cases done
  case isFalse =>
    split at done
    case h_1 succeeded output plan =>
      cases done
      exact .inr (.inl ⟨succeeded, output, plan, rfl⟩)
    case h_2 instances plan => exact .inr (.inr ⟨instances, plan, done⟩)

theorem deleteTasks_eq_some {db db' : Db} {cond : TaskRow → Prop} [DecidablePred cond]
    (done : db.deleteTasks cond = some db')
    : db' = { db with tasks := db.tasks.delete cond }
      ∧ ∀ dep ∈ db.deps, ∀ task, cond task →
        db.task? dep.dependent ≠ some task ∧ db.task? dep.dependency ≠ some task := by
  simp only [Db.deleteTasks] at done
  split at done
  case isFalse => cases done
  case isTrue free =>
    refine ⟨(Option.some.inj done).symm, fun dep member task met => ?_⟩
    have unnamed := List.countP_eq_zero.mp free dep member
    simp only [decide_eq_true_eq, not_or] at unnamed
    exact ⟨fun found => unnamed.1 (by simp [found, met]),
      fun found => unnamed.2 (by simp [found, met])⟩

theorem task?_deleteTasks {db db' : Db} {cond : TaskRow → Prop} [DecidablePred cond]
    (done : db.deleteTasks cond = some db') (id : Nat)
    : db'.task? id = (db.task? id).filter (fun task => ¬ cond task) := by
  obtain ⟨rfl, _⟩ := deleteTasks_eq_some done
  exact Table.get?_delete id

theorem evolves_expandFanout {db db' : Db} {barrier : TaskRow} {instances : List TaskSpec}
    {mint : Nat → Nat} (done : db.expandFanout now barrier instances mint = .commit db')
    : Evolves [.stamp] db db' := by
  obtain ⟨stamped, rows, moved, _, _, _, made, inserted, _⟩ := expandFanout_commit now done
  refine .after_moves moved (evolves_insert ?_ inserted)
  intro row member
  obtain ⟨id, leaf, _, rfl⟩ := made row member
  exact instanceRow_fresh now barrier _ id leaf

theorem FanoutStep.evolves {before after : Db} (step : FanoutStep env now before after)
    : Evolves fanoutMoves before after := by
  cases step with
  | unlink => exact Moves.evolves (.of_tasks_eq rfl)
  | clear barrier read done =>
      obtain ⟨rfl, _⟩ := deleteTasks_eq_some done
      exact evolves_delete (fun task stale => by simp [stale.1]) rfl
  | resolve barrier read mint done =>
      have finish (succeeded : Bool) (output : String)
          : Evolves fanoutMoves before
            (before.finishFanout now barrier.id succeeded output) := by
        refine ((moves_finishFanout now before barrier.id succeeded output).mono ?_).evolves
        cases succeeded <;> decide
      rcases resolveFanout_commit env now done with
        ⟨_, _, succeeded, output, _, rfl⟩ | ⟨succeeded, output, _, rfl⟩ | ⟨instances, _, done⟩
      · exact finish succeeded output
      · exact finish succeeded output
      · exact (evolves_expandFanout now done).mono (by decide)

theorem FanoutStep.made {before after : Db} (step : FanoutStep env now before after) {id : Nat}
    {task' : TaskRow} (was : before.task? id = none) (is : after.task? id = some task')
    : ∃ barrier on, before.task? barrier = some on ∧ task'.fanoutParent = some barrier
        ∧ on.fanoutOf.isSome ∧ on.runId = task'.runId ∧ on.status = .running
        ∧ on.claimedBy = none := by
  have absent {kinds : List Move} (steps : Moves kinds before after) : False := by
    rw [(steps.task?_eq_none_iff id).mpr was] at is
    cases is
  cases step with
  | unlink barrier read =>
      rw [show before.task? id = some task' from is] at was
      cases was
  | clear barrier read done =>
      rw [task?_deleteTasks done, was] at is
      cases is
  | resolve barrier read mint done =>
      rcases resolveFanout_commit env now done with
        ⟨_, _, succeeded, output, _, rfl⟩ | ⟨succeeded, output, _, rfl⟩ | ⟨instances, _, done⟩
      · exact (absent (moves_finishFanout now before barrier.id succeeded output)).elim
      · exact (absent (moves_finishFanout now before barrier.id succeeded output)).elim
      · obtain ⟨stamped, rows, moved, _, _, _, made, inserted, _⟩ := expandFanout_commit now done
        obtain ⟨fans, task, found, same, running, free⟩ := read
        have vacant := (moved.task?_eq_none_iff id).mpr was
        rcases Table.get?_insertAll inserted is with old | ⟨_, member⟩
        · rw [show Table.get? _ id = none from vacant] at old
          cases old
        · obtain ⟨_, leaf, _, rfl⟩ := made task' member
          refine ⟨barrier.id, task, found, rfl, ?_, ?_, running, free⟩
          · rwa [show task.fanoutOf = barrier.fanoutOf from congrArg TaskColumns.fanoutOf same]
          · exact (congrArg TaskColumns.runId same : task.runId = barrier.runId)

theorem FanoutStep.dropped {before after : Db} (step : FanoutStep env now before after) {id : Nat}
    {task : TaskRow} (was : before.task? id = some task) (is : after.task? id = none)
    : ∃ barrier on, task.fanoutParent = some barrier ∧ before.task? barrier = some on
        ∧ on.status = .running ∧ on.claimedBy = none := by
  have absent {kinds : List Move} (steps : Moves kinds before after) : False := by
    rw [(steps.task?_eq_none_iff id).mp is] at was
    cases was
  cases step with
  | unlink barrier read =>
      rw [show before.task? id = none from is] at was
      cases was
  | clear barrier read done =>
      rw [task?_deleteTasks done, was, Option.filter_eq_none_iff] at is
      have stale := is task rfl
      simp only [not_not, decide_eq_true_eq] at stale
      obtain ⟨_, on, there, _, running, free⟩ := read
      exact ⟨barrier.id, on, stale.1, there, running, free⟩
  | resolve barrier read mint done =>
      rcases resolveFanout_commit env now done with
        ⟨_, _, succeeded, output, _, rfl⟩ | ⟨succeeded, output, _, rfl⟩ | ⟨instances, _, done⟩
      · exact (absent (moves_finishFanout now before barrier.id succeeded output)).elim
      · exact (absent (moves_finishFanout now before barrier.id succeeded output)).elim
      · obtain ⟨stamped, rows, moved, _, _, _, _, inserted, _⟩ := expandFanout_commit now done
        cases there : stamped.task? id with
        | none =>
            rw [(moved.task?_eq_none_iff id).mp there] at was
            cases was
        | some middle =>
            have kept : after.task? id = some middle := Table.get?_insertAll_of_get? inserted there
            rw [is] at kept
            cases kept

/-- The sweep's transactions leave a barrier as it was read, where they leave it running: it is
no instance, so it is not dropped.
-/
theorem FanoutStep.read {before after : Db} (step : FanoutStep env now before after)
    {barrier : TaskRow} (read : before.Read barrier)
    (stays : ∀ task task', before.task? barrier.id = some task →
      after.task? barrier.id = some task' → task.status = .running → task'.status = .running)
    : after.Read barrier := by
  obtain ⟨fans, task, was, same, running, free⟩ := read
  refine ⟨fans, ?_⟩
  cases is : after.task? barrier.id with
  | none =>
      have single : task.fanoutOf = none := task.single (step.evolves.dropped was is)
      rw [same] at single
      rw [single] at fans
      cases fans
  | some task' =>
      have steps := step.evolves.kept was is
      refine ⟨task', rfl, steps.columns.1.trans same, stays task task' was is running, ?_⟩
      refine steps.rule (fun life => life.claimedBy = none) free ?_
      intro move listed life life' step free
      cases step with
      | finishBarrier | count | stamp => exact free
      | _ => simp [fanoutMoves] at listed

theorem Db.Read.unlinked {db : Db} {barrier other : TaskRow} (read : db.Read barrier)
    (step : FanoutStep env now db (db.dropStaleEdges other.id other.version))
    : (db.dropStaleEdges other.id other.version).Read barrier := by
  refine step.read env now read ?_
  intro task task' was is running
  rw [show db.task? barrier.id = some task' from is] at was
  cases was
  exact running

theorem Db.Read.cleared {db db' : Db} {barrier : TaskRow} (read : db.Read barrier)
    {cond : TaskRow → Prop} [DecidablePred cond] (done : db.deleteTasks cond = some db')
    (step : FanoutStep env now db db')
    : db'.Read barrier := by
  refine step.read env now read ?_
  intro task task' was is running
  rw [task?_deleteTasks done, was, Option.filter_eq_some_iff] at is
  cases is.1
  exact running

theorem Db.Read.resolved {db db' : Db} {barrier other : TaskRow} {mint : Nat → Nat}
    (read : db.Read other) (apart : other.id ≠ barrier.id)
    (done : db.resolveFanout env now barrier mint = .commit db')
    (step : FanoutStep env now db db')
    : db'.Read other := by
  refine step.read env now read ?_
  intro task task' was is running
  have finished (succeeded : Bool) (output : String)
      (is : (db.finishFanout now barrier.id succeeded output).task? other.id = some task')
      : task'.status = .running := by
    unfold Db.finishFanout Db.endTask at is
    split at is
    · rw [Option.getD_none, was] at is
      cases is
      exact running
    · have elsewhere : ¬ (task.id = barrier.id ∧ task.parkedBarrier) :=
        fun met => apart ((Db.id_of_task? was).symm.trans met.1)
      rw [Option.getD_some, Db.releaseDependents,
        Db.task?_updated (Db.task?_updated was), if_neg elsewhere, if_neg] at is
      · cases is
        exact running
      · rw [running]
        rintro ⟨⟨⟩, -⟩
  rcases resolveFanout_commit env now done with
    ⟨_, _, succeeded, output, _, rfl⟩ | ⟨succeeded, output, _, rfl⟩ | ⟨instances, _, done⟩
  · exact finished succeeded output is
  · exact finished succeeded output is
  · obtain ⟨stamped, rows, moved, _, _, _, _, inserted, _⟩ := expandFanout_commit now done
    cases there : stamped.task? other.id with
    | none =>
        rw [(moved.task?_eq_none_iff _).mp there] at was
        cases was
    | some middle =>
        obtain ⟨_, was', steps⟩ := moved.of_some there
        rw [was] at was'
        cases was'
        have kept : db'.task? other.id = some middle :=
          Table.get?_insertAll_of_get? inserted there
        rw [is] at kept
        cases kept
        refine steps.rule (fun life => life.status = .running) running ?_
        intro move listed life life' step running
        rw [List.mem_singleton.mp listed] at step
        cases step
        exact running

theorem fanoutStep_of_mem {Label : Type} {label : Label} {mint : Nat → Nat → Nat}
    {barriers : List TaskRow} {db : Db} (distinct : (barriers.map (fun row => row.id)).Nodup)
    (read : ∀ barrier ∈ barriers, db.Read barrier)
    {commit : Commit Db Label}
    (member : commit ∈ commitsFrom label db (Db.reconcileEach env now mint barriers db))
    : FanoutStep env now commit.before commit.after := by
  induction barriers generalizing db with
  | nil => cases member
  | cons barrier rest ih =>
      obtain ⟨apart, distinct⟩ := List.nodup_cons.mp distinct
      have unlink : FanoutStep env now db (db.dropStaleEdges barrier.id barrier.version) :=
        .unlink barrier (read barrier List.mem_cons_self)
      have kept (other : TaskRow) (among : other ∈ barrier :: rest) :=
        (read other among).unlinked env now unlink
      simp only [Db.reconcileEach] at member
      split at member
      case h_1 =>
        obtain rfl := mem_commitsFrom_singleton.mp member
        exact unlink
      case h_2 cleared done =>
        have clear : FanoutStep env now (db.dropStaleEdges barrier.id barrier.version) cleared :=
          .clear barrier (kept barrier List.mem_cons_self) done
        have kept (other : TaskRow) (among : other ∈ barrier :: rest) :=
          (kept other among).cleared env now done clear
        have early {more : List Db}
            (member : commit ∈ commitsFrom label db
              (db.dropStaleEdges barrier.id barrier.version :: cleared :: more))
            : FanoutStep env now commit.before commit.after
              ∨ commit ∈ commitsFrom label cleared more := by
          rcases List.mem_cons.mp member with rfl | member
          · exact .inl unlink
          rcases List.mem_cons.mp member with rfl | member
          · exact .inl clear
          · exact .inr member
        split at member
        case h_1 next done =>
          rcases early member with step | member
          · exact step
          have resolve : FanoutStep env now cleared next :=
            .resolve barrier (kept barrier List.mem_cons_self) _ done
          rcases List.mem_cons.mp member with rfl | member
          · exact resolve
          · refine ih distinct (fun other among => ?_) member
            refine (kept other (List.mem_cons_of_mem _ among)).resolved env now ?_ done resolve
            exact fun same => apart (List.mem_map.mpr ⟨other, among, same⟩)
        case h_2 =>
          rcases early member with step | member
          · exact step
          · exact ih distinct (fun other among => kept other (List.mem_cons_of_mem _ among)) member
        case h_3 =>
          rcases early member with step | member
          · exact step
          · cases member

theorem read_of_mem_parkedFanouts {db : Db} {barrier : TaskRow} (member : barrier ∈ db.parkedFanouts)
    : db.Read barrier := by
  obtain ⟨present, parked, _⟩ := Table.mem_select.mp (List.mem_of_mem_take member)
  exact ⟨parked.2.1, barrier, Db.task?_of_mem present, rfl, parked.1,
    Option.isNone_iff_eq_none.mp parked.2.2⟩

theorem nodup_parkedFanouts (db : Db)
    : (db.parkedFanouts.map (fun row => row.id)).Nodup := by
  refine (List.Sublist.map _ ?_).nodup db.tasks.nodup
  exact (List.take_sublist _ _).trans List.filter_sublist

theorem fanoutStep_of_mem_reconcileFanouts {Label : Type} {label : Label}
    {mint : Nat → Nat → Nat} {db : Db} {commit : Commit Db Label}
    (member : commit ∈ commitsFrom label db (db.reconcileFanouts env now mint))
    : FanoutStep env now commit.before commit.after :=
  fanoutStep_of_mem env now (nodup_parkedFanouts db) (fun _ => read_of_mem_parkedFanouts) member

end Fanouts

-- Running again

section Again

variable (now : Time)

/-- What setting a run running again does: it writes run rows alone, and of them the one of
the run, where it had ended, so that it does not wait; and it does so within the run's cap.
-/
structure Rearmed (ended : RunStatus → Bool) (run : Nat) (before after : Db) : Prop where
  tasks
    : after.tasks = before.tasks
  deps
    : after.deps = before.deps
  told
    : ∀ id, after.told id = before.told id
  run?
    : ∀ id, after.run? id = before.run? id
      ∨ ∃ row row', before.run? id = some row ∧ after.run? id = some row' ∧ id = run
        ∧ row'.toRunColumns = row.toRunColumns
        ∧ ended row.status = true ∧ row'.status = .running ∧ row'.waiting = false
        ∧ ∀ told, RunLife.Step .rearm (row.life told) (row'.life told)
  again
    : ∀ row row', before.run? run = some row → ended row.status = true →
        after.run? run = some row' → row'.status = .running
  room
    : ∀ row, before.run? run = some row → ended row.status = true →
        ∀ max ∈ row.definition.maxActiveRuns.filter (fun max => 0 < max),
          (after.runsInFlight row.definition.name row.concurrencyKey (some run)).1 < max

theorem rearmed_waiting (row : RunRow)
    : row.rearmed.waiting = false := by
  unfold RunRow.rearmed RunRow.waiting
  cases admitted : row.admittedAt <;> simp

theorem rearmed_life (row : RunRow) (told : List RunStatus)
    : (row.rearmed.rearmDeadlines now).life told
      = { row.life told with
          status := .running
          queuedAt := if (row.life told).admitted then (row.life told).queuedAt else none } := by
  have kept : (if row.admittedAt.isNone then none else row.queuedAt)
      = if row.admittedAt.isSome then row.queuedAt else none := by
    cases row.admittedAt <;> rfl
  simp only [RunRow.life, RunRow.rearmed, RunRow.rearmDeadlines, kept]
  rfl

theorem over_of_broken {status : RunStatus} (ended : Db.broken status = true)
    : Db.over_ status = true := by
  cases status <;> first | rfl | cases ended

theorem rearmRun_ok {db db' : Db} {run : Nat} {ended : RunStatus → Bool} {set : RunRow → RunRow}
    {keeps : ∀ row, (set row).toRunColumns = row.toRunColumns} {ours : Bool}
    (done : db.rearmRun now run ended set keeps = .ok (db', ours))
    (within : ∀ status, ended status = true → Db.over_ status = true)
    (plain : ∀ row told, (set row).life told = row.life told)
    : Rearmed ended run db db'
      ∧ (ours = true → ∃ row, db.run? run = some row ∧ ended row.status = true) := by
  simp only [Db.rearmRun] at done
  split at done
  · cases done
    case isTrue none_ =>
      have unmet (row : RunRow) (found : db.run? run = some row) : ¬ ended row.status = true := by
        intro over_
        refine absurd none_ (Nat.pos_iff_ne_zero.mp (List.countP_pos_iff.mpr ?_))
        exact ⟨row, Table.mem_of_get? found, decide_eq_true ⟨Table.key_of_get? found, over_⟩⟩
      refine ⟨⟨rfl, rfl, fun _ => rfl, fun _ => .inl rfl, ?_, ?_⟩, (by rintro ⟨⟩)⟩
      · exact fun row _ found over_ => absurd over_ (unmet row found)
      · exact fun row found over_ => absurd over_ (unmet row found)
  case isFalse some_ =>
    obtain ⟨_, fits, done⟩ := exists_of_bind_eq_ok done
    cases done
    obtain ⟨row, member, met⟩ := List.countP_pos_iff.mp (Nat.pos_of_ne_zero some_)
    obtain ⟨same, over_⟩ := of_decide_eq_true met
    have found : db.run? run = some row := same ▸ Table.get?_of_mem member
    have armed : (set row).rearmed.id = run := (congrArg RunColumns.id (keeps row)).trans same
    refine ⟨⟨rfl, rfl, fun _ => rfl, fun id => ?_, ?_, ?_⟩, fun _ => ⟨row, found, over_⟩⟩
    case refine_2 =>
      intro row_ row' found_ _ is
      rw [found] at found_
      cases found_
      rw [Db.run?_updateRuns, Db.run?_updateRuns, found, Option.map_some, if_pos ⟨same, over_⟩,
        Option.map_some, if_pos armed] at is
      cases is
      rfl
    case refine_3 =>
      intro row_ found_ _ max capped
      rw [found] at found_
      cases found_
      have armed_ : (db.updateRuns (fun row => row.id = run ∧ ended row.status)
          (fun row => (set row).rearmed) (fun row => (RunRow.rearmed_columns _).trans (keeps row))).run?
            run = some (set row).rearmed := by
        rw [Db.run?_updateRuns, found, Option.map_some, if_pos ⟨same, over_⟩]
      have columns : (set row).rearmed.toRunColumns = row.toRunColumns := keeps row
      rw [← congrArg RunColumns.definition columns] at capped ⊢
      rw [← congrArg RunColumns.concurrencyKey columns]
      simp only [Db.refuseIfFull, armed_, Option.mem_def.mp capped] at fits
      split at fits
      case isFalse => cases fits
      case isTrue below =>
        refine lt_of_eq_of_lt ?_ below
        simp only [Db.runsInFlight, Db.updateRuns]
        rw [Table.count_update]
        refine Table.count_congr fun other _ => ?_
        split <;> rfl
    rw [Db.run?_updateRuns, Db.run?_updateRuns]
    by_cases here : id = run
    · subst here
      refine .inr ⟨row, (set row).rearmed.rearmDeadlines now, found, ?_, rfl, keeps row, over_,
        rfl, rearmed_waiting (set row), fun told => ?_⟩
      · simp only [found, Option.map_some, same, over_, armed, and_self, if_true]
      · rw [← plain row told, rearmed_life]
        exact .rearm (within _ ((congrArg RunLife.status (plain row told)).symm ▸ over_))
    · refine .inl ?_
      cases other : db.run? id with
      | none => rfl
      | some row =>
          have apart : row.id ≠ run := fun same => here ((Table.key_of_get? other).symm.trans same)
          simp only [Option.map_some, apart, false_and, if_false]

/-- What a person's retry does, where it does something: the task had failed or was cancelled,
and is put back; its run is set running again if it had ended so.
-/
theorem retryTaskFromUi_ok {db db' : Db} {id : Nat} {who : Option String}
    (done : db.retryTaskFromUi now id who = .ok db')
    : db' = db
      ∨ ∃ task, ∃ retried : Db, db.task? id = some task
        ∧ (task.status = .failed ∨ task.status = .cancelled)
        ∧ retried = db.updateTasks
          (fun task => task.id = id ∧ (task.status = .failed ∨ task.status = .cancelled))
          (TaskRow.retried now who)
        ∧ Rearmed Db.broken task.runId retried db' := by
  simp only [Db.retryTaskFromUi] at done
  split at done
  · cases done
    exact .inl rfl
  case h_2 task found =>
    obtain ⟨found, met⟩ := Option.filter_eq_some_iff.mp found
    obtain ⟨⟨armed, ours⟩, ok, done⟩ := exists_of_bind_eq_ok done
    cases done
    have armed := (rearmRun_ok now ok (fun _ => over_of_broken) (fun _ _ => rfl)).1
    exact .inr ⟨task, _, found, (of_decide_eq_true met).2, rfl, armed.tasks, armed.deps,
      fun id => (told_runAgain _ _ _ _ _ _).trans (armed.told id), armed.run?,
      armed.again, armed.room⟩

theorem task?_retryTaskFromUi {db db' : Db} {id : Nat} {who : Option String}
    (done : db.retryTaskFromUi now id who = .ok db') (other : Nat)
    : db'.task? other = (db.task? other).map (fun task =>
        if task.id = id ∧ (task.status = .failed ∨ task.status = .cancelled) then
          task.retried now who
        else task) := by
  simp only [Db.retryTaskFromUi] at done
  split at done
  case h_1 none_ =>
    cases done
    cases was : db.task? other with
    | none => rfl
    | some task =>
        rw [Option.map_some, if_neg]
        intro met
        obtain rfl : id = other := met.1.symm.trans (Db.id_of_task? was)
        have unmet := Option.filter_eq_none_iff.mp none_ task was
        exact unmet (decide_eq_true met)
  case h_2 task found =>
    obtain ⟨⟨armed, ours⟩, ok, done⟩ := exists_of_bind_eq_ok done
    cases done
    unfold Db.task?
    rw [Db.tasks_emit, (rearmRun_ok now ok (fun _ => over_of_broken) (fun _ _ => rfl)).1.tasks]
    exact Db.task?_updateTasks other

theorem moves_retryTaskFromUi {db db' : Db} {id : Nat} {who : Option String}
    (done : db.retryTaskFromUi now id who = .ok db')
    : Moves [.retryFromUi] db db' := by
  rcases retryTaskFromUi_ok now done with rfl | ⟨task, retried, _, _, rfl, armed⟩
  · exact .refl db'
  · refine .trans ?_ (.of_tasks_eq armed.tasks)
    refine .update_step .retryFromUi (by decide) ?_
    rintro task ⟨_, ended⟩
    refine .retryFromUi ended _ ?_
    simp only [TaskRow.life, TaskRow.parks, TaskRow.retried, Option.isSome_none, Bool.toNat_false]
    omega

theorem Life.Step.resetRow {task : TaskRow} (who : Option String) (ended : task.status.terminal = true)
    : Life.Step .reset task.life (task.reset now who).life :=
  .reset ended

theorem moves_recount {kinds : List Move} (db : Db) (run : Nat) (settled : TaskStatus → Bool)
    (recounts : .recount ∈ kinds)
    : Moves kinds db (db.recount run settled) :=
  .update_step .recount recounts (fun _ met => .recount met.2 _)

/-- What a rerun from where a run broke does, where it does something: the run is set running
again, its broken tasks are put back, and its pending tasks counted again.
-/
theorem rerunFromFailed_ok {db db' : Db} {run : Nat} {origin : RunAgain} {who : Option String}
    (done : db.rerunFromFailed now run origin who = .ok db')
    : db' = db
      ∨ ∃ armed : Db, Rearmed Db.broken run db armed
        ∧ db'.tasks = ((armed.updateTasks (Db.rerunnable run) (TaskRow.reset now who)).recount run
          (fun status => status = .succeeded ∨ status = .skipped)).tasks
        ∧ db'.deps = armed.deps ∧ db'.runs = armed.runs
        ∧ (∃ row, db.run? run = some row ∧ Db.broken row.status = true)
        ∧ ∀ id, db'.told id = armed.told id := by
  simp only [Db.rerunFromFailed] at done
  obtain ⟨⟨armed, ours⟩, ok, done⟩ := exists_of_bind_eq_ok done
  cases ours with
  | false =>
      cases done
      exact .inl rfl
  | true =>
      cases done
      obtain ⟨rearmed, found⟩ := rearmRun_ok now ok (fun _ => over_of_broken) (fun _ _ => rfl)
      exact .inr ⟨armed, rearmed, rfl, rfl, rfl, found rfl, fun _ => told_runAgain _ _ _ _ _ _⟩

theorem moves_rerunFromFailed {db db' : Db} {run : Nat} {origin : RunAgain}
    {who : Option String} (done : db.rerunFromFailed now run origin who = .ok db')
    : Moves [.reset, .recount] db db' := by
  rcases rerunFromFailed_ok now done with rfl | ⟨armed, rearmed, tasks, _⟩
  · exact .refl db'
  · refine .trans (.of_tasks_eq rearmed.tasks) (.trans ?_ (.of_tasks_eq tasks))
    refine .trans ?_ (moves_recount _ run _ (by decide))
    refine .update_step .reset (by decide) ?_
    rintro task ⟨_, ended⟩
    exact .resetRow now who (by rcases ended with ended | ended | ended <;> rw [ended] <;> rfl)

theorem rerunAll_ok {db db' : Db} {run : Nat} {who : Option String}
    (done : db.rerunAll now run who = .ok db')
    : db' = db
      ∨ ∃ armed : Db, Rearmed Db.over_ run db armed
        ∧ db'.tasks = (((armed.dropInstances run).updateTasks
            (fun task => task.runId = run ∧ task.fanoutParent.isNone ∧ task.status.terminal)
            (TaskRow.reset now who)).recount run
          (fun status => status = .succeeded ∨ status = .skipped)).tasks
        ∧ db'.deps = (armed.dropInstances run).deps ∧ db'.runs = armed.runs
        ∧ (∃ row, db.run? run = some row ∧ Db.over_ row.status = true)
        ∧ ∀ id, db'.told id = armed.told id := by
  simp only [Db.rerunAll] at done
  obtain ⟨⟨armed, ours⟩, ok, done⟩ := exists_of_bind_eq_ok done
  cases ours with
  | false =>
      cases done
      exact .inl rfl
  | true =>
      obtain ⟨_, _, done⟩ := exists_of_bind_eq_ok done
      cases done
      obtain ⟨rearmed, found⟩ := rearmRun_ok now ok (fun _ => id) (fun _ _ => rfl)
      exact .inr ⟨armed, rearmed, rfl, rfl, rfl, found rfl, fun _ => told_runAgain _ _ _ _ _ _⟩

theorem moves_dropped {armed db' : Db} {run : Nat} {who : Option String} {settled : TaskStatus → Bool}
    (tasks : db'.tasks = (((armed.dropInstances run).updateTasks
        (fun task => task.runId = run ∧ task.fanoutParent.isNone ∧ task.status.terminal)
        (TaskRow.reset now who)).recount run settled).tasks)
    : Moves [.reset, .recount] (armed.dropInstances run) db' := by
  refine .trans (.trans (.update_step .reset (by decide) ?_)
    (moves_recount _ run _ (by decide))) (.of_tasks_eq tasks)
  rintro task ⟨_, _, ended⟩
  exact .resetRow now who ended

theorem evolves_rerunAll {db db' : Db} {run : Nat} {who : Option String}
    (done : db.rerunAll now run who = .ok db')
    : Evolves [.reset, .recount] db db' := by
  rcases rerunAll_ok now done with rfl | ⟨armed, rearmed, tasks, _⟩
  · exact .refl db'
  · refine .after_moves (.of_tasks_eq rearmed.tasks) (.then_moves ?_ (moves_dropped now tasks))
    exact evolves_delete (fun _ of_ => of_.2) rfl

theorem absent_rerunAll {db db' : Db} {run : Nat} {who : Option String}
    (done : db.rerunAll now run who = .ok db') {id : Nat} (absent : db.task? id = none)
    : db'.task? id = none := by
  rcases rerunAll_ok now done with rfl | ⟨armed, rearmed, tasks, _⟩
  · exact absent
  refine ((moves_dropped now tasks).task?_eq_none_iff id).mpr ?_
  have dropped : (armed.dropInstances run).task? id
      = (armed.task? id).filter (fun task => ¬ Db.instanceOf run task) := Table.get?_delete id
  have same : armed.task? id = db.task? id := by
    unfold Db.task?
    rw [rearmed.tasks]
  rw [dropped, same, absent]
  rfl

/-- What a clear does, where it does something: the task has ended and is of the run, and it
and what depends on it are put back where they have ended.
-/
theorem clearTaskWithDownstream_ok {db db' : Db} {run id : Nat} {who : Option String}
    (done : db.clearTaskWithDownstream now run id who = .ok db')
    : db' = db
      ∨ ∃ counted : Db, (∃ task, db.task? id = some task ∧ task.runId = run
          ∧ task.status.terminal = true)
        ∧ counted = ((db.updateTasks (fun task =>
            task.id ∈ Db.downstream db.deps.rows db.tasks.rows.length [id]
              ∧ task.status.terminal)
          (TaskRow.reset now who)).recount run TaskStatus.terminal)
        ∧ Rearmed Db.over_ run counted db' := by
  simp only [Db.clearTaskWithDownstream] at done
  split at done
  · cases done
    exact .inl rfl
  case isFalse some_ =>
    obtain ⟨task, member, met⟩ := List.countP_pos_iff.mp (Nat.pos_of_ne_zero some_)
    obtain ⟨same, ofRun, ended⟩ := of_decide_eq_true met
    obtain ⟨⟨armed, ours⟩, ok, done⟩ := exists_of_bind_eq_ok done
    cases done
    have armed := (rearmRun_ok now ok (fun _ over_ => over_) (fun _ _ => rfl)).1
    exact .inr ⟨_, ⟨task, same ▸ Db.task?_of_mem member, ofRun, ended⟩, rfl, armed.tasks,
      armed.deps, fun id => (told_runAgain _ _ _ _ _ _).trans (armed.told id), armed.run?,
      armed.again, armed.room⟩

theorem moves_clearTaskWithDownstream {db db' : Db} {run id : Nat} {who : Option String}
    (done : db.clearTaskWithDownstream now run id who = .ok db')
    : Moves [.reset, .recount] db db' := by
  rcases clearTaskWithDownstream_ok now done with rfl | ⟨_, _, rfl, rearmed⟩
  · exact .refl db'
  · refine .trans ?_ (.of_tasks_eq rearmed.tasks)
    refine .trans ?_ (moves_recount _ run _ (by decide))
    refine .update_step .reset (by decide) ?_
    rintro task ⟨_, ended⟩
    exact .resetRow now who ended

end Again

-- New runs

section Create

variable (env : Env) (now : Time)

theorem task_mem_of_mem_seatsOf {dag : DagGraph} {mint : Nat → Nat} {seat : Seat}
    (member : seat ∈ seatsOf dag mint)
    : seat.task ∈ dag.spec.tasks := by
  obtain ⟨⟨⟨task, rank⟩, index⟩, within, rfl⟩ := List.mem_map.mp member
  obtain ⟨other, inTasks, pair⟩ := List.mem_flatMap.mp
    ((List.mem_zipIdx' within).2 ▸ List.getElem_mem _ : (task, rank) ∈ _)
  obtain ⟨_, _, same⟩ := List.mem_map.mp pair
  cases same
  exact inTasks

theorem rowOf_fresh {dag : DagGraph} {run : Nat} {heldBy : Nat} {seat : Seat}
    (member : seat.task ∈ dag.spec.tasks)
    : (rowOf dag run now heldBy seat).life.Fresh where
  plain := by
    refine ⟨fun fans => ?_, fun gate => ?_⟩
    · obtain ⟨kind, single⟩ := dag.wellFormed.fanouts _ member fans
      have none_ : seat.task.gang = none := Option.isNone_iff_eq_none.mp single
      refine ⟨?_, by simp [TaskRow.life, rowOf, none_]⟩
      rcases kind with kind | kind <;> simp [TaskRow.life, rowOf, TaskSpec.isApproval, kind]
    · have none_ := Option.isNone_iff_eq_none.mp (dag.wellFormed.gates _ member gate)
      simp [TaskRow.life, rowOf, none_]
  attempts := ⟨rfl, rfl⟩
  claimedBy := rfl
  leased := rfl
  stopAsked := rfl
  parks := rfl
  waits := rfl
  start := .inl ⟨rfl, rfl⟩

/-- What making a run does: the runs it takes the place of are stopped, and its rows are
inserted.
-/
theorem createRun_ok {db db' : Db} {submission : Submission}
    (done : createRun env now submission db = .ok db')
    : ∃ dag admitted, ∃ row : RunRow, runGraph db submission = .ok dag
        ∧ (weigh env now dag.spec submission.trigger submission.run db).1 = admitted
        ∧ (∃ waits deadlineAt alertDeadlineAt, row = runRowOf dag submission.trigger
            submission.run now waits deadlineAt alertDeadlineAt
          ∧ (weigh env now dag.spec submission.trigger submission.run db).2
            = if waits then .wait else .start)
        ∧ insertRun admitted dag row submission.mint = some db' := by
  simp only [createRun] at done
  split at done
  · cases done
  obtain ⟨dag, graph, done⟩ := exists_of_bind_eq_ok done
  split at done
  case h_2 => cases done
  case h_1 deadlineAt _ =>
    split at done
    case h_2 => cases done
    case h_1 alertDeadlineAt _ =>
      split at done
      case h_1 starts =>
        dsimp only [bind, Except.bind, pure, Except.pure] at done
        split at done
        · cases done
        case h_2 created inserted =>
          cases done
          exact ⟨dag, _, _, graph, rfl, ⟨false, deadlineAt, alertDeadlineAt, rfl, starts⟩, inserted⟩
      case h_2 waits =>
        dsimp only [bind, Except.bind, pure, Except.pure] at done
        split at done
        · cases done
        case h_2 created inserted =>
          cases done
          exact ⟨dag, _, _, graph, rfl, ⟨true, deadlineAt, alertDeadlineAt, rfl, waits⟩, inserted⟩
      case h_3 => cases done

theorem moves_weigh (spec : DagSpec) (trigger : Option RunTrigger) (run : Nat) (db : Db)
    : Moves [.cancel, .askStop] db (weigh env now spec trigger run db).1 := by
  simp only [weigh]
  split
  · exact .refl db
  · split
    · exact moves_supersedeRuns env now db _ _ _ _ (by decide) (by decide)
    · exact .refl db

theorem insertRun_eq_some {db db' : Db} {dag : DagGraph} {row : RunRow} {mint : Nat → Nat}
    (done : insertRun db dag row mint = some db')
    : ∃ heldBy : Nat, heldBy = (if row.queuedAt.isSome then 1 else 0)
        ∧ db.runs.insert row = some db'.runs
        ∧ db.tasks.insertAll
          ((seatsOf dag mint).map (rowOf dag row.id row.createdAt heldBy)) = some db'.tasks
        ∧ db.deps.insertAll (depRowsOf dag (seatsOf dag mint)) = some db'.deps
        ∧ db'.outbox = db.outbox := by
  simp only [insertRun] at done
  obtain ⟨runs, insertedRun, done⟩ := Option.bind_eq_some_iff.mp done
  obtain ⟨tasks, insertedTasks, done⟩ := Option.bind_eq_some_iff.mp done
  obtain ⟨deps, insertedDeps, rfl⟩ := Option.map_eq_some_iff.mp done
  exact ⟨_, rfl, insertedRun, insertAll_of_insertTasks insertedTasks, insertedDeps, rfl⟩

theorem made_createRun {db db' : Db} {submission : Submission}
    (done : createRun env now submission db = .ok db') {id : Nat} {task' : TaskRow}
    (was : db.task? id = none) (is : db'.task? id = some task')
    : ∃ dag heldBy, runGraph db submission = .ok dag
        ∧ ∃ seat ∈ seatsOf dag submission.mint, task' = rowOf dag submission.run now heldBy seat := by
  obtain ⟨dag, admitted, row, graph, rfl, ⟨waits, deadlineAt, alertDeadlineAt, rfl, _⟩, inserted⟩ :=
    createRun_ok env now done
  obtain ⟨heldBy, _, _, tasks, _⟩ := insertRun_eq_some inserted
  have absent := ((moves_weigh env now dag.spec submission.trigger submission.run db
    ).task?_eq_none_iff id).mpr was
  rcases Table.get?_insertAll tasks is with old | ⟨_, member⟩
  · rw [show Table.get? _ id = none from absent] at old
    cases old
  · obtain ⟨seat, among, rfl⟩ := List.mem_map.mp member
    exact ⟨dag, heldBy, graph, seat, among, rfl⟩

theorem evolves_createRun {db db' : Db} {submission : Submission}
    (done : createRun env now submission db = .ok db')
    : Evolves [.cancel, .askStop] db db' := by
  obtain ⟨dag, admitted, row, _, rfl, _, inserted⟩ := createRun_ok env now done
  obtain ⟨heldBy, _, _, tasks, _⟩ := insertRun_eq_some inserted
  refine .after_moves (moves_weigh env now dag.spec _ _ db) (evolves_insert ?_ tasks)
  intro row member
  obtain ⟨seat, within, rfl⟩ := List.mem_map.mp member
  exact rowOf_fresh now (task_mem_of_mem_seatsOf within)

end Create

-- Runs that wait, and runs that end

section Runs

variable (now : Time) (db : Db)

theorem moves_reapRun {kinds : List Move} (ended : Nat × RunStatus)
    : Moves kinds db (db.reapRun now ended) := by
  simp only [Db.reapRun]
  split
  · exact .refl db
  · exact .of_tasks_eq rfl

theorem moves_letIn (waiting : RunRow)
    : Moves [.count] db (db.letIn now waiting) := by
  simp only [Db.letIn]
  split
  · exact .refl db
  · refine .trans ?_ (.update_step .count (by decide) ?_)
    · exact .of_tasks_eq rfl
    · rintro task ⟨_, pending, _⟩
      exact .count pending

theorem moves_admitWaitingRuns
    : Moves [.count] db (db.admitWaitingRuns now) :=
  Db.admitWaitingRuns_rule (fun each row moves => moves.trans (moves_letIn now each row)) (.refl db)

end Runs

end Dagron.Store
