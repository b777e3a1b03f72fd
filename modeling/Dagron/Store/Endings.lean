import Dagron.Store.Closing
import Dagron.Store.Progress

/-! How runs end: what a reap reads still holds when it writes, where no task is put back in
between; a run that has ended has no live task, its end is told once, and what was asked to stop
is only ever cancelled.
-/

namespace Dagron.Store

open Dagron.Library Dagron.Spec

-- Running again

/-- Whether an operation puts tasks of a run back to run again. -/
def Op.putsBack (db : Db) (run : Nat) : Op → Prop
  | .retryTaskFromUi _ id _ => ∃ task ∈ db.task? id,
      (task.status = .failed ∨ task.status = .cancelled) ∧ task.runId = run
  | .rerunFromFailed _ again _ _ => again = run ∧ ∃ row ∈ db.run? run, Db.broken row.status = true
  | .rerunAll _ again _ => again = run ∧ ∃ row ∈ db.run? run, Db.over_ row.status = true
  | .clearTaskWithDownstream _ again id _ => again = run
      ∧ ∃ task ∈ db.task? id, task.runId = run ∧ task.status.terminal = true
  | _ => False

instance (db : Db) (run : Nat) (op : Op) : Decidable (op.putsBack db run) := by
  induction op using Op.casesOn <;> dsimp only [Op.putsBack] <;> infer_instance

/-- Whether an operation is a person's retry of one task. -/
def Op.retriesTask : Op → Bool
  | .retryTaskFromUi .. => true
  | _ => false

/-- Whether an operation puts tasks back in a run that succeeded, which a retry leaves so. -/
def Op.leavesOver (db : Db) (run : Nat) (op : Op) : Prop :=
  op.retriesTask = true ∧ ∃ row ∈ db.run? run, row.status = .succeeded

instance (db : Db) (run : Nat) (op : Op) : Decidable (op.leavesOver db run) := by
  unfold Op.leavesOver
  infer_instance

/-- Whether an operation sets a run, or tasks of it, running again. -/
def Op.runsAgain (db : Db) (run : Nat) (op : Op) : Prop :=
  op.putsBack db run ∧ ¬ op.leavesOver db run

instance (db : Db) (run : Nat) (op : Op) : Decidable (op.runsAgain db run) := by
  unfold Op.runsAgain
  infer_instance

section Again

variable {env : Env} {op : Op} {start before after : Db} {run id : Nat} {task task' : TaskRow}

theorem task?_putBack {now : Time} {db : Db} {cond : TaskRow → Prop} [DecidablePred cond]
    {who : Option String} {settled : TaskStatus → Bool}
    (ofRun : ∀ task, db.task? task.id = some task → cond task → task.runId = run)
    (was : db.task? id = some task) (apart : task.runId ≠ run)
    : ((db.updateTasks cond (TaskRow.reset now who)).recount run settled).task? id
      = some task := by
  have unmet : ¬ cond task := fun met =>
    apart (ofRun task (by rw [Db.id_of_task? was, was]) met)
  have first : (db.updateTasks cond (TaskRow.reset now who)).task? id = some task := by
    have read := @Db.task?_updated db cond _ (TaskRow.reset now who) (fun _ => rfl) id task was
    rwa [if_neg unmet] at read
  rw [task?_recount, first, Option.map_some, if_neg (fun met => apart met.1)]

/-- The tasks of a run none of which is put back are moved along as what puts none back moves
them.
-/
theorem Writes.still (writes : Writes env start op before after) (sited : before.Sited)
    (apart : ¬ op.putsBack before run) (was : before.task? id = some task)
    (is : after.task? id = some task') (ofRun : task.runId = run)
    : ∃ moves ⊆ op.moves, (∀ move ∈ moves, move.reopens = false)
        ∧ Life.Steps moves task.life task'.life := by
  have same (same : after.task? id = some task) : ∃ moves ⊆ op.moves,
      (∀ move ∈ moves, move.reopens = false) ∧ Life.Steps moves task.life task'.life := by
    rw [is] at same
    cases same
    exact ⟨[], List.nil_subset _, nofun, .refl⟩
  subst ofRun
  cases op with
  | retryTaskFromUi now id_ who =>
      obtain ⟨rfl, done⟩ := writes.returns rfl
      refine same ?_
      rw [task?_retryTaskFromUi now done, was, Option.map_some, if_neg]
      rintro ⟨here, ended⟩
      have at_ : id = id_ := (Db.id_of_task? was).symm.trans here
      exact apart ⟨task, at_ ▸ was, ended, rfl⟩
  | rerunFromFailed now again origin who =>
      obtain ⟨rfl, done⟩ := writes.returns rfl
      rcases rerunFromFailed_ok now done with rfl | ⟨armed, rearmed, tasks, _, _, found, _⟩
      · exact same was
      · have other : task.runId ≠ again := by
          rintro rfl
          exact apart ⟨rfl, found⟩
        refine same ?_
        have was : armed.task? id = some task := by
          unfold Db.task? at was ⊢
          rwa [rearmed.tasks]
        unfold Db.task?
        rw [tasks]
        exact task?_putBack (fun _ _ met => met.1) was other
  | rerunAll now again who =>
      obtain ⟨rfl, done⟩ := writes.returns rfl
      rcases rerunAll_ok now done with rfl | ⟨armed, rearmed, tasks, _, _, found, _⟩
      · exact same was
      · have other : task.runId ≠ again := by
          rintro rfl
          exact apart ⟨rfl, found⟩
        refine same ?_
        have was : armed.task? id = some task := by
          unfold Db.task? at was ⊢
          rwa [rearmed.tasks]
        have was := (drops_dropInstances (rearmed.sited sited) again).outside id task was other
        unfold Db.task?
        rw [tasks]
        exact task?_putBack (fun _ _ met => met.1) was other
  | clearTaskWithDownstream now again id_ who =>
      obtain ⟨rfl, done⟩ := writes.returns rfl
      rcases clearTaskWithDownstream_ok now done with
        rfl | ⟨_, ⟨first, found, ofRun, ended⟩, rfl, rearmed⟩
      · exact same was
      · have other : task.runId ≠ again := by
          rintro rfl
          exact apart ⟨rfl, first, found, ofRun, ended⟩
        refine same ?_
        unfold Db.task?
        rw [rearmed.tasks]
        refine task?_putBack (fun row there met => ?_) was other
        refine run_of_mem_downstream sited _ ?_ row.id met.1 row there
        intro listed among row there
        rw [List.mem_singleton.mp among, found] at there
        cases there
        exact ofRun
  | _ =>
      refine ⟨_, List.Subset.refl _, ?_, writes.evolves.kept was is⟩
      simp [Op.moves, Move.reopens, readinessMoves, fanoutMoves]

theorem Writes.runs_again (writes : Writes env start op before after) {row row' : RunRow}
    (was : before.run? run = some row) (is : after.run? run = some row')
    (over_ : Db.over_ row.status = true) (running : row'.status = .running)
    : op.runsAgain before run := by
  obtain ⟨_, is', steps⟩ := writes.runMoves was
  rw [is] at is'
  cases is'
  have quiet : .rearm ∈ op.runMoves := by
    by_contra quiet
    have kept : Db.over_ (row'.life (after.told run)).status = true := by
      refine steps.rule (fun life => Db.over_ life.status = true) over_ ?_
      intro move listed life life' step over_
      cases step with
      | ask status running | finish status running | reap status running =>
          rw [running] at over_
          cases over_
      | rearm => exact absurd listed quiet
      | letIn => exact over_
    rw [show (row'.life (after.told run)).status = .running from running] at kept
    cases kept
  have same (same : after.run? run = before.run? run) : False := by
    rw [same, was] at is
    cases is
    rw [running] at over_
    cases over_
  cases op with
  | retryTaskFromUi now id who =>
      obtain ⟨rfl, done⟩ := writes.returns rfl
      rcases retryTaskFromUi_ok now done with rfl | ⟨task, _, found, ended, rfl, rearmed⟩
      · exact (same rfl).elim
      · rcases rearmed.run? run with kept | ⟨row_, _, was_, _, rfl, _, broken, _⟩
        · exact (same kept).elim
        · refine ⟨⟨task, found, ended, rfl⟩, ?_⟩
          rintro ⟨_, row', was', succeeded⟩
          rw [show before.run? task.runId = some row_ from was_] at was'
          cases was'
          rw [succeeded] at broken
          cases broken
  | rerunFromFailed now again origin who =>
      obtain ⟨rfl, done⟩ := writes.returns rfl
      rcases rerunFromFailed_ok now done with rfl | ⟨armed, rearmed, _, _, runs, found, _⟩
      · exact (same rfl).elim
      · rcases rearmed.run? run with kept | ⟨_, _, _, _, rfl, _⟩
        · refine (same ?_).elim
          unfold Db.run? at kept ⊢
          rw [runs, kept]
        · exact ⟨⟨rfl, found⟩, fun leaves => by cases leaves.1⟩
  | rerunAll now again who =>
      obtain ⟨rfl, done⟩ := writes.returns rfl
      rcases rerunAll_ok now done with rfl | ⟨armed, rearmed, _, _, runs, found, _⟩
      · exact (same rfl).elim
      · rcases rearmed.run? run with kept | ⟨_, _, _, _, rfl, _⟩
        · refine (same ?_).elim
          unfold Db.run? at kept ⊢
          rw [runs, kept]
        · exact ⟨⟨rfl, found⟩, fun leaves => by cases leaves.1⟩
  | clearTaskWithDownstream now again id who =>
      obtain ⟨rfl, done⟩ := writes.returns rfl
      rcases clearTaskWithDownstream_ok now done with
        rfl | ⟨_, ⟨first, found, ofRun, ended⟩, rfl, rearmed⟩
      · exact (same rfl).elim
      · rcases rearmed.run? run with kept | ⟨_, _, _, _, rfl, _⟩
        · exact (same kept).elim
        · exact ⟨⟨rfl, first, found, ofRun, ended⟩, fun leaves => by cases leaves.1⟩
  | _ => simp [Op.runMoves] at quiet

/-- The tasks of a run whose tasks are closed, and none of which is put back, are the tasks it
has after, moved along.
-/
structure Db.Carried (run : Nat) (before after : Db) : Prop where
  found
    : ∀ id task', after.task? id = some task' → task'.runId = run →
        ∃ task moves, before.task? id = some task ∧ task.runId = run
          ∧ (∀ move ∈ moves, move.reopens = false) ∧ Life.Steps moves task.life task'.life
  stays
    : ∀ id task, before.task? id = some task → task.runId = run →
        ∃ task', after.task? id = some task' ∧ task'.runId = run

theorem Writes.carried (writes : Writes env start op before after) (sited : before.Sited)
    (kin : before.Kin) (there : (before.run? run).isSome) (apart : ¬ op.putsBack before run)
    (closed : ∀ id task, before.task? id = some task → task.runId = run → task.life.Closed)
    : before.Carried run after := by
  have unparked {barrier : Nat} {on : TaskRow} (found : before.task? barrier = some on)
      (ofRun : on.runId = run) (running : on.status = .running) (free : on.claimedBy = none)
      : False := by
    rcases closed barrier on found ofRun with done | stopping
    · have terminal : on.status.terminal = true := done.terminal
      rw [running] at terminal
      cases terminal
    · have held : on.claimedBy.isSome := stopping.held
      rw [free] at held
      cases held
  refine ⟨fun id task' is ofRun => ?_, fun id task was ofRun => ?_⟩
  · cases was : before.task? id with
    | none =>
        rcases writes.made was is with
          ⟨_, submission, _, home, _, vacant⟩ | ⟨barrier, on, found, _, _, home, running, free⟩
        · rw [← ofRun, home, vacant] at there
          cases there
        · exact (unparked found (home.trans ofRun) running free).elim
    | some task =>
        have home : task'.runId = task.runId :=
          congrArg TaskColumns.runId (writes.evolves.kept was is).columns.1
        obtain ⟨moves, _, quiet, steps⟩ := writes.still sited apart was is (home.symm.trans ofRun)
        exact ⟨task, moves, rfl, home.symm.trans ofRun, quiet, steps⟩
  · cases is : after.task? id with
    | some task' =>
        have home : task'.runId = task.runId :=
          congrArg TaskColumns.runId (writes.evolves.kept was is).columns.1
        exact ⟨task', rfl, home.trans ofRun⟩
    | none =>
        rcases writes.dropped was is with
          ⟨_, _, rfl, found⟩ | ⟨barrier, on, parent, found, running, free⟩
        · exact absurd ⟨ofRun, ofRun ▸ found⟩ apart
        · obtain ⟨on', found', _, home⟩ := kin id task barrier was parent
          rw [found] at found'
          cases found'
          exact (unparked found (home.trans ofRun) running free).elim

end Again

-- Outcomes

def Db.brokenBy (db : Db) (run : Nat) : Prop :=
  ∃ id task, db.task? id = some task ∧ task.runId = run ∧ task.status = .failed
    ∧ task.allowFailure = false

theorem outcomeOf_eq_some_iff {db : Db} {run : Nat} {status : RunStatus}
    : db.outcomeOf run = some status
      ↔ (∀ id task, db.task? id = some task → task.runId = run → task.status.terminal = true)
        ∧ ((status = .failed ∧ db.brokenBy run) ∨ (status = .succeeded ∧ ¬ db.brokenBy run)) := by
  have all : (db.tasks.select (fun task => task.runId = run)).all (fun task => task.status.terminal)
        = true
      ↔ ∀ id task, db.task? id = some task → task.runId = run → task.status.terminal = true := by
    rw [List.all_eq_true]
    constructor
    · intro ended id task found ofRun
      exact ended task (Table.mem_select.mpr ⟨Table.mem_of_get? found, ofRun⟩)
    · intro ended task among
      obtain ⟨present, ofRun⟩ := Table.mem_select.mp among
      exact ended task.id task (Db.task?_of_mem present) ofRun
  have any : (db.tasks.select (fun task => task.runId = run)).any
        (fun task => task.status = .failed ∧ task.allowFailure = false) = true
      ↔ db.brokenBy run := by
    rw [List.any_eq_true]
    constructor
    · rintro ⟨task, among, met⟩
      obtain ⟨present, ofRun⟩ := Table.mem_select.mp among
      exact ⟨task.id, task, Db.task?_of_mem present, ofRun, of_decide_eq_true met⟩
    · rintro ⟨id, task, found, ofRun, met⟩
      exact ⟨task, Table.mem_select.mpr ⟨Table.mem_of_get? found, ofRun⟩, decide_eq_true met⟩
  simp only [Db.outcomeOf]
  rw [← all, ← any]
  split
  case isTrue ended =>
    rw [Option.some_inj]
    split
    case isTrue broken =>
      simp only [ended, broken, true_and, and_true, not_true_eq_false, and_false, or_false]
      exact eq_comm
    case isFalse broken =>
      rw [Bool.not_eq_true] at broken
      simp only [ended, broken, true_and, Bool.false_eq_true, and_false, not_false_eq_true,
        and_true, false_or]
      exact eq_comm
  case isFalse live =>
    refine ⟨(by rintro ⟨⟩), fun both => absurd both.1 live⟩

theorem over_of_outcomeOf {db : Db} {run : Nat} {status : RunStatus} (read : db.outcomeOf run = some status)
    : Db.over_ status = true := by
  rcases (outcomeOf_eq_some_iff.mp read).2 with ⟨rfl, _⟩ | ⟨rfl, _⟩ <;> rfl

theorem Db.Carried.outcomeOf {run : Nat} {before after : Db} (carried : before.Carried run after)
    (done : ∀ id task, before.task? id = some task → task.runId = run → task.life.Done)
    {status : RunStatus} (read : before.outcomeOf run = some status)
    : after.outcomeOf run = some status := by
  obtain ⟨ended, outcome⟩ := outcomeOf_eq_some_iff.mp read
  have same {id : Nat} {task' : TaskRow} (is : after.task? id = some task') (ofRun : task'.runId = run)
      : ∃ task, before.task? id = some task ∧ task.runId = run ∧ task'.status = task.status
        ∧ task'.allowFailure = task.allowFailure := by
    obtain ⟨task, moves, was, home, quiet, steps⟩ := carried.found id task' is ofRun
    exact ⟨task, was, home, (steps.done quiet (done id task was home)).2,
      congrArg TaskColumns.allowFailure steps.columns.1⟩
  have broken : after.brokenBy run ↔ before.brokenBy run := by
    constructor
    · rintro ⟨id, task', is, ofRun, failed, strict⟩
      obtain ⟨task, was, home, status, allows⟩ := same is ofRun
      exact ⟨id, task, was, home, status.symm.trans failed, allows.symm.trans strict⟩
    · rintro ⟨id, task, was, ofRun, failed, strict⟩
      obtain ⟨task', is, home⟩ := carried.stays id task was ofRun
      obtain ⟨_, was', _, status, allows⟩ := same is home
      rw [was] at was'
      cases was'
      exact ⟨id, task', is, home, status.trans failed, allows.trans strict⟩
  refine outcomeOf_eq_some_iff.mpr ⟨fun id task' is ofRun => ?_, ?_⟩
  · obtain ⟨task, was, home, status, _⟩ := same is ofRun
    rw [status]
    exact ended id task was home
  · rwa [broken]

theorem reapRun_cases (now : Time) (ended : Nat × RunStatus) (db : Db)
    : db.reapRun now ended = db
      ∨ ∃ row row', db.run? ended.1 = some row ∧ row.status = .running
        ∧ (db.reapRun now ended).run? ended.1 = some row' ∧ row'.status = ended.2
        ∧ row'.stoppingAs = row.stoppingAs
        ∧ (∀ id, id ≠ ended.1 → (db.reapRun now ended).run? id = db.run? id)
        ∧ ∀ id, (db.reapRun now ended).task? id = db.task? id := by
  simp only [Db.reapRun]
  split
  · exact .inl rfl
  case isFalse some_ =>
    obtain ⟨row, member, met⟩ := List.countP_pos_iff.mp (Nat.pos_of_ne_zero some_)
    have met := of_decide_eq_true met
    have found : db.run? ended.1 = some row := met.1 ▸ Table.get?_of_mem member
    obtain ⟨others, still, read⟩ := @run?_updateRun ended.1 db
      (fun row => row.id = ended.1 ∧ row.status = .running) _ (fun row => { row with
        status := ended.2
        finishedAt := some now
        completionPendingAt := none
        startPendingAt := none
        output := if ended.2 = .succeeded then db.resultOf row else row.output })
      (fun _ => rfl) (fun _ met => met.1)
    obtain ⟨row', is⟩ := Option.isSome_iff_exists.mp (still (Option.isSome_iff_exists.mpr ⟨row, found⟩))
    obtain ⟨_, found', same⟩ := read row' is
    rw [found] at found'
    cases found'
    rw [if_pos met] at same
    refine .inr ⟨row, row', found, met.2, is, ?_, ?_, others, fun _ => rfl⟩
    · rw [same]
    · rw [same]

-- Worlds

/-- What a reap has read of a run, and not gone by yet, is so, unless the run has ended since. -/
structure World.Closing (world : World) : Prop where
  fenced
    : world.Fenced
  obeys
    : ∀ id task, world.db.task? id = some task → task.life.Obeys
  sited
    : world.db.Sited
  kin
    : world.db.Kin
  runs
    : ∀ id row, world.db.run? id = some row → row.Sound
  outcomes
    : ∀ ended ∈ world.outcomes, ∃ row, world.db.run? ended.1 = some row
        ∧ (Db.over_ row.status = true
          ∨ (row.status = .running ∧ row.stoppingAs = none
            ∧ world.db.outcomeOf ended.1 = some ended.2))
  ends
    : ∀ ended ∈ world.outcomes, Db.over_ ended.2 = true

theorem World.Closing.init
    : World.init.Closing where
  fenced := .init
  obeys _ _ found := by cases found
  sited := Db.Coherent.empty.sited
  kin _ _ _ found := by cases found
  runs _ _ found := by cases found
  outcomes _ listed := by cases listed
  ends _ listed := by cases listed

theorem World.Closing.tame {world : World} (closing : world.Closing)
    : world.db.Tame :=
  ⟨closing.fenced.sound, closing.runs⟩

section Worlds

variable {env : Env} {op : Op} {world : World} {commit : Commit World Op}

theorem World.Closing.done {world : World} (closing : world.Closing) {run : Nat}
    {status : RunStatus} (read : world.db.outcomeOf run = some status)
    : ∀ id task, world.db.task? id = some task → task.runId = run → task.life.Done := by
  intro id task found ofRun
  exact (closing.fenced.sound id task found).done ((outcomeOf_eq_some_iff.mp read).1 id task found ofRun)

theorem Writes.made_run {start before after : Db} (writes : Writes env start op before after)
    {id : Nat} {row : RunRow} (was : before.run? id = none) (is : after.run? id = some row)
    : ∃ now submission dag waits deadlineAt alertDeadlineAt, op = .createRun now submission
        ∧ submission.run = id ∧ runGraph before submission = .ok dag
        ∧ row = runRowOf dag submission.trigger submission.run now waits deadlineAt alertDeadlineAt
        ∧ (weigh env now dag.spec submission.trigger submission.run before).2
          = if waits then .wait else .start := by
  by_cases makes : ∃ now submission, op = .createRun now submission
  · obtain ⟨now, submission, rfl⟩ := makes
    obtain ⟨rfl, done⟩ := writes.returns rfl
    obtain ⟨dag, _, made, graph, rfl, ⟨waits, deadlineAt, alertDeadlineAt, rfl, admission⟩,
      inserted⟩ := createRun_ok env now done
    obtain ⟨_, _, runs, _⟩ := insertRun_eq_some inserted
    have read : after.run? id = _ := (Table.get?_insert runs).2 id
    rw [is] at read
    split at read
    case isTrue here =>
      cases read
      exact ⟨now, submission, dag, waits, deadlineAt, alertDeadlineAt, rfl, here.symm, graph, rfl,
        admission⟩
    case isFalse =>
      have absent := (runMoves_weigh env now before dag.spec submission.trigger submission.run).of_none was
      cases read.trans absent
  · have absent := (writes.runMoves_of_kept (fun now submission same =>
      makes ⟨now, submission, same⟩)).of_none was
    rw [absent] at is
    cases is

theorem Writes.obeys {start before after : Db} (writes : Writes env start op before after)
    (sound : ∀ id task, before.task? id = some task → task.life.Sound)
    (obeys : ∀ id task, before.task? id = some task → task.life.Obeys)
    : ∀ id task, after.task? id = some task → task.life.Obeys := by
  have apart : .askStop ∈ op.moves →
      .park ∉ op.moves ∧ .release ∉ op.moves ∧ .retryFromUi ∉ op.moves := by
    cases op <;> simp [Op.moves, readinessMoves, fanoutMoves]
  intro id task' is
  cases was : before.task? id with
  | none =>
      obtain ⟨life, fresh, steps⟩ := writes.evolves.made was is
      refine steps.obeys fresh.sound ?_ apart
      intro asked
      rw [fresh.stopAsked] at asked
      cases asked
  | some task =>
      exact (writes.evolves.kept was is).obeys (sound id task was) (obeys id task was) apart

theorem World.Closing.runs_step (member : commit ∈ commitsFrom op world ((store env).commits op world))
    (closing : commit.before.Closing)
    : ∀ id row, commit.after.db.run? id = some row → row.Sound := by
  have writes := writes_of_mem member
  intro id row' is
  cases was : commit.before.db.run? id with
  | none =>
      obtain ⟨_, _, _, _, _, _, _, _, _, rfl, _⟩ := writes.made_run was is
      exact ⟨.inl rfl, nofun⟩
  | some row =>
      have sound := closing.runs id row was
      by_cases reaps : ∃ now ended, op = .reapRun now ended
      · obtain ⟨now, ended, rfl⟩ := reaps
        obtain ⟨start, done⟩ := writes.single rfl
        rw [done, ← start] at is
        rcases reapRun_cases now ended commit.before.db with
          same | ⟨reaped, reaped', found, running, found', status, stopping, others, _⟩
        · rw [same, was] at is
          cases is
          exact sound
        · by_cases here : id = ended.1
          · subst here
            rw [is] at found'
            cases found'
            obtain ⟨_, there, outcome⟩ := closing.outcomes ended
              ((leaves_of_mem member).reaps now ended rfl)
            rw [found] at there
            cases there
            rcases outcome with over_ | ⟨_, unasked, outcome⟩
            · rw [running] at over_
              cases over_
            · refine ⟨.inr (status ▸ over_of_outcomeOf outcome), fun target asked => ?_⟩
              rw [stopping, unasked] at asked
              cases asked
          · rw [others id here, was] at is
            cases is
            exact sound
      · obtain ⟨_, is', steps⟩ := writes.runMoves was
        rw [is] at is'
        cases is'
        exact sound.moved steps (op.runMoves_ends (fun now ended same => reaps ⟨now, ended, same⟩))

/-- What a reap has read of a run that runs is so after an operation that puts none of the run's
tasks back.
-/
theorem World.Closing.outcome_step (member : commit ∈ commitsFrom op world ((store env).commits op world))
    (closing : commit.before.Closing) {run : Nat} {row row' : RunRow} {status : RunStatus}
    (was : commit.before.db.run? run = some row) (is : commit.after.db.run? run = some row')
    (unasked : row.stoppingAs = none)
    (read : commit.before.db.outcomeOf run = some status) (still : row'.status = .running)
    (apart : ¬ op.putsBack commit.before.db run)
    : row'.stoppingAs = none ∧ commit.after.db.outcomeOf run = some status := by
  have writes := writes_of_mem member
  have done := closing.done read
  have carried := writes.carried closing.sited closing.kin (Option.isSome_iff_exists.mpr ⟨row, was⟩)
    apart (fun id task found ofRun => .inl (done id task found ofRun))
  have outcome := carried.outcomeOf done read
  refine ⟨?_, outcome⟩
  by_cases asks : op.asks = true
  · rcases writes.halts asks closing.tame (Option.isSome_iff_exists.mpr ⟨row, was⟩) with
      leaves | halted
    · rw [leaves.run?, was] at is
      cases is
      exact unasked
    · by_contra asked
      obtain ⟨other, task, found, ofRun, stops⟩ := halted.stopping row' is still
        (Option.isSome_iff_ne_none.mpr asked)
      have terminal := (outcomeOf_eq_some_iff.mp outcome).1 other task found ofRun
      rw [stops.1] at terminal
      cases terminal
  · obtain ⟨_, is', steps⟩ := writes.runMoves was
    rw [is] at is'
    cases is'
    have kept : (row'.life (commit.after.db.told run)).stoppingAs = none := by
      refine steps.rule (fun life => life.stoppingAs = none) unasked ?_
      intro move listed life life' step none_
      cases step with
      | ask status =>
          cases op <;> first | exact absurd rfl asks | simp [Op.runMoves] at listed
      | finish => rfl
      | reap | rearm | letIn => exact none_
    exact kept

/-- Every operation keeps what a reap has read so, but for those that set a run running again of
which a reap has read that it had ended.
-/
theorem World.Closing.step (member : commit ∈ commitsFrom op world ((store env).commits op world))
    (closing : commit.before.Closing) (bare : ¬ op.retriesHandle commit.before.db)
    (apart : ∀ ended ∈ commit.before.outcomes, ¬ op.runsAgain commit.before.db ended.1)
    : commit.after.Closing where
  fenced := closing.fenced.step member bare
  obeys := (writes_of_mem member).obeys closing.fenced.sound closing.obeys
  sited := (writes_of_mem member).sited closing.sited
  kin := (writes_of_mem member).kin closing.kin
  runs := closing.runs_step member
  outcomes ended listed := by
    have writes := writes_of_mem member
    rcases (leaves_of_mem member).outcomes ended listed with old | ⟨runs, rfl, read⟩
    · obtain ⟨row, was, outcome⟩ := closing.outcomes ended old
      obtain ⟨row', is, _⟩ := writes.runMoves was
      refine ⟨row', is, ?_⟩
      rcases (closing.runs_step member ended.1 row' is).status with still | over_
      · rcases outcome with over_ | ⟨running, unasked, read⟩
        · exact absurd (writes.runs_again was is over_ still) (apart ended old)
        · have apart : ¬ op.putsBack commit.before.db ended.1 := by
            refine fun puts => apart ended old ⟨puts, ?_⟩
            rintro ⟨_, row_, there, succeeded⟩
            rw [was] at there
            cases there
            rw [running] at succeeded
            cases succeeded
          obtain ⟨unasked, read⟩ :=
            closing.outcome_step member was is unasked read still apart
          exact .inr ⟨still, unasked, read⟩
      · exact .inl over_
    · obtain ⟨start, done⟩ := writes.single rfl
      rw [done, ← start]
      obtain ⟨row, among, found⟩ := List.mem_filterMap.mp read
      obtain ⟨status, outcome, rfl⟩ := Option.map_eq_some_iff.mp found
      obtain ⟨present, reapable, _⟩ := Table.mem_select.mp among
      exact ⟨row, Table.get?_of_mem present,
        .inr ⟨reapable.1, Option.isNone_iff_eq_none.mp reapable.2.1, outcome⟩⟩
  ends ended listed := by
    rcases (leaves_of_mem member).outcomes ended listed with old | ⟨runs, rfl, read⟩
    · exact closing.ends ended old
    · obtain ⟨row, _, found⟩ := List.mem_filterMap.mp read
      obtain ⟨status, outcome, rfl⟩ := Option.map_eq_some_iff.mp found
      exact over_of_outcomeOf outcome

end Worlds

-- Commits

/-- The end of a run that is told of where it stops running. -/
def RunRow.toldEnd (row row' : RunRow) : List RunStatus :=
  if row.status = .running ∧ row'.status ≠ .running then [row'.status] else []

/-- How a commit treats the ends of runs: each is told in the transaction that makes it, and
nothing else is; and a reap ends a run as it is when it writes, failed where a task has failed
that may not, succeeded where none has, and each task ended.
-/
structure Announces (commit : Commit World Op) : Prop where
  told
    : ∀ id row row', commit.before.db.run? id = some row → commit.after.db.run? id = some row' →
        commit.after.db.told id = commit.before.db.told id ++ row.toldEnd row'
  reaps
    : ∀ now ended id row row', commit.label = .reapRun now ended →
        commit.before.db.run? id = some row → commit.after.db.run? id = some row' →
        row.status = .running → row'.status ≠ .running →
        (row'.status = .failed ↔ commit.after.db.brokenBy id)
          ∧ (row'.status = .succeeded ↔ ¬ commit.after.db.brokenBy id)
          ∧ ∀ other task, commit.after.db.task? other = some task → task.runId = id →
            task.status.terminal = true

/-- Whether an operation puts a task back to run again, or the tasks of its run. -/
def Op.rearms (task : TaskRow) : Op → Prop
  | .retryTaskFromUi _ id _ => id = task.id
  | .rerunFromFailed _ run _ _ | .rerunAll _ run _ | .clearTaskWithDownstream _ run _ _ =>
      run = task.runId
  | _ => False

/-- Whether a task was asked to stop, and is stopping or was cancelled. -/
def TaskRow.halted (task : TaskRow) : Prop :=
  task.stopping ∨ task.status = .cancelled

/-- How a commit treats stops: what was asked to stop stops, or is cancelled, until it is put
back; and a run that was asked to stop runs on so, or ends as it was asked to, with none of its
tasks stopping.
-/
structure Stops (commit : Commit World Op) : Prop where
  tasks
    : ∀ id task task', commit.before.db.task? id = some task →
        commit.after.db.task? id = some task' → ¬ commit.label.rearms task → task.halted →
        task'.halted
  runs
    : ∀ id row row' status, commit.before.db.run? id = some row →
        commit.after.db.run? id = some row' → row.status = .running →
        row.stoppingAs = some status →
        if row'.status = .running then row'.stoppingAs = some status
        else row'.status = status
          ∧ commit.after.db.told id = commit.before.db.told id ++ [status]
  unstopping
    : ∀ id row row', commit.before.db.run? id = some row → commit.after.db.run? id = some row' →
        row.status = .running → row'.status ≠ .running →
        ∀ other task, commit.after.db.task? other = some task → task.runId = id → ¬ task.stopping

section Commits

variable {env : Env} {op : Op} {world : World} {commit : Commit World Op}

theorem RunLife.Steps.told {moves : List RunMove} {row row' : RunRow} {told told' : List RunStatus}
    (steps : RunLife.Steps moves (row.life told) (row'.life told')) (sound : row.Sound)
    (over_ : ∀ status, .ask status ∈ moves ∨ .reap status ∈ moves → Db.over_ status = true)
    (apart : .rearm ∈ moves → .finish ∉ moves ∧ ∀ status, .reap status ∉ moves)
    : (told' = told ∧ (row.status = .running → row'.status = .running
          ∧ ∀ status, row.stoppingAs = some status → row'.stoppingAs = some status))
      ∨ (row.status = .running ∧ Db.over_ row'.status = true ∧ told' = told ++ [row'.status]
        ∧ ((∀ status, .reap status ∉ moves) →
          ∀ status, row.stoppingAs = some status → row'.status = status)) := by
  have kept := steps.rule (fun life =>
    (life.told = told ∧ (.rearm ∉ moves → life.status = row.status)
      ∧ (row.status = .running → life.status = .running
        ∧ ∀ status, row.stoppingAs = some status → life.stoppingAs = some status)
      ∧ ∀ status ∈ life.stoppingAs, life.status = .running ∧ Db.over_ status = true)
    ∨ (row.status = .running ∧ .rearm ∉ moves ∧ Db.over_ life.status = true
      ∧ life.told = told ++ [life.status]
      ∧ ((∀ status, .reap status ∉ moves) → ∀ status, row.stoppingAs = some status → life.status = status)))
    (.inl ⟨rfl, fun _ => rfl, fun running => ⟨running, fun _ => id⟩, sound.asked⟩) ?_
  · rcases kept with ⟨told, _, still, _⟩ | ⟨running, _, over_, told, asked⟩
    · exact .inl ⟨told, still⟩
    · exact .inr ⟨running, over_, told, asked⟩
  intro move listed life life' step kept
  rcases kept with ⟨told, same, still, asked⟩ | ⟨running, quiet, ended, _⟩
  · cases step with
    | ask status running =>
        refine .inl ⟨told, same, fun ran => ⟨running, fun target was => ?_⟩, ?_⟩
        · rw [(still ran).2 target was, Option.getD_some]
        · intro target stops
          refine ⟨running, ?_⟩
          cases was : life.stoppingAs with
          | none =>
              simp only [was, Option.getD_none, Option.mem_some_iff] at stops
              exact stops ▸ over_ status (.inl listed)
          | some earlier =>
              simp only [was, Option.getD_some, Option.mem_some_iff] at stops
              exact stops ▸ (asked earlier was).2
    | finish status running stops =>
        have quiet : .rearm ∉ moves := fun rearms => (apart rearms).1 listed
        have ran : row.status = .running := (same quiet).symm.trans running
        refine .inr ⟨ran, quiet, (asked status stops).2, congrArg (· ++ [status]) told, ?_⟩
        intro _ target was
        exact Option.some.inj (stops.symm.trans ((still ran).2 target was))
    | reap status running =>
        have quiet : .rearm ∉ moves := fun rearms => (apart rearms).2 status listed
        refine .inr ⟨(same quiet).symm.trans running, quiet, over_ status (.inr listed),
          congrArg (· ++ [status]) told, ?_⟩
        exact fun none_ => absurd listed (none_ status)
    | rearm ended =>
        have over_ : ¬ life.status = .running := by
          intro running
          rw [running] at ended
          cases ended
        refine .inl ⟨told, fun quiet => absurd listed quiet, fun ran => ?_, fun target stops => ?_⟩
        · exact absurd (still ran).1 over_
        · exact absurd (asked target stops).1 over_
    | letIn => exact .inl ⟨told, same, still, asked⟩
  · have over_ : ¬ life.status = .running := by
      intro running
      rw [running] at ended
      cases ended
    cases step with
    | ask _ running | finish _ running | reap _ running | letIn running => exact absurd running over_
    | rearm => exact absurd listed quiet

theorem World.Closing.told (member : commit ∈ commitsFrom op world ((store env).commits op world))
    (closing : commit.before.Closing) {id : Nat} {row row' : RunRow}
    (was : commit.before.db.run? id = some row) (is : commit.after.db.run? id = some row')
    : (commit.after.db.told id = commit.before.db.told id
          ∧ (row.status = .running → row'.status = .running
            ∧ ∀ status, row.stoppingAs = some status → row'.stoppingAs = some status))
      ∨ (row.status = .running ∧ Db.over_ row'.status = true
        ∧ commit.after.db.told id = commit.before.db.told id ++ [row'.status]
        ∧ ((∀ status, .reap status ∉ op.runMoves) →
          ∀ status, row.stoppingAs = some status → row'.status = status)) := by
  obtain ⟨_, is', steps⟩ := (writes_of_mem member).runMoves was
  rw [is] at is'
  cases is'
  refine steps.told (closing.runs id row was) ?_ ?_
  · intro status
    cases op with
    | reapRun now ended =>
        have over_ := closing.ends ended ((leaves_of_mem member).reaps now ended rfl)
        simp only [Op.runMoves, List.mem_singleton, RunMove.reap.injEq, reduceCtorEq, false_or]
        rintro rfl
        exact over_
    | _ => simp +contextual [Op.runMoves, Db.over_]
  · cases op <;> simp [Op.runMoves]

theorem World.Closing.reaped {now : Time} {ended : Nat × RunStatus}
    (member : commit ∈ commitsFrom (.reapRun now ended) world
      ((store env).commits (.reapRun now ended) world))
    (closing : commit.before.Closing) {id : Nat} {row row' : RunRow}
    (was : commit.before.db.run? id = some row) (is : commit.after.db.run? id = some row')
    (running : row.status = .running) (left : row'.status ≠ .running)
    : row.stoppingAs = none ∧ commit.after.db.outcomeOf id = some row'.status := by
  obtain ⟨start, done⟩ := (writes_of_mem member).single rfl
  rw [done, ← start] at is ⊢
  rcases reapRun_cases now ended commit.before.db with
    same | ⟨reaped, reaped', found, _, found', status, _, others, tasks⟩
  · rw [same, was] at is
    cases is
    exact absurd running left
  · by_cases here : id = ended.1
    · subst here
      rw [was] at found
      cases found
      rw [is] at found'
      cases found'
      obtain ⟨_, there, outcome⟩ := closing.outcomes ended ((leaves_of_mem member).reaps now ended rfl)
      rw [was] at there
      cases there
      rcases outcome with over_ | ⟨_, unasked, outcome⟩
      · rw [running] at over_
        cases over_
      · refine ⟨unasked, ?_⟩
        rw [status]
        rw [outcomeOf_eq_some_iff] at outcome ⊢
        simpa only [Db.brokenBy, tasks] using outcome
    · rw [others id here, was] at is
      cases is
      exact absurd running left

/-- Every operation tells of the ends of runs as it makes them, and a reap makes those that have
come.
-/
theorem World.Closing.announces (member : commit ∈ commitsFrom op world ((store env).commits op world))
    (closing : commit.before.Closing)
    : Announces commit where
  told id row row' was is := by
    unfold RunRow.toldEnd
    rcases closing.told member was is with ⟨told, still⟩ | ⟨running, over_, told, _⟩
    · rw [told, if_neg, List.append_nil]
      rintro ⟨running, left⟩
      exact left (still running).1
    · rw [told, if_pos]
      refine ⟨running, fun still => ?_⟩
      rw [still] at over_
      cases over_
  reaps now ended id row row' labelled was is running left := by
    rw [label_of_mem_commitsFrom member] at labelled
    subst labelled
    obtain ⟨terminal, outcome⟩ :=
      outcomeOf_eq_some_iff.mp (closing.reaped member was is running left).2
    rcases outcome with ⟨same, broken⟩ | ⟨same, unbroken⟩
    · exact ⟨by simp [same, broken], by simp [same, broken], terminal⟩
    · exact ⟨by simp [same, unbroken], by simp [same, unbroken], terminal⟩

theorem World.Closing.halted {world : World} (closing : world.Closing) {id : Nat} {task : TaskRow}
    (found : world.db.task? id = some task)
    : task.halted ↔ task.life.Halted := by
  constructor
  · rintro (⟨_, asked⟩ | cancelled)
    · exact .inl (closing.obeys id task found asked)
    · refine .inr ⟨(closing.fenced.sound id task found).done ?_, cancelled⟩
      exact (congrArg TaskStatus.terminal cancelled : task.status.terminal = true)
  · rintro (stopping | ⟨_, cancelled⟩)
    · exact .inl ⟨stopping.running, stopping.asked⟩
    · exact .inr cancelled

theorem Writes.unrearmed {start before after : Db} (writes : Writes env start op before after)
    (sited : before.Sited) {id : Nat} {task task' : TaskRow} (was : before.task? id = some task)
    (is : after.task? id = some task') (apart : ¬ op.rearms task)
    : ∃ moves ⊆ op.moves, (∀ move ∈ moves, move.reopens = false)
        ∧ Life.Steps moves task.life task'.life := by
  cases op with
  | retryTaskFromUi now id_ who =>
      obtain ⟨rfl, done⟩ := writes.returns rfl
      rw [task?_retryTaskFromUi now done, was, Option.map_some, if_neg (fun met => apart met.1.symm)] at is
      cases is
      exact ⟨[], List.nil_subset _, nofun, .refl⟩
  | rerunFromFailed | rerunAll | clearTaskWithDownstream =>
      exact writes.still sited (fun puts => apart puts.1) was is rfl
  | _ => exact writes.still sited (fun puts => puts) was is rfl

theorem World.Closing.stops (member : commit ∈ commitsFrom op world ((store env).commits op world))
    (closing : commit.before.Closing) (after : commit.after.Closing)
    : Stops commit where
  tasks id task task' was is apart halted := by
    rw [label_of_mem_commitsFrom member] at apart
    obtain ⟨moves, _, quiet, steps⟩ :=
      (writes_of_mem member).unrearmed closing.sited was is apart
    exact (after.halted is).mpr (steps.halted quiet ((closing.halted was).mp halted))
  runs id row row' status was is running asked := by
    rcases closing.told member was is with ⟨_, still⟩ | ⟨_, over_, told, stops⟩
    · rw [if_pos (still running).1]
      exact (still running).2 status asked
    · have left : row'.status ≠ .running := by
        intro still
        rw [still] at over_
        cases over_
      have same : row'.status = status := by
        by_cases reaps : ∃ now ended, op = .reapRun now ended
        · obtain ⟨now, ended, rfl⟩ := reaps
          have unasked := (closing.reaped member was is running left).1
          rw [asked] at unasked
          cases unasked
        · refine stops (fun target listed => ?_) status asked
          cases op with
          | reapRun now ended => exact reaps ⟨now, ended, rfl⟩
          | _ => simp [Op.runMoves] at listed
      rw [if_neg left, told, same]
      exact ⟨rfl, rfl⟩
  unstopping id row row' was is running left := by
    by_cases finishes : .finish ∈ op.runMoves
    · exact (writes_of_mem member).unstopping closing.tame finishes was is running left
    · intro other task found ofRun stops
      have reaps : ∃ now ended, op = .reapRun now ended := by
        by_contra reaps
        obtain ⟨_, is', steps⟩ := (writes_of_mem member).runMoves was
        rw [is] at is'
        cases is'
        refine left (steps.rule (fun life => life.status = .running) running ?_)
        intro move listed life life' step running
        cases step with
        | finish => exact absurd listed finishes
        | reap =>
            cases op with
            | reapRun now ended => exact absurd ⟨now, ended, rfl⟩ reaps
            | _ => simp [Op.runMoves] at listed
        | ask | letIn => exact running
        | rearm => rfl
      obtain ⟨now, ended, rfl⟩ := reaps
      have terminal := (outcomeOf_eq_some_iff.mp
        (closing.reaped member was is running left).2).1 other task found ofRun
      rw [stops.1] at terminal
      cases terminal

end Commits

end Dagron.Store
