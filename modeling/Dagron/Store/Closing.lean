import Dagron.Store.Balance

/-! The tasks of a run that ends: what has ended stays so, and what was asked to stop is
cancelled, until they are put back to run again.
-/

namespace Dagron.Store

open Dagron.Library Dagron.Spec

-- Lives that are over

namespace Life

/-- A life that has ended, and that nobody holds. -/
structure Done (life : Life) : Prop where
  terminal
    : life.status.terminal = true
  free
    : life.claimedBy = none

/-- A life that was asked to stop, and whose worker has not said that its work is gone. -/
structure Stopping (life : Life) : Prop where
  running
    : life.status = .running
  asked
    : life.stopAsked = true
  held
    : life.claimedBy.isSome
  unparked
    : life.parks = 0

def Halted (life : Life) : Prop :=
  life.Stopping ∨ (life.Done ∧ life.status = .cancelled)

def Closed (life : Life) : Prop :=
  life.Done ∨ life.Stopping

end Life

def Move.reopens : Move → Bool
  | .retryFromUi | .reset => true
  | _ => false

namespace Life

theorem Step.done {move : Move} {life life' : Life} (step : Step move life life')
    (quiet : move.reopens = false) (done : life.Done)
    : life'.Done ∧ life'.status = life.status := by
  obtain ⟨terminal, free⟩ := done
  have apart {status : TaskStatus} (live : status.terminal = false) : life.status ≠ status := by
    rintro rfl
    rw [live] at terminal
    cases terminal
  cases step with
  | clearStop | clearHandle => exact ⟨⟨terminal, free⟩, rfl⟩
  | count pending | recount pending | ready pending | parkBarrier pending | ask pending
  | skip pending | failWhen pending => exact absurd pending (apart rfl)
  | claim ready => exact absurd ready (apart rfl)
  | renew held | succeed held | fail held | retry held =>
      rw [free] at held
      cases held
  | recover running | park running | release running | resolve _ running | requeue running
  | askStop running | settle running | claimTeardown running | stamp running
  | finishBarrier _ running => exact absurd running (apart rfl)
  | cancel live =>
      rw [terminal] at live
      cases live
  | decide _ asks => exact absurd asks (apart rfl)
  | retryFromUi | reset => cases quiet

theorem Step.stopping {move : Move} {life life' : Life} (step : Step move life life')
    (stopping : life.Stopping)
    : life'.Stopping ∨ (move = .settle ∧ life'.Done ∧ life'.status = .cancelled) := by
  obtain ⟨running, asked, held, unparked⟩ := stopping
  have apart {status : TaskStatus} (other : status ≠ .running) : life.status ≠ status :=
    fun same => other (same.symm.trans running)
  have bound : ¬ life.claimedBy = none := fun free => by simp [free] at held
  cases step with
  | count pending | recount pending | ready pending | parkBarrier pending | ask pending
  | skip pending | failWhen pending => exact absurd pending (apart nofun)
  | claim ready => exact absurd ready (apart nofun)
  | renew | askStop => exact .inl ⟨running, by first | exact asked | rfl, held, unparked⟩
  | claimTeardown => exact .inl ⟨running, asked, rfl, unparked⟩
  | clearHandle parks fewer =>
      refine .inl ⟨running, asked, held, ?_⟩
      dsimp only
      omega
  | recover _ _ free | succeed _ free | fail _ free | retry _ free | park _ free
  | release _ free =>
      rw [asked] at free
      cases free
  | resolve _ _ parked => omega
  | requeue _ parks one => omega
  | cancel _ idle => exact absurd (idle running) bound
  | settle => exact .inr ⟨rfl, ⟨rfl, rfl⟩, rfl⟩
  | clearStop stopped => exact absurd running stopped
  | stamp _ free | finishBarrier _ _ _ free => exact absurd free bound
  | decide _ asks => exact absurd asks (apart nofun)
  | retryFromUi ended =>
      rcases ended with ended | ended <;> exact absurd ended (apart nofun)
  | reset ended =>
      rw [running] at ended
      cases ended

section Steps

variable {moves : List Move} {life life' : Life}

theorem Steps.done (steps : Steps moves life life') (quiet : ∀ move ∈ moves, move.reopens = false)
    (done : life.Done)
    : life'.Done ∧ life'.status = life.status := by
  refine steps.rule (fun other => other.Done ∧ other.status = life.status) ⟨done, rfl⟩ ?_
  intro move listed first second step kept
  obtain ⟨done, same⟩ := kept
  obtain ⟨done', same'⟩ := step.done (quiet move listed) done
  exact ⟨done', same'.trans same⟩

theorem Steps.halted (steps : Steps moves life life')
    (quiet : ∀ move ∈ moves, move.reopens = false) (halted : life.Halted)
    : life'.Halted := by
  refine steps.rule Halted halted ?_
  intro move listed first second step halted
  rcases halted with stopping | ⟨done, cancelled⟩
  · rcases step.stopping stopping with still | ⟨_, done, cancelled⟩
    · exact .inl still
    · exact .inr ⟨done, cancelled⟩
  · obtain ⟨done', same⟩ := step.done (quiet move listed) done
    exact .inr ⟨done', same.trans cancelled⟩

theorem Steps.closed (steps : Steps moves life life')
    (quiet : ∀ move ∈ moves, move.reopens = false) (closed : life.Closed)
    : life'.Closed := by
  refine steps.rule Closed closed ?_
  intro move listed first second step closed
  rcases closed with done | stopping
  · exact .inl (step.done (quiet move listed) done).1
  · rcases step.stopping stopping with still | ⟨_, done, _⟩
    · exact .inr still
    · exact .inl done

end Steps

theorem Sound.done {life : Life} (sound : life.Sound) (terminal : life.status.terminal = true)
    : life.Done where
  terminal := terminal
  free := by
    refine sound.free ?_
    rintro running
    rw [running] at terminal
    cases terminal

/-- Whether a life that was asked to stop is one that stops. -/
def Obeys (life : Life) : Prop :=
  life.stopAsked = true → life.Stopping

/-- Every move leaves a life that was asked to stop one that stops: only what is held, and so is
not parked, is asked.
-/
theorem Step.obeys {move : Move} {life life' : Life} (step : Step move life life')
    (obeys : life.Obeys) (unparked : move = .askStop → life.claimedBy.isSome → life.parks = 0)
    : life'.Obeys := by
  by_cases asked : life.stopAsked = true
  · rcases step.stopping (obeys asked) with still | ⟨rfl, _⟩
    · exact fun _ => still
    · cases step
      nofun
  · intro asked'
    cases step with
    | askStop running held => exact ⟨running, rfl, held, unparked rfl held⟩
    | settle | clearStop => cases asked'
    | _ => exact absurd asked' asked

/-- Moves leave a life that was asked to stop one that stops, where it begins sound and is not
asked after it is parked or put back.
-/
theorem Steps.obeys {moves : List Move} {life life' : Life} (steps : Steps moves life life')
    (sound : life.Sound) (obeys : life.Obeys)
    (apart : .askStop ∈ moves → .park ∉ moves ∧ .release ∉ moves ∧ .retryFromUi ∉ moves)
    : life'.Obeys := by
  by_cases asks : .askStop ∈ moves
  · obtain ⟨park, release, retry⟩ := apart asks
    refine (steps.rule (fun life => life.Sound ∧ life.Obeys) ⟨sound, obeys⟩ ?_).2
    intro move listed first second step kept
    obtain ⟨sound, obeys⟩ := kept
    refine ⟨step.sound ?_ ?_ ?_ sound, step.obeys obeys (fun _ held => (sound.held held).2)⟩
    · rintro rfl
      exact park listed
    · rintro rfl
      exact release listed
    · rintro rfl
      exact retry listed
  · refine steps.rule Obeys obeys ?_
    intro move listed first second step obeys
    refine step.obeys obeys ?_
    rintro rfl
    exact absurd listed asks

end Life

-- Tasks that are made and dropped

section Writes

variable {env : Env} {op : Op} {start before after : Db} {id : Nat} {task task' : TaskRow}

theorem Writes.made (writes : Writes env start op before after) (was : before.task? id = none)
    (is : after.task? id = some task')
    : (∃ now submission, op = .createRun now submission ∧ task'.runId = submission.run
        ∧ task'.fanoutParent = none ∧ before.run? submission.run = none)
      ∨ ∃ barrier on, before.task? barrier = some on ∧ task'.fanoutParent = some barrier
        ∧ on.fanoutOf.isSome ∧ on.runId = task'.runId ∧ on.status = .running
        ∧ on.claimedBy = none := by
  have absent (grows : op.grows = false) : False := by
    rw [((writes.moves grows).task?_eq_none_iff id).mpr was] at is
    cases is
  cases op with
  | createRun now submission =>
      obtain ⟨rfl, done⟩ := writes.returns rfl
      obtain ⟨dag, heldBy, _, seat, _, rfl⟩ := made_createRun env now done was is
      refine .inl ⟨now, submission, rfl, rfl, rfl, ?_⟩
      obtain ⟨dag, _, row, _, rfl, ⟨_, _, _, rfl, _⟩, inserted⟩ := createRun_ok env now done
      obtain ⟨_, _, runs, _⟩ := insertRun_eq_some inserted
      cases was : before.run? submission.run with
      | none => rfl
      | some row =>
          obtain ⟨row', is, _⟩ := (runMoves_weigh env now before dag.spec submission.trigger
            submission.run).of_some was
          have vacant := (Table.get?_insert runs).1
          cases is.symm.trans vacant
  | reconcileFanouts now mint =>
      exact .inr ((fanoutStep_of_mem_reconcileFanouts env now writes).made env now was is)
  | rerunAll now run who =>
      obtain ⟨rfl, done⟩ := writes.returns rfl
      rw [absent_rerunAll now done was] at is
      cases is
  | _ => exact (absent rfl).elim

/-- A row that is dropped is an instance, of a run that is rerun, or of a barrier that is
parked.
-/
theorem Writes.dropped (writes : Writes env start op before after)
    (was : before.task? id = some task) (is : after.task? id = none)
    : (∃ now who, op = .rerunAll now task.runId who
        ∧ ∃ row, before.run? task.runId = some row ∧ Db.over_ row.status = true)
      ∨ ∃ barrier on, task.fanoutParent = some barrier ∧ before.task? barrier = some on
        ∧ on.status = .running ∧ on.claimedBy = none := by
  have absent (grows : op.grows = false) : False := by
    rw [((writes.moves grows).task?_eq_none_iff id).mp is] at was
    cases was
  cases op with
  | createRun now submission =>
      obtain ⟨rfl, done⟩ := writes.returns rfl
      obtain ⟨dag, _, row, _, rfl, _, inserted⟩ := createRun_ok env now done
      obtain ⟨_, _, _, tasks, _⟩ := insertRun_eq_some inserted
      have weighed := moves_weigh env now dag.spec submission.trigger submission.run before
      cases there : (weigh env now dag.spec submission.trigger submission.run before).1.task? id with
      | none =>
          rw [(weighed.task?_eq_none_iff id).mp there] at was
          cases was
      | some middle =>
          have kept : after.task? id = some middle := Table.get?_insertAll_of_get? tasks there
          rw [is] at kept
          cases kept
  | reconcileFanouts now mint =>
      exact .inr ((fanoutStep_of_mem_reconcileFanouts env now writes).dropped env now was is)
  | rerunAll now run who =>
      obtain ⟨rfl, done⟩ := writes.returns rfl
      rcases rerunAll_ok now done with rfl | ⟨armed, rearmed, tasks, _, _, found, _⟩
      · rw [is] at was
        cases was
      · have gone : (armed.dropInstances run).task? id = none :=
          ((moves_dropped now tasks).task?_eq_none_iff id).mp is
        have read : (armed.dropInstances run).task? id
            = (armed.task? id).filter (fun task => ¬ Db.instanceOf run task) :=
          Table.get?_delete id
        have same : armed.task? id = some task := by
          unfold Db.task? at was ⊢
          rwa [rearmed.tasks]
        rw [read, same, Option.filter_eq_none_iff] at gone
        have instance_ := gone task rfl
        simp only [not_not, decide_eq_true_eq] at instance_
        obtain rfl : task.runId = run := instance_.1
        exact .inl ⟨now, who, rfl, found⟩
  | _ => exact (absent rfl).elim

end Writes

/-- An instance's barrier is there, and of the instance's run. -/
def Db.Kin (db : Db) : Prop :=
  ∀ id task barrier, db.task? id = some task → task.fanoutParent = some barrier →
    ∃ on, db.task? barrier = some on ∧ on.fanoutOf.isSome ∧ on.runId = task.runId

/-- Every operation keeps the barrier of an instance: it is no instance, so it is not dropped. -/
theorem Writes.kin {env : Env} {op : Op} {start before after : Db}
    (writes : Writes env start op before after) (kin : before.Kin)
    : after.Kin := by
  have stays {barrier : Nat} {on : TaskRow} (was : before.task? barrier = some on)
      (fans : on.fanoutOf.isSome)
      : ∃ on', after.task? barrier = some on' ∧ on'.toTaskColumns = on.toTaskColumns := by
    cases is : after.task? barrier with
    | none =>
        have single := on.single (writes.evolves.dropped was is)
        rw [single] at fans
        cases fans
    | some on' => exact ⟨on', rfl, (writes.evolves.kept was is).columns.1⟩
  intro id task' barrier is parent
  have found : ∃ on, before.task? barrier = some on ∧ on.fanoutOf.isSome
      ∧ on.runId = task'.runId := by
    cases was : before.task? id with
    | some task =>
        have columns : task'.toTaskColumns = task.toTaskColumns :=
          (writes.evolves.kept was is).columns.1
        have same : task'.runId = task.runId := congrArg TaskColumns.runId columns
        rw [show task'.fanoutParent = task.fanoutParent from
          congrArg TaskColumns.fanoutParent columns] at parent
        rw [same]
        exact kin id task barrier was parent
    | none =>
        rcases writes.made was is with ⟨_, _, _, _, none_, _⟩ | ⟨_, on, there, parent', fans, home, _⟩
        · rw [none_] at parent
          cases parent
        · rw [parent] at parent'
          cases parent'
          exact ⟨on, there, fans, home⟩
  obtain ⟨on, was, fans, home⟩ := found
  obtain ⟨on', is', same⟩ := stays was fans
  refine ⟨on', is', ?_, ?_⟩
  · rwa [show on'.fanoutOf = on.fanoutOf from congrArg TaskColumns.fanoutOf same]
  · exact (congrArg TaskColumns.runId same).trans home

-- Runs that are stopped

/-- What the tasks of a run come to: of one that has ended they have all ended, and of one that
is being stopped each has, or was asked to.
-/
structure Db.Accounts (db : Db) (run : RunRow) : Prop where
  over_
    : Db.over_ run.status = true → ∀ id task, db.task? id = some task → task.runId = run.id →
        task.life.Done
  stopping
    : run.status = .running → run.stoppingAs.isSome → ∀ id task, db.task? id = some task →
        task.runId = run.id → task.life.Closed

/-- A run whose tasks are what they come to, and that is not being stopped unless one of them
is.
-/
structure Db.Halted (db : Db) (id : Nat) : Prop where
  accounts
    : ∀ row, db.run? id = some row → db.Accounts row
  stopping
    : ∀ row, db.run? id = some row → row.status = .running → row.stoppingAs.isSome →
        ∃ other task, db.task? other = some task ∧ task.runId = id ∧ task.stopping

/-- A run is left, with its tasks. -/
structure Db.Leaves (before after : Db) (id : Nat) : Prop where
  run?
    : after.run? id = before.run? id
  task?
    : ∀ other task, task.runId = id → (after.task? other = some task ↔ before.task? other = some task)

/-- What holds of every run: it runs or is over, and one that was asked to stop runs, to be over
as it was asked.
-/
structure RunRow.Sound (run : RunRow) : Prop where
  status
    : run.status = .running ∨ Db.over_ run.status = true
  asked
    : ∀ status ∈ run.stoppingAs, run.status = .running ∧ Db.over_ status = true

/-- Whether a move may end a run, or ask it to, as a run is over. -/
def RunMove.ends : RunMove → Bool
  | .ask status => Db.over_ status
  | .reap _ => false
  | _ => true

section Stops

variable (env : Env) (now : Time) {db before after : Db} {run id : Nat}

theorem Db.Leaves.refl (db : Db) (id : Nat)
    : db.Leaves db id :=
  ⟨rfl, fun _ _ _ => Iff.rfl⟩

theorem Db.Leaves.trans {first second third : Db} (before : first.Leaves second id)
    (after : second.Leaves third id)
    : first.Leaves third id :=
  ⟨after.run?.trans before.run?, fun other task ofRun =>
    (after.task? other task ofRun).trans (before.task? other task ofRun)⟩

theorem Db.Leaves.symm (leaves : before.Leaves after id)
    : after.Leaves before id :=
  ⟨leaves.run?.symm, fun other task ofRun => (leaves.task? other task ofRun).symm⟩

theorem Db.Leaves.accounts {row : RunRow} (leaves : before.Leaves after id) (home : row.id = id)
    (accounts : before.Accounts row)
    : after.Accounts row where
  over_ ended other task found ofRun :=
    accounts.over_ ended other task ((leaves.task? other task (ofRun.trans home)).mp found) ofRun
  stopping running asked other task found ofRun :=
    accounts.stopping running asked other task ((leaves.task? other task (ofRun.trans home)).mp found) ofRun

theorem Db.Leaves.halted (leaves : before.Leaves after id) (halted : before.Halted id)
    : after.Halted id := by
  refine ⟨?_, ?_⟩
  · intro row is
    exact leaves.accounts (Table.key_of_get? is) (halted.accounts row (leaves.run? ▸ is))
  · intro row is running asked
    obtain ⟨other, task, found, ofRun, stops⟩ :=
      halted.stopping row (leaves.run? ▸ is) running asked
    exact ⟨other, task, (leaves.task? other task ofRun).mpr found, ofRun, stops⟩

theorem closed_stopRunTasks {task : TaskRow} (was : db.task? id = some task)
    (sound : task.life.Sound) (home : task.runId = run)
    : ∃ task', (db.stopRunTasks env now run).task? id = some task' ∧ task'.life.Closed := by
  simp only [Db.stopRunTasks]
  refine ⟨_, Db.task?_updated (Db.task?_updated was), ?_⟩
  by_cases idle : task.idle
  · simp only [home, idle, and_self, if_true]
    rw [if_neg]
    · exact .inl ⟨rfl, rfl⟩
    · rintro ⟨_, cancelled, _⟩
      cases cancelled
  · simp only [home, idle, and_false, if_false, true_and]
    split
    case isTrue held =>
      have unparked := sound.held held.2
      exact .inr ⟨held.1, rfl, held.2, unparked.2⟩
    case isFalse free =>
      refine .inl (sound.done ?_)
      cases status : task.status with
      | pending => exact absurd (.inl status) idle
      | ready => exact absurd (.inr (.inl status)) idle
      | awaitingApproval => exact absurd (.inr (.inr (.inl status))) idle
      | running =>
          cases claimed : task.claimedBy with
          | none => exact absurd (.inr (.inr (.inr ⟨status, by simp [claimed]⟩))) idle
          | some worker => exact absurd ⟨status, by simp [claimed]⟩ free
      | _ => exact (congrArg TaskStatus.terminal status : task.status.terminal = true)

theorem leaves_finishStoppedRun (db : Db) (apart : id ≠ run)
    : db.Leaves (db.finishStoppedRun now run) id := by
  have tasks := (finishStoppedRun_tasks now run db).1
  refine ⟨?_, fun other task _ => ?_⟩
  · rcases run?_finishStoppedRun now run db id with same | ⟨_, _, here, _⟩
    · exact same
    · exact absurd here apart
  · unfold Db.task?
    rw [tasks]

theorem leaves_stopRunTasks (db : Db) (apart : id ≠ run)
    : db.Leaves (db.stopRunTasks env now run) id := by
  refine ⟨rfl, fun other task ofRun => ?_⟩
  constructor
  · intro is
    have steps : Moves [.cancel, .askStop] db (db.stopRunTasks env now run) :=
      moves_stopRunTasks env now db run (by decide) (by decide)
    obtain ⟨task_, was, moved⟩ := steps.of_some is
    have home : task.runId = task_.runId := congrArg TaskColumns.runId moved.columns.1
    obtain ⟨_, is', same, _⟩ := task?_stopRunTasks env now run db was
    rw [is] at is'
    cases is'
    rw [same (fun here => apart ((ofRun.symm.trans home).trans here)), was]
  · intro was
    obtain ⟨_, is, same, _⟩ := task?_stopRunTasks env now run db was
    rw [is, same (fun here => apart (ofRun.symm.trans here))]

theorem halted_finishStoppedRun (accounts : ∀ row, db.run? run = some row → db.Accounts row)
    (asked : ∀ row, db.run? run = some row → row.Sound)
    : (db.finishStoppedRun now run).Halted run := by
  unfold Db.finishStoppedRun
  split
  case h_1 none_ =>
    refine ⟨accounts, fun row found running stops => ?_⟩
    rw [found, Option.bind_some, if_pos running] at none_
    rw [none_] at stops
    cases stops
  case h_2 status some_ =>
    obtain ⟨row, found, target⟩ := Option.bind_eq_some_iff.mp some_
    have running : row.status = .running := by
      by_contra other
      simp [other] at target
    rw [if_pos running] at target
    have home : row.id = run := Table.key_of_get? found
    split
    case isFalse some_ =>
      refine ⟨accounts, fun _ _ _ _ => ?_⟩
      obtain ⟨task, member, met⟩ := List.countP_pos_iff.mp (Nat.pos_of_ne_zero some_)
      obtain ⟨ofRun, stops⟩ := of_decide_eq_true met
      exact ⟨task.id, task, Db.task?_of_mem member, ofRun, stops⟩
    case isTrue none_ =>
      have over_ : Db.over_ status = true := ((asked row found).asked status target).2
      have read : ((db.updateRuns (fun row => row.id = run) (RunRow.stopped now status)).emit
          (.runCompleted run status)).run? run = some (row.stopped now status) := by
        have read : (db.updateRuns (fun row => row.id = run) (RunRow.stopped now status)).run? run
            = (db.run? run).map (fun row => if row.id = run then row.stopped now status else row) :=
          Db.run?_updateRuns run
        rw [found, Option.map_some, if_pos home] at read
        exact read
      refine ⟨fun row' is => ?_, fun row' is still _ => ?_⟩
      · rw [read] at is
        cases is
        refine ⟨fun _ other task there ofRun => ?_, fun still _ => ?_⟩
        · have closed := (accounts row found).stopping running (by simp [target]) other task there ofRun
          rcases closed with done | stops
          · exact done
          · have counted := List.countP_eq_zero.mp none_ task (Table.mem_of_get? there)
            simp only [decide_eq_true_eq] at counted
            exact absurd ⟨ofRun.trans home, stops.running, stops.asked⟩ counted
        · have still : status = .running := still
          rw [still] at over_
          cases over_
      · rw [read] at is
        cases is
        have still : status = .running := still
        rw [still] at over_
        cases over_

theorem halted_stopRun (sound : ∀ id task, db.task? id = some task → task.life.Sound)
    (asked : ∀ row, db.run? run = some row → row.Sound)
    (due : db.Halted run ∨ ∀ row, db.run? run = some row → row.status = .running)
    : ((db.stopRunTasks env now run).finishStoppedRun now run).Halted run := by
  have steps : Moves [.cancel, .askStop] db (db.stopRunTasks env now run) :=
    moves_stopRunTasks env now db run (by decide) (by decide)
  have same (other : Nat) (task : TaskRow) (is : (db.stopRunTasks env now run).task? other = some task)
      : ∃ task_, db.task? other = some task_ ∧ task.runId = task_.runId := by
    obtain ⟨task_, was, moved⟩ := steps.of_some is
    exact ⟨task_, was, congrArg TaskColumns.runId moved.columns.1⟩
  refine halted_finishStoppedRun now (fun row found => ?_) asked
  have found : db.run? run = some row := found
  refine ⟨fun over_ other task is ofRun => ?_, fun running _ other task is ofRun => ?_⟩
  · rcases due with halted | running
    · obtain ⟨task_, was, moved⟩ := steps.of_some is
      have home : task.runId = task_.runId := congrArg TaskColumns.runId moved.columns.1
      have done := (halted.accounts row found).over_ over_ other task_ was (home.symm.trans ofRun)
      exact (moved.done (by decide) done).1
    · rw [running row found] at over_
      cases over_
  · obtain ⟨task_, was, home⟩ := same other task is
    have home := (home.symm.trans ofRun).trans (Table.key_of_get? found)
    obtain ⟨_, is', closed⟩ := closed_stopRunTasks env now was (sound other task_ was) home
    rw [is] at is'
    cases is'
    exact closed

theorem RunRow.Sound.moved {moves : List RunMove} {row row' : RunRow} {told told' : List RunStatus}
    (sound : row.Sound) (steps : RunLife.Steps moves (row.life told) (row'.life told'))
    (ends : ∀ move ∈ moves, move.ends = true)
    : row'.Sound := by
  have kept : ((row'.life told').status = .running ∨ Db.over_ (row'.life told').status = true)
      ∧ ∀ status ∈ (row'.life told').stoppingAs,
        (row'.life told').status = .running ∧ Db.over_ status = true := by
    refine steps.rule (fun life => (life.status = .running ∨ Db.over_ life.status = true)
      ∧ ∀ status ∈ life.stoppingAs, life.status = .running ∧ Db.over_ status = true)
      ⟨sound.status, sound.asked⟩ ?_
    intro move listed life life' step kept
    obtain ⟨status, asked⟩ := kept
    have ends := ends move listed
    cases step with
    | ask asks running =>
        refine ⟨.inl running, fun target stops => ⟨running, ?_⟩⟩
        cases was : life.stoppingAs with
        | none =>
            simp only [was, Option.getD_none, Option.mem_some_iff] at stops
            exact stops ▸ ends
        | some earlier =>
            simp only [was, Option.getD_some, Option.mem_some_iff] at stops
            exact stops ▸ (asked earlier was).2
    | finish target running stops => exact ⟨.inr (asked target stops).2, nofun⟩
    | reap => cases ends
    | rearm ended =>
        refine ⟨.inl rfl, fun target stops => ?_⟩
        rw [(asked target stops).1] at ended
        cases ended
    | letIn running queued unadmitted unasked =>
        refine ⟨status, fun target stops => ?_⟩
        rw [unasked] at stops
        cases stops
  exact ⟨kept.1, kept.2⟩

/-- The rows of a store are sound. -/
structure Db.Tame (db : Db) : Prop where
  tasks
    : ∀ id task, db.task? id = some task → task.life.Sound
  runs
    : ∀ id row, db.run? id = some row → row.Sound

theorem Db.Tame.stopped {moves : List Move} {runMoves : List RunMove} (tame : before.Tame)
    (steps : Moves moves before after) (runSteps : RunMoves runMoves before after)
    (within : moves ⊆ [.cancel, .askStop]) (ends : ∀ move ∈ runMoves, move.ends = true)
    : after.Tame where
  tasks := by
    refine (steps.mono within).evolves.sound ?_ ?_ ?_ tame.tasks <;> decide
  runs := by
    intro id row' is
    cases was : before.run? id with
    | none =>
        rw [runSteps.of_none was] at is
        cases is
    | some row =>
        obtain ⟨_, is', moved⟩ := runSteps.of_some was
        rw [is] at is'
        cases is'
        exact (tame.runs id row was).moved moved ends

/-- A transaction leaves a run, with its tasks, or halts it. -/
def Halts (before after : Db) (id : Nat) : Prop :=
  before.Leaves after id ∨ after.Halted id

theorem Halts.trans {first second third : Db} (before : Halts first second id)
    (after : Halts second third id)
    : Halts first third id := by
  rcases after with leaves | halted
  · rcases before with leaves' | halted
    · exact .inl (leaves'.trans leaves)
    · exact .inr (leaves.halted halted)
  · exact .inr halted

theorem leaves_askedRun {cond : RunRow → Prop} [DecidablePred cond] {set : RunRow → RunRow}
    {keeps : ∀ row, (set row).toRunColumns = row.toRunColumns}
    (only : ∀ row, cond row → row.id = run) (apart : id ≠ run)
    : db.Leaves (((db.updateRuns cond set keeps).stopRunTasks env now run).finishStoppedRun now run)
      id := by
  obtain ⟨others, _, _⟩ := @run?_updateRun run db cond _ set keeps only
  have asks : db.Leaves (db.updateRuns cond set keeps) id :=
    ⟨others id apart, fun _ _ _ => Iff.rfl⟩
  exact asks.trans ((leaves_stopRunTasks env now _ apart).trans (leaves_finishStoppedRun now _ apart))

theorem halts_askedRun {cond : RunRow → Prop} [DecidablePred cond] {set : RunRow → RunRow}
    {keeps : ∀ row, (set row).toRunColumns = row.toRunColumns} (tame : db.Tame)
    (only : ∀ row, cond row → row.id = run)
    (asked : ∀ row, cond row → (set row).status = .running ∧ (row.Sound → (set row).Sound))
    (some_ : ¬ db.runs.rows.countP (fun row => cond row) = 0) (id : Nat)
    : Halts db (((db.updateRuns cond set keeps).stopRunTasks env now run).finishStoppedRun now run)
      id := by
  obtain ⟨_, _, read⟩ := @run?_updateRun run db cond _ set keeps only
  obtain ⟨row, member, met⟩ := List.countP_pos_iff.mp (Nat.pos_of_ne_zero some_)
  have met := of_decide_eq_true met
  have found : db.run? run = some row := only row met ▸ Table.get?_of_mem member
  have is {row' : RunRow} (is : (db.updateRuns cond set keeps).run? run = some row')
      : row' = set row := by
    obtain ⟨_, found', rfl⟩ := read row' is
    rw [found] at found'
    cases found'
    rw [if_pos met]
  by_cases here : id = run
  · subst here
    refine .inr (halted_stopRun env now tame.tasks ?_ (.inr ?_))
    · intro row' there
      rw [is there]
      exact (asked row met).2 (tame.runs id row found)
    · intro row' there
      rw [is there]
      exact (asked row met).1
  · exact .inl (leaves_askedRun env now only here)

theorem halts_cancelRun (tame : db.Tame) (id : Nat)
    : Halts db (db.cancelRun env now run) id := by
  simp only [Db.cancelRun]
  split
  · exact .inl (.refl db id)
  case isFalse some_ =>
    refine halts_askedRun env now tame (fun _ met => met.1) ?_ some_ id
    intro row met
    refine ⟨met.2, fun sound => ⟨sound.status, fun status stops => ⟨met.2, ?_⟩⟩⟩
    cases was : row.stoppingAs with
    | none =>
        simp only [was, Option.getD_none, Option.mem_some_iff] at stops
        exact stops ▸ rfl
    | some earlier =>
        simp only [was, Option.getD_some, Option.mem_some_iff] at stops
        exact stops ▸ (sound.asked earlier was).2

/-- Cancelling the runs that a new run takes the place of leaves the other runs, and halts each
of them.
-/
theorem halts_supersedeRuns (tame : db.Tame) (name : String) (key : Option String) (newer : Nat)
    (own : Option RunTrigger) (id : Nat)
    : Halts db (db.supersedeRuns env now name key newer own) id := by
  have each (runs : List Nat) (db : Db) (tame : db.Tame)
      : Halts db (runs.foldl (fun db run => db.supersedeRun env now newer run) db) id := by
    induction runs generalizing db with
    | nil => exact .inl (.refl db id)
    | cons run rest ih =>
        refine .trans ?_ (ih _ ?_)
        · simp only [Db.supersedeRun]
          split
          · exact .inl (.refl db id)
          case isFalse some_ =>
            refine halts_askedRun env now tame (fun _ met => met.1) ?_ some_ id
            intro row met
            refine ⟨met.2.1, fun sound => ⟨sound.status, fun status stops => ?_⟩⟩
            obtain rfl : .cancelled = status := Option.some.inj stops
            exact ⟨met.2.1, rfl⟩
        · exact tame.stopped (moves_supersedeRun env now db newer run (by decide) (by decide))
            (runMoves_supersedeRun env now db newer run) (List.Subset.refl _) (by decide)
  exact each _ db tame

/-- Stopping runs one after another leaves the others, and halts each that runs, by induction
over them.
-/
theorem halts_stopEach (runs : List Nat) (tame : db.Tame) (id : Nat)
    : (id ∉ runs → db.Leaves (runs.foldl (fun db run =>
          (db.stopRunTasks env now run).finishStoppedRun now run) db) id)
        ∧ ((db.Halted id ∨ (id ∈ runs ∧ ∀ row, db.run? id = some row → row.status = .running)) →
          (runs.foldl (fun db run =>
            (db.stopRunTasks env now run).finishStoppedRun now run) db).Halted id) := by
  induction runs generalizing db with
  | nil =>
      refine ⟨fun _ => .refl db id, fun due => ?_⟩
      rcases due with halted | ⟨among, _⟩
      · exact halted
      · cases among
  | cons run rest ih =>
      have steps : Moves [.cancel, .askStop] db
          ((db.stopRunTasks env now run).finishStoppedRun now run) :=
        .trans (moves_stopRunTasks env now db run (by decide) (by decide))
          (moves_finishStoppedRun now _ run)
      have tame' := tame.stopped steps
        (runMoves_stopRun env now db run (List.mem_singleton.mpr rfl)) (List.Subset.refl _)
        (by decide)
      obtain ⟨leave, halt⟩ := ih tame'
      have left (apart : id ≠ run)
          : db.Leaves ((db.stopRunTasks env now run).finishStoppedRun now run) id :=
        (leaves_stopRunTasks env now db apart).trans (leaves_finishStoppedRun now _ apart)
      refine ⟨fun none_ => ?_, fun due => ?_⟩
      · obtain ⟨apart, none_⟩ := not_or.mp (mt List.mem_cons.mpr none_)
        exact (left apart).trans (leave none_)
      · refine halt ?_
        by_cases here : id = run
        · subst here
          refine .inl (halted_stopRun env now tame.tasks (fun row => tame.runs id row) ?_)
          exact due.imp_right And.right
        · rcases due with halted | ⟨among, running⟩
          · exact .inl ((left here).halted halted)
          · refine .inr ⟨(List.mem_cons.mp among).resolve_left here, ?_⟩
            rwa [(left here).run?]

theorem halts_cancelOverdueRuns (tame : db.Tame) (id : Nat)
    : Halts db (db.cancelOverdueRuns env now) id := by
  have read (id : Nat)
      : (db.updateRuns (RunRow.overdue now) (RunRow.timedOut now)).run? id
        = (db.run? id).map (fun row => if row.overdue now then row.timedOut now else row) :=
    Db.run?_updateRuns id
  have tame' : (db.updateRuns (RunRow.overdue now) (RunRow.timedOut now)).Tame := by
    refine ⟨tame.tasks, fun other row' is => ?_⟩
    rw [read] at is
    obtain ⟨row, found, rfl⟩ := Option.map_eq_some_iff.mp is
    split
    case isTrue overdue =>
      refine ⟨.inl overdue.1, fun status stops => ⟨overdue.1, ?_⟩⟩
      obtain rfl : .failed = status := Option.some.inj stops
      rfl
    case isFalse => exact tame.runs other row found
  simp only [Db.cancelOverdueRuns]
  obtain ⟨leave, halt⟩ := halts_stopEach env now
    ((db.runs.select (RunRow.overdue now)).map (fun run => run.id)) tame' id
  by_cases due : id ∈ (db.runs.select (RunRow.overdue now)).map (fun run => run.id)
  · refine .inr (halt (.inr ⟨due, fun row' is => ?_⟩))
    obtain ⟨row, among, rfl⟩ := List.mem_map.mp due
    obtain ⟨present, overdue⟩ := Table.mem_select.mp among
    have found : db.run? row.id = some row := Table.get?_of_mem present
    rw [read, found, Option.map_some, if_pos overdue] at is
    cases is
    exact overdue.1
  · have asks : db.Leaves (db.updateRuns (RunRow.overdue now) (RunRow.timedOut now)) id := by
      refine ⟨?_, fun _ _ _ => Iff.rfl⟩
      rw [read]
      cases found : db.run? id with
      | none => rfl
      | some row =>
          have unmet : ¬ row.overdue now := by
            intro overdue
            have home : row.id = id := Table.key_of_get? found
            exact due (List.mem_map.mpr ⟨row,
              Table.mem_select.mpr ⟨Table.mem_of_get? found, overdue⟩, home⟩)
          rw [Option.map_some, if_neg unmet]
    exact .inl (asks.trans (leave due))

theorem halts_weigh (tame : db.Tame) (spec : DagSpec) (trigger : Option RunTrigger) (run id : Nat)
    : Halts db (weigh env now spec trigger run db).1 id := by
  simp only [weigh]
  split
  · exact .inl (.refl db id)
  · dsimp only
    split
    · exact halts_supersedeRuns env now tame _ _ _ _ id
    · exact .inl (.refl db id)

end Stops

-- Operations

section Operations

variable {env : Env} {op : Op} {start before after : Db} {id : Nat}

def Op.asks : Op → Bool
  | .createRun .. | .cancelRun .. | .cancelOverdueRuns .. => true
  | _ => false

/-- Every operation but the end of a run by a reap ends runs, or asks them to, as they are over. -/
theorem Op.runMoves_ends (op : Op) (reaps : ∀ now ended, op ≠ .reapRun now ended)
    : ∀ move ∈ op.runMoves, move.ends = true := by
  cases op with
  | reapRun now ended => exact absurd rfl (reaps now ended)
  | _ => simp [Op.runMoves, RunMove.ends, Db.over_]

theorem leaves_insertRun {db db' : Db} {dag : DagGraph} {row : RunRow} {mint : Nat → Nat}
    (inserted : insertRun db dag row mint = some db') (apart : id ≠ row.id)
    : db.Leaves db' id := by
  obtain ⟨heldBy, _, runs, tasks, _⟩ := insertRun_eq_some inserted
  obtain ⟨_, read⟩ := Table.get?_insert runs
  refine ⟨(read id).trans (if_neg apart), fun other task ofRun => ⟨fun found => ?_, ?_⟩⟩
  · rcases Table.get?_insertAll tasks found with old | ⟨_, member⟩
    · exact old
    · obtain ⟨seat, _, rfl⟩ := List.mem_map.mp member
      exact absurd ofRun.symm apart
  · exact Table.get?_insertAll_of_get? tasks

theorem Writes.halts (writes : Writes env start op before after) (asks : op.asks = true)
    (tame : before.Tame) (there : (before.run? id).isSome)
    : Halts before after id := by
  cases op with
  | createRun now submission =>
      obtain ⟨rfl, done⟩ := writes.returns rfl
      obtain ⟨dag, _, row, _, rfl, ⟨_, _, _, rfl, _⟩, inserted⟩ := createRun_ok env now done
      refine (halts_weigh env now tame dag.spec submission.trigger submission.run id).trans (.inl ?_)
      obtain ⟨_, _, runs, _⟩ := insertRun_eq_some inserted
      obtain ⟨vacant, _⟩ := Table.get?_insert runs
      obtain ⟨row, was⟩ := Option.isSome_iff_exists.mp there
      obtain ⟨row', is, _⟩ := (runMoves_weigh env now before dag.spec submission.trigger
        submission.run).of_some was
      have apart : id ≠ submission.run := by
        rintro rfl
        cases is.symm.trans vacant
      exact leaves_insertRun inserted apart
  | cancelRun now run =>
      obtain ⟨rfl, rfl⟩ := writes.single rfl
      exact halts_cancelRun env now tame id
  | cancelOverdueRuns now =>
      obtain ⟨rfl, rfl⟩ := writes.single rfl
      exact halts_cancelOverdueRuns env now tame id
  | _ => cases asks

theorem unstopping_finishStoppedRun (now : Time) (db : Db) (run : Nat)
    : (db.finishStoppedRun now run).run? id = db.run? id
      ∨ ∀ other task, (db.finishStoppedRun now run).task? other = some task → task.runId = id →
        ¬ task.stopping := by
  by_cases here : id = run
  · subst here
    unfold Db.finishStoppedRun
    split
    · exact .inl rfl
    · split
      case isFalse => exact .inl rfl
      case isTrue none_ =>
        refine .inr (fun other task found ofRun stops => ?_)
        have counted := List.countP_eq_zero.mp none_ task (Table.mem_of_get? found)
        simp only [decide_eq_true_eq] at counted
        exact counted ⟨ofRun, stops⟩
  · exact .inl (leaves_finishStoppedRun now db here).run?

theorem unstopping_settleStoppedTask (now : Time) (db : Db) (task : Nat) (worker : String) (fence : Nat)
    : (db.settleStoppedTask now task worker fence).run? id = db.run? id
      ∨ ∀ other row, (db.settleStoppedTask now task worker fence).task? other = some row →
        row.runId = id → ¬ row.stopping := by
  unfold Db.settleStoppedTask Db.settleStopping
  split
  · exact .inl rfl
  · exact unstopping_finishStoppedRun now _ _

/-- An operation that ends a run that was asked to stop ends it where none of its tasks is
stopping.
-/
theorem Writes.unstopping (writes : Writes env start op before after) (tame : before.Tame)
    (finishes : .finish ∈ op.runMoves) {row row' : RunRow} (was : before.run? id = some row)
    (is : after.run? id = some row') (running : row.status = .running)
    (left : row'.status ≠ .running)
    : ∀ other task, after.task? other = some task → task.runId = id → ¬ task.stopping := by
  have changed : ¬ after.run? id = before.run? id := by
    intro same
    rw [same, was] at is
    cases is
    exact left running
  by_cases asks : op.asks = true
  · have over_ : Db.over_ row'.status = true := by
      obtain ⟨_, is', steps⟩ := writes.runMoves was
      rw [is] at is'
      cases is'
      refine ((tame.runs id row was).moved steps (op.runMoves_ends ?_)).status.resolve_left left
      rintro now ended rfl
      cases asks
    rcases writes.halts asks tame (Option.isSome_iff_exists.mpr ⟨row, was⟩) with leaves | halted
    · exact absurd leaves.run? changed
    · intro other task found ofRun stops
      have home : row'.id = id := Table.key_of_get? is
      have done := (halted.accounts row' is).over_ over_ other task found (ofRun.trans home.symm)
      have terminal : task.status.terminal = true := done.terminal
      rw [stops.1] at terminal
      cases terminal
  cases op with
  | markTaskSucceeded now task worker fence | markTaskFailed now task worker fence
  | retryTask now task worker fence | requeueQuotaWait now task worker fence
  | settleStoppedTask now task worker fence =>
      rcases writes.reported rfl with alone | rfl
      · exact absurd (congrArg (Table.get? · id) alone.1) changed
      · exact (unstopping_settleStoppedTask now before task worker fence).resolve_left changed
  | endStoppedRun now run =>
      obtain ⟨rfl, rfl⟩ := writes.single rfl
      exact (unstopping_finishStoppedRun now _ run).resolve_left changed
  | createRun | cancelRun | cancelOverdueRuns => exact absurd rfl asks
  | _ => simp [Op.runMoves] at finishes

end Operations

end Dagron.Store
