import Dagron.Store.Commits

/-! What becomes of the runs: every operation but the making of a run moves those that are
there along their life cycle, and the outbox tells of each end in the transaction that makes
it.
-/

namespace Dagron.Store

open Dagron.Library Dagron.Spec

-- Statements

section Statements

variable {moves : List RunMove} (env : Env) (now : Time) (db : Db)

theorem runMoves_finishStoppedRun (run : Nat) (finishes : .finish ∈ moves)
    : RunMoves moves db (db.finishStoppedRun now run) := by
  unfold Db.finishStoppedRun
  split
  · exact .refl db
  case h_2 status asked =>
    split
    case isFalse => exact .refl db
    case isTrue =>
      obtain ⟨row, found, asked⟩ := Option.bind_eq_some_iff.mp asked
      have running : row.status = .running := by
        by_contra other
        simp [other] at asked
      rw [if_pos running] at asked
      have home : row.id = run := Table.key_of_get? found
      refine .ended (fun _ here => here) ⟨row, found, home⟩ ?_
      intro other told there
      rw [found] at there
      cases there
      exact (RunLife.Step.finish status running asked).steps finishes

theorem runMoves_halted {db halted : Db} (runs : halted.runs = db.runs)
    (outbox : halted.outbox = db.outbox) (run : Nat) (finishes : .finish ∈ moves)
    : RunMoves moves db (halted.finishStoppedRun now run) :=
  .trans (.of_eq runs (fun id => by rw [Db.told, Db.told, outbox]))
    (runMoves_finishStoppedRun now halted run finishes)

theorem runMoves_settleStoppedTask (id : Nat) (worker : String) (fence : Nat) (finishes : .finish ∈ moves)
    : RunMoves moves db (db.settleStoppedTask now id worker fence) := by
  unfold Db.settleStoppedTask Db.settleStopping
  split
  · exact .refl db
  · exact runMoves_halted now (by rfl) (by rfl) _ finishes

theorem runMoves_stopRun (run : Nat) (finishes : .finish ∈ moves)
    : RunMoves moves db ((db.stopRunTasks env now run).finishStoppedRun now run) :=
  runMoves_halted now (by rfl) (by rfl) run finishes

theorem runMoves_cancelRun (run : Nat)
    : RunMoves [.ask .cancelled, .finish] db (db.cancelRun env now run) := by
  simp only [Db.cancelRun]
  split
  · exact .refl db
  · refine .trans (.update ?_) (runMoves_stopRun env now _ run (by decide))
    intro row told met
    exact (RunLife.Step.ask .cancelled met.2).steps List.mem_cons_self

theorem runMoves_supersedeRun (newer run : Nat)
    : RunMoves [.ask .cancelled, .finish] db (db.supersedeRun env now newer run) := by
  simp only [Db.supersedeRun]
  split
  · exact .refl db
  · refine .trans (.update ?_) (runMoves_stopRun env now _ run (by decide))
    intro row told met
    have step := @RunLife.Step.ask (row.life told) .cancelled met.2.1
    rw [show (row.life told).stoppingAs = none from Option.isNone_iff_eq_none.mp met.2.2] at step
    exact step.steps List.mem_cons_self

theorem runMoves_supersedeRuns (name : String) (key : Option String) (newer : Nat) (own : Option RunTrigger)
    : RunMoves [.ask .cancelled, .finish] db (db.supersedeRuns env now name key newer own) :=
  .foldl (fun db run => runMoves_supersedeRun env now db newer run) db

theorem runMoves_weigh (spec : DagSpec) (trigger : Option RunTrigger) (run : Nat)
    : RunMoves [.ask .cancelled, .finish] db (weigh env now spec trigger run db).1 := by
  simp only [weigh]
  split
  · exact .refl db
  · dsimp only
    split
    · exact runMoves_supersedeRuns env now db _ _ _ _
    · exact .refl db

theorem runMoves_cancelOverdueRuns
    : RunMoves [.ask .failed, .finish] db (db.cancelOverdueRuns env now) := by
  simp only [Db.cancelOverdueRuns]
  refine .trans (.update ?_) (.foldl (fun db run => runMoves_stopRun env now db run (by decide)) _)
  intro row told met
  have step := @RunLife.Step.ask (row.life told) .failed met.1
  rw [show (row.life told).stoppingAs = none from Option.isNone_iff_eq_none.mp met.2.1] at step
  exact step.steps List.mem_cons_self

theorem runMoves_endStoppedRun (run : Nat)
    : RunMoves [.finish] db (db.endStoppedRun env now run) :=
  runMoves_halted now (by rfl) (by rfl) run (by decide)

theorem Rearmed.runMoves {before after : Db} {ended : RunStatus → Bool} {run : Nat}
    (rearmed : Rearmed ended run before after)
    : RunMoves [.rearm] before after := by
  intro id
  unfold Db.runLife
  rw [rearmed.told]
  rcases rearmed.run? id with same | ⟨row, row', was, is, _, _, _, _, _, step⟩
  · rw [same]
    cases before.run? id with
    | none => exact .none
    | some row => exact .some .refl
  · rw [was, is]
    exact .some ((step _).steps List.mem_cons_self)

theorem runMoves_reapRun (ended : Nat × RunStatus)
    : RunMoves [.reap ended.2] db (db.reapRun now ended) := by
  simp only [Db.reapRun]
  split
  · exact .refl db
  case isFalse some_ =>
    obtain ⟨row, member, met⟩ := List.countP_pos_iff.mp (Nat.pos_of_ne_zero some_)
    obtain ⟨home, running⟩ := of_decide_eq_true met
    have found : db.run? ended.1 = some row := home ▸ Table.get?_of_mem member
    refine .ended (fun _ here => here.1) ⟨row, found, home, running⟩ ?_
    intro other told there
    rw [found] at there
    cases there
    exact (RunLife.Step.reap ended.2 running).steps List.mem_cons_self

theorem runMoves_letIn (waiting : RunRow)
    : RunMoves [.letIn] db (db.letIn now waiting) := by
  simp only [Db.letIn]
  split
  · exact .refl db
  · refine .trans (.update ?_) (.of_eq Db.runs_updateTasks (fun _ => rfl))
    intro row told met
    obtain ⟨_, running, unasked, queued, unadmitted⟩ := met
    refine RunLife.Step.steps (.letIn running queued ?_ (Option.isNone_iff_eq_none.mp unasked))
      List.mem_cons_self
    simpa [RunRow.life] using unadmitted

theorem runMoves_letInEach (waiting : List RunRow) (running : Nat)
    : RunMoves [.letIn] db (db.letInEach now waiting running) :=
  Db.letInEach_rule (fun each row moves => moves.trans (runMoves_letIn now each row)) _ _ (.refl db)

theorem runMoves_admitWaitingRuns
    : RunMoves [.letIn] db (db.admitWaitingRuns now) :=
  Db.admitWaitingRuns_rule (fun each row moves => moves.trans (runMoves_letIn now each row)) (.refl db)

end Statements

-- Operations that write tasks alone

/-- A transaction leaves the rows of runs and dependencies as they are, and the outbox. -/
def TasksAlone (before after : Db) : Prop :=
  after.runs = before.runs ∧ after.deps = before.deps ∧ after.outbox = before.outbox

namespace TasksAlone

variable {first second third : Db}

theorem trans (before : TasksAlone first second) (after : TasksAlone second third)
    : TasksAlone first third :=
  ⟨after.1.trans before.1, after.2.1.trans before.2.1, after.2.2.trans before.2.2⟩

theorem endTask {db db' : Db} {id : Nat} {guard : TaskRow → Prop} [DecidablePred guard]
    {set : TaskRow → TaskRow} {keeps : ∀ row, (set row).toTaskColumns = row.toTaskColumns}
    (done : db.endTask id guard set keeps = some db')
    : TasksAlone db db' := by
  unfold Db.endTask at done
  split at done
  · cases done
  · cases done
    exact ⟨rfl, rfl, rfl⟩

theorem endTask_getD {db : Db} {id : Nat} {guard : TaskRow → Prop} [DecidablePred guard]
    {set : TaskRow → TaskRow} {keeps : ∀ row, (set row).toTaskColumns = row.toTaskColumns}
    : TasksAlone db ((db.endTask id guard set keeps).getD db) := by
  cases done : db.endTask id guard set keeps with
  | none => exact ⟨rfl, rfl, rfl⟩
  | some db' => exact TasksAlone.endTask done

theorem foldl {Item : Type} {statement : Db → Item → Db} {items : List Item}
    (each : ∀ db item, TasksAlone db (statement db item)) (db : Db)
    : TasksAlone db (items.foldl statement db) :=
  List.foldlRecOn _ _ ⟨rfl, rfl, rfl⟩ fun db alone item _ => alone.trans (each db item)

end TasksAlone

theorem AdvanceStep.tasksAlone {env : Env} {now : Time} {before after : Db}
    (step : AdvanceStep env now before after)
    : TasksAlone before after := by
  cases step with
  | ready => exact ⟨rfl, rfl, rfl⟩
  | skip =>
      simp only [Db.skipDefault]
      refine .trans ?_ (.foldl (fun db ended => ?_) _)
      · exact ⟨rfl, rfl, rfl⟩
      · exact ⟨rfl, rfl, rfl⟩
  | candidate candidate read =>
      unfold Db.advanceCandidate
      split
      · exact .endTask_getD
      · exact .endTask_getD
      · split
        · exact ⟨rfl, rfl, rfl⟩
        · split <;> exact ⟨rfl, rfl, rfl⟩

theorem tasksAlone_claimEach (worker : String) (lease : Time) (candidates : List TaskRow)
    (budget : PoolBudget) (db : Db)
    : TasksAlone db (db.claimEach worker lease candidates budget).1 := by
  induction candidates generalizing budget db with
  | nil => exact ⟨rfl, rfl, rfl⟩
  | cons candidate rest ih =>
      unfold Db.claimEach
      split
      · exact ih budget db
      split
      · exact ih budget db
      · exact .trans ⟨rfl, rfl, rfl⟩ (ih _ (db.claimTask worker lease candidate))

/-- Whether an operation writes task rows alone, whatever it finds. -/
def Op.tasksAlone : Op → Bool
  | .createRun .. | .markTaskSucceeded .. | .markTaskFailed .. | .retryTask ..
  | .requeueQuotaWait .. | .reconcileFanouts .. | .settleStoppedTask .. | .cancelRun ..
  | .cancelOverdueRuns .. | .endStoppedRun .. | .retryTaskFromUi .. | .rerunFromFailed ..
  | .rerunAll .. | .clearTaskWithDownstream .. | .reapRun .. | .admitWaitingRuns .. => false
  | _ => true

section Writes

variable {env : Env} {op : Op} {start before after : Db}

theorem Writes.tasksAlone (writes : Writes env start op before after) (alone : op.tasksAlone = true)
    : TasksAlone before after := by
  cases op with
  | advanceReadyTasks now => exact (advanceStep_of_mem env now writes).tasksAlone
  | claimReady now worker limit classes caps excludeGangs =>
      obtain ⟨rfl, rfl⟩ := writes.single rfl
      exact tasksAlone_claimEach worker _ _ _ _
  | claimReadyGang now worker capacity classes caps =>
      obtain ⟨rfl, rfl⟩ := writes.single rfl
      unfold Db.claimReadyGang
      split
      · exact ⟨rfl, rfl, rfl⟩
      · split <;> exact ⟨rfl, rfl, rfl⟩
  | park ticket parking =>
      obtain ⟨rfl, rfl⟩ := writes.single rfl
      cases parking <;> exact ⟨rfl, rfl, rfl⟩
  | reconcileSubworkflows now =>
      obtain ⟨parked, _, rfl⟩ := writes.item rfl
      simp only [Db.reconcileSubworkflow]
      split
      · exact .endTask_getD
      · split
        · exact .endTask_getD
        · exact ⟨rfl, rfl, rfl⟩
        · exact .endTask_getD
  | reconcileWaits | reconcileDatasetWaits =>
      obtain ⟨_, _, rfl⟩ := writes.item rfl
      exact .endTask_getD
  | claimDueUrlWaits | claimDueExternalPolls =>
      obtain ⟨_, _, rfl⟩ := writes.item rfl
      exact ⟨rfl, rfl, rfl⟩
  | resolveUrlWait | resolveExternal | failExternal | resolveApproval =>
      obtain ⟨rfl, rfl⟩ := writes.single rfl
      exact .endTask_getD
  | resolveExpiredApprovals now =>
      obtain ⟨task, _, rfl⟩ := writes.item rfl
      unfold Db.resolveExpiredApproval
      split
      · exact ⟨rfl, rfl, rfl⟩
      · exact .endTask_getD
  | claimTeardowns now worker limit classes held =>
      obtain ⟨rfl, rfl⟩ := writes.single rfl
      simp only [Db.claimTeardowns]
      refine .foldl (fun db task => ?_) _
      exact ⟨rfl, rfl, rfl⟩
  | recoverExpiredLeases | renewTaskLease | reclassReadyTasks | reclassReadyTasksNearDeadline
  | cancelGangSiblings | reparkUrlWait | recordDatasetUpdates | recordExternalDatasetEvent
  | reparkExternal | claimDueExternalCancels | clearExternalHandle | recordExternalCancelFailure
  | releaseExternalCancelClaim | releaseStoppingTask | writePolicies | readOutcomes | abandonReap
  | readStrandedStoppedRuns =>
      obtain ⟨rfl, rfl⟩ := writes.single rfl
      exact ⟨rfl, rfl, rfl⟩
  | _ => cases alone

theorem TasksAlone.runMoves {moves : List RunMove} (alone : TasksAlone before after)
    : RunMoves moves before after :=
  .of_eq alone.1 (fun id => by rw [Db.told, Db.told, alone.2.2])

/-- The moves that an operation makes of the runs that are there. -/
def Op.runMoves : Op → List RunMove
  | .createRun .. | .cancelRun .. => [.ask .cancelled, .finish]
  | .cancelOverdueRuns .. => [.ask .failed, .finish]
  | .markTaskSucceeded .. | .markTaskFailed .. | .retryTask .. | .requeueQuotaWait ..
  | .settleStoppedTask .. | .endStoppedRun .. => [.finish]
  | .reapRun _ ended => [.reap ended.2]
  | .retryTaskFromUi .. | .rerunFromFailed .. | .rerunAll .. | .clearTaskWithDownstream .. =>
      [.rearm]
  | .admitWaitingRuns .. => [.letIn]
  | _ => []

/-- The claim under which an operation is a worker's report of a task, and when. -/
def Op.report : Op → Option (Time × Nat × String × Nat)
  | .markTaskSucceeded now id worker fence .. | .markTaskFailed now id worker fence _
  | .retryTask now id worker fence .. | .requeueQuotaWait now id worker fence ..
  | .settleStoppedTask now id worker fence => some (now, id, worker, fence)
  | _ => none

/-- A worker's report writes task rows alone, or is the word that a stopped task has stopped. -/
theorem Writes.reported (writes : Writes env start op before after)
    {now : Time} {id : Nat} {worker : String} {fence : Nat}
    (reports : op.report = some (now, id, worker, fence))
    : TasksAlone before after ∨ after = before.settleStoppedTask now id worker fence := by
  cases op with
  | markTaskSucceeded =>
      cases reports
      obtain ⟨rfl, rfl⟩ := writes.single rfl
      unfold Db.markTaskSucceeded
      split
      · case h_1 ended done => exact .inl ((TasksAlone.endTask done).trans ⟨rfl, rfl, rfl⟩)
      · exact .inr rfl
  | markTaskFailed =>
      cases reports
      obtain ⟨rfl, rfl⟩ := writes.single rfl
      unfold Db.markTaskFailed
      split
      · case h_1 ended done => exact .inl (TasksAlone.endTask done)
      · exact .inr rfl
  | retryTask =>
      cases reports
      obtain ⟨rfl, rfl⟩ := writes.single rfl
      unfold Db.retryTask
      split
      · exact .inr rfl
      · exact .inl ⟨rfl, rfl, rfl⟩
  | requeueQuotaWait =>
      cases reports
      obtain ⟨rfl, rfl⟩ := writes.single rfl
      simp only [Db.requeueQuotaWait]
      split
      · exact .inr rfl
      · split <;> exact .inl ⟨rfl, rfl, rfl⟩
  | settleStoppedTask =>
      cases reports
      obtain ⟨rfl, rfl⟩ := writes.single rfl
      exact .inr rfl
  | _ => cases reports

theorem FanoutStep.runs {now : Time} (step : FanoutStep env now before after)
    : after.runs = before.runs ∧ after.outbox = before.outbox := by
  cases step with
  | unlink => exact ⟨rfl, rfl⟩
  | clear barrier read done =>
      obtain ⟨rfl, _⟩ := deleteTasks_eq_some done
      exact ⟨rfl, rfl⟩
  | resolve barrier read mint done =>
      rcases resolveFanout_commit env now done with
        ⟨_, _, succeeded, output, _, rfl⟩ | ⟨succeeded, output, _, rfl⟩ | ⟨instances, _, done⟩
      · have alone := @TasksAlone.endTask_getD before
        exact ⟨alone.1, alone.2.2⟩
      · have alone := @TasksAlone.endTask_getD before
        exact ⟨alone.1, alone.2.2⟩
      · obtain ⟨stamped, _, _, _, _, _, _, _, _, sameRuns, sameOutbox⟩ :=
          expandFanout_commit now done
        exact ⟨sameRuns, sameOutbox⟩

theorem Writes.runMoves_of_kept (writes : Writes env start op before after)
    (makes : ∀ now submission, op ≠ .createRun now submission)
    : RunMoves op.runMoves before after := by
  by_cases alone : op.tasksAlone = true
  · exact (writes.tasksAlone alone).runMoves
  cases op with
  | createRun now submission => exact absurd rfl (makes now submission)
  | markTaskSucceeded now id worker fence | markTaskFailed now id worker fence
  | retryTask now id worker fence | requeueQuotaWait now id worker fence
  | settleStoppedTask now id worker fence =>
      rcases writes.reported rfl with alone | rfl
      · exact alone.runMoves
      · exact runMoves_settleStoppedTask now before id worker fence List.mem_cons_self
  | reconcileFanouts now mint =>
      obtain ⟨runs, outbox⟩ :=
        (fanoutStep_of_mem_reconcileFanouts env now writes).runs
      exact .of_eq runs (fun id => by rw [Db.told, Db.told, outbox])
  | cancelRun now run =>
      obtain ⟨rfl, rfl⟩ := writes.single rfl
      exact runMoves_cancelRun env now before run
  | cancelOverdueRuns now =>
      obtain ⟨rfl, rfl⟩ := writes.single rfl
      exact runMoves_cancelOverdueRuns env now before
  | endStoppedRun now run =>
      obtain ⟨rfl, rfl⟩ := writes.single rfl
      exact runMoves_endStoppedRun env now before run
  | retryTaskFromUi now id who =>
      obtain ⟨rfl, done⟩ := writes.returns rfl
      rcases retryTaskFromUi_ok now done with rfl | ⟨_, retried, _, _, rfl, rearmed⟩
      · exact .refl _
      · exact .trans (.of_eq Db.runs_updateTasks (fun _ => rfl)) rearmed.runMoves
  | rerunFromFailed now run origin who =>
      obtain ⟨rfl, done⟩ := writes.returns rfl
      rcases rerunFromFailed_ok now done with rfl | ⟨armed, rearmed, _, _, runs, _, told⟩
      · exact .refl _
      · exact .trans rearmed.runMoves (.of_eq runs told)
  | rerunAll now run who =>
      obtain ⟨rfl, done⟩ := writes.returns rfl
      rcases rerunAll_ok now done with rfl | ⟨armed, rearmed, _, _, runs, _, told⟩
      · exact .refl _
      · exact .trans rearmed.runMoves (.of_eq runs told)
  | clearTaskWithDownstream now run id who =>
      obtain ⟨rfl, done⟩ := writes.returns rfl
      rcases clearTaskWithDownstream_ok now done with rfl | ⟨_, _, rfl, rearmed⟩
      · exact .refl _
      · exact .trans (.of_eq rfl (fun _ => rfl)) rearmed.runMoves
  | reapRun now ended =>
      obtain ⟨rfl, rfl⟩ := writes.single rfl
      exact runMoves_reapRun now before ended
  | admitWaitingRuns now =>
      obtain ⟨rfl, rfl⟩ := writes.single rfl
      exact runMoves_admitWaitingRuns now before
  | _ => exact absurd rfl alone

theorem Writes.runMoves (writes : Writes env start op before after) {id : Nat} {row : RunRow}
    (was : before.run? id = some row)
    : ∃ row', after.run? id = some row'
        ∧ RunLife.Steps op.runMoves (row.life (before.told id)) (row'.life (after.told id)) := by
  by_cases makes : ∃ now submission, op = .createRun now submission
  · obtain ⟨now, submission, rfl⟩ := makes
    obtain ⟨rfl, done⟩ := writes.returns rfl
    obtain ⟨dag, _, made, _, rfl, _, inserted⟩ := createRun_ok env now done
    obtain ⟨row', found, steps⟩ := (runMoves_weigh env now before _ _ _).of_some was
    obtain ⟨_, _, runs, _, _, outbox⟩ := insertRun_eq_some inserted
    obtain ⟨vacant, read⟩ := Table.get?_insert runs
    refine ⟨row', (read id).trans ?_, ?_⟩
    · rw [if_neg]
      · exact found
      · intro here
        rw [here] at found
        cases found.symm.trans vacant
    · rw [show after.told id = _ from congrArg (List.filterMap _) outbox]
      exact steps
  · exact (writes.runMoves_of_kept (fun now submission same =>
      makes ⟨now, submission, same⟩)).of_some was

theorem Writes.run_kept (writes : Writes env start op before after) {id : Nat} {row : RunRow}
    (was : before.run? id = some row)
    : ∃ row', after.run? id = some row' ∧ row'.toRunColumns = row.toRunColumns
        ∧ (row'.waiting = true → row.waiting = true) := by
  obtain ⟨row', is, steps⟩ := writes.runMoves was
  obtain ⟨columns, waits⟩ := steps.columns
  refine ⟨row', is, columns, ?_⟩
  rwa [RunRow.waiting_life, RunRow.waiting_life] at waits

end Writes

end Dagron.Store
