import Dagron.Store.Growth

/-! Every commit of every operation moves the store's rows along the life cycle: which moves an
operation makes, whatever state it starts in and wherever it is cut short.
-/

namespace Dagron.Store

open Dagron.Library Dagron.Spec

def Op.moves : Op → List Move
  | .createRun .. => [.cancel, .askStop]
  | .advanceReadyTasks .. => readinessMoves
  | .claimReady .. | .claimReadyGang .. => [.claim]
  | .renewTaskLease .. | .releaseStoppingTask .. => [.renew]
  | .recoverExpiredLeases .. => [.recover]
  | .markTaskSucceeded .. => [.succeed, .count, .ready, .settle]
  | .markTaskFailed .. => [.fail, .count, .settle]
  | .retryTask .. | .requeueQuotaWait .. => [.retry, .settle]
  | .cancelGangSiblings .. => [.askStop, .cancel]
  | .park .. => [.park, .release]
  | .reconcileSubworkflows .. => [.resolve true, .resolve false, .requeue, .count]
  | .reconcileWaits .. | .resolveUrlWait .. | .reconcileDatasetWaits .. | .resolveExternal .. =>
      [.resolve true, .count]
  | .failExternal .. => [.resolve false, .count]
  | .clearExternalHandle .. => [.clearHandle]
  | .resolveApproval _ _ _ approve .. => [.decide approve, .count]
  | .resolveExpiredApprovals .. => [.decide true, .decide false, .count]
  | .reconcileFanouts .. => fanoutMoves
  | .settleStoppedTask .. => [.settle]
  | .claimTeardowns .. => [.claimTeardown]
  | .cancelRun .. | .cancelOverdueRuns .. => [.cancel, .askStop]
  | .endStoppedRun .. => [.cancel, .askStop, .clearStop]
  | .retryTaskFromUi .. => [.retryFromUi]
  | .rerunFromFailed .. | .rerunAll .. | .clearTaskWithDownstream .. => [.reset, .recount]
  | .admitWaitingRuns .. => [.count]
  | _ => []

section Writes

variable {env : Env} {start before after : Db} {op : Op}

/-- An operation that started in a state of the store commits a change of it. -/
def Writes (env : Env) (start : Db) (op : Op) (before after : Db) : Prop :=
  ⟨op, before, after⟩ ∈ commitsFrom op start (op.writes env start)

theorem Writes.single {next : Db} (writes : Writes env start op before after)
    (one : op.writes env start = [next])
    : before = start ∧ after = next := by
  unfold Writes at writes
  rw [one] at writes
  cases mem_commitsFrom_singleton.mp writes
  exact ⟨rfl, rfl⟩

theorem Writes.item {Item : Type} {transaction : Item → Db → Db} {items : List Item}
    (writes : Writes env start op before after)
    (sweeps : op.writes env start = sweep transaction items start)
    : ∃ item ∈ items, after = transaction item before := by
  unfold Writes at writes
  rw [sweeps] at writes
  exact exists_item_of_mem_sweep writes

theorem Writes.kept {Item : Type} {transaction : Item → Db → Db} {items : List Item}
    (writes : Writes env start op before after) (Kept : Db → Prop)
    (sweeps : op.writes env start = sweep transaction items start)
    (keep : ∀ item ∈ items, ∀ db, Kept db → Kept (transaction item db)) (holds : Kept start)
    : Kept before ∧ ∃ item ∈ items, after = transaction item before := by
  unfold Writes at writes
  rw [sweeps] at writes
  exact kept_of_mem_sweep keep holds writes

theorem Writes.returns {Error : Type} {result : Except Error Db} (writes : Writes env start op before after)
    (one : op.writes env start = result.toOption.toList)
    : before = start ∧ result = .ok after := by
  cases result with
  | error problem =>
      unfold Writes at writes
      rw [one] at writes
      cases writes
  | ok next =>
      obtain ⟨rfl, rfl⟩ := writes.single one
      exact ⟨rfl, rfl⟩

/-- Whether an operation may add rows of tasks, or drop some. -/
def Op.grows : Op → Bool
  | .createRun .. | .reconcileFanouts .. | .rerunAll .. => true
  | _ => false

theorem Writes.moves (writes : Writes env start op before after) (grows : op.grows = false)
    : Moves op.moves before after := by
  cases op with
  | advanceReadyTasks now => exact (advanceStep_of_mem env now writes).moves
  | claimReady now worker limit classes caps excludeGangs =>
      obtain ⟨rfl, rfl⟩ := writes.single rfl
      exact moves_claimEach _ worker _ _ _
  | claimReadyGang now worker capacity classes caps =>
      obtain ⟨rfl, rfl⟩ := writes.single rfl
      exact moves_claimReadyGang env now _ worker capacity classes caps
  | recoverExpiredLeases now =>
      obtain ⟨rfl, rfl⟩ := writes.single rfl
      exact moves_recoverExpiredLeases now _
  | reclassReadyTasksNearDeadline | claimDueExternalCancels =>
      obtain ⟨rfl, rfl⟩ := writes.single rfl
      simp only [Db.reclassReadyTasksNearDeadline, Db.claimDueExternalCancels]
      exact .update_same (fun _ _ => rfl)
  | renewTaskLease now id worker fence extendSecs =>
      obtain ⟨rfl, rfl⟩ := writes.single rfl
      exact moves_renewTaskLease now _ id worker fence extendSecs
  | releaseStoppingTask now id worker fence retrySecs =>
      obtain ⟨rfl, rfl⟩ := writes.single rfl
      exact moves_releaseStoppingTask now _ id worker fence retrySecs
  | reclassReadyTasks | recordExternalCancelFailure | releaseExternalCancelClaim =>
      obtain ⟨rfl, rfl⟩ := writes.single rfl
      exact .update_same (fun _ _ => rfl)
  | reparkUrlWait | reparkExternal =>
      obtain ⟨rfl, rfl⟩ := writes.single rfl
      exact .updateRunning_same (fun _ => rfl)
  | markTaskSucceeded now id worker fence output cacheHit =>
      obtain ⟨rfl, rfl⟩ := writes.single rfl
      exact moves_markTaskSucceeded env now _ id worker fence output cacheHit
  | markTaskFailed now id worker fence error =>
      obtain ⟨rfl, rfl⟩ := writes.single rfl
      exact moves_markTaskFailed now _ id worker fence error
  | retryTask now id worker fence error retryAt =>
      obtain ⟨rfl, rfl⟩ := writes.single rfl
      exact moves_retryTask now _ id worker fence error retryAt
  | requeueQuotaWait now id worker fence detail maxWaitSecs jitterPermille =>
      obtain ⟨rfl, rfl⟩ := writes.single rfl
      exact moves_requeueQuotaWait now _ id worker fence detail maxWaitSecs jitterPermille
  | cancelGangSiblings now member =>
      obtain ⟨rfl, rfl⟩ := writes.single rfl
      exact moves_cancelGangSiblings env now _ member
  | park ticket parking =>
      obtain ⟨rfl, rfl⟩ := writes.single rfl
      exact moves_park _ ticket parking
  | reconcileSubworkflows now =>
      obtain ⟨parked, _, rfl⟩ := writes.item rfl
      exact moves_reconcileSubworkflow env now _ parked
  | reconcileWaits now =>
      obtain ⟨id, _, rfl⟩ := writes.item rfl
      exact moves_reconcileWait now _ id
  | claimDueUrlWaits now limit claimSecs | claimDueExternalPolls now limit claimSecs =>
      obtain ⟨seen, _, rfl⟩ := writes.item rfl
      exact .updateRunning_same (fun _ => rfl)
  | resolveUrlWait now id =>
      obtain ⟨rfl, rfl⟩ := writes.single rfl
      exact moves_resolveUrlWait now _ id
  | reconcileDatasetWaits now =>
      obtain ⟨id, _, rfl⟩ := writes.item rfl
      exact moves_reconcileDatasetWait now _ id
  | recordDatasetUpdates | recordExternalDatasetEvent | writePolicies | readOutcomes | abandonReap
  | readStrandedStoppedRuns =>
      obtain ⟨rfl, rfl⟩ := writes.single rfl
      exact .of_tasks_eq rfl
  | resolveExternal now id handle output =>
      obtain ⟨rfl, rfl⟩ := writes.single rfl
      exact moves_resolveExternal now _ id handle output
  | failExternal now id handle reason keepHandle =>
      obtain ⟨rfl, rfl⟩ := writes.single rfl
      exact moves_failExternal now _ id handle reason keepHandle
  | clearExternalHandle id handle =>
      obtain ⟨rfl, rfl⟩ := writes.single rfl
      exact moves_clearExternalHandle _ id handle
  | resolveApproval now run id approve decidedBy comment =>
      obtain ⟨rfl, rfl⟩ := writes.single rfl
      exact moves_resolveApproval now _ run id approve decidedBy comment
  | resolveExpiredApprovals now =>
      obtain ⟨task, _, rfl⟩ := writes.item rfl
      refine (moves_resolveExpiredApproval now _ task).mono ?_
      by_cases approves : task.approvalOnTimeout = some "approve" <;>
        simp [approves, Op.moves]
  | settleStoppedTask now id worker fence =>
      obtain ⟨rfl, rfl⟩ := writes.single rfl
      exact moves_settleStoppedTask now _ id worker fence (by simp [Op.moves])
  | claimTeardowns now worker limit classes held =>
      obtain ⟨rfl, rfl⟩ := writes.single rfl
      exact moves_claimTeardowns env now _ worker limit classes held (by simp [Op.moves])
  | cancelRun now run =>
      obtain ⟨rfl, rfl⟩ := writes.single rfl
      exact moves_cancelRun env now _ run (by simp [Op.moves]) (by simp [Op.moves])
  | cancelOverdueRuns now =>
      obtain ⟨rfl, rfl⟩ := writes.single rfl
      exact moves_cancelOverdueRuns env now _ (by simp [Op.moves]) (by simp [Op.moves])
  | endStoppedRun now run =>
      obtain ⟨rfl, rfl⟩ := writes.single rfl
      exact moves_endStoppedRun env now _ run (by simp [Op.moves]) (by simp [Op.moves])
        (by simp [Op.moves])
  | retryTaskFromUi now id who =>
      obtain ⟨rfl, done⟩ := writes.returns rfl
      exact moves_retryTaskFromUi now done
  | rerunFromFailed now run origin who =>
      obtain ⟨rfl, done⟩ := writes.returns rfl
      exact moves_rerunFromFailed now done
  | clearTaskWithDownstream now run id who =>
      obtain ⟨rfl, done⟩ := writes.returns rfl
      exact moves_clearTaskWithDownstream now done
  | reapRun now ended =>
      obtain ⟨rfl, rfl⟩ := writes.single rfl
      exact moves_reapRun now _ ended
  | admitWaitingRuns now =>
      obtain ⟨rfl, rfl⟩ := writes.single rfl
      exact moves_admitWaitingRuns now _
  | _ => cases grows

theorem Writes.evolves (writes : Writes env start op before after)
    : Evolves op.moves before after := by
  cases op with
  | createRun now submission =>
      obtain ⟨rfl, done⟩ := writes.returns rfl
      exact evolves_createRun env now done
  | reconcileFanouts now mint =>
      exact (fanoutStep_of_mem_reconcileFanouts env now writes).evolves
  | rerunAll now run who =>
      obtain ⟨rfl, done⟩ := writes.returns rfl
      exact evolves_rerunAll now done
  | _ => exact (writes.moves rfl).evolves

end Writes

-- Worlds

section Worlds

variable {env : Env} {op : Op} {world : World} {commit : Commit World Op}

/-- Whether an operation's commits change only the store, and what is gone from it. -/
def Op.plain : Op → Bool
  | .claimReady .. | .claimReadyGang .. | .park .. | .markTaskFailed .. | .cancelGangSiblings ..
  | .readOutcomes .. | .reapRun .. | .abandonReap .. | .readStrandedStoppedRuns
  | .endStoppedRun .. => false
  | _ => true

theorem Op.commits_plain (plain : op.plain = true)
    : op.commits env world = world.commitAll (op.writes env world.db) := by
  cases op <;> first | rfl | cases plain

theorem of_mem_commitAll {states : List Db}
    (member : commit ∈ commitsFrom op world (world.commitAll states))
    : ⟨op, commit.before.db, commit.after.db⟩ ∈ commitsFrom op world.db states
      ∧ commit.after = commit.before.commit commit.after.db := by
  induction states generalizing world with
  | nil => cases member
  | cons db rest ih =>
      rcases List.mem_cons.mp member with rfl | later
      · exact ⟨List.mem_cons_self, rfl⟩
      · obtain ⟨within, same⟩ := ih later
        exact ⟨List.mem_cons_of_mem _ within, same⟩

theorem commit_of_plain (plain : op.plain = true)
    (member : commit ∈ commitsFrom op world ((store env).commits op world))
    : Writes env world.db op commit.before.db commit.after.db
      ∧ commit.after = commit.before.commit commit.after.db := by
  have member : commit ∈ commitsFrom op world (op.commits env world) := member
  rw [Op.commits_plain plain] at member
  exact of_mem_commitAll member

theorem writes_of_mem (member : commit ∈ commitsFrom op world ((store env).commits op world))
    : Writes env world.db op commit.before.db commit.after.db := by
  by_cases plain : op.plain = true
  · exact (commit_of_plain plain member).1
  have one {next : World} (member : commit ∈ commitsFrom op world [next])
      (db : next.db ∈ op.writes env world.db) (single : (op.writes env world.db).length = 1)
      : Writes env world.db op commit.before.db commit.after.db := by
    obtain ⟨only, only_⟩ := List.length_eq_one_iff.mp single
    rw [only_, List.mem_singleton] at db
    rw [mem_commitsFrom_singleton.mp member, Writes, only_, ← db]
    exact List.mem_cons_self
  cases op with
  | claimReady | claimReadyGang | readOutcomes | readStrandedStoppedRuns => exact one member List.mem_cons_self rfl
  | park ticket parking =>
      by_cases open_ : ticket ∈ world.dispatched
      · simp only [store, Op.commits, open_, if_true] at member
        exact one member List.mem_cons_self rfl
      · simp only [store, Op.commits, open_, if_false] at member
        cases member
  | markTaskFailed now id worker fence error =>
      simp only [store, Op.commits] at member
      refine one member ?_ rfl
      split
      · exact List.mem_cons_self
      · exact List.mem_cons_self
  | cancelGangSiblings now failed =>
      by_cases owed : failed ∈ world.failures
      · simp only [store, Op.commits, owed, if_true] at member
        exact one member List.mem_cons_self rfl
      · simp only [store, Op.commits, owed, if_false] at member
        cases member
  | reapRun now ended | abandonReap ended =>
      by_cases read : ended ∈ world.outcomes
      · simp only [store, Op.commits, read, if_true] at member
        exact one member List.mem_cons_self rfl
      · simp only [store, Op.commits, read, if_false] at member
        cases member
  | endStoppedRun now run =>
      by_cases read : run ∈ world.stranded
      · simp only [store, Op.commits, read, if_true] at member
        exact one member List.mem_cons_self rfl
      · simp only [store, Op.commits, read, if_false] at member
        cases member
  | _ => exact absurd rfl plain

/-- What a commit leaves to be done: what was left before it, or what its operation wrote or
read; and what an operation goes by was left to be done.
-/
structure Leaves (op : Op) (before after : World) : Prop where
  failures
    : ∀ id ∈ after.failures, (id ∈ before.failures ∧ (after.db.task? id).isSome)
        ∨ ∃ now worker fence error, op = .markTaskFailed now id worker fence error
          ∧ (before.db.markTaskFailed now id worker fence error).2 = true
  outcomes
    : ∀ ended ∈ after.outcomes, ended ∈ before.outcomes
        ∨ ∃ runs, op = .readOutcomes runs ∧ ended ∈ before.db.readOutcomes runs
  stranded
    : ∀ run ∈ after.stranded, run ∈ before.stranded
        ∨ op = .readStrandedStoppedRuns ∧ run ∈ before.db.strandedStoppedRuns
  tells
    : ∀ now id, op = .cancelGangSiblings now id → id ∈ before.failures
  reaps
    : ∀ now ended, op = .reapRun now ended → ended ∈ before.outcomes
  stops
    : ∀ now run, op = .endStoppedRun now run → run ∈ before.stranded

theorem Leaves.committed {before left : World} {db : Db}
    (failures : ∀ id ∈ left.failures, id ∈ before.failures)
    (outcomes : ∀ ended ∈ left.outcomes, ended ∈ before.outcomes
      ∨ ∃ runs, op = .readOutcomes runs ∧ ended ∈ before.db.readOutcomes runs)
    (stranded : ∀ run ∈ left.stranded, run ∈ before.stranded
      ∨ op = .readStrandedStoppedRuns ∧ run ∈ before.db.strandedStoppedRuns)
    (tells : ∀ now id, op = .cancelGangSiblings now id → id ∈ before.failures)
    (reaps : ∀ now ended, op = .reapRun now ended → ended ∈ before.outcomes)
    (stops : ∀ now run, op = .endStoppedRun now run → run ∈ before.stranded)
    : Leaves op before (left.commit db) where
  failures id listed := by
    obtain ⟨listed, there⟩ := List.mem_filter.mp listed
    exact .inl ⟨failures id listed, there⟩
  outcomes := outcomes
  stranded := stranded
  tells := tells
  reaps := reaps
  stops := stops

theorem leaves_of_mem (member : commit ∈ commitsFrom op world ((store env).commits op world))
    : Leaves op commit.before commit.after := by
  cases op with
  | claimReady | claimReadyGang =>
      obtain rfl := mem_commitsFrom_singleton.mp member
      refine ⟨?_, fun _ => .inl, fun _ => .inl, nofun, nofun, nofun⟩
      intro id listed
      obtain ⟨listed, there⟩ := List.mem_filter.mp listed
      exact .inl ⟨listed, there⟩
  | park ticket parking =>
      simp only [store, Op.commits] at member
      split at member
      · obtain rfl := mem_commitsFrom_singleton.mp member
        exact .committed (fun _ listed => listed) (fun _ => .inl) (fun _ => .inl) nofun nofun nofun
      · cases member
  | markTaskFailed now id worker fence error =>
      simp only [store, Op.commits] at member
      have left : Leaves (.markTaskFailed now id worker fence error) world
          (world.commit (world.db.markTaskFailed now id worker fence error).1) :=
        .committed (fun _ listed => listed) (fun _ => .inl) (fun _ => .inl) nofun nofun nofun
      split at member <;> obtain rfl := mem_commitsFrom_singleton.mp member
      case isTrue counted =>
        refine ⟨?_, left.outcomes, left.stranded, nofun, nofun, nofun⟩
        intro other listed
        rcases List.mem_cons.mp listed with rfl | listed
        · exact .inr ⟨now, worker, fence, error, rfl, counted⟩
        · exact left.failures other listed
      case isFalse => exact left
  | cancelGangSiblings now failed =>
      simp only [store, Op.commits] at member
      split at member
      case isTrue told =>
        obtain rfl := mem_commitsFrom_singleton.mp member
        refine .committed (fun _ => List.mem_of_mem_erase) (fun _ => .inl) (fun _ => .inl) ?_ nofun
          nofun
        intro now_ id same
        cases same
        exact told
      case isFalse => cases member
  | readOutcomes runs =>
      obtain rfl := mem_commitsFrom_singleton.mp member
      refine .committed (fun _ listed => listed) ?_ (fun _ => .inl) nofun nofun nofun
      intro ended listed
      rcases List.mem_append.mp listed with read | left
      · exact .inr ⟨runs, rfl, read⟩
      · exact .inl left
  | reapRun now ended =>
      simp only [store, Op.commits] at member
      split at member
      case isTrue read =>
        obtain rfl := mem_commitsFrom_singleton.mp member
        refine .committed (fun _ listed => listed) (fun _ listed => .inl (List.mem_of_mem_erase listed))
          (fun _ => .inl) nofun ?_ nofun
        intro now_ ended_ same
        cases same
        exact read
      case isFalse => cases member
  | abandonReap ended =>
      simp only [store, Op.commits] at member
      split at member
      · obtain rfl := mem_commitsFrom_singleton.mp member
        exact .committed (fun _ listed => listed)
          (fun _ listed => .inl (List.mem_of_mem_erase listed)) (fun _ => .inl) nofun nofun nofun
      · cases member
  | readStrandedStoppedRuns =>
      obtain rfl := mem_commitsFrom_singleton.mp member
      refine .committed (fun _ listed => listed) (fun _ => .inl) ?_ nofun nofun nofun
      intro run listed
      rcases List.mem_append.mp listed with read | left
      · exact .inr ⟨rfl, read⟩
      · exact .inl left
  | endStoppedRun now run =>
      simp only [store, Op.commits] at member
      split at member
      case isTrue read =>
        obtain rfl := mem_commitsFrom_singleton.mp member
        refine .committed (fun _ listed => listed) (fun _ => .inl)
          (fun _ listed => .inl (List.mem_of_mem_erase listed)) nofun nofun ?_
        intro now_ run_ same
        cases same
        exact read
      case isFalse => cases member
  | _ =>
      obtain ⟨_, after⟩ := commit_of_plain rfl member
      rw [after]
      exact .committed (fun _ listed => listed) (fun _ => .inl) (fun _ => .inl) nofun nofun nofun

end Worlds

end Dagron.Store
