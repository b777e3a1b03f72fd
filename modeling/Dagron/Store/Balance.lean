import Dagron.Store.Insert

/-! What every operation does to the counters of pending tasks: which of the tasks it ends or
re-opens it does not count to their dependents, and that it keeps slack where nothing pending
depends on those.
-/

namespace Dagron.Store

open Dagron.Library Dagron.Spec

-- Tasks that are not counted

/-- The tasks an operation re-opens, or ends a second time, without counting them to their
dependents: those a person retries, and those that had ended when a worker's report came.
-/
def Op.reopens (task : TaskRow) : Op → Prop
  | .retryTaskFromUi _ id _ => task.id = id ∧ (task.status = .failed ∨ task.status = .cancelled)
  | .markTaskSucceeded _ id worker fence .. | .markTaskFailed _ id worker fence _
  | .retryTask _ id worker fence .. =>
      task.id = id ∧ task.heldBy worker fence ∧ task.status.terminal = true
  | _ => False

/-- The tasks an operation ends without counting them off: the siblings of a gang's failed
member that nothing runs for, and a task asked to stop whose worker has stopped.
-/
def Op.drops (db : Db) (task : TaskRow) : Op → Prop
  | .cancelGangSiblings _ member => db.cancelledSibling member task
  | .settleStoppedTask _ id worker fence | .markTaskSucceeded _ id worker fence ..
  | .markTaskFailed _ id worker fence _ | .retryTask _ id worker fence ..
  | .requeueQuotaWait _ id worker fence .. => task.id = id ∧ task.stoppingFor worker fence
  | _ => False

instance (db : Db) (member : Nat) (task : TaskRow)
    : Decidable (db.cancelledSibling member task) := by
  unfold Db.cancelledSibling
  infer_instance

instance (worker : String) (fence : Nat) (task : TaskRow)
    : Decidable (task.stoppingFor worker fence) := by
  unfold TaskRow.stoppingFor
  infer_instance

instance (op : Op) (task : TaskRow) : Decidable (op.reopens task) := by
  induction op using Op.casesOn <;> dsimp only [Op.reopens] <;> infer_instance

instance (db : Db) (op : Op) (task : TaskRow) : Decidable (op.drops db task) := by
  induction op using Op.casesOn <;> dsimp only [Op.drops] <;> infer_instance

/-- Whether no pending task depends on one that an operation re-opens uncounted. -/
def Op.keepsOpen (db : Db) (op : Op) : Prop :=
  ∀ task ∈ db.tasks.rows, op.reopens task → ¬ db.awaited task.id

/-- Whether no pending task depends on one that an operation ends or re-opens uncounted. -/
def Op.countsAll (db : Db) (op : Op) : Prop :=
  ∀ task ∈ db.tasks.rows, op.reopens task ∨ op.drops db task → ¬ db.awaited task.id

instance (db : Db) (op : Op) : Decidable (op.countsAll db) := by
  unfold Op.countsAll
  infer_instance

theorem Op.countsAll.keepsOpen {db : Db} {op : Op} (counts : op.countsAll db)
    : op.keepsOpen db :=
  fun task member reopens => counts task member (.inl reopens)

-- Reports

section Reports

variable {Rel : Board Nat → Board Nat → Prop} {now : Time} {db : Db} {id : Nat}
  {worker : String} {fence : Nat}

/-- Ending a task that a worker holds keeps slack where it was not over, or nothing pending
depends on it.
-/
theorem carries_endHeld {db' : Db} {moves : List Move} {set : TaskRow → TaskRow}
    {keeps : ∀ row, (set row).toTaskColumns = row.toTaskColumns}
    (done : db.endTask id (TaskRow.heldBy worker fence) set keeps = some db')
    (steps : Moves moves db db')
    (ends : ∀ task, (set task).status.terminal = true)
    (over_ : ∀ task, db.task? id = some task → task.heldBy worker fence →
      task.status.terminal = true → ¬ db.awaited id)
    : Carries Board.Keeps db db' := by
  have done' := done
  unfold Db.endTask at done'
  split at done'
  · cases done'
  case isFalse some_ =>
    cases done'
    obtain ⟨task, member, met⟩ := List.countP_pos_iff.mp (Nat.pos_of_ne_zero some_)
    obtain ⟨here, held⟩ := of_decide_eq_true met
    have found : db.task? id = some task := here ▸ Db.task?_of_mem member
    by_cases ended : task.status.terminal = true
    · have unawaited := over_ task found held ended
      have read (other : Nat) : (db.updateTasks (fun task => task.id = id
            ∧ task.heldBy worker fence) set keeps).task? other
          = (db.task? other).map (fun task => if task.id = id ∧ task.heldBy worker fence then
              set task else task) :=
        Db.task?_updateTasks other
      refine carries_rewritten steps rfl rfl ?_ ?_ ?_ (.inr unawaited)
      · intro other apart
        rw [task?_releaseDependents, task?_updateTask (fun _ met => met.1) apart]
        cases was : db.task? other with
        | none => rfl
        | some row =>
            have same : row.id = other := Db.id_of_task? was
            rw [Option.map_some, if_neg]
            intro waits
            exact unawaited (Db.awaited_of_pending was waits.1 (same ▸ waits.2))
      · intro row was waits
        rw [found] at was
        cases was
        rw [waits.1] at ended
        cases ended
      · intro row is pending
        rw [task?_releaseDependents, read, found, Option.map_some, if_pos ⟨here, held⟩,
          Option.map_some] at is
        have ends := ends task
        cases is
        split at pending <;> rw [show (set task).status = .pending from pending] at ends <;>
          cases ends
    · refine carries_endTask done steps ?_ ends ?_
      · intro row was _
        rw [found] at was
        cases was
        simpa using ended
      · intro row was held waits
        have claimed := held.1
        rw [waits.2.1] at claimed
        cases claimed

theorem carries_markTaskSucceeded (env : Env) {output : Option String} {cacheHit : Bool}
    (lift : ∀ {db'}, Carries Board.Keeps db db' → Carries Rel db db')
    (settles : Carries Rel db (db.settleStoppedTask now id worker fence))
    (over_ : ∀ task, db.task? id = some task → task.heldBy worker fence →
      task.status.terminal = true → ¬ db.awaited id)
    : Carries Rel db (db.markTaskSucceeded env now id worker fence output cacheHit).1 := by
  unfold Db.markTaskSucceeded
  split
  case h_1 ended done =>
    have steps : Moves [.succeed, .count] db ended := by
      refine .endTask .succeed (by decide) (by decide) ?_ done
      intro task _ held
      exact .succeed held.held.1 held.held.2
    refine lift (.trans (carries_endHeld done steps (fun _ => rfl) over_) ?_)
    exact carries_quiet (moves_promoteDependents env now ended id) (by decide) rfl rfl
  case h_2 => exact settles

theorem carries_markTaskFailed {error : Option String}
    (lift : ∀ {db'}, Carries Board.Keeps db db' → Carries Rel db db')
    (settles : Carries Rel db (db.settleStoppedTask now id worker fence))
    (over_ : ∀ task, db.task? id = some task → task.heldBy worker fence →
      task.status.terminal = true → ¬ db.awaited id)
    : Carries Rel db (db.markTaskFailed now id worker fence error).1 := by
  unfold Db.markTaskFailed
  split
  case h_1 ended done =>
    have steps : Moves [.fail, .count] db ended := by
      refine .endTask .fail (by decide) (by decide) ?_ done
      intro task _ held
      exact .fail held.held.1 held.held.2
    exact lift (carries_endHeld done steps (fun _ => rfl) over_)
  case h_2 => exact settles

theorem carries_retryTask {error : Option String} {retryAt : Time}
    (lift : ∀ {db'}, Carries Board.Keeps db db' → Carries Rel db db')
    (settles : Carries Rel db (db.settleStoppedTask now id worker fence))
    (over_ : ∀ task, db.task? id = some task → task.heldBy worker fence →
      task.status.terminal = true → ¬ db.awaited id)
    : Carries Rel db (db.retryTask now id worker fence error retryAt).1 := by
  have steps := moves_retryTask now db id worker fence error retryAt
  unfold Db.retryTask at steps ⊢
  split at steps
  case isTrue none_ =>
    rw [if_pos none_]
    exact settles
  case isFalse some_ =>
    rw [if_neg some_]
    obtain ⟨task, member, met⟩ := List.countP_pos_iff.mp (Nat.pos_of_ne_zero some_)
    obtain ⟨here, held⟩ := of_decide_eq_true met
    have found : db.task? id = some task := here ▸ Db.task?_of_mem member
    dsimp only at steps ⊢
    refine lift (carries_rewritten steps rfl rfl
      (fun other apart => task?_updateTask (fun _ met => met.1) apart) ?_ ?_ ?_)
    · intro row was waits
      rw [found] at was
      cases was
      have claimed := held.1
      rw [waits.2] at claimed
      cases claimed
    · intro row is
      rw [Db.task?_updated found, if_pos ⟨here, held⟩] at is
      cases is
      rintro ⟨⟩
    · by_cases ended : task.status.terminal = true
      · exact .inr (over_ task found held ended)
      · left
        intro row row' was is
        rw [Db.task?_updated found, if_pos ⟨here, held⟩] at is
        rw [found] at was
        cases was
        cases is
        exact (by simpa using ended : task.status.terminal = false).symm

theorem carries_requeueQuotaWait {detail : String} {maxWaitSecs : Nat} {jitterPermille : Int}
    (lift : ∀ {db'}, Carries Board.Keeps db db' → Carries Rel db db')
    (settles : Carries Rel db (db.settleStoppedTask now id worker fence))
    : Carries Rel db
      (db.requeueQuotaWait now id worker fence detail maxWaitSecs jitterPermille).1 := by
  have steps := moves_requeueQuotaWait now db id worker fence detail maxWaitSecs jitterPermille
  simp only [Db.requeueQuotaWait] at steps ⊢
  split
  case h_1 => exact settles
  case h_2 task read =>
    obtain ⟨found, met⟩ := Option.filter_eq_some_iff.mp read
    obtain ⟨held, running⟩ := of_decide_eq_true met
    have here := Db.id_of_task? found
    split
    case h_1 => exact lift (.refl db)
    case h_2 since waits retryAt decided =>
      rw [read] at steps
      simp only [decided] at steps
      dsimp only
      refine lift (@carries_rewritten _ db _ id steps rfl rfl ?_ ?_ ?_ (.inl ?_))
      · intro other apart
        exact task?_updateTask (fun _ met => met.1) apart
      · intro row was waits
        rw [found] at was
        cases was
        rw [running] at waits
        cases waits.1
      · intro row is
        rw [Db.task?_updated found, if_pos ⟨here, held, running⟩] at is
        cases is
        rintro ⟨⟩
      · intro row row' was is
        rw [Db.task?_updated found, if_pos ⟨here, held, running⟩] at is
        rw [found] at was
        cases was
        cases is
        rw [running]
        rfl

end Reports

-- Every operation

theorem carries_endRunning {db : Db} {id : Nat} {moves : List Move} {guard : TaskRow → Prop}
    [DecidablePred guard] {set : TaskRow → TaskRow}
    {keeps : ∀ row, (set row).toTaskColumns = row.toTaskColumns}
    (steps : Moves moves db (db.endRunning id guard set keeps))
    (ends : ∀ task, (set task).status.terminal = true)
    : Carries Board.Keeps db (db.endRunning id guard set keeps) := by
  refine carries_endTask_getD steps ?_ ends ?_
  · intro task _ met
    rw [met.1]
    rfl
  · intro task _ met waits
    rw [met.1] at waits
    cases waits.1

theorem carries_resolveApproval {now : Time} {run id : Nat} {approve : Bool}
    {decidedBy comment : Option String} (db : Db)
    : Carries Board.Keeps db (db.resolveApproval now run id approve decidedBy comment) := by
  refine carries_endTask_getD (moves_resolveApproval now db run id approve decidedBy comment) ?_ ?_ ?_
  · intro task _ met
    rw [met.2]
    rfl
  · intro task
    cases approve <;> rfl
  · intro task _ met waits
    rw [met.2] at waits
    cases waits.1

def Db.Started (db : Db) (id : Nat) : Prop :=
  ∀ task, db.task? id = some task → ∀ run, db.run? task.runId = some run → run.waiting = false

def Db.Admitted (db : Db) (run : Nat) : Prop :=
  ∃ row, db.run? run = some row ∧ row.waiting = false

theorem Db.Admitted.free {db : Db} {run : Nat} (admitted : db.Admitted run)
    : ∀ row, db.run? run = some row → row.waiting = false := by
  intro row home
  obtain ⟨row_, home_, free⟩ := admitted
  rw [home] at home_
  cases home_
  exact free

/-- What an operation relies on that goes by what another read or wrote before. -/
def Op.Standing (db : Db) : Op → Prop
  | .cancelGangSiblings _ member => db.Started member
  | .reapRun _ ended => ended.2 ≠ .running ∧ db.Admitted ended.1
  | .endStoppedRun _ run => db.Admitted run
  | _ => True

/-- Whether an operation counts pending tasks anew, or inserts rows with their counts. -/
def Op.recounts : Op → Bool
  | .createRun .. | .reconcileFanouts .. | .rerunFromFailed .. | .rerunAll ..
  | .clearTaskWithDownstream .. => true
  | _ => false

section Writes

variable {env : Env} {op : Op} {start before after : Db}

theorem Writes.recounts (writes : Writes env start op before after) (anew : op.recounts = true)
    : Carries Board.Recounts before after := by
  cases op with
  | createRun now submission =>
      obtain ⟨rfl, done⟩ := writes.returns rfl
      exact carries_createRun env now done
  | reconcileFanouts now mint =>
      exact (fanoutStep_of_mem_reconcileFanouts env now writes).carries
  | rerunFromFailed now run origin who =>
      obtain ⟨rfl, done⟩ := writes.returns rfl
      exact carries_rerunFromFailed now done
  | rerunAll now run who =>
      obtain ⟨rfl, done⟩ := writes.returns rfl
      exact carries_rerunAll now done
  | clearTaskWithDownstream now run id who =>
      obtain ⟨rfl, done⟩ := writes.returns rfl
      exact carries_clearTaskWithDownstream now done
  | _ => cases anew

/-- Every other operation keeps slack, or does what settling stopped tasks and ending gangs
do.
-/
theorem Writes.carries {Rel : Board Nat → Board Nat → Prop}
    (writes : Writes env start op before after) (anew : op.recounts = false)
    (opens : op.keepsOpen before) (standing : op.Standing before)
    (lift : ∀ {db db'}, Carries Board.Keeps db db' → Carries Rel db db')
    (settles : ∀ now id worker fence,
      (∀ task, task.id = id → task.stoppingFor worker fence → op.drops before task) →
      Carries Rel before (before.settleStoppedTask now id worker fence))
    (gangs : ∀ now member, op = .cancelGangSiblings now member →
      Carries Rel before (before.cancelGangSiblings env now member))
    : Carries Rel before after := by
  by_cases quiet : op.tasksAlone = true ∧ op.grows = false ∧ ∀ move ∈ op.moves, move.quiet = true
  · obtain ⟨alone, grows, quiet⟩ := quiet
    obtain ⟨runs, deps, _⟩ := writes.tasksAlone alone
    exact lift (carries_quiet (writes.moves grows) quiet deps runs)
  have over_ {id : Nat} {worker : String} {fence : Nat}
      (reopens : ∀ task, task.id = id → task.heldBy worker fence →
        task.status.terminal = true → op.reopens task)
      : ∀ task, before.task? id = some task → task.heldBy worker fence →
        task.status.terminal = true → ¬ before.awaited id := by
    intro task found held ended
    have here := Db.id_of_task? found
    have unawaited := opens task (Table.mem_of_get? found) (reopens task here held ended)
    rwa [here] at unawaited
  cases op with
  | advanceReadyTasks now => exact lift (advanceStep_of_mem env now writes).carries
  | markTaskSucceeded now id worker fence output cacheHit =>
      obtain ⟨rfl, rfl⟩ := writes.single rfl
      exact carries_markTaskSucceeded env lift
        (settles now id worker fence (fun _ same stops => ⟨same, stops⟩))
        (over_ (fun _ same held ended => ⟨same, held, ended⟩))
  | markTaskFailed now id worker fence error =>
      obtain ⟨rfl, rfl⟩ := writes.single rfl
      exact carries_markTaskFailed lift (settles now id worker fence (fun _ same stops => ⟨same, stops⟩))
        (over_ (fun _ same held ended => ⟨same, held, ended⟩))
  | retryTask now id worker fence error retryAt =>
      obtain ⟨rfl, rfl⟩ := writes.single rfl
      exact carries_retryTask lift (settles now id worker fence (fun _ same stops => ⟨same, stops⟩))
        (over_ (fun _ same held ended => ⟨same, held, ended⟩))
  | requeueQuotaWait now id worker fence detail maxWaitSecs jitterPermille =>
      obtain ⟨rfl, rfl⟩ := writes.single rfl
      exact carries_requeueQuotaWait lift (settles now id worker fence (fun _ same stops => ⟨same, stops⟩))
  | cancelGangSiblings now member =>
      obtain ⟨rfl, rfl⟩ := writes.single rfl
      exact gangs now member rfl
  | settleStoppedTask now id worker fence =>
      obtain ⟨rfl, rfl⟩ := writes.single rfl
      exact settles now id worker fence (fun _ same stops => ⟨same, stops⟩)
  | reconcileSubworkflows now =>
      obtain ⟨parked, _, rfl⟩ := writes.item rfl
      have resolved (succeeded : Bool)
          : Carries Board.Keeps before
            (before.resolveSubworkflow now parked.task parked.child succeeded) :=
        carries_endRunning (moves_resolveSubworkflow now before _ _ succeeded)
          (fun _ => by cases succeeded <;> rfl)
      simp only [Db.reconcileSubworkflow]
      split
      · exact lift (resolved _)
      · split
        · exact lift (resolved _)
        · refine lift (carries_quiet (moves_requeueParkedSubworkflow before _ _ _ _) (by decide)
            rfl rfl)
        · exact lift (carries_endRunning (moves_failParkedSubworkflow now before _ _ _) (fun _ => rfl))
  | reconcileWaits now =>
      obtain ⟨id, _, rfl⟩ := writes.item rfl
      exact lift (carries_endRunning (moves_reconcileWait now before id) (fun _ => rfl))
  | reconcileDatasetWaits now =>
      obtain ⟨id, _, rfl⟩ := writes.item rfl
      exact lift (carries_endRunning (moves_reconcileDatasetWait now before id) (fun _ => rfl))
  | resolveUrlWait now id =>
      obtain ⟨rfl, rfl⟩ := writes.single rfl
      exact lift (carries_endRunning (moves_resolveUrlWait now before id) (fun _ => rfl))
  | resolveExternal now id handle output =>
      obtain ⟨rfl, rfl⟩ := writes.single rfl
      exact lift (carries_endRunning (moves_resolveExternal now before id handle output) (fun _ => rfl))
  | failExternal now id handle reason keepHandle =>
      obtain ⟨rfl, rfl⟩ := writes.single rfl
      exact lift (carries_endRunning (moves_failExternal now before id handle reason keepHandle)
        (fun _ => rfl))
  | resolveApproval now run id approve decidedBy comment =>
      obtain ⟨rfl, rfl⟩ := writes.single rfl
      exact lift (carries_resolveApproval before)
  | resolveExpiredApprovals now =>
      obtain ⟨task, _, rfl⟩ := writes.item rfl
      unfold Db.resolveExpiredApproval
      split
      · exact lift (.refl before)
      · exact lift (carries_resolveApproval before)
  | cancelRun now run =>
      obtain ⟨rfl, rfl⟩ := writes.single rfl
      exact lift (carries_cancelRun env now run before)
  | cancelOverdueRuns now =>
      obtain ⟨rfl, rfl⟩ := writes.single rfl
      exact lift (carries_cancelOverdueRuns env now before)
  | endStoppedRun now run =>
      obtain ⟨rfl, rfl⟩ := writes.single rfl
      exact lift (carries_endStoppedRun env now run before standing.free)
  | retryTaskFromUi now id who =>
      obtain ⟨rfl, done⟩ := writes.returns rfl
      refine lift (carries_retryTaskFromUi now done ?_)
      intro task found ended
      have here := Db.id_of_task? found
      have unawaited := opens task (Table.mem_of_get? found) ⟨here, ended⟩
      rwa [here] at unawaited
  | reapRun now ended =>
      obtain ⟨rfl, rfl⟩ := writes.single rfl
      exact lift (carries_reapRun now standing.1 standing.2.free)
  | admitWaitingRuns now =>
      obtain ⟨rfl, rfl⟩ := writes.single rfl
      exact lift (carries_admitWaitingRuns now before)
  | createRun | reconcileFanouts | rerunFromFailed | rerunAll | clearTaskWithDownstream =>
      cases anew
  | _ => exact absurd ⟨rfl, rfl, by simp [Op.moves, Move.quiet]⟩ quiet

theorem Writes.keeps (writes : Writes env start op before after)
    (anew : op.recounts = false) (counts : op.countsAll before) (standing : op.Standing before)
    : Carries Board.Keeps before after := by
  have unawaited {other node : Nat} {on row : TaskRow} (wasOn : before.task? other = some on)
      (drops : op.drops before on) (was : before.task? node = some row)
      (pending : row.status = .pending)
      : ¬ before.dependsOn node other := by
    intro depends
    refine counts on (Table.mem_of_get? wasOn) (.inr drops) ?_
    rw [Db.id_of_task? wasOn]
    exact Db.awaited_of_pending was pending depends
  refine writes.carries anew counts.keepsOpen standing (fun keeps => keeps) ?_ ?_
  · intro now id worker fence drops
    refine keeps_settleStoppedTask now ?_
    intro task found stops node row was pending
    exact unawaited found (drops task (Db.id_of_task? found) stops) was pending
  · intro now member same
    subst same
    refine keeps_cancelGangSiblings env now standing ?_
    intro other on wasOn cancelled node row was pending
    exact unawaited wasOn cancelled was pending

/-- Every operation that does not count anew lowers no slack where it re-opens nothing that is
awaited.
-/
theorem Writes.raises (writes : Writes env start op before after)
    (anew : op.recounts = false) (opens : op.keepsOpen before) (standing : op.Standing before)
    : Carries Board.Raises before after := by
  refine writes.carries anew opens standing Carries.raises ?_ ?_
  · intro now id worker fence _
    exact raises_settleStoppedTask now
  · intro now member same
    subst same
    exact raises_cancelGangSiblings env now standing

theorem deps_settleStoppedTask (now : Time) (db : Db) (id : Nat) (worker : String) (fence : Nat)
    : (db.settleStoppedTask now id worker fence).deps = db.deps := by
  unfold Db.settleStoppedTask Db.settleStopping
  split
  · rfl
  · exact (finishStoppedRun_tasks now _ _).2

theorem Writes.deps (writes : Writes env start op before after) (grows : op.grows = false)
    : after.deps = before.deps := by
  by_cases alone : op.tasksAlone = true
  · exact (writes.tasksAlone alone).2.1
  cases op with
  | createRun | reconcileFanouts | rerunAll => cases grows
  | markTaskSucceeded now id worker fence | markTaskFailed now id worker fence
  | retryTask now id worker fence | requeueQuotaWait now id worker fence
  | settleStoppedTask now id worker fence =>
      rcases writes.reported rfl with alone | rfl
      · exact alone.2.1
      · exact deps_settleStoppedTask now _ id worker fence
  | cancelRun now run =>
      obtain ⟨rfl, rfl⟩ := writes.single rfl
      simp only [Db.cancelRun]
      split
      · rfl
      · exact (finishStoppedRun_tasks now run _).2
  | cancelOverdueRuns now =>
      obtain ⟨rfl, rfl⟩ := writes.single rfl
      refine @List.foldlRecOn _ _ (fun db : Db => db.deps = before.deps) _ _ _ rfl ?_
      exact fun _ same run _ => (finishStoppedRun_tasks now run _).2.trans same
  | endStoppedRun now run =>
      obtain ⟨rfl, rfl⟩ := writes.single rfl
      exact (finishStoppedRun_tasks now run _).2
  | retryTaskFromUi now id who =>
      obtain ⟨rfl, done⟩ := writes.returns rfl
      rcases retryTaskFromUi_ok now done with rfl | ⟨_, retried, _, _, rfl, rearmed⟩
      · rfl
      · exact rearmed.deps
  | rerunFromFailed now run origin who =>
      obtain ⟨rfl, done⟩ := writes.returns rfl
      rcases rerunFromFailed_ok now done with rfl | ⟨armed, rearmed, _, deps, _⟩
      · rfl
      · exact deps.trans rearmed.deps
  | clearTaskWithDownstream now run id who =>
      obtain ⟨rfl, done⟩ := writes.returns rfl
      rcases clearTaskWithDownstream_ok now done with rfl | ⟨_, _, rfl, rearmed⟩
      · rfl
      · exact rearmed.deps
  | reapRun now ended =>
      obtain ⟨rfl, rfl⟩ := writes.single rfl
      simp only [Db.reapRun]
      split <;> rfl
  | admitWaitingRuns now =>
      obtain ⟨rfl, rfl⟩ := writes.single rfl
      refine @Db.admitWaitingRuns_rule _ (fun db => db.deps = before.deps) (fun db row same => .trans ?_ same) _ rfl
      simp only [Db.letIn]
      split <;> rfl
  | _ => exact absurd rfl alone

theorem deps_weigh (now : Time) (spec : DagSpec) (trigger : Option RunTrigger) (run : Nat) (db : Db)
    : (weigh env now spec trigger run db).1.deps = db.deps := by
  have each (runs : List Nat)
      : (runs.foldl (fun db other => db.supersedeRun env now run other) db).deps = db.deps := by
    refine @List.foldlRecOn _ _ (fun after : Db => after.deps = db.deps) _ _ _ rfl ?_
    intro after same other _
    simp only [Db.supersedeRun]
    split
    · exact same
    · exact (finishStoppedRun_tasks now other _).2.trans same
  simp only [weigh]
  split
  · rfl
  · dsimp only
    split
    · exact each _
    · rfl

theorem Rearmed.sited {ended : RunStatus → Bool} {run : Nat} (rearmed : Rearmed ended run before after)
    (sited : before.Sited)
    : after.Sited := by
  have steps : Moves [] before after := .of_tasks_eq rearmed.tasks
  refine sited.moved steps rearmed.deps ?_
  intro id there
  rcases rearmed.run? id with same | ⟨_, _, _, is, _⟩
  · rwa [same]
  · rw [is]
    rfl

theorem Writes.sited (writes : Writes env start op before after) (sited : before.Sited)
    : after.Sited := by
  have kept (id : Nat) (there : (before.run? id).isSome) : (after.run? id).isSome := by
    obtain ⟨row, was⟩ := Option.isSome_iff_exists.mp there
    obtain ⟨row', is, _⟩ := writes.run_kept was
    rw [is]
    rfl
  by_cases grows : op.grows = false
  · exact sited.moved (writes.moves grows) (writes.deps grows) kept
  cases op with
  | createRun now submission =>
      obtain ⟨rfl, done⟩ := writes.returns rfl
      obtain ⟨dag, _, row, _, rfl, _, inserted⟩ := createRun_ok env now done
      have weighed := sited.moved (moves_weigh env now dag.spec submission.trigger submission.run
        before) (deps_weigh now _ _ _ _) (fun id there => by
          obtain ⟨row, was⟩ := Option.isSome_iff_exists.mp there
          obtain ⟨row', is, _⟩ := (runMoves_weigh env now before dag.spec submission.trigger
            submission.run).of_some was
          rw [is]
          rfl)
      obtain ⟨heldBy, _, _, tasks, deps, _⟩ := insertRun_eq_some inserted
      obtain ⟨runs, homes, ends⟩ := insertRun_places inserted
      exact weighed.inserted tasks deps runs (homes heldBy) ends
  | reconcileFanouts now mint =>
      exact (fanoutStep_of_mem_reconcileFanouts env now writes).sited env now sited
  | rerunAll now run who =>
      obtain ⟨rfl, done⟩ := writes.returns rfl
      rcases rerunAll_ok now done with rfl | ⟨armed, rearmed, tasks, deps, runs, _⟩
      · exact sited
      · have dropped := (drops_dropInstances (rearmed.sited sited) run).sited (rearmed.sited sited)
        refine dropped.moved (moves_dropped now tasks) deps ?_
        intro id there
        unfold Db.run? at there ⊢
        rwa [runs]
  | _ => exact absurd rfl grows

end Writes

end Dagron.Store
