import Dagron.Store.LifeCycle

/-! The statements of the store move its rows along the life cycle: which moves each makes that
adds no row and drops none.
-/

namespace Dagron.Store

open Dagron.Library Dagron.Spec

-- Statements

section Statements

variable {kinds : List Move} {db db' : Db} {cond guard : TaskRow → Prop} [DecidablePred cond]
  [DecidablePred guard] {set : TaskRow → TaskRow}
  {keeps : ∀ row, (set row).toTaskColumns = row.toTaskColumns}

theorem Moves.update_same (same : ∀ task, cond task → (set task).life = task.life)
    : Moves kinds db (db.updateTasks cond set keeps) :=
  .update (fun _ _ met => by
    rw [same _ met]
    exact .refl)

theorem Moves.update_step (move : Move) (listed : move ∈ kinds)
    (step : ∀ task, cond task → Life.Step move task.life (set task).life)
    : Moves kinds db (db.updateTasks cond set keeps) :=
  .update (fun task _ met => (step task met).steps listed)

theorem Moves.releaseDependents (counts : .count ∈ kinds) (ended : Nat)
    : Moves kinds db (db.releaseDependents ended) :=
  .update_step .count counts (fun _ met => .count met.1)

theorem Moves.endTask (move : Move) {id : Nat} (listed : move ∈ kinds) (counts : .count ∈ kinds)
    (step : ∀ task, db.task? id = some task → guard task → Life.Step move task.life (set task).life)
    (ended : db.endTask id guard set keeps = some db')
    : Moves kinds db db' := by
  unfold Db.endTask at ended
  split at ended
  · cases ended
  · cases ended
    refine .trans ?_ (.releaseDependents counts id)
    exact .update (fun task found met => (step task (met.1 ▸ found) met.2).steps listed)

theorem Moves.endTask_getD (move : Move) {id : Nat} (listed : move ∈ kinds) (counts : .count ∈ kinds)
    (step : ∀ task, db.task? id = some task → guard task → Life.Step move task.life (set task).life)
    : Moves kinds db ((db.endTask id guard set keeps).getD db) := by
  cases ended : db.endTask id guard set keeps with
  | none => exact .refl db
  | some db' => exact .endTask move listed counts step ended

end Statements

-- Stopping

section Stopping

variable {kinds : List Move} (env : Env) (now : Time) (db : Db)

theorem TaskRow.idle.live {task : TaskRow} (idle : task.idle)
    : task.status.terminal = false ∧ (task.status = .running → task.claimedBy = none) := by
  rcases idle with status | status | status | ⟨status, free⟩ <;> rw [status]
  · exact ⟨rfl, nofun⟩
  · exact ⟨rfl, nofun⟩
  · exact ⟨rfl, nofun⟩
  · exact ⟨rfl, fun _ => Option.isNone_iff_eq_none.mp free⟩

theorem Life.Step.askToStop {task : TaskRow} (held : task.held)
    : Life.Step .askStop task.life (task.askToStop env now).life :=
  .askStop held.1 held.2 _

theorem moves_stopRunTasks (run : Nat) (cancels : .cancel ∈ kinds) (asks : .askStop ∈ kinds)
    : Moves kinds db (db.stopRunTasks env now run) := by
  simp only [Db.stopRunTasks]
  refine .trans ?_ (.update_step .askStop asks ?_)
  · refine .update_step .cancel cancels ?_
    rintro task ⟨_, idle⟩
    exact .cancel idle.live.1 idle.live.2 _ (Nat.le_refl _)
  · rintro task ⟨_, held⟩
    exact .askToStop env now held

theorem moves_finishStoppedRun (run : Nat)
    : Moves kinds db (db.finishStoppedRun now run) := by
  unfold Db.finishStoppedRun
  split
  · exact .refl db
  · split
    · exact .of_tasks_eq rfl
    · exact .refl db

theorem moves_settleStoppedTask (id : Nat) (worker : String) (fence : Nat) (settles : .settle ∈ kinds)
    : Moves kinds db (db.settleStoppedTask now id worker fence) := by
  unfold Db.settleStoppedTask Db.settleStopping
  split
  · exact .refl db
  case h_2 task found =>
    obtain ⟨found, held⟩ := Option.filter_eq_some_iff.mp found
    obtain ⟨claimed, _, running, asked⟩ := of_decide_eq_true held
    refine .trans (.update ?_) (moves_finishStoppedRun now _ _)
    rintro row same rfl
    rw [found] at same
    cases same
    exact (Life.Step.settle running (by simp [TaskRow.life, claimed]) asked).steps settles

theorem moves_releaseStoppingTask (id : Nat) (worker : String) (fence retrySecs : Nat)
    : Moves [.renew] db (db.releaseStoppingTask now id worker fence retrySecs) := by
  refine .update_step .renew (by decide) ?_
  intro task met
  exact .renew (by simp [TaskRow.life, met.2.1])

theorem moves_cancelRun (run : Nat) (cancels : .cancel ∈ kinds) (asks : .askStop ∈ kinds)
    : Moves kinds db (db.cancelRun env now run) := by
  simp only [Db.cancelRun]
  split
  · exact .refl db
  · refine .trans ?_ (moves_finishStoppedRun now _ run)
    refine .trans ?_ (moves_stopRunTasks env now _ run cancels asks)
    exact .of_tasks_eq rfl

theorem moves_cancelOverdueRuns (cancels : .cancel ∈ kinds) (asks : .askStop ∈ kinds)
    : Moves kinds db (db.cancelOverdueRuns env now) := by
  simp only [Db.cancelOverdueRuns]
  refine .trans ?_ (.foldl ?_ _)
  · exact .of_tasks_eq rfl
  · intro db run _
    exact (moves_stopRunTasks env now db run cancels asks).trans (moves_finishStoppedRun now _ run)

theorem moves_endStoppedRun (run : Nat) (cancels : .cancel ∈ kinds) (asks : .askStop ∈ kinds)
    (clears : .clearStop ∈ kinds)
    : Moves kinds db (db.endStoppedRun env now run) := by
  simp only [Db.endStoppedRun]
  refine .trans ?_ (moves_finishStoppedRun now _ run)
  refine .trans (moves_stopRunTasks env now db run cancels asks) (.update_step .clearStop clears ?_)
  rintro task ⟨_, stopped, _⟩
  exact .clearStop stopped

theorem moves_claimTeardowns (worker : String) (limit : Nat) (classes : List String)
    (held : List Nat) (claims : .claimTeardown ∈ kinds)
    : Moves kinds db (db.claimTeardowns env now worker limit classes held) := by
  refine .foldl (fun db candidate _ => .update_step .claimTeardown claims ?_) db
  rintro task ⟨_, _, running, asked⟩
  exact .claimTeardown running asked worker

theorem moves_supersedeRun (newer run : Nat) (cancels : .cancel ∈ kinds) (asks : .askStop ∈ kinds)
    : Moves kinds db (db.supersedeRun env now newer run) := by
  simp only [Db.supersedeRun]
  split
  · exact .refl db
  · refine .trans ?_ (moves_finishStoppedRun now _ run)
    refine .trans ?_ (moves_stopRunTasks env now _ run cancels asks)
    exact .of_tasks_eq rfl

theorem moves_supersedeRuns (name : String) (key : Option String) (newer : Nat)
    (own : Option RunTrigger) (cancels : .cancel ∈ kinds) (asks : .askStop ∈ kinds)
    : Moves kinds db (db.supersedeRuns env now name key newer own) :=
  .foldl (fun db run _ => moves_supersedeRun env now db newer run cancels asks) db

end Stopping

-- Readiness

section Readiness

variable {kinds : List Move} (env : Env) (now : Time) (db : Db)

theorem moves_readyDefault (readies : .ready ∈ kinds)
    : Moves kinds db (db.readyDefault env now) := by
  refine .update_step .ready readies ?_
  rintro task ⟨pending, zero, ⟨_, command, _⟩, plain, _⟩
  exact .ready pending zero.le ⟨Option.isNone_iff_eq_none.mp plain, command⟩

theorem moves_skipDefault (skips : .skip ∈ kinds) (counts : .count ∈ kinds)
    : Moves kinds db (db.skipDefault env now) := by
  simp only [Db.skipDefault]
  refine .trans ?_ (.foldl (fun db ended _ => .releaseDependents counts ended) _)
  refine .update_step .skip skips ?_
  rintro task ⟨pending, zero, _⟩
  exact .skip pending zero.le

def readinessMoves : List Move :=
  [.ready, .skip, .failWhen, .parkBarrier, .ask, .count]

/-- A candidate of the sweep as the store has it while it is pending: with the columns it was
read with, and nothing left to wait for.
-/
def Db.Candidate (db : Db) (candidate : TaskRow) : Prop :=
  ∀ task, db.task? candidate.id = some task → task.status = .pending →
    task.toTaskColumns = candidate.toTaskColumns ∧ task.remainingDeps ≤ 0

def Readiness.moves : Readiness → List Move
  | .run => [.ready, .parkBarrier, .ask]
  | .skip => [.skip, .count]
  | .fail _ => [.failWhen, .count]

theorem Readiness.moves_subset (decision : Readiness)
    : decision.moves ⊆ readinessMoves := by
  cases decision <;> simp [Readiness.moves, readinessMoves]

theorem moves_decided {candidate : TaskRow} (read : db.Candidate candidate)
    : Moves (db.readiness env candidate).moves db (db.advanceCandidate env now candidate) := by
  unfold Db.advanceCandidate
  generalize db.readiness env candidate = decision
  cases decision
  case fail message =>
    refine .endTask_getD .failWhen List.mem_cons_self (by simp [Readiness.moves]) ?_
    intro task found pending
    exact .failWhen pending (read task found pending).2
  case skip =>
    refine .endTask_getD .skip (by decide) (by decide) ?_
    intro task found pending
    exact .skip pending (read task found pending).2
  case run =>
    dsimp only
    split
    case isTrue barrier =>
      refine .update (fun task found met => ?_)
      obtain ⟨same, zero⟩ := read task (met.1 ▸ found) met.2
      exact (Life.Step.parkBarrier met.2 zero (by simpa [TaskRow.life, same] using barrier)).steps
        (by decide)
    case isFalse command =>
      have plain : candidate.fanoutOf = none := by simpa using command
      split
      case isTrue gate =>
        refine .update (fun task found met => ?_)
        obtain ⟨same, zero⟩ := read task (met.1 ▸ found) met.2
        exact (Life.Step.ask met.2 zero (by simp [TaskRow.life, same, plain, gate])).steps
          (by decide)
      case isFalse gate =>
        refine .update (fun task found met => ?_)
        obtain ⟨same, zero⟩ := read task (met.1 ▸ found) met.2
        exact (Life.Step.ready met.2 zero (by simp [TaskRow.life, same, plain, gate])).steps
          (by decide)

theorem moves_advanceCandidate {candidate : TaskRow} (read : db.Candidate candidate)
    : Moves readinessMoves db (db.advanceCandidate env now candidate) :=
  (moves_decided env now db read).mono (Readiness.moves_subset _)

theorem Db.Candidate.kept {db db' : Db} {candidate : TaskRow} (read : db.Candidate candidate)
    (steps : Moves readinessMoves db db')
    : db'.Candidate candidate := by
  intro task' found pending
  obtain ⟨task, was, steps⟩ := steps.of_some found
  refine steps.rule (fun life => life.status = .pending →
    life.columns = candidate.toTaskColumns ∧ life.remainingDeps ≤ 0) (read task was) ?_ pending
  intro move listed life life' step kept pending
  cases step with
  | count was =>
      obtain ⟨same, zero⟩ := kept was
      exact ⟨same, show life.remainingDeps - 1 ≤ 0 by omega⟩
  | ready | skip | failWhen | parkBarrier | ask => cases pending
  | _ => simp [readinessMoves] at listed

/-- The transactions of the readiness sweep. -/
inductive AdvanceStep : Db → Db → Prop
  | ready (db : Db) : AdvanceStep db (db.readyDefault env now)
  | skip (db : Db) : AdvanceStep db (db.skipDefault env now)
  | candidate (db : Db) (candidate : TaskRow) (read : db.Candidate candidate)
      : AdvanceStep db (db.advanceCandidate env now candidate)

theorem AdvanceStep.moves {before after : Db} (step : AdvanceStep env now before after)
    : Moves readinessMoves before after := by
  cases step with
  | ready => exact moves_readyDefault env now _ (by decide)
  | skip => exact moves_skipDefault env now _ (by decide) (by decide)
  | candidate _ read => exact moves_advanceCandidate env now _ read

/-- Every commit of one pass over candidates is a transaction of the sweep, as each leaves the
candidates after it as they were read.
-/
theorem advanceStep_of_mem_exotic {Label : Type} {label : Label} {candidates : List TaskRow}
    {db : Db} (read : ∀ candidate ∈ candidates, db.Candidate candidate)
    {commit : Commit Db Label}
    (member : commit ∈ commitsFrom label db (Db.advanceExotic env now candidates db).1)
    : AdvanceStep env now commit.before commit.after := by
  induction candidates generalizing db with
  | nil => cases member
  | cons candidate rest ih =>
      have step := read candidate List.mem_cons_self
      rcases List.mem_cons.mp member with rfl | later
      · exact .candidate db candidate step
      · refine ih (fun other among => ?_) later
        exact (read other (List.mem_cons_of_mem _ among)).kept (moves_advanceCandidate env now db step)

theorem candidate_of_mem {db : Db} {candidate : TaskRow} (member : candidate ∈ db.advanceCandidates)
    : db.Candidate candidate := by
  intro task found _
  obtain ⟨present, _, zero⟩ := Table.mem_select.mp ((List.mem_insertionSort _).mp member)
  rw [Db.task?_of_mem present] at found
  cases found
  exact ⟨rfl, zero.le⟩

theorem advanceStep_of_mem {Label : Type} {label : Label} {rounds : Nat} {db : Db}
    {commit : Commit Db Label}
    (member : commit ∈ commitsFrom label db (db.advanceRounds env now rounds))
    : AdvanceStep env now commit.before commit.after := by
  induction rounds generalizing db with
  | zero => cases member
  | succ rounds ih =>
      have first {commit : Commit Db Label}
          (member : commit ∈ commitsFrom label db
            (db.readyDefault env now :: (db.readyDefault env now).skipDefault env now ::
              (Db.advanceExotic env now ((db.readyDefault env now).skipDefault env now).advanceCandidates
                ((db.readyDefault env now).skipDefault env now)).1))
          : AdvanceStep env now commit.before commit.after := by
        rcases List.mem_cons.mp member with rfl | member
        · exact .ready db
        rcases List.mem_cons.mp member with rfl | member
        · exact .skip _
        · exact advanceStep_of_mem_exotic env now (fun _ => candidate_of_mem) member
      simp only [Db.advanceRounds] at member
      split at member
      · cases member
      split at member
      · exact first member
      · rw [commitsFrom_append] at member
        rcases List.mem_append.mp member with now_ | later
        · exact first now_
        · exact ih later

end Readiness

-- Workers

section Workers

variable {kinds : List Move} (env : Env) (now : Time) (db : Db)

theorem moves_claimEach (worker : String) (lease : Time) (candidates : List TaskRow) (budget : PoolBudget)
    : Moves [.claim] db (db.claimEach worker lease candidates budget).1 := by
  induction candidates generalizing db budget with
  | nil => exact .refl db
  | cons candidate rest ih =>
      unfold Db.claimEach
      split
      · exact ih db budget
      split
      · exact ih db budget
      · refine .trans (.update_step .claim (by decide) ?_) (ih _ _)
        rintro task ⟨_, ready, _⟩
        exact .claim ready worker

theorem moves_claimReadyGang (worker : String) (capacity : Nat) (classes : List String) (caps : PoolBudget)
    : Moves [.claim] db (db.claimReadyGang env now worker capacity classes caps).1 := by
  simp only [Db.claimReadyGang]
  split
  · exact .refl db
  split
  · exact .refl db
  · dsimp only
    refine .update_step .claim (by decide) ?_
    rintro task ⟨_, ready⟩
    exact .claim ready worker

theorem moves_cancelGangSiblings (member : Nat)
    : Moves [.askStop, .cancel] db (db.cancelGangSiblings env now member) := by
  simp only [Db.cancelGangSiblings]
  refine .trans ?_ (.update_step .cancel (by decide) ?_)
  · refine .update_step .askStop (by decide) ?_
    rintro task ⟨_, held⟩
    exact .askStop held.1 held.2 _
  · rintro task ⟨_, idle, _⟩
    exact .cancel idle.live.1 idle.live.2 _ (Nat.le_succ _)

theorem moves_recoverExpiredLeases
    : Moves [.recover] db (db.recoverExpiredLeases now) := by
  refine .update_step .recover (by decide) ?_
  intro task met
  obtain ⟨running, lapsed, free, _⟩ := met
  have leased : task.leaseExpiresAt.isSome := by
    cases lease : task.leaseExpiresAt with
    | none => simp [lease] at lapsed
    | some _ => rfl
  exact .recover running leased (by simpa [TaskRow.life] using free)

theorem moves_renewTaskLease (id : Nat) (worker : String) (fence extendSecs : Nat)
    : Moves [.renew] db (db.renewTaskLease now id worker fence extendSecs) := by
  refine .update_step .renew (by decide) ?_
  intro task met
  exact .renew (by simp [TaskRow.life, met.2.1])

theorem TaskRow.heldBy.held {worker : String} {fence : Nat} {task : TaskRow}
    (held : task.heldBy worker fence)
    : task.life.claimedBy.isSome ∧ task.life.stopAsked = false := by
  obtain ⟨claimed, _, free⟩ := held
  exact ⟨by simp [TaskRow.life, claimed], by simpa [TaskRow.life] using free⟩

theorem moves_promoteDependents (id : Nat)
    : Moves [.ready] db (db.promoteDependents env now id) := by
  refine .update_step .ready (by decide) ?_
  rintro task ⟨⟨pending, zero, ⟨_, command, _⟩, plain, _⟩, _⟩
  exact .ready pending zero.le ⟨Option.isNone_iff_eq_none.mp plain, command⟩

theorem moves_markTaskSucceeded (id : Nat) (worker : String) (fence : Nat)
    (output : Option String) (cacheHit : Bool)
    : Moves [.succeed, .count, .ready, .settle] db
      (db.markTaskSucceeded env now id worker fence output cacheHit).1 := by
  unfold Db.markTaskSucceeded
  split
  case h_1 ended counted =>
    refine .trans (.endTask .succeed (by decide) (by decide) ?_ counted) ?_
    · intro task _ held
      exact .succeed held.held.1 held.held.2
    · exact (moves_promoteDependents env now ended id).mono (by decide)
  · exact moves_settleStoppedTask now db id worker fence (by decide)

theorem moves_markTaskFailed (id : Nat) (worker : String) (fence : Nat) (error : Option String)
    : Moves [.fail, .count, .settle] db (db.markTaskFailed now id worker fence error).1 := by
  unfold Db.markTaskFailed
  split
  case h_1 ended counted =>
    refine .endTask .fail (by decide) (by decide) ?_ counted
    intro task _ held
    exact .fail held.held.1 held.held.2
  · exact moves_settleStoppedTask now db id worker fence (by decide)

theorem moves_retryTask (id : Nat) (worker : String) (fence : Nat) (error : Option String) (retryAt : Time)
    : Moves [.retry, .settle] db (db.retryTask now id worker fence error retryAt).1 := by
  unfold Db.retryTask
  split
  · exact moves_settleStoppedTask now db id worker fence (by decide)
  · dsimp only
    refine .update_step .retry (by decide) ?_
    rintro task ⟨_, held⟩
    exact .retry held.held.1 held.held.2 _ (.inl rfl)

theorem moves_requeueQuotaWait (id : Nat) (worker : String) (fence : Nat) (detail : String)
    (maxWaitSecs : Nat) (jitterPermille : Int)
    : Moves [.retry, .settle] db
      (db.requeueQuotaWait now id worker fence detail maxWaitSecs jitterPermille).1 := by
  simp only [Db.requeueQuotaWait]
  split
  · exact moves_settleStoppedTask now db id worker fence (by decide)
  split
  · exact .refl db
  · dsimp only
    refine .update_step .retry (by decide) ?_
    rintro task ⟨_, held, running⟩
    exact .retry held.held.1 held.held.2 _ (.inr ⟨running, rfl⟩)

end Workers

-- Parking

section Parking

variable {kinds : List Move} (env : Env) (now : Time) (db : Db)

theorem TaskRow.parkable.running {fence : Nat} {task : TaskRow} (parkable : task.parkable fence)
    : task.life.status = .running ∧ task.life.stopAsked = false :=
  ⟨parkable.1, by simpa [TaskRow.life] using parkable.2.2⟩

/-- How a worker's park changes a row: not at all, or the row is of its task, at its version. -/
theorem rel_park (ticket : Ticket) (parking : Parking) (db : Db) (id : Nat)
    : Option.Rel
        (fun task task' => task' = task
          ∨ (task.id = ticket.task ∧ task.parkable ticket.fence
            ∧ (Life.Step .park task.life task'.life ∨ Life.Step .release task.life task'.life)))
        (db.task? id) ((db.park ticket parking).task? id) := by
  unfold Db.park
  split
  case h_2 =>
    refine rel_updateTasks (fun _ _ => .inl rfl) ?_ id
    intro task _ met
    exact .inr ⟨met.1, met.2, .inr (.release met.2.running.1 met.2.running.2)⟩
  all_goals
    refine rel_updateTasks (fun _ _ => .inl rfl) ?_ id
    intro task _ met
    have sub := Bool.toNat_le task.subRunId.isSome
    have wake := Bool.toNat_le task.wakeAt.isSome
    have url := Bool.toNat_le task.waitUrl.isSome
    have dataset := Bool.toNat_le task.waitDataset.isSome
    refine .inr ⟨met.1, met.2, .inl (.park met.2.running.1 met.2.running.2 _ ?_ _ ?_)⟩ <;>
      simp only [TaskRow.life, TaskRow.parks, TaskRow.waits, TaskRow.released, Option.isSome_some,
        Bool.toNat_true] <;>
      omega

theorem moves_park (ticket : Ticket) (parking : Parking)
    : Moves [.park, .release] db (db.park ticket parking) := by
  intro id
  have change := rel_park ticket parking db id
  revert change
  cases db.task? id <;> cases (db.park ticket parking).task? id <;> intro change <;> cases change
  · exact .none
  case some change =>
    refine .some ?_
    rcases change with rfl | ⟨_, _, step | step⟩
    · exact .refl
    · exact step.steps (by decide)
    · exact step.steps (by decide)

theorem parks_pos {task : TaskRow}
    (some_ : task.subRunId.isSome ∨ task.wakeAt.isSome ∨ task.waitUrl.isSome
      ∨ task.waitDataset.isSome ∨ task.externalHandle.isSome)
    : 0 < task.life.parks := by
  unfold TaskRow.life TaskRow.parks
  rcases some_ with some_ | some_ | some_ | some_ | some_ <;> simp only [some_, Bool.toNat_true] <;>
    omega

theorem Moves.updateRunning_same {db : Db} {id : Nat} {guard : TaskRow → Prop}
    [DecidablePred guard] {set : TaskRow → TaskRow}
    {keeps : ∀ row, (set row).toTaskColumns = row.toTaskColumns}
    (same : ∀ task, (set task).life = task.life)
    : Moves kinds db (db.updateRunning id guard set keeps) :=
  .update_same (fun task _ => same task)

theorem moves_endRunning {id : Nat} {guard : TaskRow → Prop} [DecidablePred guard]
    {set : TaskRow → TaskRow} {keeps : ∀ row, (set row).toTaskColumns = row.toTaskColumns}
    (succeeded : Bool)
    (parked : ∀ task, guard task → task.subRunId.isSome ∨ task.wakeAt.isSome
      ∨ task.waitUrl.isSome ∨ task.waitDataset.isSome ∨ task.externalHandle.isSome)
    (fewer : ∀ task, (set task).parks ≤ task.parks)
    (freed : ∀ task, (set task).waits ≤ task.waits)
    (ends : ∀ task, (set task).life
      = { task.life with
        status := .ended succeeded, parks := (set task).parks, waits := (set task).waits })
    : Moves [.resolve succeeded, .count] db (db.endRunning id guard set keeps) := by
  refine .endTask_getD (.resolve succeeded) (by simp) (by simp) ?_
  rintro task _ ⟨running, met⟩
  rw [ends task]
  exact .resolve succeeded running (parks_pos (parked task met)) _ (fewer task) _ (freed task)

theorem moves_resolveSubworkflow (id child : Nat) (succeeded : Bool)
    : Moves [.resolve succeeded, .count] db (db.resolveSubworkflow now id child succeeded) :=
  moves_endRunning db succeeded (fun _ met => .inl (by simp [met])) (fun _ => Nat.le_refl _)
    (fun _ => Nat.le_refl _) (fun _ => by cases succeeded <;> rfl)

theorem moves_requeueParkedSubworkflow (id child : Nat) (output : Option String) (retryAt : Time)
    : Moves [.requeue] db (db.requeueParkedSubworkflow id child output retryAt) := by
  unfold Db.requeueParkedSubworkflow Db.updateRunning
  refine .update_step .requeue (by decide) ?_
  rintro task ⟨_, running, child⟩
  refine .requeue running _ ?_ _ ?_ <;>
    simp only [TaskRow.life, TaskRow.parks, TaskRow.waits, TaskRow.released, child,
      Option.isSome_some, Option.isSome_none, Bool.toNat_true, Bool.toNat_false] <;>
    omega

theorem moves_failParkedSubworkflow (id child : Nat) (reason : String)
    : Moves [.resolve false, .count] db (db.failParkedSubworkflow now id child reason) := by
  refine moves_endRunning db false (fun _ met => .inl (by simp [met])) (fun task => ?_)
    (fun task => ?_) (fun _ => rfl) <;>
    simp only [TaskRow.parks, TaskRow.waits, Option.isSome_none, Bool.toNat_false] <;>
    omega

theorem moves_reconcileSubworkflow (parked : Db.EndedChild)
    : Moves [.resolve true, .resolve false, .requeue, .count] db
      (db.reconcileSubworkflow env now parked) := by
  simp only [Db.reconcileSubworkflow]
  split
  · refine (moves_resolveSubworkflow now db _ _ _).mono ?_
    cases parked.succeeded <;> decide
  split
  · exact (moves_resolveSubworkflow now db _ _ _).mono (by decide)
  · exact (moves_requeueParkedSubworkflow db _ _ _ _).mono (by decide)
  · exact (moves_failParkedSubworkflow now db _ _ _).mono (by decide)

theorem moves_reconcileWait (id : Nat)
    : Moves [.resolve true, .count] db (db.reconcileWait now id) := by
  refine moves_endRunning db true (fun task due => .inr (.inl ?_)) (fun _ => Nat.le_refl _)
    (fun _ => Nat.le_refl _) (fun _ => rfl)
  unfold Db.TimerDue at due
  cases wake : task.wakeAt with
  | none => simp [wake] at due
  | some time => rfl

theorem moves_resolveUrlWait (id : Nat)
    : Moves [.resolve true, .count] db (db.resolveUrlWait now id) :=
  moves_endRunning db true (fun _ met => .inr (.inr (.inl met))) (fun _ => Nat.le_refl _)
    (fun _ => Nat.le_refl _) (fun _ => rfl)

theorem moves_reconcileDatasetWait (id : Nat)
    : Moves [.resolve true, .count] db (db.reconcileDatasetWait now id) :=
  moves_endRunning db true (fun _ met => .inr (.inr (.inr (.inl met))))
    (fun _ => Nat.le_refl _) (fun _ => Nat.le_refl _) (fun _ => rfl)

theorem moves_resolveExternal (id : Nat) (handle : String) (output : Option String)
    : Moves [.resolve true, .count] db (db.resolveExternal now id handle output) := by
  refine moves_endRunning db true (fun _ met => .inr (.inr (.inr (.inr (by simp [met])))))
    (fun task => ?_) (fun _ => Nat.le_refl _) (fun _ => rfl)
  simp only [TaskRow.parks, Option.isSome_none, Bool.toNat_false]
  omega

theorem moves_failExternal (id : Nat) (handle reason : String) (keepHandle : Bool)
    : Moves [.resolve false, .count] db (db.failExternal now id handle reason keepHandle) := by
  refine moves_endRunning db false (fun _ met => .inr (.inr (.inr (.inr (by simp [met])))))
    (fun task => ?_) (fun _ => Nat.le_refl _) (fun _ => rfl)
  cases keepHandle <;>
    simp only [TaskRow.parks, if_true, if_false, Option.isSome_none, Bool.toNat_false,
      Bool.false_eq_true] <;>
    omega

theorem moves_clearExternalHandle (id : Nat) (handle : String)
    : Moves [.clearHandle] db (db.clearExternalHandle id handle) := by
  unfold Db.clearExternalHandle
  refine .update_step .clearHandle (by decide) (fun task _ => .clearHandle _ ?_)
  simp only [TaskRow.life, TaskRow.parks, Option.isSome_none, Bool.toNat_false]
  omega

theorem moves_resolveApproval (run id : Nat) (approve : Bool) (decidedBy comment : Option String)
    : Moves [.decide approve, .count] db
      (db.resolveApproval now run id approve decidedBy comment) := by
  refine .endTask_getD (.decide approve) (by simp) (by simp) ?_
  rintro task _ ⟨_, asks⟩
  exact .decide approve asks

theorem moves_resolveExpiredApproval (task : TaskRow)
    : Moves [.decide (task.approvalOnTimeout = some "approve"), .count] db
      (db.resolveExpiredApproval now task) := by
  unfold Db.resolveExpiredApproval
  split
  · exact .refl db
  · exact moves_resolveApproval now db _ _ _ _ _

end Parking

end Dagron.Store
