import Dagron.Store.Progress

/-! Dependency order: a pending task is decided only when all it depends on has ended, by its
condition and by its trigger rule over how they ended.
-/

namespace Dagron.Store

open Dagron.Library Dagron.Spec

-- Orderly worlds

/-- Whether an operation is a person's retry of a task that a pending task depends on, or that
keeps the handle of a job elsewhere.
-/
def Op.retriesOpen (db : Db) : Op → Prop
  | .retryTaskFromUi _ id _ => ∃ task ∈ db.task? id,
      (task.status = .failed ∨ task.status = .cancelled)
        ∧ (db.awaited id ∨ task.externalHandle.isSome)
  | _ => False

instance (db : Db) (op : Op) : Decidable (op.retriesOpen db) := by
  induction op using Op.casesOn <;> dsimp only [Op.retriesOpen] <;> infer_instance

/-- What holds of a world where no counter is below what it stands for, and no claim is ended
twice.
-/
structure World.Orderly (world : World) : Prop where
  fenced
    : world.Fenced
  steady
    : world.db.Steady
  owed
    : world.Owed

theorem World.Orderly.init
    : World.init.Orderly where
  fenced := .init
  steady := ⟨.empty, fun _ pending => by cases pending⟩
  owed := .init

section Orderly

variable {env : Env} {op : Op} {world : World} {commit : Commit World Op}

theorem Op.not_retriesHandle {db : Db} (open_ : ¬ op.retriesOpen db)
    : ¬ op.retriesHandle db := by
  cases op with
  | retryTaskFromUi now id who =>
      intro retries
      obtain ⟨task, found, ended, handle⟩ := retries
      exact open_ ⟨task, found, ended, .inr handle⟩
  | _ => exact id

theorem Op.keepsOpen_of_sound {db : Db} (sound : ∀ id task, db.task? id = some task → task.life.Sound)
    (open_ : ¬ op.retriesOpen db)
    : op.keepsOpen db := by
  intro task member reopens
  have found := Db.task?_of_mem member
  have live {worker : String} {fence : Nat} (held : task.heldBy worker fence)
      : task.status = .running :=
    ((sound _ task found).held (by simp [TaskRow.life, held.1])).1
  cases op with
  | retryTaskFromUi now id who =>
      obtain ⟨rfl, ended⟩ := reopens
      exact fun awaited => open_ ⟨task, found, ended, .inl awaited⟩
  | markTaskSucceeded | markTaskFailed | retryTask =>
      obtain ⟨_, held, over_⟩ := reopens
      rw [live held] at over_
      cases over_
  | _ => cases reopens

theorem World.Orderly.step (member : commit ∈ commitsFrom op world ((store env).commits op world))
    (orderly : commit.before.Orderly) (open_ : ¬ op.retriesOpen commit.before.db)
    : commit.after.Orderly := by
  have writes := writes_of_mem member
  have opens := Op.keepsOpen_of_sound orderly.fenced.sound open_
  have carried : commit.after.db.Steady := by
    cases anew : op.recounts with
    | true =>
        obtain ⟨recounts, coherent⟩ := writes.recounts anew orderly.steady
        exact ⟨coherent, recounts.solvent orderly.steady.solvent⟩
    | false =>
        obtain ⟨raises, coherent⟩ := writes.raises anew opens (orderly.owed.standing member) orderly.steady
        exact ⟨coherent, raises.solvent orderly.steady.solvent⟩
  exact ⟨orderly.fenced.step member (Op.not_retriesHandle open_), carried,
    orderly.owed.step member orderly.steady.coherent⟩

end Orderly

-- Decisions

/-- What a task becomes by its condition and then by its trigger rule, over how the tasks it
depends on ended.
-/
def Db.decision (env : Env) (db : Db) (task : TaskRow) (statuses : List TaskStatus)
    : TaskStatus :=
  match db.whenGate env task with
  | .error _ => .failed
  | .ok false => .skipped
  | .ok true =>
      if triggerRuleReady task.triggerRule statuses then
        if task.fanoutOf.isSome then .running
        else if task.isApproval then .awaitingApproval
        else .ready
      else .skipped

/-- A transaction decides a task: all it depends on has ended, and its status is the decision
over how they ended.
-/
structure Decides (env : Env) (before after : Db) (task task' : TaskRow) : Prop where
  over_
    : ∀ status ∈ after.depStatuses task.id, status.terminal = true
  decided
    : task'.status = before.decision env task (after.depStatuses task.id)

section Decisions

variable {env : Env} {now : Time} {before after : Db} {id : Nat} {task task' : TaskRow}

theorem Db.Steady.over_ {db : Db} (steady : db.Steady) (found : db.task? id = some task)
    (pending : task.status = .pending) (zero : task.remainingDeps ≤ 0)
    : ∀ status ∈ db.depStatuses id, status.terminal = true := by
  intro status member
  obtain ⟨other, on, depends, read, rfl⟩ := mem_depStatuses.mp member
  have hold : 0 ≤ db.board.hold id := by
    rw [hold_board found]
    exact Int.natCast_nonneg _
  have ended := steady.solvent.finished (pending_of_task? found pending) hold
    (by rwa [remaining_board found]) (mem_edges.mpr depends)
  rw [live_board, read] at ended
  simpa using ended

/-- Moves that start no task leave one that waits, and is held by nobody, waiting or cancel it. -/
theorem Life.Steps.undecided {moves : List Move} {life life' : Life}
    (steps : Life.Steps moves life life') (starts : ∀ move ∈ moves, move.starts = false)
    (retry : .retryFromUi ∉ moves) (pending : life.status = .pending)
    (free : life.claimedBy = none)
    : life'.status = .pending ∨ life'.status = .cancelled := by
  have whole : (life'.status = .pending ∨ life'.status = .cancelled) ∧ life'.claimedBy = none := by
    refine steps.rule (fun other => (other.status = .pending ∨ other.status = .cancelled)
      ∧ other.claimedBy = none) ⟨.inl pending, free⟩ ?_
    intro move listed first second step kept
    obtain ⟨waits, free⟩ := kept
    have still := starts move listed
    cases step with
    | count | recount | clearStop | clearHandle => exact ⟨waits, free⟩
    | cancel => exact ⟨.inr rfl, rfl⟩
    | reset => exact ⟨.inl rfl, rfl⟩
    | ready | parkBarrier | ask | skip | failWhen => cases still
    | claim was | recover was | park was | release was | resolve _ was | requeue was
    | askStop was | settle was | claimTeardown was | stamp was | finishBarrier _ was
    | decide _ was => simp [was] at waits
    | renew held | succeed held | fail held | retry held => simp [free] at held
    | retryFromUi => exact absurd listed retry
  exact whole.1

theorem Life.Steps.advanced_of_started {life life' : Life}
    (steps : Life.Steps readinessMoves life life') (started : life.status ≠ .pending)
    : life'.status = life.status := by
  refine steps.rule (fun other => other.status = life.status) rfl ?_
  intro move listed first second step same
  rw [← same] at started
  cases step with
  | count pending => exact absurd pending started
  | ready pending | skip pending | failWhen pending | parkBarrier pending | ask pending =>
      exact absurd pending started
  | _ => simp [readinessMoves] at listed

theorem depStatuses_advanced (steps : Moves readinessMoves before after) (deps : after.deps = before.deps)
    (over_ : ∀ status ∈ before.depStatuses id, status.terminal = true)
    : after.depStatuses id = before.depStatuses id := by
  have same (other : Nat) (depends : before.dependsOn id other)
      : (after.task? other).map TaskRow.status = (before.task? other).map TaskRow.status := by
    cases was : before.task? other with
    | none => rw [(steps.task?_eq_none_iff other).mpr was]
    | some on =>
        have ended := over_ on.status (mem_depStatuses.mpr ⟨other, on, depends, was, rfl⟩)
        have steps := steps other
        rw [was] at steps
        cases is : after.task? other with
        | none =>
            rw [is] at steps
            cases steps
        | some on' =>
            rw [is] at steps
            cases steps with
            | some steps =>
                have started : on.life.status ≠ .pending := by
                  intro pending
                  rw [show on.status = .pending from pending] at ended
                  cases ended
                exact congrArg some (steps.advanced_of_started started)
  unfold Db.depStatuses Db.dependenciesOf
  rw [deps]
  refine List.filterMap_congr (fun other listed => same other ?_)
  obtain ⟨dep, among, rfl⟩ := List.mem_map.mp listed
  obtain ⟨present, rfl⟩ := Table.mem_select.mp among
  exact present

theorem TaskRow.defaultShaped.whenGate (shaped : task.defaultShaped env) (db : Db)
    : db.whenGate env task = .ok true := by
  cases given : task.input.when with
  | none => simp [Db.whenGate, given]
  | some cond =>
      have mentions := env.mentionsWhen_of_when task.input (by simp [given])
      rw [shaped.2.2] at mentions
      cases mentions

theorem Db.readied.decision {db : Db} (met : db.readied env task) (other : Db)
    : other.decision env task (db.depStatuses task.id) = .ready := by
  obtain ⟨_, _, shaped, plain, succeeded⟩ := met
  unfold Db.allSucceeded at succeeded
  have rule : triggerRuleReady task.triggerRule (db.depStatuses task.id) = true := by
    rw [shaped.1]
    cases none_ : (db.depStatuses task.id).isEmpty with
    | true => simp [triggerRuleReady, none_]
    | false =>
        simp only [triggerRuleReady, none_, defaultTriggerRule]
        simpa using succeeded
  simp [Db.decision, shaped.whenGate other, rule, Option.isNone_iff_eq_none.mp plain, shaped.2.1]

theorem Db.skipped.decision {db : Db} (met : db.skipped env task) (other : Db)
    : other.decision env task (db.depStatuses task.id) = .skipped := by
  obtain ⟨_, _, shaped, refused⟩ := met
  have rule : triggerRuleReady task.triggerRule (db.depStatuses task.id) = false := by
    rw [shaped.1]
    unfold Db.allSucceeded at refused
    cases none_ : (db.depStatuses task.id).isEmpty with
    | true => simp [List.isEmpty_iff.mp none_] at refused
    | false =>
        simp only [triggerRuleReady, none_, defaultTriggerRule]
        simpa using refused
  simp [Db.decision, shaped.whenGate other, rule]

theorem Db.readiness_congr {db : Db} (same : task'.toTaskColumns = task.toTaskColumns)
    : db.readiness env task' = db.readiness env task := by
  simp only [Db.readiness, Db.whenGate, same]

theorem Db.decision_congr {db : Db} (same : task'.toTaskColumns = task.toTaskColumns)
    {statuses : List TaskStatus}
    : db.decision env task' statuses = db.decision env task statuses := by
  simp only [Db.decision, Db.whenGate, same]

theorem Db.decision_of_readiness {db : Db} (task : TaskRow)
    : db.decision env task (db.depStatuses task.id)
      = match db.readiness env task with
        | .fail _ => .failed
        | .skip => .skipped
        | .run =>
            if task.fanoutOf.isSome then .running
            else if task.isApproval then .awaitingApproval
            else .ready := by
  unfold Db.decision Db.readiness
  cases db.whenGate env task with
  | error => rfl
  | ok holds =>
      cases holds with
      | false => rfl
      | true => cases rule : triggerRuleReady task.triggerRule (db.depStatuses task.id) <;> simp

theorem status_advanceCandidate_apart {candidate : TaskRow} (was : before.task? id = some task)
    (apart : task.id ≠ candidate.id)
    (is : (before.advanceCandidate env now candidate).task? id = some task')
    : task'.status = task.status := by
  have ended {set : TaskRow → TaskRow} {guard : TaskRow → Prop} [DecidablePred guard]
      {keeps : ∀ row, (set row).toTaskColumns = row.toTaskColumns}
      (is : ((before.endTask candidate.id guard set keeps).getD before).task? id = some task')
      : task'.status = task.status := by
    obtain ⟨row, was', same⟩ := task?_endTask_getD is
    rw [was] at was'
    cases was'
    rw [(TaskRow.of_uncounted_eq same).1, if_neg (fun met => apart met.1)]
  have started {set : TaskRow → TaskRow} {keeps : ∀ row, (set row).toTaskColumns = row.toTaskColumns}
      (is : (before.updateTasks (fun task => task.id = candidate.id ∧ task.status = .pending)
        set keeps).task? id = some task')
      : task'.status = task.status := by
    rw [Db.task?_updated was, if_neg (fun met => apart met.1)] at is
    cases is
    rfl
  unfold Db.advanceCandidate at is
  split at is
  · exact ended is
  · exact ended is
  · split at is
    · exact started is
    split at is
    · exact started is
    · exact started is

theorem AdvanceStep.decides (step : AdvanceStep env now before after) (steady : before.Steady)
    (was : before.task? id = some task) (pending : task.status = .pending)
    (is : after.task? id = some task')
    : task'.status = .pending ∨ Decides env before after task task' := by
  have here : task.id = id := Db.id_of_task? was
  subst here
  have steps := step.moves
  have alone := step.tasksAlone
  have settled {db : Db} (moved : Moves readinessMoves before db) (deps : db.deps = before.deps)
      (zero : task.remainingDeps ≤ 0) {status : TaskStatus}
      (decision : before.decision env task (before.depStatuses task.id) = status)
      {row : TaskRow} (same : row.status = status)
      : Decides env before db task row := by
    have over_ := steady.over_ was pending zero
    have kept := depStatuses_advanced moved deps over_
    refine ⟨?_, ?_⟩
    · rwa [kept]
    · rw [kept, decision, same]
  cases step with
  | ready =>
      have read : (before.readyDefault env now).task? task.id
          = some (if before.readied env task then
              { task with status := .ready, scheduledAt := some now }
            else task) :=
        Db.task?_updated was
      rw [read] at is
      cases is
      split
      case isFalse => exact .inl pending
      case isTrue met => exact .inr (settled steps rfl met.2.1.le (met.decision before) rfl)
  | skip =>
      have marked : (before.updateTasks (before.skipped env)
            (fun task => { task with status := .skipped, finishedAt := some now })).task? task.id
          = some (if before.skipped env task then
              { task with status := .skipped, finishedAt := some now }
            else task) :=
        Db.task?_updated was
      have distinct : ((before.tasks.select (before.skipped env)).map
          (fun task => task.id)).Nodup :=
        (List.Sublist.map _ List.filter_sublist).nodup before.tasks.nodup
      obtain ⟨row, is', same, _⟩ := task?_releaseAll distinct marked
      rw [show (before.skipDefault env now).task? task.id = some row from is'] at is
      cases is
      have status := (TaskRow.of_uncounted_eq same).1
      split at status
      case isFalse => exact .inl (status.trans pending)
      case isTrue met =>
        exact .inr (settled steps alone.2.1 met.2.1.le (met.decision before) status)
  | candidate candidate read =>
      by_cases at_ : task.id = candidate.id
      · obtain ⟨same, zero⟩ := read task (at_ ▸ was) pending
        have decision : before.decision env task (before.depStatuses task.id) = _ :=
          before.decision_of_readiness task
        rw [← Db.readiness_congr same.symm] at decision
        have ended {set : TaskRow → TaskRow} {status : TaskStatus}
            {keeps : ∀ row, (set row).toTaskColumns = row.toTaskColumns}
            (ends : ∀ row, (set row).status = status)
            (is : ((before.endTask candidate.id (fun task => task.status = .pending) set
              keeps).getD before).task? task.id = some task')
            : task'.status = status := by
          obtain ⟨row, was', same⟩ := task?_endTask_getD is
          rw [was] at was'
          cases was'
          rw [(TaskRow.of_uncounted_eq same).1, if_pos ⟨at_, pending⟩, ends]
        have started {set : TaskRow → TaskRow} {status : TaskStatus}
            {keeps : ∀ row, (set row).toTaskColumns = row.toTaskColumns}
            (starts : ∀ row, (set row).status = status)
            (is : (before.updateTasks (fun task => task.id = candidate.id
              ∧ task.status = .pending) set keeps).task? task.id = some task')
            : task'.status = status := by
          rw [Db.task?_updated was, if_pos ⟨at_, pending⟩] at is
          cases is
          exact starts task
        refine .inr (settled steps alone.2.1 zero decision ?_)
        unfold Db.advanceCandidate at is
        cases taken : before.readiness env candidate with
        | fail message | skip =>
            rw [taken] at is
            exact ended (fun _ => rfl) is
        | run =>
            rw [taken] at is
            rw [show task.fanoutOf = candidate.fanoutOf from congrArg TaskColumns.fanoutOf same,
              show task.isApproval = candidate.isApproval from congrArg TaskColumns.isApproval same]
            dsimp only at is ⊢
            split at is
            case isTrue barrier =>
              rw [if_pos barrier]
              exact started (fun _ => rfl) is
            case isFalse command =>
              rw [if_neg command]
              split at is
              case isTrue gate =>
                rw [if_pos gate]
                exact started (fun _ => rfl) is
              case isFalse plain =>
                rw [if_neg plain]
                exact started (fun _ => rfl) is
      · exact .inl ((status_advanceCandidate_apart was at_ is).trans pending)

theorem decides_markTaskSucceeded {worker : String} {fence : Nat} {output : Option String}
    {cacheHit : Bool} {ended : Nat} (steady : before.Steady)
    (free : task.claimedBy = none) (opens : ∀ row, before.task? ended = some row →
      row.heldBy worker fence → row.status.terminal = true → ¬ before.awaited ended)
    (was : before.task? id = some task) (pending : task.status = .pending)
    (is : (before.markTaskSucceeded env now ended worker fence output cacheHit).1.task? id = some task')
    : task'.status = .pending ∨ Decides env before
        (before.markTaskSucceeded env now ended worker fence output cacheHit).1 task task' := by
  have here : task.id = id := Db.id_of_task? was
  subst here
  unfold Db.markTaskSucceeded at is ⊢
  split
  case h_1 middle done =>
    rw [done] at is
    have steps : Moves [.succeed, .count] before middle := by
      refine .endTask .succeed (by decide) (by decide) ?_ done
      intro row _ held
      exact .succeed held.held.1 held.held.2
    obtain ⟨keeps, coherent⟩ := carries_endHeld done steps (fun _ => rfl) opens steady
    have steady' : middle.Steady := ⟨coherent, keeps.raises.solvent steady.solvent⟩
    have promoted : Moves [.ready] middle (middle.promoteDependents env now ended) :=
      moves_promoteDependents env now middle ended
    obtain ⟨row, found, _⟩ := promoted.of_some is
    obtain ⟨task_, was', same⟩ := task?_endTask done found
    rw [was] at was'
    cases was'
    rw [if_neg (fun met => by simp [met.2.1] at free)] at same
    have waits : row.status = .pending := (TaskRow.of_uncounted_eq same).1.trans pending
    obtain ⟨_, was', moved⟩ := steps.of_some found
    rw [was] at was'
    cases was'
    have columns : row.toTaskColumns = task.toTaskColumns := moved.columns.1
    rw [show (middle.promoteDependents env now ended).task? task.id
      = some (if middle.promoted env ended row then
          { row with status := .ready, scheduledAt := some now }
        else row) from Db.task?_updated found] at is
    cases is
    split
    case isFalse => exact .inl waits
    case isTrue met =>
      have over_ := steady'.over_ found waits met.1.2.1.le
      have kept := depStatuses_advanced (promoted.mono (by decide)) rfl over_
      have decision := met.1.decision before
      rw [Db.decision_congr columns, show row.id = task.id from congrArg TaskColumns.id columns]
        at decision
      refine .inr ⟨?_, ?_⟩
      · rwa [kept]
      · rw [kept]
        exact decision.symm
  case h_2 none_ =>
    rw [none_] at is
    have steps : Moves [.settle] before (before.settleStoppedTask now ended worker fence) :=
      moves_settleStoppedTask now before ended worker fence (by decide)
    obtain ⟨_, was', moved⟩ := steps.of_some is
    rw [was] at was'
    cases was'
    have still := moved.waiting (by decide) (by decide) pending free
    exact .inl still.1

end Decisions

-- Whole histories

section Histories

variable {env : Env} {op : Op} {world : World} {commit : Commit World Op}

def Op.decides : Op → Bool
  | .advanceReadyTasks .. | .markTaskSucceeded .. => true
  | _ => false

theorem Op.starts_of_mem_moves (decides : op.decides = false)
    : ∀ move ∈ op.moves, move.starts = false := by
  cases op with
  | advanceReadyTasks | markTaskSucceeded => cases decides
  | _ => simp [Op.moves, fanoutMoves, Move.starts]

theorem decides_of_mem (member : commit ∈ commitsFrom op world ((store env).commits op world))
    (orderly : commit.before.Orderly) (open_ : ¬ op.retriesOpen commit.before.db)
    {id : Nat} {task task' : TaskRow} (was : commit.before.db.task? id = some task)
    (pending : task.status = .pending) (is : commit.after.db.task? id = some task')
    : task'.status = .pending ∨ task'.status = .cancelled
        ∨ Decides env commit.before.db commit.after.db task task' := by
  have writes := writes_of_mem member
  have free : task.claimedBy = none := by
    refine (orderly.fenced.sound id task was).free ?_
    intro running
    rw [show task.status = .running from running] at pending
    cases pending
  cases decides : op.decides with
  | false =>
      have steps := writes.evolves.kept was is
      by_cases retry : ∃ now id who, op = .retryTaskFromUi now id who
      · obtain ⟨now, other, who, rfl⟩ := retry
        have same : task'.life = task.life := by
          refine steps.rule (fun life => life = task.life) rfl ?_
          intro move listed first second step kept
          obtain rfl := List.mem_singleton.mp listed
          cases step with
          | retryFromUi ended =>
              rw [kept, show task.life.status = .pending from pending] at ended
              simp at ended
        exact .inl ((congrArg Life.status same).trans pending)
      · have decided := steps.undecided (Op.starts_of_mem_moves decides)
          (Op.retryFromUi_not_mem_moves (fun now id who same => retry ⟨now, id, who, same⟩))
          pending free
        exact decided.elim .inl (fun cancelled => .inr (.inl cancelled))
  | true =>
      have decided : task'.status = .pending
          ∨ Decides env commit.before.db commit.after.db task task' := by
        cases op with
        | advanceReadyTasks now =>
            exact (advanceStep_of_mem env now writes).decides orderly.steady was pending is
        | markTaskSucceeded now ended worker fence output cacheHit =>
            have opens := Op.keepsOpen_of_sound orderly.fenced.sound open_
            obtain ⟨start, same⟩ := writes.single rfl
            rw [← start] at same
            rw [same] at is ⊢
            refine decides_markTaskSucceeded orderly.steady free ?_ was pending is
            intro row found held over_
            have here : row.id = ended := Db.id_of_task? found
            exact here ▸ opens row (Table.mem_of_get? found) ⟨here, held, over_⟩
        | _ => cases decides
      exact decided.elim .inl (fun decided => .inr (.inr decided))

/-- One task, and a report that is made of it where it says so. -/
def conditionalReport : DagGraph where
  spec := {
    name := "nightly"
    tasks := [{ name := "shard" },
      { name := "report"
        dependsOn := ["shard"]
        when := some "\x7b\x7btasks.shard.output\x7d\x7d == yes" }]
  }
  parameters := []
  wellFormed := by
    refine ⟨by decide, by decide, by decide, ?_, by decide, by decide, by decide⟩
    exact ⟨fun name => if name = "report" then 1 else 0, by decide⟩

/-- The task succeeds, and says that no report is to be made. -/
def reportRefused : List Op :=
  [.createRun 0 (submit conditionalReport 0), .advanceReadyTasks 1,
    .claimReady 2 "worker" 1 [] [] false, .markTaskSucceeded 3 0 "worker" 1 (some "no") false,
    .advanceReadyTasks 4]

end Histories

end Dagron.Store
