import Dagron.Store.Pools

/-! Gangs: a gang's claim takes every member of one gang or nothing, and a gang that is split,
with a member that runs and one that is ready, stays so: no claim takes the ready one.
-/

namespace Dagron.Store

open Dagron.Library Dagron.Spec

-- Claims of whole gangs

/-- A claim takes one gang whole: each of its rows was ready and due, of a class that was asked
for, its pool seats them all, and each is left running under one worker and one lease, with
every other row as it was.
-/
structure Db.TakesGang (env : Env) (now : Time) (worker : String) (capacity : Nat)
    (classes : List String) (caps : PoolBudget) (db : Db) (gang : GangId) : Prop where
  peopled
    : ∃ task ∈ db.tasks, task.inGang gang
  due
    : ∀ task ∈ db.tasks, task.inGang gang → task.due now classes
  whole
    : ∀ task ∈ db.tasks, ∀ seat, task.gang = some seat → seat.gang = gang →
        db.countTasks (fun other => other.inGang gang) = seat.size ∧ seat.size ≤ capacity
  seated
    : ∀ task ∈ db.tasks, task.inGang gang → ∀ pool cap, task.pool = some pool →
        caps.left (some pool) = some cap →
        (db.occupied pool + db.countTasks (fun other => other.inGang gang) : Int) ≤ cap
  moved
    : ∀ id, (db.claimReadyGang env now worker capacity classes caps).1.task? id
        = (db.task? id).map (fun task =>
            if task.inGang gang then task.claim worker (now + seconds env.leaseSecs) else task)
  taken
    : (db.claimReadyGang env now worker capacity classes caps).2
        = db.tasks.select (fun task => task.inGang gang)

theorem Db.groupOf_eq_some_iff {task : TaskRow} {gang : GangId} {size : Nat} {pool : Option String}
    : Db.groupOf task = some (gang, size, pool)
      ↔ ∃ seat, task.gang = some seat ∧ seat.gang = gang ∧ seat.size = size ∧ task.pool = pool := by
  simp [Db.groupOf]

/-- Where a group has as many due rows as its gang has seats, it has every row of the gang: a
gang has no more rows than seats.
-/
theorem Db.Ganged.grouped {db : Db} (ganged : db.Ganged) {now : Time} {classes : List String}
    {gang : GangId} {size : Nat} {pool : Option String} {task : TaskRow}
    (present : task ∈ db.tasks) (grouped : Db.groupOf task = some (gang, size, pool))
    (full : (db.groupRows now classes (gang, size, pool)).length = size)
    : db.countTasks (fun other => other.inGang gang) = size
      ∧ ∀ other ∈ db.tasks, other.inGang gang →
          other.due now classes ∧ Db.groupOf other = some (gang, size, pool) := by
  obtain ⟨seat, seated, rfl, rfl, rfl⟩ := Db.groupOf_eq_some_iff.mp grouped
  have fits := ganged.fits _ task seat (Db.task?_of_mem present) seated
  have within : (db.groupRows now classes (seat.gang, seat.size, task.pool)).Sublist
      (db.tasks.select (fun other => other.inGang seat.gang)) := by
    refine List.monotone_filter_right _ ?_
    intro other met
    have met : other.due now classes ∧ _ := of_decide_eq_true met
    obtain ⟨place, placed, same, _⟩ := Db.groupOf_eq_some_iff.mp met.2
    exact decide_eq_true (TaskColumns.inGang_iff.mpr ⟨place, placed, same⟩)
  have counted : (db.tasks.select (fun other => other.inGang seat.gang)).length
      = db.countTasks (fun other => other.inGang seat.gang) :=
    List.countP_eq_length_filter.symm
  have all : db.groupRows now classes (seat.gang, seat.size, task.pool)
      = db.tasks.select (fun other => other.inGang seat.gang) :=
    within.eq_of_length_le (by rw [counted, full]; exact fits)
  refine ⟨?_, ?_⟩
  · rw [← counted, ← all]
    exact full
  · intro other there ofGang
    have among : other ∈ db.tasks.select (fun other => other.inGang seat.gang) :=
      Table.mem_select.mpr ⟨there, ofGang⟩
    rw [← all] at among
    exact (Table.mem_select.mp among).2

theorem Db.Ganged.claims_whole {db : Db} (ganged : db.Ganged) (env : Env) (now : Time)
    (worker : String) (capacity : Nat) (classes : List String) (caps : PoolBudget)
    : db.claimReadyGang env now worker capacity classes caps = (db, [])
      ∨ ∃ gang, db.TakesGang env now worker capacity classes caps gang := by
  by_cases small : capacity < 2
  · exact .inl (by simp only [Db.claimReadyGang, if_pos small])
  cases chosen : (db.gangCandidates now classes capacity).find? (db.seatsGang caps) with
  | none => exact .inl (by simp only [Db.claimReadyGang, if_neg small, chosen])
  | some group =>
      obtain ⟨gang, size, pool⟩ := group
      right
      have listed := (List.mem_insertionSort _).mp (List.mem_of_find?_eq_some chosen)
      obtain ⟨among, met⟩ := List.mem_filter.mp listed
      obtain ⟨full, roomy⟩ := of_decide_eq_true met
      obtain ⟨task, due, grouped⟩ := List.mem_filterMap.mp (List.mem_dedup.mp among)
      have present := (Table.mem_select.mp due).1
      obtain ⟨counted, every⟩ := ganged.grouped present grouped full
      have result : db.claimReadyGang env now worker capacity classes caps
          = (db.updateTasks (fun task => task.inGang gang ∧ task.status = .ready)
              (TaskRow.claim worker (now + seconds env.leaseSecs)),
            db.tasks.select (fun task => task.inGang gang ∧ task.status = .ready)) := by
        simp only [Db.claimReadyGang, if_neg small, chosen]
        rfl
      refine ⟨gang, ?_, ?_, ?_, ?_, ?_, ?_⟩
      · obtain ⟨seat, seated, same, _⟩ := Db.groupOf_eq_some_iff.mp grouped
        exact ⟨task, present, TaskColumns.inGang_iff.mpr ⟨seat, seated, same⟩⟩
      · exact fun other there ofGang => (every other there ofGang).1
      · intro other there seat seated same
        obtain ⟨_, seated', _, rfl, _⟩ := Db.groupOf_eq_some_iff.mp
          (every other there (TaskColumns.inGang_iff.mpr ⟨seat, seated, same⟩)).2
        cases seated.symm.trans seated'
        exact ⟨counted, roomy⟩
      · intro other there ofGang name cap ofPool capped
        obtain ⟨_, _, _, _, same⟩ := Db.groupOf_eq_some_iff.mp (every other there ofGang).2
        have seats : db.seatsGang caps (gang, size, pool) = true := List.find?_some chosen
        rw [Db.seatsGang, ← same, ofPool, db.left_poolBudget capped, Option.all_some,
          decide_eq_true_iff] at seats
        have some_ : 0 < db.countTasks (fun other => other.inGang gang) :=
          List.countP_pos_iff.mpr ⟨other, there, decide_eq_true ofGang⟩
        dsimp only at seats
        omega
      · intro id
        rw [result]
        have read := @Db.task?_updateTasks db (fun task => task.inGang gang ∧ task.status = .ready)
          _ (TaskRow.claim worker (now + seconds env.leaseSecs)) (fun _ => rfl) id
        refine read.trans (Option.map_congr ?_)
        intro other found
        by_cases ofGang : other.inGang gang
        · have ready := (every other (Table.mem_of_get? found) ofGang).1.1
          rw [if_pos ⟨ofGang, ready⟩, if_pos ofGang]
        · rw [if_neg (fun met => ofGang met.1), if_neg ofGang]
      · rw [result]
        refine List.filter_congr ?_
        intro other there
        refine decide_eq_decide.mpr ⟨fun met => met.1, fun ofGang => ⟨ofGang, ?_⟩⟩
        exact (every other there ofGang).1.1

-- What gives a task back

namespace Life

def Queued (life : Life) : Prop :=
  life.status = .pending ∨ life.status = .ready

def returning : List Move :=
  [.recover, .retry, .release, .requeue, .retryFromUi, .reset]

theorem Step.queued {move : Move} {life life' : Life} (step : Step move life life')
    (apart : move ∉ returning) (queued : life'.Queued)
    : life.Queued := by
  cases step with
  | count pending | recount pending | ready pending => exact .inl pending
  | renew | askStop | park | claimTeardown | clearStop | stamp | clearHandle => exact queued
  | recover | retry | release | requeue | retryFromUi | reset => simp [returning] at apart
  | resolve succeeded | finishBarrier succeeded | decide succeeded =>
      cases succeeded <;> rcases queued with queued | queued <;> cases queued
  | _ => rcases queued with queued | queued <;> cases queued

theorem Steps.queued {moves : List Move} {life life' : Life} (steps : Steps moves life life')
    (apart : ∀ move ∈ returning, move ∉ moves) (queued : life'.Queued)
    : life.Queued := by
  refine steps.rule (fun other => other.Queued → life.Queued) (fun queued => queued) ?_ queued
  intro move listed first second step kept queued
  exact kept (step.queued (fun among => apart move among listed) queued)

theorem Step.started {move : Move} {life life' : Life} (step : Step move life life')
    (claim : move ≠ .claim) (running : life'.status = .running)
    : life.status = .running ∨ life.columns.fanoutOf.isSome := by
  cases step with
  | claim => exact absurd rfl claim
  | parkBarrier _ _ barrier => exact .inr barrier
  | resolve succeeded | finishBarrier succeeded | decide succeeded =>
      cases succeeded <;> cases running
  | count | recount | renew | askStop | park | claimTeardown | clearStop | stamp | clearHandle =>
      exact .inl running
  | _ => cases running

theorem Steps.started {moves : List Move} {life life' : Life} (steps : Steps moves life life')
    (claim : .claim ∉ moves) (single : life.columns.fanoutOf = none)
    (running : life'.status = .running)
    : life.status = .running := by
  have kept : life'.columns = life.columns ∧ (life'.status = .running → life.status = .running) := by
    refine steps.rule (fun other => other.columns = life.columns
      ∧ (other.status = .running → life.status = .running)) ⟨rfl, fun was => was⟩ ?_
    intro move listed first second step kept
    obtain ⟨same, was⟩ := kept
    refine ⟨step.columns.trans same, ?_⟩
    intro running
    rcases step.started (fun here => claim (here ▸ listed)) running with running | fans
    · exact was running
    · rw [same, single] at fans
      cases fans
  exact kept.2 running

theorem Step.unheld {move : Move} {life life' : Life} (step : Step move life life')
    (unheld : life.Queued → life.claimedBy = none) (queued : life'.Queued)
    : life'.claimedBy = none := by
  cases step with
  | count | recount | renew | stamp | clearHandle | clearStop | askStop => exact unheld queued
  | ready pending => exact unheld (.inl pending)
  | claim | claimTeardown => rcases queued with queued | queued <;> simp_all
  | resolve succeeded | finishBarrier succeeded | decide succeeded =>
      cases succeeded <;> rcases queued with queued | queued <;> cases queued
  | ask | skip | failWhen => rcases queued with queued | queued <;> cases queued
  | _ => rfl

end Life

/-- What a transaction gives back: a task that it leaves queued was so before, or is among
some.
-/
def GivesBack (among : TaskRow → Prop) (before after : Db) : Prop :=
  ∀ id task task', before.task? id = some task → after.task? id = some task' →
    task'.life.Queued → task.life.Queued ∨ among task

namespace GivesBack

variable {among : TaskRow → Prop} {first second third : Db}

theorem of_evolves {moves : List Move} (evolves : Evolves moves first second)
    (apart : ∀ move ∈ Life.returning, move ∉ moves)
    : GivesBack among first second :=
  fun _ _ _ was is queued => .inl ((evolves.kept was is).queued apart queued)

theorem update {db : Db} {cond : TaskRow → Prop} [DecidablePred cond] {set : TaskRow → TaskRow}
    {keeps : ∀ row, (set row).toTaskColumns = row.toTaskColumns}
    (met : ∀ task, cond task → (set task).life.Queued → task.life.Queued ∨ among task)
    : GivesBack among db (db.updateTasks cond set keeps) := by
  intro id task task' was is queued
  rw [Db.task?_updated was] at is
  cases is
  split at queued
  case isTrue admitted => exact met task admitted queued
  case isFalse => exact .inl queued

theorem then_moves {moves : List Move} (before : GivesBack among first second)
    (after : Moves moves second third) (apart : ∀ move ∈ Life.returning, move ∉ moves)
    : GivesBack among first third := by
  intro id task task' was is queued
  obtain ⟨middle, found, steps⟩ := after.of_some is
  exact before id task middle was found (steps.queued apart queued)

theorem after_same {moves : List Move}
    (same : ∀ {id task}, second.task? id = some task → first.task? id = some task)
    (steps : Moves moves second third) (after : GivesBack among second third)
    : GivesBack among first third := by
  intro id task task' was is queued
  obtain ⟨middle, found, _⟩ := steps.of_some is
  cases (same found).symm.trans was
  exact after id task task' found is queued

end GivesBack

-- Operations that give tasks back

/-- A running task whose worker's lease has run out, and that nobody asked to stop. -/
def TaskRow.lapsed (now : Time) (task : TaskRow) : Prop :=
  task.status = .running ∧ task.leaseExpiresAt.any (fun lease => lease < now)
    ∧ task.stopRequestedAt.isNone ∧ task.sessionId.isNone

instance (now : Time) : DecidablePred (TaskRow.lapsed now) := fun task => by
  unfold TaskRow.lapsed
  infer_instance

/-- The tasks that an operation may give back, as its statement's own guard has them. -/
def Op.returns (db : Db) : Op → TaskRow → Prop
  | .recoverExpiredLeases now, task => task.lapsed now
  | .retryTask _ id worker fence .., task => task.id = id ∧ task.heldBy worker fence
  | .requeueQuotaWait _ id worker fence .., task => task.id = id ∧ task.heldBy worker fence
  | .park ticket .release, task => task.id = ticket.task ∧ task.parkable ticket.fence
  | .reconcileSubworkflows _, task => task.status = .running ∧ task.subRunId.isSome
  | .retryTaskFromUi _ id _, task =>
      task.id = id ∧ (task.status = .failed ∨ task.status = .cancelled)
  | .rerunFromFailed _ run .., task => Db.rerunnable run task
  | .rerunAll _ run _, task => task.runId = run ∧ task.status.terminal
  | .clearTaskWithDownstream _ _ id _, task =>
      task.id ∈ Db.downstream db.deps.rows db.tasks.rows.length [id] ∧ task.status.terminal
  | _, _ => False

instance (db : Db) (op : Op) : DecidablePred (op.returns db) := fun task => by
  induction op using Op.casesOn
  case park ticket parking =>
    induction parking using Parking.casesOn <;> dsimp only [Op.returns] <;> infer_instance
  all_goals dsimp only [Op.returns]; infer_instance

section Writes

variable {env : Env} {op : Op} {start before after : Db}

theorem givesBack_park (ticket : Ticket) (parking : Parking) (db : Db)
    : GivesBack (Op.returns db (.park ticket parking)) db (db.park ticket parking) := by
  cases parking <;>
    simp only [Db.park, Db.parkSubworkflow, Db.releaseSubworkflowTask, Db.parkWait, Db.parkWaitUrl,
      Db.parkWaitDataset, Db.parkExternal]
  case release => exact .update (fun task met _ => .inr met)
  all_goals exact .update (fun task met queued => .inl queued)

theorem givesBack_reconcileSubworkflow (now : Time) (parked : Db.EndedChild) (db : Db)
    : GivesBack (Op.returns start (.reconcileSubworkflows now)) db
      (db.reconcileSubworkflow env now parked) := by
  have resolved (succeeded : Bool) : GivesBack (Op.returns start (.reconcileSubworkflows now)) db
      (db.resolveSubworkflow now parked.task parked.child succeeded) := by
    refine .of_evolves (moves_resolveSubworkflow now db _ _ _).evolves ?_
    cases succeeded <;> decide
  simp only [Db.reconcileSubworkflow]
  split
  · exact resolved _
  split
  · exact resolved true
  · unfold Db.requeueParkedSubworkflow Db.updateRunning
    refine .update ?_
    rintro task ⟨_, running, child⟩ _
    exact .inr ⟨running, by simp [child]⟩
  · exact .of_evolves (moves_failParkedSubworkflow now db _ _ _).evolves (by decide)

theorem GivesBack.refl {among : TaskRow → Prop} (db : Db)
    : GivesBack among db db := by
  intro id task task' was is queued
  cases was.symm.trans is
  exact .inl queued

theorem GivesBack.resets {among : TaskRow → Prop} {now : Time} {who : Option String} {db after : Db}
    {cond : TaskRow → Prop} [DecidablePred cond] {run : Nat} {settled : TaskStatus → Bool}
    (met : ∀ task, cond task → among task)
    (tasks : after.tasks = ((db.updateTasks cond (TaskRow.reset now who)).recount run settled).tasks)
    : GivesBack among db after := by
  have counted
      : Moves [.recount] (db.updateTasks cond (TaskRow.reset now who))
        ((db.updateTasks cond (TaskRow.reset now who)).recount run settled) :=
    moves_recount _ run settled (by decide)
  exact .then_moves (.update (fun task cond _ => .inr (met task cond)))
    (counted.trans (.of_tasks_eq tasks)) (by decide)

theorem Writes.givesBack (writes : Writes env start op before after)
    : GivesBack (op.returns before) before after := by
  cases op with
  | recoverExpiredLeases now =>
      obtain ⟨rfl, rfl⟩ := writes.single rfl
      unfold Db.recoverExpiredLeases
      exact .update (fun task met _ => .inr met)
  | retryTask now id worker fence error retryAt =>
      obtain ⟨rfl, rfl⟩ := writes.single rfl
      simp only [Db.retryTask]
      split
      · have settles : Moves [.settle] before (before.settleStoppedTask now id worker fence) :=
          moves_settleStoppedTask now _ id worker fence (by decide)
        exact .of_evolves settles.evolves (by decide)
      · dsimp only
        exact .update (fun task met _ => .inr met)
  | requeueQuotaWait now id worker fence detail maxWaitSecs jitterPermille =>
      obtain ⟨rfl, rfl⟩ := writes.single rfl
      simp only [Db.requeueQuotaWait]
      split
      · have settles : Moves [.settle] before (before.settleStoppedTask now id worker fence) :=
          moves_settleStoppedTask now _ id worker fence (by decide)
        exact .of_evolves settles.evolves (by decide)
      split
      · exact .refl _
      · dsimp only
        exact .update (fun task met _ => .inr ⟨met.1, met.2.1⟩)
  | park ticket parking =>
      obtain ⟨rfl, rfl⟩ := writes.single rfl
      exact givesBack_park ticket parking _
  | reconcileSubworkflows now =>
      obtain ⟨parked, _, rfl⟩ := writes.item rfl
      exact givesBack_reconcileSubworkflow now parked _
  | retryTaskFromUi now id who =>
      obtain ⟨rfl, done⟩ := writes.returns rfl
      rcases retryTaskFromUi_ok now done with rfl | ⟨task, retried, _, _, rfl, armed⟩
      · exact .refl _
      · have kept : Moves [] _ after := .of_tasks_eq armed.tasks
        exact .then_moves (.update (fun task met _ => .inr met)) kept (by simp)
  | rerunFromFailed now run origin who =>
      obtain ⟨rfl, done⟩ := writes.returns rfl
      rcases rerunFromFailed_ok now done with rfl | ⟨armed, rearmed, tasks, _⟩
      · exact .refl _
      · have same {id : Nat} : armed.task? id = before.task? id := by
          unfold Db.task?
          rw [rearmed.tasks]
        have steps : Moves [.reset, .recount] armed after :=
          (Moves.of_tasks_eq rearmed.tasks.symm).trans (moves_rerunFromFailed now done)
        exact .after_same (fun found => same ▸ found) steps (.resets (fun task met => met) tasks)
  | rerunAll now run who =>
      obtain ⟨rfl, done⟩ := writes.returns rfl
      rcases rerunAll_ok now done with rfl | ⟨armed, rearmed, tasks, _⟩
      · exact .refl _
      · refine .after_same ?_ (moves_dropped now tasks) (.resets ?_ tasks)
        · intro id task found
          have left : (armed.dropInstances run).task? id
              = (armed.task? id).filter (fun task => ¬ Db.instanceOf run task) := Table.get?_delete id
          rw [left] at found
          have was := (Option.filter_eq_some_iff.mp found).1
          unfold Db.task? at was ⊢
          rwa [rearmed.tasks] at was
        · rintro task ⟨ofRun, _, ended⟩
          exact ⟨ofRun, ended⟩
  | clearTaskWithDownstream now run id who =>
      obtain ⟨rfl, done⟩ := writes.returns rfl
      rcases clearTaskWithDownstream_ok now done with rfl | ⟨counted, _, rfl, armed⟩
      · exact .refl _
      · exact .resets (fun task met => met) armed.tasks
  | _ =>
      exact .of_evolves writes.evolves
        (by simp [Op.moves, readinessMoves, fanoutMoves, Life.returning])

end Writes

-- Every reachable store

/-- What holds of gangs in every state of the store: their rows are written once and stay within
their seats, no fan-out is in one, and nobody holds a task that is queued.
-/
structure Db.Gathered (db : Db) : Prop where
  sited
    : db.Sited
  ganged
    : db.Ganged
  plain
    : ∀ id task, db.task? id = some task → task.life.columns.Plain
  unheld
    : ∀ id task, db.task? id = some task → task.life.Queued → task.life.claimedBy = none

theorem Db.Gathered.empty
    : Db.empty.Gathered where
  sited := Db.Coherent.empty.sited
  ganged := .empty
  plain _ _ found := by cases found
  unheld _ _ found := by cases found

section Reached

variable {env : Env} {op : Op} {start before after : Db} {world : World}

theorem Writes.gathered (writes : Writes env start op before after) (gathered : before.Gathered)
    : after.Gathered where
  sited := writes.sited gathered.sited
  ganged := writes.ganged gathered.sited gathered.ganged
  plain := by
    refine writes.evolves.rule (fun life => life.columns.Plain) (fun _ fresh => fresh.plain) ?_
      gathered.plain
    intro move _ life life' step plain
    rw [step.columns]
    exact plain
  unheld := by
    refine writes.evolves.rule (fun life => life.Queued → life.claimedBy = none)
      (fun _ fresh _ => fresh.claimedBy) ?_ gathered.unheld
    intro move _ life life' step unheld queued
    exact step.unheld unheld queued

theorem gathered_of_reachable {allowed : Op → World → Prop}
    (reachable : (store env).Reachable allowed world)
    : world.db.Gathered := by
  refine @System.Reachable.invariant _ _ _ _ (fun world => world.db.Gathered) _ reachable .empty ?_
  intro op origin _ commit member gathered _
  exact (writes_of_mem member).gathered gathered

end Reached

-- Split gangs

def TaskRow.sharesGang (task other : TaskRow) : Prop :=
  task.gang.isSome ∧ other.gang.map GangSeat.gang = task.gang.map GangSeat.gang

instance (task other : TaskRow) : Decidable (task.sharesGang other) := by
  unfold TaskRow.sharesGang
  infer_instance

theorem TaskRow.sharesGang_iff {task other : TaskRow}
    : task.sharesGang other ↔ ∃ gang, task.inGang gang ∧ other.inGang gang := by
  simp only [TaskRow.sharesGang, TaskColumns.inGang_iff]
  refine ⟨?_, ?_⟩
  · rintro ⟨some_, same⟩
    obtain ⟨seat, seated⟩ := Option.isSome_iff_exists.mp some_
    rw [seated, Option.map_some, Option.map_eq_some_iff] at same
    obtain ⟨place, placed, same⟩ := same
    exact ⟨seat.gang, ⟨seat, seated, rfl⟩, place, placed, same⟩
  · rintro ⟨gang, ⟨seat, seated, rfl⟩, place, placed, same⟩
    simp [seated, placed, same]

/-- A gang is split where one member runs and another is ready. -/
def Db.Split (db : Db) : Prop :=
  ∃ member ∈ db.tasks.rows, member.status = .running
    ∧ ∃ other ∈ db.tasks.rows, other.status = .ready ∧ member.sharesGang other

instance (db : Db) : Decidable db.Split := by
  unfold Db.Split
  infer_instance

/-- No member of a gang runs while another is queued, or waits to be. -/
def Db.Undivided (db : Db) : Prop :=
  ∀ gang, ∀ member ∈ db.tasks, ∀ other ∈ db.tasks, member.inGang gang → other.inGang gang →
    member.status = .running → ¬ other.life.Queued

/-- An operation leaves gangs together, as the state it starts in has it: it claims no member by
itself, and gives back no member while another runs that it does not give back too.
-/
def Op.keepsTogether (db : Db) : Op → Prop
  | .claimReady _ _ _ _ _ excludeGangs => excludeGangs = true
  | .recoverExpiredLeases now =>
      ∀ task ∈ db.tasks.rows, task.lapsed now → ∀ other ∈ db.tasks.rows, task.sharesGang other →
        other.status = .running → other.lapsed now
  | op =>
      ∀ task ∈ db.tasks.rows, op.returns db task → ∀ other ∈ db.tasks.rows, task.sharesGang other →
        other.status = .running → other.id = task.id

instance (db : Db) (op : Op) : Decidable (op.keepsTogether db) := by
  induction op using Op.casesOn <;> dsimp only [Op.keepsTogether] <;> infer_instance

theorem Db.task?_claimEach {worker : String} {lease : Time} {candidates : List TaskRow}
    {budget : PoolBudget} {db : Db} {id : Nat}
    (apart : ∀ candidate ∈ candidates, candidate.id ≠ id)
    : (db.claimEach worker lease candidates budget).1.task? id = db.task? id := by
  induction candidates generalizing budget db with
  | nil => rfl
  | cons candidate rest ih =>
      have later := fun other among => apart other (List.mem_cons_of_mem _ among)
      unfold Db.claimEach
      split
      · exact ih later
      split
      · exact ih later
      · refine (ih later).trans ?_
        rw [Db.task?_claimTask]
        cases found : db.task? id with
        | none => rfl
        | some task =>
            have other : task.id ≠ candidate.id := fun same =>
              apart candidate List.mem_cons_self (same.symm.trans (Db.id_of_task? found))
            rw [Option.map_some, if_neg (fun met => other met.1)]

theorem Db.task?_claimReady_gang {env : Env} {now : Time} {worker : String} {limit : Nat}
    {classes : List String} {caps : PoolBudget} {db : Db} {id : Nat} {task : TaskRow}
    (found : db.task? id = some task) (member : task.gang.isSome)
    : (db.claimReadyFiltered env now worker limit classes caps true).1.task? id
      = some task := by
  refine (Db.task?_claimEach ?_).trans found
  rintro candidate among rfl
  have among := (List.mem_insertionSort _).mp (List.mem_of_mem_take among)
  obtain ⟨present, _, _, alone⟩ := Table.mem_select.mp among
  cases found.symm.trans (Db.task?_of_mem present)
  rcases alone with off | alone
  · cases off
  · rw [Option.isNone_iff_eq_none.mp alone] at member
    cases member

section Undivided

variable {env : Env} {op : Op} {start before after : Db} {world : World}

theorem TaskColumns.inGang.unique {columns : TaskColumns} {first second : GangId}
    (here : columns.inGang first) (there : columns.inGang second)
    : first = second := by
  obtain ⟨seat, seated, rfl⟩ := TaskColumns.inGang_iff.mp here
  obtain ⟨place, placed, rfl⟩ := TaskColumns.inGang_iff.mp there
  cases seated.symm.trans placed
  rfl

/-- Two members of a gang, one of which runs, were there before, unless the run is new: its rows
wait.
-/
theorem Writes.members (writes : Writes env start op before after) (gathered : before.Gathered)
    {gang : GangId} {member' other' : TaskRow} (is : after.task? member'.id = some member')
    (is' : after.task? other'.id = some other') (ofGang : member'.inGang gang)
    (ofGang' : other'.inGang gang) (running : member'.status = .running)
    : (∃ member, before.task? member'.id = some member ∧ member.inGang gang)
      ∧ ∃ other, before.task? other'.id = some other ∧ other.inGang gang := by
  rcases writes.inGang is ofGang with ⟨member, was, same⟩ | ⟨_, _, _, _, _, _, _, _, _, rfl⟩
  · rcases writes.inGang is' ofGang' with ⟨other, was', same'⟩ | ⟨_, submission, _, _, _, vacant,
        _, _, _, rfl⟩
    · exact ⟨⟨member, was, same ▸ ofGang⟩, other, was', same' ▸ ofGang'⟩
    · have home := gathered.sited.homes _ member was
      rw [show member.runId = submission.run from
        (congrArg TaskColumns.runId same).symm.trans (ofGang.run.symm.trans ofGang'.run),
        vacant] at home
      cases home
  · cases running

theorem Writes.claims_together (writes : Writes env start op before after)
    (gathered : before.Gathered) (together : op.keepsTogether before) (claims : .claim ∈ op.moves)
    {gang : GangId} {id id' : Nat} {member member' other other' : TaskRow}
    (was : before.task? id = some member) (is : after.task? id = some member')
    (was' : before.task? id' = some other) (is' : after.task? id' = some other')
    (ofGang : member.inGang gang) (ofGang' : other.inGang gang)
    (idle : member.status ≠ .running) (running : member'.status = .running)
    : ¬ other'.life.Queued := by
  have kept (same : member' = member) : ¬ other'.life.Queued :=
    absurd (same ▸ running) idle
  cases op with
  | claimReady now worker limit classes caps excludeGangs =>
      obtain ⟨rfl, rfl⟩ := writes.single rfl
      obtain rfl : excludeGangs = true := together
      obtain ⟨seat, seated, _⟩ := TaskColumns.inGang_iff.mp ofGang
      rw [Db.task?_claimReady_gang was (by simp [seated])] at is
      exact kept (Option.some.inj is).symm
  | claimReadyGang now worker capacity classes caps =>
      obtain ⟨rfl, rfl⟩ := writes.single rfl
      rcases gathered.ganged.claims_whole env now worker capacity classes caps with same |
          ⟨taken, whole⟩
      · rw [same] at is
        exact kept (Option.some.inj (is.symm.trans was))
      · rw [whole.moved, was, Option.map_some] at is
        split at is
        case isFalse => exact kept (Option.some.inj is).symm
        case isTrue ofTaken =>
          cases ofGang.unique ofTaken
          rw [whole.moved, was', Option.map_some, if_pos ofGang'] at is'
          cases is'
          rintro (queued | queued) <;> cases queued
  | _ => simp [Op.moves, readinessMoves, fanoutMoves] at claims

theorem Writes.returns_together (writes : Writes env start op before after)
    (together : op.keepsTogether before) (undivided : before.Undivided)
    {gang : GangId} {id id' : Nat} {member member' other other' : TaskRow}
    (was : before.task? id = some member) (is : after.task? id = some member')
    (was' : before.task? id' = some other) (is' : after.task? id' = some other')
    (ofGang : member.inGang gang) (ofGang' : other.inGang gang)
    (ran : member.status = .running) (running : member'.status = .running)
    : ¬ other'.life.Queued := by
  intro queued
  have present := Table.mem_of_get? was
  have present' := Table.mem_of_get? was'
  have shares : other.sharesGang member := TaskRow.sharesGang_iff.mpr ⟨gang, ofGang', ofGang⟩
  have idle := undivided gang member present other present' ofGang ofGang' ran
  have returned := (writes.givesBack id' other other' was' is' queued).resolve_left idle
  have apart : member.id ≠ other.id := by
    intro same
    rw [Db.id_of_task? was, Db.id_of_task? was'] at same
    subst same
    cases is.symm.trans is'
    rcases queued with pending | ready
    · cases running.symm.trans pending
    · cases running.symm.trans ready
  cases op with
  | claimReady => exact returned
  | recoverExpiredLeases now =>
      obtain ⟨rfl, rfl⟩ := writes.single rfl
      have lapsed : member.lapsed now := together other present' returned member present shares ran
      unfold Db.recoverExpiredLeases at is
      rw [Db.task?_updated was] at is
      split at is
      case isTrue =>
        cases is
        cases running
      case isFalse unmet => exact unmet lapsed
  | _ => exact apart (together other present' returned member present shares ran)

theorem Writes.undivided (writes : Writes env start op before after) (gathered : before.Gathered)
    (together : op.keepsTogether before) (undivided : before.Undivided)
    : after.Undivided := by
  intro gang member' present other' present' ofGang ofGang' running
  have is := Db.task?_of_mem present
  have is' := Db.task?_of_mem present'
  obtain ⟨⟨member, was, seated⟩, other, was', seated'⟩ :=
    writes.members gathered is is' ofGang ofGang' running
  by_cases ran : member.status = .running
  · exact writes.returns_together together undivided was is was' is' seated seated' ran running
  by_cases claims : .claim ∈ op.moves
  · exact writes.claims_together gathered together claims was is was' is' seated seated' ran running
  · have single : member.life.columns.fanoutOf = none := by
      by_contra fans
      have alone := ((gathered.plain _ member was).fanout (Option.isSome_iff_ne_none.mpr fans)).2
      obtain ⟨seat, placed, _⟩ := TaskColumns.inGang_iff.mp seated
      rw [show member.gang = none from alone] at placed
      cases placed
    exact absurd ((writes.evolves.kept was is).started claims single running) ran

end Undivided

-- Gangs left split for ever

/-- What workers and their engines do while each lives and no task fails: claims, by which no
member of a gang is taken by itself, heartbeats, results, and the readiness sweep.
-/
def Op.works : Op → Prop
  | .claimReady _ _ _ _ _ excludeGangs => excludeGangs = true
  | .claimReadyGang .. | .renewTaskLease .. | .markTaskSucceeded .. | .advanceReadyTasks .. => True
  | _ => False

/-- A gang is stranded: a member runs, and another is ready and stays so for ever, whatever
workers claim.
-/
def World.Strands (env : Env) (world : World) : Prop :=
  ∃ member ∈ world.db.tasks, member.status = .running
    ∧ ∃ other ∈ world.db.tasks, other.status = .ready ∧ member.sharesGang other
      ∧ ∀ commits later, (store env).History (fun op _ => op.works) world commits later →
          ∃ task, later.db.task? other.id = some task ∧ task.status = .ready

namespace Life

theorem Steps.waits {moves : List Move} {life life' : Life} (steps : Steps moves life life')
    (apart : ∀ move ∈ moves, move ∈ [Move.renew, .succeed, .count, .ready, .settle]
      ∨ move ∈ readinessMoves)
    (waits : life.status = .ready ∧ life.claimedBy = none)
    : life'.status = .ready ∧ life'.claimedBy = none := by
  refine steps.rule (fun other => other.status = .ready ∧ other.claimedBy = none) waits ?_
  intro move listed first second step kept
  obtain ⟨ready, free⟩ := kept
  cases step with
  | renew held | succeed held => simp [free] at held
  | count pending | ready pending | parkBarrier pending | ask pending | skip pending
  | failWhen pending => cases ready.symm.trans pending
  | settle running => cases ready.symm.trans running
  | _ => rcases apart _ listed with among | among <;> simp [readinessMoves] at among

end Life

section Strands

variable {env : Env} {op : Op} {start before after : Db} {world : World}

/-- A gang is stuck: a member has started, and another is ready. -/
structure Db.Stuck (gang : GangId) (member other : Nat) (db : Db) : Prop where
  gathered
    : db.Gathered
  started
    : ∃ task, db.task? member = some task ∧ task.inGang gang ∧ ¬ task.life.Queued
  waiting
    : ∃ task, db.task? other = some task ∧ task.inGang gang ∧ task.status = .ready

section Stuck

variable {gang : GangId} {member other : Nat}

theorem Db.Stuck.of_same (stuck : before.Stuck gang member other) (gathered : after.Gathered)
    (same : ∀ id task, before.task? id = some task → task.inGang gang → after.task? id = some task)
    : after.Stuck gang member other := by
  obtain ⟨_, ⟨task, was, ofGang, started⟩, on, was', ofGang', ready⟩ := stuck
  exact ⟨gathered, ⟨task, same member task was ofGang, ofGang, started⟩, on,
    same other on was' ofGang', ofGang', ready⟩

theorem Db.Stuck.of_moves {moves : List Move} (stuck : before.Stuck gang member other)
    (gathered : after.Gathered) (steps : Moves moves before after)
    (apart : ∀ move ∈ moves, move ∈ [Move.renew, .succeed, .count, .ready, .settle]
      ∨ move ∈ readinessMoves)
    : after.Stuck gang member other := by
  have kept {id : Nat} {task : TaskRow} (was : before.task? id = some task)
      : ∃ task', after.task? id = some task' ∧ Life.Steps moves task.life task'.life := by
    have change := steps id
    rw [was] at change
    cases is : after.task? id with
    | none =>
        rw [is] at change
        cases change
    | some task' =>
        rw [is] at change
        cases change with
        | some steps => exact ⟨task', rfl, steps⟩
  obtain ⟨before_, ⟨task, was, ofGang, started⟩, on, was', ofGang', ready⟩ := stuck
  obtain ⟨task', is, life⟩ := kept was
  obtain ⟨on', is', life'⟩ := kept was'
  have same : task'.toTaskColumns = task.toTaskColumns := life.columns.1
  have same' : on'.toTaskColumns = on.toTaskColumns := life'.columns.1
  refine ⟨gathered, ⟨task', is, same ▸ ofGang, ?_⟩, on', is', same' ▸ ofGang', ?_⟩
  · intro queued
    refine started (life.queued ?_ queued)
    intro move returns listed
    have among := apart move listed
    simp only [Life.returning, List.mem_cons, List.not_mem_nil, or_false] at returns
    rcases returns with rfl | rfl | rfl | rfl | rfl | rfl <;>
      simp [readinessMoves] at among
  · have free := before_.unheld other on was' (.inr ready)
    exact (life'.waits apart ⟨ready, free⟩).1

theorem Writes.stuck (writes : Writes env start op before after) (works : op.works)
    (stuck : before.Stuck gang member other)
    : after.Stuck gang member other := by
  have gathered := writes.gathered stuck.gathered
  cases op with
  | claimReady now worker limit classes caps excludeGangs =>
      obtain ⟨rfl, rfl⟩ := writes.single rfl
      obtain rfl : excludeGangs = true := works
      refine stuck.of_same gathered ?_
      intro id task was ofGang
      obtain ⟨seat, seated, _⟩ := TaskColumns.inGang_iff.mp ofGang
      exact Db.task?_claimReady_gang was (by simp [seated])
  | claimReadyGang now worker capacity classes caps =>
      obtain ⟨rfl, rfl⟩ := writes.single rfl
      refine stuck.of_same gathered ?_
      intro id task was ofGang
      rcases stuck.gathered.ganged.claims_whole env now worker capacity classes caps with same |
          ⟨taken, whole⟩
      · rw [same]
        exact was
      · rw [whole.moved, was, Option.map_some]
        refine congrArg some (if_neg ?_)
        intro ofTaken
        cases ofGang.unique ofTaken
        obtain ⟨first, found, ofGang, started⟩ := stuck.started
        exact started (.inr (whole.due first (Table.mem_of_get? found) ofGang).1)
  | renewTaskLease | markTaskSucceeded =>
      exact stuck.of_moves gathered (writes.moves rfl) (by simp [Op.moves])
  | advanceReadyTasks => exact stuck.of_moves gathered (writes.moves rfl) (fun _ => .inr)
  | _ => cases works

end Stuck

theorem World.strands_iff_split (gathered : world.db.Gathered)
    : world.Strands env ↔ world.db.Split := by
  refine ⟨?_, ?_⟩
  · rintro ⟨member, present, running, other, present', ready, shares, _⟩
    exact ⟨member, present, running, other, present', ready, shares⟩
  · rintro ⟨member, present, running, other, present', ready, shares⟩
    obtain ⟨gang, ofGang, ofGang'⟩ := TaskRow.sharesGang_iff.mp shares
    refine ⟨member, present, running, other, present', ready, shares, ?_⟩
    intro commits later history
    have started : ¬ member.life.Queued := by
      rintro (pending | queued)
      · cases running.symm.trans pending
      · cases running.symm.trans queued
    have stuck : world.db.Stuck gang member.id other.id :=
      ⟨gathered, ⟨member, Db.task?_of_mem present, ofGang, started⟩, other,
        Db.task?_of_mem present', ofGang', ready⟩
    have whole : later.db.Stuck gang member.id other.id
        ∧ ∀ commit ∈ commits, commit.before.db.Stuck gang member.id other.id
          ∧ commit.after.db.Stuck gang member.id other.id ∧ True := by
      refine @System.History.rule _ _ _ _ (fun world => world.db.Stuck gang member.id other.id)
        (fun _ => True) _ _ _ history stuck ?_
      intro op origin _ commit among stuck works
      exact ⟨(writes_of_mem among).stuck works stuck, trivial⟩
    obtain ⟨task, found, _, ready⟩ := whole.1.waiting
    exact ⟨task, found, ready⟩

end Strands

-- Gangs over whole runs

/-- Whatever is asked of it, a claim of a gang takes one gang whole, or changes nothing. -/
def World.ClaimsWhole (env : Env) (world : World) : Prop :=
  ∀ now worker capacity classes caps,
    world.db.claimReadyGang env now worker capacity classes caps = (world.db, [])
      ∨ ∃ gang, world.db.TakesGang env now worker capacity classes caps gang

/-- In every reachable state a claim takes one gang whole or nothing, and no gang is stranded in
any state reached by operations that keep gangs together.
-/
theorem gangs_whole_and_unstranded {env : Env}
    : (∀ world, (store env).Reachable (fun _ _ => True) world → world.ClaimsWhole env)
      ∧ ∀ world, (store env).Reachable (fun op world => op.keepsTogether world.db) world →
          ¬ world.Strands env := by
  refine ⟨?_, ?_⟩
  · intro world reachable now worker capacity classes caps
    exact (gathered_of_reachable reachable).ganged.claims_whole env now worker capacity classes caps
  · intro world reachable strands
    let Inv (world : World) : Prop := world.db.Gathered ∧ world.db.Undivided
    have initial : Inv World.init := ⟨.empty, fun _ _ present => by cases present⟩
    obtain ⟨gathered, undivided⟩ : Inv world := by
      refine @System.Reachable.invariant _ _ _ _ Inv _ reachable initial ?_
      intro op origin _ commit member before together
      have writes := writes_of_mem member
      exact ⟨writes.gathered before.1, writes.undivided before.1 together before.2⟩
    obtain ⟨member, present, running, other, present', ready, shares⟩ :=
      (World.strands_iff_split gathered).mp strands
    obtain ⟨gang, ofGang, ofGang'⟩ := TaskRow.sharesGang_iff.mp shares
    exact undivided gang member present other present' ofGang ofGang' running (.inr ready)

/-- A gang of two is claimed whole, and given back whole when its worker is gone. -/
def gangRecovered : List Op :=
  [.createRun 0 (submit gangReport 0), .advanceReadyTasks 1, .claimReadyGang 2 "worker" 2 [] [],
    .recoverExpiredLeases (seconds 60)]

/-- A gang that is given back whole is not stranded. -/
theorem gangs_whole_and_unstranded_gangRecovered
    : ((store plainEnv).outcome .init gangRecovered).ClaimsWhole plainEnv
      ∧ ¬ ((store plainEnv).outcome .init gangRecovered).Strands plainEnv := by
  have whole := @gangs_whole_and_unstranded plainEnv
  exact ⟨whole.1 _ (.outcome (by decide)), whole.2 _ (.outcome (by decide))⟩

/-- A gang of two is claimed whole, and the lease of one member runs out while the other's is
renewed.
-/
def gangSplit : List Op :=
  [.createRun 0 (submit gangReport 0), .advanceReadyTasks 1, .claimReadyGang 2 "worker" 2 [] [],
    .renewTaskLease (seconds 20) 0 "worker" 1 30, .recoverExpiredLeases (seconds 40)]

/-- Gangs are stranded in some reachable states: a lease that ran out is given back alone. -/
theorem not_gangs_unstranded
    : ¬ ∀ world, (store plainEnv).Reachable (fun _ _ => True) world →
        world.ClaimsWhole plainEnv ∧ ¬ world.Strands plainEnv := by
  intro whole
  have reached : (store plainEnv).Reachable (fun _ _ => True)
      ((store plainEnv).outcome .init gangSplit) := .outcome (by decide)
  refine (whole _ reached).2 ((World.strands_iff_split (gathered_of_reachable reached)).mpr ?_)
  decide

end Dagron.Store
