import Dagron.Store.Order

/-! Rows that are no work: the barrier of a fan-out and an approval gate are never queued and
never claimed, and what makes them succeed.
-/

namespace Dagron.Store

open Dagron.Library Dagron.Spec

-- Lives that nobody works on

def TaskColumns.Marker (columns : TaskColumns) : Prop :=
  columns.fanoutOf.isSome ∨ columns.isApproval = true

/-- What holds of a row that is no work: nobody has it or had it, and it runs only as a barrier
that is parked.
-/
structure Life.Unworked (life : Life) : Prop where
  plain
    : life.columns.Plain
  unclaimed
    : life.claimedBy = none
  unleased
    : life.leased = false
  unasked
    : life.stopAsked = false
  unparked
    : life.parks = 0
  unqueued
    : life.status ≠ .ready
  barrier
    : life.status = .running → life.columns.fanoutOf.isSome
  gate
    : life.status = .awaitingApproval → life.columns.isApproval = true

namespace Life

/-- The moves that put a row in the queue without asking what it is. -/
def worked : List Move :=
  [.park, .release, .retryFromUi]

theorem Fresh.unworked {life : Life} (fresh : life.Fresh) (marker : life.columns.Marker)
    : life.Unworked := by
  rcases fresh.start with ⟨pending, _⟩ | ⟨_, _, fanout, approval, _⟩
  · exact ⟨fresh.plain, fresh.claimedBy, fresh.leased, fresh.stopAsked, fresh.parks,
      by simp [pending], by simp [pending], by simp [pending]⟩
  · rcases marker with fans | gates
    · simp [fanout] at fans
    · simp [approval] at gates

theorem Step.unworked {move : Move} {life life' : Life} (step : Step move life life')
    (marker : life.columns.Marker) (apart : move ∉ worked) (unworked : life.Unworked)
    : life'.Unworked := by
  obtain ⟨plain, unclaimed, unleased, unasked, unparked, unqueued, barrier, gate⟩ := unworked
  cases step with
  | count | recount | stamp =>
      exact ⟨plain, unclaimed, unleased, unasked, unparked, unqueued, barrier, gate⟩
  | clearStop => exact ⟨plain, unclaimed, unleased, rfl, unparked, unqueued, barrier, gate⟩
  | clearHandle parks fewer =>
      refine ⟨plain, unclaimed, unleased, unasked, ?_, unqueued, barrier, gate⟩
      dsimp only
      omega
  | ready _ _ command =>
      rcases marker with fans | gates
      · simp [command.1] at fans
      · simp [command.2] at gates
  | parkBarrier _ _ fans =>
      exact ⟨plain, rfl, rfl, unasked, unparked, nofun, fun _ => fans, nofun⟩
  | ask _ _ gates =>
      exact ⟨plain, unclaimed, unleased, unasked, unparked, nofun, nofun, fun _ => gates.2⟩
  | skip | failWhen =>
      exact ⟨plain, unclaimed, unleased, unasked, unparked, nofun, nofun, nofun⟩
  | finishBarrier succeeded | decide succeeded =>
      refine ⟨plain, unclaimed, unleased, unasked, unparked, ?_, ?_, ?_⟩ <;>
        cases succeeded <;> nofun
  | cancel => exact ⟨plain, rfl, rfl, unasked, unparked, nofun, nofun, nofun⟩
  | reset => exact ⟨plain, rfl, rfl, unasked, rfl, nofun, nofun, nofun⟩
  | claim ready => exact absurd ready unqueued
  | renew held | succeed held | fail held | retry held | askStop _ held | settle _ held =>
      simp [unclaimed] at held
  | recover _ leased => simp [unleased] at leased
  | resolve _ _ parked => omega
  | requeue _ parks one => omega
  | claimTeardown _ asked => simp [unasked] at asked
  | park | release | retryFromUi => simp [worked] at apart

theorem Step.succeeds {move : Move} {life life' : Life} (step : Step move life life')
    (unworked : life.Unworked) (ended : life.status ≠ .succeeded)
    (succeeded : life'.status = .succeeded)
    : (move = .finishBarrier true ∧ life.columns.fanoutOf.isSome)
      ∨ (move = .decide true ∧ life.columns.isApproval = true) := by
  cases step with
  | finishBarrier finished _ fans =>
      cases finished with
      | true => exact .inl ⟨rfl, fans⟩
      | false => cases succeeded
  | decide approved asks =>
      cases approved with
      | true => exact .inr ⟨rfl, unworked.gate asks⟩
      | false => cases succeeded
  | succeed held => simp [unworked.unclaimed] at held
  | resolve _ _ parked =>
      rw [unworked.unparked] at parked
      omega
  | count | recount | renew | askStop | park | claimTeardown | clearStop | stamp
  | clearHandle => exact absurd succeeded ended
  | _ => cases succeeded

/-- Moves none of which finishes a barrier or approves a gate make no row succeed that is no
work, by induction along them.
-/
theorem Steps.not_succeeded {moves : List Move} {life life' : Life}
    (steps : Steps moves life life') (marker : life.columns.Marker)
    (apart : ∀ move ∈ worked, move ∉ moves) (unworked : life.Unworked)
    (finishes : life.columns.fanoutOf.isSome → .finishBarrier true ∉ moves)
    (decides : life.columns.isApproval = true → .decide true ∉ moves)
    (ended : life.status ≠ .succeeded)
    : life'.status ≠ .succeeded := by
  have kept : life'.columns = life.columns ∧ life'.Unworked ∧ life'.status ≠ .succeeded := by
    refine steps.rule (fun other => other.columns = life.columns ∧ other.Unworked
      ∧ other.status ≠ .succeeded) ⟨rfl, unworked, ended⟩ ?_
    intro move listed first second step kept
    obtain ⟨same, unworked, ended⟩ := kept
    refine ⟨step.columns.trans same, ?_, ?_⟩
    · exact step.unworked (same ▸ marker) (fun among => apart move among listed) unworked
    · intro succeeded
      rcases step.succeeds unworked ended succeeded with ⟨rfl, fans⟩ | ⟨rfl, gates⟩
      · exact finishes (same ▸ fans) listed
      · exact decides (same ▸ gates) listed
  exact kept.2.2

end Life

-- Worlds

/-- Whether an operation is a person's retry of a row of a kind that failed or was cancelled. -/
def Op.retries (kind : TaskColumns → Prop) (db : Db) : Op → Prop
  | .retryTaskFromUi _ id _ => ∃ task ∈ db.task? id,
      (task.status = .failed ∨ task.status = .cancelled) ∧ kind task.toTaskColumns
  | _ => False

instance (kind : TaskColumns → Prop) [DecidablePred kind] (db : Db) (op : Op)
    : Decidable (op.retries kind db) := by
  induction op using Op.casesOn <;> dsimp only [Op.retries] <;> infer_instance

/-- Nobody works on the rows of a kind, and no dispatch that is under way is of one. -/
structure World.Unworked (kind : TaskColumns → Prop) (world : World) : Prop where
  rows
    : ∀ id task, world.db.task? id = some task → kind task.toTaskColumns → task.life.Unworked
  tickets
    : ∀ ticket ∈ world.dispatched, ∃ task, world.db.task? ticket.task = some task
        ∧ ¬ kind task.toTaskColumns

theorem World.Unworked.init (kind : TaskColumns → Prop)
    : World.init.Unworked kind where
  rows _ _ found := by cases found
  tickets _ under := by cases under

section Worlds

variable {env : Env} {op : Op} {world : World} {commit : Commit World Op}
  {kind : TaskColumns → Prop}

/-- A dispatch that is under way after a commit was so before it, or is of a row that was ready;
and its row is there.
-/
theorem dispatched_of_mem (member : commit ∈ commitsFrom op world ((store env).commits op world))
    {ticket : Ticket} (under : ticket ∈ commit.after.dispatched)
    : (ticket ∈ commit.before.dispatched
        ∨ ∃ task, commit.before.db.task? ticket.task = some task ∧ task.status = .ready)
      ∧ (commit.after.db.task? ticket.task).isSome := by
  have claimed {db : Db × List TaskRow} (taken : ∀ row ∈ db.2, Taken world.db db.1 row)
      (under : ticket ∈ (world.dispatch db).dispatched)
      : (ticket ∈ world.dispatched
          ∨ ∃ task, world.db.task? ticket.task = some task ∧ task.status = .ready)
        ∧ (db.1.task? ticket.task).isSome := by
    rcases List.mem_append.mp under with fresh | old
    · obtain ⟨row, among, rfl⟩ := List.mem_map.mp fresh
      obtain ⟨task, was, ready, _⟩ := (taken row among).found
      obtain ⟨task', is, _⟩ := (taken row among).held
      exact ⟨.inr ⟨task, was, ready⟩, Option.isSome_iff_exists.mpr ⟨task', is⟩⟩
    · exact ⟨.inl (List.mem_of_mem_filter old), (List.mem_filter.mp old).2⟩
  have stays {left : List Ticket} {db : Db} (among : ∀ ticket ∈ left, ticket ∈ world.dispatched)
      (under : ticket ∈ left.filter (fun ticket => (db.task? ticket.task).isSome))
      : (ticket ∈ world.dispatched
          ∨ ∃ task, world.db.task? ticket.task = some task ∧ task.status = .ready)
        ∧ (db.task? ticket.task).isSome :=
    ⟨.inl (among ticket (List.mem_of_mem_filter under)), (List.mem_filter.mp under).2⟩
  cases op with
  | claimReady now worker limit classes caps excludeGangs =>
      obtain rfl := mem_commitsFrom_singleton.mp member
      exact claimed (taken_claimEach worker _ _ _ world.db).2 under
  | claimReadyGang now worker capacity classes caps =>
      obtain rfl := mem_commitsFrom_singleton.mp member
      exact claimed (taken_claimReadyGang env now worker capacity classes caps world.db).2 under
  | park ticket_ parking =>
      simp only [store, Op.commits] at member
      split at member
      · obtain rfl := mem_commitsFrom_singleton.mp member
        exact stays (fun _ => List.mem_of_mem_erase) under
      · cases member
  | markTaskFailed now id worker fence error =>
      simp only [store, Op.commits] at member
      split at member <;> obtain rfl := mem_commitsFrom_singleton.mp member <;>
        exact stays (fun _ under => under) under
  | cancelGangSiblings | reapRun | abandonReap | endStoppedRun =>
      simp only [store, Op.commits] at member
      split at member
      · obtain rfl := mem_commitsFrom_singleton.mp member
        exact stays (fun _ under => under) under
      · cases member
  | readOutcomes | readStrandedStoppedRuns =>
      obtain rfl := mem_commitsFrom_singleton.mp member
      exact stays (fun _ under => under) under
  | _ =>
      obtain ⟨_, after⟩ := commit_of_plain rfl member
      rw [after] at under ⊢
      exact ⟨.inl (List.mem_of_mem_filter under), (List.mem_filter.mp under).2⟩

/-- Every operation keeps the rows of a kind unworked that are no work, but for a person's retry
of one of them.
-/
theorem World.Unworked.step (markers : ∀ columns, kind columns → columns.Marker)
    (member : commit ∈ commitsFrom op world ((store env).commits op world))
    (unworked : commit.before.Unworked kind) (leaves : ¬ op.retries kind commit.before.db)
    : commit.after.Unworked kind := by
  have writes := writes_of_mem member
  refine ⟨?_, ?_⟩
  · by_cases retry : ∃ now id who, op = .retryTaskFromUi now id who
    · obtain ⟨now, id, who, rfl⟩ := retry
      obtain ⟨start, done⟩ := writes.returns rfl
      rw [← start] at done
      intro other task' is ofKind
      rw [task?_retryTaskFromUi now done] at is
      obtain ⟨task, was, rfl⟩ := Option.map_eq_some_iff.mp is
      split at ofKind
      case isTrue met =>
        exact absurd ⟨task, met.1 ▸ (Db.id_of_task? was).symm ▸ was, met.2, ofKind⟩ leaves
      case isFalse unmet =>
        rw [if_neg unmet]
        exact unworked.rows other task was ofKind
    by_cases park : op.parks = true
    · cases op with
      | park ticket parking =>
          simp only [store, Op.commits] at member
          split at member
          case isFalse => cases member
          case isTrue under =>
            obtain rfl := mem_commitsFrom_singleton.mp member
            obtain ⟨dispatched, found, apart⟩ := unworked.tickets ticket under
            intro id task' is ofKind
            have change := rel_park ticket parking world.db id
            rw [show (world.db.park ticket parking).task? id = some task' from is] at change
            cases was : world.db.task? id with
            | none =>
                rw [was] at change
                cases change
            | some task =>
                rw [was] at change
                cases change with
                | some change =>
                    rcases change with rfl | ⟨same, _, step⟩
                    · exact unworked.rows id task' was ofKind
                    · obtain rfl : id = ticket.task := (Db.id_of_task? was).symm.trans same
                      rw [show world.db.task? ticket.task = some dispatched from found] at was
                      cases was
                      have columns : task'.toTaskColumns = dispatched.toTaskColumns := by
                        rcases step with step | step <;> exact step.columns
                      exact absurd (columns ▸ ofKind) apart
      | _ => cases park
    · have quiet : ∀ move ∈ Life.worked, move ∉ op.moves := by
        obtain ⟨parks, releases⟩ := op.park_not_mem_moves (by simpa using park)
        have retries := op.retryFromUi_not_mem_moves (fun now id who same => retry ⟨now, id, who, same⟩)
        simp [Life.worked, parks, releases, retries]
      intro id task' is ofKind
      refine writes.evolves.rule (fun life => kind life.columns → life.Unworked) ?_ ?_
        (fun id task was => unworked.rows id task was) id task' is ofKind
      · exact fun life fresh ofKind => fresh.unworked (markers _ ofKind)
      · intro move listed life life' step kept ofKind
        have ofKind : kind life.columns := step.columns ▸ ofKind
        exact step.unworked (markers _ ofKind) (fun among => quiet move among listed)
          (kept ofKind)
  · intro ticket under
    obtain ⟨origin, there⟩ := dispatched_of_mem member under
    obtain ⟨task', is⟩ := Option.isSome_iff_exists.mp there
    have old : ∃ task, commit.before.db.task? ticket.task = some task
        ∧ ¬ kind task.toTaskColumns := by
      rcases origin with old | ⟨task, was, ready⟩
      · exact unworked.tickets ticket old
      · exact ⟨task, was, fun ofKind => (unworked.rows _ task was ofKind).unqueued ready⟩
    obtain ⟨task, was, apart⟩ := old
    refine ⟨task', is, fun ofKind => apart ?_⟩
    have columns : task'.toTaskColumns = task.toTaskColumns := (writes.evolves.kept was is).columns.1
    exact columns ▸ ofKind

end Worlds

-- Barriers

def TaskColumns.fans (columns : TaskColumns) : Prop :=
  columns.fanoutOf.isSome

instance : DecidablePred TaskColumns.fans := fun columns => by
  unfold TaskColumns.fans
  infer_instance

/-- What a barrier succeeds by: its instances have ended, each well unless they may fail, or
its producers printed a list with nothing in it.
-/
inductive Joins (env : Env) (db : Db) (barrier : TaskRow) : Prop
  | instances (made : db.instanceStatuses barrier.id ≠ [])
      (ended : ∀ status ∈ db.instanceStatuses barrier.id, status.terminal = true)
      (well : barrier.allowFailure = true
        ∨ ∀ status ∈ db.instanceStatuses barrier.id, status ≠ .failed ∧ status ≠ .cancelled)
  | empty (output : String) (plan : db.planFanout env barrier = .finish true output)

/-- What makes an instance of a barrier: the list that its producers printed names it. -/
def Expands (env : Env) (db : Db) (barrier : TaskRow) (instance_ : TaskRow) : Prop :=
  ∃ instances, db.planFanout env barrier = .expand instances ∧ instance_.input ∈ instances

section Barriers

variable {env : Env} {now : Time} {op : Op} {world : World} {commit : Commit World Op}
  {before after : Db} {id : Nat} {task task' : TaskRow}

theorem planFanout_congr {barrier : TaskRow} (same : barrier.toTaskColumns = task.toTaskColumns)
    : before.planFanout env barrier = before.planFanout env task := by
  unfold Db.planFanout
  rw [same]

theorem status_endTask_getD {ended : Nat} {guard : TaskRow → Prop} [DecidablePred guard]
    {set : TaskRow → TaskRow} {keeps : ∀ row, (set row).toTaskColumns = row.toTaskColumns}
    (was : before.task? id = some task)
    (is : ((before.endTask ended guard set keeps).getD before).task? id = some task')
    : task'.status = task.status
      ∨ (id = ended ∧ guard task ∧ task'.status = (set task).status) := by
  obtain ⟨task_, was_, same⟩ := task?_endTask_getD is
  rw [was] at was_
  cases was_
  have status := (TaskRow.of_uncounted_eq same).1
  split at status
  case isTrue met => exact .inr ⟨(Db.id_of_task? was).symm.trans met.1, met.2, status⟩
  case isFalse => exact .inl status

theorem FanoutStep.joins (step : FanoutStep env now before after)
    (was : before.task? id = some task) (is : after.task? id = some task')
    (ended : task.status ≠ .succeeded) (succeeded : task'.status = .succeeded)
    : task.parkedBarrier ∧ Joins env before task := by
  cases step with
  | unlink =>
      rw [show (before.dropStaleEdges _ _).task? id = before.task? id from rfl, was] at is
      cases is
      exact absurd succeeded ended
  | clear barrier read done =>
      obtain ⟨rfl, _⟩ := deleteTasks_eq_some done
      have instances (task : TaskRow)
          (stale : task.staleInstance barrier.id barrier.version) : task.fanoutParent.isSome := by
        simp [stale.1]
      have kept : Evolves [] before { before with
          tasks := before.tasks.delete (TaskRow.staleInstance barrier.id barrier.version) } :=
        evolves_delete instances rfl
      refine absurd succeeded ((kept.kept was is).rule (fun life => life.status ≠ .succeeded)
        ended ?_)
      intro move listed
      cases listed
  | resolve barrier read mint done =>
      obtain ⟨_, there, found, columns, _⟩ := read
      have finished {finished : Bool} {output : String}
          (is : (before.finishFanout now barrier.id finished output).task? id = some task')
          (joins : finished = true → barrier.toTaskColumns = task.toTaskColumns → Joins env before task)
          : task.parkedBarrier ∧ Joins env before task := by
        rcases status_endTask_getD was is with same | ⟨rfl, parked, status⟩
        · exact absurd (same.symm.trans succeeded) ended
        · rw [found] at was
          cases was
          refine ⟨parked, joins ?_ columns.symm⟩
          cases finished with
          | true => rfl
          | false =>
              rw [succeeded] at status
              cases status
      rcases resolveFanout_commit env now done with
        ⟨made, over_, _, output, well, rfl⟩ | ⟨_, output, plan, rfl⟩ | ⟨instances, _, done⟩
      · refine finished is (fun succeeded same => ?_)
        have at_ : barrier.id = task.id := congrArg TaskColumns.id same
        have allows : barrier.allowFailure = task.allowFailure :=
          congrArg TaskColumns.allowFailure same
        rw [at_] at made over_ well
        rw [allows] at well
        exact .instances made over_ (well succeeded)
      · refine finished is (fun succeeded same => ?_)
        rw [succeeded, planFanout_congr same] at plan
        exact .empty output plan
      · have steps := (evolves_expandFanout now done).kept was is
        refine absurd succeeded (steps.rule (fun life => life.status ≠ .succeeded) ended ?_)
        intro move listed life life' step kept
        cases step with
        | stamp => exact kept
        | _ => simp at listed

/-- A row that the sweep makes is an instance of a parked barrier, which its producers' list
names.
-/
theorem FanoutStep.expands (step : FanoutStep env now before after)
    (was : before.task? id = none) (is : after.task? id = some task')
    : ∃ barrier, before.task? barrier.id = some barrier ∧ task'.fanoutParent = some barrier.id
        ∧ barrier.parkedBarrier ∧ Expands env before barrier task' := by
  have absent {moves : List Move} (kept : Moves moves before after) : False := by
    rw [(kept.task?_eq_none_iff id).mpr was] at is
    cases is
  cases step with
  | unlink => exact (absent (.of_tasks_eq rfl : Moves [] before _)).elim
  | clear barrier read done =>
      obtain ⟨rfl, _⟩ := deleteTasks_eq_some done
      have gone : (before.tasks.delete _).get? id = some task' := is
      rw [Table.get?_delete, show before.tasks.get? id = none from was] at gone
      cases gone
  | resolve barrier read mint done =>
      obtain ⟨fans, there, found, columns, _⟩ := read
      rcases resolveFanout_commit env now done with
        ⟨_, _, finished, output, _, rfl⟩ | ⟨finished, output, _, rfl⟩ | ⟨instances, plan, done⟩
      · exact (absent (moves_finishFanout now before barrier.id finished output)).elim
      · exact (absent (moves_finishFanout now before barrier.id finished output)).elim
      · obtain ⟨stamped, rows, moved, _, _, ⟨there_, found_, running, free⟩, made, inserted, _⟩ :=
          expandFanout_commit now done
        rw [found] at found_
        cases found_
        have at_ : there.id = barrier.id := congrArg TaskColumns.id columns
        have absent : stamped.task? id = none := (moved.task?_eq_none_iff id).mpr was
        rcases Table.get?_insertAll inserted is with old | ⟨_, member⟩
        · rw [show stamped.tasks.get? id = none from absent] at old
          cases old
        · obtain ⟨_, leaf, among, rfl⟩ := made task' member
          refine ⟨there, at_ ▸ found, congrArg some at_.symm, ⟨running, ?_, free⟩, instances, ?_, among⟩
          · rw [show there.fanoutOf = barrier.fanoutOf from congrArg TaskColumns.fanoutOf columns]
            exact fans
          · rw [planFanout_congr columns]
            exact plan

def Move.succeeds : Move → Bool
  | .succeed | .resolve true | .finishBarrier true | .decide true => true
  | _ => false

theorem Life.Steps.unsucceeded {moves : List Move} {life life' : Life}
    (steps : Life.Steps moves life life') (none_ : ∀ move ∈ moves, move.succeeds = false)
    (ended : life.status ≠ .succeeded)
    : life'.status ≠ .succeeded := by
  refine steps.rule (fun other => other.status ≠ .succeeded) ended ?_
  intro move listed first second step kept
  have quiet := none_ move listed
  cases step with
  | count | recount | renew | askStop | park | claimTeardown | clearStop | stamp
  | clearHandle => exact kept
  | succeed => cases quiet
  | resolve succeeded | finishBarrier succeeded | decide succeeded =>
      cases succeeded with
      | true => cases quiet
      | false => nofun
  | _ => nofun

theorem joins_of_mem (member : commit ∈ commitsFrom op world ((store env).commits op world))
    (unworked : commit.before.Unworked TaskColumns.fans)
    (was : commit.before.db.task? id = some task) (is : commit.after.db.task? id = some task')
    (fans : task.fanoutOf.isSome) (ended : task.status ≠ .succeeded)
    (succeeded : task'.status = .succeeded)
    : (∃ now mint, op = .reconcileFanouts now mint) ∧ task.parkedBarrier
        ∧ Joins env commit.before.db task := by
  have writes := writes_of_mem member
  have steps := writes.evolves.kept was is
  have life := unworked.rows id task was fans
  have other (apart : ∀ move ∈ Life.worked, move ∉ op.moves) (finishes : .finishBarrier true ∉ op.moves)
      : False := by
    refine steps.not_succeeded (.inl fans) apart life (fun _ => finishes) ?_ ended succeeded
    intro gates
    have single := (life.plain.fanout fans).1
    rw [gates] at single
    cases single
  cases op with
  | reconcileFanouts now mint =>
      refine ⟨⟨now, mint, rfl⟩, ?_⟩
      exact (fanoutStep_of_mem_reconcileFanouts env now writes).joins was is ended succeeded
  | park | retryTaskFromUi =>
      exact absurd succeeded (steps.unsucceeded (by simp [Op.moves, Move.succeeds]) ended)
  | _ => exact (other (by simp [Op.moves, Life.worked, readinessMoves])
      (by simp [Op.moves, readinessMoves])).elim

theorem expands_of_mem (member : commit ∈ commitsFrom op world ((store env).commits op world))
    (was : commit.before.db.task? id = none) (is : commit.after.db.task? id = some task')
    (made : task'.fanoutParent.isSome)
    : (∃ now mint, op = .reconcileFanouts now mint)
        ∧ ∃ barrier, commit.before.db.task? barrier.id = some barrier
          ∧ task'.fanoutParent = some barrier.id ∧ barrier.parkedBarrier
          ∧ Expands env commit.before.db barrier task' := by
  have writes := writes_of_mem member
  have absent (grows : op.grows = false) : False := by
    rw [((writes.moves grows).task?_eq_none_iff id).mpr was] at is
    cases is
  cases op with
  | reconcileFanouts now mint =>
      refine ⟨⟨now, mint, rfl⟩, ?_⟩
      exact (fanoutStep_of_mem_reconcileFanouts env now writes).expands was is
  | createRun now submission =>
      obtain ⟨start, done⟩ := writes.returns rfl
      rw [← start] at done
      obtain ⟨_, _, _, _, _, rfl⟩ := made_createRun env now done was is
      cases made
  | rerunAll now run who =>
      obtain ⟨start, done⟩ := writes.returns rfl
      rw [← start] at done
      rw [absent_rerunAll now done was] at is
      cases is
  | _ => exact (absent rfl).elim

end Barriers

-- Gates

def TaskColumns.gates (columns : TaskColumns) : Prop :=
  columns.isApproval = true

instance : DecidablePred TaskColumns.gates := fun columns => by
  unfold TaskColumns.gates
  infer_instance

/-- What approves a gate that asks: a person, or its timeout where it says so. -/
inductive Approves (id : Nat) (gate : TaskRow) : Op → Prop
  | person (now : Time) (decidedBy comment : Option String)
      : Approves id gate (.resolveApproval now gate.runId id true decidedBy comment)
  | timeout (now : Time) (expires : gate.approvalTimeoutSecs.isSome)
      (approves : gate.approvalOnTimeout = some "approve")
      : Approves id gate (.resolveExpiredApprovals now)

section Gates

variable {env : Env} {now : Time} {op : Op} {world : World} {commit : Commit World Op}
  {before after : Db} {id : Nat} {task task' : TaskRow}

theorem approves_of_mem (member : commit ∈ commitsFrom op world ((store env).commits op world))
    (unworked : commit.before.Unworked TaskColumns.gates)
    (was : commit.before.db.task? id = some task) (is : commit.after.db.task? id = some task')
    (gates : task.isApproval = true) (ended : task.status ≠ .succeeded)
    (succeeded : task'.status = .succeeded)
    : task.status = .awaitingApproval ∧ Approves id task op := by
  have writes := writes_of_mem member
  have steps := writes.evolves.kept was is
  have life := unworked.rows id task was gates
  have other (apart : ∀ move ∈ Life.worked, move ∉ op.moves) (decides : .decide true ∉ op.moves)
      : False := by
    refine steps.not_succeeded (.inr gates) apart life ?_ (fun _ => decides) ended succeeded
    intro fans
    have single : task.isApproval = false := (life.plain.fanout fans).1
    rw [gates] at single
    cases single
  cases op with
  | resolveApproval now run gate approve decidedBy comment =>
      obtain ⟨start, done⟩ := writes.single rfl
      rw [done, ← start] at is
      rcases status_endTask_getD was is with same | ⟨rfl, ⟨ofRun, asks⟩, status⟩
      · exact absurd (same.symm.trans succeeded) ended
      · cases approve with
        | true =>
            subst ofRun
            exact ⟨asks, .person now decidedBy comment⟩
        | false =>
            rw [succeeded] at status
            cases status
  | resolveExpiredApprovals now =>
      -- The sweep decides by the row it read, whose columns are the gate's still.
      have kept (item : TaskRow) (db : Db)
          (same : ∀ other row row', world.db.task? other = some row →
            db.task? other = some row' → row'.toTaskColumns = row.toTaskColumns)
          : ∀ other row row', world.db.task? other = some row →
            (db.resolveExpiredApproval now item).task? other = some row' →
            row'.toTaskColumns = row.toTaskColumns := by
        intro other row row' first last
        obtain ⟨middle, found, steps⟩ := (moves_resolveExpiredApproval now db item).of_some last
        exact steps.columns.1.trans (same other row middle first found)
      obtain ⟨same, read, among, done⟩ := writes.kept
        (fun db => ∀ other row row', world.db.task? other = some row →
          db.task? other = some row' → row'.toTaskColumns = row.toTaskColumns) rfl
        (fun item _ db same => kept item db same) (fun other row row' first last => by
          rw [first] at last
          cases last
          rfl)
      obtain ⟨present, asked, expires⟩ := Table.mem_select.mp ((List.takeWhile_sublist _).subset among)
      rw [done, Db.resolveExpiredApproval] at is
      split at is
      · rw [was] at is
        cases is
        exact absurd succeeded ended
      · rcases status_endTask_getD was is with still | ⟨rfl, ⟨_, asks⟩, status⟩
        · exact absurd (still.symm.trans succeeded) ended
        have columns : task.toTaskColumns = read.toTaskColumns :=
          same read.id read task (Db.task?_of_mem present) was
        have timeout : task.approvalTimeoutSecs = read.approvalTimeoutSecs :=
          congrArg TaskColumns.approvalTimeoutSecs columns
        have onTimeout : task.approvalOnTimeout = read.approvalOnTimeout :=
          congrArg TaskColumns.approvalOnTimeout columns
        refine ⟨asks, .timeout now (timeout ▸ expires) ?_⟩
        by_contra rejects
        rw [onTimeout] at rejects
        rw [succeeded] at status
        simp [rejects] at status
  | park | retryTaskFromUi =>
      exact absurd succeeded (steps.unsucceeded (by simp [Op.moves, Move.succeeds]) ended)
  | _ => exact (other (by simp [Op.moves, Life.worked, readinessMoves, fanoutMoves])
      (by simp [Op.moves, readinessMoves, fanoutMoves])).elim

end Gates

-- Histories

/-- No row of a kind is in the queue or claimed, and no dispatch that is under way is of one. -/
structure World.Untouched (kind : TaskColumns → Prop) (world : World) : Prop where
  rows
    : ∀ id task, world.db.task? id = some task → kind task.toTaskColumns →
        task.status ≠ .ready ∧ task.claimedBy = none
  tickets
    : ∀ ticket ∈ world.dispatched, ∀ task, world.db.task? ticket.task = some task →
        ¬ kind task.toTaskColumns

theorem World.Unworked.untouched {kind : TaskColumns → Prop} {world : World}
    (unworked : world.Unworked kind)
    : world.Untouched kind where
  rows id task found ofKind :=
    ⟨(unworked.rows id task found ofKind).unqueued, (unworked.rows id task found ofKind).unclaimed⟩
  tickets ticket under task found := by
    obtain ⟨task_, found_, apart⟩ := unworked.tickets ticket under
    rw [found] at found_
    cases found_
    exact apart

/-- How a commit treats barriers: one succeeds by the fan-out sweep alone, parked, when its
instances have joined; and instances are made by that sweep alone, of the list that the
producers of a parked barrier printed.
-/
structure FansOut (env : Env) (commit : Commit World Op) : Prop where
  joins
    : ∀ id task task', commit.before.db.task? id = some task →
        commit.after.db.task? id = some task' → task.fanoutOf.isSome →
        task.status ≠ .succeeded → task'.status = .succeeded →
        (∃ now mint, commit.label = .reconcileFanouts now mint) ∧ task.parkedBarrier
          ∧ Joins env commit.before.db task
  expands
    : ∀ id task', commit.before.db.task? id = none → commit.after.db.task? id = some task' →
        task'.fanoutParent.isSome →
        (∃ now mint, commit.label = .reconcileFanouts now mint)
          ∧ ∃ barrier, commit.before.db.task? barrier.id = some barrier
            ∧ task'.fanoutParent = some barrier.id ∧ barrier.parkedBarrier
            ∧ Expands env commit.before.db barrier task'

/-- How a commit treats gates: one succeeds only where it asks and is approved. -/
def Asks (commit : Commit World Op) : Prop :=
  ∀ id task task', commit.before.db.task? id = some task →
    commit.after.db.task? id = some task' → task.isApproval = true →
    task.status ≠ .succeeded → task'.status = .succeeded →
    task.status = .awaitingApproval ∧ Approves id task commit.label

section Histories

variable {env : Env} {commits : List (Commit World Op)} {world : World}

/-- An approval gate is decided by a person or its timeout alone, where nobody retries one that
was rejected or cancelled: it is never queued, running, claimed or dispatched, and it succeeds
only where it asks and is approved.
-/
theorem gate_is_asked
    (history : (store env).History (fun op world => ¬ op.retries TaskColumns.gates world.db)
      .init commits world)
    : (world.Untouched TaskColumns.gates
          ∧ ∀ id task, world.db.task? id = some task → task.isApproval = true →
            task.status ≠ .running)
        ∧ ∀ commit ∈ commits, Asks commit := by
  have whole : world.Unworked TaskColumns.gates ∧ ∀ commit ∈ commits,
      commit.before.Unworked TaskColumns.gates ∧ commit.after.Unworked TaskColumns.gates
        ∧ Asks commit := by
    refine history.rule (.init _) ?_
    intro op origin _ commit member before leaves
    refine ⟨World.Unworked.step (fun _ => .inr) member before leaves, ?_⟩
    intro id task task' was is gates ended succeeded
    rw [label_of_mem_commitsFrom member]
    exact approves_of_mem member before was is gates ended succeeded
  refine ⟨⟨whole.1.untouched, ?_⟩, fun commit member => (whole.2 commit member).2.2⟩
  intro id task found gates running
  have life := whole.1.rows id task found gates
  have single : task.isApproval = false := (life.plain.fanout (life.barrier running)).1
  rw [gates] at single
  cases single

end Histories

/-- One task, and a report of it for each thing it prints. -/
def fannedReport : DagGraph where
  spec := {
    name := "nightly"
    tasks := [{ name := "shard" },
      { name := "report", dependsOn := ["shard"], withOutputOf := some "shard" }]
  }
  parameters := []
  wellFormed := by
    refine ⟨by decide, by decide, by decide, ?_, by decide, by decide, by decide⟩
    exact ⟨fun name => if name = "report" then 1 else 0, by decide⟩

/-- The task prints what it prints, and the barrier of its reports is parked. -/
def reportParked : List Op :=
  [.createRun 0 (submit fannedReport 0), .advanceReadyTasks 1,
    .claimReady 2 "worker" 1 [] [] false, .markTaskSucceeded 3 0 "worker" 1 (some "[]") false,
    .advanceReadyTasks 4]

/-- A gate, and a report that is made once it is approved. -/
def gatedReport : DagGraph where
  spec := {
    name := "nightly"
    tasks := [{ name := "shard", taskType := some "approval" },
      { name := "report", dependsOn := ["shard"] }]
  }
  parameters := []
  wellFormed := by
    refine ⟨by decide, by decide, by decide, ?_, by decide, by decide, by decide⟩
    exact ⟨fun name => if name = "report" then 1 else 0, by decide⟩

def reportDecided (approve : Bool) : List Op :=
  [.createRun 0 (submit gatedReport 0), .advanceReadyTasks 1,
    .resolveApproval 2 0 0 approve (some "alice") none]

/-- The gate that a person approved was asked. -/
theorem gate_is_asked_reportDecided
    : (store plainEnv).Permits (fun op world => ¬ op.retries TaskColumns.gates world.db) .init
        (reportDecided true)
      ∧ ∀ commit ∈ (store plainEnv).trace .init (reportDecided true), Asks commit := by
  have permits : (store plainEnv).Permits
      (fun op world => ¬ op.retries TaskColumns.gates world.db) .init (reportDecided true) := by
    decide
  have history : (store plainEnv).History
      (fun op world => ¬ op.retries TaskColumns.gates world.db) .init
      ([] ++ (store plainEnv).trace .init (reportDecided true))
      ((store plainEnv).outcome .init (reportDecided true)) :=
    .whole .start permits
  exact ⟨permits, (gate_is_asked history).2⟩

/-- A gate that was rejected is retried, and a worker claims it. -/
def gateRetried : List Op :=
  reportDecided false ++
    [.retryTaskFromUi 3 0 none, .claimReady 4 "worker" 1 [] [] false]

/-- A gate may run, and be held by a worker: a person's retry queues one that was rejected. -/
theorem not_gate_unworked
    : ¬ ∀ world, (store plainEnv).Reachable (fun _ _ => True) world →
        ∀ id task, world.db.task? id = some task → task.isApproval = true →
          task.status ≠ .ready ∧ task.status ≠ .running ∧ task.claimedBy = none := by
  intro unworked
  have reached : (store plainEnv).Reachable (fun _ _ => True)
      ((store plainEnv).outcome .init gateRetried) := .outcome (by decide)
  let gate := (((store plainEnv).outcome .init gateRetried).db.task? 0).get (by decide)
  have claimed := unworked _ reached 0 gate (Option.some_get _).symm (by decide)
  revert claimed
  decide

end Dagron.Store
