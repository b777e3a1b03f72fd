import Dagron.Store.Order

/-! Fencing: whatever the order of workers' calls and of the leases that run out, a claim ends
once, a call whose claim does not stand changes nothing, and each end is counted once.
-/

namespace Dagron.Store

open Dagron.Library Dagron.Spec

-- Calls under a claim

/-- What a worker's call carries of its claim: the task, the worker, where the call names it,
and the version.
-/
structure Call where
  task
    : Nat
  worker
    : Option String
  fence
    : Nat

/-- The call of an operation that a worker makes under a claim. -/
def Op.call : Op → Option Call
  | .renewTaskLease _ id worker fence _ | .markTaskSucceeded _ id worker fence ..
  | .markTaskFailed _ id worker fence _ | .retryTask _ id worker fence ..
  | .requeueQuotaWait _ id worker fence .. | .settleStoppedTask _ id worker fence
  | .releaseStoppingTask _ id worker fence _ => some ⟨id, some worker, fence⟩
  | .park ticket _ => some ⟨ticket.task, none, ticket.fence⟩
  | _ => none

/-- Whether the claim that a call carries is the current one of its task. -/
def Call.stands (call : Call) (db : Db) : Prop :=
  ∃ task, db.task? call.task = some task ∧ task.version = call.fence
    ∧ task.claimedBy.isSome ∧ ∀ worker ∈ call.worker, task.claimedBy = some worker

section Calls

variable {env : Env} {now : Time} {db : Db} {id : Nat} {worker : String} {fence : Nat}

theorem Call.not_held (fails : ¬ (⟨id, some worker, fence⟩ : Call).stands db) {other : Nat}
    {task : TaskRow} (found : db.task? other = some task) (here : task.id = id)
    (held : task.claimedBy = some worker ∧ task.version = fence)
    : False := by
  have same : other = id := (Db.id_of_task? found).symm.trans here
  refine fails ⟨task, same ▸ found, held.2, by simp [held.1], ?_⟩
  intro worker_ member
  cases member
  exact held.1

theorem endTask_none {guard : TaskRow → Prop} [DecidablePred guard] {set : TaskRow → TaskRow}
    {keeps : ∀ row, (set row).toTaskColumns = row.toTaskColumns}
    (unmet : ∀ other task, db.task? other = some task → ¬ (task.id = id ∧ guard task))
    : db.endTask id guard set keeps = none := by
  have none_ : db.countTasks (fun task => task.id = id ∧ guard task) = 0 := by
    refine List.countP_eq_zero.mpr ?_
    intro task member met
    exact unmet task.id task (Db.task?_of_mem member) (of_decide_eq_true met)
  rw [Db.endTask, if_pos none_]

theorem settleStoppedTask_none (fails : ¬ (⟨id, some worker, fence⟩ : Call).stands db)
    : db.settleStoppedTask now id worker fence = db := by
  have none_ : (db.task? id).filter (fun task => task.claimedBy = some worker
      ∧ task.version = fence ∧ task.stopping) = none := by
    refine Option.filter_eq_none_iff.mpr ?_
    intro task found met
    obtain ⟨claimed, version, _⟩ := of_decide_eq_true met
    exact Call.not_held fails found (Db.id_of_task? found) ⟨claimed, version⟩
  rw [Db.settleStoppedTask, Db.settleStopping, none_]
  rfl

theorem writes_none {op : Op} {worker : String} (calls : op.call = some ⟨id, some worker, fence⟩)
    (fails : ¬ (⟨id, some worker, fence⟩ : Call).stands db)
    : op.writes env db = [db] := by
  have held (other : Nat) (task : TaskRow) (found : db.task? other = some task)
      : ¬ (task.id = id ∧ task.heldBy worker fence) :=
    fun met => Call.not_held fails found met.1 ⟨met.2.1, met.2.2.1⟩
  cases op with
  | renewTaskLease | releaseStoppingTask =>
      cases calls
      refine congrArg (fun db => [db]) (Db.updateTasks_none ?_)
      intro other task found met
      exact Call.not_held fails found met.1 ⟨met.2.1, met.2.2.1⟩
  | settleStoppedTask =>
      cases calls
      exact congrArg (fun db => [db]) (settleStoppedTask_none fails)
  | markTaskSucceeded | markTaskFailed =>
      cases calls
      simp only [Op.writes, Db.markTaskSucceeded, Db.markTaskFailed, endTask_none held,
        settleStoppedTask_none fails]
  | retryTask =>
      cases calls
      have none_ : db.countTasks (fun task => task.id = id ∧ task.heldBy worker fence) = 0 := by
        refine List.countP_eq_zero.mpr ?_
        intro task member met
        exact held task.id task (Db.task?_of_mem member) (of_decide_eq_true met)
      simp only [Op.writes, Db.retryTask, none_, if_true, settleStoppedTask_none fails]
  | requeueQuotaWait =>
      cases calls
      have none_ : (db.task? id).filter (fun task => task.heldBy worker fence
          ∧ task.status = .running) = none := by
        refine Option.filter_eq_none_iff.mpr ?_
        intro task found met
        exact held id task found ⟨Db.id_of_task? found, (of_decide_eq_true met).1⟩
      simp only [Op.writes, Db.requeueQuotaWait, none_, settleStoppedTask_none fails]
  | _ => cases calls

theorem park_none {ticket : Ticket} {parking : Parking}
    (open_ : ∀ task, db.task? ticket.task = some task → ticket.Open task.life)
    (fails : ¬ (⟨ticket.task, none, ticket.fence⟩ : Call).stands db)
    : db.park ticket parking = db := by
  have unmet (other : Nat) (task : TaskRow) (found : db.task? other = some task)
      : ¬ (task.id = ticket.task ∧ task.parkable ticket.fence) := by
    intro met
    obtain ⟨here, running, version, _⟩ := met
    have same : other = ticket.task := (Db.id_of_task? found).symm.trans here
    subst same
    have claimed := ((open_ task found).stands version).2 running
    exact fails ⟨task, found, version, claimed, nofun⟩
  cases parking <;> exact @Db.updateTasks_none db _ _ _ (by intros; rfl) unmet

end Calls

-- Claims that have ended

/-- A life at which a claim has ended: a later version, or one that neither runs nor waits. -/
structure Life.Spent (fence : Nat) (life : Life) : Prop where
  later
    : fence ≤ life.version
  over_
    : life.version = fence → life.status ≠ .pending ∧ life.status ≠ .running

theorem Life.Step.spent {fence : Nat} {move : Move} {life life' : Life}
    (step : Life.Step move life life') (spent : life.Spent fence)
    : life'.Spent fence := by
  have later := spent.later.trans step.version_le
  refine ⟨later, fun same => ?_⟩
  have was : life.version = fence := Nat.le_antisymm (same ▸ step.version_le) spent.later
  obtain ⟨waits, runs⟩ := spent.over_ was
  cases step with
  | ready pending | skip pending | failWhen pending | parkBarrier pending | ask pending =>
      exact absurd pending waits
  | recover running | release running | park running | settle running | claimTeardown running
  | requeue running | stamp running | askStop running | resolve _ running | finishBarrier _ running => exact absurd running runs
  | succeed | fail | retry | cancel => exact ⟨nofun, nofun⟩
  | decide approved => cases approved <;> exact ⟨nofun, nofun⟩
  | count | recount | renew | clearStop | clearHandle => exact ⟨waits, runs⟩
  | claim | retryFromUi | reset =>
      have same : life.version + 1 = fence := same
      omega

theorem Life.Steps.spent {fence : Nat} {moves : List Move} {life life' : Life}
    (steps : Life.Steps moves life life') (spent : life.Spent fence)
    : life'.Spent fence :=
  steps.rule (Life.Spent fence) spent (fun _ _ _ _ step kept => step.spent kept)

theorem Life.Steps.spent_of_running {moves : List Move} {life life' : Life}
    (steps : Life.Steps moves life life') (running : life.status = .running)
    (ended : life'.status ≠ .running)
    : life'.Spent life.version := by
  have started : life.version ≤ life'.version
      ∧ (life'.version = life.version → life'.status ≠ .pending) := by
    refine steps.rule (fun other => life.version ≤ other.version
      ∧ (other.version = life.version → other.status ≠ .pending))
      ⟨le_refl _, fun _ pending => by rw [running] at pending; cases pending⟩ ?_
    intro move listed first second step kept
    have later := kept.1.trans step.version_le
    refine ⟨later, fun same => ?_⟩
    have was : first.version = life.version := Nat.le_antisymm (same ▸ step.version_le) kept.1
    have waits := kept.2 was
    cases step with
    | count | recount | renew | askStop | park | claimTeardown | clearStop | stamp
    | clearHandle => exact waits
    | reset =>
        have same : first.version + 1 = life.version := same
        omega
    | resolve succeeded | finishBarrier succeeded | decide succeeded =>
        cases succeeded <;> exact nofun
    | _ => exact nofun
  exact ⟨started.1, fun same => ⟨started.2 same, ended⟩⟩

/-- A commit ends a claim of a task: what ran under it, or was held under it, runs no more. -/
def EndsClaim (commit : Commit World Op) (id fence : Nat) : Prop :=
  ∃ task task', commit.before.db.task? id = some task ∧ commit.after.db.task? id = some task'
    ∧ task.version = fence ∧ task'.status ≠ .running
    ∧ (task.status = .running ∨ (task.claimedBy.isSome ∧ task'.claimedBy = none))

/-- How many dependencies of a task a transaction ends. -/
def newlyEnded (before after : Db) (id : Nat) : Nat :=
  Board.prerequisites before.board.edges
    (fun other => before.board.live other && !after.board.live other) id

/-- One writer at a time: while a task's row stays, each claim of it ends once; a call whose
claim does not stand changes nothing; and a pending task's counter falls by no more than the
dependencies that a transaction ends, and the unit of a run that it lets in.
-/
structure SingleWriter (commits : List (Commit World Op)) : Prop where
  once
    : ∀ early first middle second late, commits = early ++ first :: (middle ++ second :: late) →
        ∀ id fence, (∀ commit ∈ middle, (commit.after.db.task? id).isSome) →
          EndsClaim first id fence → ¬ EndsClaim second id fence
  refused
    : ∀ commit ∈ commits, ∀ call, commit.label.call = some call →
        ¬ call.stands commit.before.db → commit.after.db = commit.before.db
  counted
    : ∀ commit ∈ commits, commit.label.recounts = false →
        ∀ id task task', commit.before.db.task? id = some task →
          commit.after.db.task? id = some task' → task'.status = .pending →
          task.remainingDeps - task'.remainingDeps
            ≤ newlyEnded commit.before.db commit.after.db id
              + (commit.before.db.heldUnits task.runId - commit.after.db.heldUnits task.runId)

section Commits

variable {env : Env} {op : Op} {world : World} {commit : Commit World Op}

theorem Op.writes_call {call : Call} (calls : op.call = some call) (db : Db)
    : ∃ next, op.writes env db = [next] := by
  cases op <;> first | exact ⟨_, rfl⟩ | cases calls

theorem refused_of_mem (member : commit ∈ commitsFrom op world ((store env).commits op world))
    (fenced : commit.before.Fenced) {call : Call} (calls : op.call = some call)
    (fails : ¬ call.stands commit.before.db)
    : commit.after.db = commit.before.db := by
  obtain ⟨next, one⟩ : ∃ next, op.writes env world.db = [next] := Op.writes_call calls world.db
  obtain ⟨start, same⟩ := (writes_of_mem member).single one
  rw [start] at fails ⊢
  obtain ⟨id, worker, fence⟩ := call
  cases worker with
  | some worker =>
      rw [writes_none calls fails] at one
      rw [same, ← List.head_eq_of_cons_eq one]
  | none =>
      cases op with
      | park ticket parking =>
          cases calls
          by_cases under : ticket ∈ world.dispatched
          · simp only [store, Op.commits, under, if_true] at member
            obtain rfl := mem_commitsFrom_singleton.mp member
            obtain ⟨task, found, open_⟩ := fenced.open_ ticket under
            refine park_none ?_ fails
            intro task' found'
            rw [found] at found'
            cases found'
            exact open_
          · simp only [store, Op.commits, under, if_false] at member
            cases member
      | _ => cases calls

theorem counted_of_mem (member : commit ∈ commitsFrom op world ((store env).commits op world))
    (orderly : commit.before.Orderly) (open_ : ¬ op.retriesOpen commit.before.db)
    (anew : op.recounts = false) {id : Nat} {task task' : TaskRow}
    (was : commit.before.db.task? id = some task) (is : commit.after.db.task? id = some task')
    (pending : task'.status = .pending)
    : task.remainingDeps - task'.remainingDeps
        ≤ newlyEnded commit.before.db commit.after.db id
          + (commit.before.db.heldUnits task.runId - commit.after.db.heldUnits task.runId) := by
  have writes := writes_of_mem member
  have opens := Op.keepsOpen_of_sound orderly.fenced.sound open_
  have grows : op.grows = false := by
    cases op with
    | createRun | reconcileFanouts | rerunAll => cases anew
    | _ => rfl
  obtain ⟨raises, _⟩ := writes.raises anew opens (orderly.owed.standing member) orderly.steady
  obtain ⟨_, above⟩ := raises id (pending_of_task? is pending)
  have sameRun : task'.runId = task.runId :=
    congrArg TaskColumns.runId (writes.evolves.kept was is).columns.1
  have edges := edges_of_deps_eq (writes.deps grows)
  have fewer : commit.before.db.board.blockers id
      ≤ commit.after.db.board.blockers id + newlyEnded commit.before.db commit.after.db id := by
    have split : commit.before.db.board.blockers id
        = Board.prerequisites commit.before.db.board.edges
            (fun other => commit.before.db.board.live other && commit.after.db.board.live other) id
          + newlyEnded commit.before.db commit.after.db id := by
      refine Board.prerequisites_or (fun other _ => ?_)
      cases commit.before.db.board.live other <;> cases commit.after.db.board.live other <;> simp
    rw [split, Board.blockers, edges]
    refine Nat.add_le_add_right (Board.prerequisites_mono (fun other _ both => ?_)) _
    exact (Bool.and_eq_true_iff.mp both).2
  rw [Board.slack, Board.slack, remaining_board was, remaining_board is, hold_board was,
    hold_board is, sameRun] at above
  omega

theorem once_of_linked {start last : World} {early middle late : List (Commit World Op)}
    {first second : Commit World Op}
    (linked : Linked start (early ++ first :: (middle ++ second :: late)) last)
    (evolves : ∀ commit ∈ early ++ first :: (middle ++ second :: late),
      commit.before.Fenced ∧ Evolves commit.label.moves commit.before.db commit.after.db)
    {id fence : Nat} (stays : ∀ commit ∈ middle, (commit.after.db.task? id).isSome)
    (ended : EndsClaim first id fence)
    : ¬ EndsClaim second id fence := by
  have inFirst : first ∈ early ++ first :: (middle ++ second :: late) := by simp
  have inSecond : second ∈ early ++ first :: (middle ++ second :: late) := by simp
  obtain ⟨_, _, _, rest⟩ := linked_append.mp linked
  obtain ⟨point, between, here, _⟩ := linked_append.mp rest
  obtain ⟨task, task', was, is, rfl, stopped, held⟩ := ended
  have running : task.status = .running := by
    rcases held with running | claimed
    · exact running
    · exact (((evolves first inFirst).1.sound id task was).held claimed.1).1
  let Spent (world : World) : Prop :=
    ∃ row, world.db.task? id = some row ∧ row.life.Spent task.version
  have spent : Spent first.after :=
    ⟨task', is, ((evolves first inFirst).2.kept was is).spent_of_running running stopped⟩
  have kept : Spent point
      ∧ ∀ commit ∈ middle, Spent commit.before ∧ Spent commit.after ∧ True := by
    refine between.rule spent ?_
    intro commit member before
    obtain ⟨row, was, spent⟩ := before
    obtain ⟨row', is⟩ := Option.isSome_iff_exists.mp (stays commit member)
    have evolves := (evolves commit (by simp [member])).2
    exact ⟨⟨row', is, (evolves.kept was is).spent spent⟩, trivial⟩
  intro again
  obtain ⟨row, row', was', is', version, stopped', held'⟩ := again
  obtain ⟨row_, found, spent⟩ := kept.1
  rw [← here, was'] at found
  cases found
  have over_ := (spent.over_ version).2
  rcases held' with running' | claimed
  · exact over_ running'
  · exact over_ (((evolves second inSecond).1.sound id row was').held claimed.1).1

end Commits

/-- Fencing gives a single writer: in every history in which no person retries a task that a
pending task depends on, or that keeps the handle of a job, whatever the order of workers'
calls, leases that run out and every other operation.
-/
theorem single_writer {env : Env} {commits : List (Commit World Op)} {world : World}
    (history : (store env).History (fun op world => ¬ op.retriesOpen world.db) .init commits world)
    : SingleWriter commits := by
  have whole : world.Orderly ∧ ∀ commit ∈ commits, commit.before.Orderly ∧ commit.after.Orderly
      ∧ (Evolves commit.label.moves commit.before.db commit.after.db
        ∧ (∀ call, commit.label.call = some call → ¬ call.stands commit.before.db →
          commit.after.db = commit.before.db)
        ∧ (commit.label.recounts = false →
          ∀ id task task', commit.before.db.task? id = some task →
            commit.after.db.task? id = some task' → task'.status = .pending →
            task.remainingDeps - task'.remainingDeps
              ≤ newlyEnded commit.before.db commit.after.db id
                + (commit.before.db.heldUnits task.runId
                  - commit.after.db.heldUnits task.runId))) := by
    refine history.rule .init ?_
    intro op origin _ commit member before open_
    rw [label_of_mem_commitsFrom member]
    exact ⟨World.Orderly.step member before open_, (writes_of_mem member).evolves,
      fun call calls fails => refused_of_mem member before.fenced calls fails,
      fun anew id task task' was is pending =>
        counted_of_mem member before open_ anew was is pending⟩
  refine ⟨?_, ?_, ?_⟩
  · intro early first middle second late same id fence stays ended
    subst same
    exact once_of_linked history.linked
      (fun commit member => ⟨(whole.2 commit member).1.fenced, (whole.2 commit member).2.2.1⟩)
      stays ended
  · exact fun commit member => (whole.2 commit member).2.2.2.1
  · exact fun commit member => (whole.2 commit member).2.2.2.2

/-- The run of two tasks that a worker saw through has one writer at a time. -/
theorem single_writer_reportDone
    : SingleWriter ((store plainEnv).trace .init reportDone) := by
  have history : (store plainEnv).History (fun op world => ¬ op.retriesOpen world.db) .init
      ([] ++ (store plainEnv).trace .init reportDone)
      ((store plainEnv).outcome .init reportDone) :=
    .whole .start (by decide)
  exact single_writer history

end Dagron.Store
