import Mathlib.Data.List.Dedup
import Dagron.Store.Closing
import Dagron.Store.Unworked

/-! Pools: a claim counts afresh which tasks take a slot of a pool, and no other transaction puts
a task into one, so a pool whose capacity stays the same is never over-committed.
-/

namespace Dagron.Store

open Dagron.Library Dagron.Spec

-- Slots

/-- Whether a life takes a slot as a claim counts them. -/
def Life.Occupies (pool : String) (life : Life) : Prop :=
  life.status = .running ∧ life.columns.pool = some pool ∧ life.waits = 0
    ∧ life.columns.fanoutOf = none

theorem TaskRow.occupies_iff {pool : String} {task : TaskRow}
    : task.occupies pool ↔ task.life.Occupies pool := by
  unfold TaskRow.occupies Life.Occupies TaskRow.life TaskRow.waits
  simp only [Nat.add_eq_zero_iff, Bool.toNat_eq_zero, Option.isSome_eq_false_iff, Option.isNone_iff_eq_none]
  tauto

namespace Life

theorem Fresh.unoccupied {life : Life} (fresh : life.Fresh) (pool : String)
    : ¬ life.Occupies pool := by
  rintro ⟨running, _⟩
  rcases fresh.start with ⟨pending, _⟩ | ⟨ready, _⟩
  · rw [running] at pending
    cases pending
  · rw [running] at ready
    cases ready

theorem Step.occupies {move : Move} {life life' : Life} {pool : String}
    (step : Step move life life') (claim : move ≠ .claim) (occupies : life'.Occupies pool)
    : life.Occupies pool := by
  obtain ⟨running, ofPool, free, single⟩ := occupies
  cases step with
  | claim => exact absurd rfl claim
  | parkBarrier _ _ barrier => simp [show life.columns.fanoutOf = none from single] at barrier
  | park running' _ _ _ waits more =>
      have none_ : life.waits = 0 := by
        have free : waits = 0 := free
        omega
      exact ⟨running', ofPool, none_, single⟩
  | resolve succeeded | finishBarrier succeeded | decide succeeded => cases succeeded <;> cases running
  | count | recount | renew | askStop | claimTeardown | clearStop | stamp | clearHandle =>
      exact ⟨running, ofPool, free, single⟩
  | _ => cases running

theorem Steps.occupies {moves : List Move} {life life' : Life} {pool : String}
    (steps : Steps moves life life') (claim : .claim ∉ moves) (occupies : life'.Occupies pool)
    : life.Occupies pool := by
  refine steps.rule (fun other => other.Occupies pool → life.Occupies pool) (fun holds => holds)
    ?_ occupies
  intro move listed first second step kept occupies
  refine kept (step.occupies ?_ occupies)
  rintro rfl
  exact claim listed

end Life

def Db.occupied (pool : String) (db : Db) : Nat :=
  db.countTasks (TaskRow.occupies pool)

theorem Evolves.occupied_le {moves : List Move} {before after : Db}
    (evolves : Evolves moves before after) (claim : .claim ∉ moves) (pool : String)
    : after.occupied pool ≤ before.occupied pool := by
  refine Table.count_le_of_keys ?_
  intro task' present occupies
  have is := Db.task?_of_mem present
  have occupies := TaskRow.occupies_iff.mp occupies
  cases was : before.task? task'.id with
  | none =>
      obtain ⟨life, fresh, steps⟩ := evolves.made was is
      exact absurd (steps.occupies claim occupies) (fresh.unoccupied pool)
  | some task =>
      exact ⟨task, Table.mem_of_get? was,
        TaskRow.occupies_iff.mpr ((evolves.kept was is).occupies claim occupies),
        Db.id_of_task? was⟩

-- Budgets

theorem Db.left_poolBudget {caps : PoolBudget} {pool : String} {cap : Int} (db : Db)
    (capped : caps.left (some pool) = some cap)
    : (db.poolBudget caps).left (some pool) = some (max (cap - db.occupied pool) 0) := by
  simp only [PoolBudget.left, Option.bind_some, Db.poolBudget] at capped ⊢
  obtain ⟨entry, found, rfl⟩ := Option.map_eq_some_iff.mp capped
  have named : entry.1 = pool := by simpa using List.find?_some found
  rw [List.find?_map]
  have searched : caps.find? ((fun entry => decide (entry.1 = pool)) ∘ fun entry : String × Int =>
      (entry.1, max (entry.2 - db.countTasks (TaskRow.occupies entry.1)) 0)) = some entry := found
  rw [searched, ← named]
  rfl

theorem PoolBudget.left_spend (budget : PoolBudget) (pool : String) (taken : Option String)
    : (budget.spend taken).left (some pool)
      = (budget.left (some pool)).map (fun slots => if some pool = taken then slots - 1 else slots) := by
  simp only [PoolBudget.left, PoolBudget.spend, Option.bind_some, List.find?_map]
  have searched : ((fun entry : String × Int => decide (entry.1 = pool)) ∘ fun entry =>
      if some entry.1 = taken then (entry.1, entry.2 - 1) else entry)
      = fun entry => decide (entry.1 = pool) := by
    funext entry
    dsimp only [Function.comp_apply]
    split <;> rfl
  rw [searched]
  cases found : budget.find? (fun entry => decide (entry.1 = pool)) with
  | none => rfl
  | some entry =>
      obtain rfl : entry.1 = pool := by simpa using List.find?_some found
      simp only [Option.map_some, Option.some.injEq]
      split <;> rfl

theorem Db.occupied_claim {db : Db} {cond : TaskRow → Prop} [DecidablePred cond]
    (worker : String) (lease : Time) (pool : String)
    : (db.updateTasks cond (TaskRow.claim worker lease)).occupied pool
      ≤ db.occupied pool + db.countTasks (fun task => cond task ∧ task.pool = some pool) := by
  unfold Db.occupied Db.countTasks Db.updateTasks
  rw [Table.count_update]
  refine Table.count_le_add ?_
  intro task _ occupies
  split at occupies
  case isTrue met => exact .inr ⟨met, occupies.2.1⟩
  case isFalse => exact .inl occupies

theorem Db.occupied_claimTask {db : Db} {worker : String} {lease : Time} {candidate : TaskRow}
    (pool : String)
    (read : ∀ task, db.task? candidate.id = some task → task.pool = candidate.pool)
    : (db.claimTask worker lease candidate).occupied pool
      ≤ db.occupied pool + if some pool = candidate.pool then 1 else 0 := by
  refine (Db.occupied_claim worker lease pool).trans (Nat.add_le_add_left ?_ _)
  split
  case isTrue =>
    have listed (task : TaskRow) (_ : task ∈ db.tasks)
        (met : (task.id = candidate.id ∧ task.status = .ready ∧ task.version = candidate.version)
          ∧ task.pool = some pool)
        : task.id ∈ [candidate.id] :=
      List.mem_singleton.mpr met.1.1
    exact Table.count_le_length listed
  case isFalse apart =>
    refine Nat.le_of_eq (List.countP_eq_zero.mpr ?_)
    intro task present met
    obtain ⟨⟨same, _⟩, ofPool⟩ := (of_decide_eq_true met : (task.id = candidate.id ∧ _) ∧ _)
    have was : db.task? candidate.id = some task := same ▸ Db.task?_of_mem present
    exact apart (ofPool.symm.trans (read task was))

/-- Claims of candidates one by one take no more slots of a pool than are left, by induction
over the candidates.
-/
theorem Db.occupied_claimEach {worker : String} {lease : Time} {candidates : List TaskRow}
    {budget : PoolBudget} {db : Db} {pool : String} {slots : Int}
    (left : budget.left (some pool) = some slots)
    (read : ∀ candidate ∈ candidates, ∀ task, db.task? candidate.id = some task →
      task.pool = candidate.pool)
    : ((db.claimEach worker lease candidates budget).1.occupied pool : Int)
      ≤ db.occupied pool + max slots 0 := by
  induction candidates generalizing budget db slots with
  | nil =>
      simp only [Db.claimEach]
      omega
  | cons candidate rest ih =>
      have later := fun other among => read other (List.mem_cons_of_mem _ among)
      unfold Db.claimEach
      split
      · exact ih left later
      case isFalse open_ =>
        split
        · exact ih left later
        · have one := @Db.occupied_claimTask db worker lease candidate pool
            (read candidate List.mem_cons_self)
          have kept (other : TaskRow) (among : other ∈ rest) (task : TaskRow)
              (is : (db.claimTask worker lease candidate).task? other.id = some task)
              : task.pool = other.pool := by
            rw [Db.task?_claimTask] at is
            obtain ⟨old, was, rfl⟩ := Option.map_eq_some_iff.mp is
            have same := later other among old was
            split <;> exact same
          have spent := budget.left_spend pool candidate.pool
          rw [left, Option.map_some] at spent
          have rest_ := ih spent kept
          split at one
          case isTrue ofPool =>
            have some_ : 0 < slots := by
              rw [← ofPool, left] at open_
              simpa using open_
            rw [if_pos ofPool] at rest_
            dsimp only
            omega
          case isFalse apart =>
            rw [if_neg apart] at rest_
            dsimp only
            omega

theorem Db.occupied_claimReadyFiltered {caps : PoolBudget} {pool : String} {cap : Int}
    (env : Env) (now : Time) (worker : String) (limit : Nat) (classes : List String)
    (excludeGangs : Bool) (db : Db) (capped : caps.left (some pool) = some cap)
    : ((db.claimReadyFiltered env now worker limit classes caps excludeGangs).1.occupied pool : Int)
      ≤ max cap (db.occupied pool) := by
  have left := db.left_poolBudget capped
  refine (Db.occupied_claimEach left ?_).trans ?_
  · intro candidate among task was
    have among := (List.mem_insertionSort _).mp (List.mem_of_mem_take among)
    have found := Db.task?_of_mem (Table.mem_select.mp among).1
    rw [found] at was
    cases was
    rfl
  · omega

-- Gangs

def TaskColumns.inGang (gang : GangId) (columns : TaskColumns) : Prop :=
  columns.gang.any (fun seat => seat.gang = gang)

instance (gang : GangId) : DecidablePred (TaskColumns.inGang gang) := fun columns => by
  unfold TaskColumns.inGang
  infer_instance

theorem TaskColumns.inGang_iff {gang : GangId} {columns : TaskColumns}
    : columns.inGang gang ↔ ∃ seat, columns.gang = some seat ∧ seat.gang = gang := by
  simp [TaskColumns.inGang, Option.any_eq_true]

theorem TaskColumns.inGang.run {gang : GangId} {columns : TaskColumns} (member : columns.inGang gang)
    : gang.run = columns.runId := by
  obtain ⟨seat, seated, rfl⟩ := TaskColumns.inGang_iff.mp member
  exact columns.gangRun seat seated

/-- A gang has no more rows than its members say it has, and they are all of one pool. -/
structure Db.Ganged (db : Db) : Prop where
  fits
    : ∀ id task seat, db.task? id = some task → task.gang = some seat →
        db.countTasks (fun other => other.inGang seat.gang) ≤ seat.size
  pools
    : ∀ id task seat, db.task? id = some task → task.gang = some seat →
        ∀ other ∈ db.tasks, other.inGang seat.gang → other.pool = task.pool

theorem Db.Ganged.empty
    : Db.empty.Ganged where
  fits _ _ _ found := by cases found
  pools _ _ _ found := by cases found

section Writes

variable {env : Env} {op : Op} {start before after : Db}

theorem Writes.inGang (writes : Writes env start op before after) {id : Nat} {task' : TaskRow}
    {gang : GangId} (is : after.task? id = some task') (member : task'.inGang gang)
    : (∃ task, before.task? id = some task ∧ task'.toTaskColumns = task.toTaskColumns)
      ∨ ∃ now submission dag heldBy, op = .createRun now submission
          ∧ before.run? submission.run = none ∧ runGraph before submission = .ok dag
          ∧ ∃ seat ∈ seatsOf dag submission.mint,
            task' = rowOf dag submission.run now heldBy seat := by
  cases was : before.task? id with
  | some task => exact .inl ⟨task, rfl, (writes.evolves.kept was is).columns.1⟩
  | none =>
      right
      rcases writes.made was is with ⟨now, submission, rfl, _, _, vacant⟩ | ⟨_, _, _, ofBarrier, _⟩
      · obtain ⟨rfl, done⟩ := writes.returns rfl
        obtain ⟨dag, heldBy, graph, made⟩ := made_createRun env now done was is
        exact ⟨now, submission, dag, heldBy, rfl, vacant, graph, made⟩
      · obtain ⟨life, fresh, steps⟩ := writes.evolves.made was is
        have same : task'.toTaskColumns = life.columns := steps.columns.1
        obtain ⟨seat, seated, _⟩ := TaskColumns.inGang_iff.mp member
        rcases fresh.start with ⟨_, single⟩ | ⟨_, _, _, _, alone⟩
        · rw [← same, ofBarrier] at single
          cases single
        · rw [← same, seated] at alone
          cases alone

theorem Writes.ganged (writes : Writes env start op before after) (sited : before.Sited)
    (ganged : before.Ganged)
    : after.Ganged := by
  have told {id : Nat} {task' : TaskRow} {seat : GangSeat} (is : after.task? id = some task')
      (seated : task'.gang = some seat)
      : after.countTasks (fun other => other.inGang seat.gang) ≤ seat.size
        ∧ ∀ other ∈ after.tasks, other.inGang seat.gang → other.pool = task'.pool := by
    have member := TaskColumns.inGang_iff.mpr ⟨seat, seated, rfl⟩
    rcases writes.inGang is member with ⟨task, was, same⟩ | ⟨now, submission, dag, heldBy, rfl,
        vacant, graph, place, among, rfl⟩
    · -- The gang was there, and so was each of its rows.
      have seated : task.gang = some seat := same ▸ seated
      have old (other : TaskRow) (present : other ∈ after.tasks) (ofGang : other.inGang seat.gang)
          : ∃ row, before.task? other.id = some row ∧ other.toTaskColumns = row.toTaskColumns := by
        rcases writes.inGang (Db.task?_of_mem present) ofGang with old | ⟨_, submission, _, _, _,
            vacant, _, _, _, rfl⟩
        · exact old
        · have home := sited.homes id task was
          rw [show task.runId = submission.run from
            (task.gangRun seat seated).symm.trans ofGang.run, vacant] at home
          cases home
      refine ⟨(Table.count_le_of_keys ?_).trans (ganged.fits id task seat was seated), ?_⟩
      · intro other present ofGang
        obtain ⟨row, found, columns⟩ := old other present ofGang
        exact ⟨row, Table.mem_of_get? found, columns ▸ ofGang, Db.id_of_task? found⟩
      · intro other present ofGang
        obtain ⟨row, found, columns⟩ := old other present ofGang
        rw [columns, same]
        exact ganged.pools id task seat was seated row (Table.mem_of_get? found) (columns ▸ ofGang)
    · -- The gang is of a new run, and so is each of its rows.
      obtain ⟨spec, gangs, rfl⟩ := Option.map_eq_some_iff.mp seated
      have new (other : TaskRow) (present : other ∈ after.tasks)
          (ofGang : other.inGang ⟨submission.run, place.task.name⟩)
          : other.id ∈ idsOf (seatsOf dag submission.mint) place.task.name
            ∧ other.pool = place.task.pool := by
        rcases writes.inGang (Db.task?_of_mem present) ofGang with ⟨row, found, columns⟩ |
            ⟨_, _, dag', _, same, _, graph', other, among', rfl⟩
        · have home := sited.homes _ row found
          rw [show row.runId = submission.run from
            (congrArg TaskColumns.runId columns).symm.trans ofGang.run.symm, vacant] at home
          cases home
        · cases same
          cases graph.symm.trans graph'
          obtain ⟨_, seated', same⟩ := TaskColumns.inGang_iff.mp ofGang
          obtain ⟨_, _, rfl⟩ := Option.map_eq_some_iff.mp seated'
          have named : other.task.name = place.task.name := congrArg GangId.task same
          have one := List.inj_on_of_nodup_map dag.wellFormed.distinct
            (task_mem_of_mem_seatsOf among') (task_mem_of_mem_seatsOf among) named
          exact ⟨mem_idsOf.mpr ⟨other, among', named, rfl⟩, congrArg TaskSpec.pool one⟩
      refine ⟨?_, fun other present ofGang => (new other present ofGang).2⟩
      have count := Table.count_le_length (fun other present ofGang =>
        (new other present ofGang).1)
      rw [length_idsOf (task_mem_of_mem_seatsOf among), TaskSpec.rowCount, gangs] at count
      exact count
  exact ⟨fun id task seat is seated => (told is seated).1,
    fun id task seat is seated => (told is seated).2⟩

end Writes

theorem Db.occupied_claimReadyGang {caps : PoolBudget} {pool : String} {cap : Int} (env : Env)
    (now : Time) (worker : String) (capacity : Nat) (classes : List String) {db : Db}
    (ganged : db.Ganged) (capped : caps.left (some pool) = some cap)
    : ((db.claimReadyGang env now worker capacity classes caps).1.occupied pool : Int)
      ≤ max cap (db.occupied pool) := by
  simp only [Db.claimReadyGang]
  split
  · dsimp only
    omega
  split
  · dsimp only
    omega
  case h_2 group chosen =>
    dsimp only
    have seats : db.seatsGang caps group = true := List.find?_some chosen
    have listed := (List.mem_insertionSort _).mp (List.mem_of_find?_eq_some chosen)
    obtain ⟨task, due, grouped⟩ := List.mem_filterMap.mp (List.mem_dedup.mp (List.mem_of_mem_filter listed))
    obtain ⟨seat, seated, rfl⟩ := Option.map_eq_some_iff.mp grouped
    have found := Db.task?_of_mem (Table.mem_select.mp due).1
    let ofGang (other : TaskRow) : Prop :=
      other.gang.any (fun other => other.gang = seat.gang) ∧ other.status = .ready
    have taken := @Db.occupied_claim db ofGang (fun _ => instDecidableAnd) worker
      (now + seconds env.leaseSecs) pool
    refine (Int.ofNat_le.mpr taken).trans ?_
    by_cases ofPool : task.pool = some pool
    · have few : db.countTasks (fun other => ofGang other ∧ other.pool = some pool) ≤ seat.size :=
        (Table.count_le_of_keys (fun other present met => ⟨other, present, met.1.1, rfl⟩)).trans
          (ganged.fits _ task seat found seated)
      rw [Db.seatsGang, show ((seat.gang, seat.size, task.pool) : GangGroup).2.2 = some pool from
        ofPool, db.left_poolBudget capped, Option.all_some, decide_eq_true_iff] at seats
      dsimp only at seats
      omega
    · have none_ : db.countTasks (fun other => ofGang other ∧ other.pool = some pool) = 0 := by
        refine List.countP_eq_zero.mpr ?_
        intro other present met
        have met : ofGang other ∧ other.pool = some pool := of_decide_eq_true met
        exact ofPool ((ganged.pools _ task seat found seated other present met.1.1).symm.trans met.2)
      omega

-- Capacities

/-- Whether an operation that claims is given a capacity of a pool. -/
def Op.capped (pool : String) (cap : Int) : Op → Prop
  | .claimReady _ _ _ _ caps _ | .claimReadyGang _ _ _ _ caps => caps.left (some pool) = some cap
  | _ => True

instance (pool : String) (cap : Int) : DecidablePred (Op.capped pool cap) := fun op => by
  induction op using Op.casesOn <;> dsimp only [Op.capped] <;> infer_instance

/-- A store where claims have counted no more slots of a pool taken than it has. -/
structure World.Budgeted (pool : String) (cap : Int) (world : World) : Prop where
  sited
    : world.db.Sited
  ganged
    : world.db.Ganged
  within
    : (world.db.occupied pool : Int) ≤ max cap 0

theorem World.Budgeted.init (pool : String) (cap : Int)
    : World.init.Budgeted pool cap where
  sited := Db.Coherent.empty.sited
  ganged := .empty
  within := Int.le_max_right cap 0

section Worlds

variable {env : Env} {op : Op} {world : World} {commit : Commit World Op} {pool : String}
  {cap : Int}

theorem World.Budgeted.step (member : commit ∈ commitsFrom op world ((store env).commits op world))
    (budgeted : commit.before.Budgeted pool cap) (capped : op.capped pool cap)
    : commit.after.Budgeted pool cap := by
  have writes := writes_of_mem member
  refine ⟨writes.sited budgeted.sited, writes.ganged budgeted.sited budgeted.ganged, ?_⟩
  have within := budgeted.within
  have rest (claim : .claim ∉ op.moves)
      : (commit.after.db.occupied pool : Int) ≤ max cap 0 :=
    (Int.ofNat_le.mpr (writes.evolves.occupied_le claim pool)).trans within
  cases op with
  | claimReady now worker limit classes caps excludeGangs =>
      obtain rfl := mem_commitsFrom_singleton.mp member
      refine (Db.occupied_claimReadyFiltered env now worker limit classes excludeGangs world.db
        capped).trans ?_
      exact max_le (Int.le_max_left cap 0) within
  | claimReadyGang now worker capacity classes caps =>
      obtain rfl := mem_commitsFrom_singleton.mp member
      refine (Db.occupied_claimReadyGang env now worker capacity classes budgeted.ganged capped).trans ?_
      exact max_le (Int.le_max_left cap 0) within
  | _ => exact rest (by simp [Op.moves, readinessMoves, fanoutMoves])

end Worlds

-- What really runs

/-- A task that is parked on something free: nobody has it, and it waits for a child run, a time,
an endpoint, a dataset, or the instances it fans out into.
-/
def TaskRow.parkedFree (task : TaskRow) : Prop :=
  task.claimedBy = none ∧ (0 < task.waits ∨ task.fanoutOf.isSome)

/-- A task that takes a slot of a pool: it runs, and is not parked on something free. -/
def TaskRow.takesSlot (pool : String) (task : TaskRow) : Prop :=
  task.status = .running ∧ task.pool = some pool ∧ ¬ task.parkedFree

instance (pool : String) : DecidablePred (TaskRow.takesSlot pool) := fun task => by
  unfold TaskRow.takesSlot TaskRow.parkedFree
  infer_instance

namespace Life

/-- What must not wait on something free: who is held, who is queued or not started, and who
runs under a lease or was asked to stop.
-/
def Busy (life : Life) : Prop :=
  life.claimedBy.isSome ∨ life.status = .pending ∨ life.status = .ready
    ∨ (life.status = .running ∧ (life.leased = true ∨ life.stopAsked = true))

/-- What holds of every task: it waits on one thing at most, and on none where it is busy. -/
structure Seated (life : Life) : Prop where
  busy
    : life.Busy → life.waits = 0
  once
    : life.waits ≤ 1

theorem Fresh.seated {life : Life} (fresh : life.Fresh)
    : life.Seated :=
  ⟨fun _ => fresh.waits, by simp [fresh.waits]⟩

theorem Seated.mono {life life' : Life} (seated : life.Seated) (less : life'.waits ≤ life.waits)
    (busy : life'.Busy → life.Busy)
    : life'.Seated where
  busy now_ := by
    have none_ := seated.busy (busy now_)
    omega
  once := less.trans seated.once

theorem Busy.held {life : Life} {succeeded : Bool} (busy : life.Busy)
    (ended : life.status = .ended succeeded)
    : life.claimedBy.isSome := by
  rcases busy with held | pending | ready | ⟨running, _⟩
  · exact held
  all_goals
    cases succeeded <;> simp_all [TaskStatus.ended]

theorem Step.seated {move : Move} {life life' : Life} (step : Step move life life')
    (park : move ≠ .park) (release : move ≠ .release) (seated : life.Seated)
    : life'.Seated := by
  cases step with
  | count | recount | stamp | clearHandle => exact seated.mono (Nat.le_refl _) (fun busy => busy)
  | ready pending | parkBarrier pending | ask pending | skip pending | failWhen pending =>
      exact seated.mono (Nat.le_refl _) (fun _ => .inr (.inl pending))
  | claim ready => exact seated.mono (Nat.le_refl _) (fun _ => .inr (.inr (.inl ready)))
  | renew held | succeed held | fail held | retry held | askStop _ held | settle _ held =>
      exact seated.mono (Nat.le_refl _) (fun _ => .inl held)
  | recover running leased =>
      exact seated.mono (Nat.le_refl _) (fun _ => .inr (.inr (.inr ⟨running, .inl leased⟩)))
  | claimTeardown running asked =>
      exact seated.mono (Nat.le_refl _) (fun _ => .inr (.inr (.inr ⟨running, .inr asked⟩)))
  | park => exact absurd rfl park
  | release => exact absurd rfl release
  | resolve _ _ _ _ _ _ freed => exact seated.mono freed (fun busy => .inl (busy.held rfl))
  | finishBarrier | decide =>
      exact seated.mono (Nat.le_refl _) (fun busy => .inl (busy.held rfl))
  | requeue _ _ _ waits freed =>
      have once := seated.once
      have none_ : waits = 0 := by omega
      exact ⟨fun _ => none_, by simp [none_]⟩
  | cancel =>
      refine seated.mono (Nat.le_refl _) ?_
      rintro (held | pending | ready | ⟨running, _⟩)
      · cases held
      · cases pending
      · cases ready
      · cases running
  | clearStop stopped =>
      refine seated.mono (Nat.le_refl _) ?_
      rintro (held | pending | ready | ⟨running, _⟩)
      · exact .inl held
      · exact .inr (.inl pending)
      · exact .inr (.inr (.inl ready))
      · exact absurd running stopped
  | retryFromUi | reset => exact ⟨fun _ => rfl, Nat.zero_le _⟩

theorem Step.park_seated {life life' : Life}
    (step : Step .park life life' ∨ Step .release life life') (held : life.claimedBy.isSome)
    (seated : life.Seated)
    : life'.Seated := by
  have none_ := seated.busy (.inl held)
  rcases step with step | step
  · cases step with
    | park running free parks one waits more =>
        refine ⟨?_, by dsimp only; omega⟩
        rintro (held | pending | ready | ⟨_, leased | asked⟩)
        · cases held
        · simp [running] at pending
        · simp [running] at ready
        · cases leased
        · simp [free] at asked
  · cases step with
    | release => exact ⟨fun _ => none_, none_.le.trans (Nat.zero_le _)⟩

end Life

/-- A store where nobody works on a fan-out's barrier, and no busy task waits. -/
structure World.Manned (world : World) : Prop where
  ticketed
    : world.Ticketed
  unworked
    : world.Unworked TaskColumns.fans
  seated
    : ∀ id task, world.db.task? id = some task → task.life.Seated

theorem World.Manned.init
    : World.init.Manned where
  ticketed := .init
  unworked := .init _
  seated _ _ found := by cases found

theorem World.Manned.step {env : Env} {op : Op} {world : World} {commit : Commit World Op}
    (member : commit ∈ commitsFrom op world ((store env).commits op world))
    (manned : commit.before.Manned) (leaves : ¬ op.retries TaskColumns.fans commit.before.db)
    : commit.after.Manned where
  ticketed := manned.ticketed.step member
  unworked := manned.unworked.step (fun _ => .inl) member leaves
  seated := by
    refine manned.ticketed.rule member Life.Seated ?_ ?_ manned.seated
    · intro life life' step held seated
      exact Life.Step.park_seated step held seated
    · intro parks seated
      obtain ⟨park, release⟩ := op.park_not_mem_moves parks
      refine (writes_of_mem member).evolves.rule Life.Seated (fun _ => Life.Fresh.seated) ?_ seated
      intro move listed life life' step seated
      refine step.seated ?_ ?_ seated
      · rintro rfl
        exact park listed
      · rintro rfl
        exact release listed

theorem World.Manned.occupies {world : World} (manned : world.Manned) {pool : String}
    {task : TaskRow} (present : task ∈ world.db.tasks) (takes : task.takesSlot pool)
    : task.occupies pool := by
  obtain ⟨running, ofPool, unparked⟩ := takes
  have found := Db.task?_of_mem present
  cases claimed : task.claimedBy with
  | none =>
      have free : ¬ (0 < task.waits ∨ task.fanoutOf.isSome) := fun free => unparked ⟨claimed, free⟩
      obtain ⟨waits, single⟩ := not_or.mp free
      exact TaskRow.occupies_iff.mpr ⟨running, ofPool, Nat.eq_zero_of_not_pos waits,
        Option.not_isSome_iff_eq_none.mp single⟩
  | some worker =>
      have held : task.life.claimedBy.isSome := Option.isSome_iff_exists.mpr ⟨worker, claimed⟩
      have waits := (manned.seated _ task found).busy (.inl held)
      refine TaskRow.occupies_iff.mpr ⟨running, ofPool, waits, ?_⟩
      by_contra fans
      have unclaimed := (manned.unworked.rows _ task found (Option.isSome_iff_ne_none.mpr fans)).unclaimed
      rw [unclaimed] at held
      cases held

/-- In every state reached by claims that are given a pool's capacity, and in which no person
retries a fan-out's barrier, the tasks of the pool that run and are not parked on something
free are no more than its capacity.
-/
theorem pool_not_overcommitted {env : Env} {pool : String} {cap : Int} {world : World}
    (reachable : (store env).Reachable (fun op world =>
      op.capped pool cap ∧ ¬ op.retries TaskColumns.fans world.db) world)
    : (world.db.countTasks (TaskRow.takesSlot pool) : Int) ≤ max cap 0 := by
  let Inv (world : World) : Prop := world.Budgeted pool cap ∧ world.Manned
  obtain ⟨budgeted, manned⟩ : Inv world := by
    refine @System.Reachable.invariant _ _ _ _ Inv _ reachable ⟨.init pool cap, .init⟩ ?_
    intro op origin _ commit member before permitted
    exact ⟨before.1.step member permitted.1, before.2.step member permitted.2⟩
  refine le_trans (Int.ofNat_le.mpr ?_) budgeted.within
  refine Table.count_le_of_keys ?_
  intro task present takes
  exact ⟨task, present, manned.occupies present takes, rfl⟩

/-- One task of a pool, and a report of it in the same pool for each thing it prints. -/
def pooledReport : DagGraph where
  spec := {
    name := "nightly"
    tasks := [{ name := "shard", pool := some "warehouse" },
      { name := "report", dependsOn := ["shard"], withOutputOf := some "shard",
        pool := some "warehouse" }]
  }
  parameters := []
  wellFormed := by
    refine ⟨by decide, by decide, by decide, ?_, by decide, by decide, by decide⟩
    exact ⟨fun name => if name = "report" then 1 else 0, by decide⟩

def claimPooled (now : Time) : Op :=
  .claimReady now "worker" 1 [] [("warehouse", 1)] false

/-- The barrier of the reports is parked, and another run's task takes the slot. -/
def poolParked : List Op :=
  [.createRun 0 (submit pooledReport 0), .advanceReadyTasks 1, claimPooled 2,
    .markTaskSucceeded 3 0 "worker" 1 (some "[]") false, .advanceReadyTasks 4,
    .createRun 5 (submit pooledReport 1), .advanceReadyTasks 6, claimPooled 7]

/-- A pool of one slot has one task that takes it. -/
theorem pool_not_overcommitted_poolParked
    : (((store plainEnv).outcome .init poolParked).db.countTasks
        (TaskRow.takesSlot "warehouse") : Int) ≤ max 1 0 := by
  have reached : (store plainEnv).Reachable (fun op world =>
      op.capped "warehouse" 1 ∧ ¬ op.retries TaskColumns.fans world.db)
      ((store plainEnv).outcome .init poolParked) := .outcome (by decide)
  exact pool_not_overcommitted reached

/-- A barrier that was cancelled is retried, and a worker claims it before another run's task. -/
def poolRetried : List Op :=
  [.createRun 0 (submit pooledReport 0), .advanceReadyTasks 1, claimPooled 2,
    .markTaskSucceeded 3 0 "worker" 1 (some "[]") false, .advanceReadyTasks 4, .cancelRun 5 0,
    .retryTaskFromUi 6 1 none, claimPooled 7,
    .createRun 8 (submit pooledReport 1), .advanceReadyTasks 9, claimPooled 10]

/-- A pool may be over-committed: no claim counts the slot of a barrier that a worker runs. -/
theorem not_pool_not_overcommitted
    : ¬ ∀ world, (store plainEnv).Reachable (fun op _ => op.capped "warehouse" 1) world →
        (world.db.countTasks (TaskRow.takesSlot "warehouse") : Int) ≤ max 1 0 := by
  intro fits
  have reached : (store plainEnv).Reachable (fun op _ => op.capped "warehouse" 1)
      ((store plainEnv).outcome .init poolRetried) := .outcome (by decide)
  have both := fits _ reached
  revert both
  decide

end Dagron.Store
