import Dagron.Store.Recount
import Dagron.Store.Runs

/-! What new rows do to a steady store: those of a new run, whose counters are written as the
dependencies they are inserted with, and those of a fan-out's instances.
-/

namespace Dagron.Store

open Dagron.Library Dagron.Spec

-- Rows that are inserted

section Insert

variable {before after : Db} {rows : List TaskRow} {added : List DepRow}

/-- Rows inserted into runs that are there, with dependencies within a run, are where they
belong.
-/
theorem Db.Sited.inserted (sited : before.Sited) (tasks : before.tasks.insertAll rows = some after.tasks)
    (deps : before.deps.insertAll added = some after.deps)
    (runs : ∀ id, (before.run? id).isSome → after.run? id = before.run? id)
    (homes : ∀ row ∈ rows, (after.run? row.runId).isSome)
    (ends : ∀ dep ∈ added, ∃ task on, after.task? dep.dependent = some task
      ∧ after.task? dep.dependency = some on ∧ task.runId = on.runId)
    : after.Sited := by
  have kept {id : Nat} {task : TaskRow} (was : before.task? id = some task)
      : after.task? id = some task :=
    Table.get?_insertAll_of_get? tasks was
  refine ⟨?_, ?_⟩
  · intro id task is
    rcases Table.get?_insertAll tasks is with was | ⟨_, new⟩
    · have home := sited.homes id task was
      rw [runs _ home]
      exact home
    · exact homes task new
  · intro node other depends
    have member : (⟨node, other⟩ : DepRow) ∈ before.deps.rows ++ added := by
      rw [← Table.rows_insertAll deps]
      exact depends
    rcases List.mem_append.mp member with old | new
    · obtain ⟨task, on, was, wasOn, same⟩ := sited.edges node other old
      exact ⟨task, on, kept was, kept wasOn, same⟩
    · exact ends _ new

theorem carries_inserted (tasks : before.tasks.insertAll rows = some after.tasks)
    (deps : before.deps.insertAll added = some after.deps)
    (runs : ∀ id, (before.run? id).isSome → after.run? id = before.run? id)
    (homes : ∀ row ∈ rows, (after.run? row.runId).isSome)
    (ends : ∀ dep ∈ added, ∃ task on, after.task? dep.dependent = some task
      ∧ after.task? dep.dependency = some on ∧ task.runId = on.runId)
    (acyclic : before.Coherent → Board.Acyclic after.board.edges)
    (started : ∀ dep ∈ added, ∀ task, before.task? dep.dependent = some task → task.status ≠ .pending)
    (waiting : before.Coherent → ∀ id run, after.run? id = some run → run.waiting = true →
      (before.run? id = none → run.stoppingAs = none)
      ∧ ∀ row ∈ rows, row.runId = id → row.status = .pending ∧ row.claimedBy = none)
    (counted : before.Coherent → ∀ row ∈ rows, row.status = .pending → after.board.slack row.id = 0)
    : Carries Board.Recounts before after := by
  intro steady
  have kept {id : Nat} {task : TaskRow} (was : before.task? id = some task)
      : after.task? id = some task :=
    Table.get?_insertAll_of_get? tasks was
  have found {id : Nat} {task : TaskRow} (is : after.task? id = some task)
      : before.task? id = some task ∨ (before.task? id = none ∧ task ∈ rows) :=
    Table.get?_insertAll tasks is
  have edges : after.board.edges = before.board.edges
      ++ added.map (fun dep => (dep.dependent, dep.dependency)) := by
    simp only [Db.board, Table.rows_insertAll deps, List.map_append]
  obtain ⟨housed, linked⟩ := steady.coherent.sited.inserted tasks deps runs homes ends
  refine ⟨?_, housed, linked, acyclic steady.coherent, ?_⟩
  · intro id pending
    obtain ⟨task, is, status⟩ := exists_of_pending pending
    rcases found is with was | ⟨_, new⟩
    · refine .inl ⟨pending_of_task? was status, Board.slack_congr ?_ ?_ ?_⟩
      · rw [remaining_board is, remaining_board was]
      · rw [hold_board is, hold_board was]
        unfold Db.heldUnits
        rw [runs _ (steady.coherent.homes id task was)]
      · have live (other : Nat) (edge : (id, other) ∈ before.board.edges)
            : before.board.live other = after.board.live other := by
          obtain ⟨_, on, _, wasOn, _⟩ := steady.coherent.edges id other (mem_edges.mp edge)
          rw [live_board, live_board, wasOn, kept wasOn]
        have none_ : (added.map (fun dep => (dep.dependent, dep.dependency))).filter
            (fun edge => edge.1 = id) = [] := by
          refine List.filter_eq_nil_iff.mpr ?_
          intro edge member
          obtain ⟨dep, among, rfl⟩ := List.mem_map.mp member
          simp only [decide_eq_true_eq]
          intro here
          exact started dep among task (here ▸ was) status
        rw [Board.blockers, Board.blockers, Board.prerequisites_congr live,
          Board.prerequisites_filter, edges, List.filter_append, none_, List.append_nil,
          ← Board.prerequisites_filter]
    · have here : task.id = id := Db.id_of_task? is
      exact .inr (here ▸ counted steady.coherent task new status)
  · intro id run is waits
    obtain ⟨stopping, pending⟩ := waiting steady.coherent id run is waits
    cases was : before.run? id with
    | none =>
        refine ⟨stopping was, ?_⟩
        intro other task isTask ofRun
        rcases found isTask with old | ⟨_, new⟩
        · have home := steady.coherent.homes other task old
          rw [ofRun, was] at home
          cases home
        · exact pending task new ofRun
    | some run' =>
        have same := runs id (by simp [was])
        rw [is, was] at same
        cases same
        obtain ⟨stopping', pending'⟩ := steady.coherent.waiting id run was waits
        refine ⟨stopping', ?_⟩
        intro other task isTask ofRun
        rcases found isTask with old | ⟨_, new⟩
        · exact pending' other task old ofRun
        · exact pending task new ofRun

end Insert

-- The rows of a graph

section Seats

variable {dag : DagGraph} {mint : Nat → Nat}

theorem sum_of_named {tasks : List TaskSpec} (distinct : (tasks.map TaskSpec.name).Nodup)
    {task : TaskSpec} (member : task ∈ tasks) (share : TaskSpec → Nat)
    : (tasks.map (fun other => if other.name = task.name then share other else 0)).sum
      = share task := by
  induction tasks with
  | nil => cases member
  | cons head rest ih =>
      rw [List.map_cons, List.nodup_cons] at distinct
      rw [List.map_cons, List.sum_cons]
      rcases List.mem_cons.mp member with rfl | later
      · have others : rest.map (fun other => if other.name = task.name then share other else 0)
            = rest.map (fun _ => 0) := by
          refine List.map_congr_left ?_
          intro other among
          rw [if_neg]
          intro same
          exact distinct.1 (same ▸ List.mem_map_of_mem among)
        rw [if_pos rfl, others]
        simp
      · have apart : head.name ≠ task.name := by
          intro same
          exact distinct.1 (same ▸ List.mem_map_of_mem later)
        rw [if_neg apart, ih distinct.2 later, Nat.zero_add]

theorem taskSpec_of_mem {task : TaskSpec} (member : task ∈ dag.spec.tasks)
    : dag.taskSpec task.name = some task := by
  cases found : dag.taskSpec task.name with
  | none =>
      have absent := List.find?_eq_none.mp found task member
      simp at absent
  | some other =>
      have same : other.name = task.name := by simpa using List.find?_some found
      rw [List.inj_on_of_nodup_map dag.wellFormed.distinct (List.mem_of_find?_eq_some found) member same]

theorem length_idsOf {task : TaskSpec} (member : task ∈ dag.spec.tasks)
    : (idsOf (seatsOf dag mint) task.name).length = task.rowCount := by
  rw [idsOf, List.length_map, ← List.countP_eq_length_filter, seatsOf, List.countP_map]
  let pairs := dag.spec.tasks.flatMap
    (fun task => (List.range task.rowCount).map (fun rank => (task, rank)))
  have unzipped : pairs.zipIdx.countP (fun entry => decide (entry.1.1.name = task.name))
      = pairs.countP (fun pair => decide (pair.1.name = task.name)) := by
    rw [show pairs.countP (fun pair => decide (pair.1.name = task.name))
        = (pairs.zipIdx.map Prod.fst).countP (fun pair => decide (pair.1.name = task.name)) from
      by rw [List.zipIdx_map_fst], List.countP_map]
    rfl
  refine Eq.trans unzipped ?_
  have each (other : TaskSpec)
      : ((List.range other.rowCount).map (fun rank => (other, rank))).countP
          (fun pair => decide (pair.1.name = task.name))
        = if other.name = task.name then other.rowCount else 0 := by
    rw [List.countP_map]
    by_cases same : other.name = task.name
    · simp [Function.comp_def, same]
    · simp [Function.comp_def, same]
  rw [show pairs = _ from rfl, List.countP_flatMap]
  simp only [Function.comp_def, each]
  exact sum_of_named dag.wellFormed.distinct member TaskSpec.rowCount

theorem depCount_eq {task : TaskSpec} (member : task ∈ dag.spec.tasks)
    : depCount dag task
      = (task.dependsOn.map (fun dep => (idsOf (seatsOf dag mint) dep).length)).sum := by
  unfold depCount
  congr 1
  refine List.map_congr_left ?_
  intro dep listed
  obtain ⟨other, among, rfl⟩ := List.mem_map.mp (dag.wellFormed.known task member dep listed)
  rw [taskSpec_of_mem among, length_idsOf among]
  rfl

theorem mem_idsOf {seats : List Seat} {name : String} {id : Nat}
    : id ∈ idsOf seats name ↔ ∃ seat ∈ seats, seat.task.name = name ∧ seat.id = id := by
  simp [idsOf, and_assoc]

theorem mem_depRowsOf {seats : List Seat} {dep : DepRow} (member : dep ∈ depRowsOf dag seats)
    : ∃ first ∈ seats, ∃ second ∈ seats, first.id = dep.dependent ∧ second.id = dep.dependency
        ∧ (first.task.name, second.task.name) ∈ edges dag.spec.tasks := by
  unfold depRowsOf at member
  obtain ⟨task, among, member⟩ := List.mem_flatMap.mp member
  obtain ⟨on, listed, member⟩ := List.mem_flatMap.mp member
  obtain ⟨dependent, ofTask, member⟩ := List.mem_flatMap.mp member
  obtain ⟨dependency, ofOn, rfl⟩ := List.mem_map.mp member
  obtain ⟨first, inSeats, named, rfl⟩ := mem_idsOf.mp ofTask
  obtain ⟨second, inSeats', named', rfl⟩ := mem_idsOf.mp ofOn
  refine ⟨first, inSeats, second, inSeats', rfl, rfl, ?_⟩
  rw [named, named']
  exact List.mem_flatMap.mpr ⟨task, among, List.mem_map_of_mem listed⟩

theorem count_depRowsOf (distinct : ((seatsOf dag mint).map Seat.id).Nodup) {seat : Seat}
    (member : seat ∈ seatsOf dag mint)
    : (depRowsOf dag (seatsOf dag mint)).countP (fun dep => dep.dependent = seat.id)
      = depCount dag seat.task := by
  have inTasks := task_mem_of_mem_seatsOf member
  have once (name : String) : (idsOf (seatsOf dag mint) name).count seat.id
      = if name = seat.task.name then 1 else 0 := by
    have distinct' : (idsOf (seatsOf dag mint) name).Nodup :=
      (List.Sublist.map _ List.filter_sublist).nodup distinct
    rw [distinct'.count]
    by_cases same : name = seat.task.name
    · rw [if_pos same, if_pos (mem_idsOf.mpr ⟨seat, member, same.symm, rfl⟩)]
    · rw [if_neg same, if_neg]
      intro listed
      obtain ⟨other, among, named, clash⟩ := mem_idsOf.mp listed
      rw [List.inj_on_of_nodup_map distinct among member clash] at named
      exact same named.symm
  have rows (name dep : String)
      : (((idsOf (seatsOf dag mint) name).flatMap (fun dependent =>
          (idsOf (seatsOf dag mint) dep).map (fun dependency =>
            (⟨dependent, dependency⟩ : DepRow)))).countP
          (fun dep => decide (dep.dependent = seat.id)))
        = if name = seat.task.name then (idsOf (seatsOf dag mint) dep).length else 0 := by
    have sum (ids : List Nat) : (ids.flatMap (fun dependent =>
          (idsOf (seatsOf dag mint) dep).map (fun dependency =>
            (⟨dependent, dependency⟩ : DepRow)))).countP
          (fun dep => decide (dep.dependent = seat.id))
        = ids.count seat.id * (idsOf (seatsOf dag mint) dep).length := by
      induction ids with
      | nil => simp
      | cons head rest ih =>
          rw [List.flatMap_cons, List.countP_append, ih, List.count_cons, List.countP_map]
          by_cases here : head = seat.id
          · simp [Function.comp_def, here, Nat.add_mul, Nat.add_comm]
          · simp [Function.comp_def, here]
    rw [sum, once]
    split <;> simp
  unfold depRowsOf
  rw [List.countP_flatMap]
  have each (task : TaskSpec)
      : (task.dependsOn.flatMap (fun dep =>
          (idsOf (seatsOf dag mint) task.name).flatMap (fun dependent =>
            (idsOf (seatsOf dag mint) dep).map (fun dependency =>
              (⟨dependent, dependency⟩ : DepRow))))).countP
          (fun dep => decide (dep.dependent = seat.id))
        = if task.name = seat.task.name then
            (task.dependsOn.map (fun dep => (idsOf (seatsOf dag mint) dep).length)).sum
          else 0 := by
    rw [List.countP_flatMap]
    simp only [Function.comp_def, rows]
    split <;> simp
  simp only [Function.comp_def, each]
  rw [@depCount_eq dag mint seat.task inTasks]
  exact sum_of_named dag.wellFormed.distinct inTasks
    (fun task => (task.dependsOn.map (fun dep => (idsOf (seatsOf dag mint) dep).length)).sum)

theorem acyclic_depRowsOf (distinct : ((seatsOf dag mint).map Seat.id).Nodup)
    : Board.Acyclic ((depRowsOf dag (seatsOf dag mint)).map
        (fun dep => (dep.dependent, dep.dependency))) := by
  obtain ⟨rank, falls⟩ := dag.wellFormed.acyclic
  have found {seat : Seat} (member : seat ∈ seatsOf dag mint)
      : (seatsOf dag mint).find? (fun other => other.id = seat.id) = some seat := by
    cases search : (seatsOf dag mint).find? (fun other => other.id = seat.id) with
    | none =>
        have absent := List.find?_eq_none.mp search seat member
        simp at absent
    | some other =>
        have same : other.id = seat.id := by simpa using List.find?_some search
        rw [List.inj_on_of_nodup_map distinct (List.mem_of_find?_eq_some search) member same]
  refine ⟨fun id => (((seatsOf dag mint).find? (fun seat => seat.id = id)).map
    (fun seat => rank seat.task.name)).getD 0, ?_⟩
  intro edge member
  obtain ⟨dep, listed, rfl⟩ := List.mem_map.mp member
  obtain ⟨first, inFirst, second, inSecond, same, same', edge⟩ := mem_depRowsOf listed
  simp only [← same, ← same', found inFirst, found inSecond]
  exact falls _ edge

end Seats

-- New runs

section Create

variable (env : Env) (now : Time) {before after : Db}

theorem insertRun_places {dag : DagGraph} {row : RunRow} {mint : Nat → Nat}
    (done : insertRun before dag row mint = some after)
    : (∀ id, (before.run? id).isSome → after.run? id = before.run? id)
        ∧ (∀ heldBy, ∀ task ∈ (seatsOf dag mint).map (rowOf dag row.id row.createdAt heldBy),
          (after.run? task.runId).isSome)
        ∧ ∀ dep ∈ depRowsOf dag (seatsOf dag mint), ∃ task on,
          after.task? dep.dependent = some task ∧ after.task? dep.dependency = some on
            ∧ task.runId = on.runId := by
  obtain ⟨heldBy, held, insertedRun, tasks, deps, _⟩ := insertRun_eq_some done
  obtain ⟨vacant, runs⟩ := Table.get?_insert insertedRun
  have vacant : before.run? row.id = none := vacant
  have runs (id : Nat) : after.run? id = if id = row.id then some row else before.run? id :=
    runs id
  have seated {seat : Seat} (member : seat ∈ seatsOf dag mint)
      : after.task? seat.id = some (rowOf dag row.id row.createdAt heldBy seat) :=
    Table.get?_of_mem_insertAll tasks (List.mem_map_of_mem member)
  refine ⟨?_, ?_, ?_⟩
  · intro id some_
    refine (runs id).trans (if_neg ?_)
    intro here
    subst here
    rw [vacant] at some_
    cases some_
  · intro heldBy task member
    obtain ⟨seat, _, rfl⟩ := List.mem_map.mp member
    exact Option.isSome_iff_exists.mpr ⟨row, (runs row.id).trans (if_pos rfl)⟩
  · intro dep member
    obtain ⟨first, inFirst, second, inSecond, same, same', _⟩ := mem_depRowsOf member
    rw [← same, ← same']
    exact ⟨_, _, seated inFirst, seated inSecond, rfl⟩

/-- The rows of a new run are counted as they are inserted: each waits for the dependencies it
is written with, and for its run where that waits.
-/
theorem carries_insertRun {dag : DagGraph} {row : RunRow} {mint : Nat → Nat}
    (fresh : row.status = .running ∧ row.admittedAt = none ∧ row.stoppingAs = none)
    (done : insertRun before dag row mint = some after)
    : Carries Board.Recounts before after := by
  obtain ⟨heldBy, held, insertedRun, tasks, deps, _⟩ := insertRun_eq_some done
  obtain ⟨vacant, runs⟩ := Table.get?_insert insertedRun
  have vacant : before.run? row.id = none := vacant
  have runs (id : Nat) : after.run? id = if id = row.id then some row else before.run? id :=
    runs id
  have home : after.run? row.id = some row := (runs row.id).trans (if_pos rfl)
  obtain ⟨keys, absent⟩ := Table.fresh_insertAll tasks
  have distinct : ((seatsOf dag mint).map Seat.id).Nodup := by
    rw [List.map_map] at keys
    exact keys
  have seated {seat : Seat} (member : seat ∈ seatsOf dag mint)
      : after.task? seat.id = some (rowOf dag row.id row.createdAt heldBy seat)
        ∧ before.task? seat.id = none := by
    have listed := List.mem_map_of_mem (f := rowOf dag row.id row.createdAt heldBy) member
    exact ⟨Table.get?_of_mem_insertAll tasks listed, absent _ listed⟩
  have edges : after.board.edges = before.board.edges
      ++ (depRowsOf dag (seatsOf dag mint)).map (fun dep => (dep.dependent, dep.dependency)) := by
    simp only [Db.board, Table.rows_insertAll deps, List.map_append]
  obtain ⟨kept, homes, ends⟩ := insertRun_places done
  refine carries_inserted tasks deps kept (homes heldBy) ends ?_ ?_ ?_ ?_
  · intro coherent
    rw [edges]
    refine Board.Acyclic.append (fun id => (before.task? id).isNone) coherent.acyclic
      (acyclic_depRowsOf distinct) ?_ ?_
    · intro edge member
      obtain ⟨task, on, was, wasOn, _⟩ := coherent.edges edge.1 edge.2 (mem_edges.mp member)
      simp [was, wasOn]
    · intro edge member
      obtain ⟨dep, listed, rfl⟩ := List.mem_map.mp member
      obtain ⟨first, inFirst, second, inSecond, same, same', _⟩ := mem_depRowsOf listed
      simp [← same, ← same', (seated inFirst).2, (seated inSecond).2]
  · intro dep member task was
    obtain ⟨first, inFirst, _, _, same, _⟩ := mem_depRowsOf member
    rw [← same, (seated inFirst).2] at was
    cases was
  · intro _ id run is _
    refine ⟨?_, ?_⟩
    · intro was
      have read := runs id
      by_cases here : id = row.id
      · rw [if_pos here, is] at read
        cases read
        exact fresh.2.2
      · rw [if_neg here, is, was] at read
        cases read
    · intro task member _
      obtain ⟨seat, _, rfl⟩ := List.mem_map.mp member
      exact ⟨rfl, rfl⟩
  · intro coherent task member _
    obtain ⟨seat, inSeats, rfl⟩ := List.mem_map.mp member
    obtain ⟨is, was⟩ := seated inSeats
    refine Board.slack_eq_zero_of_counted ?_
    have held_ : after.heldUnits row.id = heldBy := by
      rw [Db.heldUnits, home, held]
      simp [RunRow.waiting, fresh.1, fresh.2.1]
    have blockers : after.board.blockers seat.id = depCount dag seat.task := by
      have live (other : Nat) (edge : (seat.id, other) ∈ after.board.edges)
          : after.board.live other = true := by
        rw [edges, List.mem_append] at edge
        rcases edge with old | new
        · obtain ⟨_, _, was', _⟩ := coherent.edges seat.id other (mem_edges.mp old)
          rw [was] at was'
          cases was'
        · obtain ⟨dep, listed, same⟩ := List.mem_map.mp new
          obtain ⟨_, _, second, inSecond, _, same', _⟩ := mem_depRowsOf listed
          have onto : dep.dependency = other := congrArg Prod.snd same
          rw [live_board, ← onto, ← same', (seated inSecond).1]
          rfl
      have old : before.board.edges.countP (fun edge => edge.1 = seat.id) = 0 := by
        refine List.countP_eq_zero.mpr ?_
        intro edge member
        simp only [decide_eq_true_eq]
        intro here
        obtain ⟨_, _, was', _⟩ := coherent.edges edge.1 edge.2 (mem_edges.mp member)
        rw [here, was] at was'
        cases was'
      rw [Board.blockers, Board.prerequisites_congr live, Board.prerequisites, edges,
        List.countP_append, List.countP_map]
      simp only [Function.comp_def, and_true]
      rw [old, count_depRowsOf distinct inSeats, Nat.zero_add]
    have same : (rowOf dag row.id row.createdAt heldBy seat).id = seat.id := rfl
    rw [same, remaining_board is, hold_board is, blockers]
    exact congrArg _ (congrArg _ held_.symm)

theorem carries_createRun {submission : Submission} (done : createRun env now submission before = .ok after)
    : Carries Board.Recounts before after := by
  obtain ⟨dag, admitted, row, _, rfl, ⟨_, _, _, rfl, _⟩, inserted⟩ := createRun_ok env now done
  refine .then_recounts ?_ (carries_insertRun ⟨rfl, rfl, rfl⟩ inserted)
  simp only [weigh]
  split
  · exact .refl before
  · dsimp only
    split
    · exact carries_supersedeRuns env now before _ _ _ _
    · exact .refl before

end Create

-- Fan-outs

section Fanouts

variable (env : Env) (now : Time) {before after : Db}

theorem Db.Sited.unlinked (sited : before.Sited) (tasks : after.tasks = before.tasks)
    (deps : ∀ node other, after.dependsOn node other → before.dependsOn node other)
    (runs : after.runs = before.runs)
    : after.Sited := by
  have task? (id : Nat) : after.task? id = before.task? id := by
    unfold Db.task?
    rw [tasks]
  refine ⟨?_, ?_⟩
  · intro id task is
    unfold Db.run?
    rw [runs]
    exact sited.homes id task (task? id ▸ is)
  · intro node other depends
    obtain ⟨task, on, was, wasOn, same⟩ := sited.edges node other (deps node other depends)
    exact ⟨task, on, (task? node).trans was, (task? other).trans wasOn, same⟩

/-- A deletion of rows keeps each row that a dependency names. -/
theorem task?_of_named {cond : TaskRow → Prop} [DecidablePred cond] (done : before.deleteTasks cond = some after)
    {id : Nat} {task : TaskRow} (was : before.task? id = some task)
    (named : ∃ dep ∈ before.deps, dep.dependent = id ∨ dep.dependency = id)
    : after.task? id = some task := by
  rw [task?_deleteTasks done, was, Option.filter_some, if_pos]
  simp only [decide_eq_true_eq]
  intro met
  obtain ⟨dep, member, here | here⟩ := named
  · exact ((deleteTasks_eq_some done).2 dep member task met).1 (here ▸ was)
  · exact ((deleteTasks_eq_some done).2 dep member task met).2 (here ▸ was)

theorem Db.Sited.dropped (sited : before.Sited) {cond : TaskRow → Prop} [DecidablePred cond]
    (done : before.deleteTasks cond = some after)
    : after.Sited := by
  have read := task?_deleteTasks done
  obtain ⟨rfl, _⟩ := deleteTasks_eq_some done
  refine ⟨?_, ?_⟩
  · intro id task is
    rw [read] at is
    exact sited.homes id task (Option.filter_eq_some_iff.mp is).1
  · intro node other depends
    obtain ⟨task, on, was, wasOn, same⟩ := sited.edges node other depends
    exact ⟨task, on, task?_of_named done was ⟨_, depends, .inl rfl⟩,
      task?_of_named done wasOn ⟨_, depends, .inr rfl⟩, same⟩

theorem carries_unlinked {cond : DepRow → Prop} [DecidablePred cond]
    (started : ∀ dep task, cond dep → before.task? dep.dependent = some task → task.status ≠ .pending)
    (tasks : after.tasks = before.tasks) (deps : after.deps = before.deps.delete cond)
    (runs : after.runs = before.runs)
    : Carries Board.Keeps before after := by
  have task? (id : Nat) : after.task? id = before.task? id := by
    unfold Db.task?
    rw [tasks]
  have run? (id : Nat) : after.run? id = before.run? id := by
    unfold Db.run?
    rw [runs]
  have within {node other : Nat} (depends : after.dependsOn node other)
      : before.dependsOn node other := by
    unfold Db.dependsOn at depends ⊢
    rw [deps] at depends
    exact (Table.mem_delete.mp depends).1
  intro steady
  obtain ⟨housed, linked⟩ := steady.coherent.sited.unlinked tasks (fun _ _ => within) runs
  refine ⟨.graph ?_, housed, linked, ?_, ?_⟩
  · intro id pending
    obtain ⟨task, is, status⟩ := exists_of_pending pending
    have was : before.task? id = some task := task? id ▸ is
    refine ⟨pending_of_task? was status, ?_, ?_, ?_, ?_⟩
    · rw [remaining_board is, remaining_board was]
    · rw [hold_board is, hold_board was]
      unfold Db.heldUnits
      rw [run?]
    · have same : (before.deps.delete cond).rows.filter (fun dep => dep.dependent = id)
          = before.deps.rows.filter (fun dep => dep.dependent = id) := by
        simp only [Table.delete, List.filter_filter]
        refine List.filter_congr ?_
        intro dep _
        by_cases here : dep.dependent = id
        · have stays : ¬ cond dep := fun met => started dep task met (here ▸ was) status
          simp [here, stays]
        · simp [here]
      simp only [Db.board, List.filter_map, deps]
      exact congrArg _ same
    · intro other _
      rw [live_board, live_board, task?]
  · refine steady.coherent.acyclic.subset ?_
    intro edge member
    exact mem_edges.mpr (within (mem_edges.mp member))
  · intro id run found waits
    rw [run?] at found
    obtain ⟨stopping, pending⟩ := steady.coherent.waiting id run found waits
    refine ⟨stopping, ?_⟩
    intro other task is
    rw [task?] at is
    exact pending other task is

theorem carries_dropped {cond : TaskRow → Prop} [DecidablePred cond]
    (done : before.deleteTasks cond = some after)
    : Carries Board.Keeps before after := by
  have found {id : Nat} {task : TaskRow} (is : after.task? id = some task) : before.task? id = some task := by
    rw [task?_deleteTasks done] at is
    exact (Option.filter_eq_some_iff.mp is).1
  obtain ⟨rfl, _⟩ := deleteTasks_eq_some done
  intro steady
  obtain ⟨housed, linked⟩ := steady.coherent.sited.dropped done
  refine ⟨.quiet rfl ?_, housed, linked, steady.coherent.acyclic, ?_⟩
  · intro id pending
    obtain ⟨task, is, status⟩ := exists_of_pending pending
    have was := found is
    refine ⟨pending_of_task? was status, ?_, ?_, ?_⟩
    · rw [remaining_board is, remaining_board was]
    · rw [hold_board is, hold_board was]
      rfl
    · intro other edge
      obtain ⟨_, on, _, wasOn, _⟩ := steady.coherent.edges id other (mem_edges.mp edge)
      rw [live_board, live_board, wasOn, task?_of_named done wasOn ⟨_, mem_edges.mp edge, .inr rfl⟩]
  · intro id run home waits
    obtain ⟨stopping, pending⟩ := steady.coherent.waiting id run home waits
    exact ⟨stopping, fun other task is => pending other task (found is)⟩

theorem carries_finishFanout (db : Db) (id : Nat) (succeeded : Bool) (output : String)
    : Carries Board.Keeps db (db.finishFanout now id succeeded output) := by
  refine carries_endTask_getD (moves_finishFanout now db id succeeded output) ?_ ?_ ?_
  · intro task _ parked
    rw [parked.1]
    rfl
  · intro task
    cases succeeded <;> rfl
  · intro task _ parked waits
    rw [parked.1] at waits
    cases waits.1

theorem expandFanout_places {barrier : TaskRow} {instances : List TaskSpec} {mint : Nat → Nat}
    (read : before.Read barrier)
    (done : before.expandFanout now barrier instances mint = .commit after)
    : ∃ stamped : Db, ∃ rows : List TaskRow,
        Moves [.stamp] before stamped ∧ stamped.deps = before.deps ∧ stamped.runs = before.runs
        ∧ (∃ task, stamped.task? barrier.id = some task ∧ task.status ≠ .pending
          ∧ ∀ row ∈ rows, row.runId = task.runId ∧ row.status = .ready)
        ∧ stamped.tasks.insertAll rows = some after.tasks
        ∧ stamped.deps.insertAll (rows.map (fun row => ⟨barrier.id, row.id⟩)) = some after.deps
        ∧ ∀ id, after.run? id = stamped.run? id := by
  obtain ⟨stamped, rows, steps, sameDeps, sameRuns, ⟨task, was, running, _⟩, made, tasks, deps,
    sameRuns', _⟩ := expandFanout_commit now done
  obtain ⟨_, _, read', columns, _⟩ := read
  rw [was] at read'
  cases read'
  refine ⟨stamped, rows, steps, sameDeps, sameRuns, ?_, tasks, deps, fun id => ?_⟩
  · cases is : stamped.task? barrier.id with
    | none =>
        rw [(steps.task?_eq_none_iff _).mp is] at was
        cases was
    | some task' =>
        obtain ⟨_, was', moved⟩ := steps.of_some is
        rw [was] at was'
        cases was'
        refine ⟨task', rfl, fun pending => ?_, fun row member => ?_⟩
        · have quiet := (moved.quiet (by decide)).1 pending
          rw [show task.status = .pending from quiet.1] at running
          cases running
        · obtain ⟨id, leaf, _, rfl⟩ := made row member
          have same : task'.runId = task.runId := congrArg TaskColumns.runId moved.columns.1
          exact ⟨(same.trans (congrArg TaskColumns.runId columns)).symm, rfl⟩
  · unfold Db.run?
    rw [sameRuns', sameRuns]

theorem Db.Sited.expandFanout {barrier : TaskRow} {instances : List TaskSpec} {mint : Nat → Nat}
    (sited : before.Sited) (read : before.Read barrier)
    (done : before.expandFanout now barrier instances mint = .commit after)
    : after.Sited := by
  obtain ⟨stamped, rows, steps, sameDeps, sameRuns, ⟨task, is, _, placed⟩, tasks, deps, runs⟩ :=
    expandFanout_places now read done
  have stampedSited : stamped.Sited := by
    refine sited.moved steps sameDeps (fun id there => ?_)
    unfold Db.run? at there ⊢
    rwa [sameRuns]
  refine stampedSited.inserted tasks deps (fun id _ => runs id) ?_ ?_
  · intro row member
    rw [(placed row member).1, runs]
    exact stampedSited.homes barrier.id task is
  · intro dep member
    obtain ⟨row, among, rfl⟩ := List.mem_map.mp member
    exact ⟨task, row, Table.get?_insertAll_of_get? tasks is,
      Table.get?_of_mem_insertAll tasks among, (placed row among).1.symm⟩

theorem carries_expandFanout {barrier : TaskRow} {instances : List TaskSpec} {mint : Nat → Nat}
    (read : before.Read barrier)
    (done : before.expandFanout now barrier instances mint = .commit after)
    : Carries Board.Recounts before after := by
  obtain ⟨stamped, rows, steps, sameDeps, sameRuns, ⟨task, is, started, placed⟩, tasks, deps, run?⟩ :=
    expandFanout_places now read done
  obtain ⟨keys, absent⟩ := Table.fresh_insertAll tasks
  refine .then_recounts (carries_quiet steps (by decide) sameDeps sameRuns) ?_
  intro steady
  have waits (run : RunRow) (found : stamped.run? task.runId = some run) : run.waiting = false := by
    by_contra waits
    have pending := (steady.coherent.waiting _ run found (by simpa using waits)).2 barrier.id task is rfl
    exact started pending.1
  refine carries_inserted tasks deps (fun id _ => run? id) ?_ ?_ ?_ ?_ ?_ ?_ steady
  · intro row member
    rw [(placed row member).1, run?]
    exact steady.coherent.homes barrier.id task is
  · intro dep member
    obtain ⟨row, among, rfl⟩ := List.mem_map.mp member
    exact ⟨task, row, Table.get?_insertAll_of_get? tasks is,
      Table.get?_of_mem_insertAll tasks among, (placed row among).1.symm⟩
  · intro coherent
    have edges : after.board.edges = stamped.board.edges
        ++ (rows.map (fun row => (⟨barrier.id, row.id⟩ : DepRow))).map
          (fun dep => (dep.dependent, dep.dependency)) := by
      simp only [Db.board, Table.rows_insertAll deps, List.map_append]
    rw [edges]
    refine coherent.acyclic.add_leaves ?_
    intro edge member other among clash
    obtain ⟨dep, listed, rfl⟩ := List.mem_map.mp member
    obtain ⟨row, inRows, rfl⟩ := List.mem_map.mp listed
    have fresh : stamped.task? row.id = none := absent row inRows
    rcases List.mem_append.mp among with old | new
    · obtain ⟨_, _, there, _⟩ := coherent.edges other.1 other.2 (mem_edges.mp old)
      rw [clash, fresh] at there
      cases there
    · obtain ⟨dep, listed, rfl⟩ := List.mem_map.mp new
      obtain ⟨_, _, rfl⟩ := List.mem_map.mp listed
      rw [show barrier.id = row.id from clash, fresh] at is
      cases is
  · intro dep member row there
    obtain ⟨_, _, rfl⟩ := List.mem_map.mp member
    rw [show stamped.task? barrier.id = some row from there] at is
    cases is
    exact started
  · intro _ id run found waiting
    rw [run?] at found
    refine ⟨?_, ?_⟩
    · intro none_
      rw [none_] at found
      cases found
    · intro row member ofRun
      rw [(placed row member).1] at ofRun
      rw [waits run (ofRun ▸ found)] at waiting
      cases waiting
  · intro _ row member pending
    rw [(placed row member).2] at pending
    cases pending

theorem FanoutStep.sited (step : FanoutStep env now before after) (sited : before.Sited)
    : after.Sited := by
  cases step with
  | unlink barrier read =>
      exact sited.unlinked rfl (fun node other depends => (Table.mem_delete.mp depends).1) rfl
  | clear barrier read done => exact sited.dropped done
  | resolve barrier read mint done =>
      have finished (succeeded : Bool) (output : String)
          : (before.finishFanout now barrier.id succeeded output).Sited := by
        have alone : TasksAlone before (before.finishFanout now barrier.id succeeded output) :=
          TasksAlone.endTask_getD
        refine sited.moved (moves_finishFanout now before _ succeeded output) alone.2.1 ?_
        intro id there
        unfold Db.run? at there ⊢
        rwa [alone.1]
      rcases resolveFanout_commit env now done with
        ⟨_, _, succeeded, output, _, rfl⟩ | ⟨succeeded, output, _, rfl⟩ | ⟨instances, _, done⟩
      · exact finished succeeded output
      · exact finished succeeded output
      · exact sited.expandFanout now read done

theorem FanoutStep.carries (step : FanoutStep env now before after)
    : Carries Board.Recounts before after := by
  have keeps (carries : Carries Board.Keeps before after)
      : Carries Board.Recounts before after :=
    fun steady => ⟨(carries steady).1.recounts, (carries steady).2⟩
  cases step with
  | unlink barrier read =>
      obtain ⟨_, task, was, _, running, _⟩ := read
      refine keeps (carries_unlinked ?_ rfl rfl rfl)
      intro dep row met there
      rw [met.1, was] at there
      cases there
      rw [running]
      nofun
  | clear barrier read done => exact keeps (carries_dropped done)
  | resolve barrier read mint done =>
      rcases resolveFanout_commit env now done with
        ⟨_, _, succeeded, output, _, rfl⟩ | ⟨succeeded, output, _, rfl⟩ | ⟨instances, _, done⟩
      · exact keeps (carries_finishFanout now before _ succeeded output)
      · exact keeps (carries_finishFanout now before _ succeeded output)
      · exact carries_expandFanout now read done

end Fanouts

end Dagron.Store
