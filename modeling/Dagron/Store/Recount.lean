import Dagron.Store.Settle

/-! What putting tasks back to run again does to a steady store: a rerun and a clear count the
pending tasks of their run anew, and a person's retry counts nothing.
-/

namespace Dagron.Store

open Dagron.Library Dagron.Spec

-- Counting a run anew

section Recount

variable {before after : Db} {run : Nat}

/-- A transaction of one run that does not wait, after which its pending tasks' counters are
right, leaves every other run's as they are.
-/
theorem carries_recounted
    (home : ∀ id task', after.task? id = some task' → ∃ task, before.task? id = some task
      ∧ task'.runId = task.runId ∧ (task.runId ≠ run → task' = task))
    (outside : ∀ id task, before.task? id = some task → task.runId ≠ run → after.task? id = some task)
    (within : ∀ node other, after.dependsOn node other → before.dependsOn node other
      ∧ (after.task? node).isSome ∧ (after.task? other).isSome)
    (edges : ∀ node task, before.task? node = some task → task.runId ≠ run →
      after.board.edges.filter (fun edge => edge.1 = node)
        = before.board.edges.filter (fun edge => edge.1 = node))
    (runs : after.runs = before.runs)
    (free : ∀ row, before.run? run = some row → row.waiting = false)
    (counted : ∀ id task', after.task? id = some task' → task'.runId = run →
      task'.status = .pending → task'.remainingDeps = after.unfinished id)
    : Carries Board.Recounts before after := by
  have run? (id : Nat) : after.run? id = before.run? id := by
    unfold Db.run?
    rw [runs]
  have held (id : Nat) : after.heldUnits id = before.heldUnits id := by
    unfold Db.heldUnits
    rw [run?]
  intro steady
  refine ⟨?_, ?_, ?_, ?_, ?_⟩
  · intro id pending
    obtain ⟨task', is, status⟩ := exists_of_pending pending
    obtain ⟨task, was, same, kept⟩ := home id task' is
    by_cases ofRun : task.runId = run
    · refine .inr (Board.slack_eq_zero_of_counted ?_)
      have none_ : after.heldUnits run = 0 := by
        rw [held, Db.heldUnits]
        cases found : before.run? run with
        | none => rfl
        | some row => simp [free row found]
      rw [remaining_board is, hold_board is, blockers_board, same, ofRun, none_,
        counted id task' is (same.trans ofRun) status]
      omega
    · obtain rfl := kept ofRun
      refine .inl ⟨pending_of_task? was status, Board.slack_congr ?_ ?_ ?_⟩
      · rw [remaining_board is, remaining_board was]
      · rw [hold_board is, hold_board was, held]
      · have live (other : Nat) (edge : (id, other) ∈ before.board.edges)
            : before.board.live other = after.board.live other := by
          obtain ⟨task, on, was', wasOn, home⟩ :=
            steady.coherent.edges id other (mem_edges.mp edge)
          rw [was] at was'
          cases was'
          rw [live_board, live_board, wasOn, outside other on wasOn (home ▸ ofRun)]
        rw [Board.blockers, Board.blockers, Board.prerequisites_congr live,
          Board.prerequisites_filter, edges id task' was ofRun, ← Board.prerequisites_filter]
  · intro id task' is
    obtain ⟨task, was, same, _⟩ := home id task' is
    rw [same, run?]
    exact steady.coherent.homes id task was
  · intro node other depends
    obtain ⟨depended, isNode, isOther⟩ := within node other depends
    obtain ⟨task', is⟩ := Option.isSome_iff_exists.mp isNode
    obtain ⟨on', isOn⟩ := Option.isSome_iff_exists.mp isOther
    obtain ⟨task, on, was, wasOn, same⟩ := steady.coherent.edges node other depended
    obtain ⟨task_, was_, ofRun, _⟩ := home node task' is
    obtain ⟨on_, wasOn_, ofRun', _⟩ := home other on' isOn
    rw [was] at was_
    rw [wasOn] at wasOn_
    cases was_
    cases wasOn_
    exact ⟨task', on', is, isOn, ofRun.trans (same.trans ofRun'.symm)⟩
  · refine steady.coherent.acyclic.subset ?_
    intro edge member
    exact mem_edges.mpr (within edge.1 edge.2 (mem_edges.mp member)).1
  · intro id row found waits
    rw [run?] at found
    obtain ⟨stopping, pending⟩ := steady.coherent.waiting id row found waits
    refine ⟨stopping, ?_⟩
    intro other task' is ofRun
    obtain ⟨task, was, same, kept⟩ := home other task' is
    have apart : task.runId ≠ run := by
      intro here
      obtain rfl : run = id := here.symm.trans (same.symm.trans ofRun)
      rw [free row found] at waits
      cases waits
    obtain rfl := kept apart
    exact pending other task' was ofRun

theorem task?_recount (db : Db) (run : Nat) (settled : TaskStatus → Bool) (id : Nat)
    : (db.recount run settled).task? id
      = (db.task? id).map (fun task =>
          if task.runId = run ∧ task.status = .pending then
            { task with
              remainingDeps := (db.depStatuses task.id).countP (fun status => !settled status) }
          else task) :=
  Db.task?_updateTasks id

theorem depStatuses_congr (deps : after.deps = before.deps)
    (status : ∀ id, (after.task? id).map TaskRow.status = (before.task? id).map TaskRow.status)
    (id : Nat)
    : after.depStatuses id = before.depStatuses id := by
  unfold Db.depStatuses Db.dependenciesOf
  rw [deps]
  exact List.filterMap_congr (fun dep _ => status dep)

theorem mem_depStatuses {db : Db} {id : Nat} {status : TaskStatus}
    : status ∈ db.depStatuses id
      ↔ ∃ other on, db.dependsOn id other ∧ db.task? other = some on ∧ on.status = status := by
  unfold Db.depStatuses Db.dependenciesOf
  rw [List.mem_filterMap]
  constructor
  · intro member
    obtain ⟨other, depends, found⟩ := member
    obtain ⟨dep, among, rfl⟩ := List.mem_map.mp depends
    obtain ⟨present, rfl⟩ := Table.mem_select.mp among
    obtain ⟨on, read, rfl⟩ := Option.map_eq_some_iff.mp found
    exact ⟨dep.dependency, on, present, read, rfl⟩
  · intro member
    obtain ⟨other, on, depends, read, rfl⟩ := member
    refine ⟨other, List.mem_map.mpr ⟨⟨id, other⟩, ?_, rfl⟩, by rw [read]; rfl⟩
    exact Table.mem_select.mpr ⟨depends, rfl⟩

/-- Counted anew, a run's pending tasks stand at the dependencies that have not ended, where
those are the ones that are not settled.
-/
theorem counted_recount {db : Db} {settled : TaskStatus → Bool}
    (agree : ∀ id task, db.task? id = some task → task.runId = run →
      settled task.status = task.status.terminal)
    (homes : ∀ node other, db.dependsOn node other → ∃ task on, db.task? node = some task
      ∧ db.task? other = some on ∧ task.runId = on.runId)
    : ∀ id task', (db.recount run settled).task? id = some task' → task'.runId = run →
      task'.status = .pending → task'.remainingDeps = (db.recount run settled).unfinished id := by
  intro id task' is ofRun pending
  have same : (db.recount run settled).depStatuses id = db.depStatuses id := by
    refine @depStatuses_congr db (db.recount run settled) rfl ?_ id
    intro other
    rw [task?_recount, Option.map_map]
    cases db.task? other with
    | none => rfl
    | some row =>
        simp only [Option.map_some, Function.comp]
        split <;> rfl
  rw [task?_recount] at is
  obtain ⟨task, was, rfl⟩ := Option.map_eq_some_iff.mp is
  have met : task.runId = run ∧ task.status = .pending := by
    split at ofRun
    case isTrue met => exact met
    case isFalse unmet =>
      rw [if_neg unmet] at pending
      exact ⟨ofRun, pending⟩
  rw [if_pos met, Db.unfinished, same, Db.id_of_task? was]
  dsimp only
  congr 1
  refine List.countP_congr ?_
  intro status member
  obtain ⟨other, on, depends, found, rfl⟩ := mem_depStatuses.mp member
  obtain ⟨task_, on_, was_, found_, home⟩ := homes id other depends
  rw [was] at was_
  rw [found] at found_
  cases was_
  cases found_
  rw [agree other on found (home.symm.trans met.1)]

end Recount

-- Reruns

section Again

variable (now : Time) {before after : Db}

theorem Rearmed.carries {ended : RunStatus → Bool} {run : Nat}
    (rearmed : Rearmed ended run before after) (over_ : ended .running = false)
    : Carries Board.Keeps before after := by
  refine carries_runs rearmed.tasks rearmed.deps ?_
  intro id
  rcases rearmed.run? id with same | ⟨row, row', was, is, _, _, ended_, _, free, _⟩
  · exact .inl same
  · refine .inr ⟨row, row', was, is, free, .inl ?_⟩
    by_contra waits
    have running := RunRow.running_of_waiting (by simpa using waits)
    rw [running, over_] at ended_
    cases ended_

theorem Rearmed.free {ended : RunStatus → Bool} {run : Nat}
    (rearmed : Rearmed ended run before after) (over_ : ended .running = false)
    (found : ∃ row, before.run? run = some row ∧ ended row.status = true)
    : ∀ row, after.run? run = some row → row.waiting = false := by
  intro row' is
  rcases rearmed.run? run with same | ⟨_, _, _, is', _, _, _, _, free, _⟩
  · obtain ⟨row, was, ended_⟩ := found
    rw [same, was] at is
    cases is
    by_contra waits
    have running := RunRow.running_of_waiting (by simpa using waits)
    rw [running, over_] at ended_
    cases ended_
  · rw [is'] at is
    cases is
    exact free

/-- A statement drops tasks of one run, and the dependencies that name them. -/
structure Drops (run : Nat) (before after : Db) : Prop where
  found
    : ∀ id task, after.task? id = some task → before.task? id = some task
  outside
    : ∀ id task, before.task? id = some task → task.runId ≠ run → after.task? id = some task
  within
    : ∀ node other, after.dependsOn node other → before.dependsOn node other
      ∧ (after.task? node).isSome ∧ (after.task? other).isSome
  edges
    : ∀ node task, before.task? node = some task → task.runId ≠ run →
        after.board.edges.filter (fun edge => edge.1 = node)
          = before.board.edges.filter (fun edge => edge.1 = node)
  runs
    : after.runs = before.runs

theorem Drops.refl {db : Db} (sited : db.Sited) (run : Nat)
    : Drops run db db where
  found _ _ is := is
  outside _ _ was _ := was
  within node other depends := by
    obtain ⟨task, on, was, wasOn, _⟩ := sited.edges node other depends
    exact ⟨depends, by simp [was], by simp [wasOn]⟩
  edges _ _ _ _ := rfl
  runs := rfl

theorem Drops.sited {run : Nat} {before after : Db} (drops : Drops run before after) (sited : before.Sited)
    : after.Sited where
  homes id task is := by
    unfold Db.run?
    rw [drops.runs]
    exact sited.homes id task (drops.found id task is)
  edges node other depends := by
    obtain ⟨depended, isNode, isOther⟩ := drops.within node other depends
    obtain ⟨task', is⟩ := Option.isSome_iff_exists.mp isNode
    obtain ⟨on', isOn⟩ := Option.isSome_iff_exists.mp isOther
    obtain ⟨task, on, was, wasOn, same⟩ := sited.edges node other depended
    rw [drops.found node task' is] at was
    rw [drops.found other on' isOn] at wasOn
    cases was
    cases wasOn
    exact ⟨task', on', is, isOn, same⟩

/-- Resetting tasks of one run that does not wait, and counting its pending tasks anew,
recounts them.
-/
theorem carries_reset {db dropped : Db} {run : Nat} {cond : TaskRow → Prop} [DecidablePred cond]
    {who : Option String} {settled : TaskStatus → Bool}
    (drops : db.Coherent → Drops run db dropped)
    (ofRun : ∀ id task, dropped.task? id = some task → cond task → task.runId = run)
    (free : ∀ row, db.run? run = some row → row.waiting = false)
    (agree : ∀ id task, dropped.task? id = some task → task.runId = run →
      ¬ cond task → settled task.status = task.status.terminal)
    (pending : settled .pending = false)
    : Carries Board.Recounts db
      ((dropped.updateTasks cond (TaskRow.reset now who)).recount run settled) := by
  intro steady
  have drops := drops steady.coherent
  have read (id : Nat) : (dropped.updateTasks cond (TaskRow.reset now who)).task? id
      = (dropped.task? id).map (fun task => if cond task then task.reset now who else task) :=
    Db.task?_updateTasks id
  have home (task : TaskRow) : (if cond task then task.reset now who else task).runId
      = task.runId := by
    split <;> rfl
  have still (id : Nat) (task : TaskRow) (was : dropped.task? id = some task) (apart : task.runId ≠ run)
      : ((dropped.updateTasks cond (TaskRow.reset now who)).recount run settled).task? id
        = some task := by
    rw [task?_recount, read, was, Option.map_some,
      if_neg (fun met => apart (ofRun id task was met)), Option.map_some,
      if_neg (fun met => apart met.1)]
  have present {id : Nat} (some_ : (dropped.task? id).isSome)
      : (((dropped.updateTasks cond (TaskRow.reset now who)).recount run settled).task? id
        ).isSome := by
    rw [task?_recount, read, Option.isSome_map, Option.isSome_map]
    exact some_
  refine @carries_recounted db _ run ?_ ?_ ?_ drops.edges drops.runs free ?_ steady
  · intro id task' is
    have is' := is
    rw [task?_recount, read] at is
    obtain ⟨_, middle, same⟩ := Option.map_eq_some_iff.mp is
    obtain ⟨task, was, rfl⟩ := Option.map_eq_some_iff.mp middle
    refine ⟨task, drops.found id task was, ?_, ?_⟩
    · rw [← home task, ← same]
      generalize (if cond task then task.reset now who else task) = middle
      split <;> rfl
    · intro apart
      rw [still id task was apart] at is'
      cases is'
      rfl
  · intro id task was apart
    exact still id task (drops.outside id task was apart) apart
  · intro node other depends
    obtain ⟨depended, some_, some_'⟩ := drops.within node other depends
    exact ⟨depended, present some_, present some_'⟩
  · refine counted_recount ?_ ?_
    · intro id task' is ofRun
      rw [read] at is
      obtain ⟨task, was, rfl⟩ := Option.map_eq_some_iff.mp is
      by_cases met : cond task
      · rw [if_pos met]
        exact pending
      · rw [if_neg met] at ofRun ⊢
        exact agree id task was ofRun met
    · intro node other depends
      obtain ⟨depended, some_, some_'⟩ := drops.within node other depends
      obtain ⟨task, was⟩ := Option.isSome_iff_exists.mp some_
      obtain ⟨on, wasOn⟩ := Option.isSome_iff_exists.mp some_'
      obtain ⟨task_, on_, was_, wasOn_, same⟩ := steady.coherent.edges node other depended
      rw [drops.found node task was] at was_
      rw [drops.found other on wasOn] at wasOn_
      cases was_
      cases wasOn_
      refine ⟨_, _, Db.task?_updated was, Db.task?_updated wasOn, ?_⟩
      rw [home, home, same]

theorem carries_same (tasks : after.tasks = before.tasks) (deps : after.deps = before.deps)
    (runs : after.runs = before.runs)
    : Carries Board.Keeps before after := by
  refine carries_runs tasks deps (fun id => .inl ?_)
  unfold Db.run?
  rw [runs]

theorem carries_rerunFromFailed {run : Nat} {origin : RunAgain} {who : Option String}
    (done : before.rerunFromFailed now run origin who = .ok after)
    : Carries Board.Recounts before after := by
  rcases rerunFromFailed_ok now done with rfl | ⟨armed, rearmed, tasks, deps, runs, found, _⟩
  · exact fun steady => ⟨(Board.Keeps.refl _).recounts, steady.coherent⟩
  · refine .then_recounts (rearmed.carries rfl) (.recounts_then ?_ (carries_same tasks deps runs))
    refine carries_reset now (fun coherent => .refl coherent.sited run) (fun _ _ _ met => met.1)
      (rearmed.free rfl found) ?_ (by decide)
    intro id task _ ofRun unmet
    cases status : task.status with
    | failed | cancelled | skipped => exact absurd ⟨ofRun, by simp [status]⟩ unmet
    | _ => decide

theorem drops_dropInstances {db : Db} (sited : db.Sited) (run : Nat)
    : Drops run db (db.dropInstances run) := by
  have read (id : Nat) : (db.dropInstances run).task? id
      = (db.task? id).filter (fun task => ¬ Db.instanceOf run task) :=
    Table.get?_delete id
  have kept {id : Nat} {task : TaskRow} (was : db.task? id = some task) (stays : ¬ Db.instanceOf run task)
      : (db.dropInstances run).task? id = some task := by
    rw [read, was, Option.filter_some, if_pos (by simpa using stays)]
  refine ⟨?_, ?_, ?_, ?_, rfl⟩
  · intro id task is
    rw [read] at is
    exact (Option.filter_eq_some_iff.mp is).1
  · intro id task was apart
    exact kept was (fun instance_ => apart instance_.1)
  · intro node other depends
    obtain ⟨depended, left⟩ := Table.mem_delete.mp depends
    obtain ⟨task, on, was, wasOn, _⟩ := sited.edges node other depended
    rw [not_or] at left
    refine ⟨depended, ?_, ?_⟩
    · rw [kept was (fun instance_ => left.2 (by simp [was, instance_]))]
      rfl
    · rw [kept wasOn (fun instance_ => left.1 (by simp [wasOn, instance_]))]
      rfl
  · intro node task was apart
    have same : (db.dropInstances run).deps.rows.filter (fun dep => dep.dependent = node)
        = db.deps.rows.filter (fun dep => dep.dependent = node) := by
      simp only [Db.dropInstances, Table.delete, List.filter_filter]
      refine List.filter_congr ?_
      intro dep member
      by_cases here : dep.dependent = node
      · obtain ⟨task_, on, was_, wasOn, home⟩ :=
          sited.edges dep.dependent dep.dependency member
        rw [here, was] at was_
        cases was_
        have stays : ¬ Db.instanceOf run task := fun instance_ => apart instance_.1
        have stays' : ¬ Db.instanceOf run on := fun instance_ => apart (home.trans instance_.1)
        simp [here, was, wasOn, stays, stays']
      · simp [here]
    simp only [Db.board, List.filter_map]
    exact congrArg _ same

theorem carries_rerunAll {run : Nat} {who : Option String} (done : before.rerunAll now run who = .ok after)
    : Carries Board.Recounts before after := by
  rcases rerunAll_ok now done with rfl | ⟨armed, rearmed, tasks, deps, runs, found, _⟩
  · exact fun steady => ⟨(Board.Keeps.refl _).recounts, steady.coherent⟩
  · refine .then_recounts (rearmed.carries rfl) (.recounts_then ?_ (carries_same tasks deps runs))
    refine carries_reset now (fun coherent => drops_dropInstances coherent.sited run)
      (fun _ _ _ met => met.1) (rearmed.free rfl found) ?_ (by decide)
    intro id task is ofRun unmet
    have read : (armed.dropInstances run).task? id
        = (armed.task? id).filter (fun task => ¬ Db.instanceOf run task) :=
      Table.get?_delete id
    rw [read] at is
    have single : ¬ Db.instanceOf run task := by
      simpa using (Option.filter_eq_some_iff.mp is).2
    have whole : task.fanoutParent.isNone := by
      cases parent : task.fanoutParent with
      | none => rfl
      | some barrier => exact absurd ⟨ofRun, by simp [parent]⟩ single
    cases status : task.status with
    | pending | ready | running | awaitingApproval => rfl
    | _ => exact absurd ⟨ofRun, whole, by rw [status]; rfl⟩ unmet

theorem run_of_mem_downstream {db : Db} (sited : db.Sited) {run : Nat} (rounds : Nat)
    {cone : List Nat} (within : ∀ id ∈ cone, ∀ task, db.task? id = some task → task.runId = run)
    : ∀ id ∈ Db.downstream db.deps.rows rounds cone,
        ∀ task, db.task? id = some task → task.runId = run := by
  induction rounds generalizing cone with
  | zero => exact within
  | succ rounds ih =>
      refine ih ?_
      intro id among task found
      rcases List.mem_append.mp among with old | new
      · exact within id old task found
      · obtain ⟨dep, member, rfl⟩ := List.mem_map.mp new
        obtain ⟨present, met⟩ := List.mem_filter.mp member
        obtain ⟨task_, on, found_, foundOn, same⟩ :=
          sited.edges dep.dependent dep.dependency present
        rw [found] at found_
        cases found_
        exact same.trans (within dep.dependency (of_decide_eq_true met).1 on foundOn)

theorem carries_clearTaskWithDownstream {run id : Nat} {who : Option String}
    (done : before.clearTaskWithDownstream now run id who = .ok after)
    : Carries Board.Recounts before after := by
  rcases clearTaskWithDownstream_ok now done with
    rfl | ⟨counted, ⟨task, found, ofRun, ended⟩, rfl, rearmed⟩
  · exact fun steady => ⟨(Board.Keeps.refl _).recounts, steady.coherent⟩
  refine .recounts_then ?_ (rearmed.carries rfl)
  intro steady
  refine carries_reset now (fun coherent => .refl coherent.sited run) ?_ ?_ ?_ rfl steady
  · intro other row was met
    refine run_of_mem_downstream steady.coherent.sited _ ?_ row.id met.1 row ?_
    · intro first listed row first_
      rw [List.mem_singleton.mp listed, found] at first_
      cases first_
      exact ofRun
    · rw [Db.id_of_task? was, was]
  · intro row home
    by_contra waits
    have pending := (steady.coherent.waiting run row home (by simpa using waits)).2 id task found ofRun
    rw [pending.1] at ended
    cases ended
  · intro _ _ _ _ _
    rfl

end Again

-- Retries by a person

section Retry

variable (now : Time) {before after : Db}

theorem carries_retryTaskFromUi {id : Nat} {who : Option String}
    (done : before.retryTaskFromUi now id who = .ok after)
    (unawaited : ∀ task, before.task? id = some task →
      task.status = .failed ∨ task.status = .cancelled → ¬ before.awaited id)
    : Carries Board.Keeps before after := by
  rcases retryTaskFromUi_ok now done with rfl | ⟨task, retried, found, ended, rfl, rearmed⟩
  · exact .refl _
  refine .trans ?_ (rearmed.carries rfl)
  have steps : Moves [.retryFromUi] before (before.updateTasks (fun task =>
        task.id = id ∧ (task.status = .failed ∨ task.status = .cancelled))
      (TaskRow.retried now who)) := by
    refine .update_step .retryFromUi (by decide) ?_
    intro task met
    refine .retryFromUi met.2 _ ?_
    simp only [TaskRow.life, TaskRow.parks, TaskRow.retried, Option.isSome_none, Bool.toNat_false]
    omega
  have read (other : Nat) : (before.updateTasks (fun task =>
        task.id = id ∧ (task.status = .failed ∨ task.status = .cancelled))
      (TaskRow.retried now who)).task? other
      = (before.task? other).map (fun task =>
          if task.id = id ∧ (task.status = .failed ∨ task.status = .cancelled) then
            task.retried now who
          else task) :=
    Db.task?_updateTasks other
  refine carries_rewritten steps rfl rfl ?_ ?_ ?_ (.inr (unawaited task found ended))
  · intro other apart
    exact task?_updateTask (fun _ met => met.1) apart
  · intro row was waits
    rw [found] at was
    cases was
    rw [waits.1] at ended
    rcases ended with ended | ended <;> cases ended
  · intro row is
    rw [read, found, Option.map_some, if_pos ⟨Db.id_of_task? found, ended⟩] at is
    cases is
    rintro ⟨⟩

end Retry

end Dagron.Store
