import Mathlib.Data.List.Nodup
import Mathlib.Data.List.Basic
import Mathlib.Order.WellFounded
import Dagron.Library.Countdown
import Dagron.Library.Results
import Dagron.Spec.Condition

/-! The validated graph of an expanded workflow: which specifications become one, and what
every graph that exists is known to satisfy.
-/

namespace Dagron.Spec

open Dagron.Library

def triggerRules : List String :=
  ["all_success", "all_done", "one_failed", "all_failed", "none_failed"]

def defaultTriggerRule : String :=
  "all_success"

def hookKinds : List String :=
  ["on_exit", "on_failure"]

def taskKinds : List String :=
  ["task", "approval", "workflow", "wait"]

def approvalTimeoutActions : List String :=
  ["approve", "reject"]

def approversMax : Nat :=
  64

/-- The longest delay between two turns of a loop, or two polls, in seconds. -/
def maxRepeatDelaySecs : Nat :=
  365 * 24 * 60 * 60

-- Well-formed graphs

/-- The edges of a task list, from each task to the tasks it depends on. -/
def edges (tasks : List TaskSpec) : List (String × String) :=
  tasks.flatMap (fun task => task.dependsOn.map (fun dep => (task.name, dep)))

/-- The rules expansion holds a runtime fan-out to: it is an ordinary command task, and no
gang.
-/
def FanoutsPlain (tasks : List TaskSpec) : Prop :=
  ∀ task ∈ tasks, task.withOutputOf.isSome →
    (task.taskType = none ∨ task.taskType = some "task") ∧ task.gang.isNone

instance (tasks : List TaskSpec) : Decidable (FanoutsPlain tasks) := by
  unfold FanoutsPlain
  infer_instance

/-- What validation establishes of a task list: distinct names, known dependencies that are
listed once and form no cycle, gangs of at least two, and gates that are no gangs.
-/
structure WellFormed (tasks : List TaskSpec) : Prop where
  distinct
    : (tasks.map TaskSpec.name).Nodup
  once
    : ∀ task ∈ tasks, task.dependsOn.Nodup
  known
    : ∀ task ∈ tasks, ∀ dep ∈ task.dependsOn, dep ∈ tasks.map TaskSpec.name
  acyclic
    : Board.Acyclic (edges tasks)
  gangs
    : ∀ task ∈ tasks, ∀ gang ∈ task.gang, 2 ≤ gang.size
  gates
    : ∀ task ∈ tasks, task.isApproval → task.gang.isNone
  fanouts
    : FanoutsPlain tasks

/-- A validated graph carries the proof that its tasks are well formed; (parameters) are the
values it was expanded with.
-/
structure DagGraph where
  spec
    : DagSpec
  parameters
    : Bindings
  wellFormed
    : WellFormed spec.tasks

def DagGraph.taskSpec (dag : DagGraph) (name : String) : Option TaskSpec :=
  dag.spec.tasks.find? (fun task => task.name = name)

-- Cycles

/-- The tasks that are not yet placed and whose dependencies all are. -/
def unblocked (tasks : List TaskSpec) (placed : List String) : List String :=
  (tasks.filter (fun task => task.name ∉ placed ∧ ∀ dep ∈ task.dependsOn, dep ∈ placed)).map
    TaskSpec.name

/-- Places tasks after their dependencies, round by round. -/
def placeTasks (tasks : List TaskSpec) : Nat → List String → List String
  | 0, placed => placed
  | rounds + 1, placed => placeTasks tasks rounds (placed ++ unblocked tasks placed)

/-- Whether a task list has a cycle: some task is never placed after its dependencies. -/
def isCyclic (tasks : List TaskSpec) : Bool :=
  ¬ ∀ task ∈ tasks, task.name ∈ placeTasks tasks tasks.length []

/-- A placement in which each task stands after all it depends on. -/
private def Ordered (tasks : List TaskSpec) (placed : List String) : Prop :=
  ∀ task ∈ tasks, ∀ before after, placed = before ++ task.name :: after →
    task.name ∉ before → ∀ dep ∈ task.dependsOn, dep ∈ before

private theorem Ordered.place {tasks : List TaskSpec} {placed : List String}
    (distinct : (tasks.map TaskSpec.name).Nodup) (ordered : Ordered tasks placed)
    : Ordered tasks (placed ++ unblocked tasks placed) := by
  intro task member before after split first dep needs
  rcases List.append_eq_append_iff.mp split with ⟨middle, rfl, rest⟩ | ⟨middle, rfl, rest⟩
  · have placedNow : task.name ∈ unblocked tasks placed := by
      rw [rest]
      exact List.mem_append_right _ List.mem_cons_self
    obtain ⟨other, free, same⟩ := List.mem_map.mp placedNow
    obtain ⟨inTasks, conditions⟩ := List.mem_filter.mp free
    obtain rfl := List.inj_on_of_nodup_map distinct inTasks member same
    have deps := (of_decide_eq_true conditions).2
    exact List.mem_append_left _ (deps dep needs)
  · cases middle with
    | nil =>
        simp only [List.nil_append] at rest
        have placedNow : task.name ∈ unblocked tasks (before ++ []) := by
          rw [← rest]
          exact List.mem_cons_self
        obtain ⟨other, free, same⟩ := List.mem_map.mp placedNow
        obtain ⟨inTasks, conditions⟩ := List.mem_filter.mp free
        obtain rfl := List.inj_on_of_nodup_map distinct inTasks member same
        have deps := (of_decide_eq_true conditions).2
        simpa using deps dep needs
    | cons head tail =>
        simp only [List.cons_append, List.cons.injEq] at rest
        obtain ⟨rfl, _⟩ := rest
        exact ordered task member before tail rfl first dep needs

private theorem Ordered.placeTasks {tasks : List TaskSpec} {placed : List String}
    (distinct : (tasks.map TaskSpec.name).Nodup) (ordered : Ordered tasks placed)
    (rounds : Nat)
    : Ordered tasks (placeTasks tasks rounds placed) := by
  induction rounds generalizing placed with
  | zero => exact ordered
  | succ rounds ih => exact ih (ordered.place distinct)

/-- A task list found to have no cycle has none: a task's position in the placement is a rank
that falls along its dependencies.
-/
theorem acyclic_of_not_isCyclic {tasks : List TaskSpec}
    (distinct : (tasks.map TaskSpec.name).Nodup) (free : isCyclic tasks = false)
    : Board.Acyclic (edges tasks) := by
  have ordered : Ordered tasks (placeTasks tasks tasks.length []) :=
    Ordered.placeTasks distinct (by
      intro task _ before after split
      cases before <;> cases split) _
  have all : ∀ task ∈ tasks, task.name ∈ placeTasks tasks tasks.length [] := by
    simpa [isCyclic] using free
  refine ⟨fun name => (placeTasks tasks tasks.length []).idxOf name, ?_⟩
  intro edge member
  obtain ⟨task, inTasks, edge'⟩ := List.mem_flatMap.mp member
  obtain ⟨dep, needs, rfl⟩ := List.mem_map.mp edge'
  obtain ⟨before, after, split, first⟩ := List.eq_append_cons_of_mem (all task inTasks)
  have within := ordered task inTasks before after split first dep needs
  simp only [split]
  rw [List.idxOf_append_of_mem within, List.idxOf_append_of_notMem first, List.idxOf_cons_self]
  have := List.idxOf_lt_length_of_mem within
  omega

theorem mem_placeTasks {tasks : List TaskSpec} {rounds : Nat} {placed : List String} {name : String}
    (there : name ∈ placed)
    : name ∈ placeTasks tasks rounds placed := by
  induction rounds generalizing placed with
  | zero => exact there
  | succ rounds ih => exact ih (List.mem_append_left _ there)

/-- A task list that depends on itself only, and whose dependencies have a rank, is found to have no cycle: each
round places at least the lowest of the tasks that are left.
-/
theorem not_isCyclic_of_acyclic {tasks : List TaskSpec}
    (known : ∀ task ∈ tasks, ∀ dep ∈ task.dependsOn, dep ∈ tasks.map TaskSpec.name)
    (acyclic : Board.Acyclic (edges tasks))
    : isCyclic tasks = false := by
  obtain ⟨rank, falls⟩ := acyclic
  have placed_all (rounds : Nat) (placed : List String)
      (few : (tasks.filter fun task => task.name ∉ placed).length ≤ rounds)
      : ∀ task ∈ tasks, task.name ∈ placeTasks tasks rounds placed := by
    induction rounds generalizing placed with
    | zero =>
        intro task there
        have none_ := List.eq_nil_of_length_eq_zero (Nat.le_zero.mp few)
        have there' : task.name ∈ placed := by simpa using List.filter_eq_nil_iff.mp none_ task there
        exact there'
    | succ rounds ih =>
        by_cases left : ∃ task ∈ tasks, task.name ∉ placed
        · obtain ⟨task, ⟨there, waits⟩, lowest⟩ := WellFounded.has_min (measure fun task : TaskSpec => rank task.name).wf
            {task | task ∈ tasks ∧ task.name ∉ placed} left
          have free : task.name ∈ unblocked tasks placed := by
            refine List.mem_map_of_mem (List.mem_filter.mpr ⟨there, decide_eq_true ⟨waits, fun dep needs => ?_⟩⟩)
            by_contra missing
            obtain ⟨other, among, rfl⟩ := List.mem_map.mp (known task there dep needs)
            refine lowest other ⟨among, missing⟩ (falls (task.name, other.name) ?_)
            exact List.mem_flatMap.mpr ⟨task, there, List.mem_map_of_mem needs⟩
          refine ih _ (Nat.le_of_lt_succ (Nat.lt_of_lt_of_le ?_ few))
          have fewer : (tasks.filter fun task => task.name ∉ placed ++ unblocked tasks placed)
              = (tasks.filter fun task => task.name ∉ placed).filter
                  fun task => task.name ∉ unblocked tasks placed := by
            rw [List.filter_filter]
            refine List.filter_congr fun task _ => ?_
            simp [Bool.and_comm]
          rw [fewer]
          refine List.length_filter_lt_length_iff_exists.mpr ⟨task, ?_, by simp [free]⟩
          exact List.mem_filter.mpr ⟨there, decide_eq_true waits⟩
        · intro task there
          refine mem_placeTasks ?_
          by_contra waits
          exact left ⟨task, there, waits⟩
  have all := placed_all tasks.length [] (List.length_filter_le _ _)
  simpa [isCyclic] using all

-- Validation

def retainFirst (seen : List String) : List String → List String
  | [] => []
  | name :: rest =>
      if name ∈ seen then retainFirst seen rest
      else name :: retainFirst (name :: seen) rest

theorem mem_retainFirst {seen names : List String} {name : String}
    : name ∈ retainFirst seen names ↔ name ∈ names ∧ name ∉ seen := by
  induction names generalizing seen with
  | nil => simp [retainFirst]
  | cons head rest ih =>
      unfold retainFirst
      split
      case isTrue known =>
        rw [ih, List.mem_cons]
        constructor
        · rintro ⟨later, fresh⟩
          exact ⟨.inr later, fresh⟩
        · rintro ⟨rfl | later, fresh⟩
          · exact absurd known fresh
          · exact ⟨later, fresh⟩
      case isFalse unknown =>
        rw [List.mem_cons, ih, List.mem_cons, List.mem_cons]
        constructor
        · rintro (rfl | ⟨later, fresh⟩)
          · exact ⟨.inl rfl, unknown⟩
          · exact ⟨.inr later, fun known => fresh (.inr known)⟩
        · rintro ⟨rfl | later, fresh⟩
          · exact .inl rfl
          · by_cases same : name = head
            · exact .inl same
            · exact .inr ⟨later, fun known => known.elim same fresh⟩

theorem nodup_retainFirst (seen names : List String)
    : (retainFirst seen names).Nodup := by
  induction names generalizing seen with
  | nil => exact List.nodup_nil
  | cons head rest ih =>
      unfold retainFirst
      split
      · exact ih seen
      · refine List.nodup_cons.mpr ⟨?_, ih _⟩
        simp [mem_retainFirst]

def TaskSpec.dedupe (task : TaskSpec) : TaskSpec :=
  { task with dependsOn := retainFirst [] task.dependsOn }

/-- Refuses with a message where a condition does not hold. -/
def require (cond : Bool) (message : String) : Except String Unit :=
  if cond then .ok () else .error message

def TaskSpec.named (task : TaskSpec) : String :=
  "task '" ++ task.name ++ "'"

def DagSpec.named (spec : DagSpec) : String :=
  "DAG '" ++ spec.name ++ "'"

def checkSpec (spec : DagSpec) : Except String Unit := do
  let cap := spec.maxActiveRuns.getD 0
  require (spec.runTimeoutSecs ≠ some 0)
    ("invalid run_timeout_secs=0 in " ++ spec.named ++ "; expected >= 1 (or omit)")
  if let some key := spec.concurrencyKey then
    require (trim key.toList ≠ []) ("concurrency_key in " ++ spec.named ++ " is empty")
    require (splitOnce ['{', '{'] key.toList).isNone
      ("concurrency_key '" ++ key ++ "' in " ++ spec.named
        ++ " references a parameter that has no value")
    require (key.utf8ByteSize ≤ 200)
      ("concurrency_key in " ++ spec.named ++ " is longer than 200 bytes")
    require (cap ≠ 0)
      ("concurrency_key in " ++ spec.named ++ " needs max_active_runs >= 1: it only scopes that cap")
  if let some whenFull := spec.whenFull then
    require (cap ≠ 0)
      ("when_full in " ++ spec.named ++ " needs max_active_runs >= 1: it says what that cap does")
    require (whenFull ≠ .supersede ∨ cap = 1)
      ("when_full: supersede in " ++ spec.named ++ " needs max_active_runs: 1 (it is "
        ++ toString cap ++ "): a new run takes the place of the one before it")

/-- Whether a task runs a command: it is no gate, trigger or sensor. -/
def TaskSpec.runsCommand (task : TaskSpec) : Bool :=
  !(task.isApproval || task.isWorkflow || task.isWait)

/-- The checks of a task's name, rules and kind; the name must be new among those (seen)
before it.
-/
def checkKind (spec : DagSpec) (seen : List String) (task : TaskSpec) : Except String Unit := do
  let where_ := task.named ++ " in " ++ spec.named
  require (task.name ∉ seen) ("duplicate task name '" ++ task.name ++ "' in " ++ spec.named)
  require (task.maxAttempts ≠ 0) ("invalid max_attempts=0 for " ++ where_ ++ "; expected >= 1")
  if let some rule := task.triggerRule then
    require (rule ∈ triggerRules) ("invalid trigger_rule '" ++ rule ++ "' for " ++ where_)
  if let some hook := task.hook then
    require (hook ∈ hookKinds) ("invalid hook '" ++ hook ++ "' for " ++ where_)
  if let some kind := task.taskType then
    require (kind ∈ taskKinds) ("invalid type '" ++ kind ++ "' for " ++ where_)

def checkApproval (spec : DagSpec) (task : TaskSpec) : Except String Unit := do
  if let some action := task.approvalOnTimeout then
    require (action ∈ approvalTimeoutActions)
      ("invalid approval_on_timeout '" ++ action ++ "' for " ++ task.named ++ " in "
        ++ spec.named)
  require (!(task.isApproval && task.hook.isSome))
    (task.named ++ " cannot be both an approval gate and a hook in " ++ spec.named)
  require (task.isApproval || (task.approvers.isEmpty && !task.notTriggerer))
    (task.named ++ " sets approvers/not_triggerer but is not `type: approval` in " ++ spec.named)
  require (task.approvers.length ≤ approversMax)
    ("approvers on " ++ task.named ++ " in " ++ spec.named ++ " lists "
      ++ toString task.approvers.length ++ " entries; the limit is " ++ toString approversMax)

def checkWorkflow (spec : DagSpec) (task : TaskSpec) : Except String Unit := do
  if task.isWorkflow then
    require (task.workflow.any (fun name => trim name.toList ≠ []))
      (task.named ++ " is type: workflow but names no `workflow:` to trigger in " ++ spec.named)
    require task.command.isEmpty
      (task.named ++ " (type: workflow) must not set a command in " ++ spec.named)
    require task.hook.isNone
      (task.named ++ " cannot be both a sub-workflow trigger and a hook in " ++ spec.named)
  else
    require task.workflow.isNone
      (task.named ++ " sets `workflow:` but is not `type: workflow` in " ++ spec.named)

def checkWait (spec : DagSpec) (task : TaskSpec) : Except String Unit := do
  if task.isWait then
    match task.wait with
    | none => .error (task.named ++ " is type: wait but has no `wait:` block in " ++ spec.named)
    | some wait =>
        require
          ([wait.waitFor, wait.untilTime, wait.url, wait.dataset].countP Option.isSome = 1)
          (task.named ++ " (type: wait) needs exactly one of wait.for / wait.until / wait.url "
            ++ "/ wait.dataset in " ++ spec.named)
    require task.command.isEmpty
      (task.named ++ " (type: wait) must not set a command in " ++ spec.named)
    require task.hook.isNone
      (task.named ++ " cannot be both a wait sensor and a hook in " ++ spec.named)
  else
    require task.wait.isNone
      (task.named ++ " sets `wait:` but is not `type: wait` in " ++ spec.named)

/-- The checks of the keys that only a command task may have. -/
def checkCommandKeys (spec : DagSpec) (task : TaskSpec) : Except String Unit := do
  let typed := task.named ++ " (type: " ++ task.taskType.getD "task" ++ ") cannot "
  require (task.runsCommand || !task.forgeToken)
    (typed ++ "have a `forge_token:` in " ++ spec.named ++ " — only command tasks are given one")
  require (task.runsCommand || !task.privileged)
    (typed ++ "have `privileged:` in " ++ spec.named
      ++ " — only command tasks run in a container of their own")
  require (task.runsCommand || task.envFrom.isEmpty)
    (typed ++ "have `env_from:` in " ++ spec.named ++ " — only command tasks have variables")
  require (task.runsCommand || task.produces.isEmpty)
    (typed ++ "declare `produces:` in " ++ spec.named
      ++ " — only command tasks record dataset updates")

def checkGang (spec : DagSpec) (task : TaskSpec) : Except String Unit :=
  match task.gang with
  | none => .ok ()
  | some gang => do
      let combine := task.named ++ " cannot combine `gang` with "
      require (2 ≤ gang.size)
        ("invalid gang.size=" ++ toString gang.size ++ " for " ++ task.named ++ " in "
          ++ spec.named ++ "; expected >= 2 (or omit gang)")
      require (task.maxAttempts ≤ 1)
        (combine ++ "retries (max_attempts > 1) in " ++ spec.named ++ ": a gang retries as a "
          ++ "unit via run-level rerun, not per member")
      require (!(task.repeatSpec.isSome || task.isApproval || task.template.isSome))
        (combine ++ "repeat/approval/template in " ++ spec.named)
      require (!(task.isWorkflow || task.isWait))
        (combine ++ "a sub-workflow trigger or wait sensor in " ++ spec.named)
      require (spec.resultFrom ≠ some task.name)
        ("result_from cannot name gang task '" ++ task.name ++ "' in " ++ spec.named
          ++ " (members are '" ++ task.name ++ ".<rank>')")

def checkRepeat (spec : DagSpec) (task : TaskSpec) : Except String Unit := do
  if let some loop := task.repeatSpec then
    let kind := task.taskType.getD "task"
    require (trim loop.untilCond.toList ≠ [])
      (task.named ++ " repeat.until is empty in " ++ spec.named)
    require (loop.maxIterations ≠ 0)
      ("invalid repeat.max_iterations=0 for " ++ task.named ++ " in " ++ spec.named
        ++ "; expected >= 1")
    require (loop.delaySecs ≤ maxRepeatDelaySecs)
      ("invalid repeat.delay_secs=" ++ toString loop.delaySecs ++ " for " ++ task.named ++ " in "
        ++ spec.named ++ "; expected <= " ++ toString maxRepeatDelaySecs ++ " (one year)")
    require (kind = "task" || kind = "workflow")
      (task.named ++ " cannot combine `repeat` with `type: " ++ kind ++ "` in " ++ spec.named
        ++ " — `repeat` applies to command tasks and sub-workflow triggers")

def checkDefer (spec : DagSpec) (task : TaskSpec) : Except String Unit := do
  if let some deferral := task.defer then
    let kind := task.taskType.getD "task"
    let combine := task.named ++ " cannot combine `defer` with "
    require (trim deferral.kind.toList ≠ [])
      (task.named ++ " defer.kind is empty in " ++ spec.named)
    require (deferral.pollSecs ≠ 0)
      ("invalid defer.poll_secs=0 for " ++ task.named ++ " in " ++ spec.named
        ++ "; expected >= 1 (a zero interval hot-loops the sweep against the remote API)")
    require (deferral.pollSecs ≤ maxRepeatDelaySecs)
      ("invalid defer.poll_secs=" ++ toString deferral.pollSecs ++ " for " ++ task.named ++ " in "
        ++ spec.named ++ "; expected <= " ++ toString maxRepeatDelaySecs ++ " (one year)")
    require (deferral.maxWaitSecs.all (fun max => deferral.pollSecs ≤ max))
      ("invalid defer.max_wait_secs=" ++ toString (deferral.maxWaitSecs.getD 0) ++ " for "
        ++ task.named ++ " in " ++ spec.named ++ "; must be >= defer.poll_secs ("
        ++ toString deferral.pollSecs ++ ")")
    require task.repeatSpec.isNone (combine ++ "`repeat` in " ++ spec.named)
    require (kind = "task") (combine ++ "`type: " ++ kind ++ "` in " ++ spec.named)
    require task.gang.isNone (combine ++ "`gang` in " ++ spec.named)

def checkLeaf (spec : DagSpec) (task : TaskSpec) : Except String Unit := do
  require (task.arguments.isEmpty || task.isWorkflow)
    (task.named ++ " sets `arguments` with no `template` or `type: workflow` to pass them to in "
      ++ spec.named)
  require task.template.isNone
    (task.named ++ " still references template '" ++ task.template.getD ""
      ++ "' after expansion in " ++ spec.named)
  require (!task.command.isEmpty || !task.runsCommand)
    (task.named ++ " has no command in " ++ spec.named ++ " (a leaf task needs a command)")

def checkTask (spec : DagSpec) (seen : List String) (task : TaskSpec) : Except String Unit := do
  checkKind spec seen task
  checkApproval spec task
  checkWorkflow spec task
  checkWait spec task
  checkCommandKeys spec task
  checkGang spec task
  checkRepeat spec task
  checkDefer spec task
  checkLeaf spec task

def checkTasks (spec : DagSpec) : List String → List TaskSpec → Except String Unit
  | _, [] => .ok ()
  | seen, task :: rest => do
      checkTask spec seen task
      checkTasks spec (seen ++ [task.name]) rest

/-- The checks of dependencies: each names a task of the list that is no hook. -/
def checkDependencies (tasks : List TaskSpec) : Except String Unit :=
  tasks.forM fun task => task.dependsOn.forM fun dep => do
    require (dep ∈ tasks.map TaskSpec.name)
      ("unknown dependency '" ++ dep ++ "' in task '" ++ task.name ++ "'")
    require (dep ∉ (tasks.filter (fun other => other.hook.isSome)).map TaskSpec.name)
      ("task '" ++ task.name ++ "' cannot depend on hook task '" ++ dep ++ "'")

/-- The rows a runtime fan-out reads, of those its task depends on: the producer itself, or
else the rows named under it.
-/
def fanoutProducerRows (producer : String) (dependsOn : List String) : List String :=
  if producer ∈ dependsOn then [producer]
  else dependsOn.filter (fun dep => (producer ++ ".").toList.isPrefixOf dep.toList)

/-- The checks of what a task reads of others: it depends on each. -/
def checkReferences (spec : DagSpec) : Except String Unit := do
  spec.tasks.forM fun task =>
    (task.when.elim [] whenOutputRefs).forM fun referenced =>
      require (referenced ∈ task.dependsOn)
        ("task '" ++ task.name ++ "' when references the output of '" ++ referenced
          ++ "' but does not depend on it in DAG '" ++ spec.name ++ "' — add it to depends_on")
  spec.tasks.forM fun task =>
    task.withOutputOf.toList.forM fun producer => do
      require (!(fanoutProducerRows producer task.dependsOn).isEmpty)
        ("task '" ++ task.name ++ "' fans out over '" ++ producer
          ++ "' output but does not depend on it in DAG '" ++ spec.name ++ "'")
      require (producer ≠ task.name)
        ("task '" ++ task.name ++ "' cannot fan out over its own output in DAG '"
          ++ spec.name ++ "'")
  spec.resultFrom.toList.forM fun result => do
    require (result ∈ spec.tasks.map TaskSpec.name)
      ("result_from names unknown task '" ++ result ++ "' in DAG '" ++ spec.name ++ "'")
    require (result ∉ (spec.tasks.filter (fun task => task.hook.isSome)).map TaskSpec.name)
      ("result_from cannot name hook task '" ++ result ++ "' in DAG '" ++ spec.name ++ "'")

/-- Every check a specification passes to become a graph, its dependencies deduplicated. -/
def validate (spec : DagSpec) : Except String Unit := do
  checkSpec spec
  checkTasks spec [] spec.tasks
  checkDependencies spec.tasks
  require (!isCyclic spec.tasks) ("DAG '" ++ spec.name ++ "' contains a cycle")
  checkReferences spec

/-- Whether a specification passes every check before that of its dependencies' cycles, and fails that one. -/
def DagSpec.RefusedForCycle (spec : DagSpec) : Prop :=
  checkSpec spec = .ok () ∧ checkTasks spec [] spec.tasks = .ok () ∧ checkDependencies spec.tasks = .ok ()
    ∧ isCyclic spec.tasks

-- What validation establishes

theorem require_eq_ok {cond : Bool} {message : String}
    : require cond message = .ok () ↔ cond = true := by
  unfold require
  split <;> simp_all

theorem bind_eq_ok {first : Except String Unit} {second : Unit → Except String Unit}
    : first >>= second = .ok () ↔ first = .ok () ∧ second () = .ok () := by
  cases first <;> simp [bind, Except.bind]

theorem forM_eq_ok {α : Type} {items : List α} {check : α → Except String Unit}
    : items.forM check = .ok () ↔ ∀ item ∈ items, check item = .ok () := by
  induction items with
  | nil => simp [pure, Except.pure]
  | cons head rest ih =>
      simp only [List.forM_eq_forM, List.forM_cons, bind_eq_ok] at ih ⊢
      rw [ih, List.forall_mem_cons]

theorem checkGang_ok {spec : DagSpec} {task : TaskSpec} (ok : checkGang spec task = .ok ())
    : (∀ gang ∈ task.gang, 2 ≤ gang.size) ∧ (task.isApproval → task.gang.isNone) := by
  unfold checkGang at ok
  split at ok
  case h_1 none => simp [none]
  case h_2 gang some =>
    simp only [bind_eq_ok, require_eq_ok, decide_eq_true_eq] at ok
    obtain ⟨size, _, kind, _⟩ := ok
    simp_all

/-- Tasks that all pass their checks have distinct names, none of them seen before, and each
passes the checks of a gang.
-/
theorem checkTasks_ok {spec : DagSpec} {seen : List String} {tasks : List TaskSpec}
    (ok : checkTasks spec seen tasks = .ok ())
    : (tasks.map TaskSpec.name).Nodup ∧ (∀ task ∈ tasks, task.name ∉ seen)
      ∧ ∀ task ∈ tasks, checkGang spec task = .ok () := by
  induction tasks generalizing seen with
  | nil => simp
  | cons head rest ih =>
      unfold checkTasks at ok
      obtain ⟨first, later⟩ := bind_eq_ok.mp ok
      obtain ⟨distinct, fresh, gangs⟩ := ih later
      have new : head.name ∉ seen := by
        unfold checkTask checkKind at first
        simp only [bind_eq_ok, require_eq_ok, decide_eq_true_eq] at first
        exact first.1.1
      have gang : checkGang spec head = .ok () := by
        unfold checkTask at first
        simp only [bind_eq_ok] at first
        exact first.2.2.2.2.2.1
      refine ⟨?_, ?_, List.forall_mem_cons.mpr ⟨gang, gangs⟩⟩
      · rw [List.map_cons, List.nodup_cons]
        refine ⟨?_, distinct⟩
        intro again
        obtain ⟨task, member, same⟩ := List.mem_map.mp again
        exact fresh task member (by simp [same])
      · intro task member
        rcases List.mem_cons.mp member with rfl | inRest
        · exact new
        · exact fun inSeen => fresh task inRest (List.mem_append_left _ inSeen)

/-- A specification whose tasks list each dependency once and that passes every check has a
well-formed task list.
-/
theorem validate_wellFormed {spec : DagSpec} (once : ∀ task ∈ spec.tasks, task.dependsOn.Nodup)
    (fanouts : FanoutsPlain spec.tasks) (ok : validate spec = .ok ())
    : WellFormed spec.tasks := by
  unfold validate at ok
  simp only [bind_eq_ok, require_eq_ok] at ok
  obtain ⟨_, tasks, deps, cycle, _⟩ := ok
  obtain ⟨distinct, _, gangs⟩ := checkTasks_ok tasks
  refine ⟨distinct, once, ?_, ?_, ?_, ?_, fanouts⟩
  · intro task member dep needs
    have := forM_eq_ok.mp (forM_eq_ok.mp deps task member) dep needs
    simp only [bind_eq_ok, require_eq_ok, decide_eq_true_eq] at this
    exact this.1
  · exact acyclic_of_not_isCyclic distinct (by simpa using cycle)
  · exact fun task member => (checkGang_ok (gangs task member)).1
  · exact fun task member => (checkGang_ok (gangs task member)).2

theorem FanoutsPlain.dedupe {tasks : List TaskSpec} (plain : FanoutsPlain tasks)
    : FanoutsPlain (tasks.map TaskSpec.dedupe) := by
  intro task member fans
  obtain ⟨original, present, rfl⟩ := List.mem_map.mp member
  exact plain original present fans

def DagSpec.dedupe (spec : DagSpec) : DagSpec :=
  { spec with tasks := spec.tasks.map TaskSpec.dedupe }

/-- The graph of an expanded specification, or the first check it fails. -/
def DagGraph.fromSpec (spec : DagSpec) (fanouts : FanoutsPlain spec.tasks)
    : Except String DagGraph :=
  match ok : validate spec.dedupe with
  | .error message => .error message
  | .ok () => .ok {
      spec := spec.dedupe
      parameters := []
      wellFormed := validate_wellFormed
        (by
          intro task member
          obtain ⟨original, _, rfl⟩ := List.mem_map.mp member
          exact nodup_retainFirst _ _)
        fanouts.dedupe ok
    }

theorem DagGraph.fromSpec_spec {spec : DagSpec} {fanouts : FanoutsPlain spec.tasks}
    {dag : DagGraph} (ok : DagGraph.fromSpec spec fanouts = .ok dag)
    : dag.spec = spec.dedupe := by
  unfold DagGraph.fromSpec at ok
  split at ok
  · cases ok
  · cases ok
    rfl

end Dagron.Spec
