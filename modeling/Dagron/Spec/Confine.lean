import Dagron.Spec.Graph

/-! Runs that are not trusted: how a run's class follows from what started it, what such a
run may not name, and what is taken from its specification before its rows are written.
-/

namespace Dagron.Spec

/-- What started a run, as whatever started it recorded it. -/
structure RunTrigger where
  kind
    : String
  principal
    : String := ""
  actor
    : Option String := none
  trust
    : Option String := none
  source
    : Option String := none
  forgeHost
    : Option String := none
  repo
    : Option String := none
  gitRef
    : Option String := none
  sha
    : Option String := none
  baseSha
    : Option String := none
  pr
    : Option Int := none
  eventId
    : Option String := none

def trusted : String :=
  "trusted"

/-- The class of a run whose definition is a stranger's. -/
def untrusted : String :=
  "untrusted"

def agent : String :=
  "agent"

def classOf (trigger : Option RunTrigger) : String :=
  match trigger with
  | none => trusted
  | some trigger =>
      match trigger.trust with
      | some class_ => class_
      | none => if trigger.kind = "ci" then untrusted else trusted

/-- Whether a run of a class is held to what a run that is not trusted may be. -/
def confined (class_ : String) : Bool :=
  class_ ≠ trusted

/-- The pool that the tasks of confined runs draw from, and the mark of their keys. -/
def confinedPool : String :=
  "untrusted"

/-- A refusal: what a confined run named, and why it may not have it. -/
structure Refusal where
  what
    : String
  why
    : String
  deriving DecidableEq

/-- What a task names that a confined run may not use: the first of it. -/
def taskRefusal (task : TaskSpec) (class_ : String) : Option Refusal :=
  let named (key : String) := "`" ++ key ++ "` (task '" ++ task.name ++ "')"
  let ifNamed (cond : Bool) (key why : String) : Option Refusal :=
    if cond then some ⟨named key, why⟩ else none
  let people := "it asks a decision of this installation's people"
  match task.taskType.filter (fun kind => kind ≠ "task") with
  | some kind => some {
      what := "`type: " ++ kind ++ "` (task '" ++ task.name ++ "')"
      why :=
        if kind = "approval" then people
        else if kind = "workflow" then "it starts a workflow that is registered here"
        else if kind = "wait" then "the engine itself would watch for it"
        else "only an ordinary task is run for it"
    }
  | none =>
      (ifNamed task.serviceAccount.isSome "service_account"
        "it is an identity of this installation's")
      <|> (ifNamed (task.identity && class_ ≠ agent) "identity"
        ("a token a cloud trusts is given to trusted runs, and to an agent's where its "
          ++ "environment's policy says so"))
      <|> (ifNamed task.dockerDaemon "docker_daemon"
        "the daemon's container is privileged, or root in a user namespace of its own")
      <|> (ifNamed task.privileged "privileged" "a privileged container is root on its host")
      <|> (ifNamed task.defer.isSome "defer"
        "the engine itself would call what the task names")
      <|> (ifNamed task.wait.isSome "wait" "the engine itself would watch for it")
      <|> (ifNamed task.workflow.isSome "workflow"
        "it starts a workflow that is registered here")
      <|> (ifNamed (!task.produces.isEmpty) "produces"
        "it would start the workflows that wait on a dataset")
      <|> (ifNamed task.repeatSpec.isSome "repeat"
        "how often a loop goes round is its author's to write")
      <|> (ifNamed task.withOutputOf.isSome "with_output_of"
        "how many tasks it becomes is decided as the run goes, by what a task printed")
      <|> (ifNamed (task.gang.isSome || task.gangMember.isSome) "gang"
        "it holds workers for tasks other than its own")
      <|> (if task.approvalTimeoutSecs.isSome || task.approvalOnTimeout.isSome
            || task.approvalMessage.isSome || !task.approvalShow.isEmpty || !task.binds.isEmpty
            || !task.approvers.isEmpty || task.notTriggerer then
          some ⟨"an approval's keys (task '" ++ task.name ++ "')", people⟩
        else none)

/-- What a workflow names that a confined run may not use: of its own keys first, then of
each task's.
-/
def refusal (spec : DagSpec) (class_ : String) : Option Refusal :=
  if spec.notify then
    some ⟨"`notify`",
      "the engine itself would post where the workflow names, with what it holds"⟩
  else if !spec.onDatasets.isEmpty || spec.datasetsMode.isSome then
    some ⟨"`on_datasets`", "it would start runs that nothing asked for"⟩
  else spec.tasks.findSome? (fun task => taskRefusal task class_)

/-- A task without what a confined run is not given and does not fail for. -/
def withhold (task : TaskSpec) : TaskSpec :=
  { task with
    cache := none
    pool := some confinedPool
    priority := min task.priority 0
    retryBudgets := [] }

/-- The concurrency key a confined workflow is counted under: its own, marked, where it sets
a cap at all.
-/
def heldKey (spec : DagSpec) : Option String :=
  if spec.maxActiveRuns.isSome then
    some (match spec.concurrencyKey with
      | some key => confinedPool ++ ":" ++ key
      | none => confinedPool)
  else spec.concurrencyKey

/-- A workflow held to what a run of a class may be, or what it may not use. -/
def hold (spec : DagSpec) (class_ : String) : Except Refusal DagSpec :=
  if confined class_ then
    match refusal spec class_ with
    | some refused => .error refused
    | none => .ok
        { spec with concurrencyKey := heldKey spec, tasks := spec.tasks.map withhold }
  else .ok spec

-- Changes that keep a graph well formed

/-- A change of tasks that leaves alone what well-formedness is about. -/
structure KeepsShape (change : TaskSpec → TaskSpec) : Prop where
  name
    : ∀ task, (change task).name = task.name
  dependsOn
    : ∀ task, (change task).dependsOn = task.dependsOn
  taskType
    : ∀ task, (change task).taskType = task.taskType
  withOutputOf
    : ∀ task, (change task).withOutputOf = task.withOutputOf
  gang
    : ∀ task, (change task).gang = task.gang

theorem withhold_keepsShape
    : KeepsShape withhold :=
  ⟨fun _ => rfl, fun _ => rfl, fun _ => rfl, fun _ => rfl, fun _ => rfl⟩

theorem KeepsShape.edges {change : TaskSpec → TaskSpec} (keeps : KeepsShape change) (tasks : List TaskSpec)
    : Spec.edges (tasks.map change) = Spec.edges tasks := by
  simp only [Spec.edges, List.flatMap_map, keeps.name, keeps.dependsOn]

theorem KeepsShape.names {change : TaskSpec → TaskSpec} (keeps : KeepsShape change) (tasks : List TaskSpec)
    : (tasks.map change).map TaskSpec.name = tasks.map TaskSpec.name := by
  simp only [List.map_map, Function.comp_def, keeps.name]

theorem WellFormed.map {tasks : List TaskSpec} (wellFormed : WellFormed tasks)
    {change : TaskSpec → TaskSpec} (keeps : KeepsShape change)
    : WellFormed (tasks.map change) where
  distinct := by
    rw [keeps.names]
    exact wellFormed.distinct
  once := by
    simpa only [List.forall_mem_map, keeps.dependsOn] using wellFormed.once
  known := by
    simpa only [List.forall_mem_map, keeps.dependsOn, keeps.names] using wellFormed.known
  acyclic := by
    rw [keeps.edges]
    exact wellFormed.acyclic
  gangs := by
    simpa only [List.forall_mem_map, keeps.gang] using wellFormed.gangs
  gates := by
    simpa only [List.forall_mem_map, TaskSpec.isApproval, keeps.taskType, keeps.gang] using wellFormed.gates
  fanouts := by
    simpa only [FanoutsPlain, List.forall_mem_map, keeps.withOutputOf, keeps.taskType,
      keeps.gang] using wellFormed.fanouts

theorem WellFormed.hold {spec spec' : DagSpec} {class_ : String}
    (wellFormed : WellFormed spec.tasks) (ok : Spec.hold spec class_ = .ok spec')
    : WellFormed spec'.tasks := by
  unfold Spec.hold at ok
  split at ok
  · split at ok
    · cases ok
    · cases ok
      exact wellFormed.map withhold_keepsShape
  · cases ok
    exact wellFormed

/-- The graph a run of a class is made of: the one given for a trusted run, the same graph
held for a confined one, or what it may not use.
-/
def held (dag : DagGraph) (class_ : String) : Except Refusal DagGraph :=
  match ok : hold dag.spec class_ with
  | .error refused => .error refused
  | .ok spec => .ok { dag with spec := spec, wellFormed := dag.wellFormed.hold ok }

theorem held_spec {dag held' : DagGraph} {class_ : String} (ok : held dag class_ = .ok held')
    : hold dag.spec class_ = .ok held'.spec := by
  unfold held at ok
  split at ok
  · cases ok
  case h_2 spec ok' =>
    cases ok
    exact ok'

end Dagron.Spec
