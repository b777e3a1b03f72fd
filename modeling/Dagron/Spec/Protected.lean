import Dagron.Spec.Confine

/-! Protected environments: the gate put before each task of a confined run that uses an
environment whose policy names approvers.
-/

namespace Dagron.Spec

/-- What an environment's policy says of the runs that may use it; the pattern lists are
none where any ref, or any workflow, is admitted.
-/
structure EnvironmentPolicy where
  environment
    : String
  allowedTrust
    : List String := [trusted]
  allowedRefs
    : Option (List String) := none
  allowedPipelines
    : Option (List String) := none
  allowedIdentity
    : List String := []
  approvers
    : List String := []

/-- Who must approve a run of a class before it uses an environment. -/
def approversFor (policy : Option EnvironmentPolicy) (class_ : String) : List String :=
  match policy with
  | some policy => if class_ ≠ trusted then policy.approvers else []
  | none => []

/-- How long a protected environment's gate waits for a person. -/
def gateTimeoutSecs : Nat :=
  86400

/-- The environment a task reads: its own, or else its workflow's. -/
def effectiveEnvironment (spec : DagSpec) (task : TaskSpec) : Option String :=
  task.environment <|> spec.environment

/-- Who must approve a task before it starts, and for which environment: nobody for a gate,
for a task without an environment, and for one whose environment's policy names none.
-/
def askedOf (policyOf : String → Option EnvironmentPolicy) (class_ : String) (spec : DagSpec)
    (task : TaskSpec) : Option (String × List String) :=
  if task.isApproval then none
  else
    (effectiveEnvironment spec task).bind fun env =>
      let approvers := approversFor (policyOf env) class_
      if approvers.isEmpty then none else some (env, approvers)

/-- (freshName fuel) is the first of `base`, `base-2`, `base-3` and so on that is not taken. -/
def freshName (taken : List String) (base name : String) : Nat → Nat → String
  | 0, _ => name
  | fuel + 1, next =>
      if name ∈ taken then
        freshName taken base (base ++ "-" ++ toString next) fuel (next + 1)
      else name

def gateName (taken : List String) (task : TaskSpec) : String :=
  let base := task.name ++ ".environment"
  freshName taken base base (taken.length + 1) 2

/-- The gate of a task: it depends on what the task depends on, and runs as the task's own
condition and trigger rule say.
-/
def environmentGate (name env class_ : String) (actor : Option String)
    (approvers : List String) (task : TaskSpec) : TaskSpec where
  name := name
  taskType := some "approval"
  dependsOn := task.dependsOn
  when := task.when
  triggerRule := task.triggerRule
  approvers := approvers
  approvalMessage := some
    ((match actor with
      | some actor => actor ++ "'s run"
      | none => "A run")
      ++ ", which is " ++ class_ ++ ", asks to use the protected environment '" ++ env
      ++ "' in task '" ++ task.name ++ "'. Approve it to let that task run.")
  approvalTimeoutSecs := some gateTimeoutSecs
  approvalOnTimeout := some "reject"

def TaskSpec.waitOn (task : TaskSpec) (gate : String) : TaskSpec :=
  { task with dependsOn := task.dependsOn ++ [gate] }

/-- The tasks with their gates' names among their dependencies, and the gates, where (asked)
says who must approve a task.
-/
def addGates (asked : TaskSpec → Option (String × List String)) (class_ : String)
    (actor : Option String)
    : List String → List TaskSpec → List TaskSpec × List TaskSpec
  | _, [] => ([], [])
  | taken, task :: rest =>
      match asked task with
      | none =>
          let (tasks, gates) := addGates asked class_ actor taken rest
          (task :: tasks, gates)
      | some (env, approvers) =>
          let name := gateName taken task
          let (tasks, gates) := addGates asked class_ actor (name :: taken) rest
          (task.waitOn name :: tasks,
            environmentGate name env class_ actor approvers task :: gates)

/-- The specification with a gate before each task that asks for one. -/
def withGates (asked : TaskSpec → Option (String × List String)) (class_ : String)
    (actor : Option String) (spec : DagSpec) : DagSpec :=
  let (tasks, gates) := addGates asked class_ actor (spec.tasks.map TaskSpec.name) spec.tasks
  { spec with tasks := tasks ++ gates }

/-- The gates of a task list are approvals, and its tasks keep all but their dependencies, by
induction over the tasks.
-/
theorem addGates_mem {asked : TaskSpec → Option (String × List String)} {class_ : String}
    {actor : Option String} {taken : List String} {tasks : List TaskSpec}
    : (∀ task ∈ (addGates asked class_ actor taken tasks).1,
        ∃ original ∈ tasks, task = original ∨ ∃ gate, task = original.waitOn gate)
      ∧ ∀ gate ∈ (addGates asked class_ actor taken tasks).2,
          gate.isApproval ∧ gate.withOutputOf = none ∧ gate.gang = none := by
  induction tasks generalizing taken with
  | nil => simp [addGates]
  | cons head rest ih =>
      unfold addGates
      split
      · obtain ⟨kept, gates⟩ := @ih taken
        refine ⟨List.forall_mem_cons.mpr ⟨⟨head, List.mem_cons_self, .inl rfl⟩, ?_⟩, gates⟩
        intro task member
        obtain ⟨original, present, same⟩ := kept task member
        exact ⟨original, List.mem_cons_of_mem _ present, same⟩
      case h_2 env approvers _ =>
        obtain ⟨kept, gates⟩ := @ih (gateName taken head :: taken)
        refine ⟨List.forall_mem_cons.mpr ⟨⟨head, List.mem_cons_self, .inr ⟨_, rfl⟩⟩, ?_⟩,
          List.forall_mem_cons.mpr ⟨⟨rfl, rfl, rfl⟩, gates⟩⟩
        intro task member
        obtain ⟨original, present, same⟩ := kept task member
        exact ⟨original, List.mem_cons_of_mem _ present, same⟩

theorem FanoutsPlain.withGates {spec : DagSpec} (plain : FanoutsPlain spec.tasks)
    (asked : TaskSpec → Option (String × List String)) (class_ : String)
    (actor : Option String)
    : FanoutsPlain (withGates asked class_ actor spec).tasks := by
  intro task member fans
  obtain ⟨kept, gates⟩ := @addGates_mem asked class_ actor (spec.tasks.map TaskSpec.name) spec.tasks
  rcases List.mem_append.mp member with inTasks | inGates
  · obtain ⟨original, present, rfl | ⟨gate, rfl⟩⟩ := kept task inTasks
    · exact plain task present fans
    · exact plain original present fans
  · simp [(gates task inGates).2.1] at fans

/-- The graph a run started by a trigger is made of: with a gate before each task that uses a
protected environment, where the run is confined and a policy asks it for an approval.
-/
def gated (policyOf : String → Option EnvironmentPolicy) (dag : DagGraph)
    (trigger : Option RunTrigger) : Except String DagGraph :=
  let class_ := classOf trigger
  let asked := askedOf policyOf class_ dag.spec
  if !confined class_ || dag.spec.tasks.all (fun task => (asked task).isNone) then .ok dag
  else
    let actor := trigger.bind RunTrigger.actor
    match DagGraph.fromSpec (withGates asked class_ actor dag.spec)
        (dag.wellFormed.fanouts.withGates asked class_ actor) with
    | .error message => .error message
    | .ok graph => .ok { graph with parameters := dag.parameters }

end Dagron.Spec
