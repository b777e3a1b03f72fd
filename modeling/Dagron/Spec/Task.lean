/-! Workflow specifications as their authors write them: tasks, templates and the workflow
around them, with the fields that expansion, validation, run creation and scheduling read.
-/

namespace Dagron.Spec

/-- Values of a parsed JSON text; a number keeps the text it renders as. -/
inductive Json where
  | null
  | bool (value : Bool)
  | number (text : String)
  | string (text : String)
  | array (items : List Json)
  | object (fields : List (String × Json))

/-- What an error message calls a value that is no array. -/
def Json.kind : Json → String
  | null => "null"
  | bool _ => "a boolean"
  | number _ => "a number"
  | string _ => "a string"
  | array _ => "an array"
  | object _ => "an object"

/-- Parameter values by name. Of two bindings of one name, the first is the one that
counts, as an insertion into a map replaces what was there.
-/
abbrev Bindings := List (String × String)

def Bindings.get (bindings : Bindings) (name : String) : Option String :=
  (bindings.find? (fun binding => binding.1 = name)).map (fun binding => binding.2)

def Bindings.insert (bindings : Bindings) (name value : String) : Bindings :=
  (name, value) :: bindings

/-- An environment variable of a task; a secret's name stands for its value where given. -/
structure EnvVar where
  name
    : String
  value
    : String := ""
  valueFrom
    : Option String := none

/-- A variable read from an earlier task of the run. -/
structure EnvFrom where
  name
    : String
  task
    : String

/-- What a wait sensor waits for. -/
structure WaitSpec where
  waitFor
    : Option String := none
  untilTime
    : Option String := none
  url
    : Option String := none
  dataset
    : Option String := none

/-- A gang's size: how many members start together. -/
structure GangSpec where
  size
    : Nat

/-- The seat of one member in its gang, stamped at run creation. -/
structure GangMember where
  id
    : String
  rank
    : Nat
  size
    : Nat

/-- A loop over successful executions of a task. -/
structure RepeatSpec where
  untilCond
    : String
  maxIterations
    : Nat
  delaySecs
    : Nat := 0

/-- The park of a task on a job that runs elsewhere. -/
structure DeferSpec where
  kind
    : String
  pollSecs
    : Nat
  cost
    : Option Nat := none
  maxWaitSecs
    : Option Nat := none
  connection
    : Option String := none

/-- The key under which a task's output is kept for later tasks of the same key. -/
structure CacheSpec where
  key
    : String
  maxAgeSecs
    : Option Nat := none

/-- One task of a workflow, a template's or an expanded graph's. -/
structure TaskSpec where
  name
    : String
  command
    : List String := []
  dependsOn
    : List String := []
  template
    : Option String := none
  arguments
    : Bindings := []
  withItems
    : Option (List Json) := none
  withParam
    : Option String := none
  withOutputOf
    : Option String := none
  when
    : Option String := none
  instanceKey
    : Option String := none
  triggerRule
    : Option String := none
  hook
    : Option String := none
  allowFailure
    : Bool := false
  taskType
    : Option String := none
  workflow
    : Option String := none
  wait
    : Option WaitSpec := none
  approvalTimeoutSecs
    : Option Nat := none
  approvalOnTimeout
    : Option String := none
  approvalMessage
    : Option String := none
  approvalShow
    : List String := []
  binds
    : List String := []
  approvers
    : List String := []
  notTriggerer
    : Bool := false
  maxAttempts
    : Nat := 1
  retryDelaySecs
    : Nat := 0
  retryMaxDelaySecs
    : Option Nat := none
  retryBudgets
    : List (String × Nat) := []
  dockerImage
    : Option String := none
  imagePullPolicy
    : Option String := none
  env
    : List EnvVar := []
  environment
    : Option String := none
  serviceAccount
    : Option String := none
  runnerClass
    : Option String := none
  priority
    : Int := 0
  pool
    : Option String := none
  cache
    : Option CacheSpec := none
  repeatSpec
    : Option RepeatSpec := none
  defer
    : Option DeferSpec := none
  produces
    : List String := []
  gang
    : Option GangSpec := none
  gangMember
    : Option GangMember := none
  envFrom
    : List EnvFrom := []
  identity
    : Bool := false
  forgeToken
    : Bool := false
  dockerDaemon
    : Bool := false
  privileged
    : Bool := false

def TaskSpec.isApproval (task : TaskSpec) : Bool :=
  task.taskType = some "approval"

def TaskSpec.isWorkflow (task : TaskSpec) : Bool :=
  task.taskType = some "workflow"

def TaskSpec.isWait (task : TaskSpec) : Bool :=
  task.taskType = some "wait"

/-- How many rows a run is given for a task: its gang's members, or one. -/
def TaskSpec.rowCount (task : TaskSpec) : Nat :=
  match task.gang with
  | some gang => gang.size
  | none => 1

/-- A reusable list of tasks with parameter defaults. -/
structure TemplateSpec where
  name
    : String
  parameters
    : Bindings := []
  tasks
    : List TaskSpec

/-- What a run does that arrives at a full cap of active runs. -/
inductive WhenFull where
  | refuse
  | queue
  | supersede
  deriving DecidableEq, Repr

def WhenFull.waits : WhenFull → Bool
  | refuse => false
  | queue => true
  | supersede => true

/-- What a workflow sets for each of its tasks that leaves it unset. -/
structure TaskDefaults where
  maxAttempts
    : Option Nat := none
  retryDelaySecs
    : Option Nat := none
  retryMaxDelaySecs
    : Option Nat := none
  retryBudgets
    : List (String × Nat) := []
  dockerImage
    : Option String := none
  imagePullPolicy
    : Option String := none
  runnerClass
    : Option String := none
  priority
    : Option Int := none
  pool
    : Option String := none
  env
    : List EnvVar := []

/-- A workflow. -/
structure DagSpec where
  name
    : String
  parameters
    : Bindings := []
  concurrencyKey
    : Option String := none
  templates
    : List TemplateSpec := []
  uses
    : List String := []
  runTimeoutSecs
    : Option Nat := none
  maxActiveRuns
    : Option Nat := none
  whenFull
    : Option WhenFull := none
  alertWithinSecs
    : Option Nat := none
  resultFrom
    : Option String := none
  runnerClass
    : Option String := none
  environment
    : Option String := none
  taskDefaults
    : Option TaskDefaults := none
  notify
    : Bool := false
  onDatasets
    : List String := []
  datasetsMode
    : Option String := none
  tasks
    : List TaskSpec

end Dagron.Spec
