import Dagron.Review.Leaves

/-! What a change of a workflow is said to change: the two versions, resolved, are compared task by task by a
view of each task, and by a few settings of the run.
-/

namespace Dagron.Review

open Dagron.Library

-- Views of tasks

/-- A task as it is compared. -/
@[ext]
structure TaskView where
  command
    : List String
  dependsOn
    : List String
  image
    : Option String
  env
    : OrderedMap String String
  envSecret
    : OrderedMap String String
  maxAttempts
    : Nat
  retryDelaySecs
    : Nat
  retryMaxDelaySecs
    : Option Nat
  timeoutSecs
    : Option Nat
  triggerRule
    : Option String
  hook
    : Option String
  allowFailure
    : Bool
  taskType
    : Option String
  approvalTimeoutSecs
    : Option Nat
  approvalOnTimeout
    : Option String
  approvalMessage
    : Option String
  approvalShow
    : List String
  binds
    : List String
  approvers
    : List String
  notTriggerer
    : Bool

def TaskSpec.values (task : TaskSpec) : List (String × String) :=
  task.env.map fun var => (var.name, var.value)

/-- The names of the variables that are read from secrets, and those of the secrets. -/
def TaskSpec.secrets (task : TaskSpec) : List (String × String) :=
  task.env.filterMap fun var => var.valueFrom.map fun ref => (var.name, ref.secret)

/-- The view of a task: its dependencies in order, and its variables by name. -/
def TaskView.fromSpec (task : TaskSpec) : TaskView where
  command := task.command
  dependsOn := task.dependsOn.mergeSort
  image := task.dockerImage
  env := .ofList task.values
  envSecret := .ofList task.secrets
  maxAttempts := task.maxAttempts
  retryDelaySecs := task.retryDelaySecs
  retryMaxDelaySecs := task.retryMaxDelaySecs
  timeoutSecs := task.timeoutSecs
  triggerRule := task.triggerRule
  hook := task.hook
  allowFailure := task.allowFailure
  taskType := task.taskType
  approvalTimeoutSecs := task.approvalTimeoutSecs
  approvalOnTimeout := task.approvalOnTimeout
  approvalMessage := task.approvalMessage
  approvalShow := task.approvalShow
  binds := task.binds
  approvers := task.approvers
  notTriggerer := task.notTriggerer

-- Lines for a reviewer

def fmtCmd (command : List String) : String :=
  if command.isEmpty then "(none)" else "`" ++ " ".intercalate command ++ "`"

def opt (value : Option String) : String :=
  value.getD "(none)"

def optNum (value : Option Nat) : String :=
  (value.map toString).getD "(none)"

def fieldLine {Value : Type} [DecidableEq Value] (label : String) (write : Value → String)
    (base head : Value)
    : List String :=
  if base = head then [] else [label ++ ": " ++ write base ++ " → " ++ write head]

/-- The line on one key of two maps, if they hold two values under it. -/
def keyLine (label : String) (write : String → String) : Option String → Option String → List String
  | some base, some head => if base = head then [] else [label ++ ": " ++ write base ++ " → " ++ write head]
  | some base, none => [label ++ ": " ++ write base ++ " → (removed)"]
  | none, some head => [label ++ ": (added) → " ++ write head]
  | none, none => []

def bothKeys (base head : OrderedMap String String) : List String :=
  (base.entries.map Prod.fst ++ head.entries.map Prod.fst).dedup.mergeSort

def mapLines (label : String → String) (write : String → String) (base head : OrderedMap String String)
    : List String :=
  (bothKeys base head).flatMap fun key => keyLine (label key) write (base.get? key) (head.get? key)

def debugTexts (hidden : Char → Bool) (texts : List String) : String :=
  String.ofList (debugList (debugString hidden) texts)

/-- The fields in which two views of a task differ, each with its values. -/
def TaskView.diffFields (hidden : Char → Bool) (base head : TaskView) : List String :=
  fieldLine "command" fmtCmd base.command head.command
  ++ fieldLine "depends_on" (fun deps => "[" ++ ", ".intercalate deps ++ "]") base.dependsOn head.dependsOn
  ++ fieldLine "image" opt base.image head.image
  ++ fieldLine "max_attempts" toString base.maxAttempts head.maxAttempts
  ++ fieldLine "retry_delay_secs" toString base.retryDelaySecs head.retryDelaySecs
  ++ fieldLine "retry_max_delay_secs" optNum base.retryMaxDelaySecs head.retryMaxDelaySecs
  ++ fieldLine "timeout_secs" optNum base.timeoutSecs head.timeoutSecs
  ++ fieldLine "trigger_rule" opt base.triggerRule head.triggerRule
  ++ fieldLine "hook" opt base.hook head.hook
  ++ fieldLine "allow_failure" toString base.allowFailure head.allowFailure
  ++ fieldLine "type" opt base.taskType head.taskType
  ++ fieldLine "approval_timeout_secs" optNum base.approvalTimeoutSecs head.approvalTimeoutSecs
  ++ fieldLine "approval_on_timeout" opt base.approvalOnTimeout head.approvalOnTimeout
  ++ fieldLine "approval_message" opt base.approvalMessage head.approvalMessage
  ++ fieldLine "approval_show" (debugTexts hidden) base.approvalShow head.approvalShow
  ++ fieldLine "binds" (debugTexts hidden) base.binds head.binds
  ++ fieldLine "approvers" (debugTexts hidden) base.approvers head.approvers
  ++ fieldLine "not_triggerer" toString base.notTriggerer head.notTriggerer
  ++ mapLines (fun key => "env." ++ key) (fun value => "\"" ++ value ++ "\"") base.env head.env
  ++ mapLines (fun key => "env." ++ key ++ ".value_from") id base.envSecret head.envSecret

-- The text of what is notified

/-- A commit status, as a debug rendering: the fields' texts, each after its name. -/
def debugGit (hidden : Char → Bool) (git : GitNotify) : List Char :=
  debugField "GitNotify \x7b provider: " (debugString hidden git.provider)
  (debugField ", repo: " (debugString hidden git.repo)
  (debugField ", sha: " (debugString hidden git.sha)
  (debugField ", context: " (debugOption (debugString hidden) git.context)
  (debugField ", target_url: " (debugOption (debugString hidden) git.targetUrl)
  (debugField ", description: " (debugOption (debugString hidden) git.description) [' ', '}'])))))

def debugWebhook (hidden : Char → Bool) (webhook : WebhookNotify) : List Char :=
  debugField "WebhookNotify \x7b url: " (debugString hidden webhook.url)
  (debugField ", on: " (debugList (debugString hidden) webhook.on) [' ', '}'])

def debugSlack (hidden : Char → Bool) (slack : SlackNotify) : List Char :=
  debugField "SlackNotify \x7b webhook_url: " (debugString hidden slack.webhookUrl)
  (debugField ", on: " (debugList (debugString hidden) slack.on) [' ', '}'])

def debugNotify (hidden : Char → Bool) (notify : NotifySpec) : List Char :=
  debugField "NotifySpec \x7b git: " (debugOption (debugGit hidden) notify.git)
  (debugField ", webhook: " (debugOption (debugWebhook hidden) notify.webhook)
  (debugField ", slack: " (debugOption (debugSlack hidden) notify.slack) [' ', '}']))

-- Plans

/-- A resolved workflow as it is compared; each of its tasks, in order, has a view. -/
structure Resolved where
  name
    : String
  runTimeoutSecs
    : Option Nat
  deadline
    : Option String
  notify
    : Option String
  resultFrom
    : Option String
  views
    : OrderedMap String TaskView
  order
    : List String
  known
    : ∀ name ∈ order, (views.get? name).isSome

def viewsOf (tasks : List TaskSpec) : OrderedMap String TaskView :=
  .ofList (tasks.map fun task => (task.name, TaskView.fromSpec task))

theorem get?_viewsOf_isSome {tasks : List TaskSpec} {name : String} (there : name ∈ tasks.map TaskSpec.name)
    : ((viewsOf tasks).get? name).isSome := by
  obtain ⟨task, member, rfl⟩ := List.mem_map.mp there
  exact OrderedMap.get?_ofList_isSome (List.mem_map.mpr ⟨task, member, rfl⟩)

/-- A workflow as it is compared: what it notifies is a text, and so is its deadline. -/
def resolve (hidden : Char → Bool) (graph : DagGraph) : Resolved where
  name := graph.spec.name
  runTimeoutSecs := graph.spec.runTimeoutSecs
  deadline := graph.spec.deadline.map DeadlineSpec.within
  notify := graph.spec.notify.map fun notify => String.ofList (debugNotify hidden notify)
  resultFrom := graph.spec.resultFrom
  views := viewsOf graph.spec.tasks
  order := graph.spec.tasks.map TaskSpec.name
  known := fun _ there => get?_viewsOf_isSome there

def Resolved.view (resolved : Resolved) (name : String) (there : name ∈ resolved.order) : TaskView :=
  (resolved.views.get? name).get (resolved.known name there)

/-- What differs between two resolved workflows. -/
structure Plan where
  baseName
    : String
  headName
    : String
  added
    : List String
  removed
    : List String
  changed
    : List (String × List String)
  runTimeout
    : Option (Option Nat × Option Nat)
  rootChanges
    : List (String × Option String × Option String)
  headOrder
    : List String
  headTasks
    : OrderedMap String TaskView

def Plan.hasChanges (plan : Plan) : Bool :=
  !plan.added.isEmpty || !plan.removed.isEmpty || !plan.changed.isEmpty || plan.runTimeout.isSome
    || !plan.rootChanges.isEmpty

/-- A setting of the run and its two values, if they differ. -/
def rootChange (label : String) (base head : Option String)
    : List (String × Option String × Option String) :=
  if base = head then [] else [(label, base, head)]

def addedTasks (base head : Resolved) : List String :=
  head.order.filter fun name => (base.views.get? name).isNone

def changeOf (name : String) (fields : List String) : Option (String × List String) :=
  if fields.isEmpty then none else some (name, fields)

/-- The tasks that both have, and whose views differ in some field. -/
def changedTasks (hidden : Char → Bool) (base head : Resolved) : List (String × List String) :=
  head.order.attach.filterMap fun ⟨name, there⟩ =>
    (base.views.get? name).bind fun view =>
      changeOf name (view.diffFields hidden (head.view name there))

def removedTasks (base head : Resolved) : List String :=
  ((base.views.entries.map Prod.fst).filter fun name => (head.views.get? name).isNone).mergeSort

def plan (hidden : Char → Bool) (baseGraph headGraph : DagGraph) : Plan :=
  let base := resolve hidden baseGraph
  let head := resolve hidden headGraph
  { baseName := base.name
    headName := head.name
    added := addedTasks base head
    removed := removedTasks base head
    changed := changedTasks hidden base head
    runTimeout :=
      if base.runTimeoutSecs = head.runTimeoutSecs then none
      else some (base.runTimeoutSecs, head.runTimeoutSecs)
    rootChanges := rootChange "deadline" base.deadline head.deadline
      ++ rootChange "notify" base.notify head.notify
      ++ rootChange "result_from" base.resultFrom head.resultFrom
    headOrder := head.order
    headTasks := head.views }

end Dagron.Review
