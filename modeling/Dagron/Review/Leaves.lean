import Dagron.Library.Legible
import Dagron.Library.OrderedMap
import Dagron.Spec.Task
import Mathlib.Data.List.Dedup
import Mathlib.Data.String.Basic

/-! Workflows as they are once resolved, with every setting that a task or a run keeps, and the view of them
that two versions are compared by.
-/

namespace Dagron.Review

open Dagron.Library
open Dagron.Spec (Json EnvFrom WhenFull)

-- Resolved workflows

/-- A secret that a variable's value is read from; (optional) is whether it may be missing. -/
structure SecretRef where
  secret
    : String
  optional
    : Bool := false

/-- An environment variable of a task. -/
structure EnvVar where
  name
    : String
  value
    : String := ""
  valueFrom
    : Option SecretRef := none

/-- One task of a resolved workflow. What expansion uses up is not there any more, and a setting with
settings of its own, none of which is looked at here, is kept as it is written.
-/
structure TaskSpec where
  name
    : String
  command
    : List String := []
  dependsOn
    : List String := []
  input
    : Option Json := none
  arguments
    : List (String × String) := []
  withOutputOf
    : Option String := none
  when
    : Option String := none
  instanceKey
    : Option String := none
  triggerRule
    : Option String := none
  hook
    : Option String := none
  allowFailure
    : Bool := false
  taskType
    : Option String := none
  workflow
    : Option String := none
  wait
    : Option Json := none
  approvalTimeoutSecs
    : Option Nat := none
  approvalOnTimeout
    : Option String := none
  approvalMessage
    : Option String := none
  approvalShow
    : List String := []
  binds
    : List String := []
  approvers
    : List String := []
  notTriggerer
    : Bool := false
  maxAttempts
    : Nat := 1
  retryDelaySecs
    : Nat := 0
  retryMaxDelaySecs
    : Option Nat := none
  retryOnTimeout
    : Option Bool := none
  retryBudgets
    : List (String × Nat) := []
  timeoutSecs
    : Option Nat := none
  dockerImage
    : Option String := none
  imagePullPolicy
    : Option String := none
  env
    : List EnvVar := []
  environment
    : Option String := none
  resources
    : Option Json := none
  serviceAccount
    : Option String := none
  runnerClass
    : Option String := none
  priority
    : Int := 0
  pool
    : Option String := none
  cache
    : Option Json := none
  repeatSpec
    : Option Json := none
  defer
    : Option Json := none
  produces
    : List String := []
  gang
    : Option Nat := none
  isolation
    : Option Json := none
  workspace
    : Option Json := none
  services
    : List Json := []
  envFrom
    : List EnvFrom := []
  identity
    : Option Json := none
  forgeToken
    : Option Json := none
  dockerDaemon
    : Bool := false
  privileged
    : Bool := false
  tokens
    : Option Nat := none
  artifactApi
    : Bool := false

/-- A commit status that is posted when a run ends. -/
@[ext]
structure GitNotify where
  provider
    : String
  repo
    : String
  sha
    : String
  context
    : Option String := none
  targetUrl
    : Option String := none
  description
    : Option String := none

/-- A request that is sent on some events of a run. -/
@[ext]
structure WebhookNotify where
  url
    : String
  on
    : List String := []

/-- A message that is posted on some events of a run. -/
@[ext]
structure SlackNotify where
  webhookUrl
    : String
  on
    : List String := []

/-- Who is told of a run. -/
@[ext]
structure NotifySpec where
  git
    : Option GitNotify := none
  webhook
    : Option WebhookNotify := none
  slack
    : Option SlackNotify := none

/-- How long after its start a run should have ended. -/
@[ext]
structure DeadlineSpec where
  within
    : String

/-- What one run may create and spend. -/
structure RunBudget where
  tasks
    : Option Nat := none
  externalCost
    : Option Nat := none
  tokens
    : Option Nat := none

/-- A resolved workflow: its tasks and what holds of its runs. -/
structure DagSpec where
  name
    : String
  tags
    : List String := []
  concurrencyKey
    : Option String := none
  runTimeoutSecs
    : Option Nat := none
  maxActiveRuns
    : Option Nat := none
  whenFull
    : Option WhenFull := none
  budget
    : Option RunBudget := none
  deadline
    : Option DeadlineSpec := none
  notify
    : Option NotifySpec := none
  resultFrom
    : Option String := none
  runnerClass
    : Option String := none
  environment
    : Option String := none
  onDatasets
    : List String := []
  datasetsMode
    : Option String := none
  tasks
    : List TaskSpec

/-- A workflow that was read, expanded and validated; no two of its tasks have one name. -/
structure DagGraph where
  spec
    : DagSpec
  distinct
    : (spec.tasks.map TaskSpec.name).Nodup

end Dagron.Review
