import Dagron.CiExpr.Value
import Dagron.Library.OrderedMap
import Mathlib.Data.Char

/-! A pipeline that was read: its triggers, its tasks with their steps, and dagron's own keys as they were
written.
-/

namespace Dagron.CiPipeline

open Dagron.Spec (Json)
open Dagron.CiExpr (Text)
open Dagron.Library

-- Steps

/-- A step. What follows its variables is a GitHub workflow's step's. -/
structure Step where
  name
    : Option Text := none
  run
    : Text
  continueOnError
    : Bool := false
  timeoutSecs
    : Option Nat := none
  env
    : OrderedMap Text Text := .empty
  id
    : Option Text := none
  shell
    : Option Text := none
  workingDirectory
    : Option Text := none
  condition
    : Option Text := none
  /-- Variables whose values hold expressions. -/
  lateEnv
    : OrderedMap Text Text := .empty
  /-- The expressions that the script's variables stand for. -/
  exprs
    : List Text := []
  /-- The action that it uses in place of a script. -/
  uses
    : Option Text := none
  /-- The inputs that it gives that action. -/
  with_
    : List (Text × Text) := []

/-- Whether a step has what only the step runner can run. -/
def Step.needsTheRunner (step : Step) : Bool :=
  step.id.isSome || step.shell.isSome || step.workingDirectory.isSome || step.condition.isSome
    || !step.lateEnv.entries.isEmpty || !step.exprs.isEmpty || step.uses.isSome

/-- What a GitHub workflow's job is beside its steps. -/
structure JobSpec where
  condition
    : Option Text := none
  /-- The tasks that it needs, each with the id of the job that it is of; none for a job left out. -/
  needs
    : List (Text × Option Text) := []
  outputs
    : List (Text × Text) := []

/-- The reports that a task's steps write, each a path in its workspace. -/
structure Reports where
  junit
    : List Text := []
  sarif
    : List Text := []

/-- What a GitLab job uploads when its steps are over. -/
structure ArtifactUpload where
  name
    : Text
  paths
    : List Text
  exclude
    : List Text := []
  when_
    : Text
  expireDays
    : Option Nat := none

/-- What the step runner does around a GitLab job's steps. -/
structure TaskHooks where
  upload
    : Option ArtifactUpload := none
  download
    : List Text := []
  allowFailure
    : Bool := false

def TaskHooks.isEmpty (hooks : TaskHooks) : Bool :=
  hooks.upload.isNone && hooks.download.isEmpty && !hooks.allowFailure

/-- A task; dagron's own keys are as they were written. -/
structure Task where
  name
    : String
  steps
    : List Step := []
  dependsOn
    : List String := []
  fields
    : List (String × Json) := []
  reports
    : Reports := {}
  job
    : Option JobSpec := none
  hooks
    : TaskHooks := {}

-- Pipelines

/-- An input that a dispatch may give. -/
structure Input where
  description
    : Option String := none
  default
    : Option String := none
  required
    : Bool := false

/-- The events that run a pipeline, as far as they give its runs parameters: what a dispatch may give, and
the pipelines whose failed runs run it.
-/
structure Triggers where
  dispatch
    : Option (List (String × Input)) := none
  failed
    : Option (List String) := none

/-- What scopes a pipeline's runs: a key, and whether a newer run of it takes the place of those before. -/
structure Concurrency where
  key
    : String
  cancelSuperseded
    : Bool

/-- A pipeline; (spec) holds dagron's own keys as they were written. -/
structure Pipeline where
  name
    : String
  on
    : Triggers
  concurrency
    : Option Concurrency
  tasks
    : List Task
  spec
    : List (String × Json)

end Dagron.CiPipeline
