import Dagron.CiPipeline.Steps
import Dagron.CiPipeline.Words
import Dagron.CiExpr.Glob
import Dagron.Library.Results
import Mathlib.Data.String.Basic

/-! The compiler: a pipeline and an event in, and out the workflow that a run submits with its parameters, or
why the pipeline does not run.
-/

namespace Dagron.CiPipeline

open Dagron.Spec (Json dropStart)
open Dagron.CiExpr (Text Patterns)
open Dagron.Library

-- Filters and events

/-- The pushes that run a pipeline. With neither branches nor tags, every branch and tag does; with one of
them, only that kind.
-/
structure PushFilter where
  branches
    : Option Patterns := none
  tags
    : Option Patterns := none
  paths
    : Option Patterns := none

/-- The pull requests that run a pipeline, by the branch that they merge into. -/
structure PullRequestFilter where
  branches
    : Option Patterns := none
  paths
    : Option Patterns := none

structure MergeGroupFilter where
  branches
    : Option Patterns := none

/-- What a pipeline's triggers take of the other events, and the branches of failed runs. -/
structure Filters where
  push
    : Option PushFilter := none
  pullRequest
    : Option PullRequestFilter := none
  mergeGroup
    : Option MergeGroupFilter := none
  failedBranches
    : Option Patterns := none
  schedule
    : List String := []

/-- A pipeline with all of its triggers. -/
structure FilteredPipeline extends Pipeline where
  filters
    : Filters

/-- The files that an event changed, as far as they are known. -/
inductive Changes where
  | unknown
  | unlisted (why : String)
  | listed (files : List String)

/-- What the compiler reads of an event. -/
structure Event where
  kind
    : String
  gitRef
    : String
  sha
    : String
  baseSha
    : Option String
  baseRef
    : Option String
  pr
    : Option Int
  trust
    : String
  repo
    : String
  forgeHost
    : String
  inputs
    : OrderedMap String String
  changed
    : Changes

structure Settings where
  defaultTimeoutSecs
    : Nat := 3600
  checkout
    : Bool := true
  patched
    : Bool := false

/-- What a run submits. -/
structure Compiled where
  yaml
    : String
  parameters
    : OrderedMap String String

inductive Outcome where
  | run (compiled : Compiled)
  | skip (why : String)
  | unchanged (why : String) (jobs : List String)
  | needsChangedFiles

inductive Decision where
  | run
  | skip (why : String)
  | unchanged (why : String)
  | needsChangedFiles

-- Whether a pipeline runs

/-- A text without what it begins with, or the text where it begins with something else. -/
def stripped (start : String) (text : List Char) : List Char :=
  (dropStart start.toList text).getD text

section Deciding

variable (debug : List Char → String)

/-- The branch that a pull request or a merge group merges into, against a filter. -/
def base (branches : Option Patterns) (ev : Event) (filter : String) : Decision :=
  match branches with
  | none => .run
  | some branches =>
      match ev.baseRef with
      | some base =>
          let base := stripped "refs/heads/" base.toList
          if branches.matches base then .run
          else .skip ("base branch " ++ debug base ++ " is not in " ++ filter)
      | none => .skip ("the base branch is not known, and " ++ filter ++ " needs it")

def paths (filter : Option Patterns) (ev : Event) (name : String) : Decision :=
  match filter with
  | none => .run
  | some filter =>
      match ev.changed with
      | .unknown => .needsChangedFiles
      | .unlisted _ => .run
      | .listed changed =>
          if changed.any fun file => filter.matches file.toList then .run
          else .unchanged ("no changed file matches " ++ name)

/-- The branch that a failed run was of. A merge group's ref is a branch of a queue, not the one it is of. -/
def failedBranch (ev : Event) : Option (List Char) :=
  let into := (ev.baseRef.filter (· ≠ "")).map fun ref => stripped "refs/heads/" ref.toList
  match dropStart "refs/heads/".toList ev.gitRef.toList with
  | some branch => if "gh-readonly-queue/".toList.isPrefixOf branch then into else some branch
  | none => into

def decide (p : FilteredPipeline) (ev : Event) : Decision :=
  match ev.kind with
  | "push" =>
      match p.filters.push with
      | none => .skip "on: does not take push"
      | some filter =>
          let branch := stripped "refs/heads/" ev.gitRef.toList
          match filter.branches, filter.tags with
          | some branches, _ =>
              if ¬ branches.matches branch then
                .skip ("branch " ++ debug branch ++ " is not in on.push.branches")
              else paths filter.paths ev "on.push.paths"
          | none, some _ => .skip "on.push takes tags, not branches"
          | none, none => paths filter.paths ev "on.push.paths"
  -- Paths are not read for a tag.
  | "tag" =>
      match p.filters.push with
      | none => .skip "on: does not take push"
      | some filter =>
          let tag := stripped "refs/tags/" ev.gitRef.toList
          match filter.tags, filter.branches with
          | some tags, _ =>
              if ¬ tags.matches tag then .skip ("tag " ++ debug tag ++ " is not in on.push.tags")
              else .run
          | none, some _ => .skip "on.push takes branches, not tags"
          | none, none => .run
  | "pull_request" =>
      match p.filters.pullRequest with
      | none => .skip "on: does not take pull_request"
      | some filter =>
          match base debug filter.branches ev "on.pull_request.branches" with
          | .run => paths filter.paths ev "on.pull_request.paths"
          | other => other
  | "merge_group" =>
      match p.filters.mergeGroup with
      | some filter => base debug filter.branches ev "on.merge_group.branches"
      | none => .skip "on: does not take merge_group"
  | "dispatch" =>
      match p.on.dispatch with
      | some _ => .run
      | none => .skip "on: does not take dispatch"
  | "failed" =>
      match p.on.failed with
      | none => .skip "on: does not take failed"
      | some pipelines =>
          let failed := (ev.inputs.get? "ci_failed_pipeline").getD ""
          if ¬ pipelines.contains failed then
            .skip ("on.failed does not name " ++ debug failed.toList)
          else
            match p.filters.failedBranches, failedBranch ev with
            | none, _ => .run
            | some branches, some branch =>
                if branches.matches branch then .run
                else .skip ("branch " ++ debug branch ++ " is not in on.failed.branches")
            | some _, none =>
                .skip "on.failed names branches, and the run that failed was of none"
  | "schedule" =>
      match ev.inputs.get? "schedule" with
      | some cron =>
          if p.filters.schedule.any fun other => Spec.trim other.toList == Spec.trim cron.toList then .run
          else .skip ("on.schedule no longer has " ++ debug cron.toList)
      | none => .skip "a schedule event that names no cron"
  | other => .skip ("a " ++ other ++ " event runs no pipeline")

-- Parameters

/-- A dispatch's inputs, as the run gets them: each that the pipeline declares, the caller's value or its
default. There are none for every other event.
-/
def inputs (p : FilteredPipeline) (ev : Event) : Except String (OrderedMap String String) :=
  if ev.kind ≠ "dispatch" then .ok .empty
  else
    let declared := p.on.dispatch.getD []
    match ev.inputs.entries.find? fun input => ¬ declared.any fun other => other.1 = input.1 with
    | some unknown =>
        .error ("pipeline " ++ p.name ++ " takes no input " ++ debug unknown.1.toList
          ++ " (on.dispatch.inputs)")
    | none =>
        declared.foldlM (fun out (name, input) =>
          match (ev.inputs.get? name).or input.default with
          | some value => .ok (out.insert name value)
          | none =>
              if input.required then
                .error ("pipeline " ++ p.name ++ " needs input " ++ debug name.toList)
              else .ok (out.insert name "")) .empty

end Deciding

def wholeText (number : Int) : String :=
  String.ofList ((if number < 0 then ['-'] else []) ++ decimal number.natAbs)

/-- A branch's name as a full ref; none for a name of more than the plain characters of a branch. -/
def fullRef (name : Option String) : String :=
  match name.filter (· ≠ "") with
  | none => ""
  | some name =>
      if ¬ name.toList.all fun char =>
          char.isAlphanum || char == '/' || char == '.' || char == '_' || char == '-' then ""
      else if "refs/".toList.isPrefixOf name.toList then name
      else "refs/heads/" ++ name

/-- The branch that a pull request or a merge group merges into; none for any other event. -/
def baseRef (ev : Event) : String :=
  fullRef ev.baseRef

/-- What runs are grouped by: a pull request, else the ref, with its plain characters alone. -/
def group (ev : Event) : String :=
  let plain := String.ofList ((ev.gitRef.toList.map fun char =>
    if char.isAlphanum || char == '.' || char == '_' || char == '/' || char == '-' then char
    else '_').take 128)
  match ev.pr with
  | some pr =>
      if ev.kind = "pull_request" ∨ ev.kind = "pull_request_closed" then "pr-" ++ wholeText pr
      else plain
  | none => plain

def ciParameters (ev : Event) : List (String × String) :=
  [("ci_event", ev.kind), ("ci_ref", ev.gitRef), ("ci_sha", ev.sha),
    ("ci_base_sha", ev.baseSha.getD ""), ("ci_base_ref", baseRef ev),
    ("ci_pr", (ev.pr.map wholeText).getD ""), ("ci_repo", ev.repo),
    ("ci_forge_host", ev.forgeHost), ("ci_group", group ev), ("ci_trust", ev.trust)]

/-- The parameters that are set from an event, in the order they are listed. -/
def CI_PARAMETERS : List String :=
  ["ci_event", "ci_ref", "ci_sha", "ci_base_sha", "ci_base_ref", "ci_pr", "ci_repo", "ci_forge_host",
    "ci_group", "ci_trust"]

/-- What a failed run is said by, to a pipeline that runs for it. -/
def FAILED_PARAMETERS : List String :=
  ["ci_failed_run", "ci_failed_pipeline", "ci_failed_job", "ci_failed_fault_class",
    "ci_failed_disposition"]

def extend (map : OrderedMap String String) (entries : List (String × String))
    : OrderedMap String String :=
  entries.foldl (fun map entry => map.insert entry.1 entry.2) map

/-- What is said of a failed run: nothing by an event that is of none. -/
def failedParameters (p : FilteredPipeline) (ev : Event) : List (String × String) :=
  if p.on.failed.isSome then
    FAILED_PARAMETERS.map fun name =>
      (name, if ev.kind = "failed" then (ev.inputs.get? name).getD "" else "")
  else []

-- The workflow

/-- A mapping with a value under a key, in the place of what was there, or last. -/
def put (key : String) (value : Json) (fields : List (String × Json)) : List (String × Json) :=
  if fields.any (·.1 = key) then fields.map fun entry => if entry.1 = key then (key, value) else entry
  else fields ++ [(key, value)]

/-- A mapping without a key: the last one takes its place. -/
def swapRemove (key : String) (fields : List (String × Json)) : List (String × Json) :=
  match fields.findIdx? (·.1 = key), fields.getLast? with
  | some place, some last => (fields.set place last).dropLast
  | _, _ => fields

def placeholder (name : String) : String :=
  "\x7b\x7b " ++ name ++ " \x7d\x7d"

/-- What scopes a compiled pipeline's concurrency: its repository. -/
def REPOSITORY_KEY : String :=
  placeholder "ci_forge_host" ++ "/" ++ placeholder "ci_repo"

/-- The repository that a workspace's checkout fetches. -/
def CHECKOUT_REPOSITORY : String :=
  "https://" ++ placeholder "ci_forge_host" ++ "/" ++ placeholder "ci_repo" ++ ".git"

def CI_TAG : String :=
  "ci"

def envEntryOf (name value : String) : Json :=
  .object [("name", .string name), ("value", .string value)]

def parameterEntry (name : String) : Json :=
  envEntryOf (String.ofList (name.toList.map Char.toUpper)) (placeholder name)

def isTag : Json → Bool
  | .string text => text = CI_TAG
  | _ => false

/-- The workflow's tags: the pipeline's own, and its compiler's. What is no list is passed on as it is. -/
def tags (p : FilteredPipeline) : Json :=
  let tagged (own : List Json) : Json :=
    .array (if own.any isTag then own else own ++ [.string CI_TAG])
  match get? p.spec "tags" with
  | some (.array own) => tagged own
  | some .null | none => tagged []
  | some other => other

def itemsOf : Option Json → List Json
  | some (.array items) => items
  | _ => []

/-- A workspace starts with the event's commit checked out in it, unless it says otherwise. -/
def checkedOut (settings : Settings) (workspace : List (String × Json)) : List (String × Json) :=
  let asked := get? workspace "checkout"
  let rest := workspace.filter (·.1 ≠ "checkout")
  let wanted := match asked with
    | some (.bool false) => false
    | _ => true
  if wanted && settings.checkout then
    let checkout := [("commit", .string (placeholder "ci_sha")), ("repository", .string CHECKOUT_REPOSITORY)]
    let checkout := match (asked.bind asObject).bind (get? · "depth") with
      | some depth => OrderedMap.insertEntry "depth" depth checkout
      | none => checkout
    let checkout :=
      if settings.patched then OrderedMap.insertEntry "patched" (.bool true) checkout else checkout
    OrderedMap.insertEntry "checkout" (.object checkout) rest
  else rest

/-- A cache restores from the job's own ref, then from the branch that is merged into. -/
def restoring (workspace : List (String × Json)) : List (String × Json) :=
  workspace.map fun (key, value) =>
    match value with
    | .array caches =>
        if key = "cache" then
          (key, .array (caches.map fun cache =>
            match cache with
            | .object fields =>
                .object (OrderedMap.insertEntry "restore_from" (.string (placeholder "ci_base_ref")) fields)
            | other => other))
        else (key, value)
    | _ => (key, value)

def workspaceOf (t : Task) : Option (List (String × Json)) :=
  match get? t.fields "workspace" with
  | some (.object own) => some own
  | some _ => none
  | none => if t.steps ≠ [] then some [] else none

/-- What each task that a job needs came to, which the engine gives it as it is started. -/
def needed (job : JobSpec) : List Json :=
  job.needs.zipIdx.flatMap fun ((_, task), place) =>
    match task with
    | none => []
    | some task =>
        [("STATUS", "status"), ("SAID", "last_line")].map fun (what, read) =>
          .object [("name", .string ("CI_NEED_" ++ toString (place + 1) ++ "_" ++ what)),
            ("read", .string read), ("task", .string (String.ofList task))]

def task (settings : Settings) (t : Task) : Json :=
  let out := put "name" (.string t.name) []
  let out := if t.dependsOn ≠ [] then put "depends_on" (.array (t.dependsOn.map .string)) out else out
  let out := (t.fields.filter fun field => field.1 ≠ "env" ∧ field.1 ≠ "workspace").foldl
    (fun out field => put field.1 field.2 out) out
  let env := itemsOf (get? t.fields "env")
  let env := if t.steps = [] then env
    else env ++ (taskVariables t).map fun (name, value) =>
      envEntryOf (String.ofList name) (String.ofList value)
  let out := if t.steps = [] then out
    else
      let given := t.job.toList.flatMap fun job => itemsOf (get? t.fields "env_from") ++ needed job
      let out := if given = [] then out else put "env_from" (.array given) out
      let speaks := protocolOf t
      let command := if speaks = 1 then shellDriver t.steps else driverFor speaks
      put "command" (.array [.string "sh", .string "-c", .string (String.ofList command)]) out
  let out := match workspaceOf t with
    | some workspace =>
        let workspace := restoring (checkedOut settings workspace)
        let out := if workspace.any (·.1 = "checkout") then out else swapRemove "forge_token" out
        put "workspace" (.object workspace) out
    | none => swapRemove "forge_token" out
  .object (if env = [] then out else put "env" (.array env) out)

/-- The workflow, keys in an order that a reader expects. -/
def workflow (p : FilteredPipeline) (inputs : OrderedMap String String) (settings : Settings) : Json :=
  let given (names : List String) (fields : List (String × Json)) : List (String × Json) :=
    names.foldl (fun fields name => put name (.string "") fields) fields
  let parameters := given CI_PARAMETERS []
  let parameters := match get? p.spec "parameters" with
    | some (.object own) => own.foldl (fun fields entry => put entry.1 entry.2 fields) parameters
    | _ => parameters
  let parameters := if p.on.failed.isSome then given FAILED_PARAMETERS parameters else parameters
  let parameters := inputs.entries.foldl (fun fields entry =>
    let declared := (p.on.dispatch.bind fun declared => declared.find? (·.1 = entry.1)).bind (·.2.default)
    put entry.1 (.string (declared.getD "")) fields) parameters
  let spec := put "parameters" (.object parameters) (put "name" (.string p.name) [])
  let spec := match p.concurrency with
    | some concurrency =>
        let spec := put "concurrency_key" (.string (REPOSITORY_KEY ++ ":" ++ concurrency.key)) spec
        let spec := if p.spec.any (·.1 = "max_active_runs") then spec
          else put "max_active_runs" (.number "1") spec
        put "when_full" (.string (if concurrency.cancelSuperseded then "supersede" else "queue")) spec
    | none =>
        if ((get? p.spec "max_active_runs").bind asU64).any (· ≥ 1) then
          put "when_full" (.string "queue") (put "concurrency_key" (.string REPOSITORY_KEY) spec)
        else spec
  let spec := put "tags" (tags p) spec
  let spec := (p.spec.filter fun field =>
    ¬ ["parameters", "task_defaults", "tags"].contains field.1).foldl
      (fun spec field => put field.1 field.2 spec) spec
  let defaults := ((get? p.spec "task_defaults").bind asObject).getD []
  let env := CI_PARAMETERS.map parameterEntry
    ++ (if p.on.failed.isSome then FAILED_PARAMETERS.map parameterEntry else [])
    ++ itemsOf (get? defaults "env")
  let defaults := defaults.filter (·.1 ≠ "env")
  let taskDefaults := defaults.foldl (fun fields entry => put entry.1 entry.2 fields) []
  let taskDefaults := if defaults.any (·.1 = "timeout_secs") then taskDefaults
    else put "timeout_secs" (.number (toString settings.defaultTimeoutSecs)) taskDefaults
  let spec := put "task_defaults" (.object (put "env" (.array env) taskDefaults)) spec
  .object (put "tasks" (.array (p.tasks.map (task settings))) spec)

section Compiling

variable (debug : List Char → String) (write : Json → Except String String)

/-- Compiles a pipeline for an event. An error is a request that the pipeline refuses. -/
def compile (p : FilteredPipeline) (ev : Event) (settings : Settings) : Except String Outcome :=
  match decide debug p ev with
  | .skip why => .ok (.skip why)
  | .unchanged why => .ok (.unchanged why (p.tasks.map (·.name)))
  | .needsChangedFiles => .ok .needsChangedFiles
  | .run => do
      let inputs ← inputs debug p ev
      let parameters := extend (extend inputs (ciParameters ev)) (failedParameters p ev)
      let yaml ← (write (workflow p inputs settings)).mapError fun e =>
        "the workflow does not serialize: " ++ e
      .ok (.run ⟨yaml, parameters⟩)

variable {debug} {write} {p : FilteredPipeline} {ev : Event} {settings : Settings} {compiled : Compiled}

theorem compile_run (runs : compile debug write p ev settings = .ok (.run compiled))
    : ∃ given, inputs debug p ev = .ok given
        ∧ write (workflow p given settings) = .ok compiled.yaml
        ∧ compiled.parameters = extend (extend given (ciParameters ev)) (failedParameters p ev) := by
  unfold compile at runs
  split at runs
  next => cases runs
  next => cases runs
  next => cases runs
  next =>
    obtain ⟨given, taken, runs⟩ := exists_of_bind_eq_ok runs
    obtain ⟨yaml, written, runs⟩ := exists_of_bind_eq_ok runs
    obtain rfl := Outcome.run.inj (Except.ok.inj runs)
    exact ⟨given, taken, ok_of_mapError written, rfl⟩

end Compiling

end Dagron.CiPipeline
