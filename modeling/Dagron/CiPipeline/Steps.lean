import Dagron.CiPipeline.Form
import Dagron.CiExpr.Parse
import Dagron.Library.Numbered

/-! What a task's steps compile to: the variables that carry them to what runs them, in a step protocol, and
the command of the task.
-/

namespace Dagron.CiPipeline

open Dagron.Spec (trim)
open Dagron.CiExpr (Text)
open Dagron.Library

-- Protocols

/-- The step protocol that a task's steps are handed on in. -/
def protocol (steps : List Step) : Nat :=
  if steps.any fun step => step.uses.isSome then 4
  else if steps.any Step.needsTheRunner then 2
  else 1

def protocolOf (task : Task) : Nat :=
  match task.job with
  | some _ => max (protocol task.steps) 3
  | none => if task.hooks.isEmpty then protocol task.steps else 5

-- Variables

/-- A step's name, or the action that it uses, or the first line of its script. -/
def stepName (step : Step) : Text :=
  match step.name, step.uses with
  | some name, _ => name
  | none, some uses => "Run ".toList ++ uses
  | none, none =>
      let first := trim (step.run.takeWhile fun char => char ≠ '\n')
      first.take 60 ++ if first.length > 60 then ['…'] else []

/-- The variables of one step, each by what follows the step's number. -/
def stepWords (step : Step) : List (Text × Text) :=
  let one (key : String) (value : Option Text) : List (Text × Text) :=
    value.toList.map fun value => (key.toList, value)
  [("NAME".toList, stepName step), ("RUN".toList, step.run)]
    ++ one "TIMEOUT_SECS" (step.timeoutSecs.map decimal)
    ++ one "CONTINUE_ON_ERROR" (if step.continueOnError then some "true".toList else none)
    ++ step.env.entries.map (fun (name, value) => ("ENV_".toList ++ name, value))
    ++ one "ID" step.id
    ++ one "SHELL" step.shell
    ++ one "WORKDIR" step.workingDirectory
    ++ one "IF" step.condition
    ++ step.lateEnv.entries.map (fun (name, value) => ("ENVX_".toList ++ name, value))
    ++ step.exprs.zipIdx.map (fun (expr, k) => ("EXPR_".toList ++ decimal (k + 1), expr))
    ++ one "USES" step.uses
    ++ numberedAll "WITH_" (fun (name, value) => [("NAME".toList, name), ("VALUE".toList, value)])
      step.with_

/-- The variables that carry steps to what runs them, said in a protocol. -/
def stepVariables (steps : List Step) (speaks : Nat) : List (Text × Text) :=
  [("CI_STEP_PROTOCOL".toList, decimal speaks), ("CI_STEP_COUNT".toList, decimal steps.length)]
    ++ numberedAll "CI_STEP_" stepWords steps

/-- The variables that carry what a job is beside its steps. -/
def jobVariables (job : JobSpec) : List (Text × Text) :=
  job.condition.toList.map (fun condition => ("CI_JOB_IF".toList, condition))
    ++ (if job.needs = [] then [] else [("CI_NEED_COUNT".toList, decimal job.needs.length)])
    ++ numberedAll "CI_NEED_" (fun (id, task) =>
      ("JOB".toList, id) :: if task.isNone then [("STATUS".toList, "skipped".toList)] else []) job.needs
    ++ (if job.outputs = [] then [] else [("CI_OUTPUT_COUNT".toList, decimal job.outputs.length)])
    ++ numberedAll "CI_OUTPUT_" (fun (name, value) => [("NAME".toList, name), ("VALUE".toList, value)])
      job.outputs

def lined (texts : List Text) : Text :=
  ['\n'].intercalate texts

/-- A variable of texts, one to a line, where there are some. -/
def pathsVariable (name : String) (texts : List Text) : List (Text × Text) :=
  if texts = [] then [] else [(name.toList, lined texts)]

def reportVariables (reports : Reports) : List (Text × Text) :=
  pathsVariable "CI_REPORT_JUNIT" reports.junit ++ pathsVariable "CI_REPORT_SARIF" reports.sarif

/-- The variables that say what the step runner does around a GitLab job's steps. -/
def hookVariables (hooks : TaskHooks) : List (Text × Text) :=
  pathsVariable "CI_ARTIFACT_DOWNLOAD" hooks.download
    ++ (hooks.upload.toList.flatMap fun up =>
      ("CI_ARTIFACT_UPLOAD_NAME".toList, up.name)
        :: ("CI_ARTIFACT_UPLOAD_PATHS".toList, lined up.paths)
        :: pathsVariable "CI_ARTIFACT_UPLOAD_EXCLUDE" up.exclude
        ++ ("CI_ARTIFACT_UPLOAD_WHEN".toList, up.when_)
        :: up.expireDays.toList.map fun days =>
          ("CI_ARTIFACT_UPLOAD_EXPIRE_DAYS".toList, decimal days))
    ++ if hooks.allowFailure then [("CI_JOB_ALLOW_FAILURE".toList, "true".toList)] else []

/-- The variable that says where a job's caches restore from after its own ref. -/
def actionsCacheRestoreFrom : String :=
  "DAGRON_ACTIONS_CACHE_RESTORE_FROM"

/-- The variables of a task with steps beside its own: its steps, its reports, its artifacts, and what a job
is.
-/
def taskVariables (task : Task) : List (Text × Text) :=
  stepVariables task.steps (protocolOf task)
    ++ reportVariables task.reports
    ++ hookVariables task.hooks
    ++ (if protocolOf task = 4 then
        [(actionsCacheRestoreFrom.toList, "\x7b\x7b ci_base_ref \x7d\x7d".toList)]
      else [])
    ++ task.job.toList.flatMap jobVariables

-- Commands

def ofLines (lines : List String) : Text :=
  lines.flatMap fun line => line.toList ++ ['\n']

/-- The lines that hand the steps to the step runner, where there is one that speaks a protocol. -/
def handOn (speaks : Nat) : List String :=
  ["for ci_exec in /dagron/bin/dagron-ci-exec \"$(command -v dagron-ci-exec 2>/dev/null)\"; do",
    "  if [ -x \"$ci_exec\" ] && \"$ci_exec\" --speaks " ++ toString speaks ++ " >/dev/null 2>&1; then",
    "    exec \"$ci_exec\"",
    "  fi",
    "done"]

/-- The command of a task that only the step runner can run. -/
def driverFor (speaks : Nat) : Text :=
  ofLines
    (["# dagron-ci: this task's steps, run by dagron-ci-exec (step protocol " ++ toString speaks
          ++ "), at",
        "# /dagron/bin or on PATH. They name what a shell alone cannot run for them."]
      ++ handOn speaks
      ++ ["printf '%s\\n' \"::dagron-ci::error::this job's steps need dagron-ci-exec (step protocol "
          ++ toString speaks
          ++ "), and none is at /dagron/bin or on PATH: the engine installs it where its operator set "
          ++ "DAGRON_CI_EXEC_IMAGE\" >&2",
        "exit 125"])

def shellFunctions : List String :=
  ["ci_run() \x7b",
    "  if [ \"$1\" -gt 0 ]; then",
    "    if command -v timeout >/dev/null 2>&1; then",
    "      timeout -k 10 \"$1\" sh -ec \"$2\"",
    "      return $?",
    "    fi",
    "    printf '%s\\n' \"::dagron-ci::warning::no timeout(1) in this image; the step runs without its $1 s "
      ++ "limit\" >&2",
    "  fi",
    "  sh -ec \"$2\"",
    "\x7d",
    "ci_start() \x7b",
    "  printf '%s\\n' \"::dagron-ci::step::$1::start::$2\" >&2",
    "\x7d",
    "# A failed step ends the task, unless it may fail (its third argument, 1).",
    "ci_end() \x7b",
    "  printf '%s\\n' \"::dagron-ci::step::$1::end::$2\" >&2",
    "  [ \"$2\" -eq 0 ] && return 0",
    "  [ \"$3\" = 1 ] || exit \"$2\"",
    "  printf '%s\\n' \"::dagron-ci::step::$1::continued\" >&2",
    "\x7d"]

def shellLine (number : Nat) (step : Step) : Text :=
  let n := decimal number
  let exports := step.env.entries.flatMap fun (name, _) =>
    "export ".toList ++ name ++ "=\"$CI_STEP_".toList ++ n ++ "_ENV_".toList ++ name ++ "\"; ".toList
  "ci_start ".toList ++ n ++ " \"$CI_STEP_".toList ++ n ++ "_NAME\"; ( ".toList ++ exports
    ++ "ci_run ".toList ++ decimal (step.timeoutSecs.getD 0) ++ " \"$CI_STEP_".toList ++ n
    ++ "_RUN\" ); ci_end ".toList ++ n ++ " $? ".toList
    ++ (if step.continueOnError then ['1'] else ['0']) ++ ['\n']

def shellDriver (steps : List Step) : Text :=
  ofLines
    (["# dagron-ci: this task's steps, in order, each in its own `sh -e`. They run",
        "# under dagron-ci-exec (step protocol 1) where the image has it, at",
        "# /dagron/bin or on PATH, and under the lines below where it does not.",
        "# Either way the markers go to stderr: the output is the steps'."]
      ++ handOn 1 ++ shellFunctions)
    ++ (steps.zipIdx.flatMap fun (step, i) => shellLine (i + 1) step)
    ++ "exit 0\n".toList

end Dagron.CiPipeline
