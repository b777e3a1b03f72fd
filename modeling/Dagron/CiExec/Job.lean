import Dagron.Library.JsonString
import Dagron.Library.Results
import Dagron.CiExpr.Template

/-! What a job is beside its steps: the jobs it needs and what they came to, its own condition, and the line
it says last, with its result and the outputs that it hands on.
-/

namespace Dagron.CiExec

open Dagron.Spec (trim dropStart)
open Dagron.Library Dagron.CiExpr

variable {ext : Externals}

-- What a job says

/-- What a job came to, as the jobs after it read it. -/
inductive JobResult where
  | success
  | failure
  | cancelled
  | skipped
  deriving DecidableEq

def JobResult.text : JobResult → Text
  | .success => "success".toList
  | .failure => "failure".toList
  | .cancelled => "cancelled".toList
  | .skipped => "skipped".toList

def saidMarker : Text :=
  "::dagron-ci::job::".toList

def saidMax : Nat :=
  24 * 1024

/-- Outputs by their names: of two of one name, the later one counts. -/
def outputFields (Num : Type) (outputs : List (Text × Text)) : List (Text × Json Num) :=
  outputs.foldl (fun fields output => insertField output.1 (.string output.2) fields) []

def saidJson {Num : Type} (result : Text) (outputs : List (Text × Json Num)) : Json Num :=
  .object [("outputs".toList, .object outputs), ("result".toList, .string result)]

mutual

/-- JSON with nothing between its parts; (float) is how a number that is no whole one is written. -/
def compact {Num : Type} (float : Num → Text) : Json Num → Text
  | .null => "null".toList
  | .bool value => (toString value).toList
  | .int value => (toString value).toList
  | .float value => float value
  | .string text => quoteJson text
  | .array items => '[' :: compactItems float items ++ [']']
  | .object fields => '{' :: compactFields float fields ++ ['}']

def compactItems {Num : Type} (float : Num → Text) : List (Json Num) → Text
  | [] => []
  | [item] => compact float item
  | item :: rest => compact float item ++ ',' :: compactItems float rest

def compactFields {Num : Type} (float : Num → Text) : List (Text × Json Num) → Text
  | [] => []
  | [(name, value)] => quoteJson name ++ ':' :: compact float value
  | (name, value) :: rest =>
      quoteJson name ++ ':' :: compact float value ++ ',' :: compactFields float rest

end

def saidLine {Num : Type} (float : Num → Text) (result : JobResult) (outputs : List (Text × Text)) : Text :=
  saidMarker ++ compact float (saidJson result.text (outputFields Num outputs))

/-- The line that a job says last, and whether its outputs were left out of it for not fitting. -/
def said {Num : Type} (float : Num → Text) (result : JobResult) (outputs : List (Text × Text))
    : Text × Bool :=
  let whole := saidLine float result outputs
  if byteLen whole ≤ saidMax then (whole, false) else (saidLine float result [], true)

-- What a needed job came to

/-- A task of a needed job: the job's id, the task's status, and the last line it printed. -/
structure Need where
  job
    : Text
  status
    : Text
  said
    : Text

def ofStatus (status : Text) : JobResult :=
  match String.ofList status with
  | "succeeded" => .success
  | "skipped" => .skipped
  | "cancelled" => .cancelled
  | _ => .failure

def field {Num : Type} (json : Json Num) (name : Text) : Option (Json Num) :=
  match json with
  | .object fields => (fields.find? fun field => field.1 == name).map Prod.snd
  | _ => none

def asStr {Num : Type} : Json Num → Option Text
  | .string text => some text
  | _ => none

def asU64 {Num : Type} : Json Num → Option Nat
  | .int (.ofNat value) => if value < 2 ^ 64 then some value else none
  | _ => none

/-- What a task said, as JSON, where its last line is one that a job says. -/
def saidOf (ext : Externals) (need : Need) : Option (Json ext.Num) :=
  (dropStart saidMarker need.said).bind fun json => (ext.fromStr json).toOption

/-- Whether a job that an earlier one computed the instances of had none. -/
def noneMade (ext : Externals) (need : Need) : Bool :=
  trim need.said == "[]".toList
    || ((ext.fromStr need.said).toOption.bind fun summary =>
        (field summary "instances".toList).bind asU64) == some 0

def saidOutputs (ext : Externals) (need : Need) : List (Text × Text) :=
  match (saidOf ext need).bind fun said => field said "outputs".toList with
  | some (.object outputs) =>
      outputs.filterMap fun (name, value) => (asStr value).map fun text => (name, text)
  | _ => []

/-- What a task came to, and its outputs: the engine's word for it comes first. -/
def cameTo (ext : Externals) (need : Need) : JobResult × List (Text × Text) :=
  let saidResult := (saidOf ext need).bind fun said => (field said "result".toList).bind asStr
  let result :=
    if need.status = "succeeded".toList then
      if noneMade ext need then .skipped
      else if saidResult = some "skipped".toList then .skipped
      else .success
    else if saidResult = some "cancelled".toList then .cancelled
    else ofStatus need.status
  (result, saidOutputs ext need)

def together (results : List JobResult) : JobResult :=
  ([.failure, .cancelled, .success].find? fun one => one ∈ results).getD .skipped

/-- A job that is needed: the results of its tasks, and their outputs. -/
structure NeededJob where
  results
    : List JobResult := []
  outputs
    : List (Text × Text) := []

/-- Outputs with another one, in the place of one of its name. -/
def hold (held : List (Text × Text)) (output : Text × Text) : List (Text × Text) :=
  held.filter (fun had => had.1 ≠ output.1) ++ [output]

def NeededJob.add (job : NeededJob) (result : JobResult) (outputs : List (Text × Text)) : NeededJob where
  results := job.results ++ [result]
  outputs := outputs.foldl hold job.outputs

/-- Adds a task to its job, which is the last one where it was not needed before. -/
def addTask (job : Text) (result : JobResult) (outputs : List (Text × Text))
    : List (Text × NeededJob) → List (Text × NeededJob)
  | [] => [(job, ({} : NeededJob).add result outputs)]
  | (id, needed) :: rest =>
      if id = job then (id, needed.add result outputs) :: rest
      else (id, needed) :: addTask job result outputs rest

def neededJobs (ext : Externals) (needs : List Need) : List (Text × NeededJob) :=
  needs.foldl (fun jobs need =>
    let (result, outputs) := cameTo ext need
    addTask need.job result outputs jobs) []

def NeededJob.value (job : NeededJob) : Value ext.Num :=
  .object [("result".toList, .string (together job.results).text),
    ("outputs".toList, .object (job.outputs.map fun (name, value) => (name, .string value)))]

/-- What a job reads as (needs): the result and the outputs of each job, by its id. -/
def needsContext (ext : Externals) (needs : List Need) : Value ext.Num :=
  .object ((neededJobs ext needs).map fun (id, job) => (id, job.value))

-- Whether a job runs

def results : Value ext.Num → List Text
  | .object jobs => jobs.map fun (_, job) => (job.get "result".toList).text
  | _ => []

/-- What a job was handed under a name, which is an object where it is nothing. -/
def handed (context : Json ext.Num) (key : Text) : Value ext.Num :=
  match field context key with
  | none | some .null => .object []
  | some json => Value.ofJson json

def asked (context : Json ext.Num) (needs : Value ext.Num) : Host ext where
  context name :=
    match String.ofList (toAsciiLowercase name) with
    | "github" => some (handed context "github".toList)
    | "inputs" => some (handed context "inputs".toList)
    | "vars" => some (.object [])
    | "needs" => some needs
    | _ => none
  call name _ :=
    let any (what : JobResult) : Bool := (results needs).any fun result => result == what.text
    match String.ofList (toAsciiLowercase name) with
    | "success" =>
        some (.ok (.bool ((results needs).all fun result => result == JobResult.success.text)))
    | "failure" => some (.ok (.bool (any .failure)))
    | "cancelled" => some (.ok (.bool (any .cancelled)))
    | "always" => some (.ok (.bool true))
    | _ => none

/-- Whether a job runs: by its condition, or where it has none or one that does not ask how the jobs it needs
stand, only where all of them succeeded.
-/
def runs (jobIf : Option Text) (context : Json ext.Num) (needs : Value ext.Num) : Except String Bool :=
  let succeeded := (results needs).all fun result => result == JobResult.success.text
  match jobIf with
  | none => .ok succeeded
  | some text => do
      let template ← (condition ext text).mapError Error.message
      let asks := template.exprs.any Expr.asksStatus
      let value ← (template.eval (asked context needs)).mapError Error.message
      return value.truthy && (asks || succeeded)

end Dagron.CiExec
