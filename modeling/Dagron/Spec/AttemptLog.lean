import Dagron.Spec.Duration

/-! How much of an attempt's output is kept once the attempt is superseded: a tail of it, for
the newest attempts of a task.
-/

namespace Dagron.Spec

/-- The bytes kept of an attempt where nothing says how many. -/
def defaultBytes : Nat := 4096

/-- The attempts kept of a task where nothing says how many. -/
def defaultKeep : Nat := 50

def maxBytes : Nat := 64 * 1024

/-- Why an attempt ended that a worker tries again. -/
inductive AttemptEnd where
  | iteration
  | failed
  deriving DecidableEq, Repr

def AttemptEnd.asStr : AttemptEnd → String
  | .iteration => "iteration"
  | .failed => "failed"

/-- The retention in force: the bytes of an attempt, none for no retention, and the attempts of
a task, none for no limit.
-/
structure AttemptPolicy where
  bytes
    : Nat := defaultBytes
  keep
    : Nat := defaultKeep
  deriving DecidableEq, Repr

/-- The characters at the end of a text that fit in a number of bytes. -/
def tailWithin (bytes : Nat) : List Char → List Char
  | [] => []
  | char :: rest =>
      if ((char :: rest).map Char.utf8Size).sum ≤ bytes then char :: rest
      else tailWithin bytes rest

namespace AttemptPolicy

def fromEnv (var : String → Option String) : AttemptPolicy :=
  let read (key : String) : Option Nat := (var key).bind (fun value => parseU64 (trim value.toList))
  { bytes := ((read "DAGRON_ATTEMPT_LOG_BYTES").map (min maxBytes)).getD defaultBytes
    keep := (read "DAGRON_ATTEMPT_LOG_KEEP").getD defaultKeep }

def enabled (policy : AttemptPolicy) : Bool :=
  0 < policy.bytes

/-- What is kept of an output, and whether something of it was dropped. -/
def tail (policy : AttemptPolicy) (output : String) : String × Bool :=
  if output.utf8ByteSize ≤ policy.bytes then (output, false)
  else (String.ofList (tailWithin policy.bytes output.toList), true)

/-- The highest number that may go once an attempt is kept, if any may. -/
def evictBelow (policy : AttemptPolicy) (attempt : Nat) : Option Nat :=
  if policy.keep = 0 then none
  else if 1 ≤ attempt - policy.keep then some (attempt - policy.keep)
  else none

theorem evictBelow_eq_some {policy : AttemptPolicy} {attempt cutoff : Nat}
    (evicts : policy.evictBelow attempt = some cutoff)
    : 0 < policy.keep ∧ cutoff + policy.keep = attempt := by
  simp only [evictBelow] at evicts
  split at evicts
  · cases evicts
  split at evicts
  · cases evicts
    omega
  · cases evicts

end AttemptPolicy

example : ({ keep := 3 } : AttemptPolicy).evictBelow 3 = none := by decide

example : ({ keep := 3 } : AttemptPolicy).evictBelow 10 = some 7 := by decide

example : (AttemptPolicy.fromEnv (fun _ => some "999999999")).bytes = maxBytes := by decide

end Dagron.Spec
