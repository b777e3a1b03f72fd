import Dagron.Artifact.LogReads
import Dagron.Library.Slices
import Mathlib.Algebra.GroupWithZero.Nat
import Mathlib.Data.List.Sort

/-! A task's log read on from a position as it grows: a statement counts the closed segments' bytes and the
row's, another lists the segments, their objects are read one at a time, and last the row, each where the
one before it said, while the log's writers go on.
-/

namespace Dagron.Artifact

open Dagron.Library

-- The state

/-- What a read does next: list the segments, look at those that are left, of which the first begins at a
place, or read the row.
-/
inductive TailPhase where
  | spans
  | segments (left : List (Nat × Nat)) (start : Nat)
  | row
  deriving DecidableEq

/-- A read of a log past a position: the bytes of the closed segments and of the row as its statement found
them, how many bytes it is to read, and what it has read. The segments that the statement counted are kept
for the statement of what a reader receives.
-/
structure TailRead where
  closed
    : Nat
  row
    : Nat
  max
    : Nat
  out
    : List UInt8 := []
  phase
    : TailPhase
  counted
    : List (Nat × Nat)
  deriving DecidableEq

/-- A reader that follows a writing of a log: what it has received of it, which is its position, and the
read that it is in.
-/
structure Follower where
  writing
    : Writing
  got
    : List UInt8 := []
  reading
    : Option TailRead := none
  deriving DecidableEq

def Follower.at_ (follower : Follower) (read : TailRead) : Nat :=
  follower.got.length + read.out.length

/-- A log that is followed: with how many bytes each row of a closed segment says that it has. -/
structure TailWorld where
  log
    : LogWorld
  bytes
    : Nat × Nat → Nat := fun _ => 0
  follower
    : Option Follower := none

/-- What happens to a log that is followed: to the log itself; a follower begins a read of so many bytes at
most; or it reads on.
-/
inductive TailOp where
  | log (op : LogOp)
  | follow (max : Nat)
  | step
  deriving DecidableEq

namespace TailWorld

-- Statements

/-- The closed segments of an attempt's log, in order, each its number and its bytes. -/
def logSegmentSpans (world : TailWorld) (fence : Nat) : List (Nat × Nat) :=
  ((world.log.closed.filter (·.1 = fence)).map fun entry => (entry.2, world.bytes entry)).insertionSort
    (fun first second => first.1 ≤ second.1)

/-- The bytes of the closed segments of an attempt's log. -/
def closedBytes (world : TailWorld) (fence : Nat) : Nat :=
  ((world.logSegmentSpans fence).map Prod.snd).sum

/-- What is read of a row's log past a position, while it is still of a writing: the bytes of the closed
segments as they are then, and the bytes read.
-/
def logRowBytes (world : TailWorld) (writing : Writing) (pos max : Nat) : Option (Nat × List UInt8) :=
  match world.log.row with
  | none => none
  | some row =>
      match row.log with
      | none => none
      | some log =>
          if row.writing = writing then
            let closed := world.closedBytes writing.fence
            some (closed, ((encodeChars log).drop (pos - closed)).take max)
          else none

local instance lawfulEntries : LawfulBEq (Nat × Nat) :=
  inferInstance

/-- The bytes that the rows recorded of a close's segments say, where they are not recorded already. -/
def recordBytes (world : TailWorld) (fence : Nat) (closing : Closing) : Nat × Nat → Nat :=
  fun entry =>
    if entry.1 = fence ∧ closing.seq ≤ entry.2 ∧ entry ∉ world.log.closed then
      match closing.pieces[entry.2 - closing.seq]? with
      | some piece => bytesOf piece
      | none => world.bytes entry
    else world.bytes entry

-- Steps

/-- Something happens to the log that a follower follows. -/
def change (world : TailWorld) (op : LogOp) : Option TailWorld :=
  match op with
  | .read | .step => none
  | .record fence =>
      (world.log.operate (.record fence)).bind fun log =>
        (world.log.closings fence).map fun closing =>
          { world with log := log, bytes := world.recordBytes fence closing }
  | op => (world.log.operate op).map fun log => { world with log := log }

def reads (world : TailWorld) (follower : Follower) (read : TailRead) : TailWorld :=
  { world with follower := some { follower with reading := some read } }

/-- The follower's read is over: it has received what was read. -/
def ends (world : TailWorld) (follower : Follower) (out : List UInt8) : TailWorld :=
  { world with follower := some { follower with got := follower.got ++ out, reading := none } }

/-- Begins to read what the log has past where the follower got to, from its beginning where it is another
writing now.
-/
def follow (world : TailWorld) (max : Nat) : Option TailWorld :=
  if (world.follower.bind Follower.reading).isSome then none
  else
    world.log.row.map fun row =>
      let follower : Follower :=
        match world.follower with
        | some follower => if follower.writing = row.writing then follower else { writing := row.writing }
        | none => { writing := row.writing }
      let closed := world.closedBytes row.writing.fence
      world.reads follower {
        closed := closed
        row := bytesOf (row.log.getD [])
        max := max
        phase := if follower.got.length < closed then .spans else .row
        counted := world.logSegmentSpans row.writing.fence }

/-- A read lists the segments, and is over where they are not those that its statement counted. -/
def readSpans (world : TailWorld) (follower : Follower) (read : TailRead) : TailWorld :=
  let spans := world.logSegmentSpans follower.writing.fence
  if (spans.map Prod.snd).sum = read.closed then
    world.reads follower { read with phase := .segments spans 0 }
  else world.ends follower []

/-- A read reads what it is to of a segment, and is over where that is not there. -/
def readSegment (world : TailWorld) (follower : Follower) (read : TailRead) (seq len : Nat)
    (left : List (Nat × Nat)) (start : Nat) : TailWorld :=
  let at_ := follower.at_ read
  if start ≤ at_ ∧ at_ < start + len ∧ read.out.length < read.max then
    let want := min (read.max - read.out.length) (start + len - at_)
    match world.log.objects ((world.log.key follower.writing).segment seq) with
    | none => world.ends follower read.out
    | some text =>
        let got := ((encodeChars text).drop (at_ - start)).take want
        if got.length = want then
          world.reads follower { read with out := read.out ++ got, phase := .segments left (start + len) }
        else world.ends follower read.out
  else world.reads follower { read with phase := .segments left (start + len) }

/-- A read reads the row, where it has read all that is closed, and is over. -/
def readRow (world : TailWorld) (follower : Follower) (read : TailRead) : TailWorld :=
  let at_ := follower.at_ read
  if read.max ≤ read.out.length ∨ at_ < read.closed ∨ read.row = 0 ∧ read.closed + read.row ≤ at_ then
    world.ends follower read.out
  else
    match world.logRowBytes follower.writing at_ (read.max - read.out.length) with
    | none => world.ends follower read.out
    | some (closed, bytes) =>
        if closed = read.closed then world.ends follower (read.out ++ bytes)
        else world.ends follower read.out

def step (world : TailWorld) : TailWorld :=
  match world.follower with
  | none => world
  | some follower =>
      match follower.reading with
      | none => world
      | some read =>
          match read.phase with
          | .spans => world.readSpans follower read
          | .segments [] _ => world.reads follower { read with phase := .row }
          | .segments ((seq, len) :: left) start => world.readSegment follower read seq len left start
          | .row => world.readRow follower read

/-- The state after an operation, where it does anything. -/
def operate (world : TailWorld) : TailOp → Option TailWorld
  | .log op => world.change op
  | .follow max => world.follow max
  | .step => some world.step

end TailWorld

/-- A log whose open part is its row's, and what happens to it while it is followed. -/
def tailSystem (task : List Char) : System TailWorld TailOp where
  init := { log := { task := task, openInRow := true } }
  commits op world := (world.operate op).toList

/-- What a follower has received is a beginning of its writing, each byte once and in order. -/
def Received (world : TailWorld) : Prop :=
  ∀ follower, world.follower = some follower →
    follower.got <+: encodeChars (world.log.written follower.writing)

/-- A follower that reads on while nothing else happens receives what comes next of the row's writing, as
much of it as it asks for.
-/
def Receives (world : TailWorld) : Prop :=
  ∀ row max begun, world.log.row = some row → world.follow max = some begun →
    ∃ follower count, begun.follower = some follower ∧ follower.writing = row.writing
      ∧ (TailWorld.step^[count] begun).log = world.log
      ∧ (TailWorld.step^[count] begun).follower = some {
          writing := row.writing
          got := (encodeChars (world.log.written row.writing)).take (follower.got.length + max) }

/-- Steps at which a log is received as it is written: the log's own keep it whole; and where the segments
that a read lists have as many bytes as its statement counted, they begin with those that it counted.
-/
def TailSteady (op : TailOp) (world : TailWorld) : Prop :=
  match op with
  | .log op => Steady op world.log
  | .follow _ => True
  | .step =>
      ∀ follower, world.follower = some follower →
        ∀ read, follower.reading = some read → read.phase = .spans →
          world.closedBytes follower.writing.fence = read.closed →
            read.counted <+: world.logSegmentSpans follower.writing.fence

end Dagron.Artifact
