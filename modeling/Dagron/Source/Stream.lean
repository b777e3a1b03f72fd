import Dagron.Library.Lines
import Dagron.Library.Transition
import Dagron.Library.Utf8
import Dagron.Spec.Condition

/-! A stream that is one file of lines, read from where it was read before: the file and those that
took its place, the source that reads it, and the positions that are kept of it.
-/

namespace Dagron.Source

open Dagron.Library Dagron.Spec

-- Lines

def newline : UInt8 :=
  10

def payload (line : List UInt8) : List UInt8 :=
  (line.reverse.dropWhile fun byte => byte == newline || byte == 13).reverse

def blank (text : List UInt8) : Bool :=
  (fromUtf8Lossy text).all isSpace

/-- The submissions in what a file holds: its finished lines that are not blank. -/
def submissions (bytes : List UInt8) : List (List UInt8) :=
  ((linesOf newline bytes).map payload).filter fun text => !blank text

-- The state

/-- A position in a file. Only the offset is kept anywhere: which file it is of is known to nobody. -/
structure Position where
  file
    : Nat
  offset
    : Nat
  deriving DecidableEq

/-- An open file, and how far it is read. -/
structure OpenFile where
  file
    : Nat
  place
    : Nat
  deriving DecidableEq

/-- A line that is delivered and not acknowledged, and the position just past it. -/
structure Inflight where
  line
    : List UInt8
  next
    : Position
  deriving DecidableEq

/-- Where the actor is with a line: it has asked for none, it waits for one, it waits and found the end
of the file, it received one, the line was made a run.
-/
inductive Turn where
  | idle
  | reading
  | ended
  | received
  | committed
  deriving DecidableEq

/-- A source of lines: the position it was handed as it started, its open file, how far it has counted,
the line it read last, what it has of a line that is not finished, and where the actor is with it.
-/
structure StreamSource where
  dbPosition
    : Option Position
  reader
    : Option OpenFile := none
  pos
    : Nat := 0
  inflight
    : Option Inflight := none
  buf
    : List UInt8 := []
  turn
    : Turn := .idle
  deriving DecidableEq

/-- A stream: the files that were at its path, one after the other, and which one is there; the offset
file; the offset committed in the store; the source, while it runs; and the runs made, by the file and
the text of their lines.
-/
structure StreamWorld where
  follow
    : Bool
  files
    : Nat → List UInt8 := fun _ => []
  current
    : Nat := 0
  offsetFile
    : Option Position := none
  row
    : Option Position := none
  source
    : Option StreamSource := none
  made
    : List (Nat × List UInt8) := []

-- Steps

/-- What happens to a stream: to its files; to the process its source is of; the actor's calls of the
source, and each read of its file and look at its path; and the transaction that makes a run.
-/
inductive StreamOp where
  | append (file : Nat) (bytes : List UInt8)
  | rotate
  | start
  | crash
  | recv
  | read
  | check
  | commit
  | nack
  | ack (mirrored : Bool)
  deriving DecidableEq

namespace StreamWorld

/-- Opens the file at the path: at the position the source was handed, or else the offset file's, unless
the file is shorter.
-/
def opens (world : StreamWorld) (source : StreamSource) : StreamSource :=
  let committed := ((source.dbPosition.or world.offsetFile).map Position.offset).getD 0
  let place := if (world.files world.current).length < committed then 0 else committed
  { source with reader := some ⟨world.current, place⟩, pos := place }

def recv (world : StreamWorld) : Option StreamWorld :=
  world.source.bind fun source =>
    if source.turn ≠ .idle then none
    else if source.inflight.isSome then
      some { world with source := some { source with turn := .received } }
    else
      let opened := if source.reader.isNone then world.opens source else source
      some { world with source := some { opened with buf := [], turn := .reading } }

def read (world : StreamWorld) : Option StreamWorld :=
  world.source.bind fun source => source.reader.bind fun reader =>
    if source.turn ≠ .reading then none
    else
      let chunk := firstLineOf newline ((world.files reader.file).drop reader.place)
      let buf := source.buf ++ chunk
      let read : StreamSource := { source with
        reader := some { reader with place := reader.place + chunk.length } }
      -- What is no text is read and not counted, and what was read of its line before is lost.
      if !isUtf8 buf then
        some { world with source := some { read with buf := [], turn := .idle } }
      else
        let counted : StreamSource := { read with pos := source.pos + chunk.length }
        let delivered : StreamSource := { counted with
          inflight := some ⟨payload buf, ⟨reader.file, counted.pos⟩⟩
          buf := []
          turn := .received }
        if chunk ≠ [] ∧ buf.getLast? = some newline then
          if blank (payload buf) then some { world with source := some { counted with buf := [] } }
          else some { world with source := some delivered }
        else if !world.follow then
          if blank buf then some { world with source := none }
          else some { world with source := some delivered }
        else some { world with source := some { counted with buf := buf, turn := .ended } }

/-- Looks whether the file at the path is shorter than what was read, and opens that file if it is. -/
def check (world : StreamWorld) : Option StreamWorld :=
  world.source.bind fun source =>
    if source.turn ≠ .ended then none
    else if (world.files world.current).length < source.pos then
      let cleared := { world with offsetFile := none }
      some { cleared with
        source := some { cleared.opens source with buf := [], turn := .reading } }
    else some { world with source := some { source with turn := .reading } }

/-- Makes the line in flight a run, with the position just past it, in one transaction. -/
def commit (world : StreamWorld) : Option StreamWorld :=
  world.source.bind fun source => source.inflight.bind fun inflight =>
    if source.turn ≠ .received then none
    else
      some { world with
        row := some inflight.next
        made := world.made ++ [(inflight.next.file, inflight.line)]
        source := some { source with turn := .committed } }

/-- Acknowledges the line in flight, with the offset file written or not. -/
def ack (world : StreamWorld) (mirrored : Bool) : Option StreamWorld :=
  world.source.bind fun source =>
    if source.turn ≠ .committed then none
    else
      some { world with
        offsetFile :=
          if mirrored then source.inflight.map Inflight.next else world.offsetFile
        source := some { source with inflight := none, turn := .idle } }

/-- The state after an operation, where it does anything. -/
def operate (world : StreamWorld) : StreamOp → Option StreamWorld
  | .append file bytes =>
      if file ≤ world.current then
        some { world with files := Function.update world.files file (world.files file ++ bytes) }
      else none
  | .rotate => some { world with current := world.current + 1 }
  | .start =>
      if world.source.isNone then some { world with source := some { dbPosition := world.row } }
      else none
  | .crash => some { world with source := none }
  | .recv => world.recv
  | .read => world.read
  | .check => world.check
  | .commit => world.commit
  | .nack =>
      world.source.bind fun source =>
        if source.turn ≠ .received then none
        else some { world with source := some { source with turn := .idle } }
  | .ack mirrored => world.ack mirrored

end StreamWorld

/-- A stream that is followed, or read to its end, and what happens to it. -/
def streamSystem (follow : Bool) : System StreamWorld StreamOp where
  init := { follow }
  commits op world := (world.operate op).toList

end Dagron.Source
