import Dagron.Artifact.LogSegments
import Dagron.Library.Transition

/-! A task's log as it is written, closed, begun again and swept, with a reader of it: the task's
row and the rows of its closed segments, the store's objects, and what each attempt's writer knows.
-/

namespace Dagron.Artifact

open Dagron.Library

-- The state

/-- A task's row, in what its log needs of it. -/
structure LogRow where
  version
    : Nat := 0
  running
    : Bool := false
  log
    : Option (List Char) := none
  logFence
    : Option Nat := none
  logGen
    : Option Nat := none
  deriving DecidableEq

/-- The writing that a row's log is of: of the attempt it was begun under, or, with no log yet, the
one the row is on.
-/
def LogRow.writing (row : LogRow) : Writing where
  fence := if row.log.isNone then row.version else row.logFence.getD row.version
  gen := row.logGen.getD 0

/-- An attempt's open part as its writer knows it: which writing, and which segment's number. -/
structure Open where
  gen
    : Nat
  seq
    : Nat
  deriving DecidableEq

/-- An open part that is being closed: the segments it fills, what is left of it, how many of the
segments' objects are put, whether what is left is the next open part, whether the segments are
recorded, and how many open parts before it are removed.
-/
structure Closing where
  gen
    : Nat
  seq
    : Nat
  pieces
    : List (List Char)
  rest
    : List Char
  put
    : Nat := 0
  rewritten
    : Bool := false
  recorded
    : Bool := false
  removed
    : Nat := 0
  deriving DecidableEq

/-- A task's log: its row, the rows of its closed segments by fence and number, the store's
objects, each attempt's writer and what it is closing, the writings that removals were told are
current, and a reader. What has been written of each writing, and what of the one read was written
as its reader began, is kept for the statement of what a reader reads.
-/
structure LogWorld where
  task
    : List Char
  openInRow
    : Bool
  row
    : Option LogRow := some {}
  closed
    : List (Nat × Nat) := []
  objects
    : Objects := fun _ => none
  writers
    : Nat → Option Open := fun _ => none
  closings
    : Nat → Option Closing := fun _ => none
  looked
    : List (Option Writing) := []
  reader
    : Option Reader := none
  durable
    : List Char := []
  written
    : Writing → List Char := fun _ => []

def replace {Key Value : Type} [DecidableEq Key] (function : Key → Value) (key : Key) (value : Value)
    : Key → Value := fun other =>
  if other = key then value else function other

section Replace

variable {Key Value : Type} [DecidableEq Key] {function : Key → Value} {key other : Key}

@[simp]
theorem replace_same (value : Value)
    : replace function key value key = value :=
  if_pos rfl

theorem replace_other (apart : other ≠ key) (value : Value)
    : replace function key value other = function other :=
  if_neg apart

@[simp]
theorem replace_self
    : replace function key (function key) = function := by
  funext other
  by_cases same : other = key
  · rw [same, replace_same]
  · exact replace_other same _

@[simp]
theorem replace_replace (first second : Value)
    : replace (replace function key first) key second = replace function key second := by
  funext other
  by_cases same : other = key
  · rw [same, replace_same, replace_same]
  · rw [replace_other same, replace_other same, replace_other same]

end Replace

-- Steps

/-- What happens to a task's log: to its row, where the task is claimed or reset, moves on with its
log kept, stops or goes; by an attempt's writer; by a removal; or by a reader.
-/
inductive LogOp where
  | again (running : Bool)
  | moveOn (running : Bool)
  | stop
  | delete
  | reset (fence : Nat) (text : List Char)
  | learn (fence : Nat)
  | append (fence : Nat) (text : List Char)
  | note (text : List Char)
  | close (fence : Nat) (pieces : List (List Char)) (rest : List Char)
  | put (fence : Nat)
  | rewrite (fence : Nat)
  | record (fence : Nat)
  | removeOpen (fence : Nat)
  | finish (fence : Nat)
  | fail (fence : Nat)
  | look
  | sweep (current : Option Writing) (name : ObjectName)
  | read
  | step
  deriving DecidableEq

namespace LogWorld

abbrev key (world : LogWorld) (writing : Writing) : LogKey :=
  ⟨world.task, writing⟩

/-- What has been written of a writing, once more of it is. -/
def write (world : LogWorld) (writing : Writing) (text : List Char) : LogWorld :=
  { world with written := replace world.written writing (world.written writing ++ text) }

/-- Begins a running attempt's log again: its row's text, and the rows of the closed segments of
this attempt and of each before it go.
-/
def reset (world : LogWorld) (fence : Nat) (text : List Char) : Option LogWorld :=
  match world.row with
  | none => none
  | some row =>
      if row.version = fence ∧ row.running ∧ world.closings fence = none then
        let gen := row.logGen.getD 0 + 1
        let text := if world.openInRow then text else []
        some ({ world with
          row := some { row with log := some text, logFence := some fence, logGen := some gen }
          closed := world.closed.filter (fence < ·.1)
          writers := replace world.writers fence (some ⟨gen, 0⟩) }.write ⟨fence, gen⟩ text)
      else none

/-- What a writer learns of an attempt from the database. -/
def learn (world : LogWorld) (fence : Nat) : Option LogWorld :=
  match world.row with
  | none => none
  | some row =>
      if world.closings fence = none then
        let seqs := (world.closed.filter (·.1 = fence)).map Prod.snd
        some { world with
          writers := replace world.writers fence (some
            { gen := row.writing.gen, seq := (seqs.max?.map (· + 1)).getD 0 }) }
      else none

/-- Adds text to an attempt's open part: the row's log where it is kept there, and where it is not
an object. An attempt's first text begins its log, so none is added to another's.
-/
def append (world : LogWorld) (fence : Nat) (text : List Char) : Option LogWorld :=
  if world.closings fence ≠ none then none
  else if world.openInRow then
    match world.row with
    | none => none
    | some row =>
        if row.version = fence ∧ row.running ∧ row.writing.fence = fence then
          let row := { row with log := some (row.log.getD [] ++ text), logFence := some fence }
          some ({ world with row := some row }.write row.writing text)
        else none
  else
    match world.writers fence with
    | none => none
    | some own =>
        let name := (world.key ⟨fence, own.gen⟩).openPart own.seq
        some ({ world with
          objects := world.objects.put name (some ((world.objects name).getD [] ++ text)) }.write
            ⟨fence, own.gen⟩ text)

/-- Adds a line of the engine's to a running attempt's row, where it has a log. -/
def note (world : LogWorld) (text : List Char) : Option LogWorld :=
  match world.row with
  | none => none
  | some row =>
      match row.log with
      | none => none
      | some log =>
          if row.running then
            let world := { world with row := some { row with log := some (log ++ text) } }
            some (if world.openInRow then world.write row.writing text else world)
          else none

/-- Begins to close an attempt's open part, cut in pieces and a rest. -/
def close (world : LogWorld) (fence : Nat) (pieces : List (List Char)) (rest : List Char)
    : Option LogWorld :=
  match world.writers fence with
  | none => none
  | some own =>
      let text := if world.openInRow then
          (world.row.filter (·.version = fence)).bind LogRow.log
        else world.objects ((world.key ⟨fence, own.gen⟩).openPart own.seq)
      if world.closings fence = none ∧ text = some (pieces.flatten ++ rest) then
        some { world with
          closings := replace world.closings fence (some
            { gen := own.gen, seq := own.seq, pieces := pieces, rest := rest }) }
      else none

/-- Puts the next of the segments that are being closed. -/
def put (world : LogWorld) (fence : Nat) : Option LogWorld :=
  (world.closings fence).bind fun closing =>
    closing.pieces[closing.put]?.map fun piece =>
      { world with
        objects := world.objects.put
          ((world.key ⟨fence, closing.gen⟩).segment (closing.seq + closing.put)) (some piece)
        closings := replace world.closings fence (some { closing with put := closing.put + 1 }) }

def rewrite (world : LogWorld) (fence : Nat) : Option LogWorld :=
  (world.closings fence).bind fun closing =>
    if world.openInRow = false ∧ closing.put = closing.pieces.length ∧ closing.rewritten = false then
      some { world with
        objects := world.objects.put
          ((world.key ⟨fence, closing.gen⟩).openPart (closing.seq + closing.pieces.length))
          (some closing.rest)
        closings := replace world.closings fence (some { closing with rewritten := true }) }
    else none

/-- Records the segments that are closed, and takes their text from the row where it was there. -/
def record (world : LogWorld) (fence : Nat) : Option LogWorld :=
  (world.closings fence).bind fun closing =>
    if closing.put = closing.pieces.length ∧ (world.openInRow ∨ closing.rewritten)
        ∧ closing.recorded = false then
      let rows := (List.range' closing.seq closing.pieces.length).map (fence, ·)
      let trim (row : LogRow) : LogRow :=
        if world.openInRow ∧ row.version = fence then
          { row with log := row.log.map (·.drop closing.pieces.flatten.length) }
        else row
      some { world with
        closed := world.closed ++ rows.filter (· ∉ world.closed)
        row := world.row.map trim
        closings := replace world.closings fence (some { closing with recorded := true }) }
    else none

/-- Removes the next of the open parts before the one just closed. -/
def removeOpen (world : LogWorld) (fence : Nat) : Option LogWorld :=
  (world.closings fence).bind fun closing =>
    if world.openInRow = false ∧ closing.recorded ∧ closing.removed < closing.seq then
      some { world with
        objects := world.objects.put
          ((world.key ⟨fence, closing.gen⟩).openPart closing.removed) none
        closings := replace world.closings fence
          (some { closing with removed := closing.removed + 1 }) }
    else none

def finish (world : LogWorld) (fence : Nat) : Option LogWorld :=
  (world.closings fence).bind fun closing =>
    if closing.recorded ∧ (world.openInRow ∨ closing.removed = closing.seq) then
      some { world with
        writers := replace world.writers fence
          (some ⟨closing.gen, closing.seq + closing.pieces.length⟩)
        closings := replace world.closings fence none }
    else none

/-- Begins to read the log: the row, and the number of the closed segments of its attempt. -/
def read (world : LogWorld) : Option LogWorld :=
  world.row.map fun row =>
    let writing := row.writing
    { world with
      reader := some (.start world.openInRow (world.key writing)
        (world.closed.filter (·.1 = writing.fence)).length row.log)
      durable := world.written writing }

/-- The state after an operation, where it does anything. -/
def operate (world : LogWorld) : LogOp → Option LogWorld
  | .again running =>
      world.row.map fun row =>
        { world with row := some { version := row.version + 1, running := running } }
  | .moveOn running =>
      world.row.map fun row =>
        { world with row := some { row with version := row.version + 1, running := running } }
  | .stop => world.row.map fun row => { world with row := some { row with running := false } }
  | .delete => some { world with row := none }
  | .reset fence text => world.reset fence text
  | .learn fence => world.learn fence
  | .append fence text => world.append fence text
  | .note text => world.note text
  | .close fence pieces rest => world.close fence pieces rest
  | .put fence => world.put fence
  | .rewrite fence => world.rewrite fence
  | .record fence => world.record fence
  | .removeOpen fence => world.removeOpen fence
  | .finish fence => world.finish fence
  | .fail fence =>
      some { world with
        writers := replace world.writers fence none
        closings := replace world.closings fence none }
  | .look => some { world with looked := world.looked ++ [world.row.map LogRow.writing] }
  | .sweep current name =>
      if current ∈ world.looked ∧ name.task = Dagron.Artifact.safe world.task
          ∧ doomed current name.writing then
        some { world with objects := world.objects.put name none }
      else none
  | .read => world.read
  | .step =>
      some { world with reader := world.reader.map (Reader.step world.openInRow world.objects) }

end LogWorld

/-- A task's log and what happens to it, one step at a time. -/
def logSystem (task : List Char) (openInRow : Bool) : System LogWorld LogOp where
  init := { task := task, openInRow := openInRow }
  commits op world := (world.operate op).toList

end Dagron.Artifact
