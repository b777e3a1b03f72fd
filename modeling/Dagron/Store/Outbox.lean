import Dagron.Library.Transition
import Dagron.Store.Schema
import Mathlib.Data.List.Sort

/-! The outbox, delivered a sink at a time: each consumer is handed the events written since it
was registered, and leases and marks its own delivery of each. Instants stand for their texts,
which sort as they do.
-/

namespace Dagron.Store

open Dagron.Library

-- Tables

/-- What became of an event, or of one sink's delivery of it. -/
inductive DeliveryStatus where
  | pending
  | delivered
  | dead
  | shed
  deriving DecidableEq, Repr

/-- An event of the outbox; its status is of the time before there were sinks. -/
structure OutboxRow where
  id
    : Nat
  runId
    : Nat
  eventType
    : String
  payload
    : String
  status
    : DeliveryStatus := .pending
  createdAt
    : Time
  deriving DecidableEq, Repr

/-- A registered sink: the first instant it is handed events of, and how far it has enrolled. -/
structure SinkRow where
  sink
    : String
  since
    : Time
  cursor
    : Time
  registeredAt
    : Time
  deriving DecidableEq, Repr

/-- One sink's delivery of one event. -/
structure DeliveryRow where
  outboxId
    : Nat
  sink
    : String
  status
    : DeliveryStatus := .pending
  attempts
    : Nat := 0
  nextAttemptAt
    : Time
  lastError
    : Option String := none
  deliveredAt
    : Option Time := none
  deriving DecidableEq, Repr

instance : Keyed OutboxRow Nat where
  key row := row.id

instance : Keyed SinkRow String where
  key row := row.sink

instance : Keyed DeliveryRow (Nat × String) where
  key row := (row.outboxId, row.sink)

/-- The tables of the outbox, and when it began to be delivered a sink at a time. -/
structure OutboxDb where
  events
    : Table OutboxRow
  sinks
    : Table SinkRow
  deliveries
    : Table DeliveryRow
  perSinkSince
    : Time

/-- A consumer of the outbox: its name, the types it is handed, all but a task's where it names
none, and whether it takes over what was pending before there were sinks.
-/
structure OutboxSink where
  name
    : String
  eventTypes
    : List String
  adoptsLegacy
    : Bool
  deriving DecidableEq, Repr

/-- The sinks that may be registered: one of each name. -/
structure Sinks where
  sink
    : String → OutboxSink
  named
    : ∀ name, (sink name).name = name

-- The window of an enrolment

/-- How late an event may commit after the time it carries. -/
def outboxLateCommitSecs : Nat :=
  300

def outboxEnrollRows : Nat :=
  1000

def maxSpoolSecs : Int :=
  100 * 366 * 24 * 3600

def outboxEnrolFrom (since cursor : Time) : Time :=
  max (cursor - seconds outboxLateCommitSecs) since

def later? : Option Time → Option Time → Option Time
  | some first, some second => some (max first second)
  | some first, none => some first
  | none, second => second

/-- A sink's cursor once it has found events: the latest of them, and where the batch is not
full also the time before which every event has committed.
-/
def outboxNextCursor (latest : Option Time) (enrolled : Nat) (now : Time) : Option Time :=
  later? latest
    (if enrolled < outboxEnrollRows then some (now - seconds outboxLateCommitSecs) else none)

def outboxCursorMoves (cursor next : Time) (enrolled : Nat) : Bool :=
  cursor < next ∧ (0 < enrolled ∨ seconds 60 ≤ next - cursor)

/-- Whether a type is that of a task event, in any case of letters. -/
def isTaskEvent (eventType : String) : Bool :=
  "task.".toList <+: eventType.toList.map Char.toLower

def OutboxSink.wants (sink : OutboxSink) (eventType : String) : Bool :=
  (sink.eventTypes = [] ∧ ¬ isTaskEvent eventType) ∨ eventType ∈ sink.eventTypes

-- Statements

namespace OutboxDb

def enrolled (db : OutboxDb) (sink : String) (id : Nat) : Bool :=
  (db.deliveries.get? (id, sink)).isSome

/-- The delivery of an event a sink is handed, due at once. -/
def deliveryOf (sink : String) (row : OutboxRow) : DeliveryRow where
  outboxId := row.id
  sink := sink
  nextAttemptAt := row.createdAt

/-- Inserts a sink's deliveries of some events, but for those it has. -/
def deliver (db : OutboxDb) (sink : String) (rows : List OutboxRow) : OutboxDb :=
  { db with
    deliveries := (rows.map (deliveryOf sink)).foldl Table.insertOrIgnore db.deliveries }

/-- Hands a sink that is not registered what was pending before there were sinks. -/
def adoptLegacy (db : OutboxDb) (sink : OutboxSink) : OutboxDb :=
  db.deliver sink.name (db.events.select (fun row =>
    row.status = .pending ∧ row.createdAt < db.perSinkSince
      ∧ (sink.eventTypes = [] ∨ row.eventType ∈ sink.eventTypes)
      ∧ (db.sinks.get? sink.name).isNone))

def nameSink (db : OutboxDb) (sink : OutboxSink) (now : Time) : OutboxDb :=
  { db with sinks := db.sinks.insertOrIgnore ⟨sink.name, now, now, now⟩ }

def before (first second : OutboxRow) : Prop :=
  first.createdAt < second.createdAt
    ∨ first.createdAt = second.createdAt ∧ first.id ≤ second.id

instance : DecidableRel before :=
  fun _ _ => inferInstanceAs (Decidable (_ ∨ _))

/-- Whether an event is for a sink and not handed to it. -/
def awaits (db : OutboxDb) (sink : OutboxSink) (row : OutboxRow) : Prop :=
  row.status = .pending ∧ sink.wants row.eventType ∧ ¬ db.enrolled sink.name row.id

instance (db : OutboxDb) (sink : OutboxSink) : DecidablePred (db.awaits sink) :=
  fun _ => inferInstanceAs (Decidable (_ ∧ _))

/-- The first events from an instant on that a sink is to be handed. -/
def findEvents (db : OutboxDb) (sink : OutboxSink) (start : Time) : List OutboxRow :=
  ((db.events.select (fun row => start ≤ row.createdAt ∧ db.awaits sink row)).insertionSort
    before).take outboxEnrollRows

def enrollFound (db : OutboxDb) (sink : OutboxSink) (found : List OutboxRow) : OutboxDb :=
  db.deliver sink.name (db.events.select (fun row =>
    row.id ∈ found.map (fun row : OutboxRow => row.id)))

def moveCursor (db : OutboxDb) (sink : String) (next : Time) : OutboxDb :=
  { db with
    sinks := db.sinks.update (fun row => row.sink = sink ∧ row.cursor < next)
      (fun row => { row with cursor := next }) }

/-- The due deliveries of a sink that are claimed at once: all of them where the limit is
negative.
-/
def dueDeliveries (db : OutboxDb) (sink : String) (now : Time) (limit : Int) : List DeliveryRow :=
  let due := (db.deliveries.select (fun row =>
    row.sink = sink ∧ row.status = .pending ∧ row.nextAttemptAt ≤ now
      ∧ (db.events.get? row.outboxId).isSome)).insertionSort
        (fun first second => first.nextAttemptAt ≤ second.nextAttemptAt)
  if limit < 0 then due else due.take limit.toNat

def claimDeliveries (db : OutboxDb) (sink : String) (now : Time) (limit leaseSecs : Int)
    : OutboxDb :=
  let claimed := (db.dueDeliveries sink now limit).map (fun row => row.outboxId)
  let leaseUntil := now + min (max leaseSecs 0) maxSpoolSecs * 1000000000
  { db with
    deliveries := db.deliveries.update (fun row => row.sink = sink ∧ row.outboxId ∈ claimed)
      (fun row => { row with nextAttemptAt := leaseUntil }) }

def mark (db : OutboxDb) (sink : String) (id : Nat) (set : DeliveryRow → DeliveryRow)
    (keeps : ∀ row, Keyed.key (set row) = Keyed.key row := by intros; rfl) : OutboxDb :=
  { db with
    deliveries := db.deliveries.update
      (fun row => row.sink = sink ∧ row.outboxId = id ∧ row.status = .pending) set keeps }

def markDelivered (db : OutboxDb) (sink : String) (id : Nat) (now : Time) : OutboxDb :=
  db.mark sink id (fun row => { row with status := .delivered, deliveredAt := some now })

/-- A sink's delivery of an event failed, and is tried again. -/
def markFailed (db : OutboxDb) (sink : String) (id : Nat) (error : String) (retryAt : Time)
    : OutboxDb :=
  db.mark sink id (fun row => { row with
    attempts := row.attempts + 1, lastError := some error, nextAttemptAt := retryAt })

def markDead (db : OutboxDb) (sink : String) (id : Nat) (error : String) : OutboxDb :=
  db.mark sink id (fun row => { row with
    status := .dead, attempts := row.attempts + 1, lastError := some error })

end OutboxDb

-- Calls

/-- Where a process is in a call that registers a sink or enrols it: before the statement that
hands it what was pending, before the one that names it, and, of an enrolment that began at an
instant, before the one that reads its position, that finds events, that hands them out, and
that moves the cursor.
-/
inductive SinkCall where
  | idle
  | adopting (sink : OutboxSink) (now : Time) (enrolment : Option Time)
  | naming (sink : OutboxSink) (now : Time) (enrolment : Option Time)
  | reading (sink : OutboxSink) (now : Time)
  | finding (sink : OutboxSink) (now since cursor : Time)
  | enrolling (sink : OutboxSink) (now cursor : Time) (found : List OutboxRow)
  | moving (sink : OutboxSink) (now cursor : Time) (found : List OutboxRow)

/-- A registration begins with what was pending, if the sink takes it over. -/
def SinkCall.register (sink : OutboxSink) (now : Time) (enrolment : Option Time) : SinkCall :=
  if sink.adoptsLegacy then .adopting sink now enrolment else .naming sink now enrolment

def latestOf (found : List OutboxRow) : Option Time :=
  found.foldr (fun row latest => later? (some row.createdAt) latest) none

/-- The outbox, the time, and every process's call. For the proofs, when each event committed. -/
structure OutboxWorld where
  db
    : OutboxDb
  clock
    : Time
  calls
    : Nat → SinkCall
  committedAt
    : Nat → Time

/-- The outbox as its sinks find it: events of before, none of a time to come. -/
structure Legacy where
  events
    : Table OutboxRow
  perSinkSince
    : Time
  clock
    : Time
  past
    : ∀ row ∈ events, row.createdAt ≤ clock

def Legacy.world (legacy : Legacy) : OutboxWorld where
  db := ⟨legacy.events, .empty, .empty, legacy.perSinkSince⟩
  clock := legacy.clock
  calls := fun _ => .idle
  committedAt := fun _ => legacy.clock

/-- The transactions of writers and of the processes of the sinks. -/
inductive OutboxOp where
  | tick (now : Time)
  /-- A transaction commits the events it wrote. -/
  | commitEvents (rows : List OutboxRow)
  | registerOutboxSink (process : Nat) (sink : String)
  | outboxEnroll (process : Nat) (sink : String)
  /-- The next statement of a process's call. -/
  | next (process : Nat)
  | claimDeliveries (sink : String) (now : Time) (limit leaseSecs : Int)
  | markOutboxDelivered (sink : String) (id : Nat) (now : Time)
  | markOutboxFailed (sink : String) (id : Nat) (error : String) (retryAt : Time)
  | markOutboxDead (sink : String) (id : Nat) (error : String)
  deriving DecidableEq, Repr

def OutboxWorld.callTo (world : OutboxWorld) (process : Nat) (call : SinkCall) : OutboxWorld :=
  { world with calls := Function.update world.calls process call }

def OutboxWorld.withDb (world : OutboxWorld) (db : OutboxDb) : OutboxWorld :=
  { world with db }

def OutboxWorld.next (world : OutboxWorld) (process : Nat) : Option OutboxWorld :=
  match world.calls process with
  | .idle => none
  | .adopting sink now enrolment =>
      some ((world.withDb (world.db.adoptLegacy sink)).callTo process (.naming sink now enrolment))
  | .naming sink now enrolment =>
      some ((world.withDb (world.db.nameSink sink now)).callTo process
        (match enrolment with
          | some now => .reading sink now
          | none => .idle))
  | .reading sink now =>
      match world.db.sinks.get? sink.name with
      | some row => some (world.callTo process (.finding sink now row.since row.cursor))
      | none => some (world.callTo process (.register sink world.clock (some now)))
  | .finding sink now since cursor =>
      let found := world.db.findEvents sink (outboxEnrolFrom since cursor)
      some (world.callTo process (.enrolling sink now cursor found))
  | .enrolling sink now cursor found =>
      some ((world.withDb (world.db.enrollFound sink found)).callTo process
        (.moving sink now cursor found))
  | .moving sink now cursor found =>
      let moved := (outboxNextCursor (latestOf found) found.length now).filter (fun next =>
        outboxCursorMoves cursor next found.length)
      some ((match moved with
        | some next => world.withDb (world.db.moveCursor sink.name next)
        | none => world).callTo process .idle)

/-- The world after a transaction, if it can be made: a transaction writes events of times that
have come, under ids that are free, and a process makes one call at a time.
-/
def OutboxOp.step (sinks : Sinks) : OutboxOp → OutboxWorld → Option OutboxWorld
  | .tick now, world => some { world with clock := max world.clock now }
  | .commitEvents rows, world =>
      if ∀ row ∈ rows, row.status = .pending ∧ row.createdAt ≤ world.clock then
        (world.db.events.insertAll rows).map (fun events =>
          { world with
            db := { world.db with events }
            committedAt := fun id =>
              if id ∈ rows.map (fun row => row.id) then world.clock else world.committedAt id })
      else none
  | .registerOutboxSink process sink, world =>
      match world.calls process with
      | .idle => some (world.callTo process (.register (sinks.sink sink) world.clock none))
      | _ => none
  | .outboxEnroll process sink, world =>
      match world.calls process with
      | .idle => some (world.callTo process (.reading (sinks.sink sink) world.clock))
      | _ => none
  | .next process, world => world.next process
  | .claimDeliveries sink now limit leaseSecs, world =>
      some (world.withDb (world.db.claimDeliveries sink now limit leaseSecs))
  | .markOutboxDelivered sink id now, world =>
      some (world.withDb (world.db.markDelivered sink id now))
  | .markOutboxFailed sink id error retryAt, world =>
      some (world.withDb (world.db.markFailed sink id error retryAt))
  | .markOutboxDead sink id error, world => some (world.withDb (world.db.markDead sink id error))

/-- Writers and the processes of any number of sinks over an outbox. -/
def outboxStore (sinks : Sinks) (legacy : Legacy) : System OutboxWorld OutboxOp where
  init := legacy.world
  commits op world := (op.step sinks world).toList

end Dagron.Store
