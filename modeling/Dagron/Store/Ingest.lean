import Dagron.Store.Operation

/-! How runs come in: from a stream's consumers, who lease its shards and keep its offsets, from
the submits of an API that carry idempotency keys, and from dead letters that are redriven.
-/

namespace Dagron.Store

open Dagron.Library Dagron.Spec

-- Tables

/-- A claim on an idempotency key, which names no run until its submit made one. -/
structure IdempotencyRow where
  principal
    : String
  idempotencyKey
    : String
  runId
    : Option Nat
  fingerprint
    : String
  createdAt
    : Time
  deriving DecidableEq, Repr

instance : Keyed IdempotencyRow (String × String) where
  key row := (row.principal, row.idempotencyKey)

/-- A submission that could not become a run. -/
structure DeadLetterRow where
  id
    : Nat
  payload
    : String
  error
    : String
  source
    : String
  failures
    : Nat
  firstSeenAt
    : Time
  lastErrorAt
    : Time
  deriving DecidableEq, Repr

instance : Keyed DeadLetterRow Nat where
  key row := row.id

/-- The position a source, or a shard of it, has committed. -/
structure SourceOffset where
  sourceName
    : String
  position
    : Nat
  updatedAt
    : Time
  deriving DecidableEq, Repr

instance : Keyed SourceOffset String where
  key row := row.sourceName

/-- The lease of a shard of a source. -/
structure SourcePartition where
  sourceName
    : String
  partition
    : String
  claimedBy
    : Option String := none
  leaseExpiresAt
    : Option Time := none
  updatedAt
    : Time
  deriving DecidableEq, Repr

instance : Keyed SourcePartition (String × String) where
  key row := (row.sourceName, row.partition)

/-- What the store keeps of where its runs came from. -/
structure Ledger where
  idempotency
    : Table IdempotencyRow
  deadLetters
    : Table DeadLetterRow
  offsets
    : Table SourceOffset
  partitions
    : Table SourcePartition

/-- The kind of a source, a name without a slash. -/
structure SourceName where
  text
    : String
  plain
    : '/' ∉ text.toList
  deriving DecidableEq

/-- A source that is read whole, or one shard of it. -/
structure SourceKey where
  source
    : SourceName
  partition
    : Option String
  deriving DecidableEq

/-- The name under which a source, or a shard of it, commits its position. -/
def SourceKey.offsetKey (key : SourceKey) : String :=
  match key.partition with
  | some partition => key.source.text ++ "/" ++ partition
  | none => key.source.text

-- Creation

/-- A submit's claim on an idempotency key, and when it was made. -/
structure IdempotencyClaim where
  principal
    : String
  key
    : String
  claimedAt
    : Time
  deriving DecidableEq, Repr

/-- Whether a row is a claim that no run and no later claim has taken over. -/
def IdempotencyClaim.isHeldBy (claim : IdempotencyClaim) (row : IdempotencyRow) : Prop :=
  row.principal = claim.principal ∧ row.idempotencyKey = claim.key ∧ row.runId.isNone
    ∧ row.createdAt = claim.claimedAt

instance (claim : IdempotencyClaim) : DecidablePred claim.isHeldBy :=
  fun _ => inferInstanceAs (Decidable (_ ∧ _))

/-- A run to be made: the position of a source it comes from, the dead letter it is redriven
from, and the claim it is submitted under.
-/
structure RunRequest where
  submission
    : Submission
  offset
    : Option (String × Nat) := none
  deadLetter
    : Option Nat := none
  claim
    : Option IdempotencyClaim := none

/-- Why a request for a run comes to nothing. -/
inductive IngestError where
  | refused (error : CreateError)
  | deadLetterGone
  | idempotencyClaimLost
  deriving DecidableEq

/-- What is checked of a request before its transaction. -/
def preflight (now : Time) (submission : Submission) (db : Db) : Except CreateError Unit := do
  if !submission.diskOk then .error .diskLow
  let dag ← runGraph db submission
  let some _ := deadlineOf now dag.spec.runTimeoutSecs | .error .panicked
  let some _ := deadlineOf now dag.spec.alertWithinSecs | .error .panicked

namespace Ledger

def holdClaim (claim : Option IdempotencyClaim) (ledger : Ledger) : Except IngestError Unit :=
  match claim with
  | some claim =>
      if ledger.idempotency.count claim.isHeldBy ≠ 1 then .error .idempotencyClaimLost else .ok ()
  | none => .ok ()

/-- Deletes the dead letter a request is redriven from. -/
def takeDeadLetter (deadLetter : Option Nat) (ledger : Ledger) : Except IngestError Ledger :=
  match deadLetter with
  | some id =>
      if ledger.deadLetters.count (fun row => row.id = id) = 0 then .error .deadLetterGone
      else .ok { ledger with
        deadLetters := ledger.deadLetters.delete (fun row => row.id = id) }
  | none => .ok ledger

def upsertSourceOffset (now : Time) (offset : String × Nat) (ledger : Ledger) : Ledger :=
  { ledger with
    offsets := ledger.offsets.upsert ⟨offset.1, offset.2, now⟩
      (fun row => { row with position := offset.2, updatedAt := now }) }

/-- Commits the position a request comes from, if it comes from one. -/
def commitOffset (now : Time) (offset : Option (String × Nat)) (ledger : Ledger) : Ledger :=
  match offset with
  | some offset => ledger.upsertSourceOffset now offset
  | none => ledger

def resolveClaim (run : Nat) (claim : Option IdempotencyClaim) (ledger : Ledger)
    : Except IngestError Ledger :=
  match claim with
  | some claim =>
      if ledger.idempotency.count claim.isHeldBy ≠ 1 then .error .idempotencyClaimLost
      else .ok { ledger with
        idempotency := ledger.idempotency.update claim.isHeldBy
          (fun row => { row with runId := some run }) }
  | none => .ok ledger

/-- The position a source, or a shard of it, has committed. -/
def sourceOffset (key : SourceKey) (ledger : Ledger) : Option Nat :=
  (ledger.offsets.get? key.offsetKey).map SourceOffset.position

end Ledger

/-- Makes the run of a request, with all that comes of it, or nothing. -/
def createRunFull (env : Env) (now : Time) (request : RunRequest) (store : Db) (ledger : Ledger)
    : Except IngestError (Db × Ledger) := do
  (preflight now request.submission store).mapError .refused
  ledger.holdClaim request.claim
  let taken ← ledger.takeDeadLetter request.deadLetter
  let created ← (createRun env now request.submission store).mapError .refused
  let resolved ← (taken.commitOffset now request.offset).resolveClaim request.submission.run
    request.claim
  return (created, resolved)

-- Keys

namespace Ledger

/-- How long a claim on a key that came to no run is honoured. -/
def inFlightClaimSecs : Nat :=
  300

/-- Claims an idempotency key that is free or whose claim is stale. -/
def claimIdempotencyKey (now : Time) (principal key fingerprint : String) (ledger : Ledger)
    : Option Ledger :=
  match ledger.idempotency.insert ⟨principal, key, none, fingerprint, now⟩ with
  | some idempotency => some { ledger with idempotency }
  | none =>
      let stale (row : IdempotencyRow) : Prop := row.principal = principal
        ∧ row.idempotencyKey = key ∧ row.runId.isNone
        ∧ row.createdAt < now - seconds inFlightClaimSecs
      have : DecidablePred stale := fun _ => inferInstanceAs (Decidable (_ ∧ _))
      if ledger.idempotency.count stale = 0 then none
      else some { ledger with
        idempotency := ledger.idempotency.update stale
          (fun row => { row with fingerprint := fingerprint, createdAt := now }) }

/-- Gives up a claim, unless it names a run or was taken over. -/
def releaseIdempotencyClaim (claim : IdempotencyClaim) (ledger : Ledger) : Ledger :=
  { ledger with idempotency := ledger.idempotency.delete claim.isHeldBy }

-- Dead letters

/-- Parks a submission under an id, with the position it comes from, if it comes from one. -/
def recordDeadLetterInner (now : Time) (id : Nat) (payload error source : String)
    (failures : Nat) (position : Option Nat) (ledger : Ledger) : Option Ledger :=
  (ledger.deadLetters.insert ⟨id, payload, error, source, failures, now, now⟩).map
    (fun deadLetters =>
      { ledger with deadLetters }.commitOffset now (position.map (fun position => (source, position))))

def discardDeadLetter (id : Nat) (ledger : Ledger) : Ledger :=
  { ledger with deadLetters := ledger.deadLetters.delete (fun row => row.id = id) }

-- Shards

/-- Records the shards of a source that are not recorded yet. -/
def registerSourcePartitions (now : Time) (source : SourceName) (partitions : List String)
    (ledger : Ledger) : Ledger :=
  { ledger with
    partitions := (partitions.map (fun partition =>
      ({ sourceName := source.text, partition, updatedAt := now } : SourcePartition))).foldl
        Table.insertOrIgnore ledger.partitions }

/-- The shards of a source that a consumer claims: at most a number of those that nobody
leases, or whose lease ran out, and that are not its own.
-/
def claimable (now : Time) (source : SourceName) (worker : String) (limit : Nat)
    (ledger : Ledger) : List SourcePartition :=
  (ledger.partitions.select (fun row => row.sourceName = source.text
    ∧ (row.claimedBy.isNone ∨ row.leaseExpiresAt.all (fun expires => expires < now))
    ∧ row.claimedBy ≠ some worker)).take limit

local instance lawfulKeys : LawfulBEq (String × String) :=
  inferInstance

def claimSourcePartitions (now : Time) (source : SourceName) (worker : String)
    (limit leaseSecs : Nat) (ledger : Ledger) : Ledger :=
  let claimed := (ledger.claimable now source worker limit).map Keyed.key
  { ledger with
    partitions := ledger.partitions.update (fun row => Keyed.key row ∈ claimed)
      (fun row => { row with
        claimedBy := some worker
        leaseExpiresAt := some (now + seconds leaseSecs)
        updatedAt := now }) }

def renewSourcePartitions (now : Time) (source : SourceName) (worker : String) (leaseSecs : Nat)
    (ledger : Ledger) : Ledger :=
  { ledger with
    partitions := ledger.partitions.update
      (fun row => row.sourceName = source.text ∧ row.claimedBy = some worker)
      (fun row => { row with leaseExpiresAt := some (now + seconds leaseSecs), updatedAt := now }) }

def releaseSourcePartitions (now : Time) (source : SourceName) (worker : String)
    (ledger : Ledger) : Ledger :=
  { ledger with
    partitions := ledger.partitions.update
      (fun row => row.sourceName = source.text ∧ row.claimedBy = some worker)
      (fun row => { row with claimedBy := none, leaseExpiresAt := none, updatedAt := now }) }

def heldSourcePartitions (source : SourceName) (worker : String) (ledger : Ledger)
    : List String :=
  (ledger.partitions.select (fun row => row.sourceName = source.text
    ∧ row.claimedBy = some worker)).map SourcePartition.partition

end Ledger

-- Consumers

/-- The lines of every stream, which only grows: the position just past the line that begins at
a position.
-/
structure Streams where
  next
    : SourceKey → Nat → Option Nat
  forward
    : ∀ {key start past}, next key start = some past → start < past

/-- A consumer's reader of a stream: how far it has read, and the position just past the line
it has read and not acknowledged.
-/
structure Reader where
  worker
    : String
  key
    : SourceKey
  pos
    : Nat
  inflight
    : Option Nat := none
  deriving DecidableEq

instance : Keyed Reader (String × SourceKey) where
  key reader := (reader.worker, reader.key)

/-- The store, its ledger, and in memory the readers of all consumers, the shards each saw it
holds, and the claims of the submits under way; the offset file beside each stream, and the id
of the next dead letter. For the proofs, every run made by request, and every position parked.
-/
structure IngestWorld where
  engine
    : World
  ledger
    : Ledger
  readers
    : Table Reader
  held
    : List (String × SourceName × String)
  claims
    : List IdempotencyClaim
  offsetFile
    : SourceKey → Nat
  letters
    : Nat
  made
    : List RunRequest
  parked
    : List (String × Nat)

namespace IngestWorld

def init : IngestWorld where
  engine := .init
  ledger := ⟨.empty, .empty, .empty, .empty⟩
  readers := .empty
  held := []
  claims := []
  offsetFile := fun _ => 0
  letters := 0
  made := []
  parked := []

/-- The world after a request for a run, if it is made. -/
def request (env : Env) (now : Time) (request : RunRequest) (world : IngestWorld)
    : Option IngestWorld :=
  (createRunFull env now request world.engine.db world.ledger).toOption.map
    (fun (store, ledger) =>
      { world with
        engine := world.engine.commit store
        ledger := ledger
        made := request :: world.made })

def park (now : Time) (payload error source : String) (failures : Nat) (position : Option Nat)
    (world : IngestWorld) : Option IngestWorld :=
  (world.ledger.recordDeadLetterInner now world.letters payload error source failures position).map
    (fun ledger =>
      { world with
        ledger := ledger
        letters := world.letters + 1
        parked := (position.map (fun position => (source, position))).toList ++ world.parked })

/-- Opens a reader of a stream at a position, unless its consumer has one. -/
def openReader (worker : String) (key : SourceKey) (pos : Nat) (world : IngestWorld)
    : Option IngestWorld :=
  (world.readers.insert { worker, key, pos }).map (fun readers => { world with readers })

def deliver (worker : String) (key : SourceKey) (next : Nat) (world : IngestWorld) : IngestWorld :=
  { world with
    readers := world.readers.update (fun reader => reader.worker = worker ∧ reader.key = key)
      (fun reader => { reader with pos := next, inflight := some next }) }

/-- A reader's line is acknowledged, and its position written to the offset file, or not. -/
def ack (worker : String) (key : SourceKey) (next : Nat) (mirrored : Bool) (world : IngestWorld)
    : IngestWorld :=
  { world with
    readers := world.readers.update (fun reader => reader.worker = worker ∧ reader.key = key)
      (fun reader => { reader with inflight := none })
    offsetFile :=
      if mirrored then Function.update world.offsetFile key next else world.offsetFile }

/-- The position just past the line a consumer has in flight. -/
def pendingPosition (worker : String) (key : SourceKey) (world : IngestWorld) : Option Nat :=
  (world.readers.get? (worker, key)).bind Reader.inflight

/-- Where a reader that opens begins: at the committed position, if it could be read and there
is one, and else where the offset file says.
-/
def committedOffset (key : SourceKey) (lookup : Bool) (world : IngestWorld) : Nat :=
  ((if lookup then world.ledger.sourceOffset key else none)).getD (world.offsetFile key)

end IngestWorld

/-- The transactions and steps of the engine, of an API and of the consumers of streams. -/
inductive IngestOp where
  | engine (op : Op)
  | claimIdempotencyKey (now : Time) (principal key fingerprint : String)
  | createRunClaimed (now : Time) (claim : IdempotencyClaim) (submission : Submission)
  | releaseIdempotencyClaim (claim : IdempotencyClaim)
  | createRunFromDeadLetter (now : Time) (id : Nat) (submission : Submission)
  | discardDeadLetter (id : Nat)
  | recordDeadLetter (now : Time) (payload error source : String) (failures : Nat)
  | registerSourcePartitions (now : Time) (source : SourceName) (partitions : List String)
  | claimSourcePartitions (now : Time) (source : SourceName) (worker : String)
    (limit leaseSecs : Nat)
  | renewSourcePartitions (now : Time) (source : SourceName) (worker : String) (leaseSecs : Nat)
  | releaseSourcePartitions (now : Time) (source : SourceName) (worker : String)
  /-- A consumer reads which shards it holds, and drops its readers of others. -/
  | heldSourcePartitions (source : SourceName) (worker : String)
  /-- It opens a reader of a shard it saw it holds. -/
  | openShard (worker : String) (source : SourceName) (partition : String)
  /-- A consumer of a whole source starts; its read of the committed position may fail. -/
  | openWhole (worker : String) (source : SourceName) (lookup : Bool)
  /-- A consumer reads the next line of a stream. -/
  | recv (worker : String) (key : SourceKey)
  /-- The line a consumer has in flight becomes a run. -/
  | createRunWithOffset (now : Time) (worker : String) (key : SourceKey) (submission : Submission)
    (mirrored : Bool)
  /-- The line a consumer has in flight becomes a dead letter. -/
  | recordDeadLetterWithOffset (now : Time) (worker : String) (key : SourceKey)
    (payload error : String) (failures : Nat) (mirrored : Bool)
  /-- A consumer dies. -/
  | crash (worker : String)

/-- The world after a step of the API or of a consumer, if it can be made. -/
def IngestOp.step (env : Env) (streams : Streams) : IngestOp → IngestWorld → Option IngestWorld
  | .engine _, _ => none
  | .claimIdempotencyKey now principal key fingerprint, world =>
      (world.ledger.claimIdempotencyKey now principal key fingerprint).map (fun ledger =>
        { world with ledger, claims := ⟨principal, key, now⟩ :: world.claims })
  | .createRunClaimed now claim submission, world =>
      if claim ∈ world.claims then world.request env now { submission, claim := some claim }
      else none
  | .releaseIdempotencyClaim claim, world =>
      if claim ∈ world.claims then
        some { world with
          ledger := world.ledger.releaseIdempotencyClaim claim
          claims := world.claims.erase claim }
      else none
  | .createRunFromDeadLetter now id submission, world =>
      world.request env now { submission, deadLetter := some id }
  | .discardDeadLetter id, world =>
      some { world with ledger := world.ledger.discardDeadLetter id }
  | .recordDeadLetter now payload error source failures, world =>
      world.park now payload error source failures none
  | .registerSourcePartitions now source partitions, world =>
      some { world with ledger := world.ledger.registerSourcePartitions now source partitions }
  | .claimSourcePartitions now source worker limit leaseSecs, world =>
      some { world with
        ledger := world.ledger.claimSourcePartitions now source worker limit leaseSecs }
  | .renewSourcePartitions now source worker leaseSecs, world =>
      some { world with ledger := world.ledger.renewSourcePartitions now source worker leaseSecs }
  | .releaseSourcePartitions now source worker, world =>
      some { world with ledger := world.ledger.releaseSourcePartitions now source worker }
  | .heldSourcePartitions source worker, world =>
      let held := world.ledger.heldSourcePartitions source worker
      some { world with
        readers := world.readers.delete (fun reader => reader.worker = worker
          ∧ reader.key.source = source
          ∧ reader.key.partition.any (fun partition => partition ∉ held))
        held := held.map (fun partition => (worker, source, partition))
          ++ world.held.filter (fun shard => ¬ (shard.1 = worker ∧ shard.2.1 = source)) }
  | .openShard worker source partition, world =>
      if (worker, source, partition) ∈ world.held then
        world.openReader worker ⟨source, some partition⟩
          (world.committedOffset ⟨source, some partition⟩ true)
      else none
  | .openWhole worker source lookup, world =>
      world.openReader worker ⟨source, none⟩ (world.committedOffset ⟨source, none⟩ lookup)
  | .recv worker key, world =>
      (world.readers.get? (worker, key)).bind (fun reader =>
        if reader.inflight.isSome then none
        else (streams.next key reader.pos).map (fun next => world.deliver worker key next))
  | .createRunWithOffset now worker key submission mirrored, world =>
      (world.pendingPosition worker key).bind (fun next =>
        (world.request env now { submission, offset := some (key.offsetKey, next) }).map
          (fun world => world.ack worker key next mirrored))
  | .recordDeadLetterWithOffset now worker key payload error failures mirrored, world =>
      (world.pendingPosition worker key).bind (fun next =>
        (world.park now payload error key.offsetKey failures (some next)).map
          (fun world => world.ack worker key next mirrored))
  | .crash worker, world =>
      some { world with
        readers := world.readers.delete (fun reader => reader.worker = worker)
        held := world.held.filter (fun shard => shard.1 ≠ worker) }

def IngestOp.commits (env : Env) (streams : Streams) (op : IngestOp) (world : IngestWorld)
    : List IngestWorld :=
  match op with
  | .engine op => (op.commits env world.engine).map (fun engine => { world with engine })
  | op => (op.step env streams world).toList

/-- An engine, an API and any number of consumers over one store. -/
def ingest (env : Env) (streams : Streams) : System IngestWorld IngestOp where
  init := .init
  commits := IngestOp.commits env streams

end Dagron.Store
