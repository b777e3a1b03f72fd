import Dagron.Store.Redelivery

/-! A stream that is read by shards: each consumer leases shards, reads a line of one of them at a
time, and makes it a run, or parks it, with the shard's position.
-/

namespace Dagron.Store

open Dagron.Library Dagron.Spec

-- Consumers

/-- A line that a reader has in flight: where in its shard it began and ended, and the position that
the reader counted just past it.
-/
structure ShardLine where
  start
    : Nat
  past
    : Nat
  next
    : Nat
  deriving DecidableEq

/-- A consumer's reader of a shard: the position it was handed, how far the shard's file is read and
how far the reader has counted, and its line in flight.
-/
structure Child where
  worker
    : String
  partition
    : String
  dbPosition
    : Option Nat
  opened
    : Bool := false
  place
    : Nat := 0
  pos
    : Nat := 0
  inflight
    : Option ShardLine := none
  deriving DecidableEq

instance : Keyed Child (String × String) where
  key child := (child.worker, child.partition)

/-- What a reader reads of its shard, in bytes: nothing but blank lines, a line (at the end of the
shard also one that is not finished), or bytes that are no text, which it does not count.
-/
inductive ShardRead where
  | dry (count : Nat)
  | line (before : Nat)
  | garbled (count : Nat)
  deriving DecidableEq

/-- What a reader has once it is asked for a line: the one in flight, or what it reads from the
position it was handed on, or, with none, from where the offset file says.
-/
def Child.recv (offsetFile : Nat) (read : ShardRead) (child : Child) : Child :=
  if child.inflight.isSome then child
  else
    let at_ := if child.opened then child.place else child.dbPosition.getD offsetFile
    let pos := if child.opened then child.pos else child.dbPosition.getD offsetFile
    match read with
    | .dry count => { child with opened := true, place := at_ + count, pos := pos + count }
    | .line before =>
        { child with
          opened := true
          place := at_ + before + 1
          pos := pos + before + 1
          inflight := some ⟨at_, at_ + before + 1, pos + before + 1⟩ }
    | .garbled count => { child with opened := true, place := at_ + count, pos := pos }

theorem Child.recv_key (offsetFile : Nat) (read : ShardRead) (child : Child)
    : Keyed.key (child.recv offsetFile read) = Keyed.key child := by
  rw [Child.recv]
  split
  · rfl
  · cases read <;> rfl

/-- Where a consumer is with a line, with the shard it came from and its handle: it has none, it
received one with the position to commit, the line was made a run or parked, or neither was done.
-/
inductive Turn where
  | idle
  | received (partition : String) (handle : Nat) (position : Option (SourceKey × Nat))
  | committed (partition : String) (handle : Nat)
  | refused (partition : String) (handle : Nat)
  deriving DecidableEq

/-- What a consumer keeps beside its readers: the order it asks them in, the shard whose line is in
flight, the shards it read that it holds and has yet to open, and where it is with a line.
-/
structure Consumer where
  rr
    : List String := []
  inflightPartition
    : Option String := none
  opening
    : List String := []
  turn
    : Turn := .idle
  deriving DecidableEq

/-- The store, its ledger, the readers of all consumers and what they keep beside them, the offset
file beside each shard, and the id of the next dead letter. For the proofs, every line of a shard
that was made a run or parked.
-/
structure ShardedWorld where
  source
    : SourceName
  engine
    : World := .init
  ledger
    : Ledger := ⟨.empty, .empty, .empty, .empty⟩
  children
    : Table Child := .empty
  consumers
    : String → Consumer := fun _ => {}
  offsetFile
    : String → Nat := fun _ => 0
  letters
    : Nat := 0
  committed
    : List (String × ShardLine) := []

namespace ShardedWorld

/-- The name that a shard's position is committed under. -/
abbrev shard (world : ShardedWorld) (partition : String) : SourceKey :=
  ⟨world.source, some partition⟩

def with_ (worker : String) (consumer : Consumer) (world : ShardedWorld) : ShardedWorld :=
  { world with consumers := Function.update world.consumers worker consumer }

def line? (worker partition : String) (world : ShardedWorld) : Option ShardLine :=
  (world.children.get? (worker, partition)).bind Child.inflight

/-- The position just past the line a consumer has in flight, and the shard it is of. -/
def pendingPosition (worker : String) (world : ShardedWorld) : Option (SourceKey × Nat) :=
  (world.consumers worker).inflightPartition.bind fun partition =>
    (world.line? worker partition).map fun line => (world.shard partition, line.next)

end ShardedWorld

-- Steps

/-- The transactions of the engine and of the consumers, and their steps in memory. -/
inductive ShardedOp where
  | engine (op : Op)
  | registerSourcePartitions (now : Time) (partitions : List String)
  | renewSourcePartitions (now : Time) (worker : String) (leaseSecs : Nat)
  | claimSourcePartitions (now : Time) (worker : String) (max leaseSecs : Nat)
  | releaseSourcePartitions (now : Time) (worker : String)
  /-- A consumer reads which shards it holds, drops its readers of others and has yet to open those
  it has no reader of. -/
  | resync (worker : String)
  | openShard (worker partition : String)
  /-- A consumer asks its next reader for a line. -/
  | poll (worker : String) (read : ShardRead)
  | createRunWithOffset (now : Time) (worker : String) (submission : Submission)
  | recordDeadLetterWithOffset (now : Time) (worker payload error : String) (failures : Nat)
  /-- The line was made no run and is not parked. -/
  | refuse (worker : String)
  | ack (worker : String) (mirrored : Bool)
  | nack (worker : String)
  | crash (worker : String)

namespace ShardedWorld

/-- Claims shards for a consumer that has room for more. -/
def claim (now : Time) (worker : String) (max leaseSecs : Nat) (world : ShardedWorld)
    : Option ShardedWorld :=
  let capacity := max - world.children.count (fun child => child.worker = worker)
  if (world.consumers worker).turn = .idle ∧ 0 < capacity then
    some { world with
      ledger := world.ledger.claimSourcePartitions now world.source worker capacity leaseSecs }
  else none

/-- Drops a consumer's readers of the shards that it does not hold. -/
def resync (worker : String) (world : ShardedWorld) : Option ShardedWorld :=
  let consumer := world.consumers worker
  let held := world.ledger.heldSourcePartitions world.source worker
  let has (partition : String) : Bool := (world.children.get? (worker, partition)).isSome
  if consumer.turn = .idle then
    some ({ world with
      children := world.children.delete (fun child => child.worker = worker
        ∧ child.partition ∉ held) }.with_ worker { consumer with
          rr := consumer.rr.filter (fun partition => !has partition || partition ∈ held)
          opening := held.filter (fun partition => !has partition) })
  else none

/-- Makes a consumer a reader of a shard, from its committed position on. -/
def openShard (worker partition : String) (world : ShardedWorld) : Option ShardedWorld :=
  let consumer := world.consumers worker
  if consumer.turn = .idle ∧ partition ∈ consumer.opening then
    (world.children.insert
      { worker, partition, dbPosition := world.ledger.sourceOffset (world.shard partition) }).map
        fun children => { world with children }.with_ worker { consumer with
          rr := consumer.rr ++ [partition]
          opening := consumer.opening.erase partition }
  else none

/-- A line that a consumer's reader has is the one in flight, as its shard's. -/
def deliver (worker partition : String) (world : ShardedWorld) : ShardedWorld :=
  match world.line? worker partition with
  | none => world
  | some line =>
      let routed := world.with_ worker { world.consumers worker with
        inflightPartition := some partition }
      routed.with_ worker { routed.consumers worker with
        turn := .received partition line.next (routed.pendingPosition worker) }

/-- Asks the reader of a consumer's next shard for a line. -/
def poll (worker : String) (read : ShardRead) (world : ShardedWorld) : Option ShardedWorld :=
  let consumer := world.consumers worker
  match consumer.rr with
  | [] => none
  | partition :: rest =>
      if consumer.turn = .idle then
        some (({ world with
          children := world.children.update
            (fun child => child.worker = worker ∧ child.partition = partition)
            (Child.recv (world.offsetFile partition) read)
            (Child.recv_key (world.offsetFile partition) read) }.with_ worker
              { consumer with rr := rest ++ [partition], opening := [] }).deliver worker partition)
      else none

/-- A line that was made a run, or parked, with what was written. -/
def commit (worker partition : String) (handle : Nat) (world : ShardedWorld) : ShardedWorld :=
  { world with
    committed := (world.line? worker partition).toList.map (fun line => (partition, line))
      ++ world.committed }.with_ worker { world.consumers worker with
        turn := .committed partition handle }

/-- Makes the line that a consumer received a run, with the position it was received with. -/
def createRunWithOffset (env : Env) (now : Time) (worker : String) (submission : Submission)
    (world : ShardedWorld) : Option ShardedWorld :=
  match (world.consumers worker).turn with
  | .received partition handle position =>
      (createRunFull env now
        { submission, offset := position.map (fun (key, next) => (key.offsetKey, next)) }
        world.engine.db world.ledger).toOption.map fun (store, ledger) =>
          { world with engine := world.engine.commit store, ledger }.commit worker partition handle
  | _ => none

/-- Parks the line that a consumer received, with the position it was received with. -/
def recordDeadLetterWithOffset (now : Time) (worker payload error : String) (failures : Nat)
    (world : ShardedWorld) : Option ShardedWorld :=
  match (world.consumers worker).turn with
  | .received partition handle position =>
      (world.ledger.recordDeadLetterInner now world.letters payload error
        ((position.map (fun (key, _) => key.offsetKey)).getD world.source.text) failures
        (position.map Prod.snd)).map fun ledger =>
          { world with ledger, letters := world.letters + 1 }.commit worker partition handle
  | _ => none

/-- Acknowledges the line that a consumer has in flight, with the offset file written or not. -/
def ack (worker : String) (mirrored : Bool) (world : ShardedWorld) : Option ShardedWorld :=
  let consumer := world.consumers worker
  match consumer.turn with
  | .committed _ handle =>
      some (match consumer.inflightPartition with
      | none => world.with_ worker { consumer with turn := .idle }
      | some partition =>
          { world with
            children := world.children.update
              (fun child => child.worker = worker ∧ child.partition = partition)
              (fun child => { child with inflight := none })
            offsetFile :=
              if mirrored ∧ (world.children.get? (worker, partition)).isSome then
                Function.update world.offsetFile partition handle
              else world.offsetFile }.with_ worker { consumer with
                inflightPartition := none
                turn := .idle })
  | _ => none

/-- The world after a step of a consumer, if it can be made. -/
def step (env : Env) : ShardedOp → ShardedWorld → Option ShardedWorld
  | .engine _, _ => none
  | .registerSourcePartitions now partitions, world =>
      some { world with
        ledger := world.ledger.registerSourcePartitions now world.source partitions }
  | .renewSourcePartitions now worker leaseSecs, world =>
      some { world with
        ledger := world.ledger.renewSourcePartitions now world.source worker leaseSecs }
  | .claimSourcePartitions now worker max leaseSecs, world => world.claim now worker max leaseSecs
  | .releaseSourcePartitions now worker, world =>
      some { world with ledger := world.ledger.releaseSourcePartitions now world.source worker }
  | .resync worker, world => world.resync worker
  | .openShard worker partition, world => world.openShard worker partition
  | .poll worker read, world => world.poll worker read
  | .createRunWithOffset now worker submission, world =>
      world.createRunWithOffset env now worker submission
  | .recordDeadLetterWithOffset now worker payload error failures, world =>
      world.recordDeadLetterWithOffset now worker payload error failures
  | .refuse worker, world =>
      match (world.consumers worker).turn with
      | .received partition handle _ =>
          some (world.with_ worker { world.consumers worker with turn := .refused partition handle })
      | _ => none
  | .ack worker mirrored, world => world.ack worker mirrored
  | .nack worker, world =>
      match (world.consumers worker).turn with
      | .refused _ _ => some (world.with_ worker { world.consumers worker with turn := .idle })
      | _ => none
  | .crash worker, world =>
      some ({ world with
        children := world.children.delete (fun child => child.worker = worker) }.with_ worker {})

def commits (env : Env) (op : ShardedOp) (world : ShardedWorld) : List ShardedWorld :=
  match op with
  | .engine op => (op.commits env world.engine).map (fun engine => { world with engine })
  | op => (step env op world).toList

end ShardedWorld

/-- An engine and any number of consumers of a stream's shards over one store. -/
def sharded (env : Env) (source : SourceName) : System ShardedWorld ShardedOp where
  init := { source }
  commits := ShardedWorld.commits env

end Dagron.Store
