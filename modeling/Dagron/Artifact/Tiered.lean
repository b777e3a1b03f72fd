import Mathlib.Algebra.Group.Nat.Defs
import Mathlib.Logic.Function.Basic
import Dagron.Artifact.LedgerFile

/-! A tiered store: every artifact is written to the local tier, and moved to the remote one by a drain, one
at a time, under a budget of bytes a day; what both hold is read by way of the ledger.
-/

namespace Dagron.Artifact

open Dagron.Library

-- The state

abbrev Bytes := List UInt8

def secsPerDay : Nat :=
  86400

def maxU64 : Nat :=
  2 ^ 64 - 1

def saturatingAdd (first second : Nat) : Nat :=
  min (first + second) maxU64

/-- What a store is set up with: how its ledger is written, the hash of bytes, the bytes a day that may be
moved, and whether files that tasks write are left alone.
-/
structure TierEnv where
  codec
    : Codec
  sha
    : Bytes → String
  bytesPerDay
    : Option Nat
  sealScan
    : Bool := false

def TierEnv.fits (env : TierEnv) (usedToday bytes : Nat) : Bool :=
  env.bytesPerDay.all fun cap => saturatingAdd usedToday bytes ≤ cap

def TierEnv.oversize (env : TierEnv) (bytes : Nat) : Bool :=
  env.bytesPerDay.any fun cap => cap < bytes

/-- Where a drain is: it reads the files that are not in the ledger, it looks after aliases that are stale,
it will put in order what is pending, it goes through that, it opens the file of an entry, it sends that, or
it was sent and is to be recorded.
-/
inductive DrainPhase where
  | scanning (unledgered : List ArtifactKey) (records : List Record)
  | stale (aliases : List Entry) (records : List Record)
  | ordering
  | moving (order : List Entry)
  | opening (upload : Entry) (order : List Entry)
  | sending (upload : Entry) (content : Bytes) (order : List Entry)
  | recording (upload : Entry) (content : Bytes) (order : List Entry)

/-- A drain, and the second it was begun at. -/
structure Drain where
  now
    : Nat
  phase
    : DrainPhase

def Drain.today (drain : Drain) : Nat :=
  drain.now / secsPerDay

/-- A store: its ledger; what each tier has at a path; the puts whose bytes are local and not in the ledger;
the drain; the reads that are to ask the remote tier, and the key each asks for. With these is kept all that
ever was at a path, the bytes that came to the remote tier for each day, and what was read.
-/
structure Tiered where
  ledger
    : LedgerWorld := {}
  local_
    : String → Option Bytes := fun _ => none
  remote
    : String → Option Bytes := fun _ => none
  puts
    : List (ArtifactKey × Bytes) := []
  drain
    : Option Drain := none
  reads
    : List (ArtifactKey × ArtifactKey) := []
  stored
    : String → List Bytes := fun _ => []
  uplinked
    : List (Nat × Nat) := []
  answers
    : List (ArtifactKey × Bytes) := []

/-- How the remote tier takes an object, if it does: an error may come with the object there. -/
inductive Sent where
  | taken
  | refused (landed : Bool)
  deriving DecidableEq

/-- What happens to a store: to local files; the two parts of a put; the steps of a drain, each of which has
the ledger or waits for a tier; the parts of a read; and the process.
-/
inductive TierOp where
  | write (key : ArtifactKey) (content : Bytes)
  | lose (key : ArtifactKey)
  | put (key : ArtifactKey) (content : Bytes)
  | ledgerPut (place at_ : Nat) (outcome : Outcome)
  | load
  | restart
  | drain (now : Nat) (listed : List ArtifactKey)
  | scan (readable : Bool)
  | repair
  | mark (outcome : Outcome)
  | order
  | next (outcome : Outcome)
  | open_ (readable : Bool) (outcome : Outcome)
  | send (sent : Sent)
  | record (outcome : Outcome)
  | get (key : ArtifactKey)
  | resolve (key : ArtifactKey)
  | fetch (place : Nat)
  deriving DecidableEq

def TierOp.outcome : TierOp → Outcome
  | .ledgerPut _ _ outcome | .mark outcome | .next outcome | .open_ _ outcome | .record outcome => outcome
  | _ => .returned

/-- What an operation does: the records it writes to the ledger, what is then, and whether the drain ends
where they cannot be written.
-/
structure Turn where
  next
    : Tiered
  records
    : List Record := []
  fails
    : Bool := false

-- Steps

def isReserved (key : ArtifactKey) : Bool :=
  sanitize key.runId == ".tiered"

/-- Whether an entry still waits with the bytes it had. -/
def Ledger.still (ledger : Ledger) (upload : Entry) : Bool :=
  (ledger.entries.lookup upload.key.relPath).any fun entry =>
    entry.state == .pending && entry.sha == upload.sha

namespace Tiered

variable (env : TierEnv)

def lands (world : Tiered) (key : ArtifactKey) (content : Bytes) : Tiered :=
  { world with
    local_ := Function.update world.local_ key.relPath (some content)
    stored := Function.update world.stored key.relPath (content :: world.stored key.relPath) }

def at_ (world : Tiered) (now : Nat) (phase : DrainPhase) : Tiered :=
  { world with drain := some ⟨now, phase⟩ }

def stops (world : Tiered) : Tiered :=
  { world with drain := none }

def moved (world : Tiered) (now : Nat) (content : Bytes) : Tiered :=
  { world with uplinked := world.uplinked ++ [(now / secsPerDay, content.length)] }

/-- The bytes that came to the remote tier and are not recorded. -/
def unrecorded (world : Tiered) : List (Nat × Nat) :=
  match world.drain with
  | some ⟨now, .recording _ content _⟩ => [(now / secsPerDay, content.length)]
  | _ => []

/-- The process ends, and with it all that is under way. -/
def dies (world : Tiered) : Tiered :=
  { world with
    ledger := { world.ledger with memory := none }
    puts := []
    drain := none
    reads := []
    uplinked := world.uplinked ++ world.unrecorded }

/-- The ledger's part of a put: no record where the bytes are there already. -/
def ledgerPut (world : Tiered) (place at_ : Nat) : Option Turn :=
  world.ledger.memory.bind fun ledger => world.puts[place]?.map fun (key, content) =>
    { next := { world with puts := world.puts.eraseIdx place }
      records :=
        if ledger.isSettled key (env.sha content) then []
        else [.pending key (env.sha content) content.length at_] }

/-- Begins a drain, with the files that are not in the ledger. -/
def drain_ (world : Tiered) (now : Nat) (listed : List ArtifactKey) : Option Turn :=
  world.ledger.memory.bind fun ledger =>
    if world.drain.isSome then none
    else
      let unledgered := listed.filter fun key =>
        !isReserved key && (ledger.entries.lookup key.relPath).isNone
      some { next := world.at_ now (.scanning (if env.sealScan then [] else unledgered) []) }

/-- Reads the next file that is not in the ledger, or else looks for stale aliases. -/
def scan (world : Tiered) (readable : Bool) : Option Turn :=
  world.drain.bind fun
    | ⟨now, .scanning (key :: rest) records⟩ =>
        match (world.local_ key.relPath).filter fun _ => readable with
        | some content =>
            let found := .pending key (env.sha content) content.length now
            some { next := world.at_ now (.scanning rest (records ++ [found])) }
        | none => some { next := world.at_ now (.scanning rest records) }
    | ⟨now, .scanning [] records⟩ =>
        world.ledger.memory.map fun ledger =>
          { next := world.at_ now (.stale ledger.staleAliases records) }
    | _ => none

/-- Puts the next stale alias in the queue again, or forgets it. -/
def repair (world : Tiered) : Option Turn :=
  world.drain.bind fun
    | ⟨now, .stale (entry :: rest) records⟩ =>
        let record := if (world.local_ entry.key.relPath).isSome
          then .pending entry.key entry.sha entry.bytes now
          else .forget entry.key
        some { next := world.at_ now (.stale rest (records ++ [record])) }
    | _ => none

/-- Records what was found, and the day where it is a new one. -/
def mark (world : Tiered) : Option Turn :=
  world.ledger.memory.bind fun ledger => world.drain.bind fun
    | ⟨now, .stale [] records⟩ =>
        let today := now / secsPerDay
        some {
          next := world.at_ now .ordering
          records := if ledger.day ≠ today then records ++ [.day today 0] else records
          fails := true }
    | _ => none

def order (world : Tiered) : Option Turn :=
  world.ledger.memory.bind fun ledger => world.drain.bind fun
    | ⟨now, .ordering⟩ => some { next := world.at_ now (.moving ledger.pendingInOrder) }
    | _ => none

/-- Decides on the next entry in order: it is no longer that, it is an alias, it can never be moved, there
is no budget for it and the drain is done, or it is moved.
-/
def next (world : Tiered) : Option Turn :=
  world.ledger.memory.bind fun ledger => world.drain.bind fun
    | ⟨_, .moving []⟩ => some { next := world.stops }
    | ⟨now, .moving (want :: rest)⟩ =>
        let rel := want.key.relPath
        let skip := world.at_ now (.moving rest)
        match ledger.entries.lookup rel with
        | none => some { next := skip }
        | some cur =>
            if cur.state ≠ .pending ∨ cur.sha ≠ want.sha then some { next := skip }
            else
              match ledger.canonicalFor cur.sha rel with
              | some canonical =>
                  some {
                    next := skip
                    records := [.uploadedBySha cur.key cur.sha cur.bytes now canonical.key]
                    fails := true }
              | none =>
                  if env.oversize cur.bytes then some { next := skip }
                  else if !env.fits ledger.dayBytes cur.bytes then some { next := world.stops }
                  else some { next := world.at_ now (.opening cur rest) }
    | _ => none

/-- Opens the file of the entry that is moved; one that is gone is forgotten. -/
def open_ (world : Tiered) (readable : Bool) : Option Turn :=
  world.drain.bind fun
    | ⟨now, .opening upload order⟩ =>
        if !readable then some { next := world.stops }
        else
          match world.local_ upload.key.relPath with
          | some content => some { next := world.at_ now (.sending upload content order) }
          | none =>
              world.ledger.memory.map fun _ =>
                { next := world.at_ now (.moving order)
                  records := [.forget upload.key]
                  fails := true }
    | _ => none

def send (world : Tiered) (sent : Sent) : Option Turn :=
  world.drain.bind fun
    | ⟨now, .sending upload content order⟩ =>
        let there := { world with
          remote := Function.update world.remote upload.key.relPath (some content) }
        match sent with
        | .taken => some { next := there.at_ now (.recording upload content order) }
        | .refused true => some { next := (there.moved now content).stops }
        | .refused false => some { next := world.stops }
    | _ => none

/-- Records what was sent, with its bytes in the day's count, unless the entry is another one by now. -/
def record (world : Tiered) : Option Turn :=
  world.ledger.memory.bind fun ledger => world.drain.bind fun
    | ⟨now, .recording upload content order⟩ =>
        let counted := (world.moved now content).at_ now (.moving order)
        if ledger.still upload then
          some {
            next := counted
            records :=
              [.done upload.key (env.sha content) content.length now
                  ("remote:" ++ upload.key.relPath),
                .day (now / secsPerDay) (saturatingAdd ledger.dayBytes content.length)]
            fails := true }
        else some { next := counted }
    | _ => none

/-- The first part of a read: the local tier's bytes, or the key to ask the remote tier for. -/
def resolve (world : Tiered) (key : ArtifactKey) : Option Turn :=
  match world.local_ key.relPath with
  | some content => some { next := { world with answers := world.answers ++ [(key, content)] } }
  | none =>
      world.ledger.memory.bind fun ledger => (ledger.remoteKeyFor key).map fun remoteKey =>
        { next := { world with reads := world.reads ++ [(key, remoteKey)] } }

/-- The other part of a read: what the remote tier has. -/
def fetch (world : Tiered) (place : Nat) : Option Turn :=
  world.reads[place]?.map fun (key, remoteKey) =>
    let left := { world with reads := world.reads.eraseIdx place }
    match world.remote remoteKey.relPath with
    | some content => { next := { left with answers := world.answers ++ [(key, content)] } }
    | none => { next := left }

def turn (world : Tiered) : TierOp → Option Turn
  | .write key content => some { next := world.lands key content }
  | .lose key =>
      some { next := { world with local_ := Function.update world.local_ key.relPath none } }
  | .put key content =>
      if isReserved key then none
      else some { next := { world.lands key content with puts := world.puts ++ [(key, content)] } }
  | .ledgerPut place at_ _ => world.ledgerPut env place at_
  | .load =>
      (world.ledger.operate env.codec .load).map fun ledger => { next := { world with ledger := ledger } }
  | .restart => some { next := world.dies }
  | .drain now listed => world.drain_ env now listed
  | .scan readable => world.scan env readable
  | .repair => world.repair
  | .mark _ => world.mark
  | .order => world.order
  | .next _ => world.next env
  | .open_ readable _ => world.open_ readable
  | .send sent => world.send sent
  | .record _ => world.record env
  | .get key =>
      (world.local_ key.relPath).map fun content =>
        { next := { world with answers := world.answers ++ [(key, content)] } }
  | .resolve key => world.resolve key
  | .fetch place => world.fetch place

/-- Writes the records of a turn, if there are some, and goes on. -/
def finish (world : Tiered) (turn : Turn) (outcome : Outcome) : Option Tiered :=
  if turn.records = [] then some turn.next
  else
    (world.ledger.persist env.codec turn.records outcome).map fun ledger =>
      let written := { turn.next with ledger := ledger }
      match outcome with
      | .returned => written
      | .failed _ => if turn.fails then written.stops else written
      | .crashed _ => written.dies

def operate (world : Tiered) (op : TierOp) : Option Tiered :=
  (world.turn env op).bind fun turn => world.finish env turn op.outcome

end Tiered

def tieredSystem (env : TierEnv) : System Tiered TierOp where
  init := {}
  commits op world := (world.operate env op).toList

end Dagron.Artifact
