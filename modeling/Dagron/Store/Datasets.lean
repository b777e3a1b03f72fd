import Dagron.Store.Park
import Mathlib.Data.List.Infix

/-! Data-aware scheduling: the ledger of dataset updates, the triggers subscribed to it, and
the sweeps in which schedulers claim due triggers and hand back fires they made no run of.
-/

namespace Dagron.Store

open Dagron.Library

-- Tables

/-- The subscription of a workflow to a dataset. -/
structure DatasetTrigger where
  workflowName
    : String
  uri
    : String
  cursor
    : Nat
  mode
    : String
  deriving DecidableEq, Repr

instance : Keyed DatasetTrigger (String × String) where
  key trigger := (trigger.workflowName, trigger.uri)

/-- The store, whose ledger numbers its dataset events from one, with the triggers. -/
structure DatasetDb where
  store
    : Db
  triggers
    : Table DatasetTrigger

def DatasetDb.events (db : DatasetDb) : List (DatasetEvent × Nat) :=
  db.store.datasetEvents.zipIdx 1

/-- `COALESCE(MAX(id), 0)` over the events of a dataset. -/
def DatasetDb.highWater (db : DatasetDb) (uri : String) : Nat :=
  db.store.datasetMark uri

def DatasetDb.withTriggers (db : DatasetDb) (triggers : Table DatasetTrigger) : DatasetDb :=
  { db with triggers }

-- Subscriptions

/-- Subscribes a workflow to a dataset from its current high-water mark on; a subscription it
has keeps its cursor and takes the mode.
-/
def DatasetDb.subscribe (workflowName mode : String) (db : DatasetDb) (uri : String)
    : DatasetDb :=
  match db.triggers.insert ⟨workflowName, uri, db.highWater uri, mode⟩ with
  | some triggers => db.withTriggers triggers
  | none =>
      db.withTriggers (db.triggers.update
        (fun trigger => trigger.workflowName = workflowName ∧ trigger.uri = uri)
        (fun trigger => { trigger with mode }))

def delimited (text : String) : String :=
  "\u001f" ++ text ++ "\u001f"

/-- Brings the subscriptions of a workflow in line with its declared datasets. -/
def syncDatasetTriggers (db : DatasetDb) (workflowName : String) (uris : List String)
    (mode : String) : DatasetDb :=
  if uris.isEmpty then
    db.withTriggers (db.triggers.delete (fun trigger => trigger.workflowName = workflowName))
  else
    let keep := delimited (String.intercalate "\u001f" uris)
    let kept := db.triggers.delete (fun trigger =>
      trigger.workflowName = workflowName
        ∧ ¬ (delimited trigger.uri).toList <:+: keep.toList)
    uris.foldl (DatasetDb.subscribe workflowName mode) (db.withTriggers kept)

/-- Drops the subscriptions of workflows that are not registered. -/
def pruneDatasetTriggers (db : DatasetDb) (registered : List String) : DatasetDb :=
  db.withTriggers (db.triggers.delete (fun trigger => trigger.workflowName ∉ registered))

def clearDatasetTriggers (db : DatasetDb) (names : List String) : DatasetDb :=
  db.withTriggers (db.triggers.delete (fun trigger => trigger.workflowName ∈ names))

-- Claims

/-- One subscription as a claim reads it, with the high-water mark of its dataset. -/
structure TriggerSub where
  uri
    : String
  cursor
    : Nat
  mode
    : String
  maxId
    : Nat
  deriving DecidableEq, Repr

/-- A cursor a claim moved, from where and to where. -/
structure Advance where
  uri
    : String
  prev
    : Nat
  new
    : Nat
  deriving DecidableEq, Repr

/-- A claimed trigger, with the cursors its claim moved. -/
structure DatasetFire where
  workflowName
    : String
  triggerUri
    : String
  advanced
    : List Advance
  deriving DecidableEq, Repr

def DatasetTrigger.before (first second : DatasetTrigger) : Prop :=
  first.workflowName < second.workflowName
    ∨ first.workflowName = second.workflowName ∧ first.uri ≤ second.uri

instance : DecidableRel DatasetTrigger.before :=
  fun _ _ => inferInstanceAs (Decidable (_ ∨ _))

/-- A subscription as the statement that opens a claim reads it. -/
def DatasetDb.subOf (db : DatasetDb) (trigger : DatasetTrigger) : TriggerSub :=
  ⟨trigger.uri, trigger.cursor, trigger.mode, db.highWater trigger.uri⟩

/-- Every subscription with its workflow, by workflow and dataset. -/
def DatasetDb.readTriggers (db : DatasetDb) : List (String × TriggerSub) :=
  (db.triggers.rows.insertionSort DatasetTrigger.before).map (fun trigger =>
    (trigger.workflowName, db.subOf trigger))

def byWorkflow : List (String × TriggerSub) → List (String × List TriggerSub)
  | [] => []
  | (workflowName, sub) :: rest =>
      match byWorkflow rest with
      | [] => [(workflowName, [sub])]
      | (name, subs) :: groups =>
          if name = workflowName then (name, sub :: subs) :: groups
          else (workflowName, [sub]) :: (name, subs) :: groups

/-- Whether a subscription's dataset has an update past its cursor. -/
def TriggerSub.fresh (sub : TriggerSub) : Bool :=
  sub.cursor < sub.maxId

def TriggerSub.advance (sub : TriggerSub) : Advance :=
  ⟨sub.uri, sub.cursor, sub.maxId⟩

/-- Whether a trigger is the subscription named and its cursor stands at a value. -/
def DatasetTrigger.standsAt (workflowName uri : String) (cursor : Nat)
    (trigger : DatasetTrigger) : Prop :=
  trigger.workflowName = workflowName ∧ trigger.uri = uri ∧ trigger.cursor = cursor

instance (workflowName uri : String) (cursor : Nat)
    : DecidablePred (DatasetTrigger.standsAt workflowName uri cursor) :=
  fun _ => inferInstanceAs (Decidable (_ ∧ _))

/-- Moves a cursor that stands at one value to another. -/
def DatasetDb.moveCursor (db : DatasetDb) (workflowName uri : String) (old new : Nat)
    : DatasetDb :=
  db.withTriggers (db.triggers.update (DatasetTrigger.standsAt workflowName uri old)
    (fun trigger => { trigger with cursor := new }))

/-- Moves every cursor of a claim, or none where one does not stand where it was read. -/
def DatasetDb.advanceEach (workflowName : String) : DatasetDb → List TriggerSub → Option DatasetDb
  | db, [] => some db
  | db, sub :: rest =>
      if db.triggers.count (DatasetTrigger.standsAt workflowName sub.uri sub.cursor) = 0 then none
      else (db.moveCursor workflowName sub.uri sub.cursor sub.maxId).advanceEach workflowName rest

/-- Claims the trigger of one workflow, if it is due and every fresh cursor still stands where
it was read. A trigger in `all` mode is due when every subscription is fresh, any other when
one is.
-/
def claimGroup (db : DatasetDb) (workflowName : String) (subs : List TriggerSub)
    : Option (DatasetDb × DatasetFire) :=
  match subs.filter TriggerSub.fresh with
  | [] => none
  | first :: rest =>
      if subs.any (fun sub => sub.mode = "all") ∧ (first :: rest).length < subs.length then none
      else (db.advanceEach workflowName (first :: rest)).map (fun db =>
        (db, ⟨workflowName, first.uri, (first :: rest).map TriggerSub.advance⟩))

-- Sweeps

/-- Where a scheduler is in its sweep: claiming one workflow after another, making the runs of
its fires, or handing back the cursors of one. A sweep without fires is over.
-/
inductive TriggerSweep where
  | claiming (left : List (String × List TriggerSub)) (fires : List DatasetFire)
  | firing (fires : List DatasetFire)
  | unclaiming (workflowName : String) (advanced : List Advance) (fires : List DatasetFire)
  deriving DecidableEq, Repr

/-- The dataset tables and every scheduler's sweep. For the proofs, the cursor moves claimed
and not handed back, and the high-water mark at which each subscription was opened.
-/
structure DatasetWorld where
  db
    : DatasetDb
  sweeps
    : Nat → TriggerSweep
  held
    : List (String × Advance)
  opened
    : String × String → Nat

def DatasetWorld.init : DatasetWorld where
  db := ⟨.empty, .empty⟩
  sweeps := fun _ => .firing []
  held := []
  opened := fun _ => 0

/-- The transactions and steps of producers and schedulers. -/
inductive DatasetOp where
  | recordDatasetUpdates (id : Nat) (uris : List String)
  | recordExternalDatasetEvent (uri : String)
  | syncDatasetTriggers (workflowName : String) (uris : List String) (mode : String)
  | pruneDatasetTriggers (registered : List String)
  | clearDatasetTriggers (names : List String)
  /-- A scheduler reads the subscriptions. -/
  | readTriggers (scheduler : Nat)
  /-- It claims the next workflow it read, or goes on to its fires. -/
  | claimNext (scheduler : Nat)
  /-- The run of its next fire is created. -/
  | createRun (scheduler : Nat)
  /-- Its next fire is of a workflow that is gone or makes no run, and keeps its cursors. -/
  | skipFire (scheduler : Nat)
  /-- The run of its next fire is not created, for want of room or by an error, or its spec
  cannot be read here.
  -/
  | refuseFire (scheduler : Nat)
  /-- It hands back the next cursor of the refused fire, or is done with it. -/
  | unclaimNext (scheduler : Nat)
  deriving DecidableEq, Repr

/-- The subscriptions a sync finds missing are opened at the current high-water marks. -/
def DatasetWorld.openedBy (world : DatasetWorld) (after : DatasetDb) (key : String × String)
    : Nat :=
  match world.db.triggers.get? key, after.triggers.get? key with
  | none, some _ => after.highWater key.2
  | _, _ => world.opened key

def DatasetWorld.sweepTo (world : DatasetWorld) (scheduler : Nat) (sweep : TriggerSweep)
    : DatasetWorld :=
  { world with sweeps := Function.update world.sweeps scheduler sweep }

def DatasetWorld.withDb (world : DatasetWorld) (db : DatasetDb) : DatasetWorld :=
  { world with db }

/-- The world after a step, if the scheduler is at that point of its sweep. -/
def DatasetOp.step : DatasetOp → DatasetWorld → Option DatasetWorld
  | .recordDatasetUpdates id uris, world =>
      some (world.withDb ⟨world.db.store.recordDatasetUpdates id uris, world.db.triggers⟩)
  | .recordExternalDatasetEvent uri, world =>
      some (world.withDb ⟨world.db.store.recordExternalDatasetEvent uri, world.db.triggers⟩)
  | .syncDatasetTriggers workflowName uris mode, world =>
      let after := Store.syncDatasetTriggers world.db workflowName uris mode
      some { world with db := after, opened := world.openedBy after }
  | .pruneDatasetTriggers registered, world =>
      some (world.withDb (Store.pruneDatasetTriggers world.db registered))
  | .clearDatasetTriggers names, world => some (world.withDb (Store.clearDatasetTriggers world.db names))
  | .readTriggers scheduler, world =>
      match world.sweeps scheduler with
      | .firing [] => some (world.sweepTo scheduler (.claiming (byWorkflow world.db.readTriggers) []))
      | _ => none
  | .claimNext scheduler, world =>
      match world.sweeps scheduler with
      | .claiming [] fires => some (world.sweepTo scheduler (.firing fires))
      | .claiming ((workflowName, subs) :: left) fires =>
          match claimGroup world.db workflowName subs with
          | none => some (world.sweepTo scheduler (.claiming left fires))
          | some (db, fire) =>
              some { world.sweepTo scheduler (.claiming left (fires ++ [fire])) with
                  db
                  held := world.held ++ fire.advanced.map (fun moved => (workflowName, moved)) }
      | _ => none
  | .createRun scheduler, world | .skipFire scheduler, world =>
      match world.sweeps scheduler with
      | .firing (_ :: fires) => some (world.sweepTo scheduler (.firing fires))
      | _ => none
  | .refuseFire scheduler, world =>
      match world.sweeps scheduler with
      | .firing (fire :: fires) =>
          some (world.sweepTo scheduler (.unclaiming fire.workflowName fire.advanced fires))
      | _ => none
  | .unclaimNext scheduler, world =>
      match world.sweeps scheduler with
      | .unclaiming workflowName (moved :: rest) fires =>
          some { world.sweepTo scheduler (.unclaiming workflowName rest fires) with
              db := world.db.moveCursor workflowName moved.uri moved.new moved.prev
              held := world.held.erase (workflowName, moved) }
      | .unclaiming _ [] fires => some (world.sweepTo scheduler (.firing fires))
      | _ => none

/-- Producers and any number of schedulers over the dataset tables. -/
def datasetStore : System DatasetWorld DatasetOp where
  init := .init
  commits op world := (op.step world).toList

end Dagron.Store
