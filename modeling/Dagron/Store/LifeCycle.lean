import Mathlib.Logic.Relation
import Dagron.Store.Operation

/-! The life cycle of a task: what one row of the store goes through, whatever statement writes
it. Every transaction moves each row along the cycle, and what the cycle keeps holds in
every state of the store.
-/

namespace Dagron.Store

open Dagron.Library Dagron.Spec

-- Lives

def TaskRow.parks (task : TaskRow) : Nat :=
  task.subRunId.isSome.toNat + task.wakeAt.isSome.toNat + task.waitUrl.isSome.toNat
    + task.waitDataset.isSome.toNat + task.externalHandle.isSome.toNat

/-- In how many ways a task waits on something that costs nothing: parked, but not on a job. -/
def TaskRow.waits (task : TaskRow) : Nat :=
  task.subRunId.isSome.toNat + task.wakeAt.isSome.toNat + task.waitUrl.isSome.toNat
    + task.waitDataset.isSome.toNat

/-- What the life cycle reads of a task row. -/
structure Life where
  columns
    : TaskColumns
  status
    : TaskStatus
  remainingDeps
    : Int
  attempt
    : Nat
  attemptBase
    : Nat
  claimedBy
    : Option String
  version
    : Nat
  leased
    : Bool
  stopAsked
    : Bool
  parks
    : Nat
  waits
    : Nat

def TaskRow.life (task : TaskRow) : Life where
  columns := task.toTaskColumns
  status := task.status
  remainingDeps := task.remainingDeps
  attempt := task.attempt
  attemptBase := task.attemptBase
  claimedBy := task.claimedBy
  version := task.version
  leased := task.leaseExpiresAt.isSome
  stopAsked := task.stopRequestedAt.isSome
  parks := task.parks
  waits := task.waits

/-- The moves of the life cycle. -/
inductive Move where
  | count
  | recount
  | ready
  | parkBarrier
  | ask
  | skip
  | failWhen
  | claim
  | renew
  | recover
  | succeed
  | fail
  | retry
  | park
  | release
  | resolve (succeeded : Bool)
  | requeue
  | cancel
  | askStop
  | settle
  | claimTeardown
  | clearStop
  | stamp
  | finishBarrier (succeeded : Bool)
  | decide (approved : Bool)
  | retryFromUi
  | reset
  | clearHandle
  deriving DecidableEq, Repr

def TaskStatus.ended (succeeded : Bool) : TaskStatus :=
  if succeeded then .succeeded else .failed

def Life.decidedGate (life : Life) : Bool :=
  life.attempt = 0 ∧ life.columns.isApproval
    ∧ (life.status = .succeeded ∨ life.status = .failed)

/-- What each move does to a life, and where it is made. -/
inductive Life.Step : Move → Life → Life → Prop
  | count {life} (pending : life.status = .pending)
      : Step .count life { life with remainingDeps := life.remainingDeps - 1 }
  | recount {life} (pending : life.status = .pending) (left : Int)
      : Step .recount life { life with remainingDeps := left }
  | ready {life} (pending : life.status = .pending) (none_ : life.remainingDeps ≤ 0)
      (command : life.columns.fanoutOf = none ∧ life.columns.isApproval = false)
      : Step .ready life { life with status := .ready }
  | parkBarrier {life} (pending : life.status = .pending) (none_ : life.remainingDeps ≤ 0)
      (barrier : life.columns.fanoutOf.isSome)
      : Step .parkBarrier life
        { life with status := .running, claimedBy := none, leased := false }
  | ask {life} (pending : life.status = .pending) (none_ : life.remainingDeps ≤ 0)
      (gate : life.columns.fanoutOf = none ∧ life.columns.isApproval = true)
      : Step .ask life { life with status := .awaitingApproval }
  | skip {life} (pending : life.status = .pending) (none_ : life.remainingDeps ≤ 0)
      : Step .skip life { life with status := .skipped }
  | failWhen {life} (pending : life.status = .pending) (none_ : life.remainingDeps ≤ 0)
      : Step .failWhen life { life with status := .failed }
  | claim {life} (ready : life.status = .ready) (worker : String)
      : Step .claim life
        { life with
          status := .running, attempt := life.attempt + 1, claimedBy := some worker,
          version := life.version + 1, leased := true }
  | renew {life} (held : life.claimedBy.isSome)
      : Step .renew life { life with leased := true }
  | recover {life} (running : life.status = .running) (leased : life.leased = true)
      (free : life.stopAsked = false)
      : Step .recover life { life with status := .ready, claimedBy := none, leased := false }
  | succeed {life} (held : life.claimedBy.isSome) (free : life.stopAsked = false)
      : Step .succeed life { life with status := .succeeded, claimedBy := none }
  | fail {life} (held : life.claimedBy.isSome) (free : life.stopAsked = false)
      : Step .fail life { life with status := .failed, claimedBy := none }
  | retry {life} (held : life.claimedBy.isSome) (free : life.stopAsked = false) (attempt : Nat)
      (back : attempt = life.attempt
        ∨ life.status = .running ∧ attempt = life.attempt - 1)
      : Step .retry life
        { life with status := .ready, attempt := attempt, claimedBy := none, leased := false }
  | park {life} (running : life.status = .running) (free : life.stopAsked = false) (parks : Nat)
      (one : parks ≤ life.parks + 1) (waits : Nat)
      (more : life.waits ≤ waits ∧ waits ≤ life.waits + 1)
      : Step .park life
        { life with claimedBy := none, leased := false, parks := parks, waits := waits }
  | release {life} (running : life.status = .running) (free : life.stopAsked = false)
      : Step .release life { life with status := .ready, claimedBy := none, leased := false }
  | resolve {life} (succeeded : Bool) (running : life.status = .running)
      (parked : 0 < life.parks) (parks : Nat) (fewer : parks ≤ life.parks) (waits : Nat)
      (freed : waits ≤ life.waits)
      : Step (.resolve succeeded) life
        { life with status := .ended succeeded, parks := parks, waits := waits }
  | requeue {life} (running : life.status = .running) (parks : Nat)
      (one : parks + 1 = life.parks) (waits : Nat) (freed : waits + 1 = life.waits)
      : Step .requeue life
        { life with
          status := .ready, claimedBy := none, version := life.version + 1, leased := false,
          parks := parks, waits := waits }
  | cancel {life} (live : life.status.terminal = false)
      (idle : life.status = .running → life.claimedBy = none) (version : Nat)
      (later : life.version ≤ version)
      : Step .cancel life
        { life with
          status := .cancelled, claimedBy := none, version := version, leased := false }
  | askStop {life} (running : life.status = .running) (held : life.claimedBy.isSome)
      (leased : Bool)
      : Step .askStop life { life with leased := leased, stopAsked := true }
  | settle {life} (running : life.status = .running) (held : life.claimedBy.isSome)
      (asked : life.stopAsked = true)
      : Step .settle life
        { life with
          status := .cancelled, claimedBy := none, leased := false, stopAsked := false }
  | claimTeardown {life} (running : life.status = .running) (asked : life.stopAsked = true)
      (worker : String)
      : Step .claimTeardown life
        { life with claimedBy := some worker, version := life.version + 1, leased := true }
  | clearStop {life} (stopped : life.status ≠ .running)
      : Step .clearStop life { life with stopAsked := false }
  | stamp {life} (running : life.status = .running) (free : life.claimedBy = none)
      : Step .stamp life { life with version := life.version + 1 }
  | finishBarrier {life} (succeeded : Bool) (running : life.status = .running)
      (barrier : life.columns.fanoutOf.isSome) (free : life.claimedBy = none)
      : Step (.finishBarrier succeeded) life { life with status := .ended succeeded }
  | decide {life} (approved : Bool) (asks : life.status = .awaitingApproval)
      : Step (.decide approved) life { life with status := .ended approved }
  | retryFromUi {life} (ended : life.status = .failed ∨ life.status = .cancelled) (parks : Nat)
      (fewer : parks ≤ life.parks)
      : Step .retryFromUi life
        { life with
          status := .ready, attemptBase := life.attemptBase + (if life.decidedGate then 1 else 0),
          claimedBy := none, version := life.version + 1, leased := false,
          parks := parks, waits := 0 }
  | reset {life} (ended : life.status.terminal = true)
      : Step .reset life
        { life with
          status := .pending, attempt := 0,
          attemptBase := life.attemptBase + (if life.decidedGate then 1 else life.attempt),
          claimedBy := none, version := life.version + 1, leased := false,
          parks := 0, waits := 0 }
  | clearHandle {life} (parks : Nat) (fewer : parks ≤ life.parks)
      : Step .clearHandle life { life with parks := parks }

def Life.Steps (moves : List Move) : Life → Life → Prop :=
  Relation.ReflTransGen (fun before after => ∃ move ∈ moves, Life.Step move before after)

/-- The columns of a row that run creation can write: a fan-out is no gate and in no gang, and
a gate is in no gang.
-/
structure TaskColumns.Plain (columns : TaskColumns) : Prop where
  fanout
    : columns.fanoutOf.isSome → columns.isApproval = false ∧ columns.gang = none
  gate
    : columns.isApproval = true → columns.gang = none

/-- A life as it begins: a task of a new run, or an instance of a fan-out. -/
structure Life.Fresh (life : Life) : Prop where
  plain
    : life.columns.Plain
  attempts
    : life.attempt = 0 ∧ life.attemptBase = 0
  claimedBy
    : life.claimedBy = none
  leased
    : life.leased = false
  stopAsked
    : life.stopAsked = false
  parks
    : life.parks = 0
  waits
    : life.waits = 0
  start
    : (life.status = .pending ∧ life.columns.fanoutParent = none)
      ∨ (life.status = .ready ∧ life.columns.fanoutParent.isSome ∧ life.columns.fanoutOf = none
        ∧ life.columns.isApproval = false ∧ life.columns.gang = none)

namespace Life

theorem Step.steps {move : Move} {moves : List Move} {before after : Life}
    (step : Step move before after) (listed : move ∈ moves)
    : Steps moves before after :=
  .single ⟨move, listed, step⟩

theorem Steps.mono {moves more : List Move} {before after : Life}
    (steps : Steps moves before after) (within : moves ⊆ more)
    : Steps more before after :=
  Relation.ReflTransGen.mono (fun _ _ ⟨move, listed, step⟩ => ⟨move, within listed, step⟩)
    _ _ steps

theorem Steps.rule {moves : List Move} {before after : Life}
    (steps : Steps moves before after) (Kept : Life → Prop) (holds : Kept before)
    (keep : ∀ move ∈ moves, ∀ {life life'}, Step move life life' → Kept life → Kept life')
    : Kept after := by
  induction steps with
  | refl => exact holds
  | tail _ last ih =>
      obtain ⟨move, listed, step⟩ := last
      exact keep move listed step ih

theorem Step.columns {move : Move} {before after : Life} (step : Step move before after)
    : after.columns = before.columns := by
  cases step <;> rfl

theorem Step.version_le {move : Move} {before after : Life} (step : Step move before after)
    : before.version ≤ after.version := by
  cases step with
  | cancel _ _ _ later => exact later
  | _ => simp

theorem Steps.columns {moves : List Move} {before after : Life} (steps : Steps moves before after)
    : after.columns = before.columns ∧ before.version ≤ after.version := by
  refine steps.rule (fun life => life.columns = before.columns ∧ before.version ≤ life.version)
    ⟨rfl, Nat.le_refl _⟩ ?_
  intro _ _ life life' step kept
  exact ⟨step.columns.trans kept.1, kept.2.trans step.version_le⟩

end Life

-- Transactions

/-- A statement makes none but the listed moves: every row it finds is left, moved along. -/
def Moves (moves : List Move) (before after : Db) : Prop :=
  ∀ id, Option.Rel (fun task task' => Life.Steps moves task.life task'.life)
    (before.task? id) (after.task? id)

/-- A transaction makes none but the listed moves: a row it finds is moved along, or is an
instance that is dropped, and a row it adds begins its life, and may be moved along too.
-/
structure Evolves (moves : List Move) (before after : Db) : Prop where
  kept
    : ∀ {id task task'}, before.task? id = some task → after.task? id = some task' →
        Life.Steps moves task.life task'.life
  dropped
    : ∀ {id task}, before.task? id = some task → after.task? id = none →
        task.fanoutParent.isSome
  made
    : ∀ {id task'}, before.task? id = none → after.task? id = some task' →
        ∃ life : Life, life.Fresh ∧ Life.Steps moves life task'.life

/-- A guarded update relates each row to itself, or to what it is rewritten to where the guard
admits it.
-/
theorem rel_updateTasks {Rel : TaskRow → TaskRow → Prop} {db : Db} {cond : TaskRow → Prop}
    [DecidablePred cond] {set : TaskRow → TaskRow}
    {keeps : ∀ row, (set row).toTaskColumns = row.toTaskColumns}
    (same : ∀ task, ¬ cond task → Rel task task)
    (step : ∀ task, db.task? task.id = some task → cond task → Rel task (set task)) (id : Nat)
    : Option.Rel Rel (db.task? id) ((db.updateTasks cond set keeps).task? id) := by
  rw [Db.task?_updateTasks]
  cases found : db.task? id with
  | none => exact .none
  | some task =>
      rw [Option.map_some]
      refine .some ?_
      split
      case isTrue met => exact step task (by rw [Db.id_of_task? found, found]) met
      case isFalse unmet => exact same task unmet

namespace Moves

variable {moves more : List Move} {first second third : Db}

theorem of_tasks_eq (same : second.tasks = first.tasks)
    : Moves moves first second := by
  intro id
  have found : second.task? id = first.task? id := by
    unfold Db.task?
    rw [same]
  rw [found]
  cases first.task? id with
  | none => exact .none
  | some task => exact .some .refl

theorem refl (db : Db)
    : Moves moves db db :=
  of_tasks_eq rfl

theorem trans (before : Moves moves first second) (after : Moves moves second third)
    : Moves moves first third := by
  intro id
  have before := before id
  have after := after id
  revert before after
  cases first.task? id <;> cases second.task? id <;> cases third.task? id <;>
    intro before after <;> cases before <;> cases after
  · exact .none
  case some.some steps steps' => exact .some (steps.trans steps')

theorem mono (steps : Moves moves first second) (within : moves ⊆ more)
    : Moves more first second := by
  intro id
  have steps := steps id
  revert steps
  cases first.task? id <;> cases second.task? id <;> intro steps <;> cases steps
  · exact .none
  case some steps => exact .some (steps.mono within)

theorem of_some (steps : Moves moves first second) {id : Nat} {task' : TaskRow}
    (found : second.task? id = some task')
    : ∃ task, first.task? id = some task ∧ Life.Steps moves task.life task'.life := by
  have steps := steps id
  rw [found] at steps
  cases was : first.task? id with
  | none =>
      rw [was] at steps
      cases steps
  | some task =>
      rw [was] at steps
      cases steps with
      | some steps => exact ⟨task, rfl, steps⟩

theorem task?_eq_none_iff (steps : Moves moves first second) (id : Nat)
    : second.task? id = none ↔ first.task? id = none := by
  have steps := steps id
  revert steps
  cases first.task? id <;> cases second.task? id <;> intro steps <;> cases steps <;> simp

theorem update {db : Db} {cond : TaskRow → Prop} [DecidablePred cond] {set : TaskRow → TaskRow}
    {keeps : ∀ row, (set row).toTaskColumns = row.toTaskColumns}
    (step : ∀ task, db.task? task.id = some task → cond task → Life.Steps moves task.life (set task).life)
    : Moves moves db (db.updateTasks cond set keeps) :=
  rel_updateTasks (fun _ _ => .refl) step

theorem foldl {Item : Type} {statement : Db → Item → Db} {items : List Item}
    (each : ∀ db, ∀ item ∈ items, Moves moves db (statement db item)) (db : Db)
    : Moves moves db (items.foldl statement db) :=
  List.foldlRecOn _ _ (.refl db) fun db moved item member => moved.trans (each db item member)

theorem evolves (steps : Moves moves first second)
    : Evolves moves first second where
  kept {id task task'} was is := by
    obtain ⟨found, same, steps⟩ := steps.of_some is
    rw [was] at same
    cases same
    exact steps
  dropped {id task} was is := by
    rw [(steps.task?_eq_none_iff id).mp is] at was
    cases was
  made {id task'} was is := by
    rw [(steps.task?_eq_none_iff id).mpr was] at is
    cases is

end Moves

namespace Evolves

variable {moves more : List Move} {first second third : Db}

theorem refl (db : Db)
    : Evolves moves db db :=
  (Moves.refl db).evolves

theorem after_moves (before : Moves moves first second) (after : Evolves moves second third)
    : Evolves moves first third where
  kept {id task task'} was is := by
    have before := before id
    rw [was] at before
    cases found : second.task? id with
    | none =>
        rw [found] at before
        cases before
    | some middle =>
        rw [found] at before
        cases before with
        | some steps => exact steps.trans (after.kept found is)
  dropped {id task} was is := by
    have before := before id
    rw [was] at before
    cases found : second.task? id with
    | none =>
        rw [found] at before
        cases before
    | some middle =>
        rw [found] at before
        cases before with
        | some steps =>
            have same : middle.toTaskColumns = task.toTaskColumns := steps.columns.1
            have instance_ := after.dropped found is
            rwa [same] at instance_
  made {id task'} was is :=
    after.made ((before.task?_eq_none_iff id).mpr was) is

theorem then_moves (before : Evolves moves first second) (after : Moves moves second third)
    : Evolves moves first third where
  kept {id task task'} was is := by
    obtain ⟨middle, found, steps⟩ := after.of_some is
    exact (before.kept was found).trans steps
  dropped {id task} was is :=
    before.dropped was ((after.task?_eq_none_iff id).mp is)
  made {id task'} was is := by
    obtain ⟨middle, found, steps⟩ := after.of_some is
    obtain ⟨life, fresh, earlier⟩ := before.made was found
    exact ⟨life, fresh, earlier.trans steps⟩

theorem mono (evolves : Evolves moves first second) (within : moves ⊆ more)
    : Evolves more first second where
  kept was is := (evolves.kept was is).mono within
  dropped := evolves.dropped
  made was is := by
    obtain ⟨life, fresh, steps⟩ := evolves.made was is
    exact ⟨life, fresh, steps.mono within⟩

/-- What every life begins with and every listed move keeps holds of each row after a
transaction, where it held of each row before.
-/
theorem rule (evolves : Evolves moves first second) (Kept : Life → Prop)
    (fresh : ∀ life : Life, life.Fresh → Kept life)
    (keep : ∀ move ∈ moves, ∀ {life life'}, Life.Step move life life' → Kept life → Kept life')
    (holds : ∀ id task, first.task? id = some task → Kept task.life)
    : ∀ id task, second.task? id = some task → Kept task.life := by
  intro id task' is
  cases was : first.task? id with
  | none =>
      obtain ⟨life, begins, steps⟩ := evolves.made was is
      exact steps.rule Kept (fresh life begins) keep
  | some task => exact (evolves.kept was is).rule Kept (holds id task was) keep

end Evolves

end Dagron.Store
