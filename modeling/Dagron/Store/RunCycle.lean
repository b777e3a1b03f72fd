import Dagron.Store.LifeCycle

/-! The life cycle of a run: what the row of one run goes through, and what the outbox tells of
its ends, whatever statement writes them.
-/

namespace Dagron.Store

open Dagron.Library Dagron.Spec

-- Lives of runs

def OutboxEvent.endOf (run : Nat) : OutboxEvent → Option RunStatus
  | .runCompleted ended status => if ended = run then some status else none
  | .runAgain .. => none

/-- The ends of a run that the outbox tells of, in order. -/
def Db.told (db : Db) (run : Nat) : List RunStatus :=
  db.outbox.filterMap (OutboxEvent.endOf run)

theorem told_runAgain (db : Db) (run : Nat) (origin : RunAgain) (tasks : Nat) (task : Option Nat) (id : Nat)
    : (db.emit (.runAgain run origin tasks task)).told id = db.told id := by
  simp [Db.told, Db.emit, OutboxEvent.endOf]

/-- What the life cycle of a run reads of its row and of the outbox. -/
structure RunLife where
  columns
    : RunColumns
  status
    : RunStatus
  queuedAt
    : Option Time
  admitted
    : Bool
  stoppingAs
    : Option RunStatus
  told
    : List RunStatus

def RunRow.life (told : List RunStatus) (run : RunRow) : RunLife where
  columns := run.toRunColumns
  status := run.status
  queuedAt := run.queuedAt
  admitted := run.admittedAt.isSome
  stoppingAs := run.stoppingAs
  told := told

def Db.runLife (db : Db) (id : Nat) : Option RunLife :=
  (db.run? id).map (RunRow.life (db.told id))

/-- The moves of the life cycle of a run. -/
inductive RunMove where
  | ask (status : RunStatus)
  | finish
  | reap (status : RunStatus)
  | rearm
  | letIn
  deriving DecidableEq, Repr

/-- What each move does to a run's life, and where it is made. -/
inductive RunLife.Step : RunMove → RunLife → RunLife → Prop
  | ask {life} (status : RunStatus) (running : life.status = .running)
      : Step (.ask status) life
        { life with stoppingAs := some (life.stoppingAs.getD status) }
  | finish {life} (status : RunStatus) (running : life.status = .running)
      (asked : life.stoppingAs = some status)
      : Step .finish life
        { life with status := status, stoppingAs := none, told := life.told ++ [status] }
  | reap {life} (status : RunStatus) (running : life.status = .running)
      : Step (.reap status) life { life with status := status, told := life.told ++ [status] }
  | rearm {life} (ended : Db.over_ life.status = true)
      : Step .rearm life
        { life with
          status := .running, queuedAt := if life.admitted then life.queuedAt else none }
  | letIn {life} (running : life.status = .running) (queued : life.queuedAt.isSome)
      (unadmitted : life.admitted = false) (unasked : life.stoppingAs = none)
      : Step .letIn life { life with admitted := true }

/-- Some of the moves of a run, made one after another. -/
def RunLife.Steps (moves : List RunMove) : RunLife → RunLife → Prop :=
  Relation.ReflTransGen (fun before after => ∃ move ∈ moves, RunLife.Step move before after)

namespace RunLife

/-- Whether a run of the life waits in its workflow's queue. -/
def waiting (life : RunLife) : Bool :=
  life.status = .running ∧ life.queuedAt.isSome ∧ ¬ life.admitted

theorem Step.steps {move : RunMove} {moves : List RunMove} {before after : RunLife}
    (step : Step move before after) (listed : move ∈ moves)
    : Steps moves before after :=
  .single ⟨move, listed, step⟩

theorem Steps.rule {moves : List RunMove} {before after : RunLife}
    (steps : Steps moves before after) (Kept : RunLife → Prop) (holds : Kept before)
    (keep : ∀ move ∈ moves, ∀ {life life'}, Step move life life' → Kept life → Kept life')
    : Kept after := by
  induction steps with
  | refl => exact holds
  | tail _ last ih =>
      obtain ⟨move, listed, step⟩ := last
      exact keep move listed step ih

theorem Steps.columns {moves : List RunMove} {before after : RunLife} (steps : Steps moves before after)
    : after.columns = before.columns ∧ (after.waiting = true → before.waiting = true) := by
  refine steps.rule (fun life => life.columns = before.columns
    ∧ (life.waiting = true → before.waiting = true)) ⟨rfl, id⟩ ?_
  intro move _ life life' step kept
  obtain ⟨columns, waits⟩ := kept
  cases step with
  | ask => exact ⟨columns, waits⟩
  | finish status running | reap status running =>
      refine ⟨columns, fun waiting => waits ?_⟩
      simp only [decide_eq_true_eq, RunLife.waiting] at waiting ⊢
      exact ⟨running, waiting.2⟩
  | rearm =>
      refine ⟨columns, fun waiting => ?_⟩
      simp only [RunLife.waiting, decide_eq_true_eq] at waiting
      obtain ⟨_, queued, unadmitted⟩ := waiting
      rw [if_neg unadmitted] at queued
      cases queued
  | letIn =>
      refine ⟨columns, fun waiting => ?_⟩
      simp [RunLife.waiting] at waiting

end RunLife

theorem RunRow.waiting_iff (row : RunRow)
    : row.waiting = true
      ↔ row.status = .running ∧ row.queuedAt.isSome ∧ row.admittedAt.isNone := by
  simp [RunRow.waiting]

@[simp]
theorem RunRow.waiting_life (row : RunRow) (told : List RunStatus)
    : (row.life told).waiting = row.waiting := by
  simp [RunLife.waiting, RunRow.life, RunRow.waiting]

-- Transactions

/-- A transaction makes no run and drops none, and makes of them none but the listed moves. -/
def RunMoves (moves : List RunMove) (before after : Db) : Prop :=
  ∀ id, Option.Rel (RunLife.Steps moves) (before.runLife id) (after.runLife id)

namespace RunMoves

variable {moves : List RunMove} {first second third : Db}

theorem of_eq (runs : second.runs = first.runs) (told : ∀ id, second.told id = first.told id)
    : RunMoves moves first second := by
  intro id
  have same : second.runLife id = first.runLife id := by
    unfold Db.runLife Db.run?
    rw [runs, told]
  rw [same]
  cases first.runLife id with
  | none => exact .none
  | some life => exact .some .refl

theorem refl (db : Db)
    : RunMoves moves db db :=
  of_eq rfl (fun _ => rfl)

theorem trans (before : RunMoves moves first second) (after : RunMoves moves second third)
    : RunMoves moves first third := by
  intro id
  have before := before id
  have after := after id
  revert before after
  cases first.runLife id <;> cases second.runLife id <;> cases third.runLife id <;>
    intro before after <;> cases before <;> cases after
  · exact .none
  case some.some steps steps' => exact .some (steps.trans steps')

theorem update {db : Db} {cond : RunRow → Prop} [DecidablePred cond] {set : RunRow → RunRow}
    {keeps : ∀ row, (set row).toRunColumns = row.toRunColumns}
    (step : ∀ row told, cond row → RunLife.Steps moves (row.life told) ((set row).life told))
    : RunMoves moves db (db.updateRuns cond set keeps) := by
  intro id
  have told : (db.updateRuns cond set keeps).told id = db.told id := rfl
  unfold Db.runLife
  rw [Db.run?_updateRuns, told]
  cases db.run? id with
  | none => exact .none
  | some row =>
      rw [Option.map_some, Option.map_some, Option.map_some]
      refine .some ?_
      split
      case isTrue met => exact step row _ met
      case isFalse => exact .refl

theorem ended {db : Db} {run : Nat} {status : RunStatus} {cond : RunRow → Prop}
    [DecidablePred cond] {set : RunRow → RunRow}
    {keeps : ∀ row, (set row).toRunColumns = row.toRunColumns}
    (only : ∀ row, cond row → row.id = run) (there : ∃ row, db.run? run = some row ∧ cond row)
    (step : ∀ row told, db.run? run = some row →
      RunLife.Steps moves (row.life told) ((set row).life (told ++ [status])))
    : RunMoves moves db ((db.updateRuns cond set keeps).emit (.runCompleted run status)) := by
  intro id
  have told : ((db.updateRuns cond set keeps).emit (.runCompleted run status)).told id
      = db.told id ++ (if run = id then [status] else []) := by
    simp only [Db.told, Db.emit, Db.updateRuns, List.filterMap_append, List.filterMap_cons,
      List.filterMap_nil, OutboxEvent.endOf]
    by_cases here : run = id <;> simp [here]
  unfold Db.runLife
  rw [Db.run?_emit, Db.run?_updateRuns, told]
  by_cases here : run = id
  · subst here
    obtain ⟨row, found, met⟩ := there
    rw [found, if_pos rfl, Option.map_some, Option.map_some, Option.map_some, if_pos met]
    exact .some (step row _ found)
  · rw [if_neg here, List.append_nil]
    cases found : db.run? id with
    | none => exact .none
    | some row =>
        have apart : ¬ cond row := fun met =>
          here ((only row met).symm.trans (Table.key_of_get? found))
        rw [Option.map_some, Option.map_some, Option.map_some, if_neg apart]
        exact .some .refl

theorem foldl {Item : Type} {statement : Db → Item → Db} {items : List Item}
    (each : ∀ db item, RunMoves moves db (statement db item)) (db : Db)
    : RunMoves moves db (items.foldl statement db) :=
  List.foldlRecOn _ _ (.refl db) fun db moved item _ => moved.trans (each db item)

theorem of_some (steps : RunMoves moves first second) {id : Nat} {row : RunRow}
    (was : first.run? id = some row)
    : ∃ row', second.run? id = some row'
        ∧ RunLife.Steps moves (row.life (first.told id)) (row'.life (second.told id)) := by
  have steps := steps id
  unfold Db.runLife at steps
  rw [was, Option.map_some] at steps
  cases is : second.run? id with
  | none =>
      rw [is] at steps
      cases steps
  | some row' =>
      rw [is, Option.map_some] at steps
      cases steps with
      | some steps => exact ⟨row', rfl, steps⟩

theorem of_none (steps : RunMoves moves first second) {id : Nat} (was : first.run? id = none)
    : second.run? id = none := by
  have steps := steps id
  unfold Db.runLife at steps
  rw [was, Option.map_none] at steps
  cases is : second.run? id with
  | none => rfl
  | some row' =>
      rw [is] at steps
      cases steps

end RunMoves

end Dagron.Store
