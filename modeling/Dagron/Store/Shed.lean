import Dagron.Store.Outbox
import Mathlib.Algebra.Ring.Int.Defs
import Mathlib.Logic.Relation

/-! The budgets of a sink's spool: its due deliveries that are older than one are shed, and of the others the
oldest ones, or the largest, for as long as what is pending is more than the other.
-/

namespace Dagron.Store

open Dagron.Library

abbrev Spooled := DeliveryRow × OutboxRow

def payloadBytes (row : OutboxRow) : Int :=
  row.payload.utf8ByteSize

def shedPage : Nat :=
  512

def shedBefore (largestFirst : Bool) (first second : Spooled) : Prop :=
  if largestFirst then
    payloadBytes second.2 < payloadBytes first.2
      ∨ payloadBytes first.2 = payloadBytes second.2 ∧ first.2.createdAt ≤ second.2.createdAt
  else first.2.createdAt ≤ second.2.createdAt

instance (largestFirst : Bool) : DecidableRel (shedBefore largestFirst) :=
  fun first second => by
    unfold shedBefore
    infer_instance

namespace OutboxDb

/-- What a sink has still to deliver, of the events that there are. -/
def spool (db : OutboxDb) (sink : String) : List Spooled :=
  (db.deliveries.select fun row => row.sink = sink ∧ row.status = .pending).filterMap fun row =>
    (db.events.get? row.outboxId).map (row, ·)

def pendingBytes (db : OutboxDb) (sink : String) : Int :=
  ((db.spool sink).map fun item => payloadBytes item.2).sum

/-- What a sink has still to deliver that is leased to no sender. -/
def dueSpool (db : OutboxDb) (sink : String) (dueNow : Time) : List Spooled :=
  (db.spool sink).filter fun item => item.1.nextAttemptAt ≤ dueNow

def victims (db : OutboxDb) (sink : String) (dueNow : Time) (largestFirst : Bool) : List Spooled :=
  ((db.dueSpool sink dueNow).insertionSort (shedBefore largestFirst)).take shedPage

/-- Sheds the due deliveries of the events before an instant. -/
def shedOlder (db : OutboxDb) (sink : String) (dueNow cutoff : Time) (reason : String)
    : OutboxDb × Nat :=
  let cond (row : DeliveryRow) : Prop :=
    row.sink = sink ∧ row.status = .pending
      ∧ row.outboxId ∈ (db.events.select fun event => event.createdAt < cutoff).map OutboxRow.id
      ∧ row.nextAttemptAt ≤ dueNow
  have : DecidablePred cond := fun _ => inferInstanceAs (Decidable (_ ∧ _))
  ({ db with
      deliveries := db.deliveries.update cond fun row =>
        { row with status := .shed, lastError := some reason } },
    db.deliveries.count cond)

/-- How many pending deliveries of an event a sink has. -/
def countPending (db : OutboxDb) (sink : String) (id : Nat) : Nat :=
  db.deliveries.count fun row => row.sink = sink ∧ row.outboxId = id ∧ row.status = .pending

def shedOne (db : OutboxDb) (sink : String) (id : Nat) (reason : String) : OutboxDb :=
  db.mark sink id fun row => { row with status := .shed, lastError := some reason }

end OutboxDb

/-- A run over the spool: the outbox, how many deliveries were shed, how many bytes are left, and whether
any delivery of a page was shed.
-/
structure Shedding where
  db
    : OutboxDb
  shed
    : Nat
  pending
    : Int
  progressed
    : Bool

section Loop

variable (sink : String) (dueNow : Time) (maxBytes : Int) (largestFirst : Bool) (reason : String)

/-- Sheds the victims of a page, while more is pending than the budget is. -/
def shedVictims : List Spooled → Shedding → Shedding
  | [], run => run
  | victim :: rest, run =>
      if run.pending ≤ maxBytes then run
      else
        let n := run.db.countPending sink victim.1.outboxId
        let db := run.db.shedOne sink victim.1.outboxId reason
        shedVictims rest
          (if n = 1 then
            { db, shed := run.shed + n, pending := run.pending - payloadBytes victim.2,
              progressed := true }
          else { run with db })

/-- How many deliveries a sink has pending, of events that there are or not. -/
def Shedding.size (run : Shedding) : Nat :=
  run.db.deliveries.count fun row => row.sink = sink ∧ row.status = .pending

theorem size_shedOne (db : OutboxDb) (id : Nat)
    : db.deliveries.count (fun row => row.sink = sink ∧ row.status = .pending)
      = db.countPending sink id
        + (db.shedOne sink id reason).deliveries.count
            fun row => row.sink = sink ∧ row.status = .pending := by
  have split := @Table.count_and_add_count_and_not _ _ _ db.deliveries
    (fun row => row.sink = sink ∧ row.status = .pending) (fun row => row.outboxId = id) _ _
  rw [← split, OutboxDb.shedOne, OutboxDb.mark, Table.count_update]
  congr 1
  · exact Table.count_congr fun row _ => by tauto
  · refine Table.count_congr fun row _ => ?_
    by_cases hit : row.sink = sink ∧ row.outboxId = id ∧ row.status = .pending
    · rw [if_pos hit]
      simp [hit.2.1]
    · rw [if_neg hit]
      tauto

theorem size_shedVictims (victims : List Spooled) (run : Shedding)
    : (shedVictims sink maxBytes reason victims run).size sink ≤ run.size sink
      ∧ ((shedVictims sink maxBytes reason victims run).progressed = true → run.progressed = false →
        (shedVictims sink maxBytes reason victims run).size sink < run.size sink) := by
  induction victims generalizing run with
  | nil =>
      refine ⟨Nat.le_refl _, fun progressed still => ?_⟩
      rw [shedVictims, still] at progressed
      cases progressed
  | cons victim rest ih =>
      rw [shedVictims]
      by_cases kept : run.pending ≤ maxBytes
      · rw [if_pos kept]
        refine ⟨Nat.le_refl _, fun progressed still => ?_⟩
        rw [still] at progressed
        cases progressed
      · rw [if_neg kept]
        have left := size_shedOne sink reason run.db victim.1.outboxId
        by_cases one : run.db.countPending sink victim.1.outboxId = 1
        · simp only [one, if_true]
          have others := (ih ⟨run.db.shedOne sink victim.1.outboxId reason, run.shed + 1,
            run.pending - payloadBytes victim.2, true⟩).1
          simp only [Shedding.size] at others ⊢
          omega
        · simp only [one, if_false]
          have others := ih { run with db := run.db.shedOne sink victim.1.outboxId reason }
          simp only [Shedding.size] at others ⊢
          refine ⟨by omega, fun progressed still => ?_⟩
          have less := others.2 progressed still
          omega

/-- Sheds page after page, until the budget is kept, or nothing is left to shed. -/
def shedPages (run : Shedding) : Shedding :=
  if run.pending ≤ maxBytes then run
  else
    let victims := run.db.victims sink dueNow largestFirst
    if victims = [] then run
    else
      let next := shedVictims sink maxBytes reason victims { run with progressed := false }
      if _more : next.progressed then shedPages next else next
termination_by run.size sink
decreasing_by
  exact (size_shedVictims sink maxBytes reason _ { run with progressed := false }).2 _more rfl

end Loop

def ageCutoff (now : Time) (maxAgeSecs : Int) : Time :=
  now - min (max maxAgeSecs 0) maxSpoolSecs * 1000000000

/-- Whether a policy sheds the largest deliveries first, in any case of letters; else the oldest are. -/
def isLargestFirst (policy : String) : Bool :=
  policy.toList.map Char.toLower = "largest".toList

/-- Brings a sink's spool back inside its budgets, at an instant (dueNow) and one after it; zero disables
either one. The result has how many deliveries were shed.
-/
def OutboxDb.shedOutbox (db : OutboxDb) (sink : String) (dueNow now : Time)
    (maxBytes maxAgeSecs : Int) (policy : String)
    : OutboxDb × Nat :=
  let (db, shed) :=
    if maxAgeSecs > 0 then
      db.shedOlder sink dueNow (ageCutoff now maxAgeSecs)
        ("shed: older than the " ++ toString maxAgeSecs ++ "s outbox age budget")
    else (db, 0)
  if maxBytes > 0 then
    let largestFirst := isLargestFirst policy
    let reason := "shed: over the " ++ toString maxBytes ++ "-byte outbox budget ("
      ++ (if largestFirst then "largest" else "oldest") ++ " first)"
    let run := shedPages sink dueNow maxBytes largestFirst reason
      { db, shed, pending := db.pendingBytes sink, progressed := false }
    (run.db, run.shed)
  else (db, shed)

end Dagron.Store
