import Dagron.Library.Transaction
import Dagron.Store.Ingest

/-! The transaction a run is made in, statement by statement: the claims it holds, the runs it
takes the place of, the count against the cap, the rows, and what rides with them. It may be
broken at any statement, and as it commits.
-/

namespace Dagron.Store

open Dagron.Library Dagron.Spec

-- Statements

/-- The working copy of the transaction, and whether the run that is made in it waits. -/
structure Draft where
  store
    : Db
  ledger
    : Ledger
  waits
    : Bool := false

/-- The runs that a new run of a workflow and key takes the place of, in the order in which they
are asked to stop.
-/
def Db.supersededRuns (name : String) (key : Option String) (own : Option RunTrigger) (db : Db)
    : List Nat :=
  ((db.runs.select (RunRow.superseded name key own)).insertionSort
    (fun first second => first.createdAt < second.createdAt
      ∨ (first.createdAt = second.createdAt ∧ first.id ≤ second.id))).map (fun run => run.id)

/-- The record of what started a run, where the run takes the place of its own source's runs
alone.
-/
def ownSource (trigger : Option RunTrigger) : Option RunTrigger :=
  trigger.filter (fun trigger => confined (classOf (some trigger)))

def orConflict (made : Option Draft) : Except IngestError Draft :=
  match made with
  | some draft => .ok draft
  | none => .error (.refused .conflict)

section Creation

variable (env : Env) (now : Time)

/-- Cancels the runs a new run takes the place of, each of them read in the transaction. -/
def supersedeStatements (spec : DagSpec) (trigger : Option RunTrigger) (run : Nat) (db : Db)
    : List (Statement Draft IngestError) :=
  if (spec.maxActiveRuns.filter (fun max => 0 < max)).isSome ∧ spec.whenFull = some .supersede then
    (db.supersededRuns spec.name spec.concurrencyKey (ownSource trigger)).map (fun older => fun draft =>
      .ok { draft with store := draft.store.supersedeRun env now run older })
  else []

def admitStatement (spec : DagSpec) : Statement Draft IngestError := fun draft =>
  match spec.maxActiveRuns.filter (fun max => 0 < max) with
  | none => .ok draft
  | some max =>
      let (active, waiting) := draft.store.runsInFlight spec.name spec.concurrencyKey none
      match admissionOf env spec max active waiting with
      | .start => .ok draft
      | .wait => .ok { draft with waits := true }
      | .refuse reached => .error (.refused (.full reached))

/-- Writes the row of the run, which is written as waiting or not. -/
def runStatement (row : Bool → RunRow) : Statement Draft IngestError := fun draft =>
  orConflict ((draft.store.runs.insert (row draft.waits)).map (fun runs =>
    { draft with store := { draft.store with runs := runs } }))

/-- Writes the rows of its tasks, each with one dependency more where the run waits. -/
def tasksStatement (dag : DagGraph) (run : Nat) (seats : List Seat)
    : Statement Draft IngestError := fun draft =>
  orConflict
    ((insertTasks draft.store.tasks
        (seats.map (rowOf dag run now (if draft.waits then 1 else 0)))).map
      (fun tasks => { draft with store := { draft.store with tasks := tasks } }))

def depsStatement (dag : DagGraph) (seats : List Seat) : Statement Draft IngestError := fun draft =>
  orConflict ((draft.store.deps.insertAll (depRowsOf dag seats)).map (fun deps =>
    { draft with store := { draft.store with deps := deps } }))

def ledgerStatement (write : Ledger → Except IngestError Ledger) : Statement Draft IngestError :=
  fun draft => (write draft.ledger).map (fun ledger => { draft with ledger := ledger })

def runStatements (dag : DagGraph) (submission : Submission) (deadlineAt alertDeadlineAt : Option Time)
    (db : Db) : List (Statement Draft IngestError) :=
  let seats := seatsOf dag submission.mint
  supersedeStatements env now dag.spec submission.trigger submission.run db
    ++ [admitStatement env dag.spec,
      runStatement (fun waits => runRowOf dag submission.trigger submission.run now waits deadlineAt
        alertDeadlineAt),
      tasksStatement now dag submission.run seats,
      depsStatement dag seats]

/-- The statements of the transaction that makes a request's run, or what is refused before it
begins.
-/
def creation (request : RunRequest) (db : Db)
    : Except IngestError (List (Statement Draft IngestError)) := do
  let submission := request.submission
  if !submission.diskOk then .error (.refused .diskLow)
  let dag ← (runGraph db submission).mapError .refused
  let some deadlineAt := deadlineOf now dag.spec.runTimeoutSecs | .error (.refused .panicked)
  let some alertDeadlineAt := deadlineOf now dag.spec.alertWithinSecs | .error (.refused .panicked)
  return [ledgerStatement (fun ledger => (ledger.holdClaim request.claim).map (fun _ => ledger)),
      ledgerStatement (Ledger.takeDeadLetter request.deadLetter)]
    ++ runStatements env now dag submission deadlineAt alertDeadlineAt db
    ++ [ledgerStatement (fun ledger => .ok (ledger.commitOffset now request.offset)),
      ledgerStatement (Ledger.resolveClaim submission.run request.claim)]

/-- The store and the ledger after a request for a run whose transaction may be broken, and
whether it was made.
-/
def createRunTransacted (breaks : Nat → Bool) (request : RunRequest) (store : Db) (ledger : Ledger)
    : (Db × Ledger) × Except (Failure IngestError) Unit :=
  match creation env now request store with
  | .error error => ((store, ledger), .error (.statement error))
  | .ok statements =>
      let (draft, done) := transact breaks statements { store, ledger }
      ((draft.store, draft.ledger), done)

-- What the transaction makes

variable {env now}

theorem inTurn_supersedeStatements (spec : DagSpec) (trigger : Option RunTrigger) (run : Nat)
    (draft : Draft)
    : inTurn (supersedeStatements env now spec trigger run draft.store) draft
      = .ok { draft with store := (weigh env now spec trigger run draft.store).1 } := by
  have each (runs : List Nat) (draft : Draft)
      : runs.foldl (fun draft older =>
          { draft with store := draft.store.supersedeRun env now run older }) draft
        = { draft with
            store := runs.foldl (fun db older => db.supersedeRun env now run older) draft.store } := by
    induction runs generalizing draft with
    | nil => rfl
    | cons older rest ih => exact ih _
  unfold supersedeStatements weigh
  cases spec.maxActiveRuns.filter (fun max => 0 < max) with
  | none => rfl
  | some max =>
      by_cases policy : spec.whenFull = some .supersede
      · rw [if_pos ⟨rfl, policy⟩, inTurn_writes, each]
        simp only [policy, if_true]
        rfl
      · rw [if_neg (fun both => policy both.2)]
        simp only [policy, if_false]
        rfl

theorem admitStatement_eq (spec : DagSpec) (trigger : Option RunTrigger) (run : Nat) (db : Db)
    (ledger : Ledger)
    : admitStatement env spec { store := (weigh env now spec trigger run db).1, ledger }
      = match (weigh env now spec trigger run db).2 with
        | .start => .ok { store := (weigh env now spec trigger run db).1, ledger }
        | .wait => .ok { store := (weigh env now spec trigger run db).1, ledger, waits := true }
        | .refuse reached => .error (.refused (.full reached)) := by
  unfold admitStatement weigh
  cases spec.maxActiveRuns.filter (fun max => 0 < max) with
  | none => rfl
  | some max => rfl

theorem orConflict_bind (made : Option Draft) (next : Statement Draft IngestError)
    : orConflict made >>= next = (made.map next).getD (.error (.refused .conflict)) := by
  cases made <;> rfl

theorem inTurn_rows (dag : DagGraph) (submission : Submission) (deadlineAt alertDeadlineAt : Option Time)
    (draft : Draft)
    : inTurn [runStatement (fun waits => runRowOf dag submission.trigger submission.run now waits
            deadlineAt alertDeadlineAt),
          tasksStatement now dag submission.run (seatsOf dag submission.mint),
          depsStatement dag (seatsOf dag submission.mint)] draft
      = orConflict ((insertRun draft.store dag (runRowOf dag submission.trigger submission.run now
          draft.waits deadlineAt alertDeadlineAt) submission.mint).map
            (fun store => { draft with store := store })) := by
  have held : (if (runRowOf dag submission.trigger submission.run now draft.waits deadlineAt
      alertDeadlineAt).queuedAt.isSome then 1 else 0) = if draft.waits then 1 else 0 := by
    cases draft.waits <;> rfl
  have written : insertRun draft.store dag (runRowOf dag submission.trigger submission.run now
        draft.waits deadlineAt alertDeadlineAt) submission.mint
      = (draft.store.runs.insert (runRowOf dag submission.trigger submission.run now draft.waits
          deadlineAt alertDeadlineAt)).bind fun runs =>
        (insertTasks draft.store.tasks ((seatsOf dag submission.mint).map (rowOf dag submission.run
          now (if draft.waits then 1 else 0)))).bind fun tasks =>
        (draft.store.deps.insertAll (depRowsOf dag (seatsOf dag submission.mint))).map fun deps =>
          { draft.store with runs := runs, tasks := tasks, deps := deps } := by
    unfold insertRun
    rw [held]
    rfl
  rw [written, inTurn_cons, runStatement, orConflict_bind]
  cases draft.store.runs.insert (runRowOf dag submission.trigger submission.run now draft.waits
    deadlineAt alertDeadlineAt) with
  | none => rfl
  | some runs =>
      simp only [Option.map_some, Option.getD_some, Option.bind_some, inTurn_cons, tasksStatement,
        orConflict_bind]
      cases insertTasks draft.store.tasks ((seatsOf dag submission.mint).map
          (rowOf dag submission.run now (if draft.waits then 1 else 0))) with
      | none => rfl
      | some tasks =>
          simp only [Option.map_some, Option.getD_some, Option.bind_some, inTurn_cons,
            depsStatement, orConflict_bind]
          cases draft.store.deps.insertAll (depRowsOf dag (seatsOf dag submission.mint)) <;> rfl

/-- The rows of a run, written or refused, where it waits or not. -/
def writeRun (now : Time) (dag : DagGraph) (submission : Submission)
    (deadlineAt alertDeadlineAt : Option Time) (db : Db) (waits : Bool) : Except CreateError Db :=
  match insertRun db dag (runRowOf dag submission.trigger submission.run now waits deadlineAt
      alertDeadlineAt) submission.mint with
  | none => .error .conflict
  | some created => .ok created

/-- A run whose graph and deadlines are known is weighed, and written where it is not refused. -/
theorem createRun_eq {submission : Submission} {dag : DagGraph}
    {deadlineAt alertDeadlineAt : Option Time} {db : Db} (room : submission.diskOk = true)
    (graph : runGraph db submission = .ok dag)
    (deadline : deadlineOf now dag.spec.runTimeoutSecs = some deadlineAt)
    (alert : deadlineOf now dag.spec.alertWithinSecs = some alertDeadlineAt)
    : createRun env now submission db
      = let weighed := weigh env now dag.spec submission.trigger submission.run db
        match weighed.2 with
        | .start => writeRun now dag submission deadlineAt alertDeadlineAt weighed.1 false
        | .wait => writeRun now dag submission deadlineAt alertDeadlineAt weighed.1 true
        | .refuse reached => .error (.full reached) := by
  unfold createRun
  rw [room, graph]
  change (match deadlineOf now dag.spec.runTimeoutSecs with
    | some deadlineAt => _
    | _ => _) = _
  rw [deadline]
  dsimp only
  rw [alert]
  dsimp only
  cases (weigh env now dag.spec submission.trigger submission.run db).2 <;> rfl

theorem inTurn_runStatements {submission : Submission} {dag : DagGraph}
    {deadlineAt alertDeadlineAt : Option Time} {store : Db} (ledger : Ledger)
    (room : submission.diskOk = true) (graph : runGraph store submission = .ok dag)
    (deadline : deadlineOf now dag.spec.runTimeoutSecs = some deadlineAt)
    (alert : deadlineOf now dag.spec.alertWithinSecs = some alertDeadlineAt)
    : (inTurn (runStatements env now dag submission deadlineAt alertDeadlineAt store)
          { store, ledger }).map (fun draft => (draft.store, draft.ledger))
      = ((createRun env now submission store).mapError .refused).map
          (fun created => (created, ledger)) := by
  unfold runStatements
  rw [inTurn_append_of_ok (inTurn_supersedeStatements _ _ _ ⟨store, ledger, false⟩), inTurn_cons,
    admitStatement_eq, createRun_eq room graph deadline alert]
  dsimp only
  cases (weigh env now dag.spec submission.trigger submission.run store).2 with
  | refuse reached => rfl
  | start | wait =>
      change (inTurn _ _).map _ = _
      rw [inTurn_rows]
      unfold writeRun
      dsimp only
      cases insertRun (weigh env now dag.spec submission.trigger submission.run store).1 dag
        (runRowOf dag submission.trigger submission.run now _ deadlineAt alertDeadlineAt)
        submission.mint <;> rfl

theorem createRunFull_eq (request : RunRequest) (store : Db) (ledger : Ledger)
    : createRunFull env now request store ledger
      = creation env now request store >>= fun statements =>
        (inTurn statements { store, ledger }).map (fun draft => (draft.store, draft.ledger)) := by
  obtain ⟨submission, offset, deadLetter, claim⟩ := request
  unfold createRunFull creation preflight
  dsimp only
  cases room : submission.diskOk with
  | false => rfl
  | true =>
  cases graph : runGraph store submission with
  | error refused => rfl
  | ok dag =>
  change (Except.mapError _ (match deadlineOf now dag.spec.runTimeoutSecs with
    | some _ => _ | _ => _) >>= _) = (match deadlineOf now dag.spec.runTimeoutSecs with
    | some _ => _ | _ => _) >>= _
  cases deadline : deadlineOf now dag.spec.runTimeoutSecs with
  | none => rfl
  | some deadlineAt =>
  dsimp only
  cases alert : deadlineOf now dag.spec.alertWithinSecs with
  | none => rfl
  | some alertDeadlineAt =>
  change (ledger.holdClaim claim >>= _) = (inTurn (_ :: _ :: (_ ++ _)) _).map _
  rw [inTurn_cons]
  unfold ledgerStatement
  dsimp only
  cases ledger.holdClaim claim with
  | error lost => rfl
  | ok held =>
  dsimp only [Except.map]
  rw [ok_bind, ok_bind, inTurn_cons]
  cases ledger.takeDeadLetter deadLetter with
  | error gone => rfl
  | ok taken =>
  dsimp only [Except.map]
  rw [ok_bind, ok_bind]
  change _ = (inTurn (runStatements env now dag submission deadlineAt alertDeadlineAt store ++ _)
    _).map _
  rw [inTurn_append]
  have made : (inTurn (runStatements env now dag submission deadlineAt alertDeadlineAt store) _).map _ = _ :=
    inTurn_runStatements taken room graph deadline alert
  cases rows : inTurn (runStatements env now dag submission deadlineAt alertDeadlineAt store)
    { store, ledger := taken } with
  | error failed =>
      rw [rows] at made
      cases created : (createRun env now submission store).mapError IngestError.refused with
      | error refused =>
          rw [created] at made
          exact congrArg Except.error (Except.error.inj made).symm
      | ok db =>
          rw [created] at made
          cases made
  | ok draft =>
      rw [rows] at made
      cases created : (createRun env now submission store).mapError IngestError.refused with
      | error refused =>
          rw [created] at made
          cases made
      | ok db =>
          rw [created] at made
          obtain ⟨rfl, rfl⟩ := Prod.mk.inj (Except.ok.inj made)
          rw [ok_bind, ok_bind, inTurn_cons]
          dsimp only [Except.map]
          rw [ok_bind, inTurn_cons]
          cases (draft.ledger.commitOffset now offset).resolveClaim submission.run claim <;> rfl

section Transacted

variable {breaks : Nat → Bool} {request : RunRequest} {store : Db} {ledger : Ledger}

theorem createRunTransacted_of_error {failure : Failure IngestError}
    (failed : (createRunTransacted env now breaks request store ledger).2 = .error failure)
    : (createRunTransacted env now breaks request store ledger).1 = (store, ledger) := by
  unfold createRunTransacted at failed ⊢
  split
  · rfl
  case h_2 statements prepared =>
    rw [prepared] at failed
    have left := transact_of_error failed
    dsimp only
    rw [left]

theorem createRunFull_of_transacted
    (done : (createRunTransacted env now breaks request store ledger).2 = .ok ())
    : createRunFull env now request store ledger
      = .ok (createRunTransacted env now breaks request store ledger).1 := by
  unfold createRunTransacted at done ⊢
  split
  case h_1 error prepared =>
    rw [prepared] at done
    cases done
  case h_2 statements prepared =>
    rw [prepared] at done
    rw [createRunFull_eq, prepared, ok_bind, inTurn_of_transact done]
    rfl

theorem createRun_of_createRunFull {made : Db × Ledger}
    (done : createRunFull env now request store ledger = .ok made)
    : createRun env now request.submission store = .ok made.1 := by
  unfold createRunFull at done
  obtain ⟨_, _, done⟩ := exists_of_bind_eq_ok done
  obtain ⟨_, _, done⟩ := exists_of_bind_eq_ok done
  obtain ⟨_, _, done⟩ := exists_of_bind_eq_ok done
  obtain ⟨created, wrote, done⟩ := exists_of_bind_eq_ok done
  obtain ⟨_, _, done⟩ := exists_of_bind_eq_ok done
  rw [ok_of_mapError wrote, ← Except.ok.inj done]

end Transacted

end Creation

end Dagron.Store
