import Dagron.Store.Ended

/-! Who runs under a workflow's cap: how many runs of a name and a key are under way, whatever
starts and ends them, and in which order those that wait are let in.
-/

namespace Dagron.Store

open Dagron.Library Dagron.Spec

-- Runs under way

/-- Whether a run of a workflow and key is under way: it runs, and does not wait. -/
def RunRow.underWay (name : String) (key : Option String) (run : RunRow) : Prop :=
  run.inFlight name key none ∧ run.waiting = false

instance (name : String) (key : Option String) : DecidablePred (RunRow.underWay name key) :=
  fun run => by
    unfold RunRow.underWay
    infer_instance

def Db.underWay (name : String) (key : Option String) (db : Db) : Nat :=
  db.runs.count (RunRow.underWay name key)

/-- The cap that a definition declares: one of no run is none. -/
def capOf (declared : Option Nat) : Option Nat :=
  declared.filter (fun max => 0 < max)

/-- Whether the run that an operation makes, if it is of a workflow and key, declares a cap. -/
def Op.declares (name : String) (key : Option String) (cap : Nat) (db : Db) : Op → Prop
  | .createRun _ submission => ∀ dag ∈ (runGraph db submission).toOption,
      dag.spec.name = name → dag.spec.concurrencyKey = key → capOf dag.spec.maxActiveRuns = some cap
  | _ => True

instance (name : String) (key : Option String) (cap : Nat) (db : Db) (op : Op)
    : Decidable (op.declares name key cap db) := by
  induction op using Op.casesOn <;> dsimp only [Op.declares] <;> infer_instance

/-- What holds of the runs of a workflow and key whose submissions declare one cap: each has it,
and no more of them are under way.
-/
structure Db.Capped (name : String) (key : Option String) (cap : Nat) (db : Db) : Prop where
  declared
    : ∀ id row, db.run? id = some row → row.definition.name = name → row.concurrencyKey = key →
        capOf row.definition.maxActiveRuns = some cap
  within
    : db.underWay name key ≤ cap

section Counting

variable {name : String} {key : Option String} {cap : Nat} {moves : List RunMove}
  {before after : Db} {run id : Nat} {row row' : RunRow}

theorem RunRow.underWay_iff (row : RunRow) (told : List RunStatus)
    : row.underWay name key
      ↔ (row.life told).status = .running ∧ (row.life told).waiting = false
        ∧ row.definition.name = name ∧ row.concurrencyKey = key := by
  rw [RunRow.waiting_life]
  constructor
  · rintro ⟨⟨running, name, key, _⟩, waits⟩
    exact ⟨running, waits, name, key⟩
  · rintro ⟨running, waits, name, key⟩
    exact ⟨⟨running, name, key, nofun⟩, waits⟩

theorem RunLife.Steps.underWay {before after : RunLife} (steps : RunLife.Steps moves before after)
    (quiet : .rearm ∉ moves) (shut : .letIn ∉ moves)
    (is : after.status = .running ∧ after.waiting = false)
    : before.status = .running ∧ before.waiting = false := by
  revert is
  refine steps.rule (fun life => life.status = .running ∧ life.waiting = false →
    before.status = .running ∧ before.waiting = false) id ?_
  intro move listed life life' step kept is
  obtain ⟨runs, free⟩ := is
  cases step with
  | ask => exact kept ⟨runs, free⟩
  | finish status running | reap status running =>
      refine kept ⟨running, ?_⟩
      have same : status = life.status := Eq.trans runs running.symm
      rw [← free]
      simp only [RunLife.waiting, same]
  | rearm => exact absurd listed quiet
  | letIn => exact absurd listed shut

theorem underWay_le (was : ∀ id row', after.run? id = some row' → row'.underWay name key →
      ∃ row, before.run? id = some row ∧ row.underWay name key)
    : after.underWay name key ≤ before.underWay name key := by
  refine Table.count_le_of_keys fun row' present is => ?_
  obtain ⟨row, found, under⟩ := was row'.id row' (Table.get?_of_mem present) is
  exact ⟨row, Table.mem_of_get? found, under, Table.key_of_get? found⟩

theorem underWay_le_succ (run : Nat)
    (was : ∀ id row', id ≠ run → after.run? id = some row' → row'.underWay name key →
      ∃ row, before.run? id = some row ∧ row.underWay name key)
    : after.underWay name key ≤ before.underWay name key + 1 := by
  refine (Table.count_le_succ run).trans (Nat.succ_le_succ ?_)
  refine Table.count_le_of_keys fun row' present is => ?_
  obtain ⟨row, found, under⟩ := was row'.id row' is.2 (Table.get?_of_mem present) is.1
  exact ⟨row, Table.mem_of_get? found, under, Table.key_of_get? found⟩

theorem underWay_eq (db : Db)
    : (db.runsInFlight name key none).1 - (db.runsInFlight name key none).2
      = db.underWay name key := by
  have split := @Table.count_and_add_count_and_not _ _ _ db.runs (RunRow.inFlight name key none)
    (fun run => run.queuedAt.isSome ∧ run.admittedAt.isNone) _ _
  have same : db.underWay name key
      = db.runs.count (fun run => RunRow.inFlight name key none run
        ∧ ¬ (run.queuedAt.isSome ∧ run.admittedAt.isNone)) := by
    refine Table.count_congr fun run _ => and_congr_right fun inFlight => ?_
    rw [← Bool.not_eq_true, RunRow.waiting_iff, and_iff_right inFlight.1]
  simp only [Db.runsInFlight]
  omega

theorem Rearmed.underWay_le {ended : RunStatus → Bool} (rearmed : Rearmed ended run before after)
    (declared : ∀ id row, before.run? id = some row → row.definition.name = name →
      row.concurrencyKey = key → capOf row.definition.maxActiveRuns = some cap)
    (within : before.underWay name key ≤ cap)
    : after.underWay name key ≤ cap := by
  rcases rearmed.run? run with same | ⟨row, row', was, is, _, columns, over_, running, waits, _⟩
  · refine (Dagron.Store.underWay_le fun id row' is under => ⟨row', ?_, under⟩).trans within
    rcases rearmed.run? id with same' | ⟨_, _, _, _, rfl, _⟩
    · rwa [← same']
    · rwa [← same]
  by_cases ours : row.definition.name = name ∧ row.concurrencyKey = key
  · obtain ⟨rfl, rfl⟩ := ours
    have room := rearmed.room row was over_ cap (declared run row was rfl rfl)
    refine (Table.count_le_succ run).trans (Nat.lt_iff_add_one_le.mp (lt_of_le_of_lt ?_ room))
    refine Table.count_le_of_keys fun other present is => ⟨other, present, ?_, rfl⟩
    obtain ⟨⟨⟨status, name, key, _⟩, _⟩, apart⟩ := is
    exact ⟨status, name, key, fun same => apart (Option.some_inj.mp same)⟩
  · refine (Dagron.Store.underWay_le fun id row_ is_ under => ?_).trans within
    rcases rearmed.run? id with same' | ⟨_, _, _, is', rfl, _⟩
    · exact ⟨row_, same' ▸ is_, under⟩
    · rw [is] at is_
      cases is_
      obtain ⟨⟨_, name_, key_, _⟩, _⟩ := under
      rw [congrArg RunColumns.definition columns] at name_
      rw [congrArg RunColumns.concurrencyKey columns] at key_
      exact absurd ⟨name_, key_⟩ ours

theorem Db.Capped.of_runs (same : after.runs = before.runs) (capped : before.Capped name key cap)
    : after.Capped name key cap := by
  refine ⟨fun id row found => capped.declared id row ?_, ?_⟩
  · unfold Db.run? at found ⊢
    rwa [← same]
  · have within := capped.within
    unfold Db.underWay at within ⊢
    rwa [same]

theorem RunMoves.was_of_is (steps : RunMoves moves before after) (is : after.run? id = some row')
    : ∃ row, before.run? id = some row ∧ row'.toRunColumns = row.toRunColumns := by
  cases was : before.run? id with
  | none =>
      rw [steps.of_none was] at is
      cases is
  | some row =>
      obtain ⟨_, is', moved⟩ := steps.of_some was
      rw [is] at is'
      cases is'
      exact ⟨row, rfl, moved.columns.1⟩

theorem Db.Capped.moved (capped : before.Capped name key cap) (steps : RunMoves moves before after)
    (within : after.underWay name key ≤ cap)
    : after.Capped name key cap := by
  refine ⟨fun id row' is ofName ofKey => ?_, within⟩
  obtain ⟨row, was, columns⟩ := steps.was_of_is is
  rw [congrArg RunColumns.definition columns] at ofName ⊢
  rw [congrArg RunColumns.concurrencyKey columns] at ofKey
  exact capped.declared id row was ofName ofKey

end Counting

-- Letting in

section LettingIn

variable {name : String} {key : Option String} {cap : Nat} (now : Time) {db : Db}

theorem run?_letIn (db : Db) (waiting : RunRow) (id : Nat)
    : (db.letIn now waiting).run? id
      = (db.run? id).map (fun run =>
        if run.id = waiting.id ∧ run.queued then RunRow.letIn now waiting run else run) := by
  simp only [Db.letIn]
  split
  case isTrue none_ =>
    cases found : db.run? id with
    | none => rfl
    | some run =>
        rw [Option.map_some, if_neg]
        intro met
        refine absurd none_ (Nat.pos_iff_ne_zero.mp (List.countP_pos_iff.mpr ?_))
        exact ⟨run, Table.mem_of_get? found, decide_eq_true met⟩
  case isFalse =>
    rw [Db.run?_updateTasks]
    exact Db.run?_updateRuns id

theorem underWay_letInEach (rows : List RunRow) (running : Nat)
    (declared : ∀ waiting ∈ rows, capOf waiting.definition.maxActiveRuns = some cap)
    (counted : db.underWay name key ≤ running) (within : db.underWay name key ≤ cap)
    : (db.letInEach now rows running).underWay name key ≤ cap := by
  induction rows generalizing db running with
  | nil => exact within
  | cons waiting rest ih =>
      have declares : waiting.definition.maxActiveRuns.filter (fun max => 0 < max) = some cap :=
        declared waiting List.mem_cons_self
      have later : ∀ other ∈ rest, capOf other.definition.maxActiveRuns = some cap :=
        fun other member => declared other (List.mem_cons_of_mem _ member)
      rw [Db.letInEach]
      split
      · exact within
      case isFalse room =>
        simp only [declares, Option.any_some, decide_eq_true_eq, Nat.not_le] at room
        split
        · exact ih running later counted within
        · have more : (db.letIn now waiting).underWay name key ≤ db.underWay name key + 1 := by
            refine underWay_le_succ waiting.id fun id row' apart is under => ⟨row', ?_, under⟩
            rw [run?_letIn] at is
            obtain ⟨row, found, same⟩ := Option.map_eq_some_iff.mp is
            have home : row.id = id := Table.key_of_get? found
            rw [if_neg (fun met => apart (home.symm.trans met.1))] at same
            rwa [← same]
          exact ih (running + 1) later (by omega) (by omega)

theorem letInEach_cases (db : Db) (rows : List RunRow) (running id : Nat)
    : (db.letInEach now rows running).run? id = db.run? id
      ∨ ∃ waiting ∈ rows, waiting.id = id := by
  induction rows generalizing db running with
  | nil => exact .inl rfl
  | cons waiting rest ih =>
      rw [Db.letInEach]
      split
      · exact .inl rfl
      split
      · rcases ih db running with same | ⟨other, member, here⟩
        · exact .inl same
        · exact .inr ⟨other, List.mem_cons_of_mem _ member, here⟩
      rcases ih (db.letIn now waiting) (running + 1) with same | ⟨other, member, here⟩
      · by_cases here : waiting.id = id
        · exact .inr ⟨waiting, List.mem_cons_self, here⟩
        · refine .inl (same.trans ?_)
          rw [run?_letIn]
          cases found : db.run? id with
          | none => rfl
          | some row =>
              have home : row.id = id := Table.key_of_get? found
              rw [Option.map_some, if_neg (fun met => here (met.1.symm.trans home))]
      · exact .inr ⟨other, List.mem_cons_of_mem _ member, here⟩

theorem mem_admissionNext {waiting : RunRow} (member : waiting ∈ db.admissionNext name key)
    : db.run? waiting.id = some waiting ∧ waiting.queued ∧ waiting.definition.name = name
      ∧ waiting.concurrencyKey = key := by
  have selected := (List.mem_insertionSort _).mp (List.mem_of_mem_take member)
  obtain ⟨present, queued, name, key⟩ := Table.mem_select.mp selected
  exact ⟨Table.get?_of_mem present, queued, name, key⟩

theorem Db.Capped.admitKey (capped : db.Capped name key cap) (other : String × Option String)
    : (db.admitKey now other).Capped name key cap := by
  have moves : RunMoves [.letIn] db (db.admitKey now other) := by
    simp only [Db.admitKey]
    exact runMoves_letInEach now db _ _
  refine capped.moved moves ?_
  simp only [Db.admitKey]
  by_cases ours : other = (name, key)
  · subst ours
    refine underWay_letInEach now _ _ (fun waiting member => ?_) (underWay_eq db).ge capped.within
    obtain ⟨found, _, name, key⟩ := mem_admissionNext member
    exact capped.declared waiting.id waiting found name key
  · refine (underWay_le fun id row' is under => ?_).trans capped.within
    rcases letInEach_cases now db (db.admissionNext other.1 other.2) _ id with
      same | ⟨waiting, member, rfl⟩
    · exact ⟨row', same ▸ is, under⟩
    · obtain ⟨found, _, name_, key_⟩ := mem_admissionNext member
      obtain ⟨_, is', moved⟩ := moves.of_some found
      rw [show (db.admitKey now other).run? waiting.id = some row' from is] at is'
      cases is'
      have columns : row'.toRunColumns = waiting.toRunColumns := moved.columns.1
      obtain ⟨⟨_, name, key, _⟩, _⟩ := under
      rw [congrArg RunColumns.definition columns] at name
      rw [congrArg RunColumns.concurrencyKey columns] at key
      refine absurd (Prod.ext ?_ ?_) ours
      · exact name_.symm.trans name
      · exact key_.symm.trans key

theorem Db.Capped.admitWaitingRuns (capped : db.Capped name key cap)
    : (db.admitWaitingRuns now).Capped name key cap :=
  List.foldlRecOn _ _ capped fun _ capped other _ => capped.admitKey now other

end LettingIn

-- The cap

section Cap

variable {env : Env} {name : String} {key : Option String} {cap : Nat} {op : Op}
  {start before after : Db} {world : World}

theorem admissionOf_start {spec : DagSpec} {max active waiting : Nat}
    (starts : admissionOf env spec max active waiting = .start)
    : active < max := by
  simp only [admissionOf] at starts
  by_contra full
  rw [if_neg full] at starts
  split at starts <;> cases starts

theorem weigh_start {now : Time} {spec : DagSpec} {trigger : Option RunTrigger} {run : Nat}
    {db : Db} (starts : (weigh env now spec trigger run db).2 = .start)
    (declared : capOf spec.maxActiveRuns = some cap)
    : ((weigh env now spec trigger run db).1.runsInFlight spec.name spec.concurrencyKey none).1
      < cap := by
  have declared : spec.maxActiveRuns.filter (fun max => 0 < max) = some cap := declared
  simp only [weigh, declared] at starts ⊢
  exact admissionOf_start starts

theorem run?_createRun {now : Time} {submission : Submission}
    (done : Store.createRun env now submission before = .ok after)
    : ∃ dag waits deadlineAt alertDeadlineAt, runGraph before submission = .ok dag
        ∧ (weigh env now dag.spec submission.trigger submission.run before).2
          = (if waits then .wait else .start)
        ∧ after.run? submission.run = some (runRowOf dag submission.trigger submission.run now waits
          deadlineAt alertDeadlineAt)
        ∧ ∀ id, id ≠ submission.run → after.run? id
          = (weigh env now dag.spec submission.trigger submission.run before).1.run? id := by
  obtain ⟨dag, _, row, graph, rfl, ⟨waits, deadlineAt, alertDeadlineAt, rfl, admission⟩,
    inserted⟩ := createRun_ok env now done
  obtain ⟨_, _, runs, _⟩ := insertRun_eq_some inserted
  have read (id : Nat) : after.run? id = _ := (Table.get?_insert runs).2 id
  refine ⟨dag, waits, deadlineAt, alertDeadlineAt, graph, admission, ?_, fun id apart => ?_⟩
  · rw [read]
    exact if_pos rfl
  · rw [read]
    exact if_neg apart

/-- Moves of runs that start none and let none in keep a cap. -/
theorem Db.Capped.stays {moves : List RunMove} (capped : before.Capped name key cap)
    (moved : RunMoves moves before after) (rearms : .rearm ∉ moves) (admits : .letIn ∉ moves)
    : after.Capped name key cap := by
  refine capped.moved moved ((underWay_le fun id row' is under => ?_).trans capped.within)
  obtain ⟨row, was, columns⟩ := moved.was_of_is is
  obtain ⟨_, is', steps⟩ := moved.of_some was
  rw [is] at is'
  cases is'
  refine ⟨row, was, ?_⟩
  rw [RunRow.underWay_iff _ (before.told id)]
  obtain ⟨status, waits, ofName, ofKey⟩ := (RunRow.underWay_iff _ _).mp under
  obtain ⟨status, waits⟩ := steps.underWay rearms admits ⟨status, waits⟩
  rw [congrArg RunColumns.definition columns] at ofName
  rw [congrArg RunColumns.concurrencyKey columns] at ofKey
  exact ⟨status, waits, ofName, ofKey⟩

theorem Db.Capped.createRun {now : Time} {submission : Submission} (capped : before.Capped name key cap)
    (done : Store.createRun env now submission before = .ok after)
    (declares : (Op.createRun now submission).declares name key cap before)
    : after.Capped name key cap := by
  obtain ⟨dag, waits, deadlineAt, alertDeadlineAt, graph, admission, made, others⟩ :=
    run?_createRun done
  have moves := runMoves_weigh env now before dag.spec submission.trigger submission.run
  have declares := declares dag (by rw [graph]; rfl)
  have middle := capped.stays moves (by decide) (by decide)
  have read (id : Nat) {row : RunRow} (is : after.run? id = some row) (apart : id ≠ submission.run)
      : (weigh env now dag.spec submission.trigger submission.run before).1.run? id = some row :=
    (others id apart).symm.trans is
  have new {row : RunRow} (is : after.run? submission.run = some row)
      : row = runRowOf dag submission.trigger submission.run now waits deadlineAt
        alertDeadlineAt :=
    Option.some.inj (is.symm.trans made)
  constructor
  · intro id row is ofName ofKey
    by_cases here : id = submission.run
    · subst here
      rw [new is] at ofName ofKey ⊢
      exact declares ofName ofKey
    · exact middle.declared id row (read id is here) ofName ofKey
  · by_cases starts : waits = false ∧ dag.spec.name = name ∧ dag.spec.concurrencyKey = key
    · obtain ⟨rfl, rfl, rfl⟩ := starts
      have room := weigh_start admission (declares rfl rfl)
      refine (Table.count_le_succ submission.run).trans (Nat.lt_iff_add_one_le.mp (lt_of_le_of_lt ?_ room))
      refine Table.count_le_of_keys fun other present is => ?_
      have found := read other.id (Table.get?_of_mem present) is.2
      exact ⟨other, Table.mem_of_get? found, is.1.1, rfl⟩
    · refine (underWay_le fun id row is under => ⟨row, read id is ?_, under⟩).trans middle.within
      rintro rfl
      rw [new is] at under
      obtain ⟨⟨_, ofName, ofKey, _⟩, waits_⟩ := under
      refine starts ⟨?_, ofName, ofKey⟩
      cases waits with
      | false => rfl
      | true => cases waits_

theorem Writes.capped (writes : Writes env start op before after)
    (capped : before.Capped name key cap) (declares : op.declares name key cap before)
    : after.Capped name key cap := by
  have rearmed {ended : RunStatus → Bool} {run : Nat} {armed : Db}
      (rearmed : Rearmed ended run before armed)
      : armed.Capped name key cap :=
    capped.moved rearmed.runMoves (rearmed.underWay_le capped.declared capped.within)
  have quiet (kept : ∀ now submission, op ≠ .createRun now submission)
      (rearms : .rearm ∉ op.runMoves) (admits : .letIn ∉ op.runMoves)
      : after.Capped name key cap :=
    capped.stays (writes.runMoves_of_kept kept) rearms admits
  cases op with
  | createRun now submission =>
      obtain ⟨rfl, done⟩ := writes.returns rfl
      exact capped.createRun done declares
  | retryTaskFromUi now id who =>
      obtain ⟨rfl, done⟩ := writes.returns rfl
      rcases retryTaskFromUi_ok now done with rfl | ⟨_, retried, _, _, same, armed⟩
      · exact capped
      · have capped := capped.of_runs (show retried.runs = before.runs by rw [same]; rfl)
        exact capped.moved armed.runMoves (armed.underWay_le capped.declared capped.within)
  | rerunFromFailed now run origin who =>
      obtain ⟨rfl, done⟩ := writes.returns rfl
      rcases rerunFromFailed_ok now done with rfl | ⟨armed, armed_, _, _, same, _⟩
      · exact capped
      · exact (rearmed armed_).of_runs same
  | rerunAll now run who =>
      obtain ⟨rfl, done⟩ := writes.returns rfl
      rcases rerunAll_ok now done with rfl | ⟨armed, armed_, _, _, same, _⟩
      · exact capped
      · exact (rearmed armed_).of_runs same
  | clearTaskWithDownstream now run id who =>
      obtain ⟨rfl, done⟩ := writes.returns rfl
      rcases clearTaskWithDownstream_ok now done with rfl | ⟨counted, _, same, armed⟩
      · exact capped
      · have capped := capped.of_runs (show counted.runs = before.runs by rw [same]; rfl)
        exact capped.moved armed.runMoves (armed.underWay_le capped.declared capped.within)
  | admitWaitingRuns now =>
      obtain ⟨rfl, rfl⟩ := writes.single rfl
      exact capped.admitWaitingRuns now
  | _ => exact quiet (by simp) (by simp [Op.runMoves]) (by simp [Op.runMoves])

theorem Db.Capped.empty
    : Db.empty.Capped name key cap where
  declared _ _ found := by cases found
  within := Nat.zero_le _

/-- A cap is one: of a workflow and key whose submissions all declare it, no more runs are under
way, whatever makes, lets in, ends and sets running again runs.
-/
theorem underWay_le_cap
    (reachable : (store env).Reachable (fun op world => op.declares name key cap world.db) world)
    : world.db.underWay name key ≤ cap := by
  let Capped (world : World) : Prop := world.db.Capped name key cap
  have capped : Capped world := by
    refine reachable.invariant (show Capped World.init from .empty) ?_
    intro op origin _ commit member before declares
    exact (writes_of_mem member).capped before declares
  exact capped.within

end Cap

-- Turns

/-- The runs that wait are in the order they were queued in. -/
def RunRow.ahead (first second : RunRow) : Prop :=
  noLater first.queuedAt second.queuedAt
    ∧ (first.queuedAt ≠ second.queuedAt ∨ first.id ≤ second.id)

instance : DecidableRel RunRow.ahead := fun first second =>
  inferInstanceAs (Decidable (noLater first.queuedAt second.queuedAt
    ∧ (first.queuedAt ≠ second.queuedAt ∨ first.id ≤ second.id)))

theorem noLater_total (first second : Option Time)
    : noLater first second = true ∨ noLater second first = true := by
  cases first <;> cases second <;> simp [noLater, le_total]

theorem noLater_trans {first second third : Option Time} (before : noLater first second = true)
    (after : noLater second third = true)
    : noLater first third = true := by
  cases first <;> cases second <;> cases third <;> simp_all [noLater]
  exact before.trans after

theorem noLater_antisymm {first second : Option Time} (before : noLater first second = true)
    (after : noLater second first = true)
    : first = second := by
  cases first <;> cases second <;> simp_all [noLater]
  exact le_antisymm before after

theorem RunRow.ahead_total (first second : RunRow)
    : first.ahead second ∨ second.ahead first := by
  unfold RunRow.ahead
  rcases noLater_total first.queuedAt second.queuedAt with before | after
  · by_cases same : first.queuedAt = second.queuedAt
    · rw [same] at before ⊢
      rcases le_total first.id second.id with le | le
      · exact .inl ⟨before, .inr le⟩
      · exact .inr ⟨before, .inr le⟩
    · exact .inl ⟨before, .inl same⟩
  · by_cases same : second.queuedAt = first.queuedAt
    · rw [same] at after ⊢
      rcases le_total first.id second.id with le | le
      · exact .inl ⟨after, .inr le⟩
      · exact .inr ⟨after, .inr le⟩
    · exact .inr ⟨after, .inl same⟩

theorem RunRow.ahead_trans {first second third : RunRow} (before : first.ahead second)
    (after : second.ahead third)
    : first.ahead third := by
  obtain ⟨le, tie⟩ := before
  obtain ⟨le', tie'⟩ := after
  refine ⟨noLater_trans le le', ?_⟩
  by_cases same : first.queuedAt = third.queuedAt
  · -- all three were queued at once, so their ids decide
    have middle : second.queuedAt = third.queuedAt := by
      refine noLater_antisymm le' ?_
      rw [← same]
      exact le
    rcases tie with apart | id
    · exact absurd (same.trans middle.symm) apart
    · rcases tie' with apart | id'
      · exact absurd middle apart
      · exact .inr (id.trans id')
  · exact .inl same

section Turns

variable {name : String} {key : Option String} (now : Time) {before middle after db : Db}

theorem RunLife.Steps.turn {moves : List RunMove} {before after : RunLife}
    (steps : RunLife.Steps moves before after) (lets : moves ⊆ [.letIn])
    : after.queuedAt = before.queuedAt ∧ after.status = before.status
      ∧ after.stoppingAs = before.stoppingAs
      ∧ (before.admitted = true → after.admitted = true)
      ∧ (after.admitted = true → before.admitted = true ∨ before.stoppingAs = none) := by
  refine steps.rule (fun life => life.queuedAt = before.queuedAt ∧ life.status = before.status
    ∧ life.stoppingAs = before.stoppingAs ∧ (before.admitted = true → life.admitted = true)
    ∧ (life.admitted = true → before.admitted = true ∨ before.stoppingAs = none))
    ⟨rfl, rfl, rfl, id, .inl⟩ ?_
  intro move listed life life' step kept
  obtain rfl := List.mem_singleton.mp (lets listed)
  obtain ⟨queued, status, stopping, _⟩ := kept
  cases step with
  | letIn _ _ _ unasked =>
      exact ⟨queued, status, stopping, fun _ => rfl, fun _ => .inr (stopping ▸ unasked)⟩

theorem RunMoves.queued (moves : RunMoves [.letIn] before after) {id : Nat} {row' : RunRow}
    (is : after.run? id = some row') (queued : row'.queued)
    : ∃ row, before.run? id = some row ∧ row.queued ∧ row'.queuedAt = row.queuedAt
      ∧ row'.toRunColumns = row.toRunColumns := by
  obtain ⟨row, was, columns⟩ := moves.was_of_is is
  obtain ⟨_, is', steps⟩ := moves.of_some was
  rw [is] at is'
  cases is'
  obtain ⟨since, status, stopping, admitted, _⟩ := steps.turn (List.Subset.refl _)
  have since : row'.queuedAt = row.queuedAt := since
  have status : row'.status = row.status := status
  have stopping : row'.stoppingAs = row.stoppingAs := stopping
  obtain ⟨running, unasked, waits, unadmitted⟩ := queued
  refine ⟨row, was, ⟨status ▸ running, stopping ▸ unasked, since ▸ waits, ?_⟩, since, columns⟩
  cases there : row.admittedAt with
  | none => rfl
  | some time =>
      have still : row'.admittedAt.isSome := admitted (by simp [RunRow.life, there])
      rw [Option.isNone_iff_eq_none.mp unadmitted] at still
      cases still

/-- Runs of a workflow and key are let in in their turn: none that goes on waiting was queued
before one that is let in.
-/
def InTurn (name : String) (key : Option String) (before after : Db) : Prop :=
  ∀ id row row', before.run? id = some row → after.run? id = some row' → row.queued →
    ¬ row'.queued → row.definition.name = name → row.concurrencyKey = key →
    ∀ other first last, before.run? other = some first → after.run? other = some last →
      last.queued → first.definition.name = name → first.concurrencyKey = key →
      noLater row.queuedAt first.queuedAt = true

theorem InTurn.refl (db : Db)
    : InTurn name key db db := by
  intro id row row' was is queued left
  rw [was] at is
  cases is
  exact absurd queued left

theorem InTurn.trans (first : InTurn name key before middle) (second : InTurn name key middle after)
    (moves : RunMoves [.letIn] before middle) (moves' : RunMoves [.letIn] middle after)
    : InTurn name key before after := by
  intro id row row' was is queued left ofName ofKey other waiter last found is_ waits ofName_ ofKey_
  obtain ⟨waiter', found', waits', since', columns'⟩ := moves'.queued is_ waits
  obtain ⟨waiter_, found_, _, since, columns⟩ := moves.queued found' waits'
  rw [found] at found_
  cases found_
  obtain ⟨row_, is', _⟩ := moves.of_some was
  by_cases still : row_.queued
  · obtain ⟨row_', was', _, since_, columns_⟩ := moves.queued is' still
    rw [was] at was'
    cases was'
    rw [← since_, ← since]
    refine second id row_ row' is' is still left ?_ ?_ other waiter' last found' is_ waits ?_ ?_
    · rw [congrArg RunColumns.definition columns_, ofName]
    · rw [congrArg RunColumns.concurrencyKey columns_, ofKey]
    · rw [congrArg RunColumns.definition columns, ofName_]
    · rw [congrArg RunColumns.concurrencyKey columns, ofKey_]
  · exact first id row row_ was is' queued still ofName ofKey other waiter waiter' found found'
      waits' ofName_ ofKey_

theorem inTurn_letInEach (rows : List RunRow) (running : Nat) (db : Db)
    (sorted : rows.Pairwise RunRow.ahead) (distinct : (rows.map (fun row => row.id)).Nodup)
    (there : ∀ row ∈ rows, db.run? row.id = some row ∧ row.queued) {id : Nat} {row row' : RunRow}
    (was : db.run? id = some row) (is : (db.letInEach now rows running).run? id = some row')
    (queued : row.queued) (left : ¬ row'.queued)
    : row ∈ rows ∧ ∀ other ∈ rows, ∀ last, (db.letInEach now rows running).run? other.id = some last →
        last.queued → row.ahead other := by
  have same (still : db.run? id = some row') : False := by
    rw [was] at still
    cases still
    exact left queued
  induction rows generalizing db running with
  | nil => exact (same is).elim
  | cons waiting rest ih =>
      obtain ⟨aheadOf, sorted⟩ := List.pairwise_cons.mp sorted
      obtain ⟨apart, distinct⟩ := List.nodup_cons.mp distinct
      obtain ⟨found, waits⟩ := there waiting List.mem_cons_self
      rw [Db.letInEach] at is ⊢
      split at is
      · exact (same is).elim
      case isFalse room =>
      rw [if_neg room]
      split at is
      case isTrue none_ =>
        refine absurd none_ (Nat.pos_iff_ne_zero.mp (List.countP_pos_iff.mpr ?_))
        exact ⟨waiting, Table.mem_of_get? found, decide_eq_true ⟨rfl, waits⟩⟩
      case isFalse some_ =>
      rw [if_neg some_]
      -- the first of the rows is let in, and waits no more whatever else is
      have moved : RunMoves [.letIn] (db.letIn now waiting)
          ((db.letIn now waiting).letInEach now rest (running + 1)) :=
        runMoves_letInEach now _ _ _
      have first : (db.letIn now waiting).run? waiting.id
          = some (RunRow.letIn now waiting waiting) := by
        rw [run?_letIn, found, Option.map_some, if_pos ⟨rfl, waits⟩]
      have gone {last : RunRow}
          (is : ((db.letIn now waiting).letInEach now rest (running + 1)).run? waiting.id = some last)
          : ¬ last.queued := by
        intro waits
        obtain ⟨_, there, still, _⟩ := moved.queued is waits
        rw [first] at there
        cases there
        cases still.2.2.2
      have others {other : Nat} (apart : other ≠ waiting.id)
          : (db.letIn now waiting).run? other = db.run? other := by
        rw [run?_letIn]
        cases there : db.run? other with
        | none => rfl
        | some row =>
            have home : row.id = other := Table.key_of_get? there
            rw [Option.map_some, if_neg (fun met => apart (home.symm.trans met.1))]
      by_cases here : id = waiting.id
      · subst here
        rw [found] at was
        cases was
        refine ⟨List.mem_cons_self, fun other member last is_ waits_ => ?_⟩
        rcases List.mem_cons.mp member with rfl | later
        · exact absurd waits_ (gone is_)
        · exact aheadOf other later
      · have there' : ∀ row ∈ rest, (db.letIn now waiting).run? row.id = some row ∧ row.queued := by
          intro row member
          have other : row.id ≠ waiting.id := fun same =>
            apart (List.mem_map.mpr ⟨row, member, same⟩)
          rw [others other]
          exact there row (List.mem_cons_of_mem _ member)
        obtain ⟨listed, before⟩ := ih (running + 1) (db.letIn now waiting) sorted distinct there'
          ((others here).trans was) is (fun still => same ((others here).symm.trans still))
        refine ⟨List.mem_cons_of_mem _ listed, fun other member last is_ waits_ => ?_⟩
        rcases List.mem_cons.mp member with rfl | later
        · exact absurd waits_ (gone is_)
        · exact before other later last is_ waits_

theorem inTurn_admitKey (db : Db) (other : String × Option String)
    : InTurn name key db (db.admitKey now other) := by
  intro id row row' was is queued left ofName ofKey id_ first last found is_ waits ofName_ ofKey_
  have moves : RunMoves [.letIn] db (db.admitKey now other) := by
    simp only [Db.admitKey]
    exact runMoves_letInEach now db _ _
  let waiters := (db.runs.select (fun run => run.queued ∧ run.definition.name = other.1
    ∧ run.concurrencyKey = other.2)).insertionSort (fun first second =>
      noLater first.queuedAt second.queuedAt
        ∧ (first.queuedAt ≠ second.queuedAt ∨ first.id ≤ second.id))
  have all : waiters.Pairwise RunRow.ahead := by
    have : Std.Total RunRow.ahead := ⟨RunRow.ahead_total⟩
    have : IsTrans RunRow RunRow.ahead := ⟨fun _ _ _ => RunRow.ahead_trans⟩
    exact List.pairwise_insertionSort RunRow.ahead _
  have next : db.admissionNext other.1 other.2 = waiters.take admitAtOnce := rfl
  have split := List.take_append_drop admitAtOnce waiters
  rw [← split, List.pairwise_append] at all
  obtain ⟨sorted, _, across⟩ := all
  have distinct : ((waiters.take admitAtOnce).map (fun row => row.id)).Nodup := by
    have perm : (waiters.map (fun row => row.id)).Perm
        ((db.runs.select (fun run => run.queued ∧ run.definition.name = other.1
          ∧ run.concurrencyKey = other.2)).map (fun row => row.id)) :=
      (List.perm_insertionSort _ _).map _
    have whole : (waiters.map (fun row => row.id)).Nodup :=
      perm.nodup_iff.mpr db.runs.nodup_keys
    exact ((List.take_sublist _ _).map _).nodup whole
  obtain ⟨listed, before⟩ := inTurn_letInEach now (waiters.take admitAtOnce) _ db sorted distinct
    (fun waiting member => ⟨(mem_admissionNext member).1, (mem_admissionNext member).2.1⟩)
    was is queued left
  obtain ⟨_, _, name_, key_⟩ := mem_admissionNext listed
  obtain ⟨first_, found_, waits_, since, columns⟩ := moves.queued is_ waits
  rw [found] at found_
  cases found_
  have among : first ∈ waiters := by
    refine (List.mem_insertionSort _).mpr (Table.mem_select.mpr ⟨Table.mem_of_get? found, waits_, ?_, ?_⟩)
    · exact ofName_.trans (ofName.symm.trans name_)
    · exact ofKey_.trans (ofKey.symm.trans key_)
  rw [← split] at among
  have home : first.id = id_ := Table.key_of_get? found
  rcases List.mem_append.mp among with early | late
  · exact (before first early last (home ▸ is_) waits).1
  · exact (across row listed first late).1

theorem inTurn_admitWaitingRuns (db : Db)
    : InTurn name key db (db.admitWaitingRuns now) := by
  have moves (db : Db) (other : String × Option String)
      : RunMoves [.letIn] db (db.admitKey now other) := by
    simp only [Db.admitKey]
    exact runMoves_letInEach now db _ _
  have each (keys : List (String × Option String)) (db : Db)
      : InTurn name key db (keys.foldl (fun db key => db.admitKey now key) db) := by
    induction keys generalizing db with
    | nil => exact .refl db
    | cons first rest ih =>
        exact (inTurn_admitKey now db first).trans (ih _) (moves db first)
          (.foldl (fun db other => moves db other) _)
  exact each _ db

/-- Whether the run that an operation makes, if it is of a workflow and key, waits its turn at the
cap.
-/
def Op.queuesUp (name : String) (key : Option String) (cap : Nat) (db : Db) : Op → Prop
  | .createRun _ submission => ∀ dag ∈ (runGraph db submission).toOption,
      dag.spec.name = name → dag.spec.concurrencyKey = key →
        capOf dag.spec.maxActiveRuns = some cap ∧ dag.spec.whenFull = some .queue
  | _ => True

instance (name : String) (key : Option String) (cap : Nat) (db : Db) (op : Op)
    : Decidable (op.queuesUp name key cap db) := by
  induction op using Op.casesOn <;> dsimp only [Op.queuesUp] <;> infer_instance

/-- Whether the run that an operation makes, if it is of a workflow and key, finds no run of it
waiting, or as many in flight as the cap.
-/
def Op.findsTurn (name : String) (key : Option String) (cap : Nat) (db : Db) : Op → Prop
  | .createRun _ submission => ∀ dag ∈ (runGraph db submission).toOption,
      dag.spec.name = name → dag.spec.concurrencyKey = key →
        cap ≤ (db.runsInFlight name key none).1
          ∨ ∀ run ∈ db.runs.rows, run.queued → run.definition.name = name →
            run.concurrencyKey ≠ key
  | _ => True

instance (name : String) (key : Option String) (cap : Nat) (db : Db) (op : Op)
    : Decidable (op.findsTurn name key cap db) := by
  induction op using Op.casesOn <;> dsimp only [Op.findsTurn] <;> infer_instance

/-- How a commit starts runs of a workflow and key: what it makes that does not wait, and what it
lets in, was made no later than any run of it that waits on.
-/
def StartsInTurn (name : String) (key : Option String) (commit : Commit World Op) : Prop :=
  ∀ id row', commit.after.db.run? id = some row' → row'.underWay name key →
    (∀ row, commit.before.db.run? id = some row → row.waiting = true) →
    ∀ other waiter, commit.after.db.run? other = some waiter → waiter.queued →
      waiter.definition.name = name → waiter.concurrencyKey = key →
      row'.createdAt ≤ waiter.createdAt

def Db.QueuesAtOnce (db : Db) : Prop :=
  ∀ id row, db.run? id = some row → ∀ since ∈ row.queuedAt, since = row.createdAt

section Starts

variable {env : Env} {op : Op} {start : Db} {cap : Nat} {world : World}
  {commit : Commit World Op}

theorem Writes.queuesAtOnce (writes : Writes env start op before after) (queues : before.QueuesAtOnce)
    : after.QueuesAtOnce := by
  intro id row' is
  cases was : before.run? id with
  | none =>
      obtain ⟨now, submission, dag, waits, _, _, _, _, _, rfl, _⟩ := writes.made_run was is
      intro since queued
      cases waits with
      | false => cases queued
      | true => exact (Option.some.inj queued).symm
  | some row =>
      obtain ⟨_, is', steps⟩ := writes.runMoves was
      rw [is] at is'
      cases is'
      have kept : ∀ since ∈ (row'.life (after.told id)).queuedAt,
          since = row.createdAt := by
        refine steps.rule (fun life => ∀ since ∈ life.queuedAt, since = row.createdAt)
          (queues id row was) ?_
        intro move _ life life' step kept
        cases step with
        | ask | finish | reap | letIn => exact kept
        | rearm =>
            intro since queued
            dsimp only at queued
            split at queued
            · exact kept since queued
            · cases queued
      have columns : row'.toRunColumns = row.toRunColumns := steps.columns.1
      rw [congrArg RunColumns.createdAt columns]
      exact kept

theorem Writes.lets_in (writes : Writes env start op before after) {id : Nat} {row row' : RunRow}
    (was : before.run? id = some row) (is : after.run? id = some row') (waits : row.waiting = true)
    (under : row'.underWay name key)
    : .letIn ∈ op.runMoves := by
  by_contra shut
  obtain ⟨_, is', steps⟩ := writes.runMoves was
  rw [is] at is'
  cases is'
  obtain ⟨status, free, _⟩ := (RunRow.underWay_iff row' (after.told id)).mp under
  by_cases quiet : .rearm ∈ op.runMoves
  · have alone : op.runMoves = [.rearm] := by
      cases op <;> simp [Op.runMoves] at quiet ⊢
    have kept : (row'.life (after.told id)).waiting = true := by
      refine steps.rule (fun life => life.waiting = true) (by simpa using waits) ?_
      intro move listed life life' step waits
      rw [alone, List.mem_singleton] at listed
      subst listed
      cases step with
      | rearm over_ =>
          have running : life.status = .running := (of_decide_eq_true waits).1
          rw [running] at over_
          cases over_
    rw [free] at kept
    cases kept
  · have free : (row.life (before.told id)).waiting = false :=
      (steps.underWay quiet shut ⟨status, free⟩).2
    rw [RunRow.waiting_life, waits] at free
    cases free

theorem createRun_in_turn {now : Time} {submission : Submission}
    (done : Store.createRun env now submission before = .ok after)
    (queues : (Op.createRun now submission).queuesUp name key cap before)
    (turn : (Op.createRun now submission).findsTurn name key cap before) {row' waiter : RunRow}
    (is : after.run? submission.run = some row') (under : row'.underWay name key) {other : Nat}
    (found : after.run? other = some waiter) (waits : waiter.queued)
    : waiter.definition.name = name → waiter.concurrencyKey ≠ key := by
  obtain ⟨dag, waits_, deadlineAt, alertDeadlineAt, graph, admission, made, others⟩ :=
    run?_createRun done
  rw [is] at made
  cases made
  obtain ⟨⟨_, rfl, rfl, _⟩, free⟩ := under
  have starts : waits_ = false := by
    cases waits_ with
    | false => rfl
    | true => cases free
  subst starts
  obtain ⟨declared, queue⟩ := queues dag (by rw [graph]; rfl) rfl rfl
  have weighed : (weigh env now dag.spec submission.trigger submission.run before).1 = before := by
    have declared : dag.spec.maxActiveRuns.filter (fun max => 0 < max) = some cap := declared
    simp only [weigh, declared, queue]
    rfl
  have room := weigh_start admission declared
  rw [weighed] at room others
  rcases turn dag (by rw [graph]; rfl) rfl rfl with full | none_
  · exact absurd room (Nat.not_lt.mpr full)
  · by_cases here : other = submission.run
    · subst here
      rw [is] at found
      cases found
      cases waits.2.2.1
    · rw [others other here] at found
      exact none_ waiter (Table.mem_of_get? found) waits

theorem starts_in_turn_of_mem (member : commit ∈ commitsFrom op world ((store env).commits op world))
    (queued : commit.before.db.QueuesAtOnce) (queues : op.queuesUp name key cap commit.before.db)
    (turn : op.findsTurn name key cap commit.before.db)
    : StartsInTurn name key commit := by
  intro id row' is under waits other waiter found waits_ ofName ofKey
  have writes := writes_of_mem member
  cases was : commit.before.db.run? id with
  | none =>
      obtain ⟨now, submission, _, _, _, _, rfl, rfl, _⟩ := writes.made_run was is
      obtain ⟨start, done⟩ := writes.returns rfl
      rw [← start] at done
      exact absurd ofKey (createRun_in_turn done queues turn is under found waits_ ofName)
  | some row =>
      have waits := waits row was
      have lets := writes.lets_in was is waits under
      have admits : ∃ now, op = .admitWaitingRuns now := by
        cases op with
        | admitWaitingRuns now => exact ⟨now, rfl⟩
        | _ => simp [Op.runMoves] at lets
      obtain ⟨now, rfl⟩ := admits
      obtain ⟨start, done⟩ := writes.single rfl
      rw [← start] at done
      have moves := runMoves_admitWaitingRuns now commit.before.db
      rw [← done] at moves
      obtain ⟨_, is', steps⟩ := moves.of_some was
      rw [is] at is'
      cases is'
      obtain ⟨since, status, stopping, _, admitted⟩ := steps.turn (List.Subset.refl _)
      obtain ⟨running, queuedAt, unadmitted⟩ := (RunRow.waiting_iff row).mp waits
      have left : ¬ row'.queued := by
        intro still
        have waits : row'.waiting = true := (RunRow.waiting_iff row').mpr ⟨still.1, still.2.2⟩
        rw [under.2] at waits
        cases waits
      have let_in : row'.admittedAt.isSome := by
        by_contra none_
        have waits : row'.waiting = true := by
          refine (RunRow.waiting_iff row').mpr ⟨under.1.1, ?_, ?_⟩
          · rwa [show row'.queuedAt = row.queuedAt from since]
          · rwa [Option.isNone_iff_eq_none, ← Option.not_isSome_iff_eq_none]
        rw [under.2] at waits
        cases waits
      have unasked : row.stoppingAs = none := by
        refine (admitted let_in).resolve_left ?_
        intro already
        rw [show (row.life (commit.before.db.told id)).admitted = row.admittedAt.isSome from rfl,
          Option.isNone_iff_eq_none.mp unadmitted] at already
        cases already
      obtain ⟨waiter_, found_, waited, since_, columns_⟩ := moves.queued found waits_
      have columns : row'.toRunColumns = row.toRunColumns := steps.columns.1
      have sorted : InTurn name key commit.before.db (commit.before.db.admitWaitingRuns now) :=
        inTurn_admitWaitingRuns now _
      rw [← done] at sorted
      obtain ⟨⟨_, name_, key_, _⟩, _⟩ := under
      have order := sorted id row row' was is ⟨running, by rw [unasked]; rfl, queuedAt, unadmitted⟩
        left (by rw [← congrArg RunColumns.definition columns, name_])
        (by rw [← congrArg RunColumns.concurrencyKey columns, key_]) other waiter_ waiter found_
        found waits_ (by rw [← congrArg RunColumns.definition columns_, ofName])
        (by rw [← congrArg RunColumns.concurrencyKey columns_, ofKey])
      obtain ⟨first, at_⟩ := Option.isSome_iff_exists.mp queuedAt
      obtain ⟨second, at_'⟩ := Option.isSome_iff_exists.mp waited.2.2.1
      have first_ := queued id row was first at_
      have second_ := queued other waiter_ found_ second at_'
      rw [at_, at_', first_, second_] at order
      rw [congrArg RunColumns.createdAt columns, congrArg RunColumns.createdAt columns_]
      exact of_decide_eq_true order

/-- Runs that queue up are started in their turn, where each that is made finds no run waiting or
no room: none starts while one that was made before it waits.
-/
theorem starts_in_turn {commits : List (Commit World Op)}
    (history : (store env).History (fun op world => op.queuesUp name key cap world.db
      ∧ op.findsTurn name key cap world.db) .init commits world)
    : ∀ commit ∈ commits, StartsInTurn name key commit := by
  let Queues (world : World) : Prop := world.db.QueuesAtOnce
  have whole : Queues world ∧ ∀ commit ∈ commits, Queues commit.before ∧ Queues commit.after
      ∧ StartsInTurn name key commit := by
    refine history.rule (fun _ _ found => by cases found) ?_
    intro op origin _ commit member queued allowed
    obtain ⟨queues, turn⟩ := allowed
    exact ⟨(writes_of_mem member).queuesAtOnce queued,
      starts_in_turn_of_mem member queued queues turn⟩
  exact fun commit member => (whole.2 commit member).2.2

end Starts

end Turns

/-- One task, of which two runs at most are under way; the others wait. -/
def queuedReport : DagGraph where
  spec := {
    name := "nightly"
    maxActiveRuns := some 2
    whenFull := some .queue
    tasks := [{ name := "report" }]
  }
  parameters := []
  wellFormed := by
    refine ⟨by decide, by decide, by decide, ?_, by decide, by decide, by decide⟩
    exact ⟨fun _ => 0, by decide⟩

/-- Three runs are made, and the third waits; the first is cancelled, and the third let in. -/
def reportsQueued : List Op :=
  [.createRun 0 (submit queuedReport 0), .createRun 1 (submit queuedReport 1),
    .createRun 2 (submit queuedReport 2), .cancelRun 3 0, .admitWaitingRuns 4]

/-- Two of the runs are under way. -/
theorem underWay_le_cap_reportsQueued
    : ((store plainEnv).outcome .init reportsQueued).db.underWay "nightly" none ≤ 2 := by
  have reached : (store plainEnv).Reachable
      (fun op world => op.declares "nightly" none 2 world.db)
      ((store plainEnv).outcome .init reportsQueued) := .outcome (by decide)
  exact underWay_le_cap reached

/-- Both runs under way are cancelled, and a fourth is made before the third is let in. -/
def reportsPassed : List Op :=
  [.createRun 0 (submit queuedReport 0), .createRun 1 (submit queuedReport 1),
    .createRun 2 (submit queuedReport 2), .cancelRun 3 0, .cancelRun 4 1,
    .createRun 5 (submit queuedReport 3)]

/-- The third run was let in in its turn. -/
theorem starts_in_turn_reportsQueued
    : (store plainEnv).Permits (fun op world => op.queuesUp "nightly" none 2 world.db
        ∧ op.findsTurn "nightly" none 2 world.db) .init reportsQueued
      ∧ ∀ commit ∈ (store plainEnv).trace .init reportsQueued,
        StartsInTurn "nightly" none commit := by
  have permits : (store plainEnv).Permits (fun op world => op.queuesUp "nightly" none 2 world.db
      ∧ op.findsTurn "nightly" none 2 world.db) .init reportsQueued := by
    decide
  have history : (store plainEnv).History
      (fun op world => op.queuesUp "nightly" none 2 world.db
        ∧ op.findsTurn "nightly" none 2 world.db) .init
      ([] ++ (store plainEnv).trace .init reportsQueued)
      ((store plainEnv).outcome .init reportsQueued) :=
    .whole .start permits
  exact ⟨permits, starts_in_turn history⟩

/-- A run may start before its turn: one that is made once fewer are in flight than the cap starts
though an earlier one waits.
-/
theorem not_starts_in_turn
    : ¬ ∀ commits world, (store plainEnv).History
          (fun op world => op.queuesUp "nightly" none 2 world.db) .init commits world →
        ∀ commit ∈ commits, StartsInTurn "nightly" none commit := by
  intro inTurn
  let trace := (store plainEnv).trace .init reportsPassed
  have history : (store plainEnv).History (fun op world => op.queuesUp "nightly" none 2 world.db)
      .init ([] ++ trace) ((store plainEnv).outcome .init reportsPassed) :=
    .whole .start (by decide)
  let last := trace.getLast (by decide)
  have absent : last.before.db.run? 3 = none := by decide
  have early := inTurn _ _ history last (List.getLast_mem _) 3
    ((last.after.db.run? 3).get (by decide)) (Option.some_get _).symm (by decide)
    (fun row found => by rw [absent] at found; cases found) 2
    ((last.after.db.run? 2).get (by decide)) (Option.some_get _).symm (by decide) (by decide)
    (by decide)
  revert early
  decide

end Dagron.Store
