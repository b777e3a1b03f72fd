import Dagron.Store.Admission
import Dagron.Store.Transacted

/-! What a run that takes the place of others does to them: it cancels those alone of its
workflow, key and, where it is not trusted, source; it does nothing to any where it is refused;
and none whose place it took starts a task again before it is put back.
-/

namespace Dagron.Store

open Dagron.Library Dagron.Spec

-- Rivals

/-- Where what started a run came from: the forge, the repository, the pull request and the
ref.
-/
structure Origin where
  forgeHost
    : Option String
  repo
    : Option String
  pr
    : Option Int
  gitRef
    : Option String
  deriving DecidableEq

def originOf (trigger : RunTrigger) : Origin :=
  ⟨trigger.forgeHost, trigger.repo, trigger.pr, trigger.gitRef⟩

namespace Submission

def untrusted (submission : Submission) : Prop :=
  confined (classOf submission.trigger) = true

def key (submission : Submission) : Option String :=
  if confined (classOf submission.trigger) then heldKey submission.dag.spec
  else submission.dag.spec.concurrencyKey

/-- Whether a submission's run takes the place of those before it at its workflow's cap. -/
def supersedes (submission : Submission) : Prop :=
  submission.dag.spec.whenFull = some .supersede
    ∧ ∃ max ∈ submission.dag.spec.maxActiveRuns, 0 < max

instance (submission : Submission) : Decidable submission.supersedes := by
  unfold supersedes
  infer_instance

/-- A run whose place a submission's run may take: one of its workflow and key, and of its own
source where it is not trusted.
-/
structure Rivals (submission : Submission) (older : RunRow) : Prop where
  name
    : older.definition.name = submission.dag.spec.name
  key
    : older.concurrencyKey = submission.key
  origin
    : submission.untrusted → older.trigger.map originOf = submission.trigger.map originOf

end Submission

def RunRow.unasked (run : RunRow) : Prop :=
  run.status = .running ∧ run.stoppingAs = none

/-- Whether a run can start no task: each of its tasks has ended, or is held by a worker that was
asked to stop it.
-/
def Db.Retired (db : Db) (run : Nat) : Prop :=
  ∀ id task, db.task? id = some task → task.runId = run → task.life.Closed

/-- Whether a run is of another source than a submission that is not trusted. -/
def Submission.Outside (submission : Submission) (older : RunRow) : Prop :=
  submission.untrusted ∧ older.trigger.map originOf ≠ submission.trigger.map originOf

/-- What the making of a submission's run does to the runs that were there: each is left, with
its tasks, but for rivals of it that ran and were not being stopped.
-/
def Confines (submission : Submission) (before after : Db) : Prop :=
  ∀ id, id ≠ submission.run → before.Leaves after id
    ∨ ∃ older, before.run? id = some older ∧ older.unasked ∧ submission.Rivals older

section Graphs

variable {db : Db} {submission : Submission} {dag : DagGraph}

/-- The graph a run is made of keeps its workflow's name, policy and cap, and has the key the run
is counted under.
-/
theorem runGraph_spec (graph : runGraph db submission = .ok dag)
    : dag.spec.name = submission.dag.spec.name
      ∧ dag.spec.concurrencyKey = submission.key
      ∧ dag.spec.whenFull = submission.dag.spec.whenFull
      ∧ dag.spec.maxActiveRuns = submission.dag.spec.maxActiveRuns := by
  have gates {first second : DagGraph} (ok : gated db.policyOf first submission.trigger = .ok second)
      : second.spec.name = first.spec.name
        ∧ second.spec.concurrencyKey = first.spec.concurrencyKey
        ∧ second.spec.whenFull = first.spec.whenFull
        ∧ second.spec.maxActiveRuns = first.spec.maxActiveRuns := by
    unfold gated at ok
    dsimp only at ok
    split at ok
    · cases ok
      exact ⟨rfl, rfl, rfl, rfl⟩
    · split at ok
      · cases ok
      case h_2 graph made =>
        cases ok
        rw [DagGraph.fromSpec_spec made]
        exact ⟨rfl, rfl, rfl, rfl⟩
  have holds {spec : DagSpec} (ok : hold submission.dag.spec (classOf submission.trigger) = .ok spec)
      : spec.name = submission.dag.spec.name ∧ spec.concurrencyKey = submission.key
        ∧ spec.whenFull = submission.dag.spec.whenFull
        ∧ spec.maxActiveRuns = submission.dag.spec.maxActiveRuns := by
    unfold hold at ok
    unfold Submission.key
    split at ok
    case isTrue confined =>
      split at ok
      · cases ok
      · cases ok
        exact ⟨rfl, (if_pos confined).symm, rfl, rfl⟩
    case isFalse trusts =>
      cases ok
      exact ⟨rfl, (if_neg trusts).symm, rfl, rfl⟩
  unfold runGraph at graph
  split at graph
  · cases graph
  case h_2 middle held_ =>
    split at graph
    · cases graph
    case h_2 made =>
      cases graph
      obtain ⟨name, key, policy, cap⟩ := gates made
      obtain ⟨name', key', policy', cap'⟩ := holds (held_spec held_)
      exact ⟨name.trans name', key.trans key', policy.trans policy', cap.trans cap'⟩

theorem superseded_iff (graph : runGraph db submission = .ok dag) (older : RunRow)
    : older.superseded dag.spec.name dag.spec.concurrencyKey (ownSource submission.trigger)
      ↔ older.unasked ∧ submission.Rivals older := by
  obtain ⟨name, key, _, _⟩ := runGraph_spec graph
  rw [name, key]
  have source : (ownSource submission.trigger).all (fun own => older.trigger.any (fun trigger =>
        trigger.forgeHost = own.forgeHost ∧ trigger.repo = own.repo ∧ trigger.pr = own.pr
          ∧ trigger.gitRef = own.gitRef)) = true
      ↔ (submission.untrusted → older.trigger.map originOf = submission.trigger.map originOf) := by
    unfold ownSource Submission.untrusted
    cases submission.trigger with
    | none => simp [classOf, confined]
    | some own =>
        by_cases free : confined (classOf (some own)) = true
        · cases older.trigger <;> simp [free, originOf]
        · simp [free]
  unfold RunRow.superseded RunRow.unasked
  constructor
  · rintro ⟨running, unasked, ofName, ofKey, own⟩
    exact ⟨⟨running, Option.isNone_iff_eq_none.mp unasked⟩, ofName, ofKey, source.mp own⟩
  · rintro ⟨⟨running, unasked⟩, ofName, ofKey, own⟩
    exact ⟨running, Option.isNone_iff_eq_none.mpr unasked, ofName, ofKey, source.mpr own⟩

end Graphs

-- Superseding

section Superseding

variable (env : Env) (now : Time) {db : Db} {newer older id : Nat}

theorem leaves_supersedeRun (db : Db) (newer : Nat) (apart : id ≠ older)
    : db.Leaves (db.supersedeRun env now newer older) id := by
  unfold Db.supersedeRun
  split
  · exact .refl db id
  · exact leaves_askedRun env now (fun _ met => met.1) apart

theorem asked_askedRun {cond : RunRow → Prop} [DecidablePred cond] {set : RunRow → RunRow}
    {keeps : ∀ row, (set row).toRunColumns = row.toRunColumns} {target : RunStatus}
    (only : ∀ row, cond row → row.id = older) (asks : ∀ row, (set row).stoppingAs = some target)
    (ends : target ≠ .running) (due : ∃ row, db.run? older = some row ∧ cond row) {row' : RunRow}
    (found : (((db.updateRuns cond set keeps).stopRunTasks env now older).finishStoppedRun now
      older).run? older = some row')
    : ¬ row'.unasked := by
  obtain ⟨row, was, met⟩ := due
  obtain ⟨_, _, read⟩ := @run?_updateRun older db cond _ set keeps only
  have asked {row_ : RunRow}
      (there : ((db.updateRuns cond set keeps).stopRunTasks env now older).run? older = some row_)
      : row_.stoppingAs = some target := by
    obtain ⟨before, was', rfl⟩ := read row_ there
    obtain rfl := Option.some.inj (was.symm.trans was')
    rw [if_pos met]
    exact asks row
  rintro ⟨running, unasked⟩
  rcases run?_finishStoppedRun_eq now older
      ((db.updateRuns cond set keeps).stopRunTasks env now older) older with
    same | ⟨row_, status, _, there, _, target_, ended⟩
  · rw [asked (same.symm.trans found)] at unasked
    cases unasked
  · obtain rfl := Option.some.inj (ended.symm.trans found)
    obtain rfl := Option.some.inj ((asked there).symm.trans target_)
    exact ends running

theorem asked_supersedeRun {row : RunRow}
    (found : (db.supersedeRun env now newer older).run? older = some row)
    : ¬ row.unasked := by
  unfold Db.supersedeRun at found
  split at found
  case isTrue none_ =>
    rintro ⟨running, unasked⟩
    refine List.countP_eq_zero.mp none_ row (Table.mem_of_get? found) ?_
    exact decide_eq_true ⟨Table.key_of_get? found, running, Option.isNone_iff_eq_none.mpr unasked⟩
  case isFalse some_ =>
    obtain ⟨before, member, met⟩ := List.countP_pos_iff.mp (Nat.pos_of_ne_zero some_)
    have met := of_decide_eq_true met
    have was : db.run? older = some before := met.1 ▸ Table.get?_of_mem member
    have ends : RunStatus.cancelled ≠ .running := (by rintro ⟨⟩)
    exact asked_askedRun env now (fun _ met => met.1) (fun _ => rfl) ends ⟨before, was, met⟩ found

/-- Cancelling runs one after the other leaves the others, and each of them has ended or is being
stopped after it, by induction over them.
-/
theorem supersedeEach (runs : List Nat) (db : Db)
    : (id ∉ runs → db.Leaves (runs.foldl (fun db older => db.supersedeRun env now newer older) db) id)
      ∧ ((id ∈ runs ∨ ∀ row, db.run? id = some row → ¬ row.unasked) →
        ∀ row, (runs.foldl (fun db older => db.supersedeRun env now newer older) db).run? id
          = some row → ¬ row.unasked) := by
  induction runs generalizing db with
  | nil =>
      refine ⟨fun _ => .refl db id, fun due row found => ?_⟩
      rcases due with among | asked
      · cases among
      · exact asked row found
  | cons older rest ih =>
      obtain ⟨leave, ask⟩ := ih (db.supersedeRun env now newer older)
      refine ⟨fun none_ => ?_, fun due => ?_⟩
      · obtain ⟨apart, none_⟩ := not_or.mp (mt List.mem_cons.mpr none_)
        exact (leaves_supersedeRun env now db newer apart).trans (leave none_)
      · apply ask
        by_cases here : id = older
        · subst here
          exact .inr (fun row found => asked_supersedeRun env now found)
        · refine due.imp (fun among => (List.mem_cons.mp among).resolve_left here) ?_
          intro asked row found
          rw [(leaves_supersedeRun env now db newer here).run?] at found
          exact asked row found

end Superseding

section Weighing

variable {env : Env} {now : Time} {db db' : Db} {submission : Submission} {dag : DagGraph} {id : Nat}

theorem superseded_mem {name : String} {key : Option String} {own : Option RunTrigger} {row : RunRow}
    (found : db.run? id = some row)
    : id ∈ db.supersededRuns name key own ↔ row.superseded name key own := by
  unfold Db.supersededRuns
  rw [List.mem_map]
  constructor
  · rintro ⟨other, member, rfl⟩
    obtain ⟨present, met⟩ := Table.mem_select.mp ((List.mem_insertionSort _).mp member)
    obtain rfl := Option.some.inj (found.symm.trans (Table.get?_of_mem present))
    exact met
  · intro met
    have member := Table.mem_select.mpr ⟨Table.mem_of_get? found, met⟩
    exact ⟨row, (List.mem_insertionSort _).mpr member, Table.key_of_get? found⟩

theorem leaves_weigh (graph : runGraph db submission = .ok dag)
    (apart : ∀ row, db.run? id = some row → ¬ (row.unasked ∧ submission.Rivals row))
    : db.Leaves (weigh env now dag.spec submission.trigger submission.run db).1 id := by
  unfold weigh
  split
  · exact .refl db id
  · dsimp only
    split
    · refine (supersedeEach env now _ db).1 ?_
      intro among
      obtain ⟨row, member, rfl⟩ := List.mem_map.mp among
      obtain ⟨present, met⟩ := Table.mem_select.mp ((List.mem_insertionSort _).mp member)
      exact apart row (Table.get?_of_mem present) ((superseded_iff graph row).mp met)
    · exact .refl db id

/-- Weighing a run that takes the place of others leaves no rival that runs and was not asked to
stop.
-/
theorem unasked_weigh (graph : runGraph db submission = .ok dag) (policy : submission.supersedes)
    {row : RunRow}
    (found : (weigh env now dag.spec submission.trigger submission.run db).1.run? id = some row)
    (rivals : submission.Rivals row)
    : ¬ row.unasked := by
  obtain ⟨before, was, columns⟩ := (runMoves_weigh env now db dag.spec submission.trigger
    submission.run).was_of_is found
  have rivals : submission.Rivals before := by
    obtain ⟨name, key, origin⟩ := rivals
    rw [congrArg RunColumns.definition columns] at name
    rw [congrArg RunColumns.concurrencyKey columns] at key
    rw [congrArg RunColumns.trigger columns] at origin
    exact ⟨name, key, origin⟩
  obtain ⟨supersede, max, declared, some_⟩ := policy
  obtain ⟨_, _, policy, cap⟩ := runGraph_spec graph
  have limited : dag.spec.maxActiveRuns.filter (fun max => 0 < max) = some max := by
    rw [cap, Option.mem_def.mp declared]
    exact if_pos (decide_eq_true some_)
  simp only [weigh, limited, policy, supersede, if_true] at found
  refine (supersedeEach env now _ db).2 ?_ row found
  by_cases unasked : before.unasked
  · exact .inl ((superseded_mem was).mpr ((superseded_iff graph before).mpr ⟨unasked, rivals⟩))
  · refine .inr (fun row there => ?_)
    obtain rfl := Option.some.inj (was.symm.trans there)
    exact unasked

theorem confines_createRun (done : createRun env now submission db = .ok db')
    : Confines submission db db' := by
  obtain ⟨dag, _, _, graph, rfl, ⟨_, _, _, rfl, _⟩, inserted⟩ := createRun_ok env now done
  intro id apart
  by_cases rival : ∃ row, db.run? id = some row ∧ row.unasked ∧ submission.Rivals row
  · exact .inr rival
  · refine .inl ((leaves_weigh graph ?_).trans (leaves_insertRun inserted apart))
    exact fun row found met => rival ⟨row, found, met⟩

theorem vacant_createRun (done : createRun env now submission db = .ok db')
    : db.run? submission.run = none := by
  obtain ⟨dag, _, _, _, rfl, ⟨_, _, _, rfl, _⟩, inserted⟩ := createRun_ok env now done
  obtain ⟨_, _, runs, _⟩ := insertRun_eq_some inserted
  cases was : db.run? submission.run with
  | none => rfl
  | some row =>
      obtain ⟨_, is, _⟩ := (runMoves_weigh env now db dag.spec submission.trigger
        submission.run).of_some was
      cases is.symm.trans (Table.get?_insert runs).1

/-- A run that takes the place of others leaves no rival that runs and was not asked to stop. -/
theorem unasked_createRun (done : createRun env now submission db = .ok db')
    (policy : submission.supersedes) (apart : id ≠ submission.run) {row : RunRow}
    (found : db'.run? id = some row) (rivals : submission.Rivals row)
    : ¬ row.unasked := by
  obtain ⟨dag, _, _, _, graph, _, _, others⟩ := run?_createRun done
  exact unasked_weigh graph policy ((others id apart).symm.trans found) rivals

end Weighing

-- Histories

section Histories

variable {env : Env} {commits : List (Commit World Op)} {world : World}

theorem World.Ended.retired (ended : world.Ended) {run : Nat} {row : RunRow}
    (found : world.db.run? run = some row) (asked : ¬ row.unasked)
    : world.db.Retired run := by
  have home : row.id = run := Table.key_of_get? found
  have accounts := ended.accounts run row found
  intro id task there ofRun
  rcases (ended.closing.runs run row found).status with running | over_
  · refine accounts.stopping running ?_ id task there (ofRun.trans home.symm)
    exact Option.isSome_iff_ne_none.mpr (fun none_ => asked ⟨running, none_⟩)
  · exact .inl (accounts.over_ over_ id task there (ofRun.trans home.symm))

theorem Db.Retired.kept {op : Op} {start before after : Db} {run : Nat}
    (retired : before.Retired run) (writes : Writes env start op before after)
    (sited : before.Sited) (kin : before.Kin) (there : (before.run? run).isSome)
    (apart : ¬ op.putsBack before run)
    : after.Retired run := by
  have carried := writes.carried sited kin there apart retired
  intro id task' is ofRun
  obtain ⟨task, moves, was, home, quiet, steps⟩ := carried.found id task' is ofRun
  exact steps.closed quiet (retired id task was home)

/-- In every history whose operations keep ends, and put nothing back in a run that is over or
being stopped, runs come to what their tasks do around each commit.
-/
theorem ended_of_history
    (history : (store env).History (fun op world => op.keepsEnds world ∧ ¬ op.opensOver world.db)
      .init commits world)
    : ∀ commit ∈ commits, commit.before.Ended ∧ commit.after.Ended
        ∧ ∃ start, Writes env start commit.label commit.before.db commit.after.db := by
  have whole : world.Ended ∧ ∀ commit ∈ commits, commit.before.Ended ∧ commit.after.Ended
      ∧ ∃ start, Writes env start commit.label commit.before.db commit.after.db := by
    refine history.rule .init ?_
    intro op origin _ commit member before allowed
    obtain ⟨⟨bare, apart⟩, shut⟩ := allowed
    refine ⟨before.step member bare apart shut, origin.db, ?_⟩
    rw [label_of_mem_commitsFrom member]
    exact writes_of_mem member
  exact whole.2

/-- A run takes the place of others within bounds: one that is refused, or whose transaction is
broken, changes nothing; one that is made leaves every other run, but for those of its workflow
and key, and of its own source where it is not trusted, that ran, so that the runs of another
source are the same whatever is asked for; and none whose place it took starts a task again before
it is put back.
-/
theorem superseding_is_confined
    (history : (store env).History (fun op world => op.keepsEnds world ∧ ¬ op.opensOver world.db)
      .init commits world)
    : (∀ now breaks request db ledger,
        (∀ failure, (createRunTransacted env now breaks request db ledger).2 = .error failure →
          (createRunTransacted env now breaks request db ledger).1 = (db, ledger))
        ∧ ((createRunTransacted env now breaks request db ledger).2 = .ok () →
          Confines request.submission db (createRunTransacted env now breaks request db ledger).1.1))
      ∧ (∀ now now' first second db db₁ db₂, createRun env now first db = .ok db₁ →
        createRun env now' second db = .ok db₂ → ∀ id row, db.run? id = some row →
          first.Outside row → second.Outside row → db₁.Leaves db₂ id)
      ∧ ∀ early made late, commits = early ++ made :: late →
        ∀ now submission, made.label = .createRun now submission →
          Confines submission made.before.db made.after.db
          ∧ (submission.supersedes → ∀ id row, id ≠ submission.run →
            made.after.db.run? id = some row → submission.Rivals row →
              made.after.db.Retired id
              ∧ ((∀ commit ∈ late, ¬ commit.label.putsBack commit.before.db id) →
                world.db.Retired id ∧ ∀ commit ∈ late, commit.before.db.Retired id)) := by
  refine ⟨fun now breaks request db ledger => ⟨fun _ => createRunTransacted_of_error, fun done => ?_⟩,
    fun now now' first second db db₁ db₂ done₁ done₂ id row was outside₁ outside₂ => ?_,
    fun early made late split now submission label => ?_⟩
  · exact confines_createRun (createRun_of_createRunFull (createRunFull_of_transacted done))
  · have left {submission : Submission} {now : Time} {db' : Db}
        (done : createRun env now submission db = .ok db') (outside : submission.Outside row)
        : db.Leaves db' id := by
      have apart : id ≠ submission.run := by
        rintro rfl
        rw [vacant_createRun done] at was
        cases was
      rcases confines_createRun done id apart with leaves | ⟨older, was', _, rivals⟩
      · exact leaves
      · obtain rfl := Option.some.inj (was.symm.trans was')
        exact absurd (rivals.origin outside.1) outside.2
    exact (left done₁ outside₁).symm.trans (left done₂ outside₂)
  subst split
  have whole := ended_of_history history
  obtain ⟨_, after, _, writes⟩ := whole made (by simp)
  rw [label] at writes
  obtain ⟨rfl, done⟩ := writes.returns rfl
  refine ⟨confines_createRun done, fun policy id row apart found rivals => ?_⟩
  have retired := after.retired found (unasked_createRun done policy apart found rivals)
  refine ⟨retired, fun unopened => ?_⟩
  let Kept (world : World) : Prop := world.db.Retired id ∧ (world.db.run? id).isSome
  have start : Kept made.after := ⟨retired, Option.isSome_iff_exists.mpr ⟨row, found⟩⟩
  have keep : ∀ commit ∈ late, Kept commit.before → Kept commit.after := by
    rintro commit member ⟨retired, there⟩
    obtain ⟨before, _, _, writes⟩ := whole commit (by simp [member])
    obtain ⟨_, was⟩ := Option.isSome_iff_exists.mp there
    obtain ⟨last, is, _⟩ := writes.runMoves was
    exact ⟨retired.kept writes before.closing.sited before.closing.kin there
      (unopened commit member), Option.isSome_iff_exists.mpr ⟨last, is⟩⟩
  obtain ⟨⟨last, _⟩, between⟩ := history.carry keep start
  exact ⟨last, fun commit member => (between commit member).1⟩

/-- A task and a report of it, of which one run is made at a time, in place of the one before. -/
def supersedingReport : DagGraph where
  spec := {
    name := "nightly"
    maxActiveRuns := some 1
    whenFull := some .supersede
    tasks := reportTasks { name := "shard" }
  }
  parameters := []
  wellFormed := by
    refine ⟨by decide, by decide, by decide, ?_, by decide, by decide, by decide⟩
    exact ⟨fun name => if name = "report" then 1 else 0, by decide⟩

def submitPull (run : Nat) (pr : Int) : Submission where
  dag := supersedingReport
  trigger := some { kind := "ci", forgeHost := some "forge", repo := some "reports", pr := some pr }
  run := run
  mint index := 100 * run + index

/-- A worker is at the run of one pull request when a run of another is made. -/
def pullsSubmitted : List Op :=
  [.createRun 0 (submitPull 0 7), .advanceReadyTasks 1, .claimReady 2 "worker" 1 [] [] false,
    .createRun 3 (submitPull 1 8)]

/-- The run of the first pull request starts no task any more once another run of it is made. -/
theorem superseding_is_confined_pullsSubmitted
    : ∃ world, (store plainEnv).Reachable (fun op world => op.keepsEnds world ∧ ¬ op.opensOver world.db)
        world
      ∧ (world.db.run? 0).isSome ∧ (world.db.run? 2).isSome ∧ world.db.Retired 0 := by
  have earlier : (store plainEnv).History (fun op world => op.keepsEnds world ∧ ¬ op.opensOver world.db)
      .init ([] ++ (store plainEnv).trace .init pullsSubmitted)
      ((store plainEnv).outcome .init pullsSubmitted) :=
    .whole .start (by decide)
  have history := earlier.first (.createRun 4 (submitPull 2 7)) (by decide) (by decide)
  refine ⟨_, ⟨_, history⟩, by decide, by decide, ?_⟩
  have made := ((superseding_is_confined history).2.2 _ _ [] rfl 4 (submitPull 2 7) rfl).2
    (by decide) 0 _ (by decide) (Option.some_get (by decide)).symm
    ⟨by decide, by decide, fun _ => by decide⟩
  exact made.1

/-- A worker is at the second task of a run whose first has failed, when the run is cancelled and
the first retried.
-/
def stopRetried : List Op :=
  [.createRun 0 (submit supersedingReport 0), .advanceReadyTasks 1,
    .claimReady 2 "worker" 1 [] [] false, .markTaskFailed 3 0 "worker" 1 none,
    .advanceReadyTasks 4, .claimReady 5 "worker" 1 [] [] false, .cancelRun 6 0,
    .retryTaskFromUi 7 0 none]

/-- A run whose place is taken may yet start a task: one that was retried while the run was being
stopped.
-/
theorem not_superseding_is_confined
    : ¬ ∀ commits world, (store plainEnv).History (fun _ _ => True) .init commits world →
        ∀ early made late, commits = early ++ made :: late →
          ∀ now submission, made.label = .createRun now submission → submission.supersedes →
            ∀ id row, id ≠ submission.run → made.after.db.run? id = some row →
              submission.Rivals row → made.after.db.Retired id := by
  intro retires
  have earlier : (store plainEnv).History (fun _ _ => True) .init
      ([] ++ (store plainEnv).trace .init stopRetried)
      ((store plainEnv).outcome .init stopRetried) :=
    .whole .start (by decide)
  have history := earlier.first (.createRun 8 (submit supersedingReport 1)) (by decide)
    trivial
  have retired := retires _ _ history _ _ [] rfl 8 (submit supersedingReport 1) rfl
    (by decide) 0 _ (by decide) (Option.some_get (by decide)).symm
    ⟨by decide, by decide, fun _ => by decide⟩
  have closed := retired 0 _ (Option.some_get (by decide)).symm (by decide)
  rcases closed with done | stopping
  · have ended := done.terminal
    revert ended
    decide
  · have running := stopping.running
    revert running
    decide

end Histories

end Dagron.Store
