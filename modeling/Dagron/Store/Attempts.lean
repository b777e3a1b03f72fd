import Dagron.Spec.AttemptLog
import Dagron.Store.Progress

/-! The history of a task's attempts: what a worker's retry, a person's retry, a rerun or a
clear is about to replace is kept beside the store, under the task's count of attempts for its
life, and the oldest of it goes once there is more than the retention keeps.
-/

namespace Dagron.Store

open Dagron.Library Dagron.Spec

-- Attempts kept

/-- An attempt that was superseded, as it is kept. -/
structure AttemptRow where
  task
    : Nat
  attempt
    : Nat
  reason
    : String
  status
    : Option TaskStatus := none
  output
    : Option String
  truncated
    : Bool
  scheduledAt
    : Option Time := none
  finishedAt
    : Time
  deriving DecidableEq

def RunAgain.reason : RunAgain → String
  | .rerun | .rerunAll | .autoRerun => "rerun"
  | .retry => "retry"
  | .clear => "clear"

def AttemptRow.sameKey (row other : AttemptRow) : Prop :=
  other.task = row.task ∧ other.attempt = row.attempt

instance (row : AttemptRow) : DecidablePred row.sameKey := fun other => by
  unfold AttemptRow.sameKey
  infer_instance

/-- Keeps a row, in the place of what was kept of the same attempt. -/
def AttemptRow.put (kept : List AttemptRow) (row : AttemptRow) : List AttemptRow :=
  kept.filter (fun other => ¬ row.sameKey other) ++ [row]

def AttemptRow.ofRetry (policy : AttemptPolicy) (now : Time) (task attempt : Nat)
    (ending : AttemptEnd) (output : Option String) : AttemptRow where
  task := task
  attempt := attempt
  reason := ending.asStr
  output := output.map (fun output => (policy.tail output).1)
  truncated := output.any (fun output => (policy.tail output).2)
  finishedAt := now

/-- Keeps the attempt that a worker's retry supersedes, and evicts what is too old. -/
def recordAttempt (policy : AttemptPolicy) (now : Time) (task attempt : Nat)
    (ending : AttemptEnd) (output : Option String) (kept : List AttemptRow) : List AttemptRow :=
  if ¬ policy.enabled then kept
  else
    let stored := AttemptRow.put kept (.ofRetry policy now task attempt ending output)
    match policy.evictBelow attempt with
    | none => stored
    | some cutoff => stored.filter (fun row => ¬ (row.task = task ∧ row.attempt ≤ cutoff))

/-- The tasks that are put back together. -/
inductive Reset where
  | brokenCone (run : Nat)
  | task (id : Nat)
  | cone (run id : Nat)
  | whole (run : Nat)

/-- Whether a task of the store is among those put back. -/
def Reset.condition (db : Db) (task : TaskRow) : Reset → Prop
  | .brokenCone run => Db.rerunnable run task
  | .task id => task.id = id ∧ (task.status = .failed ∨ task.status = .cancelled)
  | .cone run id =>
      (db.task? id).any (fun first => first.runId = run)
        ∧ task.id ∈ Db.downstream db.deps.rows db.tasks.rows.length [id] ∧ task.status.terminal
  | .whole run => task.runId = run ∧ task.fanoutParent.isNone ∧ task.status.terminal

instance (db : Db) (task : TaskRow) (reset : Reset) : Decidable (reset.condition db task) := by
  unfold Reset.condition
  split <;> infer_instance

/-- Whether a task is an approval gate that was decided. -/
def TaskRow.isDecidedGate (task : TaskRow) : Prop :=
  task.isApproval ∧ (task.status = .succeeded ∨ task.status = .failed)

instance : DecidablePred TaskRow.isDecidedGate := fun task => by
  unfold TaskRow.isDecidedGate
  infer_instance

/-- The number of a task's attempt in its life; a gate's decision is one. -/
def TaskRow.attemptNumber (task : TaskRow) : Nat :=
  task.attemptBase + max task.attempt 1

/-- The attempt of a task that is put back; (log) is what its log holds. -/
def TaskRow.replaced (policy : AttemptPolicy) (now : Time) (reason : String)
    (log : Option String) (task : TaskRow) : AttemptRow :=
  let printed := log.filter (fun log => log ≠ "") <|> task.output
  { task := task.id
    attempt := task.attemptNumber
    reason := reason
    status := some task.status
    output := printed.map (fun text =>
      String.ofList (text.toList.drop (text.toList.length - policy.bytes)))
    truncated := printed.any (fun text => policy.bytes < text.toList.length)
    scheduledAt := task.scheduledAt
    finishedAt := task.finishedAt.getD now }

def Db.toReplace (reset : Reset) (db : Db) : List TaskRow :=
  db.tasks.select (fun task =>
    (0 < task.attempt ∨ task.isDecidedGate) ∧ reset.condition db task)

/-- Keeps the attempts of the tasks put back, and evicts what is too old. -/
def keepReplaced (policy : AttemptPolicy) (now : Time) (reset : Reset) (reason : String)
    (logs : Nat → Option String) (db : Db) (kept : List AttemptRow) : List AttemptRow :=
  if ¬ policy.enabled then kept
  else
    let replaced := db.toReplace reset
    let stored := (replaced.map (fun task =>
      task.replaced policy now reason (logs task.id))).foldl AttemptRow.put kept
    if policy.keep = 0 then stored
    else stored.filter (fun row => ¬ replaced.any (fun task =>
      task.id = row.task ∧ row.attempt + policy.keep ≤ task.attemptNumber))

-- The store with its attempts

/-- A call of the store, with what it reads beside it: the variables of its process, why the
attempt ended that a worker tries again, and the logs of the tasks.
-/
structure ArchiveOp where
  op
    : Op
  vars
    : String → Option String := fun _ => none
  ending
    : AttemptEnd := .failed
  logs
    : Nat → Option String := fun _ => none

def ArchiveOp.policy (call : ArchiveOp) : AttemptPolicy :=
  .fromEnv call.vars

/-- The tasks that an operation puts back, why and when. -/
def Op.putBack (db : Db) : Op → Option (Reset × RunAgain × Time)
  | .retryTaskFromUi now id _ => some (.task id, .retry, now)
  | .rerunFromFailed now run origin _ =>
      if (db.run? run).any (fun row => Db.broken row.status) then
        some (.brokenCone run, origin, now)
      else none
  | .rerunAll now run _ =>
      if (db.run? run).any (fun row => Db.over_ row.status) then some (.whole run, .rerunAll, now)
      else none
  | .clearTaskWithDownstream now run id _ =>
      if db.countTasks (fun task => task.id = id ∧ task.runId = run ∧ task.status.terminal) = 0 then
        none
      else some (.cone run id, .clear, now)
  | _ => none

/-- The attempts that a call has kept once it has written. -/
def ArchiveOp.keep (call : ArchiveOp) (db : Db) (kept : List AttemptRow) : List AttemptRow :=
  match call.op with
  | .retryTask now id worker fence error _ =>
      match (db.task? id).filter (TaskRow.heldBy worker fence) with
      | none => kept
      | some task =>
          recordAttempt call.policy now id (task.attemptBase + task.attempt) call.ending error kept
  | op =>
      match op.putBack db with
      | none => kept
      | some (reset, origin, now) =>
          keepReplaced call.policy now reset origin.reason call.logs db kept

def ArchiveOp.records (call : ArchiveOp) (db : Db) : List AttemptRow :=
  if ¬ call.policy.enabled then []
  else
    match call.op with
    | .retryTask now id worker fence error _ =>
        ((db.task? id).filter (TaskRow.heldBy worker fence)).toList.map (fun task =>
          .ofRetry call.policy now id (task.attemptBase + task.attempt) call.ending error)
    | op =>
        match op.putBack db with
        | none => []
        | some (reset, origin, now) =>
            (db.toReplace reset).map (fun task =>
              task.replaced call.policy now origin.reason (call.logs task.id))

/-- The store, the attempts it has kept, and all that it ever kept of the tasks that are there,
what was evicted and what was overwritten with it.
-/
structure Archive where
  world
    : World
  attempts
    : List AttemptRow := []
  ever
    : List AttemptRow := []

namespace Archive

def init : Archive where
  world := .init

/-- The archive after a commit of a call: what was kept of a task goes with the task. -/
def commit (call : ArchiveOp) (archive : Archive) (world : World) : Archive :=
  let there (row : AttemptRow) : Bool := (world.db.task? row.task).isSome
  { world := world
    attempts := (call.keep archive.world.db archive.attempts).filter there
    ever := (archive.ever ++ call.records archive.world.db).filter there }

def commitAll (call : ArchiveOp) : Archive → List World → List Archive
  | _, [] => []
  | archive, world :: rest =>
      archive.commit call world :: commitAll call (archive.commit call world) rest

end Archive

/-- The store with its attempts as a transition system. -/
def archive (env : Env) : System Archive ArchiveOp where
  init := .init
  commits call archive := archive.commitAll call (call.op.commits env archive.world)

-- What is kept

theorem AttemptRow.mem_put {kept : List AttemptRow} {new row : AttemptRow}
    : row ∈ AttemptRow.put kept new ↔ row ∈ kept ∧ ¬ new.sameKey row ∨ row = new := by
  simp [AttemptRow.put]

/-- What is kept after several attempts of different tasks: each of them, and what was kept of
no attempt among them.
-/
theorem AttemptRow.mem_foldl_put {news kept : List AttemptRow} {row : AttemptRow}
    (apart : (news.map AttemptRow.task).Nodup)
    : row ∈ news.foldl AttemptRow.put kept
      ↔ row ∈ kept ∧ (∀ new ∈ news, ¬ new.sameKey row) ∨ row ∈ news := by
  induction news generalizing kept with
  | nil => simp
  | cons new rest ih =>
      obtain ⟨first, apart⟩ := List.nodup_cons.mp apart
      rw [List.foldl_cons, ih apart, AttemptRow.mem_put]
      constructor
      · rintro (⟨(⟨old, other⟩ | rfl), others⟩ | later)
        · exact .inl ⟨old, List.forall_mem_cons.mpr ⟨other, others⟩⟩
        · exact .inr List.mem_cons_self
        · exact .inr (List.mem_cons_of_mem _ later)
      · rintro (⟨old, others⟩ | member)
        · obtain ⟨other, others⟩ := List.forall_mem_cons.mp others
          exact .inl ⟨.inl ⟨old, other⟩, others⟩
        · rcases List.mem_cons.mp member with rfl | later
          · exact .inl ⟨.inr rfl, fun other listed same =>
            first (same.1 ▸ List.mem_map_of_mem listed)⟩
          · exact .inr later

/-- What keeping some attempts does to what was kept: each is there, and whatever is gone was
of the same attempt as one of them, or is further behind one of them than what stays.
-/
structure Keeps (policy : AttemptPolicy) (news kept kept' : List AttemptRow) : Prop where
  stored
    : ∀ new ∈ news, new ∈ kept'
  only
    : ∀ row ∈ kept', row ∈ kept ∨ row ∈ news
  gone
    : ∀ old ∈ kept, old ∉ kept' → ∃ new ∈ news, new.task = old.task
        ∧ (old.attempt = new.attempt
          ∨ 0 < policy.keep ∧ old.attempt + policy.keep ≤ new.attempt)
  oldest
    : (∀ new ∈ news, ∀ old ∈ kept, ¬ new.sameKey old) →
        ∀ old ∈ kept, old ∉ kept' → ∀ other ∈ kept, other.task = old.task →
          other.attempt ≤ old.attempt → other ∉ kept'

theorem Keeps.none (policy : AttemptPolicy) (kept : List AttemptRow)
    : Keeps policy [] kept kept where
  stored _ listed := by cases listed
  only _ := .inl
  gone _ old left := absurd old left
  oldest _ _ old left := absurd old left

/-- Keeping attempts of different tasks, and evicting what is further behind one of them than a
limit that falls with the attempt, keeps them.
-/
theorem Keeps.evicting {policy : AttemptPolicy} {news kept : List AttemptRow} {evicted : AttemptRow → Bool}
    (apart : (news.map AttemptRow.task).Nodup)
    (behind : ∀ row, evicted row = true → ∃ new ∈ news, new.task = row.task ∧ 0 < policy.keep
      ∧ row.attempt + policy.keep ≤ new.attempt)
    (falls : ∀ row other, evicted row = true → other.task = row.task →
      other.attempt ≤ row.attempt → evicted other = true)
    : Keeps policy news kept
      ((news.foldl AttemptRow.put kept).filter (fun row => ¬ evicted row)) := by
  have member {row : AttemptRow}
      : row ∈ (news.foldl AttemptRow.put kept).filter (fun row => ¬ evicted row)
        ↔ (row ∈ kept ∧ (∀ new ∈ news, ¬ new.sameKey row) ∨ row ∈ news) ∧ ¬ evicted row := by
    rw [List.mem_filter, AttemptRow.mem_foldl_put apart, decide_eq_true_iff]
  refine ⟨?_, ?_, ?_, ?_⟩
  · intro new listed
    refine member.mpr ⟨.inr listed, fun gone => ?_⟩
    obtain ⟨other, among, task, positive, far⟩ := behind new gone
    obtain rfl := List.inj_on_of_nodup_map apart among listed task
    omega
  · intro row there
    rcases (member.mp there).1 with ⟨old, _⟩ | new
    · exact .inl old
    · exact .inr new
  · intro old was left
    by_cases gone : evicted old
    · obtain ⟨new, listed, task, far⟩ := behind old gone
      exact ⟨new, listed, task, .inr far⟩
    · by_contra others
      refine left (member.mpr ⟨.inl ⟨was, fun new listed same => ?_⟩, gone⟩)
      exact others ⟨new, listed, same.1.symm, .inl same.2⟩
  · intro anew old was left other _ task before there
    have gone : evicted old := by
      by_contra stays
      exact left (member.mpr ⟨.inl ⟨was, fun new listed => anew new listed old was⟩, stays⟩)
    exact (member.mp there).2 (falls old other gone task before)

theorem keeps_recordAttempt (policy : AttemptPolicy) (enabled : policy.enabled = true) (now : Time)
    (task attempt : Nat) (ending : AttemptEnd) (output : Option String) (kept : List AttemptRow)
    : Keeps policy [.ofRetry policy now task attempt ending output] kept
      (recordAttempt policy now task attempt ending output kept) := by
  let cutoff := policy.evictBelow attempt
  let evicted (row : AttemptRow) : Bool :=
    cutoff.any (fun cutoff => row.task = task ∧ row.attempt ≤ cutoff)
  have same : recordAttempt policy now task attempt ending output kept
      = ([AttemptRow.ofRetry policy now task attempt ending output].foldl AttemptRow.put kept).filter
        (fun row => ¬ evicted row) := by
    simp only [recordAttempt, enabled, not_true_eq_false, if_false, List.foldl_cons,
      List.foldl_nil, evicted, cutoff]
    split
    case h_1 none_ => simp [none_]
    case h_2 limit set => simp [set]
  rw [same]
  refine .evicting (List.nodup_singleton _) ?_ ?_
  · intro row gone
    obtain ⟨limit, set, met⟩ := (Option.any_eq_true _ _).mp gone
    obtain ⟨task_, far⟩ := of_decide_eq_true met
    obtain ⟨positive, total⟩ := AttemptPolicy.evictBelow_eq_some set
    refine ⟨_, List.mem_singleton_self _, task_.symm, positive, ?_⟩
    dsimp only [AttemptRow.ofRetry]
    omega
  · intro row other gone task_ before
    obtain ⟨limit, set, met⟩ := (Option.any_eq_true _ _).mp gone
    obtain ⟨of_, far⟩ := of_decide_eq_true met
    refine (Option.any_eq_true _ _).mpr ⟨limit, set, decide_eq_true ⟨task_.trans of_, ?_⟩⟩
    omega

theorem keeps_keepReplaced (policy : AttemptPolicy) (enabled : policy.enabled = true) (now : Time)
    (reset : Reset) (reason : String) (logs : Nat → Option String) (db : Db)
    (kept : List AttemptRow)
    : Keeps policy ((db.toReplace reset).map (fun task =>
        task.replaced policy now reason (logs task.id))) kept
      (keepReplaced policy now reset reason logs db kept) := by
  let replaced := db.toReplace reset
  let evicted (row : AttemptRow) : Bool :=
    0 < policy.keep ∧ replaced.any (fun task =>
      task.id = row.task ∧ row.attempt + policy.keep ≤ task.attemptNumber)
  have same : keepReplaced policy now reset reason logs db kept
      = ((replaced.map (fun task => task.replaced policy now reason (logs task.id))).foldl
          AttemptRow.put kept).filter (fun row => ¬ evicted row) := by
    simp only [keepReplaced, enabled, evicted, replaced]
    by_cases unlimited : policy.keep = 0
    · simp [unlimited]
    · simp [unlimited, Nat.pos_of_ne_zero unlimited]
  rw [same]
  refine .evicting ?_ ?_ ?_
  · rw [List.map_map]
    exact db.tasks.nodup_keys
  · intro row gone
    obtain ⟨positive, some_⟩ := of_decide_eq_true gone
    obtain ⟨task, listed, met⟩ := List.any_eq_true.mp some_
    obtain ⟨same, far⟩ := of_decide_eq_true met
    exact ⟨_, List.mem_map_of_mem listed, same, positive, far⟩
  · intro row other gone task_ before
    obtain ⟨positive, some_⟩ := of_decide_eq_true gone
    obtain ⟨task, listed, met⟩ := List.any_eq_true.mp some_
    obtain ⟨same, far⟩ := of_decide_eq_true met
    refine decide_eq_true ⟨positive, List.any_eq_true.mpr ⟨task, listed, decide_eq_true ?_⟩⟩
    exact ⟨same.trans task_.symm, by omega⟩

theorem ArchiveOp.keep_disabled {call : ArchiveOp} (disabled : call.policy.enabled = false)
    (db : Db) (kept : List AttemptRow)
    : call.keep db kept = kept := by
  unfold ArchiveOp.keep
  split
  · split
    · rfl
    · simp [recordAttempt, disabled]
  · split
    · rfl
    · simp [keepReplaced, disabled]

theorem ArchiveOp.keeps (call : ArchiveOp) (db : Db) (kept : List AttemptRow)
    : Keeps call.policy (call.records db) kept (call.keep db kept) := by
  cases enabled : call.policy.enabled with
  | false =>
      rw [call.keep_disabled enabled, ArchiveOp.records, if_pos (by simp [enabled])]
      exact .none _ _
  | true =>
      simp only [ArchiveOp.records, enabled, not_true_eq_false, if_false, ArchiveOp.keep]
      split
      case h_1 now id worker fence error retryAt _ =>
        cases (db.task? id).filter (TaskRow.heldBy worker fence) with
        | none => exact .none _ _
        | some task => exact keeps_recordAttempt _ enabled _ _ _ _ _ _
      case h_2 =>
        cases call.op.putBack db with
        | none => exact .none _ _
        | some reset => exact keeps_keepReplaced _ enabled _ _ _ _ _ _

-- Counting attempts

/-- The attempts kept of a task are within its count; before it, while a worker runs the task
and was not asked to stop.
-/
structure Life.Counts (kept : Nat → Prop) (life : Life) : Prop where
  within
    : ∀ number, kept number → number ≤ life.attemptBase + life.attempt
  working
    : life.status = .running → life.claimedBy.isSome → life.stopAsked = false →
        ∀ number, kept number → number < life.attemptBase + life.attempt

theorem Life.Counts.of_free {kept : Nat → Prop} {life : Life} (free : life.claimedBy = none)
    (within : ∀ number, kept number → number ≤ life.attemptBase + life.attempt)
    : life.Counts kept where
  within := within
  working _ held := by simp [free] at held

theorem Life.Counts.of_idle {kept : Nat → Prop} {life : Life} (idle : life.status ≠ .running)
    (within : ∀ number, kept number → number ≤ life.attemptBase + life.attempt)
    : life.Counts kept where
  within := within
  working running := absurd running idle

/-- Every move keeps the attempts that were kept within the count: only a claim that stands is
given back, and it counted one that nothing kept.
-/
theorem Life.Step.counts {move : Move} {life life' : Life} {kept : Nat → Prop}
    (step : Life.Step move life life') (counts : life.Counts kept)
    : life'.Counts kept := by
  have within := counts.within
  cases step with
  | count pending | recount pending | renew held | clearHandle => exact ⟨within, counts.working⟩
  | ready | ask | skip | failWhen => exact .of_idle nofun within
  | parkBarrier | recover | park | release | requeue | cancel | settle | succeed | fail =>
      exact .of_free rfl within
  | stamp running free => exact .of_free free within
  | claim ready worker =>
      refine ⟨?_, ?_⟩
      · intro number listed
        exact (within number listed).trans (Nat.le_succ _)
      · intro _ _ _ number listed
        exact Nat.lt_succ_of_le (within number listed)
  | retry held free attempt back =>
      refine .of_free rfl ?_
      intro number listed
      have before := within number listed
      rcases back with same | ⟨running, given⟩
      · exact same ▸ before
      · have strict := counts.working running held free number listed
        dsimp only
        omega
  | resolve succeeded | finishBarrier succeeded => exact .of_idle (by cases succeeded <;> nofun) within
  | decide approved => exact .of_idle (by cases approved <;> nofun) within
  | askStop => exact ⟨within, fun _ _ free => nomatch free⟩
  | claimTeardown running asked => exact ⟨within, fun _ _ free => by simp [asked] at free⟩
  | clearStop stopped => exact .of_idle stopped within
  | retryFromUi =>
      refine .of_free rfl ?_
      intro number listed
      have before := within number listed
      dsimp only
      omega
  | reset =>
      refine .of_free rfl ?_
      intro number listed
      have before := within number listed
      dsimp only
      split
      case isTrue decided =>
        have none_ : life.attempt = 0 := (of_decide_eq_true decided).1
        omega
      case isFalse => exact before

-- What is superseded

theorem task?_congr {before after : Db} (same : after.tasks = before.tasks) (id : Nat)
    : after.task? id = before.task? id := by
  unfold Db.task?
  rw [same]

section Superseded

variable {now : Time} {who : Option String} {task : TaskRow}

theorem attemptNumber_le_retried (attempted : 0 < task.attempt ∨ task.isDecidedGate)
    : task.attemptNumber
      ≤ (task.retried now who).attemptBase + (task.retried now who).attempt := by
  simp only [TaskRow.attemptNumber, TaskRow.retried]
  by_cases ran : 0 < task.attempt
  · omega
  · have decided : task.decidedGate = true :=
      decide_eq_true ⟨Nat.eq_zero_of_not_pos ran, attempted.resolve_left ran⟩
    rw [if_pos decided]
    omega

theorem attemptNumber_le_reset (attempted : 0 < task.attempt ∨ task.isDecidedGate)
    : task.attemptNumber
      ≤ (task.reset now who).attemptBase + (task.reset now who).attempt := by
  simp only [TaskRow.attemptNumber, TaskRow.reset]
  by_cases ran : 0 < task.attempt
  · have undecided : ¬ task.decidedGate = true := fun decided =>
      absurd (of_decide_eq_true decided).1 (Nat.ne_of_gt ran)
    rw [if_neg undecided]
    omega
  · have decided : task.decidedGate = true :=
      decide_eq_true ⟨Nat.eq_zero_of_not_pos ran, attempted.resolve_left ran⟩
    rw [if_pos decided]
    omega

/-- A task whose number is kept has a count that reaches it, and no worker. -/
def TaskRow.reaches (number : Nat) (task : TaskRow) : Prop :=
  number ≤ task.attemptBase + task.attempt ∧ task.claimedBy = none

theorem reaches_putBack {db db' : Db} {cond : TaskRow → Prop} [DecidablePred cond] {run id : Nat}
    {settled : TaskStatus → Bool} {task' : TaskRow}
    (tasks : db'.tasks = ((db.updateTasks cond (TaskRow.reset now who)).recount run settled).tasks)
    (was : db.task? id = some task) (met : cond task)
    (attempted : 0 < task.attempt ∨ task.isDecidedGate) (is : db'.task? id = some task')
    : task'.reaches task.attemptNumber := by
  have reset : (db.updateTasks cond (TaskRow.reset now who)).task? id
      = some (task.reset now who) := by
    have read := @Db.task?_updated db cond _ (TaskRow.reset now who) (fun _ => rfl) id task was
    rwa [if_pos met] at read
  rw [task?_congr tasks, task?_recount, reset, Option.map_some] at is
  obtain rfl := Option.some.inj is
  have count := @attemptNumber_le_reset now who task attempted
  split <;> exact ⟨count, rfl⟩

end Superseded

theorem Db.mem_toReplace {db : Db} {reset : Reset} {task : TaskRow}
    : task ∈ db.toReplace reset
      ↔ task ∈ db.tasks ∧ (0 < task.attempt ∨ task.isDecidedGate) ∧ reset.condition db task :=
  Table.mem_select

theorem rearmRun_ours {db db' : Db} {now : Time} {run : Nat} {ended : RunStatus → Bool}
    {set : RunRow → RunRow} {keeps : ∀ row, (set row).toRunColumns = row.toRunColumns}
    {ours : Bool} {row : RunRow} (done : db.rearmRun now run ended set keeps = .ok (db', ours))
    (found : db.run? run = some row) (over_ : ended row.status = true)
    : ours = true := by
  have some_ : db.runs.count (fun row => row.id = run ∧ ended row.status) ≠ 0 := by
    have member := Table.mem_of_get? found
    have met : row.id = run ∧ ended row.status = true := ⟨Table.key_of_get? found, over_⟩
    exact Nat.ne_of_gt (List.countP_pos_iff.mpr ⟨row, member, decide_eq_true met⟩)
  simp only [Db.rearmRun, if_neg some_] at done
  obtain ⟨_, _, done⟩ := exists_of_bind_eq_ok done
  cases done
  rfl

section Records

variable {env : Env} {call : ArchiveOp} {start before after : Db} {new : AttemptRow}

/-- A record is of a task that is there, numbered at least by its count; when the call has
written, the count has reached the number, and no worker holds the task.
-/
theorem ArchiveOp.supersedes (writes : Writes env start call.op before after)
    (listed : new ∈ call.records before)
    : ∃ task, before.task? new.task = some task
        ∧ task.attemptBase + task.attempt ≤ new.attempt
        ∧ ∀ task', after.task? new.task = some task' → task'.reaches new.attempt := by
  have read (reset : Reset) (origin : RunAgain) (now : Time)
      (listed : new ∈ (before.toReplace reset).map (fun task =>
        task.replaced call.policy now origin.reason (call.logs task.id)))
      (reaches : ∀ task, before.task? new.task = some task → reset.condition before task →
        (0 < task.attempt ∨ task.isDecidedGate) →
        ∀ task', after.task? new.task = some task' → task'.reaches task.attemptNumber)
      : ∃ task, before.task? new.task = some task
          ∧ task.attemptBase + task.attempt ≤ new.attempt
          ∧ ∀ task', after.task? new.task = some task' → task'.reaches new.attempt := by
    obtain ⟨task, replaced, rfl⟩ := List.mem_map.mp listed
    obtain ⟨member, attempted, met⟩ := Db.mem_toReplace.mp replaced
    have found := Db.task?_of_mem member
    refine ⟨task, found, ?_, reaches task found met attempted⟩
    exact Nat.add_le_add_left (Nat.le_max_left _ _) _
  unfold ArchiveOp.records at listed
  split at listed
  · cases listed
  cases same : call.op with
  | retryTask now id worker fence error retryAt =>
      rw [same] at listed writes
      obtain ⟨rfl, rfl⟩ := writes.single rfl
      obtain ⟨task, found, rfl⟩ := List.mem_map.mp listed
      obtain ⟨found, held⟩ := Option.filter_eq_some_iff.mp (Option.mem_toList.mp found)
      refine ⟨task, found, Nat.le_refl _, ?_⟩
      intro task' is
      have held : task.heldBy worker fence := of_decide_eq_true held
      have met : task.id = id ∧ task.heldBy worker fence := ⟨Db.id_of_task? found, held⟩
      have some_ : before.countTasks (fun task => task.id = id ∧ task.heldBy worker fence) ≠ 0 :=
        Nat.ne_of_gt (List.countP_pos_iff.mpr ⟨task, Table.mem_of_get? found, decide_eq_true met⟩)
      simp only [Db.retryTask, if_neg some_, AttemptRow.ofRetry] at is
      rw [Db.task?_updateTasks, found, Option.map_some, if_pos met] at is
      obtain rfl := Option.some.inj is
      exact ⟨Nat.le_refl _, rfl⟩
  | retryTaskFromUi now id who =>
      rw [same] at listed writes
      obtain ⟨rfl, done⟩ := writes.returns rfl
      refine read (.task id) .retry now listed ?_
      intro task found met attempted task' is
      have met : task.id = id ∧ (task.status = .failed ∨ task.status = .cancelled) := met
      rw [task?_retryTaskFromUi now done, found, Option.map_some, if_pos met] at is
      obtain rfl := Option.some.inj is
      exact ⟨attemptNumber_le_retried attempted, rfl⟩
  | rerunFromFailed now run origin who =>
      rw [same] at listed writes
      obtain ⟨rfl, done⟩ := writes.returns rfl
      cases broken : (before.run? run).any (fun row => Db.broken row.status) with
      | false => simp [Op.putBack, broken] at listed
      | true =>
        refine read (.brokenCone run) origin now (by simpa [Op.putBack, broken] using listed) ?_
        intro task found met attempted task' is
        obtain ⟨row, ran, over_⟩ := (Option.any_eq_true _ _).mp broken
        simp only [Db.rerunFromFailed] at done
        obtain ⟨⟨armed, ours⟩, ok, done⟩ := exists_of_bind_eq_ok done
        obtain rfl := rearmRun_ours ok ran over_
        have rearmed := (rearmRun_ok now ok (fun _ => over_of_broken) (fun _ _ => rfl)).1
        cases done
        have was : armed.task? new.task = some task := (task?_congr rearmed.tasks _).trans found
        exact reaches_putBack rfl was met attempted is
  | rerunAll now run who =>
      rw [same] at listed writes
      obtain ⟨rfl, done⟩ := writes.returns rfl
      cases ended : (before.run? run).any (fun row => Db.over_ row.status) with
      | false => simp [Op.putBack, ended] at listed
      | true =>
        refine read (.whole run) .rerunAll now (by simpa [Op.putBack, ended] using listed) ?_
        intro task found met attempted task' is
        obtain ⟨row, ran, over_⟩ := (Option.any_eq_true _ _).mp ended
        simp only [Db.rerunAll] at done
        obtain ⟨⟨armed, ours⟩, ok, done⟩ := exists_of_bind_eq_ok done
        obtain rfl := rearmRun_ours ok ran over_
        have rearmed := (rearmRun_ok now ok (fun _ => id) (fun _ _ => rfl)).1
        obtain ⟨_, _, done⟩ := exists_of_bind_eq_ok done
        cases done
        have met : task.runId = run ∧ task.fanoutParent.isNone ∧ task.status.terminal := met
        have was : armed.task? new.task = some task := (task?_congr rearmed.tasks _).trans found
        have stays : (armed.dropInstances run).task? new.task = some task := by
          have dropped : (armed.dropInstances run).task? new.task
              = (armed.task? new.task).filter (fun task => ¬ Db.instanceOf run task) :=
            Table.get?_delete new.task
          rw [dropped, was, Option.filter_some, if_pos]
          refine decide_eq_true (fun gone => ?_)
          have made := gone.2
          rw [Option.isNone_iff_eq_none.mp met.2.1] at made
          cases made
        exact reaches_putBack rfl stays met attempted is
  | clearTaskWithDownstream now run id who =>
      rw [same] at listed writes
      obtain ⟨rfl, done⟩ := writes.returns rfl
      by_cases some_ : before.countTasks (fun task =>
        task.id = id ∧ task.runId = run ∧ task.status.terminal) = 0
      case pos => simp [Op.putBack, some_] at listed
      case neg =>
        refine read (.cone run id) .clear now (by simpa [Op.putBack, some_] using listed) ?_
        intro task found met attempted task' is
        simp only [Db.clearTaskWithDownstream, if_neg some_] at done
        obtain ⟨⟨armed, ours⟩, ok, done⟩ := exists_of_bind_eq_ok done
        have rearmed := (rearmRun_ok now ok (fun _ over_ => over_) (fun _ _ => rfl)).1
        cases done
        exact reaches_putBack rearmed.tasks found met.2 attempted is
  | _ =>
      rw [same] at listed
      cases listed

end Records

-- Histories that only grow

namespace Archive

/-- Whether no attempt that a call keeps stands in the history already. -/
def Anew (call : ArchiveOp) (archive : Archive) : Prop :=
  ∀ new ∈ call.records archive.world.db, ∀ old ∈ archive.attempts, ¬ new.sameKey old

instance (call : ArchiveOp) (archive : Archive) : Decidable (archive.Anew call) := by
  unfold Anew
  infer_instance

/-- What a commit may do to the history of the tasks that it leaves: each attempt it keeps, one
of a task, is numbered above all that were ever kept of the task, and is stored; what was
stored is left as it was, but for the oldest, where they are further behind the attempt kept
than the attempts that stay.
-/
structure Appends (call : ArchiveOp) (before after : Archive) : Prop where
  higher
    : ∀ new ∈ call.records before.world.db, ∀ old ∈ before.ever, old.task = new.task →
        old.attempt < new.attempt
  stored
    : ∀ new ∈ call.records before.world.db, (after.world.db.task? new.task).isSome →
        new ∈ after.attempts
  only
    : ∀ row ∈ after.attempts, row ∈ before.attempts ∨ row ∈ call.records before.world.db
  intact
    : ∀ old ∈ before.attempts, (after.world.db.task? old.task).isSome → old ∉ after.attempts →
        ∃ new ∈ call.records before.world.db, new.task = old.task ∧ 0 < call.policy.keep
          ∧ old.attempt + call.policy.keep ≤ new.attempt
  oldest
    : ∀ old ∈ before.attempts, old ∉ after.attempts → ∀ other ∈ after.attempts,
        other.task = old.task → old.attempt < other.attempt

/-- What holds of every history: what is stored was kept, the newest of it is stored, and no
task's count is behind what was kept of it.
-/
structure Counted (archive : Archive) : Prop where
  lives
    : ∀ id task, archive.world.db.task? id = some task →
        task.life.Counts (fun number =>
          ∃ row ∈ archive.ever, row.task = id ∧ row.attempt = number)
  there
    : ∀ row ∈ archive.ever, (archive.world.db.task? row.task).isSome
  stored
    : ∀ row ∈ archive.attempts, row ∈ archive.ever
  newest
    : ∀ row ∈ archive.ever, ∃ other ∈ archive.attempts,
        other.task = row.task ∧ row.attempt ≤ other.attempt

theorem Counted.init
    : Archive.init.Counted where
  lives _ _ found := by cases found
  there _ listed := by cases listed
  stored _ listed := by cases listed
  newest _ listed := by cases listed

section Commits

variable {env : Env} {start : Db} {call : ArchiveOp} {archive : Archive} {world : World}

theorem mem_attempts {row : AttemptRow}
    : row ∈ (archive.commit call world).attempts
      ↔ row ∈ call.keep archive.world.db archive.attempts
        ∧ (world.db.task? row.task).isSome :=
  List.mem_filter

theorem mem_ever {row : AttemptRow}
    : row ∈ (archive.commit call world).ever
      ↔ (row ∈ archive.ever ∨ row ∈ call.records archive.world.db)
        ∧ (world.db.task? row.task).isSome := by
  simp only [Archive.commit, List.mem_filter, List.mem_append]

theorem Counted.step (writes : Writes env start call.op archive.world.db world.db)
    (counted : archive.Counted)
    : (archive.commit call world).Counted where
  lives id task' is := by
    have kept_ : task'.life.Counts (fun number =>
        ∃ row ∈ archive.ever, row.task = id ∧ row.attempt = number) := by
      cases was : archive.world.db.task? id with
      | none =>
          have absent (number : Nat)
              : ¬ ∃ row ∈ archive.ever, row.task = id ∧ row.attempt = number := by
            rintro ⟨row, listed, rfl, _⟩
            have there := counted.there row listed
            rw [was] at there
            cases there
          exact ⟨fun number some_ => absurd some_ (absent number),
            fun _ _ _ number some_ => absurd some_ (absent number)⟩
      | some task =>
          exact (writes.evolves.kept was is).rule (Life.Counts _) (counted.lives id task was)
            (fun _ _ _ _ step => step.counts)
    by_cases new : ∃ row ∈ call.records archive.world.db, row.task = id
    · obtain ⟨new, listed, rfl⟩ := new
      obtain ⟨_, _, _, reaches⟩ := call.supersedes writes listed
      refine .of_free (reaches task' is).2 ?_
      rintro number ⟨row, listed, same, rfl⟩
      rcases (mem_ever.mp listed).1 with old | fresh
      · exact kept_.within _ ⟨row, old, same, rfl⟩
      · obtain ⟨_, _, _, reaches⟩ := call.supersedes writes fresh
        exact (reaches task' (same ▸ is)).1
    · refine ⟨?_, ?_⟩
      · rintro number ⟨row, listed, same, rfl⟩
        exact kept_.within _ ⟨row, (mem_ever.mp listed).1.resolve_right
          (fun fresh => new ⟨row, fresh, same⟩), same, rfl⟩
      · rintro running held free number ⟨row, listed, same, rfl⟩
        exact kept_.working running held free _ ⟨row, (mem_ever.mp listed).1.resolve_right
          (fun fresh => new ⟨row, fresh, same⟩), same, rfl⟩
  there row listed := (mem_ever.mp listed).2
  stored row listed := by
    obtain ⟨kept, there⟩ := mem_attempts.mp listed
    refine mem_ever.mpr ⟨?_, there⟩
    rcases (call.keeps archive.world.db archive.attempts).only row kept with old | new
    · exact .inl (counted.stored row old)
    · exact .inr new
  newest row listed := by
    have keeps := call.keeps archive.world.db archive.attempts
    obtain ⟨listed, there⟩ := mem_ever.mp listed
    rcases listed with old | new
    case inr => exact ⟨row, mem_attempts.mpr ⟨keeps.stored row new, there⟩, rfl, Nat.le_refl _⟩
    obtain ⟨other, was, same, above⟩ := counted.newest row old
    by_cases kept : other ∈ call.keep archive.world.db archive.attempts
    · exact ⟨other, mem_attempts.mpr ⟨kept, same ▸ there⟩, same, above⟩
    · obtain ⟨new, listed, task, far⟩ := keeps.gone other was kept
      have of_ : new.task = row.task := task.trans same
      refine ⟨new, mem_attempts.mpr ⟨keeps.stored new listed, of_ ▸ there⟩, of_, ?_⟩
      omega

theorem Counted.appends (writes : Writes env start call.op archive.world.db world.db)
    (counted : archive.Counted) (anew : archive.Anew call)
    : archive.Appends call (archive.commit call world) := by
  have keeps := call.keeps archive.world.db archive.attempts
  have higher (new : AttemptRow) (listed : new ∈ call.records archive.world.db)
      (old : AttemptRow) (was : old ∈ archive.ever) (same : old.task = new.task)
      : old.attempt < new.attempt := by
    obtain ⟨task, found, reached, _⟩ := call.supersedes writes listed
    have counts := counted.lives _ task found
    have within (row : AttemptRow) (was : row ∈ archive.ever) (same : row.task = new.task)
        : row.attempt ≤ new.attempt :=
      (counts.within _ ⟨row, was, same, rfl⟩).trans reached
    refine lt_of_le_of_ne (within old was same) (fun equal => ?_)
    obtain ⟨other, stored, of_, above⟩ := counted.newest old was
    have below := within other (counted.stored other stored) (of_.trans same)
    exact anew new listed other stored ⟨of_.trans same, by omega⟩
  refine ⟨higher, ?_, ?_, ?_, ?_⟩
  · intro new listed there
    exact mem_attempts.mpr ⟨keeps.stored new listed, there⟩
  · intro row listed
    exact keeps.only row (mem_attempts.mp listed).1
  · intro old was there left
    have gone : old ∉ call.keep archive.world.db archive.attempts :=
      fun kept => left (mem_attempts.mpr ⟨kept, there⟩)
    obtain ⟨new, listed, task, far⟩ := keeps.gone old was gone
    refine ⟨new, listed, task, far.resolve_left (fun equal => ?_)⟩
    exact anew new listed old was ⟨task.symm, equal⟩
  · intro old was left other listed same
    obtain ⟨kept, there⟩ := mem_attempts.mp listed
    have gone : old ∉ call.keep archive.world.db archive.attempts :=
      fun kept => left (mem_attempts.mpr ⟨kept, same ▸ there⟩)
    rcases keeps.only other kept with stored | new
    · by_contra behind
      exact keeps.oldest anew old was gone other stored same (Nat.le_of_not_lt behind) kept
    · exact higher other new old (counted.stored old was) same.symm

end Commits

end Archive

theorem of_mem_commitAll_archive {call : ArchiveOp} {start : Archive} {worlds : List World}
    {commit : Commit Archive ArchiveOp}
    (member : commit ∈ commitsFrom call start (start.commitAll call worlds))
    : ⟨call.op, commit.before.world, commit.after.world⟩ ∈ commitsFrom call.op start.world worlds
      ∧ commit.after = commit.before.commit call commit.after.world := by
  induction worlds generalizing start with
  | nil => cases member
  | cons world rest ih =>
      rcases List.mem_cons.mp member with rfl | later
      · exact ⟨List.mem_cons_self, rfl⟩
      · obtain ⟨listed, same⟩ := ih later
        exact ⟨List.mem_cons_of_mem _ listed, same⟩

def keepOne (key : String) : Option String :=
  if key = "DAGRON_ATTEMPT_LOG_KEEP" then some "1" else none

/-- A task that is tried twice by its worker and once more by a person, who clears it then. -/
def attemptsMade : List ArchiveOp :=
  [.createRun 0 (submit plainReport 0), .advanceReadyTasks 1, .claimReady 2 "worker" 1 [] [] false,
    .retryTask 3 0 "worker" 1 (some "refused") 4, .claimReady 5 "worker" 1 [] [] false,
    .markTaskFailed 6 0 "worker" 2 (some "refused again"), .retryTaskFromUi 7 0 none,
    .claimReady 8 "worker" 1 [] [] false, .markTaskSucceeded 9 0 "worker" 4 (some "rows") false,
    .clearTaskWithDownstream 10 0 0 none].map (fun op => { op := op, vars := keepOne })

/-- A task failed, a person's retry of it was cancelled before a worker claimed it, and it is
retried again.
-/
def retryCancelled : List ArchiveOp :=
  [.createRun 0 (submit plainReport 0), .advanceReadyTasks 1, .claimReady 2 "worker" 1 [] [] false,
    .markTaskFailed 3 0 "worker" 1 (some "refused"), .retryTaskFromUi 4 0 none,
    .cancelRun 5 0, .retryTaskFromUi 6 0 none].map (fun op => { op := op })

end Dagron.Store
