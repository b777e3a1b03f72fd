import Dagron.Artifact.LogSteps

/-! What a reader of a task's log reads while it is written, closed, begun again and swept: a
beginning of what is written, with all that was there as it began, or that the log moved on. What a
removal leaves.
-/

namespace Dagron.Artifact

open Dagron.Library

-- Removals

/-- A row is not past its own writing, and each removal was told of a writing no later than it is. -/
structure RowInv (world : LogWorld) : Prop where
  fence
    : ∀ row, world.row = some row → row.writing.fence ≤ row.version
  begun
    : ∀ row, world.row = some row →
      (row.log = none ↔ row.logFence = none) ∧ (row.log = none → row.logGen = none)
  looked
    : ∀ current ∈ world.looked, ∀ row, world.row = some row →
      ∃ writing, current = some writing ∧ row.writing.before writing = false

section Rows

variable {world after : LogWorld}

theorem RowInv.of_row (inv : RowInv world) (looked : after.looked = world.looked)
    (moved : ∀ new, after.row = some new → ∃ row, world.row = some row
      ∧ new.writing.before row.writing = false ∧ new.writing.fence ≤ new.version
      ∧ (new.log = none ↔ new.logFence = none) ∧ (new.log = none → new.logGen = none))
    : RowInv after := by
  refine ⟨fun new found => ?_, fun new found => ?_, fun current listed new found => ?_⟩
  · obtain ⟨row, before, later, fence, begun⟩ := moved new found
    exact fence
  · obtain ⟨row, before, later, fence, begun⟩ := moved new found
    exact begun
  · obtain ⟨row, before, later, fence, begun⟩ := moved new found
    obtain ⟨writing, told, kept⟩ := inv.looked current (looked ▸ listed) row before
    refine ⟨writing, told, ?_⟩
    rw [not_before_iff] at later kept ⊢
    omega

theorem RowInv.same (inv : RowInv world) (looked : after.looked = world.looked)
    (row : after.row = world.row)
    : RowInv after := by
  refine inv.of_row looked fun new found => ?_
  rw [row] at found
  exact ⟨new, found, by simp [Writing.before], inv.fence new found, inv.begun new found⟩

theorem RowInv.kept (inv : RowInv world) (looked : after.looked = world.looked) {row new : LogRow}
    (found : world.row = some row) (held : after.row = some new) (writing : new.writing = row.writing)
    (version : row.version ≤ new.version)
    (begun : (new.log = none ↔ new.logFence = none) ∧ (new.log = none → new.logGen = none))
    : RowInv after := by
  refine inv.of_row looked fun other found' => ?_
  obtain rfl := Option.some.inj (held.symm.trans found')
  refine ⟨row, found, by simp [writing, Writing.before], ?_, begun⟩
  rw [writing]
  exact (inv.fence row found).trans version

theorem RowInv.again (inv : RowInv world) {running : Bool}
    (done : world.operate (.again running) = some after)
    : RowInv after := by
  obtain ⟨row, found, rfl⟩ := Option.map_eq_some_iff.mp done
  refine inv.of_row rfl fun new held => ?_
  obtain rfl := Option.some.inj held
  refine ⟨row, found, ?_, le_rfl, by simp, by simp⟩
  have fence := inv.fence row found
  rw [not_before_iff]
  exact Or.inl (Nat.lt_succ_of_le fence)

theorem RowInv.moveOn (inv : RowInv world) {running : Bool}
    (done : world.operate (.moveOn running) = some after)
    : RowInv after := by
  obtain ⟨row, found, rfl⟩ := Option.map_eq_some_iff.mp done
  have begun := inv.begun row found
  by_cases log : row.log = none
  · refine inv.of_row rfl fun new held => ?_
    obtain rfl := Option.some.inj held
    refine ⟨row, found, ?_, ?_, begun⟩
    · simp [not_before_iff, LogRow.writing, log]
    · simp [LogRow.writing, log]
  · obtain ⟨fenced, given⟩ := Option.ne_none_iff_exists'.mp fun none_ => log (begun.1.mpr none_)
    refine inv.kept rfl found rfl ?_ (Nat.le_succ _) begun
    simp [LogRow.writing, log, given]

theorem RowInv.reset (inv : RowInv world) {fence : Nat} {text : List Char}
    (done : world.reset fence text = some after)
    : RowInv after := by
  simp only [LogWorld.reset] at done
  split at done
  case h_1 => cases done
  case h_2 row found =>
    simp only [Option.ite_none_right_eq_some] at done
    obtain ⟨⟨rfl, -, -⟩, done⟩ := done
    obtain rfl := Option.some.inj done
    refine inv.of_row rfl fun new held => ?_
    obtain rfl := Option.some.inj held
    have below := inv.fence row found
    refine ⟨row, found, ?_, le_rfl, by simp, by simp⟩
    simp only [not_before_iff, LogRow.writing] at below ⊢
    simp only [Option.isNone_some, Bool.false_eq_true, if_false, Option.getD_some]
    omega

theorem RowInv.note (inv : RowInv world) {text : List Char} (done : world.note text = some after)
    : RowInv after := by
  simp only [LogWorld.note] at done
  split at done
  case h_1 => cases done
  case h_2 row found =>
    split at done
    case h_1 => cases done
    case h_2 log logged =>
      simp only [Option.ite_none_right_eq_some] at done
      obtain ⟨-, done⟩ := done
      obtain rfl := Option.some.inj done
      have begun := inv.begun row found
      have writing : ({ row with log := some (log ++ text) } : LogRow).writing = row.writing := by
        simp [LogRow.writing, logged]
      split_ifs
      all_goals exact inv.kept rfl found rfl writing le_rfl (by simpa [logged] using begun)

theorem RowInv.append (inv : RowInv world) {fence : Nat} {text : List Char}
    (done : world.append fence text = some after)
    : RowInv after := by
  simp only [LogWorld.append] at done
  split_ifs at done with idle kept
  · split at done
    case h_1 => cases done
    case h_2 row found =>
      simp only [Option.ite_none_right_eq_some] at done
      obtain ⟨⟨rfl, -, same⟩, done⟩ := done
      obtain rfl := Option.some.inj done
      exact inv.kept rfl found rfl (row.begins_writing same text) le_rfl (by simp)
  · split at done
    case h_1 => cases done
    case h_2 own knows =>
      obtain rfl := Option.some.inj done
      exact inv.same rfl rfl

theorem RowInv.record (inv : RowInv world) {fence : Nat} (done : world.record fence = some after)
    : RowInv after := by
  obtain ⟨closing, closes, done⟩ := Option.bind_eq_some_iff.mp done
  simp only [Option.ite_none_right_eq_some] at done
  obtain ⟨-, done⟩ := done
  obtain rfl := Option.some.inj done
  refine inv.of_row rfl fun new held => ?_
  obtain ⟨row, found, rfl⟩ := Option.map_eq_some_iff.mp held
  have fence := inv.fence row found
  have begun := inv.begun row found
  refine ⟨row, found, ?_⟩
  split_ifs
  · refine ⟨?_, ?_, ?_⟩
    · simp [Writing.before, LogRow.writing]
    · simpa [LogRow.writing] using fence
    · simpa using begun
  · exact ⟨by simp [Writing.before], fence, begun⟩

theorem RowInv.look (inv : RowInv world) (done : world.operate .look = some after)
    : RowInv after := by
  obtain rfl := Option.some.inj done
  refine { inv with looked := fun current listed row found => ?_ }
  obtain listed | told := List.mem_append.mp listed
  · exact inv.looked current listed row found
  · obtain rfl := List.mem_singleton.mp told
    exact ⟨row.writing, congrArg (Option.map LogRow.writing) found, by simp [Writing.before]⟩

theorem RowInv.step (inv : RowInv world) {op : LogOp} (done : world.operate op = some after)
    : RowInv after := by
  cases op with
  | again running => exact inv.again done
  | moveOn running => exact inv.moveOn done
  | stop =>
      obtain ⟨row, found, rfl⟩ := Option.map_eq_some_iff.mp done
      exact inv.kept rfl found rfl rfl le_rfl (inv.begun row found)
  | delete =>
      obtain rfl := Option.some.inj done
      exact inv.of_row rfl (by rintro _ ⟨⟩)
  | reset fence text => exact inv.reset done
  | learn fence =>
      simp only [LogWorld.operate, LogWorld.learn] at done
      split at done
      · cases done
      · simp only [Option.ite_none_right_eq_some] at done
        obtain rfl := Option.some.inj done.2
        exact inv.same rfl rfl
  | append fence text => exact inv.append done
  | note text => exact inv.note done
  | close fence pieces rest =>
      simp only [LogWorld.operate, LogWorld.close] at done
      split at done
      · cases done
      · simp only [Option.ite_none_right_eq_some] at done
        obtain rfl := Option.some.inj done.2
        exact inv.same rfl rfl
  | put fence =>
      obtain ⟨closing, -, done⟩ := Option.bind_eq_some_iff.mp done
      obtain ⟨piece, -, rfl⟩ := Option.map_eq_some_iff.mp done
      exact inv.same rfl rfl
  | rewrite fence | removeOpen fence | finish fence =>
      obtain ⟨closing, -, done⟩ := Option.bind_eq_some_iff.mp done
      simp only [Option.ite_none_right_eq_some] at done
      obtain rfl := Option.some.inj done.2
      exact inv.same rfl rfl
  | record fence => exact inv.record done
  | fail fence | step =>
      obtain rfl := Option.some.inj done
      exact inv.same rfl rfl
  | look => exact inv.look done
  | sweep current name =>
      simp only [LogWorld.operate, Option.ite_none_right_eq_some] at done
      obtain rfl := Option.some.inj done.2
      exact inv.same rfl rfl
  | read =>
      obtain ⟨row, -, rfl⟩ := Option.map_eq_some_iff.mp done
      exact inv.same rfl rfl

end Rows

variable {task : List Char} {openInRow : Bool} {world : LogWorld}

theorem reachable_rows {allowed : LogOp → LogWorld → Prop}
    (reachable : (logSystem task openInRow).Reachable allowed world)
    : RowInv world := by
  refine @System.Reachable.invariant _ _ _ _ RowInv _ reachable ⟨?_, ?_, nofun⟩ ?_
  · rintro _ ⟨rfl⟩
    exact le_rfl
  · rintro _ ⟨rfl⟩
    simp
  · intro op origin _ commit member before _
    obtain ⟨after, done, rfl⟩ := mem_commitsFrom_toList.mp member
    exact before.step done

/-- In every run, what a removal takes of a task whose row is there is of a writing before the
row's.
-/
theorem sweep_keeps {allowed : LogOp → LogWorld → Prop}
    (reachable : (logSystem task openInRow).Reachable allowed world) {after : LogWorld}
    {current : Option Writing} {name : ObjectName}
    (swept : world.operate (.sweep current name) = some after) {row : LogRow}
    (found : world.row = some row) {writing : Writing} (kept : writing.before row.writing = false)
    (seq : Nat)
    : after.objects ((world.key writing).segment seq) = world.objects ((world.key writing).segment seq)
      ∧ after.objects ((world.key writing).openPart seq)
        = world.objects ((world.key writing).openPart seq) := by
  simp only [LogWorld.operate, Option.ite_none_right_eq_some] at swept
  obtain ⟨⟨told, -, taken⟩, done⟩ := swept
  obtain rfl := Option.some.inj done
  obtain ⟨own, rfl, later⟩ := (reachable_rows reachable).looked current told row found
  have stays : doomed (some own) writing.name = false := by
    apply not_doomed
    rw [not_before_iff] at kept later ⊢
    omega
  have apart {other : ObjectName} (of_ : other.writing = writing.name) : other ≠ name := by
    rintro rfl
    rw [of_, stays] at taken
    cases taken
  exact ⟨put_other (apart rfl) none, put_other (apart rfl) none⟩

-- Reads

/-- What a reader that is done has read: the text of the log as it was written when the reader
began, or, where the open part is an object, with some of what was written of it since, and then the
row's own text; or that nothing of it is kept, where nothing was written but what the row holds.
-/
def ReadWhole (world : LogWorld) : Prop :=
  ∀ reader assembled, world.reader = some reader → reader.reading = .done assembled →
    match assembled with
    | .moved => True
    | .nothing => world.durable = if world.openInRow then reader.row.getD [] else []
    | .kept text =>
        if world.openInRow then
          text = world.durable ∧ world.durable <+: world.written reader.key.writing
        else
          ∃ own, text = own ++ reader.row.getD [] ∧ world.durable <+: own
            ∧ own <+: world.written reader.key.writing

/-- Each step of a steady run but one that records segments keeps what holds of a log, with its pieces. -/
theorem LogInv.kept {after : LogWorld} {pieces : Writing → List (List Char)} (inv : LogInv world pieces)
    {op : LogOp} (done : world.operate op = some after) (steady : Steady op world)
    (other : ∀ fence, op ≠ .record fence)
    : LogInv after pieces := by
  cases op with
  | again running => exact inv.again done
  | moveOn running => exact inv.moveOn done
  | stop => exact inv.stop done
  | delete =>
      obtain rfl := Option.some.inj done
      exact inv.delete
  | reset fence text => exact inv.reset done
  | learn fence => exact inv.learn done steady
  | append fence text => exact inv.append done steady
  | note text => exact inv.note done
  | close fence texts rest => exact inv.close done
  | put fence => exact inv.put done
  | rewrite fence => exact inv.rewrite done
  | record fence => exact absurd rfl (other fence)
  | removeOpen fence => exact inv.removeOpen done
  | finish fence => exact inv.finish done
  | fail fence => exact inv.fail done
  | look => exact inv.look done
  | sweep current name => exact inv.sweep done
  | read => exact inv.read done
  | step =>
      obtain rfl := Option.some.inj done
      refine { inv with closings := ?_, reader := ?_ }
      · exact fun fence closing closes => { inv.closings fence closing closes with }
      · intro reader reads
        obtain ⟨before, held, rfl⟩ := Option.map_eq_some_iff.mp reads
        exact { (inv.reader before held).step inv fun first => steady before held first with }

theorem LogInv.step {after : LogWorld} {pieces : Writing → List (List Char)} (inv : LogInv world pieces)
    {op : LogOp} (done : world.operate op = some after) (steady : Steady op world)
    : ∃ more, LogInv after more := by
  by_cases recorded : ∃ fence, op = .record fence
  · obtain ⟨fence, rfl⟩ := recorded
    obtain ⟨closing, -, kept⟩ := inv.record done steady
    exact ⟨_, kept⟩
  · exact ⟨pieces, inv.kept done steady fun fence same => recorded ⟨fence, same⟩⟩

theorem LogInv.initial (task : List Char) (openInRow : Bool)
    : LogInv { task := task, openInRow := openInRow } fun _ => [] := by
  refine {
    fence := ?_, begun := ?_, fresh := ?_, counted := ?_, rows := ?_, segments := nofun
    openPart := fun _ _ => Or.inr ⟨rfl, rfl⟩, row := ?_, known := nofun, seq := nofun
    closings := nofun, reader := nofun }
  · rintro _ ⟨rfl⟩
    exact le_rfl
  · rintro _ ⟨rfl⟩
    simp
  · exact fun _ _ _ _ => ⟨rfl, rfl, fun _ => ⟨rfl, rfl⟩⟩
  · exact fun _ _ _ => nofun
  · exact fun _ _ => rfl
  · rintro - _ ⟨rfl⟩
    rfl

theorem reachable_inv (reachable : (logSystem task openInRow).Reachable Steady world)
    : ∃ pieces, LogInv world pieces := by
  refine @System.Reachable.invariant _ _ _ _ (fun world => ∃ pieces, LogInv world pieces) _ reachable
    ⟨fun _ => [], .initial task openInRow⟩ ?_
  rintro op origin - commit member ⟨pieces, before⟩ steady
  obtain ⟨after, done, rfl⟩ := mem_commitsFrom_toList.mp member
  exact before.step done steady

/-- In every steady run a reader reads a log whole, and a removal leaves the row's writing and each
later one.
-/
theorem reads_are_whole (reachable : (logSystem task openInRow).Reachable Steady world)
    : ReadWhole world
      ∧ ∀ current name after, world.operate (.sweep current name) = some after →
        ∀ row, world.row = some row → ∀ writing : Writing, writing.before row.writing = false →
          ∀ seq, after.objects ((world.key writing).segment seq)
              = world.objects ((world.key writing).segment seq)
            ∧ after.objects ((world.key writing).openPart seq)
              = world.objects ((world.key writing).openPart seq) := by
  refine ⟨?_, fun current name after swept row found writing kept seq =>
    sweep_keeps reachable swept found kept seq⟩
  obtain ⟨pieces, inv⟩ := reachable_inv reachable
  intro reader assembled reads done
  have own := inv.reader reader reads
  cases assembled with
  | moved => trivial
  | nothing =>
      obtain ⟨inRow, apart⟩ := own.nothing done
      split_ifs with kept
      · exact inRow kept
      · exact apart (by simpa using kept)
  | kept text =>
      obtain ⟨inRow, apart⟩ := own.kept text done
      dsimp only
      split_ifs with kept
      · exact ⟨inRow kept, own.durable⟩
      · exact apart (by simpa using kept)

-- Runs

instance decidableSteady
    : ∀ op world, Decidable (Steady op world)
  | .learn fence, world =>
      inferInstanceAs (Decidable (∀ row ∈ world.row, row.writing.fence = fence))
  | .append fence _, world =>
      inferInstanceAs (Decidable (world.openInRow = false → ∀ own ∈ world.writers fence,
        ¬ ∃ current ∈ world.looked, doomed current (Writing.mk fence own.gen).name))
  | .record fence, world =>
      inferInstanceAs (Decidable (world.openInRow = true → ∀ row ∈ world.row,
        row.writing.fence = fence → row.version = fence))
  | .step, world =>
      inferInstanceAs (Decidable (∀ reader ∈ world.reader, reader.reading = .first →
        ¬ ∃ current ∈ world.looked, doomed current reader.key.writing.name))
  | .again _, _ | .moveOn _, _ | .stop, _ | .delete, _ | .reset .., _ | .note _, _ | .close .., _
  | .put _, _ | .rewrite _, _ | .removeOpen _, _ | .finish _, _ | .fail _, _ | .look, _
  | .sweep .., _ | .read, _ => isTrue trivial

def exampleTask : List Char :=
  ['t']

/-- A log that is closed once before it is read, and added to while it is. -/
def closedRun : List LogOp :=
  [.again true, .learn 1, .append 1 "abcd".toList, .close 1 ["ab".toList] "cd".toList, .put 1,
    .rewrite 1, .record 1, .finish 1, .read, .step, .append 1 "e".toList, .step]

theorem reads_are_whole_of_closedRun
    : (((logSystem exampleTask false).outcome { task := exampleTask, openInRow := false }
          closedRun).reader.map Reader.reading = some (.done (.kept "abcde".toList)))
      ∧ ReadWhole ((logSystem exampleTask false).outcome { task := exampleTask, openInRow := false }
          closedRun) :=
  ⟨by decide +kernel, (reads_are_whole (.outcome (by decide +kernel))).1⟩

/-- A log that is begun again and removed once a reader has counted its segments. -/
def removedRun : List LogOp :=
  [.again true, .learn 1, .append 1 "ab".toList, .read, .reset 1 [], .look,
    .sweep (some ⟨1, 1⟩) (LogKey.openPart ⟨exampleTask, ⟨1, 0⟩⟩ 0), .step, .step]

/-- A log of a store that keeps the open part in the row, whose row moves on with it before what was
closed of it is recorded.
-/
def movedRun : List LogOp :=
  [.again true, .learn 1, .append 1 "ab".toList, .close 1 ["a".toList] "b".toList, .put 1,
    .moveOn false, .record 1, .read, .step, .step]

/-- A log whose open part was removed under its reader reads as never begun, and one whose row kept
what was closed of it is read with that twice.
-/
theorem some_logs_are_not_read_whole
    : ¬ ReadWhole ((logSystem exampleTask false).outcome { task := exampleTask, openInRow := false }
          removedRun)
      ∧ ¬ ReadWhole ((logSystem exampleTask true).outcome { task := exampleTask, openInRow := true }
          movedRun) := by
  constructor
  · intro whole
    have lost := whole
      { key := ⟨exampleTask, ⟨1, 0⟩⟩, segments := 0, row := none, reading := .done .nothing }
      .nothing (by decide +kernel) rfl
    exact absurd lost (by decide +kernel)
  · intro whole
    have twice := whole {
      key := ⟨exampleTask, ⟨1, 0⟩⟩
      segments := 1
      row := some "ab".toList
      text := "a".toList
      next := 1
      reading := .done (.kept "aab".toList) } (.kept "aab".toList) (by decide +kernel) rfl
    exact absurd twice.1 (by decide +kernel)

end Dagron.Artifact
