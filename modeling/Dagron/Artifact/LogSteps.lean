import Mathlib.Data.List.Infix
import Dagron.Artifact.LogInvariant

/-! Each thing that happens to a task's log keeps what holds of it: what its row does, what an
attempt's writer does, what a removal takes, and what a reader reads.
-/

namespace Dagron.Artifact

open Dagron.Library

variable {world after : LogWorld} {pieces : Writing → List (List Char)} {fence : Nat}

-- The row

theorem LogInv.again (inv : LogInv world pieces) {running : Bool}
    (done : world.operate (.again running) = some after)
    : LogInv after pieces := by
  obtain ⟨row, found, rfl⟩ := Option.map_eq_some_iff.mp done
  have fence := inv.fence row found
  refine inv.later found ?_ le_rfl (by simp) rfl (fun entry listed => ⟨listed, ?_⟩) ?_
  · rw [before_iff]
    exact Or.inl (Nat.lt_succ_of_le fence)
  · exact Nat.lt_succ_of_le ((inv.counted row found entry listed).trans fence)
  · intro own_ own known same
    obtain ⟨kept, -⟩ := inv.known own_ own known row found
    rw [not_before_iff] at kept
    simp only [LogRow.writing] at same kept fence
    simp only [Option.isNone_none, if_true] at same
    omega

theorem LogInv.moveOn (inv : LogInv world pieces) {running : Bool}
    (done : world.operate (.moveOn running) = some after)
    : LogInv after pieces := by
  obtain ⟨row, found, rfl⟩ := Option.map_eq_some_iff.mp done
  have fence := inv.fence row found
  obtain ⟨iff, gen⟩ := inv.begun row found
  by_cases log : row.log = none
  · refine inv.later found ?_ ?_ ?_ ?_ (fun entry listed => ⟨listed, ?_⟩) ?_
    · simp [before_iff, LogRow.writing, log]
    · simp [LogRow.writing, log]
    · exact ⟨iff, gen⟩
    · simp [log]
    · have counted := inv.counted row found entry listed
      simp only [LogRow.writing, log] at counted ⊢
      exact Nat.lt_succ_of_le counted
    · intro own_ own known same
      obtain ⟨kept, -⟩ := inv.known own_ own known row found
      rw [not_before_iff] at kept
      simp only [LogRow.writing, log, Option.isNone_none, if_true] at same kept
      omega
  · obtain ⟨fenced, given⟩ := Option.ne_none_iff_exists'.mp fun none_ => log (iff.mpr none_)
    have alike : ({ row with version := row.version + 1, running := running } : LogRow).writing
        = row.writing := by
      simp [LogRow.writing, log, given]
    refine inv.same found alike (fun _ => rfl) ?_ ⟨iff, gen⟩
    rw [alike]
    exact Nat.le_succ_of_le fence

theorem LogInv.stop (inv : LogInv world pieces) (done : world.operate .stop = some after)
    : LogInv after pieces := by
  obtain ⟨row, found, rfl⟩ := Option.map_eq_some_iff.mp done
  exact inv.same found rfl (fun _ => rfl) (inv.fence row found) (inv.begun row found)

theorem LogInv.delete (inv : LogInv world pieces)
    : LogInv { world with row := none } pieces := by
  refine { inv with
    fence := nofun, begun := nofun, fresh := nofun, counted := nofun, rows := nofun
    row := nofun, known := nofun, closings := ?_, reader := ?_ }
  · exact fun own closing closes => (inv.closings own closing closes).of_row fun _ => nofun
  · exact fun reader reads => { inv.reader reader reads with }

theorem LogInv.addRow (inv : LogInv world pieces) (kept : world.openInRow = true) {row new : LogRow}
    {text : List Char} (found : world.row = some row) (writing : new.writing = row.writing)
    (log : new.log.getD [] = row.log.getD [] ++ text) (fence : new.writing.fence ≤ new.version)
    (begun : (new.log = none ↔ new.logFence = none) ∧ (new.log = none → new.logGen = none))
    (more : ∀ before, row.log = some before → new.log = some (before ++ text))
    : LogInv ({ world with row := some new }.write row.writing text) pieces := by
  have closed : world.openInRow ≠ false := by simp [kept]
  refine { inv with
    fence := ?_, begun := ?_, fresh := ?_, counted := ?_, rows := ?_, openPart := ?_, row := ?_
    known := ?_, closings := ?_, reader := ?_ }
  · rintro _ ⟨rfl⟩
    exact fence
  · rintro _ ⟨rfl⟩
    exact begun
  · rintro _ ⟨rfl⟩ other later
    rw [writing] at later
    have apart : other ≠ row.writing := by
      rintro rfl
      simp [before_iff] at later
    have fresh := inv.fresh row found other later
    simpa only [LogWorld.write, replace_other apart] using fresh
  · rintro _ ⟨rfl⟩
    rw [writing]
    exact inv.counted row found
  · rintro _ ⟨rfl⟩
    rw [writing]
    exact inv.rows row found
  · exact fun absent => absurd absent closed
  · rintro - _ ⟨rfl⟩
    have written := inv.row kept row found
    simp only [LogWorld.write, writing, replace_same, log, written, List.append_assoc]
  · rintro own_ own known _ ⟨rfl⟩
    rw [writing]
    exact inv.known own_ own known row found
  · intro own closing closes
    have closing := inv.closings own closing closes
    refine { closing with
      whole := fun _ absent => absurd absent closed
      row := ?_ }
    rintro still - _ ⟨rfl⟩ same
    obtain ⟨rest, read⟩ := closing.row still kept row found (writing.symm.trans same)
    exact ⟨rest ++ text, by rw [more _ read, List.append_assoc]⟩
  · intro reader reads
    have before := (inv.reader reader reads).of_write row.writing text
    exact { before with }

-- The writers

theorem LogInv.fail (inv : LogInv world pieces) (done : world.operate (.fail fence) = some after)
    : LogInv after pieces := by
  obtain rfl := Option.some.inj done
  exact inv.idle nofun

theorem LogInv.learned (inv : LogInv world pieces) {row : LogRow} (found : world.row = some row)
    : ((((world.closed.filter (·.1 = row.writing.fence)).map Prod.snd).max?).map (· + 1)).getD 0
      = (pieces row.writing).length := by
  rw [inv.rows row found, List.map_map]
  have numbers : (List.range (pieces row.writing).length).map (Prod.snd ∘ (row.writing.fence, ·))
      = List.range (pieces row.writing).length :=
    List.map_id _
  rw [numbers]
  cases (pieces row.writing).length with
  | zero => rfl
  | succ count =>
      have most : (List.range (count + 1)).max? = some count := by
        rw [List.max?_eq_some_iff]
        simp [Nat.lt_succ_iff]
      rw [most]
      rfl

/-- A writer learns the segment after those of its attempt, as long as the row's log is of it. -/
theorem LogInv.learn (inv : LogInv world pieces) (done : world.learn fence = some after)
    (steady : Steady (.learn fence) world)
    : LogInv after pieces := by
  simp only [LogWorld.learn] at done
  split at done
  case h_1 => cases done
  case h_2 row found =>
    split_ifs at done with idle
    obtain rfl := Option.some.inj done
    obtain rfl := steady row found
    have rest := @LogInv.idle _ _ inv row.writing.fence
        (some ⟨row.writing.gen, (pieces row.writing).length⟩) fun open_ same => by
      obtain rfl := Option.some.inj same
      refine ⟨fun other found' => ?_, rfl⟩
      obtain rfl := Option.some.inj (found.symm.trans found')
      exact ⟨by simp [Writing.before], fun _ => rfl⟩
    simp only [inv.learned found]
    rw [← idle, replace_self] at rest
    exact rest

theorem LogInv.reset (inv : LogInv world pieces) {text : List Char}
    (done : world.reset fence text = some after)
    : LogInv after pieces := by
  simp only [LogWorld.reset] at done
  split at done
  case h_1 => cases done
  case h_2 row found =>
    simp only [Option.ite_none_right_eq_some] at done
    obtain ⟨⟨rfl, -, idle⟩, done⟩ := done
    obtain rfl := Option.some.inj done
    have below := inv.fence row found
    -- The writer knows nothing of the writing before, and the row's next writing has no text yet.
    have forgot := @LogInv.idle _ _ inv row.version none (by rintro _ ⟨⟩)
    rw [← idle, replace_self] at forgot
    let fresh : LogRow :=
      { row with log := some [], logFence := some row.version, logGen := some (row.logGen.getD 0 + 1) }
    have later : row.writing.before fresh.writing := by
      simp only [before_iff, LogRow.writing, fresh] at below ⊢
      simp only [Option.isNone_some, Bool.false_eq_true, if_false, Option.getD_some]
      omega
    have begun := @LogInv.later _ _ forgot row fresh found later le_rfl (by simp [fresh]) rfl
      (world.closed.filter (row.version < ·.1)) (fun entry listed => by
        obtain ⟨listed, after⟩ := List.mem_filter.mp listed
        have counted := (inv.counted row found entry listed).trans below
        exact absurd (of_decide_eq_true after) (Nat.not_lt.mpr counted)) (fun own_ own known same => by
        have same : own_ = row.version := same.symm
        simp [same] at known)
    obtain ⟨none_, -, -⟩ := inv.fresh row found fresh.writing later
    have knows := @LogInv.idle _ _ begun row.version (some ⟨row.logGen.getD 0 + 1, 0⟩)
      fun open_ same => by
        obtain rfl := Option.some.inj same
        refine ⟨?_, ?_⟩
        · rintro _ ⟨rfl⟩
          simp [fresh, LogRow.writing, Writing.before]
        · exact (congrArg List.length none_).symm
    simp only [replace_replace] at knows
    rw [← idle, replace_self] at knows
    by_cases kept : world.openInRow = true
    · rw [if_pos kept]
      refine @LogInv.addRow _ _ knows kept fresh { fresh with log := some text } text rfl rfl rfl
        le_rfl (by simp [fresh]) ?_
      rintro _ ⟨rfl⟩
      rfl
    · simpa [kept, LogWorld.write] using knows

theorem LogInv.note (inv : LogInv world pieces) {text : List Char} (done : world.note text = some after)
    : LogInv after pieces := by
  simp only [LogWorld.note] at done
  split at done
  case h_1 => exact absurd done nofun
  case h_2 row found =>
    split at done
    case h_1 => exact absurd done nofun
    case h_2 log logged =>
      split_ifs at done with running kept
      · obtain rfl := Option.some.inj done
        have begun := inv.begun row found
        have writing : ({ row with log := some (log ++ text) } : LogRow).writing = row.writing := by
          simp [LogRow.writing, logged]
        refine @LogInv.addRow _ _ inv kept row _ text found writing (by simp [logged]) ?_ ?_ ?_
        · rw [writing]
          exact inv.fence row found
        · simpa [logged] using begun
        · intro before same
          rw [Option.some.inj (logged.symm.trans same)]
      · obtain rfl := Option.some.inj done
        have begun := inv.begun row found
        have writing : ({ row with log := some (log ++ text) } : LogRow).writing = row.writing := by
          simp [LogRow.writing, logged]
        refine inv.same found writing (fun still => absurd still kept) ?_ ?_
        · rw [writing]
          exact inv.fence row found
        · simpa [logged] using begun

-- The open part

theorem LogInv.open_ (inv : LogInv world pieces) (kept : world.openInRow = false) {writing : Writing}
    (there : ¬ Gone world.looked writing)
    : world.written writing = (pieces writing).flatten
      ++ (world.objects ((world.key writing).openPart (pieces writing).length)).getD [] := by
  have found := inv.openPart kept writing
  split at found
  case h_1 text read => simpa [read] using found
  case h_2 read =>
    obtain gone | ⟨none_, unwritten⟩ := found
    · exact absurd gone there
    · rw [read, none_, unwritten]
      rfl

theorem ReaderInv.key_eq {reader : Reader} (inv : ReaderInv world pieces reader)
    : reader.key = world.key reader.key.writing := by
  rw [LogWorld.key, ← inv.task]

theorem LogInv.addOpen (inv : LogInv world pieces) (kept : world.openInRow = false) {own : Open}
    (knows : world.writers fence = some own) (idle : world.closings fence = none)
    (there : ¬ Gone world.looked ⟨fence, own.gen⟩) (text : List Char)
    : LogInv ({ world with
        objects := world.objects.put ((world.key ⟨fence, own.gen⟩).openPart own.seq)
          (some ((world.objects ((world.key ⟨fence, own.gen⟩).openPart own.seq)).getD [] ++ text))
        }.write ⟨fence, own.gen⟩ text) pieces := by
  have last := inv.seq fence own knows idle
  have written := inv.open_ kept there
  rw [← last] at written
  refine { inv with fresh := ?_, segments := ?_, openPart := ?_, row := ?_, closings := ?_, reader := ?_ }
  · intro row found writing later
    obtain ⟨none_, unwritten, absent⟩ := inv.fresh row found writing later
    have apart : writing ≠ ⟨fence, own.gen⟩ := by
      rintro rfl
      rw [(inv.known fence own knows row found).1] at later
      cases later
    refine ⟨none_, (replace_other apart _).trans unwritten, fun seq => ?_⟩
    simp only [LogWorld.write, LogWorld.key] at absent ⊢
    rw [put_other (by simp), put_other (by simp [apart])]
    exact absent seq
  · intro writing seq piece listed
    exact (inv.segments writing seq piece listed).put (by simp) _
  · rintro - writing
    by_cases same : writing = ⟨fence, own.gen⟩
    · subst same
      simp only [LogWorld.write, LogWorld.key, ← last, put_same, replace_same] at written ⊢
      rw [written, List.append_assoc]
    · simp only [LogWorld.write, LogWorld.key, replace_other same]
      rw [put_other (by simp [same])]
      exact inv.openPart kept writing
  · exact fun inRow => absurd inRow (by simp [LogWorld.write, kept])
  · intro other closing closes
    have apart : other ≠ fence := by
      rintro rfl
      cases (idle.symm.trans closes)
    exact ((inv.closings other closing closes).of_put (by simp [apart])).of_write (by simp [apart])
  · intro reader reads
    have before := inv.reader reader reads
    by_cases same : reader.key.openPart reader.segments
        = (world.key ⟨fence, own.gen⟩).openPart own.seq
    · refine { before.of_write ⟨fence, own.gen⟩ text with openPart := fun _ found => ?_ }
      rintro read
      rw [before.key_eq, openPart_inj] at same
      obtain ⟨writing, segments⟩ := same
      rw [before.key_eq, writing, segments] at read
      obtain rfl := Option.some.inj ((put_same _ _).symm.trans read)
      have all : (pieces reader.key.writing).take reader.segments = pieces reader.key.writing := by
        rw [writing, segments, last, List.take_length]
      have whole : ((pieces reader.key.writing).take reader.segments).flatten
          ++ ((world.objects ((world.key ⟨fence, own.gen⟩).openPart own.seq)).getD [] ++ text)
          = (world.write ⟨fence, own.gen⟩ text).written reader.key.writing := by
        rw [all, writing, write_same, written, List.append_assoc]
      have more := before.durable.trans (prefix_write ⟨fence, own.gen⟩ reader.key.writing text)
      refine ⟨?_, ?_⟩
      · rw [whole]
        exact more
      · rw [whole]
        exact List.prefix_refl _
    · exact (before.of_put same).of_write _ _

theorem LogRow.begins_writing (row : LogRow) (same : row.writing.fence = row.version) (text : List Char)
    : ({ row with log := some (row.log.getD [] ++ text), logFence := some row.version } : LogRow).writing
      = row.writing := by
  by_cases log : row.log = none
  · simp [LogRow.writing, log]
  · simp only [LogRow.writing, Option.isNone_iff_eq_none, log, if_false] at same ⊢
    simp [same]

theorem LogInv.append (inv : LogInv world pieces) {text : List Char}
    (done : world.append fence text = some after) (steady : Steady (.append fence text) world)
    : LogInv after pieces := by
  simp only [LogWorld.append] at done
  split_ifs at done with idle kept
  · split at done
    case h_1 => exact absurd done nofun
    case h_2 row found =>
      simp only [Option.ite_none_right_eq_some] at done
      obtain ⟨⟨rfl, -, same⟩, done⟩ := done
      obtain rfl := Option.some.inj done
      have begun := inv.begun row found
      have below := inv.fence row found
      have writing := row.begins_writing same text
      rw [writing]
      refine @LogInv.addRow _ _ inv kept row _ text found writing rfl ?_ (by simp) ?_
      · rw [writing]
        exact below
      · intro before logged
        simp [logged]
  · split at done
    case h_1 => exact absurd done nofun
    case h_2 own knows =>
      obtain rfl := Option.some.inj done
      have kept : world.openInRow = false := by simpa using kept
      exact inv.addOpen kept knows (by simpa using idle) (steady kept own knows) text

-- Closing

theorem LogInv.closes (inv : LogInv world pieces) {closing : Closing}
    (own : ClosingInv world pieces fence closing)
    : LogInv { world with closings := replace world.closings fence (some closing) } pieces := by
  refine { inv with seq := ?_, closings := ?_, reader := ?_ }
  · intro other open_ knows idle
    by_cases same : other = fence
    · simp [same] at idle
    · simp only [replace_other same] at idle
      exact inv.seq other open_ knows idle
  · intro other read closes
    by_cases same : other = fence
    · subst same
      obtain rfl := Option.some.inj ((replace_same _).symm.trans closes)
      exact { own with }
    · simp only [replace_other same] at closes
      exact { inv.closings other read closes with }
  · intro reader reads
    exact { inv.reader reader reads with }

theorem LogInv.row_writing (inv : LogInv world pieces) {row : LogRow} (found : world.row = some row)
    (own : row.version = fence) {open_ : Open} (knows : world.writers fence = some open_)
    : row.writing = ⟨fence, open_.gen⟩ := by
  obtain ⟨kept, gen⟩ := inv.known fence open_ knows row found
  have below := inv.fence row found
  rw [not_before_iff] at kept
  have same : row.writing.fence = fence := by
    simp only at kept
    omega
  rw [gen same, ← same]

theorem LogInv.close (inv : LogInv world pieces) {texts : List (List Char)} {rest : List Char}
    (done : world.close fence texts rest = some after)
    : LogInv after pieces := by
  simp only [LogWorld.close] at done
  split at done
  case h_1 => cases done
  case h_2 own knows =>
    simp only [Option.ite_none_right_eq_some] at done
    obtain ⟨⟨idle, read⟩, done⟩ := done
    obtain rfl := Option.some.inj done
    have last := inv.seq fence own knows idle
    refine inv.closes {
      known := knows, put_le := Nat.zero_le _, next := fun _ => last, puts := (by rintro _ _ _ ⟨⟩)
      whole := fun _ kept => ?_, rest := (by intros; contradiction), row := fun _ kept row found same => ?_
      recorded := (by rintro ⟨⟩) }
    · have found := inv.openPart kept ⟨fence, own.gen⟩
      rw [← last] at found
      simp only [kept, Bool.false_eq_true, if_false] at read
      simpa only [read, List.append_assoc] using found
    · simp only [kept, if_true, found, Option.filter_some] at read
      split_ifs at read
      · exact ⟨rest, read⟩
      · cases read

/-- What an attempt that closes its open part puts, no segment that is recorded, leaves the log what
it is as long as its own next open part, its close and the reader are.
-/
theorem LogInv.puts (inv : LogInv world pieces) {closing next : Closing}
    (closes : world.closings fence = some closing) {name : ObjectName} {new : Option (List Char)}
    (within : ∀ writing seq, (world.key writing).segment seq = name
      ∨ (world.key writing).openPart seq = name → writing = ⟨fence, closing.gen⟩)
    (segments : ∀ seq, (world.key ⟨fence, closing.gen⟩).segment seq = name →
      (pieces ⟨fence, closing.gen⟩).length ≤ seq)
    (openPart : world.openInRow = false →
      (world.key ⟨fence, closing.gen⟩).openPart (pieces ⟨fence, closing.gen⟩).length = name →
        ∃ text, new = some text
          ∧ world.written ⟨fence, closing.gen⟩ = (pieces ⟨fence, closing.gen⟩).flatten ++ text)
    (own : ClosingInv { world with objects := world.objects.put name new } pieces fence next)
    (reader : ∀ reader, world.reader = some reader →
      ReaderInv { world with objects := world.objects.put name new } pieces reader)
    : LogInv { world with
        objects := world.objects.put name new
        closings := replace world.closings fence (some next) } pieces := by
  have known := (inv.closings fence closing closes).known
  refine { inv with
    fresh := ?_, segments := ?_, openPart := ?_, seq := ?_, closings := ?_, reader := ?_ }
  · intro row found writing later
    obtain ⟨none_, unwritten, absent⟩ := inv.fresh row found writing later
    have apart : writing ≠ ⟨fence, closing.gen⟩ := by
      rintro rfl
      rw [(inv.known fence _ known row found).1] at later
      exact absurd later nofun
    refine ⟨none_, unwritten, fun seq => ⟨?_, ?_⟩⟩
    · exact (put_other (fun same => apart (within writing seq (Or.inl same))) new).trans (absent seq).1
    · exact (put_other (fun same => apart (within writing seq (Or.inr same))) new).trans (absent seq).2
  · intro writing seq piece listed
    refine (inv.segments writing seq piece listed).put (fun same => ?_) new
    obtain rfl := within writing seq (Or.inl same)
    have below := (List.getElem?_eq_some_iff.mp listed).1
    exact absurd (segments seq same) (Nat.not_le.mpr below)
  · intro kept writing
    by_cases same : (world.key writing).openPart (pieces writing).length = name
    · obtain rfl := within writing _ (Or.inr same)
      obtain ⟨text, rfl, written⟩ := openPart kept same
      simp only [same, put_same]
      exact written
    · simp only [put_other same]
      exact inv.openPart kept writing
  · intro other open_ knows idle
    by_cases same : other = fence
    · simp [same] at idle
    · simp only [replace_other same] at idle
      exact inv.seq other open_ knows idle
  · intro other read closes_
    by_cases same : other = fence
    · subst same
      obtain rfl := Option.some.inj ((replace_same _).symm.trans closes_)
      exact { own with }
    · simp only [replace_other same] at closes_
      have apart (gen : Nat) : (⟨other, gen⟩ : Writing) ≠ ⟨fence, closing.gen⟩ := fun alike =>
        same (congrArg Writing.fence alike)
      have kept := @ClosingInv.of_put _ _ _ _ (inv.closings other read closes_) name new fun seq =>
        ⟨fun alike => apart _ (within _ seq (Or.inl alike)),
          fun alike => apart _ (within _ seq (Or.inr alike))⟩
      exact { kept with }
  · intro one reads
    exact { reader one reads with }

theorem segment_within (writing : Writing) (place : Nat) (other : Writing) (seq : Nat)
    (same : (world.key other).segment seq = (world.key writing).segment place
      ∨ (world.key other).openPart seq = (world.key writing).segment place)
    : other = writing := by
  obtain same | same := same
  · exact ((segment_inj _).mp same).1
  · exact absurd same.symm segment_ne_openPart

theorem openPart_within (writing : Writing) (place : Nat) (other : Writing) (seq : Nat)
    (same : (world.key other).segment seq = (world.key writing).openPart place
      ∨ (world.key other).openPart seq = (world.key writing).openPart place)
    : other = writing := by
  obtain same | same := same
  · exact absurd same segment_ne_openPart
  · exact ((openPart_inj _).mp same).1

theorem LogInv.put (inv : LogInv world pieces) (done : world.put fence = some after)
    : LogInv after pieces := by
  obtain ⟨closing, closes, done⟩ := Option.bind_eq_some_iff.mp done
  obtain ⟨piece, listed, rfl⟩ := Option.map_eq_some_iff.mp done
  have own := inv.closings fence closing closes
  have more : closing.put < closing.pieces.length := (List.getElem?_eq_some_iff.mp listed).1
  have still : closing.recorded = false := by
    rw [← Bool.not_eq_true]
    intro recorded
    have all := (own.recorded recorded).2.1
    omega
  have next := own.next still
  refine inv.puts closes (segment_within ⟨fence, closing.gen⟩ _) ?_ ?_ ?_ ?_
  · intro seq same
    obtain ⟨-, rfl⟩ := (segment_inj _).mp same
    omega
  · exact fun _ same => absurd same.symm segment_ne_openPart
  · refine { own with put_le := more, puts := ?_, rest := ?_, recorded := ?_ }
    · intro _ place other before found
      by_cases last : place = closing.put
      · subst last
        obtain rfl := Option.some.inj (listed.symm.trans found)
        exact Or.inl (put_same _ _)
      · exact (own.puts still place other (by simp only at before; omega) found).put (by simp [last]) _
    · intro _ kept rewritten
      exact (own.rest still kept rewritten).put segment_ne_openPart.symm _
    · exact fun recorded => absurd recorded (by simp [still])
  · intro reader reads
    exact (inv.reader reader reads).of_put segment_ne_openPart.symm

theorem LogInv.rewrite (inv : LogInv world pieces) (done : world.rewrite fence = some after)
    : LogInv after pieces := by
  obtain ⟨closing, closes, done⟩ := Option.bind_eq_some_iff.mp done
  simp only [Option.ite_none_right_eq_some] at done
  obtain ⟨⟨kept, all, first⟩, done⟩ := done
  obtain rfl := Option.some.inj done
  have own := inv.closings fence closing closes
  have still : closing.recorded = false := by
    rw [← Bool.not_eq_true]
    intro recorded
    exact absurd ((own.recorded recorded).2.2 kept) (by simp [first])
  have next := own.next still
  have whole := own.whole still kept
  have none_ (same : closing.pieces.length = 0) : closing.pieces.flatten = [] := by
    simp [List.eq_nil_of_length_eq_zero same]
  refine inv.puts closes (openPart_within ⟨fence, closing.gen⟩ _) ?_ ?_ ?_ ?_
  · exact fun _ same => absurd same segment_ne_openPart
  · intro _ same
    obtain ⟨-, same⟩ := (openPart_inj _).mp same
    refine ⟨_, rfl, ?_⟩
    rw [whole, none_ (by omega), List.append_nil]
  · refine { own with puts := ?_, rest := ?_, recorded := ?_ }
    · intro _ place other before found
      exact (own.puts still place other before found).put segment_ne_openPart _
    · exact fun _ _ _ => Or.inl (put_same _ _)
    · exact fun recorded => absurd recorded (by simp [still])
  · intro reader reads
    have before := inv.reader reader reads
    by_cases same : reader.key.openPart reader.segments
        = (world.key ⟨fence, closing.gen⟩).openPart (closing.seq + closing.pieces.length)
    · refine { before with openPart := fun _ text read => ?_ }
      have count := before.count
      rw [before.key_eq, openPart_inj] at same
      obtain ⟨writing, segments⟩ := same
      rw [writing] at count
      rw [before.key_eq, writing, segments] at read
      obtain rfl := Option.some.inj ((put_same _ _).symm.trans read)
      have length : reader.segments = (pieces ⟨fence, closing.gen⟩).length := by omega
      have read : (((pieces reader.key.writing).take reader.segments).flatten ++ closing.rest)
          = world.written reader.key.writing := by
        rw [writing, length, List.take_length, whole, none_ (by omega), List.append_nil]
      rw [read]
      exact ⟨before.durable, List.prefix_refl _⟩
    · exact before.of_put same

theorem LogInv.removeOpen (inv : LogInv world pieces) (done : world.removeOpen fence = some after)
    : LogInv after pieces := by
  obtain ⟨closing, closes, done⟩ := Option.bind_eq_some_iff.mp done
  simp only [Option.ite_none_right_eq_some] at done
  obtain ⟨⟨kept, recorded, more⟩, done⟩ := done
  obtain rfl := Option.some.inj done
  have own := inv.closings fence closing closes
  have last := (own.recorded recorded).1
  refine inv.puts closes (openPart_within ⟨fence, closing.gen⟩ _) ?_ ?_ ?_ ?_
  · exact fun _ same => absurd same segment_ne_openPart
  · intro _ same
    obtain ⟨-, same⟩ := (openPart_inj _).mp same
    omega
  · have never {goal : Prop} (still : closing.recorded = false) : goal := by simp [still] at recorded
    exact { own with
      next := fun still => never still, puts := fun still => never still
      whole := fun still => never still, rest := fun still => never still
      row := fun still => never still }
  · intro reader reads
    have before := inv.reader reader reads
    by_cases same : reader.key.openPart reader.segments
        = (world.key ⟨fence, closing.gen⟩).openPart closing.removed
    · refine { before with openPart := fun _ text read => ?_ }
      rw [same] at read
      cases ((put_same _ _).symm.trans read)
    · exact before.of_put same

theorem LogInv.finish (inv : LogInv world pieces) (done : world.finish fence = some after)
    : LogInv after pieces := by
  obtain ⟨closing, closes, done⟩ := Option.bind_eq_some_iff.mp done
  simp only [Option.ite_none_right_eq_some] at done
  obtain ⟨⟨recorded, -⟩, done⟩ := done
  obtain rfl := Option.some.inj done
  have own := inv.closings fence closing closes
  refine inv.idle fun open_ same => ?_
  obtain rfl := Option.some.inj same
  exact ⟨inv.known fence ⟨closing.gen, closing.seq⟩ own.known, (own.recorded recorded).1.symm⟩

-- Recording

/-- The row of a log once the text of what an attempt closed is taken from it. -/
def LogRow.trim (row : LogRow) (own : Bool) (count : Nat) : LogRow :=
  if own then { row with log := row.log.map (·.drop count) } else row

@[simp]
theorem trim_version (row : LogRow) (own : Bool) (count : Nat)
    : (row.trim own count).version = row.version := by
  cases own <;> rfl

@[simp]
theorem trim_writing (row : LogRow) (own : Bool) (count : Nat)
    : (row.trim own count).writing = row.writing := by
  cases own <;> simp [LogRow.trim, LogRow.writing]

theorem ReaderInv.of_more {reader : Reader} (inv : ReaderInv world pieces reader)
    {more : Writing → List (List Char)} (grown : pieces reader.key.writing <+: more reader.key.writing)
    : ReaderInv world more reader := by
  obtain ⟨rest, grown⟩ := grown
  have same {count : Nat} (below : count ≤ (pieces reader.key.writing).length)
      : (more reader.key.writing).take count = (pieces reader.key.writing).take count := by
    rw [← grown, List.take_append_of_le_length below]
  have count := inv.count
  refine { inv with count := ?_, next := ?_, openPart := ?_, first := ?_, row := ?_ }
  · rw [← grown, List.length_append]
    omega
  · intro reads
    obtain ⟨below, text⟩ := inv.next reads
    exact ⟨below, by rw [same (below.trans count), text]⟩
  · rw [same count]
    exact inv.openPart
  · intro first
    obtain ⟨kept, none_, looked | looked | looked⟩ := inv.first first
    · exact ⟨kept, none_, Or.inl looked⟩
    · refine ⟨kept, none_, Or.inr (Or.inl ?_)⟩
      rw [← grown]
      simp [looked]
    · exact ⟨kept, none_, Or.inr (Or.inr looked)⟩
  · rw [same count]
    exact inv.row

theorem recorded_rows {closed : List (Nat × Nat)} {fence have_ : Nat} (count : Nat)
    (before : closed.filter (·.1 = fence) = (List.range have_).map (fence, ·))
    : (closed ++ ((List.range' have_ count).map (fence, ·)).filter (· ∉ closed)).filter (·.1 = fence)
      = (List.range (have_ + count)).map (fence, ·) := by
  have unlisted (entry : Nat × Nat) (listed : entry ∈ (List.range' have_ count).map (fence, ·))
      : entry ∉ closed := by
    intro counted
    obtain ⟨seq, new, rfl⟩ := List.mem_map.mp listed
    have old : (fence, seq) ∈ closed.filter (·.1 = fence) :=
      List.mem_filter.mpr ⟨counted, by simp⟩
    rw [before] at old
    simp only [List.mem_map, List.mem_range, Prod.mk.injEq, true_and, exists_eq_right] at old
    obtain ⟨above, -⟩ := List.mem_range'_1.mp new
    omega
  have new : ((List.range' have_ count).map (fence, ·)).filter (· ∉ closed)
      = (List.range' have_ count).map (fence, ·) :=
    List.filter_eq_self.mpr fun entry listed => by simpa using unlisted entry listed
  have own : ((List.range' have_ count).map (fence, ·)).filter (·.1 = fence)
      = (List.range' have_ count).map (fence, ·) := by
    simp [List.filter_map, Function.comp_def]
  rw [List.filter_append, before, new, own, ← List.map_append, List.range_add, List.range'_eq_map_range]

/-- The segments that are recorded are the writing's next pieces, and the row's text, where the open
part is the row's, goes on after them.
-/
theorem LogInv.record (inv : LogInv world pieces) (done : world.record fence = some after)
    (steady : Steady (.record fence) world)
    : ∃ closing, world.closings fence = some closing
      ∧ LogInv after (replace pieces ⟨fence, closing.gen⟩
          (pieces ⟨fence, closing.gen⟩ ++ closing.pieces)) := by
  obtain ⟨closing, closes, done⟩ := Option.bind_eq_some_iff.mp done
  simp only [Option.ite_none_right_eq_some] at done
  obtain ⟨⟨all, rewritten, still⟩, done⟩ := done
  obtain rfl := Option.some.inj done
  have own := inv.closings fence closing closes
  have next := own.next still
  have put_rest (kept : world.openInRow = false) : closing.rewritten :=
    rewritten.resolve_left (by simp [kept])
  have trimmed (row : LogRow)
      : (if world.openInRow = true ∧ row.version = fence then
          { row with log := row.log.map (·.drop closing.pieces.flatten.length) } else row)
        = row.trim (world.openInRow && row.version == fence) closing.pieces.flatten.length := by
    simp [LogRow.trim]
  simp only [trimmed]
  let more := replace pieces ⟨fence, closing.gen⟩ (pieces ⟨fence, closing.gen⟩ ++ closing.pieces)
  have mine : more ⟨fence, closing.gen⟩ = pieces ⟨fence, closing.gen⟩ ++ closing.pieces :=
    replace_same _
  have others {writing : Writing} (apart : writing ≠ ⟨fence, closing.gen⟩)
      : more writing = pieces writing :=
    replace_other apart _
  have before_ {row : LogRow} (found : world.row = some row)
      : row.writing.before ⟨fence, closing.gen⟩ = false :=
    (inv.known fence _ own.known row found).1
  have elsewhere {row : LogRow} (found : world.row = some row) (apart : row.writing ≠ ⟨fence, closing.gen⟩)
      : row.writing.fence ≠ fence := fun same =>
    apart (congrArg₂ Writing.mk same ((inv.known fence _ own.known row found).2 same).symm)
  refine ⟨closing, closes, ?_⟩
  change LogInv _ more
  refine { inv with
    fence := ?_, begun := ?_, fresh := ?_, counted := ?_, rows := ?_, segments := ?_, openPart := ?_
    row := ?_, known := ?_, seq := ?_, closings := ?_, reader := ?_ }
  · intro new held
    obtain ⟨row, found, rfl⟩ := Option.map_eq_some_iff.mp held
    simpa using inv.fence row found
  · intro new held
    obtain ⟨row, found, rfl⟩ := Option.map_eq_some_iff.mp held
    have begun := inv.begun row found
    cases hits : world.openInRow && row.version == fence
    · exact begun
    · simpa [LogRow.trim] using begun
  · intro new held writing later
    obtain ⟨row, found, rfl⟩ := Option.map_eq_some_iff.mp held
    rw [trim_writing] at later
    have apart : writing ≠ ⟨fence, closing.gen⟩ := by
      rintro rfl
      exact absurd later (by simp [before_ found])
    rw [others apart]
    exact inv.fresh row found writing later
  · intro new held entry listed
    obtain ⟨row, found, rfl⟩ := Option.map_eq_some_iff.mp held
    rw [trim_writing]
    obtain listed | listed := List.mem_append.mp listed
    · exact inv.counted row found entry listed
    · obtain ⟨seq, -, rfl⟩ := List.mem_map.mp (List.mem_filter.mp listed).1
      have kept := before_ found
      rw [not_before_iff] at kept
      simp only at kept ⊢
      omega
  · intro new held
    obtain ⟨row, found, rfl⟩ := Option.map_eq_some_iff.mp held
    have rows := inv.rows row found
    rw [trim_writing]
    by_cases same : row.writing = ⟨fence, closing.gen⟩
    · rw [same] at rows ⊢
      rw [mine, List.length_append, next]
      exact recorded_rows closing.pieces.length rows
    · rw [others same, List.filter_append, rows, List.append_right_eq_self, List.filter_eq_nil_iff]
      intro entry listed
      obtain ⟨seq, -, rfl⟩ := List.mem_map.mp (List.mem_filter.mp listed).1
      simpa using (elsewhere found same).symm
  · intro writing seq piece listed
    by_cases same : writing = ⟨fence, closing.gen⟩
    · subst same
      rw [mine] at listed
      by_cases old : seq < (pieces ⟨fence, closing.gen⟩).length
      · exact inv.segments _ seq piece (by rwa [List.getElem?_append_left old] at listed)
      · rw [List.getElem?_append_right (Nat.not_lt.mp old)] at listed
        have below := (List.getElem?_eq_some_iff.mp listed).1
        have put := own.puts still _ piece (by omega) listed
        rwa [next, Nat.add_sub_cancel' (Nat.not_lt.mp old)] at put
    · exact inv.segments writing seq piece (by rwa [others same] at listed)
  · intro kept writing
    by_cases same : writing = ⟨fence, closing.gen⟩
    · subst same
      have rest := own.rest still kept (put_rest kept)
      have whole := own.whole still kept
      simp only [mine, List.length_append, ← next]
      obtain rest | ⟨rest, gone⟩ := rest
      · simp only [rest]
        simpa using whole
      · simp only [rest]
        exact Or.inl gone
    · simp only [others same]
      exact inv.openPart kept writing
  · intro kept new held
    obtain ⟨row, found, rfl⟩ := Option.map_eq_some_iff.mp held
    have written := inv.row kept row found
    rw [trim_writing]
    by_cases same : row.writing = ⟨fence, closing.gen⟩
    · obtain ⟨rest, log⟩ := own.row still kept row found same
      have version := steady kept row found (congrArg Writing.fence same)
      have kept : world.openInRow = true := kept
      rw [same, log] at written
      simp only [same, mine, LogRow.trim, kept, version, log, beq_self_eq_true, Bool.and_self,
        if_true, Option.map_some, Option.getD_some, List.drop_left, List.flatten_append,
        List.append_assoc]
      exact written
    · have apart : row.version ≠ fence := fun version =>
        same (inv.row_writing found version own.known)
      rw [others same]
      simpa [LogRow.trim, apart] using written
  · intro other open_ knows new held
    obtain ⟨row, found, rfl⟩ := Option.map_eq_some_iff.mp held
    rw [trim_writing]
    exact inv.known other open_ knows row found
  · intro other open_ knows idle
    by_cases same : other = fence
    · simp [same] at idle
    · simp only [replace_other same] at idle
      rw [others fun alike => same (congrArg Writing.fence alike)]
      exact inv.seq other open_ knows idle
  · intro other read closes_
    by_cases same : other = fence
    · subst same
      obtain rfl := Option.some.inj ((replace_same _).symm.trans closes_)
      exact {
        known := own.known, put_le := own.put_le, next := (by rintro ⟨⟩), puts := (by rintro ⟨⟩), whole := (by rintro ⟨⟩)
        rest := (by intros; contradiction), row := (by rintro ⟨⟩)
        recorded := fun _ => ⟨by rw [mine, List.length_append, next], all, put_rest⟩ }
    · simp only [replace_other same] at closes_
      have closing_ := inv.closings other read closes_
      have apart : (⟨other, read.gen⟩ : Writing) ≠ ⟨fence, closing.gen⟩ := fun alike =>
        same (congrArg Writing.fence alike)
      have kept := @ClosingInv.of_row _ _ _ _ closing_
        (world.row.map fun row => row.trim (world.openInRow && row.version == fence)
          closing.pieces.flatten.length)
        (world.closed ++ ((List.range' closing.seq closing.pieces.length).map (fence, ·)).filter
          (· ∉ world.closed)) fun _ new held writing => by
        obtain ⟨row, found, rfl⟩ := Option.map_eq_some_iff.mp held
        rw [trim_writing] at writing
        have apart : row.version ≠ fence := fun version => by
          have alike := (inv.row_writing found version own.known).symm.trans writing
          exact same (congrArg Writing.fence alike).symm
        exact ⟨row, found, (trim_writing _ _ _).symm, by simp [LogRow.trim, apart]⟩
      refine { kept with next := ?_, whole := ?_, recorded := ?_ }
      · rw [others apart]
        exact kept.next
      · rw [others apart]
        exact kept.whole
      · rw [others apart]
        exact kept.recorded
  · intro reader reads
    have grown : pieces reader.key.writing <+: more reader.key.writing := by
      by_cases same : reader.key.writing = ⟨fence, closing.gen⟩
      · rw [same, mine]
        exact List.prefix_append _ _
      · rw [others same]
    exact { (inv.reader reader reads).of_more grown with }

-- Removals

theorem Gone.mono {looked more : List (Option Writing)} {writing : Writing} (gone : Gone looked writing)
    (grown : looked ⊆ more)
    : Gone more writing := by
  obtain ⟨current, listed, doomed⟩ := gone
  exact ⟨current, grown listed, doomed⟩

theorem LogInv.look (inv : LogInv world pieces) (done : world.operate .look = some after)
    : LogInv after pieces := by
  obtain rfl := Option.some.inj done
  have grown : world.looked ⊆ world.looked ++ [world.row.map LogRow.writing] :=
    List.subset_append_left _ _
  have holds {writing : Writing} {name : ObjectName} {text : List Char}
      (held : Holds world writing name text)
      : Holds { world with looked := world.looked ++ [world.row.map LogRow.writing] } writing name
          text :=
    held.imp_right fun ⟨none_, gone⟩ => ⟨none_, gone.mono grown⟩
  refine { inv with segments := ?_, openPart := ?_, closings := ?_, reader := ?_ }
  · exact fun writing seq piece listed => holds (inv.segments writing seq piece listed)
  · intro kept writing
    have found := inv.openPart kept writing
    split at found
    case h_1 text read =>
      simp only [read]
      exact found
    case h_2 read =>
      simp only [read]
      exact found.imp_left fun gone => gone.mono grown
  · intro fence closing closes
    have own := inv.closings fence closing closes
    exact { own with
      puts := fun still place piece before listed => holds (own.puts still place piece before listed)
      rest := fun still kept rewritten => holds (own.rest still kept rewritten) }
  · intro reader reads
    have own := inv.reader reader reads
    refine { own with first := fun first => ?_ }
    obtain ⟨kept, none_, found⟩ := own.first first
    exact ⟨kept, none_, found.imp_right fun found => found.imp_right fun gone => gone.mono grown⟩

theorem LogInv.sweep (inv : LogInv world pieces) {current : Option Writing} {name : ObjectName}
    (done : world.operate (.sweep current name) = some after)
    : LogInv after pieces := by
  simp only [LogWorld.operate, Option.ite_none_right_eq_some] at done
  obtain ⟨⟨listed, -, taken⟩, done⟩ := done
  obtain rfl := Option.some.inj done
  have gone {writing : Writing} (same : writing.name = name.writing) : Gone world.looked writing :=
    ⟨current, listed, same ▸ taken⟩
  have holds {writing : Writing} {other : ObjectName} {text : List Char}
      (held : Holds world writing other text) (of_ : other.writing = writing.name)
      : Holds { world with objects := world.objects.put name none } writing other text := by
    by_cases same : other = name
    · subst same
      exact Or.inr ⟨put_same _ _, gone of_.symm⟩
    · exact held.put same none
  have absent {other : ObjectName} (none_ : world.objects other = none)
      : world.objects.put name none other = none := by
    by_cases same : other = name
    · subst same
      exact put_same _ _
    · exact (put_other same none).trans none_
  refine { inv with fresh := ?_, segments := ?_, openPart := ?_, closings := ?_, reader := ?_ }
  · intro row found writing later
    obtain ⟨none_, unwritten, nothing⟩ := inv.fresh row found writing later
    exact ⟨none_, unwritten, fun seq => ⟨absent (nothing seq).1, absent (nothing seq).2⟩⟩
  · exact fun writing seq piece listed => holds (inv.segments writing seq piece listed) rfl
  · intro kept writing
    by_cases same : (world.key writing).openPart (pieces writing).length = name
    · simp only [same, put_same]
      exact Or.inl (gone (congrArg ObjectName.writing same))
    · simp only [put_other same]
      exact inv.openPart kept writing
  · intro fence closing closes
    have own := inv.closings fence closing closes
    exact { own with
      puts := fun still place piece before listed =>
        holds (own.puts still place piece before listed) rfl
      rest := fun still kept rewritten => holds (own.rest still kept rewritten) rfl }
  · intro reader reads
    have own := inv.reader reader reads
    refine { own with openPart := fun kept text read => ?_ }
    by_cases same : reader.key.openPart reader.segments = name
    · rw [same] at read
      exact absurd ((put_same _ _).symm.trans read) nofun
    · exact own.openPart kept text ((put_other same none).symm.trans read)

-- The reader

theorem LogInv.read (inv : LogInv world pieces) (done : world.read = some after)
    : LogInv after pieces := by
  obtain ⟨row, found, rfl⟩ := Option.map_eq_some_iff.mp done
  have rows := inv.rows row found
  refine { inv with closings := ?_, reader := ?_ }
  · exact fun fence closing closes => { inv.closings fence closing closes with }
  · intro reader reads
    obtain rfl := Option.some.inj reads
    rw [rows, List.length_map, List.length_range]
    refine {
      task := rfl, count := le_rfl, durable := List.prefix_refl _, next := fun _ => ⟨Nat.zero_le _, rfl⟩
      openPart := fun kept text read => ?_, first := fun first => ?_, row := fun kept => ?_
      kept := fun text read => ?_, nothing := fun nothing => ?_ }
    · have written := inv.openPart kept row.writing
      simp only [Reader.start] at read ⊢
      rw [read] at written
      rw [List.take_length, written]
      exact ⟨List.prefix_refl _, List.prefix_refl _⟩
    · simp only [Reader.start] at first
      split at first <;> exact absurd first nofun
    · simp only [Reader.start, List.take_length]
      exact inv.row kept row found
    · simp only [Reader.start] at read
      split at read <;> exact absurd read nofun
    · simp only [Reader.start] at nothing
      split at nothing
      case isTrue cond =>
        obtain ⟨none_, kept⟩ := Bool.and_eq_true_iff.mp cond
        have none_ : pieces row.writing = [] := by simpa using none_
        refine ⟨fun kept => ?_, fun absent => absurd (kept.symm.trans absent) nofun⟩
        simpa [none_, Reader.start] using inv.row kept row found
      case isFalse => exact absurd nothing nofun

theorem assembled_nothing {reader : Reader} {openPart : Option (List Char)}
    : reader.assembled openPart = .nothing ↔ reader.segments = 0 ∧ openPart = none := by
  rw [Reader.assembled]
  split_ifs with empty <;> simpa using empty

theorem assembled_kept {reader : Reader} {openPart : Option (List Char)} {text : List Char}
    (kept : reader.assembled openPart = .kept text)
    : text = reader.text ++ openPart.getD [] ++ reader.row.getD [] := by
  rw [Reader.assembled] at kept
  split_ifs at kept
  exact (Assembled.kept.inj kept).symm

theorem ReaderInv.step (inv : LogInv world pieces) {reader : Reader} (own : ReaderInv world pieces reader)
    (there : reader.reading = .first → ¬ Gone world.looked reader.key.writing)
    : ReaderInv world pieces (reader.step world.openInRow world.objects) := by
  have done_ {assembled : Assembled} (kept : ∀ text, assembled = .kept text →
      (world.openInRow = true → text = world.durable)
      ∧ (world.openInRow = false → ∃ own, text = own ++ reader.row.getD []
        ∧ world.durable <+: own ∧ own <+: world.written reader.key.writing))
      (nothing : assembled = .nothing → (world.openInRow = true → world.durable = reader.row.getD [])
        ∧ (world.openInRow = false → world.durable = []))
      : ReaderInv world pieces { reader with reading := .done assembled } :=
    { own with
      next := (by rintro ⟨⟩), first := (by rintro ⟨⟩)
      kept := fun text read => kept text (Reading.done.inj read)
      nothing := fun read => nothing (Reading.done.inj read) }
  have moved : ReaderInv world pieces { reader with reading := .done .moved } := done_ (by rintro _ ⟨⟩) (by rintro ⟨⟩)
  rw [Reader.step]
  split
  case h_1 => exact own
  case h_2 first =>
    obtain ⟨kept, none_, durable⟩ := own.first first
    split_ifs with counted
    · exact moved
    · refine done_ (fun text read => ?_) fun _ =>
        ⟨fun inRow => absurd (kept.symm.trans inRow) (by rintro ⟨⟩), fun _ => ?_⟩
      · rw [assembled_nothing.mpr ⟨none_, rfl⟩] at read
        cases read
      · obtain empty | some_ | gone := durable
        · exact empty
        · -- A piece that is recorded by now would have been found.
          have held := inv.segments reader.key.writing 0 _
            (List.getElem?_eq_getElem (List.length_pos_iff.mpr some_))
          rw [← own.key_eq] at held
          obtain held | ⟨-, gone⟩ := held
          · exact absurd (by simp [held]) counted
          · exact absurd gone (there first)
        · exact absurd gone (there first)
  case h_3 objects =>
    obtain ⟨below, text⟩ := own.next objects
    by_cases more : reader.next < reader.segments
    · rw [if_pos more]
      split
      case h_1 => exact moved
      case h_2 piece read =>
        have counted := own.count
        have listed : (pieces reader.key.writing)[reader.next]?
            = some (pieces reader.key.writing)[reader.next] :=
          List.getElem?_eq_getElem (by omega)
        have held := inv.segments _ _ _ listed
        rw [← own.key_eq, Holds, read] at held
        obtain held | ⟨held, -⟩ := held
        · refine { own with
            next := fun _ => ⟨more, ?_⟩
            first := fun first => absurd (objects.symm.trans first) (by rintro ⟨⟩)
            kept := fun _ done => absurd (objects.symm.trans done) (by rintro ⟨⟩)
            nothing := fun done => absurd (objects.symm.trans done) (by rintro ⟨⟩) }
          rw [List.take_add_one, listed, List.flatten_append, ← text, Option.some.inj held]
          simp
        · cases held
    · have all : reader.next = reader.segments := by omega
      rw [all] at text
      rw [if_neg more]
      by_cases kept : world.openInRow = true
      · have durable := own.row kept
        rw [← text] at durable
        rw [if_pos kept]
        refine done_ (fun read assembled => ⟨fun _ => ?_, fun absent => ?_⟩)
          fun assembled => ⟨fun _ => ?_, fun absent => ?_⟩
        · rw [assembled_kept assembled, durable]
          simp
        · cases (kept.symm.trans absent)
        · rw [durable, text, (assembled_nothing.mp assembled).1]
          rfl
        · cases (kept.symm.trans absent)
      · have absent : world.openInRow = false := by simpa using kept
        rw [if_neg kept]
        split
        case h_1 open_ read =>
          have found := own.openPart absent open_ read
          rw [← text] at found
          refine done_ (fun _ assembled => ⟨fun inRow => absurd inRow kept, fun _ => ?_⟩) fun nothing =>
            absurd (assembled_nothing.mp nothing).2 (by rintro ⟨⟩)
          exact ⟨reader.text ++ open_, assembled_kept assembled, found⟩
        case h_2 read =>
          split_ifs with none_
          · refine { own with
              next := (by rintro ⟨⟩)
              first := fun _ => ⟨absent, none_, ?_⟩
              kept := (by rintro _ ⟨⟩)
              nothing := (by rintro ⟨⟩) }
            by_cases some_ : pieces reader.key.writing = []
            · have found := inv.openPart absent reader.key.writing
              rw [some_, List.length_nil, ← none_, ← own.key_eq, read] at found
              obtain gone | ⟨-, unwritten⟩ := found
              · exact Or.inr (Or.inr gone)
              · exact Or.inl (List.prefix_nil.mp (unwritten ▸ own.durable))
            · exact Or.inr (Or.inl some_)
          · exact moved

end Dagron.Artifact
