import Dagron.Artifact.LogTail

/-! What holds of a task's log that is followed while it is written, closed, begun again and swept: what its
rows say of its segments' bytes, and how far its reader is with them.
-/

namespace Dagron.Artifact

open Dagron.Library

-- Spans

/-- Texts that are segments from a number on, each its number and its bytes. -/
def spansOf (first : Nat) : List (List Char) → List (Nat × Nat)
  | [] => []
  | text :: rest => (first, bytesOf text) :: spansOf (first + 1) rest

theorem sum_spansOf (first : Nat) (texts : List (List Char))
    : ((spansOf first texts).map Prod.snd).sum = bytesOf texts.flatten := by
  induction texts generalizing first with
  | nil => rfl
  | cons text rest ih =>
      rw [spansOf, List.map_cons, List.sum_cons, ih, List.flatten_cons, bytesOf_append]

theorem le_of_mem_spansOf {first : Nat} {texts : List (List Char)} {span : Nat × Nat}
    (listed : span ∈ spansOf first texts)
    : first ≤ span.1 := by
  induction texts generalizing first with
  | nil => cases listed
  | cons text rest ih =>
      rcases List.mem_cons.mp listed with rfl | later
      · exact Nat.le_refl _
      · exact (Nat.le_succ _).trans (ih later)

theorem spansOf_ordered (first : Nat) (texts : List (List Char))
    : (spansOf first texts).Pairwise fun one other => one.1 ≤ other.1 := by
  induction texts generalizing first with
  | nil => exact List.Pairwise.nil
  | cons text rest ih =>
      refine List.pairwise_cons.mpr ⟨fun span listed => ?_, ih (first + 1)⟩
      exact (Nat.le_succ first).trans (le_of_mem_spansOf listed)

theorem map_range'_eq_spansOf {first : Nat} {texts : List (List Char)} {bytes : Nat → Nat}
    (said : ∀ seq text, texts[seq]? = some text → bytes (first + seq) = bytesOf text)
    : (List.range' first texts.length).map (fun seq => (seq, bytes seq)) = spansOf first texts := by
  induction texts generalizing first with
  | nil => rfl
  | cons text rest ih =>
      have here : bytes first = bytesOf text := said 0 text rfl
      have later (seq : Nat) (other : List Char) (found : rest[seq]? = some other)
          : bytes (first + 1 + seq) = bytesOf other := by
        rw [Nat.add_assoc, Nat.add_comm 1 seq]
        exact said (seq + 1) other found
      rw [List.length_cons, List.range'_succ, List.map_cons, ih later, here]
      rfl

-- The invariant

/-- What is known of a read that looks at segments: those that it has seen are some of those its statement
counted, those left are the others and ones with no bytes, and it stands past those seen unless it has read
all it is to.
-/
def LeftInv (follower : Follower) (read : TailRead) (texts : List (List Char)) (left : List (Nat × Nat))
    (start : Nat) : Prop :=
  ∃ seen todo more, texts = seen ++ todo ∧ start = bytesOf seen.flatten
    ∧ left = spansOf seen.length todo ++ more ∧ (∀ span ∈ more, span.2 = 0)
    ∧ (read.out.length < read.max → start ≤ follower.at_ read)

/-- What is known of a read: what it has read is what comes next of the writing, and the segments that its
statement counted are pieces of it.
-/
structure TailReadInv (log : LogWorld) (pieces : Writing → List (List Char)) (follower : Follower)
    (read : TailRead) : Prop where
  out
    : follower.got ++ read.out <+: encodeChars (log.written follower.writing)
  counted
    : ∃ texts, texts <+: pieces follower.writing ∧ texts.flatten <+: log.written follower.writing
      ∧ read.counted = spansOf 0 texts ∧ read.closed = bytesOf texts.flatten
      ∧ ∀ left start, read.phase = .segments left start → LeftInv follower read texts left start

structure FollowerInv (log : LogWorld) (pieces : Writing → List (List Char)) (follower : Follower)
    : Prop where
  got
    : follower.got <+: encodeChars (log.written follower.writing)
  read
    : ∀ read, follower.reading = some read → TailReadInv log pieces follower read

/-- What holds of a log that is followed: its own invariants; the rows of the segments of the row's writing
say the bytes of their pieces; and the follower has received a beginning of its writing.
-/
structure TailInv (world : TailWorld) (pieces : Writing → List (List Char)) : Prop where
  log
    : LogInv world.log pieces
  rows
    : RowInv world.log
  inRow
    : world.log.openInRow = true
  bytes
    : ∀ row, world.log.row = some row → ∀ (seq : Nat) text, (pieces row.writing)[seq]? = some text →
      world.bytes (row.writing.fence, seq) = bytesOf text
  follower
    : ∀ follower, world.follower = some follower → FollowerInv world.log pieces follower

-- The log's own steps

/-- What every step of a log keeps: where its open part is; what is written, which is only added to; and its
row, which never goes back to a writing before its own.
-/
structure Onward (log after : LogWorld) : Prop where
  inRow
    : after.openInRow = log.openInRow
  written
    : ∀ writing, log.written writing <+: after.written writing
  row
    : ∀ new, after.row = some new →
      ∃ row, log.row = some row ∧ new.writing.before row.writing = false

section Log

variable {log after : LogWorld} {pieces : Writing → List (List Char)}

theorem Onward.same (inRow : after.openInRow = log.openInRow) (written : after.written = log.written)
    (row : after.row = log.row)
    : Onward log after where
  inRow := inRow
  written := fun writing => by rw [written]
  row := fun new found => ⟨new, row.symm.trans found, by simp [Writing.before]⟩

theorem Onward.of_row {row new : LogRow} (inRow : after.openInRow = log.openInRow)
    (written : ∀ writing, log.written writing <+: after.written writing) (found : log.row = some row)
    (held : after.row = some new) (later : new.writing.before row.writing = false)
    : Onward log after where
  inRow := inRow
  written := written
  row := fun other found' => by
    obtain rfl := Option.some.inj (held.symm.trans found')
    exact ⟨row, found, later⟩

theorem LogRow.not_before_self (row : LogRow)
    : row.writing.before row.writing = false := by
  simp [Writing.before]

theorem Onward.moveOn (inv : RowInv log) {running : Bool}
    (done : log.operate (.moveOn running) = some after)
    : Onward log after := by
  obtain ⟨row, found, rfl⟩ := Option.map_eq_some_iff.mp done
  refine .of_row rfl (fun writing => List.prefix_refl _) found rfl ?_
  by_cases none_ : row.log = none
  · simp [not_before_iff, LogRow.writing, none_]
  · obtain ⟨fenced, given⟩ :=
      Option.ne_none_iff_exists'.mp fun none' => none_ ((inv.begun row found).1.mpr none')
    simp [not_before_iff, LogRow.writing, none_, given]

theorem Onward.reset (inv : RowInv log) {fence : Nat} {text : List Char}
    (done : log.reset fence text = some after)
    : Onward log after := by
  simp only [LogWorld.reset] at done
  split at done
  case h_1 => cases done
  case h_2 row found =>
    simp only [Option.ite_none_right_eq_some] at done
    obtain ⟨⟨rfl, -, -⟩, done⟩ := done
    obtain rfl := Option.some.inj done
    refine .of_row rfl (fun writing => prefix_write _ _ _) found rfl ?_
    have below := inv.fence row found
    simp only [not_before_iff, LogRow.writing] at below ⊢
    simp only [Option.isNone_some, Bool.false_eq_true, if_false, Option.getD_some]
    omega

theorem Onward.append {fence : Nat} {text : List Char} (done : log.append fence text = some after)
    : Onward log after := by
  simp only [LogWorld.append] at done
  split_ifs at done
  · split at done
    case h_1 => cases done
    case h_2 row found =>
      simp only [Option.ite_none_right_eq_some] at done
      obtain ⟨⟨rfl, -, same⟩, done⟩ := done
      obtain rfl := Option.some.inj done
      refine .of_row rfl (fun writing => prefix_write _ _ _) found rfl ?_
      exact (congrArg (Writing.before · row.writing) (row.begins_writing same text)).trans
        row.not_before_self
  · split at done
    case h_1 => cases done
    case h_2 own knows =>
      obtain rfl := Option.some.inj done
      exact { Onward.same rfl rfl rfl with written := fun writing => prefix_write _ _ _ }

theorem Onward.note {text : List Char} (done : log.note text = some after)
    : Onward log after := by
  simp only [LogWorld.note] at done
  split at done
  case h_1 => cases done
  case h_2 row found =>
    split at done
    case h_1 => cases done
    case h_2 held logged =>
      simp only [Option.ite_none_right_eq_some] at done
      obtain ⟨-, done⟩ := done
      obtain rfl := Option.some.inj done
      have writing : ({ row with log := some (held ++ text) } : LogRow).writing = row.writing := by
        simp [LogRow.writing, logged]
      have later := (congrArg (Writing.before · row.writing) writing).trans row.not_before_self
      split_ifs
      · exact .of_row rfl (fun writing => prefix_write _ _ _) found rfl later
      · exact .of_row rfl (fun writing => List.prefix_refl _) found rfl later

theorem Onward.record {fence : Nat} (done : log.record fence = some after)
    : Onward log after := by
  obtain ⟨closing, -, done⟩ := Option.bind_eq_some_iff.mp done
  simp only [Option.ite_none_right_eq_some] at done
  obtain rfl := Option.some.inj done.2
  refine ⟨rfl, fun writing => List.prefix_refl _, fun new held => ?_⟩
  obtain ⟨row, found, rfl⟩ := Option.map_eq_some_iff.mp held
  refine ⟨row, found, ?_⟩
  split_ifs
  · simp [Writing.before, LogRow.writing]
  · exact row.not_before_self

theorem Onward.of_operate (inv : RowInv log) {op : LogOp} (done : log.operate op = some after)
    : Onward log after := by
  cases op with
  | again running =>
      obtain ⟨row, found, rfl⟩ := Option.map_eq_some_iff.mp done
      have below := inv.fence row found
      refine .of_row rfl (fun writing => List.prefix_refl _) found rfl ?_
      rw [not_before_iff]
      exact Or.inl (Nat.lt_succ_of_le below)
  | moveOn running => exact .moveOn inv done
  | stop =>
      obtain ⟨row, found, rfl⟩ := Option.map_eq_some_iff.mp done
      exact .of_row rfl (fun writing => List.prefix_refl _) found rfl row.not_before_self
  | delete =>
      obtain rfl := Option.some.inj done
      exact ⟨rfl, fun writing => List.prefix_refl _, nofun⟩
  | reset fence text => exact .reset inv done
  | learn fence =>
      simp only [LogWorld.operate, LogWorld.learn] at done
      split at done
      · cases done
      · simp only [Option.ite_none_right_eq_some] at done
        obtain rfl := Option.some.inj done.2
        exact .same rfl rfl rfl
  | append fence text => exact .append done
  | note text => exact .note done
  | close fence texts rest =>
      simp only [LogWorld.operate, LogWorld.close] at done
      split at done
      · cases done
      · simp only [Option.ite_none_right_eq_some] at done
        obtain rfl := Option.some.inj done.2
        exact .same rfl rfl rfl
  | put fence =>
      obtain ⟨closing, -, done⟩ := Option.bind_eq_some_iff.mp done
      obtain ⟨piece, -, rfl⟩ := Option.map_eq_some_iff.mp done
      exact .same rfl rfl rfl
  | rewrite fence | removeOpen fence | finish fence =>
      obtain ⟨closing, -, done⟩ := Option.bind_eq_some_iff.mp done
      simp only [Option.ite_none_right_eq_some] at done
      obtain rfl := Option.some.inj done.2
      exact .same rfl rfl rfl
  | record fence => exact .record done
  | fail fence | look | step =>
      obtain rfl := Option.some.inj done
      exact .same rfl rfl rfl
  | sweep current name =>
      simp only [LogWorld.operate, Option.ite_none_right_eq_some] at done
      obtain rfl := Option.some.inj done.2
      exact .same rfl rfl rfl
  | read =>
      obtain ⟨row, -, rfl⟩ := Option.map_eq_some_iff.mp done
      exact .same rfl rfl rfl

end Log

section Changes

variable {pieces more : Writing → List (List Char)}

theorem FollowerInv.onward {log after : LogWorld} {follower : Follower}
    (inv : FollowerInv log pieces follower)
    (written : ∀ writing, log.written writing <+: after.written writing)
    (grown : ∀ writing, pieces writing <+: more writing)
    : FollowerInv after more follower := by
  have wide := encodeChars_prefix (written follower.writing)
  refine ⟨inv.got.trans wide, fun read reads => ?_⟩
  obtain ⟨out, texts, known, within, counted⟩ := inv.read read reads
  exact ⟨out.trans wide, texts, known.trans (grown _), within.trans (written _), counted⟩

variable {world after : TailWorld}

theorem eq_or_before {writing other : Writing} (later : other.before writing = false)
    : other = writing ∨ writing.before other := by
  obtain ⟨fence, gen⟩ := writing
  obtain ⟨fence', gen'⟩ := other
  rw [not_before_iff] at later
  simp only [before_iff, Writing.mk.injEq] at later ⊢
  omega

theorem recordBytes_eq (inv : TailInv world pieces) {fence : Nat} {closing : Closing} {row : LogRow}
    (found : world.log.row = some row) (closes : world.log.closings fence = some closing)
    (still : closing.recorded = false) {seq : Nat} {text : List Char}
    (listed : (replace pieces ⟨fence, closing.gen⟩ (pieces ⟨fence, closing.gen⟩ ++ closing.pieces)
      row.writing)[seq]? = some text)
    : world.recordBytes fence closing (row.writing.fence, seq) = bytesOf text := by
  have own := inv.log.closings fence closing closes
  have next := own.next still
  by_cases same : row.writing = ⟨fence, closing.gen⟩
  · rw [same, replace_same] at listed
    have rows := inv.log.rows row found
    rw [same] at rows ⊢
    by_cases old : seq < (pieces ⟨fence, closing.gen⟩).length
    · rw [List.getElem?_append_left old] at listed
      have said := inv.bytes row found seq text (by rw [same]; exact listed)
      rw [same] at said
      rw [TailWorld.recordBytes, if_neg, said]
      rintro ⟨-, above, -⟩
      simp only at above
      omega
    · rw [Nat.not_lt] at old
      rw [List.getElem?_append_right old, ← next] at listed
      have unlisted : (fence, seq) ∉ world.log.closed := by
        intro counted
        have inside : (fence, seq) ∈ world.log.closed.filter (·.1 = fence) :=
          List.mem_filter.mpr ⟨counted, decide_eq_true rfl⟩
        rw [rows] at inside
        obtain ⟨place, below, alike⟩ := List.mem_map.mp inside
        have below := List.mem_range.mp below
        have alike : place = seq := congrArg Prod.snd alike
        omega
      rw [TailWorld.recordBytes, if_pos ⟨rfl, next ▸ old, unlisted⟩]
      simp only [listed]
  · rw [replace_other same] at listed
    have apart : row.writing.fence ≠ fence := fun alike =>
      same (congrArg₂ Writing.mk alike ((inv.log.known fence _ own.known row found).2 alike).symm)
    rw [TailWorld.recordBytes, if_neg fun new => apart new.1]
    exact inv.bytes row found seq text listed

/-- A segment of a writing that is the row's has the bytes that its row says, also once more are recorded. -/
theorem TailInv.record (inv : TailInv world pieces) {fence : Nat}
    (done : world.change (.record fence) = some after) (steady : Steady (.record fence) world.log)
    : ∃ more, TailInv after more := by
  obtain ⟨log, recorded, done⟩ := Option.bind_eq_some_iff.mp done
  obtain ⟨closing, closes, rfl⟩ := Option.map_eq_some_iff.mp done
  have still : closing.recorded = false := by
    obtain ⟨other, closes', trimmed⟩ := Option.bind_eq_some_iff.mp recorded
    obtain rfl := Option.some.inj (closes.symm.trans closes')
    simp only [Option.ite_none_right_eq_some] at trimmed
    exact trimmed.1.2.2
  obtain ⟨closing', closes', kept⟩ := inv.log.record recorded steady
  obtain rfl := Option.some.inj (closes.symm.trans closes')
  have onward := Onward.of_operate inv.rows recorded
  have grown (writing : Writing)
      : pieces writing <+: replace pieces ⟨fence, closing.gen⟩
          (pieces ⟨fence, closing.gen⟩ ++ closing.pieces) writing := by
    by_cases same : writing = ⟨fence, closing.gen⟩
    · subst same
      rw [replace_same]
      exact List.prefix_append _ _
    · rw [replace_other same]
  refine ⟨_, kept, inv.rows.step recorded, onward.inRow.trans inv.inRow, ?_, ?_⟩
  · intro new held seq text listed
    obtain ⟨row, found, later⟩ := onward.row new held
    rcases eq_or_before later with same | further
    · rw [same] at listed ⊢
      exact recordBytes_eq inv found closes still listed
    · obtain ⟨none_, -⟩ := inv.log.fresh row found new.writing further
      have known := (inv.log.known fence _ (inv.log.closings fence closing closes).known row found).1
      have apart : new.writing ≠ ⟨fence, closing.gen⟩ := by
        intro same
        rw [same, known] at further
        cases further
      rw [replace_other apart, none_] at listed
      cases listed
  · intro follower follows
    exact (inv.follower follower follows).onward onward.written grown

theorem TailInv.change (inv : TailInv world pieces) {op : LogOp} (done : world.change op = some after)
    (steady : Steady op world.log)
    : ∃ more, TailInv after more := by
  by_cases recorded : ∃ fence, op = .record fence
  · obtain ⟨fence, rfl⟩ := recorded
    exact inv.record done steady
  · have other (fence : Nat) : op ≠ .record fence := fun same => recorded ⟨fence, same⟩
    have mapped : ∃ log, world.log.operate op = some log ∧ { world with log := log } = after := by
      unfold TailWorld.change at done
      split at done
      · cases done
      · cases done
      · exact absurd rfl (other _)
      · exact Option.map_eq_some_iff.mp done
    obtain ⟨log, operated, rfl⟩ := mapped
    have onward := Onward.of_operate inv.rows operated
    refine ⟨pieces, inv.log.kept operated steady other, inv.rows.step operated,
      onward.inRow.trans inv.inRow, ?_, ?_⟩
    · intro new held seq text listed
      obtain ⟨row, found, later⟩ := onward.row new held
      rcases eq_or_before later with same | further
      · rw [same] at listed ⊢
        exact inv.bytes row found seq text listed
      · rw [(inv.log.fresh row found new.writing further).1] at listed
        cases listed
    · intro follower follows
      exact (inv.follower follower follows).onward onward.written fun writing => List.prefix_refl _

end Changes

end Dagron.Artifact
