import Dagron.Artifact.TailSteps

/-! What a reader that follows a task's log receives: each byte of the writing it follows, once and in
order, whatever happens to the log between one of its reads and the next, or within one.
-/

namespace Dagron.Artifact

open Dagron.Library

-- The follower's steps

section Reads

variable {pieces : Writing → List (List Char)} {world after : TailWorld}

theorem TailInv.spans (inv : TailInv world pieces) {row : LogRow} (found : world.log.row = some row)
    : world.logSegmentSpans row.writing.fence = spansOf 0 (pieces row.writing) := by
  have listed : (world.log.closed.filter (·.1 = row.writing.fence)).map
      (fun entry => (entry.2, world.bytes entry)) = spansOf 0 (pieces row.writing) := by
    rw [inv.log.rows row found, List.map_map, List.range_eq_range']
    refine @map_range'_eq_spansOf _ _ (fun seq => world.bytes (row.writing.fence, seq)) ?_
    intro seq text held
    rw [Nat.zero_add]
    exact inv.bytes row found seq text held
  rw [TailWorld.logSegmentSpans, listed]
  exact (spansOf_ordered 0 _).insertionSort_eq

theorem TailInv.closedBytes (inv : TailInv world pieces) {row : LogRow} (found : world.log.row = some row)
    : world.closedBytes row.writing.fence = bytesOf (pieces row.writing).flatten := by
  rw [TailWorld.closedBytes, inv.spans found, sum_spansOf]

theorem TailInv.reads (inv : TailInv world pieces) {follower : Follower} {read : TailRead}
    (got : follower.got <+: encodeChars (world.log.written follower.writing))
    (holds : TailReadInv world.log pieces follower read)
    : TailInv (world.reads follower read) pieces := by
  refine ⟨inv.log, inv.rows, inv.inRow, inv.bytes, fun other follows => ?_⟩
  obtain rfl := Option.some.inj follows
  refine ⟨got, fun other reads => ?_⟩
  obtain rfl := Option.some.inj reads
  exact ⟨holds.out, holds.counted⟩

theorem TailInv.ends (inv : TailInv world pieces) {follower : Follower} {out : List UInt8}
    (next : follower.got ++ out <+: encodeChars (world.log.written follower.writing))
    : TailInv (world.ends follower out) pieces := by
  refine ⟨inv.log, inv.rows, inv.inRow, inv.bytes, fun other follows => ?_⟩
  obtain rfl := Option.some.inj follows
  exact ⟨next, nofun⟩

/-- What a follower that begins a read has received: what it had, of the same writing, or nothing. -/
def gotOf (world : TailWorld) (writing : Writing) : List UInt8 :=
  match world.follower with
  | some follower => if follower.writing = writing then follower.got else []
  | none => []

def begun (world : TailWorld) (row : LogRow) (max : Nat) : TailWorld :=
  let got := gotOf world row.writing
  world.reads { writing := row.writing, got := got } {
    closed := world.closedBytes row.writing.fence
    row := bytesOf (row.log.getD [])
    max := max
    phase := if got.length < world.closedBytes row.writing.fence then .spans else .row
    counted := world.logSegmentSpans row.writing.fence }

theorem follow_eq_some {max : Nat} (done : world.follow max = some after)
    : ∃ row, world.log.row = some row ∧ after = begun world row max := by
  rw [TailWorld.follow] at done
  split at done
  · cases done
  · rename_i idle
    obtain ⟨row, found, rfl⟩ := Option.map_eq_some_iff.mp done
    refine ⟨row, found, ?_⟩
    rw [begun, gotOf]
    cases follows : world.follower with
    | none => rfl
    | some follower =>
        dsimp only
        split <;> rename_i same
        · rw [← same]
          rfl
        · rfl

theorem TailInv.gotOf_prefix (inv : TailInv world pieces) (writing : Writing)
    : gotOf world writing <+: encodeChars (world.log.written writing) := by
  rw [gotOf]
  split <;> rename_i follows
  · split <;> rename_i same
    · exact same ▸ (inv.follower _ follows).got
    · exact List.nil_prefix
  · exact List.nil_prefix

theorem TailInv.follow (inv : TailInv world pieces) {max : Nat} (done : world.follow max = some after)
    : TailInv after pieces := by
  obtain ⟨row, found, rfl⟩ := follow_eq_some done
  have got := inv.gotOf_prefix row.writing
  refine inv.reads got ⟨?_, pieces row.writing, List.prefix_refl _, ?_, inv.spans found,
    inv.closedBytes found, ?_⟩
  · rw [List.append_nil]
    exact got
  · exact ⟨_, (inv.log.row inv.inRow row found).symm⟩
  · intro left start phase
    dsimp only at phase
    split at phase
    · cases phase
    · cases phase

variable {follower : Follower} {read : TailRead}

theorem TailInv.readSpans (inv : TailInv world pieces) (follows : world.follower = some follower)
    (reading : follower.reading = some read)
    (steady : world.closedBytes follower.writing.fence = read.closed →
      read.counted <+: world.logSegmentSpans follower.writing.fence)
    : TailInv (world.readSpans follower read) pieces := by
  have own := inv.follower follower follows
  obtain ⟨out, texts, known, within, counted, closed, -⟩ := own.read read reading
  rw [TailWorld.readSpans]
  split <;> rename_i all_
  · refine inv.reads own.got ⟨out, texts, known, within, counted, closed, fun left start phase => ?_⟩
    obtain ⟨rfl, rfl⟩ := TailPhase.segments.inj phase
    obtain ⟨more, split⟩ := steady all_
    refine ⟨[], texts, more, rfl, rfl, ?_, ?_, fun _ => Nat.zero_le _⟩
    · rw [← split, counted]
      rfl
    · have total := all_
      rw [← split, List.map_append, List.sum_append, counted, sum_spansOf, closed] at total
      have none_ : (more.map Prod.snd).sum = 0 := by omega
      intro span listed
      exact List.sum_eq_zero_iff_forall_eq_nat.mp none_ _ (List.mem_map_of_mem listed)
  · refine inv.ends ?_
    rw [List.append_nil]
    exact own.got

theorem LeftInv.next {texts : List (List Char)} {seq len start : Nat} {left : List (Nat × Nat)}
    (inv : LeftInv follower read texts ((seq, len) :: left) start) {next : TailRead}
    (past : (read.out.length < read.max → start ≤ follower.at_ read) →
      next.out.length < next.max → start + len ≤ follower.at_ next)
    : LeftInv follower next texts left (start + len) := by
  obtain ⟨seen, todo, more, split, rfl, same, empty, reached⟩ := inv
  cases todo with
  | nil =>
      rw [spansOf, List.nil_append] at same
      have none_ : len = 0 := empty (seq, len) (same ▸ List.mem_cons_self)
      refine ⟨seen, [], left, split, ?_, rfl, fun span listed => ?_, past reached⟩
      · rw [none_, Nat.add_zero]
      · exact empty span (same ▸ List.mem_cons_of_mem _ listed)
  | cons text todo =>
      rw [spansOf, List.cons_append] at same
      obtain ⟨here, rest⟩ := List.cons.inj same
      obtain ⟨-, rfl⟩ := Prod.mk.inj here
      refine ⟨seen ++ [text], todo, more, ?_, ?_, ?_, empty, past reached⟩
      · rw [split, List.append_assoc]
        rfl
      · rw [List.flatten_append, bytesOf_append, List.flatten_singleton]
      · rw [rest, List.length_append]
        rfl

theorem LeftInv.segment (inv : LogInv world.log pieces) {texts : List (List Char)} (known : texts <+: pieces follower.writing)
    (within : texts.flatten <+: world.log.written follower.writing) {seq len start : Nat}
    {left : List (Nat × Nat)} (looks : LeftInv follower read texts ((seq, len) :: left) start)
    (after_ : start ≤ follower.at_ read) (before_ : follower.at_ read < start + len) {text : List Char}
    (found : world.log.objects ((world.log.key follower.writing).segment seq) = some text) {want : Nat}
    (some_ : want ≤ start + len - follower.at_ read)
    : ((encodeChars text).drop (follower.at_ read - start)).take want
      = ((encodeChars (world.log.written follower.writing)).drop (follower.got ++ read.out).length).take want := by
  obtain ⟨seen, todo, more, split, rfl, same, empty, -⟩ := looks
  cases todo with
  | nil =>
      rw [spansOf, List.nil_append] at same
      have none_ : len = 0 := empty (seq, len) (same ▸ List.mem_cons_self)
      omega
  | cons own todo =>
      rw [spansOf, List.cons_append] at same
      obtain ⟨here, -⟩ := List.cons.inj same
      obtain ⟨rfl, rfl⟩ := Prod.mk.inj here
      have place : (pieces follower.writing)[seen.length]? = some own := by
        obtain ⟨others, whole⟩ := known
        rw [← whole, split, List.append_assoc, List.getElem?_append_right (Nat.le_refl _), Nat.sub_self]
        rfl
      have held : text = own := by
        rcases inv.segments follower.writing seen.length own place with held | ⟨gone, -⟩
        · exact Option.some.inj (found.symm.trans held)
        · rw [gone] at found
          cases found
      obtain ⟨beyond, whole⟩ := within
      have whole' : encodeChars (world.log.written follower.writing)
          = encodeChars seen.flatten ++ encodeChars own ++ encodeChars (todo.flatten ++ beyond) := by
        rw [← whole, split, List.flatten_append, List.flatten_cons, ← encodeChars_append,
          ← encodeChars_append]
        simp
      rw [List.length_append, whole', held]
      refine (next_of_part _ _ _ after_ ?_).symm
      change follower.at_ read + want ≤ bytesOf seen.flatten + bytesOf own
      omega

theorem TailInv.readSegment (inv : TailInv world pieces) (follows : world.follower = some follower)
    (reading : follower.reading = some read) {seq len start : Nat} {left : List (Nat × Nat)}
    (phase : read.phase = .segments ((seq, len) :: left) start)
    : TailInv (world.readSegment follower read seq len left start) pieces := by
  have own := inv.follower follower follows
  obtain ⟨out, texts, known, within, counted, closed, looked⟩ := own.read read reading
  have looks := looked _ _ phase
  rw [TailWorld.readSegment]
  dsimp only
  split <;> rename_i inside
  · obtain ⟨after_, before_, fewer⟩ := inside
    split <;> rename_i found
    · exact inv.ends out
    · rename_i text
      split <;> rename_i long
      · refine inv.reads own.got ⟨?_, texts, known, within, counted, closed, ?_⟩
        · rw [looks.segment inv.log known within after_ before_ found (Nat.min_le_right _ _),
            ← List.append_assoc]
          exact prefix_next out _
        · intro left' start' same
          obtain ⟨rfl, rfl⟩ := TailPhase.segments.inj same
          refine looks.next fun _ more => ?_
          change (read.out ++ _).length < read.max at more
          change start + len ≤ follower.got.length + (read.out ++ _).length
          rw [List.length_append, long] at more ⊢
          rw [Follower.at_] at after_ before_ more ⊢
          omega
      · exact inv.ends out
  · refine inv.reads own.got ⟨out, texts, known, within, counted, closed, ?_⟩
    intro left' start' same
    obtain ⟨rfl, rfl⟩ := TailPhase.segments.inj same
    refine looks.next fun reached fewer => ?_
    have after_ := reached fewer
    by_contra short
    exact inside ⟨after_, Nat.lt_of_not_le short, fewer⟩

theorem TailInv.rowBytes (inv : TailInv world pieces) {row : LogRow} (found : world.log.row = some row)
    {log : List Char} (logged : row.log = some log) {at_ : Nat}
    (past : world.closedBytes row.writing.fence ≤ at_)
    : (encodeChars log).drop (at_ - world.closedBytes row.writing.fence)
      = (encodeChars (world.log.written row.writing)).drop at_ := by
  have whole := inv.log.row inv.inRow row found
  rw [logged, Option.getD_some] at whole
  rw [inv.closedBytes found] at past ⊢
  rw [whole, encodeChars_append]
  exact (next_past _ _ past).symm

theorem logRowBytes_eq_some {writing : Writing} {pos max closed : Nat} {bytes : List UInt8}
    (read : world.logRowBytes writing pos max = some (closed, bytes))
    : ∃ row log, world.log.row = some row ∧ row.log = some log ∧ row.writing = writing
      ∧ closed = world.closedBytes writing.fence
      ∧ bytes = ((encodeChars log).drop (pos - closed)).take max := by
  rw [TailWorld.logRowBytes] at read
  split at read
  · cases read
  · rename_i row found
    split at read
    · cases read
    · rename_i log logged
      split at read <;> rename_i same
      · obtain ⟨rfl, rfl⟩ := Prod.mk.inj (Option.some.inj read)
        exact ⟨row, log, found, logged, same, rfl, rfl⟩
      · cases read

theorem TailInv.readRow (inv : TailInv world pieces) (follows : world.follower = some follower)
    (reading : follower.reading = some read)
    : TailInv (world.readRow follower read) pieces := by
  obtain ⟨out, -⟩ := (inv.follower follower follows).read read reading
  rw [TailWorld.readRow]
  split <;> rename_i done_
  · exact inv.ends out
  · split <;> rename_i found
    · exact inv.ends out
    · rename_i closed bytes
      split <;> rename_i still
      · obtain ⟨row, log, held, logged, writing, counted, rfl⟩ := logRowBytes_eq_some found
        have past : world.closedBytes row.writing.fence ≤ follower.at_ read := by
          rw [writing, ← counted, still]
          by_contra before
          exact done_ (Or.inr (Or.inl (Nat.lt_of_not_le before)))
        have next := inv.rowBytes held logged past
        rw [writing, ← counted] at next
        refine inv.ends ?_
        have long : (follower.got ++ read.out).length = follower.at_ read := List.length_append
        rw [next, ← List.append_assoc, ← long]
        exact prefix_next out _
      · exact inv.ends out

theorem TailInv.step (inv : TailInv world pieces) (steady : TailSteady .step world)
    : TailInv world.step pieces := by
  rw [TailWorld.step]
  split <;> rename_i follows
  · exact inv
  · rename_i follower
    split <;> rename_i reading
    · exact inv
    · rename_i read
      have own := inv.follower follower follows
      split <;> rename_i phase
      · exact inv.readSpans follows reading (steady follower follows read reading phase)
      · obtain ⟨out, texts, known, within, counted, closed, -⟩ := own.read read reading
        exact inv.reads own.got ⟨out, texts, known, within, counted, closed, nofun⟩
      · exact inv.readSegment follows reading phase
      · exact inv.readRow follows reading

end Reads

-- A read that nothing comes between

section Alone

variable {pieces : Writing → List (List Char)} {world : TailWorld} {row : LogRow} {follower : Follower}
  {read : TailRead}

theorem RowInv.not_gone {log : LogWorld} (inv : RowInv log) {row : LogRow} (found : log.row = some row)
    : ¬Gone log.looked row.writing := by
  rintro ⟨current, told, taken⟩
  obtain ⟨writing, rfl, kept⟩ := inv.looked current told row found
  rw [not_doomed kept] at taken
  cases taken

theorem TailInv.readSegment_eq (inv : TailInv world pieces) (found : world.log.row = some row)
    (follows : world.follower = some follower) (reading : follower.reading = some read)
    (same : follower.writing = row.writing) {seq len start : Nat} {left : List (Nat × Nat)}
    (phase : read.phase = .segments ((seq, len) :: left) start) (most : read.out.length ≤ read.max)
    : ∃ out, out.length ≤ read.max ∧ world.readSegment follower read seq len left start
        = world.reads follower { read with out := out, phase := .segments left (start + len) } := by
  obtain ⟨-, texts, known, -, -, -, looked⟩ := (inv.follower follower follows).read read reading
  obtain ⟨seen, todo, more, split, rfl, spans, empty, -⟩ := looked _ _ phase
  rw [TailWorld.readSegment]
  dsimp only
  split <;> rename_i inside
  · obtain ⟨after_, before_, fewer⟩ := inside
    cases todo with
    | nil =>
        rw [spansOf, List.nil_append] at spans
        have none_ : len = 0 := empty (seq, len) (spans ▸ List.mem_cons_self)
        omega
    | cons own todo =>
        rw [spansOf, List.cons_append] at spans
        obtain ⟨rfl, rfl⟩ := Prod.mk.inj (List.cons.inj spans).1
        have place : (pieces follower.writing)[seen.length]? = some own := by
          obtain ⟨others, whole⟩ := known
          rw [← whole, split, List.append_assoc, List.getElem?_append_right (Nat.le_refl _), Nat.sub_self]
          rfl
        have held : world.log.objects ((world.log.key follower.writing).segment seen.length) = some own := by
          refine (inv.log.segments follower.writing seen.length own place).resolve_right ?_
          rw [same]
          exact fun gone => inv.rows.not_gone found gone.2
        have long : (((encodeChars own).drop (follower.at_ read - bytesOf seen.flatten)).take
            (min (read.max - read.out.length)
              (bytesOf seen.flatten + bytesOf own - follower.at_ read))).length
            = min (read.max - read.out.length)
              (bytesOf seen.flatten + bytesOf own - follower.at_ read) := by
          rw [List.length_take, List.length_drop]
          refine Nat.min_eq_left ?_
          change _ ≤ bytesOf own - _
          omega
        rw [held]
        dsimp only
        rw [if_pos long]
        refine ⟨_, ?_, rfl⟩
        rw [List.length_append, long]
        omega
  · exact ⟨read.out, most, rfl⟩

theorem steady_of_phase (follows : world.follower = some follower)
    (reading : follower.reading = some read) (phase : read.phase ≠ .spans)
    : TailSteady .step world := by
  intro follower' follows' read' reading' phase'
  obtain rfl := Option.some.inj (follows.symm.trans follows')
  obtain rfl := Option.some.inj (reading.symm.trans reading')
  exact absurd phase' phase

/-- A read of the row's writing looks at all the segments that are left, by induction on them. -/
theorem TailInv.looks (inv : TailInv world pieces) (found : world.log.row = some row)
    (follows : world.follower = some follower) (reading : follower.reading = some read)
    (same : follower.writing = row.writing) {left : List (Nat × Nat)} {start : Nat}
    (phase : read.phase = .segments left start) (most : read.out.length ≤ read.max)
    : ∃ count out, out.length ≤ read.max
        ∧ (out.length < read.max → read.closed ≤ follower.got.length + out.length)
        ∧ TailInv (TailWorld.step^[count] world) pieces
        ∧ TailWorld.step^[count] world = world.reads follower { read with out := out, phase := .row } := by
  induction left generalizing world follower read start with
  | nil =>
      have next : world.step = world.reads follower { read with phase := .row } := by
        rw [TailWorld.step, follows]
        dsimp only
        rw [reading]
        dsimp only
        rw [phase]
      have kept := inv.step (steady_of_phase follows reading (by rw [phase]; exact nofun))
      obtain ⟨-, texts, -, -, -, closed, looked⟩ := (inv.follower follower follows).read read reading
      obtain ⟨seen, todo, more, rfl, rfl, spans, -, reached⟩ := looked _ _ phase
      have none_ : todo = [] := by
        cases todo with
        | nil => rfl
        | cons own todo => cases spans
      rw [none_, List.append_nil] at closed
      exact ⟨1, read.out, most, fun fewer => closed ▸ reached fewer, kept, next⟩
  | cons span left ih =>
      obtain ⟨seq, len⟩ := span
      obtain ⟨out, most', read_⟩ := inv.readSegment_eq found follows reading same phase most
      have next : world.step
          = world.reads follower { read with out := out, phase := .segments left (start + len) } := by
        rw [← read_, TailWorld.step, follows]
        dsimp only
        rw [reading]
        dsimp only
        rw [phase]
      have kept := inv.step (steady_of_phase follows reading (by rw [phase]; exact nofun))
      rw [next] at kept
      obtain ⟨count, out', most'', reached, kept', ends⟩ := ih kept found rfl rfl same rfl most'
      refine ⟨count + 1, out', most'', reached, ?_, ?_⟩
      · rw [Function.iterate_succ_apply, next]
        exact kept'
      · rw [Function.iterate_succ_apply, next]
        exact ends

/-- A read of the row's writing that has read all that is closed ends with as much as it is to read. -/
theorem TailInv.row_ends (inv : TailInv world pieces) (found : world.log.row = some row)
    (follows : world.follower = some follower) (reading : follower.reading = some read)
    (same : follower.writing = row.writing) (phase : read.phase = .row)
    (closed : read.closed = world.closedBytes row.writing.fence)
    (rowBytes : read.row = bytesOf (row.log.getD [])) (most : read.out.length ≤ read.max)
    (reached : read.out.length < read.max → read.closed ≤ follower.got.length + read.out.length)
    : world.step = { world with
        follower := some {
          writing := row.writing
          got := (encodeChars (world.log.written row.writing)).take (follower.got.length + read.max) } } := by
  obtain ⟨out, -⟩ := (inv.follower follower follows).read read reading
  rw [same] at out
  have long : (follower.got ++ read.out).length = follower.at_ read := List.length_append
  have whole : (encodeChars (world.log.written row.writing)).length = read.closed + read.row := by
    rw [inv.log.row inv.inRow row found, closed, rowBytes, inv.closedBytes found]
    exact bytesOf_append _ _
  have all_ := List.prefix_iff_eq_take.mp out
  have next : world.step = world.readRow follower read := by
    rw [TailWorld.step, follows]
    dsimp only
    rw [reading]
    dsimp only
    rw [phase]
  rw [next, TailWorld.readRow]
  split <;> rename_i done_
  · -- It has read as much as it is to, or all there is.
    have ended : follower.got ++ read.out
        = (encodeChars (world.log.written row.writing)).take (follower.got.length + read.max) := by
      rcases Nat.lt_or_ge read.out.length read.max with fewer | full
      · have past := reached fewer
        rw [Follower.at_] at done_
        have end_ : read.closed + read.row ≤ follower.got.length + read.out.length := by omega
        have past' : (encodeChars (world.log.written row.writing)).length
            ≤ follower.got.length + read.max := by omega
        have past'' : (encodeChars (world.log.written row.writing)).length
            ≤ (follower.got ++ read.out).length := by
          rw [List.length_append, whole]
          exact end_
        rw [List.take_of_length_le past', all_, List.take_of_length_le past'']
      · rw [all_, long, Follower.at_, Nat.le_antisymm most full]
    rw [TailWorld.ends, ended, same]
  · obtain ⟨fewer, past, more⟩ : read.out.length < read.max ∧ read.closed ≤ follower.at_ read
        ∧ ¬(read.row = 0 ∧ read.closed + read.row ≤ follower.at_ read) := by
      refine ⟨?_, ?_, fun done => done_ (Or.inr (Or.inr done))⟩
      · exact Nat.lt_of_not_le fun full => done_ (Or.inl full)
      · exact Nat.le_of_not_lt fun before => done_ (Or.inr (Or.inl before))
    cases logged : row.log with
    | none =>
        rw [logged] at rowBytes
        exact absurd ⟨rowBytes, by rw [rowBytes]; exact past⟩ more
    | some log =>
        have past' : world.closedBytes row.writing.fence ≤ follower.at_ read := closed ▸ past
        have found' : world.logRowBytes follower.writing (follower.at_ read) (read.max - read.out.length)
            = some (read.closed, ((encodeChars (world.log.written row.writing)).drop
                (follower.at_ read)).take (read.max - read.out.length)) := by
          rw [TailWorld.logRowBytes, found]
          dsimp only
          rw [logged]
          dsimp only
          rw [if_pos same.symm, same, inv.rowBytes found logged past', closed]
        rw [found']
        dsimp only
        rw [if_pos rfl, TailWorld.ends, same, ← List.append_assoc, ← long, append_next out, long,
          Follower.at_]
        have count : follower.got.length + read.out.length + (read.max - read.out.length)
            = follower.got.length + read.max := by omega
        rw [count]

theorem TailInv.receives (inv : TailInv world pieces)
    : Receives world := by
  intro row max begun_ found done
  have kept := inv.follow done
  obtain ⟨row', found', rfl⟩ := follow_eq_some done
  obtain rfl := Option.some.inj (found.symm.trans found')
  obtain ⟨follower, follows, writing, got⟩ : ∃ follower, (begun world row max).follower = some follower
      ∧ follower.writing = row.writing ∧ follower.got = gotOf world row.writing := ⟨_, rfl, rfl, rfl⟩
  suffices whole : ∃ count, TailWorld.step^[count] (begun world row max)
      = { world with
          follower := some {
            writing := row.writing
            got := (encodeChars (world.log.written row.writing)).take
              ((gotOf world row.writing).length + max) } } by
    obtain ⟨count, whole⟩ := whole
    rw [← got] at whole
    refine ⟨follower, count, follows, writing, ?_, ?_⟩
    · rw [whole]
    · rw [whole]
  by_cases before : (gotOf world row.writing).length < world.closedBytes row.writing.fence
  · have spans : (begun world row max).step
        = (begun world row max).reads { writing := row.writing, got := gotOf world row.writing } {
            closed := world.closedBytes row.writing.fence
            row := bytesOf (row.log.getD [])
            max := max
            phase := .segments (world.logSegmentSpans row.writing.fence) 0
            counted := world.logSegmentSpans row.writing.fence } := by
      rw [TailWorld.step, begun, TailWorld.reads]
      dsimp only
      rw [if_pos before]
      dsimp only
      rw [TailWorld.readSpans]
      dsimp only
      exact if_pos rfl
    have steady : TailSteady .step (begun world row max) := by
      intro follower follows read reads _ _
      obtain rfl := Option.some.inj follows
      obtain rfl := Option.some.inj reads
      exact List.prefix_refl _
    have looked := kept.step steady
    rw [spans] at looked
    obtain ⟨count, out, most, reached, last, ends⟩ :=
      looked.looks found rfl rfl rfl rfl (Nat.zero_le _)
    rw [ends] at last
    have done_ := last.row_ends found rfl rfl rfl rfl rfl rfl most reached
    refine ⟨count + 1 + 1, ?_⟩
    rw [Function.iterate_succ_apply, spans, Function.iterate_succ_apply', ends]
    exact done_
  · have done_ := kept.row_ends found rfl rfl rfl (if_neg before) rfl rfl (Nat.zero_le _) fun _ =>
      Nat.le_of_not_lt before
    exact ⟨1, done_⟩

end Alone

-- Runs

/-- In every steady run what holds of a log that is followed holds, with what pieces it has then. -/
theorem reachable_tail {task : List Char} {world : TailWorld}
    (reachable : (tailSystem task).Reachable TailSteady world)
    : ∃ pieces, TailInv world pieces := by
  refine @System.Reachable.invariant _ _ _ _ (fun world => ∃ pieces, TailInv world pieces) _ reachable
    ?_ ?_
  · exact ⟨fun _ => [], .initial task true, @reachable_rows task true _ Steady ⟨[], .start⟩, rfl,
      fun _ _ _ _ => nofun, nofun⟩
  · rintro op origin - commit member ⟨pieces, before⟩ steady
    obtain ⟨after, done, rfl⟩ := mem_commitsFrom_toList.mp member
    cases op with
    | log op => exact before.change done steady
    | follow max => exact ⟨pieces, before.follow done⟩
    | step =>
        obtain rfl := Option.some.inj done
        exact ⟨pieces, before.step steady⟩

/-- In every steady run a follower has received a beginning of its writing, and receives what comes next of
the row's where it reads on while nothing else happens.
-/
theorem tails_are_exact {task : List Char} {world : TailWorld}
    (reachable : (tailSystem task).Reachable TailSteady world)
    : Received world ∧ Receives world := by
  obtain ⟨pieces, inv⟩ := reachable_tail reachable
  exact ⟨fun follower follows => (inv.follower follower follows).got, inv.receives⟩

instance decidableTailSteady
    : ∀ op world, Decidable (TailSteady op world)
  | .log op, world => inferInstanceAs (Decidable (Steady op world.log))
  | .follow _, _ => isTrue trivial
  | .step, world =>
      inferInstanceAs (Decidable (∀ follower ∈ world.follower, ∀ read ∈ follower.reading,
        read.phase = .spans → world.closedBytes follower.writing.fence = read.closed →
          read.counted <+: world.logSegmentSpans follower.writing.fence))

/-- A log of which a segment is closed between two reads, added to before a third. -/
def followedRun : List TailOp :=
  [.log (.again true), .log (.reset 1 "abécd".toList), .follow 3, .step,
    .log (.close 1 ["abé".toList] "cd".toList), .log (.put 1), .log (.record 1), .log (.finish 1),
    .follow 2, .step, .step, .step, .step, .log (.append 1 "xy".toList)]

theorem tails_are_exact_of_followedRun
    : (((tailSystem exampleTask).outcome (tailSystem exampleTask).init followedRun).follower.map Follower.got
          = some (encodeChars "abéc".toList))
      ∧ Received ((tailSystem exampleTask).outcome (tailSystem exampleTask).init followedRun)
      ∧ Receives ((tailSystem exampleTask).outcome (tailSystem exampleTask).init followedRun) :=
  ⟨by decide +kernel, tails_are_exact (.outcome (by decide +kernel))⟩

/-- A log that is followed, whose row moves on with it before what was closed of it is recorded. -/
def movedTail : List TailOp :=
  [.log (.again true), .log (.reset 1 "ab".toList), .follow 9, .step,
    .log (.close 1 ["a".toList] "b".toList), .log (.put 1), .log (.moveOn false), .log (.record 1),
    .follow 9, .step]

/-- A log that is begun again once a read's statement counted its segments, with segments that have as many
bytes together.
-/
def resealedTail : List TailOp :=
  [.log (.again true), .log (.reset 1 "abc\nde\nf".toList),
    .log (.close 1 ["abc\n".toList, "de\n".toList] "f".toList), .log (.put 1), .log (.put 1),
    .log (.record 1), .log (.finish 1), .follow 5, .log (.reset 1 "ab\ncde\n".toList),
    .log (.close 1 ["ab\n".toList, "cde\n".toList] []), .log (.put 1), .log (.put 1), .log (.record 1),
    .log (.finish 1), .step, .step, .step, .step, .step]

/-- A follower of a log whose row kept what was closed of it receives a character twice, and one that reads
the segments of a writing at the places of another's does not receive what is written.
-/
theorem some_tails_are_not_exact
    : ¬Received ((tailSystem exampleTask).outcome (tailSystem exampleTask).init movedTail)
      ∧ ¬Received ((tailSystem exampleTask).outcome (tailSystem exampleTask).init resealedTail) := by
  constructor
  · intro received
    have twice := received { writing := ⟨1, 1⟩, got := "abb".toList.map fun char => UInt8.ofNat char.toNat }
      (by decide +kernel)
    exact absurd twice (by decide +kernel)
  · intro received
    have other := received { writing := ⟨1, 1⟩, got := "abcde".toList.map fun char => UInt8.ofNat char.toNat }
      (by decide +kernel)
    exact absurd other (by decide +kernel)

end Dagron.Artifact
