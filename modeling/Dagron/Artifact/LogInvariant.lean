import Dagron.Artifact.LogWriter

/-! What holds of a task's log while it is written, closed, begun again, swept and read: where each
of its pieces is, and how far its row, its writers and its reader are with them.
-/

namespace Dagron.Artifact

open Dagron.Library

-- Runs

/-- A writing that a removal takes: one before a writing it was told is current, or of a task whose
row it found gone.
-/
def Gone (looked : List (Option Writing)) (writing : Writing) : Prop :=
  ∃ current ∈ looked, doomed current writing.name

/-- Steps at which a log is read whole: a writer learns an attempt only while the row's log is of
it, and adds nothing to a writing that a removal takes; where the open part is the row's, the
segments closed are recorded while the row is still the attempt's; and a reader that found no
segment and no open part looks for a first segment only where no removal takes its writing.
-/
def Steady (op : LogOp) (world : LogWorld) : Prop :=
  match op with
  | .learn fence => ∀ row, world.row = some row → row.writing.fence = fence
  | .append fence _ =>
      world.openInRow = false → ∀ own, world.writers fence = some own →
        ¬ Gone world.looked ⟨fence, own.gen⟩
  | .record fence =>
      world.openInRow = true → ∀ row, world.row = some row → row.writing.fence = fence →
        row.version = fence
  | .step =>
      ∀ reader, world.reader = some reader → reader.reading = .first →
        ¬ Gone world.looked reader.key.writing
  | _ => True

-- The invariant

/-- An object that holds a text, or that a removal took. -/
def Holds (world : LogWorld) (writing : Writing) (name : ObjectName) (text : List Char) : Prop :=
  world.objects name = some text ∨ world.objects name = none ∧ Gone world.looked writing

/-- What is known of a close: its writer, and the text it read, of which the pieces that are put
and, once it is rewritten, the rest are where a reader will look. Once it is recorded its pieces
are segments.
-/
structure ClosingInv (world : LogWorld) (pieces : Writing → List (List Char)) (fence : Nat)
    (closing : Closing) : Prop where
  known
    : world.writers fence = some ⟨closing.gen, closing.seq⟩
  put_le
    : closing.put ≤ closing.pieces.length
  next
    : closing.recorded = false → closing.seq = (pieces ⟨fence, closing.gen⟩).length
  puts
    : closing.recorded = false → ∀ place piece, place < closing.put →
      closing.pieces[place]? = some piece →
        Holds world ⟨fence, closing.gen⟩
          ((world.key ⟨fence, closing.gen⟩).segment (closing.seq + place)) piece
  whole
    : closing.recorded = false → world.openInRow = false →
      world.written ⟨fence, closing.gen⟩
        = (pieces ⟨fence, closing.gen⟩).flatten ++ closing.pieces.flatten ++ closing.rest
  rest
    : closing.recorded = false → world.openInRow = false → closing.rewritten →
      Holds world ⟨fence, closing.gen⟩
        ((world.key ⟨fence, closing.gen⟩).openPart (closing.seq + closing.pieces.length)) closing.rest
  row
    : closing.recorded = false → world.openInRow = true → ∀ row, world.row = some row →
      row.writing = ⟨fence, closing.gen⟩ →
        ∃ more, row.log = some (closing.pieces.flatten ++ more)
  recorded
    : closing.recorded →
      (pieces ⟨fence, closing.gen⟩).length = closing.seq + closing.pieces.length
      ∧ closing.put = closing.pieces.length ∧ (world.openInRow = false → closing.rewritten)

/-- What is known of a reader: the segments it counted are segments still, what it has read are the
first of them, and what it would read next is the beginning it is to read.
-/
structure ReaderInv (world : LogWorld) (pieces : Writing → List (List Char)) (reader : Reader)
    : Prop where
  task
    : reader.key.task = world.task
  count
    : reader.segments ≤ (pieces reader.key.writing).length
  durable
    : world.durable <+: world.written reader.key.writing
  next
    : reader.reading = .objects → reader.next ≤ reader.segments
      ∧ reader.text = ((pieces reader.key.writing).take reader.next).flatten
  openPart
    : world.openInRow = false → ∀ text,
      world.objects (reader.key.openPart reader.segments) = some text →
        world.durable <+: ((pieces reader.key.writing).take reader.segments).flatten ++ text
        ∧ ((pieces reader.key.writing).take reader.segments).flatten ++ text
          <+: world.written reader.key.writing
  first
    : reader.reading = .first → world.openInRow = false ∧ reader.segments = 0
      ∧ (world.durable = [] ∨ pieces reader.key.writing ≠ [] ∨ Gone world.looked reader.key.writing)
  row
    : world.openInRow = true →
      world.durable = ((pieces reader.key.writing).take reader.segments).flatten ++ reader.row.getD []
  kept
    : ∀ text, reader.reading = .done (.kept text) →
      (world.openInRow = true → text = world.durable)
      ∧ (world.openInRow = false → ∃ own, text = own ++ reader.row.getD []
        ∧ world.durable <+: own ∧ own <+: world.written reader.key.writing)
  nothing
    : reader.reading = .done .nothing →
      (world.openInRow = true → world.durable = reader.row.getD [])
      ∧ (world.openInRow = false → world.durable = [])

/-- What holds of a task's log, with the pieces recorded of each writing: nothing is kept of a
writing after the row's; the row counts the pieces of its writing; each piece is a segment; and
with what is still open they are what is written.
-/
structure LogInv (world : LogWorld) (pieces : Writing → List (List Char)) : Prop where
  fence
    : ∀ row, world.row = some row → row.writing.fence ≤ row.version
  begun
    : ∀ row, world.row = some row →
      (row.log = none ↔ row.logFence = none) ∧ (row.log = none → row.logGen = none)
  fresh
    : ∀ row, world.row = some row → ∀ writing, row.writing.before writing →
      pieces writing = [] ∧ world.written writing = []
        ∧ ∀ seq, world.objects ((world.key writing).segment seq) = none
          ∧ world.objects ((world.key writing).openPart seq) = none
  counted
    : ∀ row, world.row = some row → ∀ entry ∈ world.closed, entry.1 ≤ row.writing.fence
  rows
    : ∀ row, world.row = some row → world.closed.filter (·.1 = row.writing.fence)
      = (List.range (pieces row.writing).length).map (row.writing.fence, ·)
  segments
    : ∀ writing (seq : Nat) text, (pieces writing)[seq]? = some text →
      Holds world writing ((world.key writing).segment seq) text
  openPart
    : world.openInRow = false → ∀ writing, match world.objects
        ((world.key writing).openPart (pieces writing).length) with
      | some text => world.written writing = (pieces writing).flatten ++ text
      | none => Gone world.looked writing ∨ pieces writing = [] ∧ world.written writing = []
  row
    : world.openInRow = true → ∀ row, world.row = some row →
      world.written row.writing = (pieces row.writing).flatten ++ row.log.getD []
  known
    : ∀ fence own, world.writers fence = some own → ∀ row, world.row = some row →
      row.writing.before ⟨fence, own.gen⟩ = false
        ∧ (row.writing.fence = fence → own.gen = row.writing.gen)
  seq
    : ∀ fence own, world.writers fence = some own → world.closings fence = none →
      own.seq = (pieces ⟨fence, own.gen⟩).length
  closings
    : ∀ fence closing, world.closings fence = some closing → ClosingInv world pieces fence closing
  reader
    : ∀ reader, world.reader = some reader → ReaderInv world pieces reader

-- The row

section Inv

variable {world : LogWorld} {pieces : Writing → List (List Char)}

theorem before_iff {first second : Writing}
    : first.before second ↔ first.fence < second.fence
      ∨ first.fence = second.fence ∧ first.gen < second.gen := by
  simp [Writing.before]

theorem not_before_iff {first second : Writing}
    : first.before second = false ↔ second.fence < first.fence
      ∨ second.fence = first.fence ∧ second.gen ≤ first.gen := by
  rw [← Bool.not_eq_true, before_iff]
  omega

theorem ClosingInv.of_row {fence : Nat} {closing : Closing} (inv : ClosingInv world pieces fence closing)
    {row : Option LogRow} {closed : List (Nat × Nat)}
    (same : world.openInRow = true → ∀ new, row = some new → new.writing = ⟨fence, closing.gen⟩ →
      ∃ old, world.row = some old ∧ old.writing = new.writing ∧ old.log = new.log)
    : ClosingInv { world with row := row, closed := closed } pieces fence closing := by
  refine { inv with row := fun still kept new found writing => ?_ }
  obtain ⟨old, before, alike, log⟩ := same kept new found writing
  rw [← log]
  exact inv.row still kept old before (alike.trans writing)

theorem LogInv.later (inv : LogInv world pieces) {row new : LogRow} (found : world.row = some row)
    (later : row.writing.before new.writing) (fence : new.writing.fence ≤ new.version)
    (begun : (new.log = none ↔ new.logFence = none) ∧ (new.log = none → new.logGen = none))
    (log : new.log.getD [] = []) {closed : List (Nat × Nat)}
    (uncounted : ∀ entry ∈ closed, entry ∈ world.closed ∧ entry.1 < new.writing.fence)
    (writers : ∀ fence own, world.writers fence = some own → new.writing.fence = fence →
      own.gen = new.writing.gen)
    : LogInv { world with row := some new, closed := closed } pieces := by
  have still {writing : Writing} (after : new.writing.before writing) : row.writing.before writing := by
    rw [before_iff] at later after ⊢
    omega
  obtain ⟨none_, unwritten, -⟩ := inv.fresh row found new.writing later
  refine { inv with
    fence := ?_, begun := ?_, fresh := ?_, counted := ?_, rows := ?_, row := ?_, known := ?_
    closings := ?_, reader := ?_ }
  · rintro _ ⟨rfl⟩
    exact fence
  · rintro _ ⟨rfl⟩
    exact begun
  · rintro _ ⟨rfl⟩ writing after
    exact inv.fresh row found writing (still after)
  · rintro _ ⟨rfl⟩ entry listed
    exact (uncounted entry listed).2.le
  · rintro _ ⟨rfl⟩
    rw [none_, List.filter_eq_nil_iff.mpr fun entry listed => ?_]
    · rfl
    · simpa using (uncounted entry listed).2.ne
  · rintro - _ ⟨rfl⟩
    rw [unwritten, none_, log]
    rfl
  · rintro own_ own known _ ⟨rfl⟩
    obtain ⟨kept, -⟩ := inv.known own_ own known row found
    refine ⟨?_, writers own_ own known⟩
    rw [before_iff] at later
    rw [not_before_iff] at kept ⊢
    simp only at kept ⊢
    omega
  · intro own closing closes
    refine (inv.closings own closing closes).of_row fun _ _ same writing => ?_
    obtain rfl := Option.some.inj same
    have known := (inv.known own _ (inv.closings own closing closes).known row found).1
    rw [writing, before_iff] at later
    rw [not_before_iff] at known
    simp only at later known
    omega
  · intro reader reads
    exact { inv.reader reader reads with }

/-- A row that is not of another writing than it was, with the same log where that is kept there. -/
theorem LogInv.same (inv : LogInv world pieces) {row new : LogRow} (found : world.row = some row)
    (writing : new.writing = row.writing) (log : world.openInRow = true → new.log = row.log)
    (fence : new.writing.fence ≤ new.version)
    (begun : (new.log = none ↔ new.logFence = none) ∧ (new.log = none → new.logGen = none))
    : LogInv { world with row := some new } pieces := by
  refine { inv with
    fence := ?_, begun := ?_, fresh := ?_, counted := ?_, rows := ?_, row := ?_, known := ?_
    closings := ?_, reader := ?_ }
  · rintro _ ⟨rfl⟩
    exact fence
  · rintro _ ⟨rfl⟩
    exact begun
  · rintro _ ⟨rfl⟩
    rw [writing]
    exact inv.fresh row found
  · rintro _ ⟨rfl⟩
    rw [writing]
    exact inv.counted row found
  · rintro _ ⟨rfl⟩
    rw [writing]
    exact inv.rows row found
  · rintro kept _ ⟨rfl⟩
    rw [writing, log kept]
    exact inv.row kept row found
  · rintro own_ own known _ ⟨rfl⟩
    rw [writing]
    exact inv.known own_ own known row found
  · intro own closing closes
    refine (inv.closings own closing closes).of_row fun kept _ same _ => ?_
    obtain rfl := Option.some.inj same
    exact ⟨row, found, writing.symm, (log kept).symm⟩
  · intro reader reads
    exact { inv.reader reader reads with }

-- The writers

theorem LogInv.idle (inv : LogInv world pieces) {fence : Nat} {own : Option Open}
    (known : ∀ open_, own = some open_ →
      (∀ row, world.row = some row → row.writing.before ⟨fence, open_.gen⟩ = false
        ∧ (row.writing.fence = fence → open_.gen = row.writing.gen))
      ∧ open_.seq = (pieces ⟨fence, open_.gen⟩).length)
    : LogInv { world with
        writers := replace world.writers fence own
        closings := replace world.closings fence none } pieces := by
  refine { inv with known := ?_, seq := ?_, closings := ?_, reader := ?_ }
  · intro other open_ knows
    by_cases same : other = fence
    · subst same
      exact (known open_ (by simpa using knows)).1
    · exact inv.known other open_ (by simpa [replace_other same] using knows)
  · intro other open_ knows closes
    by_cases same : other = fence
    · subst same
      exact (known open_ (by simpa using knows)).2
    · simp only [replace_other same] at knows closes
      exact inv.seq other open_ knows closes
  · intro other closing closes
    by_cases same : other = fence
    · simp [same] at closes
    · simp only [replace_other same] at closes
      have closing := inv.closings other closing closes
      exact { closing with known := (replace_other same own).trans closing.known }
  · intro reader reads
    exact { inv.reader reader reads with }

-- What is written

@[simp]
theorem write_same (writing : Writing) (text : List Char)
    : (world.write writing text).written writing = world.written writing ++ text :=
  replace_same _

theorem write_other {writing other : Writing} (apart : other ≠ writing) (text : List Char)
    : (world.write writing text).written other = world.written other :=
  replace_other apart _

theorem prefix_write (writing other : Writing) (text : List Char)
    : world.written other <+: (world.write writing text).written other := by
  by_cases same : other = writing
  · subst same
    simp
  · simp [write_other same]

theorem ReaderInv.of_write {reader : Reader} (inv : ReaderInv world pieces reader) (writing : Writing)
    (text : List Char)
    : ReaderInv (world.write writing text) pieces reader := by
  have more : world.written reader.key.writing <+: (world.write writing text).written reader.key.writing :=
    prefix_write writing reader.key.writing text
  refine { inv with
    durable := inv.durable.trans more
    openPart := fun kept text found => ?_
    kept := fun text done => ⟨(inv.kept text done).1, fun kept => ?_⟩ }
  · obtain ⟨before, within⟩ := inv.openPart kept text found
    exact ⟨before, within.trans more⟩
  · obtain ⟨own, read, before, within⟩ := (inv.kept text done).2 kept
    exact ⟨own, read, before, within.trans more⟩

theorem ClosingInv.of_write {fence : Nat} {closing : Closing} (inv : ClosingInv world pieces fence closing)
    {writing : Writing} {text : List Char}
    (apart : world.openInRow = false → ⟨fence, closing.gen⟩ ≠ writing)
    : ClosingInv (world.write writing text) pieces fence closing :=
  { inv with
    whole := fun still kept =>
      (replace_other (apart kept) _).trans (inv.whole still kept) }

-- The objects

theorem Holds.put {writing : Writing} {name other : ObjectName} {text : List Char}
    (holds : Holds world writing name text) (apart : name ≠ other) (new : Option (List Char))
    : Holds { world with objects := world.objects.put other new } writing name text := by
  simpa only [Holds, put_other apart] using holds

theorem ClosingInv.of_put {fence : Nat} {closing : Closing} (inv : ClosingInv world pieces fence closing)
    {name : ObjectName} {new : Option (List Char)}
    (apart : ∀ seq, (world.key ⟨fence, closing.gen⟩).segment seq ≠ name
      ∧ (world.key ⟨fence, closing.gen⟩).openPart seq ≠ name)
    : ClosingInv { world with objects := world.objects.put name new } pieces fence closing :=
  { inv with
    puts := fun still place piece before found =>
      (inv.puts still place piece before found).put (apart _).1 new
    rest := fun still kept rewritten => (inv.rest still kept rewritten).put (apart _).2 new }

theorem ReaderInv.of_put {reader : Reader} (inv : ReaderInv world pieces reader) {name : ObjectName}
    {new : Option (List Char)} (apart : reader.key.openPart reader.segments ≠ name)
    : ReaderInv { world with objects := world.objects.put name new } pieces reader :=
  { inv with
    openPart := fun kept text found => inv.openPart kept text ((put_other apart new).symm.trans found) }

end Inv

end Dagron.Artifact
