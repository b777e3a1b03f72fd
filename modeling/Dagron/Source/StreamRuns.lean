import Dagron.Source.Stream

/-! What a stream's lines become: each finished line that is not blank is one run, in the order of its
file, as long as no position of a file that is gone is read in the one that took its place.
-/

namespace Dagron.Source

open Dagron.Library Dagron.Spec

-- Submissions

theorem submissions_append {first : List UInt8} (finished : Finished newline first) (second : List UInt8)
    : submissions (first ++ second) = submissions first ++ submissions second := by
  simp only [submissions, linesOf_append finished, List.map_append, List.filter_append]

theorem submissions_grows (first second : List UInt8)
    : submissions first <+: submissions (first ++ second) :=
  ((linesOf_grows first second).map payload).filter _

theorem submissions_unfinished {bytes : List UInt8} (unfinished : newline ∉ bytes)
    : submissions bytes = [] := by
  rw [submissions, linesOf_unfinished unfinished]
  rfl

theorem submissions_line {body : List UInt8} (unfinished : newline ∉ body)
    : submissions (body ++ [newline])
      = if blank (payload (body ++ [newline])) then [] else [payload (body ++ [newline])] := by
  rw [submissions, linesOf_line unfinished]
  cases text : blank (payload (body ++ [newline])) <;> simp [text]

-- Runs

namespace StreamWorld

/-- The texts of a file's lines that were made runs, in order. -/
def madeOf (world : StreamWorld) (file : Nat) : List (List UInt8) :=
  (world.made.filter fun run => run.1 = file).map Prod.snd

def Complete (world : StreamWorld) (file : Nat) : Prop :=
  world.madeOf file = submissions (world.files file)

def opened (world : StreamWorld) : Option OpenFile :=
  world.source.bind StreamSource.reader

/-- Steps at which no line is lost: lines are added to the file at the path, or to the one that is open;
that file is replaced, and the process dies, only where what is left behind is open still or all runs; the
source opens a file with a position of that file, or with one past its end; what it reads is a text, and
finished where it is read to its end; and it finds a file replaced once it is read to its end, by a shorter
one.
-/
def Steady (op : StreamOp) (world : StreamWorld) : Prop :=
  match op with
  | .append file _ => file = world.current ∨ ∃ reader ∈ world.opened, reader.file = file
  | .rotate => (∃ reader ∈ world.opened, reader.file = world.current) ∨ world.Complete world.current
  | .crash => ∀ reader ∈ world.opened, reader.file = world.current ∨ world.Complete reader.file
  | .recv =>
      ∀ source ∈ world.source, source.reader = none → ∀ position ∈ source.dbPosition,
        position.file = world.current ∨ (world.files world.current).length < position.offset
  | .read =>
      ∀ source ∈ world.source, ∀ reader ∈ source.reader,
        let buf := source.buf ++ firstLineOf newline ((world.files reader.file).drop reader.place)
        isUtf8 buf ∧ (world.follow = false → buf.getLast? = some newline ∨ blank buf)
  | .check =>
      ∀ source ∈ world.source, ∀ reader ∈ source.reader, reader.file ≠ world.current →
        (world.files world.current).length < source.pos
          ∧ newline ∉ (world.files reader.file).drop reader.place
          ∧ ∀ position ∈ source.dbPosition,
            (world.files world.current).length < position.offset
  | _ => True

-- The invariant

/-- What is known of a source with an open file: it counts what it reads; what it has seen of the file are
finished lines, which are runs, all but the one in flight; and its file is none before those of which
anything is committed.
-/
structure ReaderInv (world : StreamWorld) (source : StreamSource) (reader : OpenFile) : Prop where
  file
    : reader.file ≤ world.current
  counted
    : source.pos = reader.place
  row
    : ∀ position ∈ world.row, position.file ≤ reader.file
  handed
    : ∀ position ∈ source.dbPosition, position.file ≤ reader.file
  idle
    : source.turn = .idle → source.buf = []
  reads
    : source.turn = .reading ∨ source.turn = .ended → source.inflight = none
  has
    : source.turn = .received ∨ source.turn = .committed → source.inflight ≠ none
  written
    : source.turn = .committed → world.row ≠ none
  seen
    : ∃ seen unread, world.files reader.file = seen ++ source.buf ++ unread
      ∧ seen.length + source.buf.length = reader.place ∧ Finished newline seen
      ∧ newline ∉ source.buf
      ∧ match source.inflight with
        | none => world.madeOf reader.file = submissions seen
        | some inflight =>
            source.buf = [] ∧ inflight.next = ⟨reader.file, reader.place⟩
            ∧ if source.turn = .committed then world.madeOf reader.file = submissions seen
              else world.madeOf reader.file ++ [inflight.line] = submissions seen

/-- What is known of a source: until it opens a file, it has the position that is committed. -/
structure SourceInv (world : StreamWorld) (source : StreamSource) : Prop where
  unopened
    : source.reader = none →
      source.dbPosition = world.row ∧ source.inflight = none ∧ source.turn = .idle
  reader
    : ∀ reader ∈ source.reader, ReaderInv world source reader

/-- What holds of a stream: the runs of a file are the first of its submissions, all of them where the file
is gone and not open; and the position committed is of the last file that has any, just past them.
-/
structure StreamInv (world : StreamWorld) : Prop where
  fresh
    : ∀ file, world.current < file → world.files file = []
  within
    : ∀ file, world.madeOf file <+: submissions (world.files file)
  complete
    : ∀ file, file ≠ world.current → (∀ reader ∈ world.opened, reader.file ≠ file) →
      world.Complete file
  row
    : ∀ position ∈ world.row, position.file ≤ world.current ∧ ∃ front back,
      world.files position.file = front ++ back ∧ front.length = position.offset
      ∧ Finished newline front ∧ world.madeOf position.file = submissions front
  later
    : ∀ file, (∀ position ∈ world.row, position.file < file) → world.madeOf file = []
  mirror
    : world.row = none → world.offsetFile = none
  source
    : ∀ source ∈ world.source, SourceInv world source

variable {world after : StreamWorld}

theorem SourceInv.opened {source : StreamSource} (own : SourceInv world source) (busy : source.turn ≠ .idle)
    : ∃ reader, source.reader = some reader :=
  Option.ne_none_iff_exists'.mp fun closed => busy (own.unopened closed).2.2

theorem madeOf_commit {row : Option Position} {source : Option StreamSource} (inflight : Inflight)
    (file : Nat)
    : ({ world with
        row := row
        made := world.made ++ [(inflight.next.file, inflight.line)]
        source := source } : StreamWorld).madeOf file
      = world.madeOf file ++ if inflight.next.file = file then [inflight.line] else [] := by
  simp only [madeOf, List.filter_append, List.map_append]
  congr 1
  by_cases same : inflight.next.file = file <;> simp [same]

-- Files

theorem files_append (file other : Nat) (bytes : List UInt8)
    : ∃ more, Function.update world.files file (world.files file ++ bytes) other
      = world.files other ++ more := by
  by_cases same : other = file
  · subst same
    exact ⟨bytes, Function.update_self ..⟩
  · exact ⟨[], by rw [Function.update_of_ne same, List.append_nil]⟩

theorem StreamInv.append (inv : world.StreamInv) {file : Nat} {bytes : List UInt8}
    (done : world.operate (.append file bytes) = some after) (steady : Steady (.append file bytes) world)
    : after.StreamInv := by
  simp only [operate, Option.ite_none_right_eq_some] at done
  obtain ⟨present, done⟩ := done
  obtain rfl := Option.some.inj done
  refine { inv with fresh := ?_, within := ?_, complete := ?_, row := ?_, source := ?_ }
  · intro other later
    have apart : other ≠ file := by
      dsimp only at later
      omega
    exact (Function.update_of_ne apart ..).trans (inv.fresh other later)
  · intro other
    obtain ⟨more, grown⟩ := @files_append world file other bytes
    dsimp only
    rw [grown]
    exact (inv.within other).trans (submissions_grows _ _)
  · intro other gone closed
    have apart : other ≠ file := by
      rintro rfl
      obtain here | ⟨reader, open_, here⟩ := steady
      · exact gone here
      · exact closed reader open_ here
    have complete := inv.complete other gone closed
    rw [Complete] at complete ⊢
    dsimp only
    rw [Function.update_of_ne apart]
    exact complete
  · intro position committed
    obtain ⟨below, front, back, files, length, finished, made⟩ := inv.row position committed
    obtain ⟨more, grown⟩ := @files_append world file position.file bytes
    refine ⟨below, front, back ++ more, ?_, length, finished, made⟩
    dsimp only
    rw [grown, files, List.append_assoc]
  · intro source runs
    have own := inv.source source runs
    refine { own with reader := fun reader opened => ?_ }
    have reads := own.reader reader opened
    obtain ⟨seen, unread, files, rest⟩ := reads.seen
    obtain ⟨more, grown⟩ := @files_append world file reader.file bytes
    refine { reads with seen := ⟨seen, unread ++ more, ?_, rest⟩ }
    dsimp only
    rw [grown, files, List.append_assoc]

theorem StreamInv.rotate (inv : world.StreamInv) (done : world.operate .rotate = some after)
    (steady : Steady .rotate world)
    : after.StreamInv := by
  obtain rfl := Option.some.inj done
  refine { inv with fresh := ?_, complete := ?_, row := ?_, source := ?_ }
  · exact fun file later => inv.fresh file (Nat.lt_of_succ_lt later)
  · intro file gone closed
    by_cases here : file = world.current
    · subst here
      obtain ⟨reader, open_, same⟩ | complete := steady
      · exact absurd same (closed reader open_)
      · exact complete
    · exact inv.complete file here closed
  · intro position committed
    obtain ⟨below, rest⟩ := inv.row position committed
    exact ⟨Nat.le_succ_of_le below, rest⟩
  · intro source runs
    have own := inv.source source runs
    exact { own with
      reader := fun reader opened =>
        { own.reader reader opened with file := Nat.le_succ_of_le (own.reader reader opened).file } }

-- The process

theorem StreamInv.start (inv : world.StreamInv) (done : world.operate .start = some after)
    : after.StreamInv := by
  simp only [operate, Option.ite_none_right_eq_some] at done
  obtain ⟨dead, done⟩ := done
  obtain rfl := Option.some.inj done
  have none_ : world.source = none := by simpa using dead
  refine { inv with complete := ?_, source := ?_ }
  · intro file gone _
    exact inv.complete file gone (by simp [opened, none_])
  · intro source runs
    obtain rfl := Option.some.inj runs
    exact ⟨fun _ => ⟨rfl, rfl, rfl⟩, nofun⟩

theorem StreamInv.dies (inv : world.StreamInv)
    (steady : ∀ reader ∈ world.opened, reader.file = world.current ∨ world.Complete reader.file)
    : { world with source := none }.StreamInv := by
  refine { inv with complete := ?_, source := nofun }
  intro file gone _
  by_cases closed : ∀ reader ∈ world.opened, reader.file ≠ file
  · exact inv.complete file gone closed
  · push Not at closed
    obtain ⟨reader, open_, rfl⟩ := closed
    exact (steady reader open_).resolve_left gone

theorem StreamInv.changes (inv : world.StreamInv) {source next : StreamSource}
    (runs : world.source = some source)
    (files : next.reader.map OpenFile.file = source.reader.map OpenFile.file)
    (own : SourceInv world next)
    : { world with source := some next }.StreamInv := by
  refine { inv with complete := ?_, source := ?_ }
  · intro file gone closed
    refine inv.complete file gone fun reader open_ => ?_
    have open_ : source.reader = some reader := by simpa [opened, runs] using open_
    rw [open_] at files
    obtain ⟨reader', open_', same⟩ := Option.map_eq_some_iff.mp files
    exact same ▸ closed reader' open_'
  · intro other same
    obtain rfl := Option.some.inj same
    exact ⟨own.unopened, fun reader open_ => { own.reader reader open_ with }⟩

-- A line that was received

theorem StreamInv.nack (inv : world.StreamInv) (done : world.operate .nack = some after)
    : after.StreamInv := by
  obtain ⟨source, runs, done⟩ := Option.bind_eq_some_iff.mp done
  simp only [Option.ite_none_left_eq_some, not_not] at done
  obtain ⟨turn, done⟩ := done
  obtain rfl := Option.some.inj done
  have own := inv.source source runs
  refine inv.changes runs rfl ⟨fun closed => ⟨(own.unopened closed).1, (own.unopened closed).2.1, rfl⟩,
    fun reader opened => ?_⟩
  have reads := own.reader reader opened
  obtain ⟨inflight, has⟩ := Option.ne_none_iff_exists'.mp (reads.has (Or.inl turn))
  obtain ⟨seen, unread, files, length, finished, unfinished, made⟩ := reads.seen
  simp only [has, turn] at made
  refine { reads with idle := fun _ => made.1, reads := nofun, has := nofun, written := nofun, seen := ?_ }
  refine ⟨seen, unread, files, length, finished, unfinished, ?_⟩
  simp only [has]
  exact made

/-- A run is made of the line after those that are runs, and the position committed is just past it. -/
theorem StreamInv.commit (inv : world.StreamInv) (done : world.commit = some after)
    : after.StreamInv := by
  obtain ⟨source, runs, done⟩ := Option.bind_eq_some_iff.mp done
  obtain ⟨inflight, has, done⟩ := Option.bind_eq_some_iff.mp done
  simp only [Option.ite_none_left_eq_some, not_not] at done
  obtain ⟨turn, done⟩ := done
  obtain rfl := Option.some.inj done
  have own := inv.source source runs
  obtain ⟨reader, opened⟩ := own.opened (by rw [turn]; exact nofun)
  have reads := own.reader reader opened
  obtain ⟨seen, unread, files, length, finished, unfinished, made⟩ := reads.seen
  simp only [has, turn] at made
  obtain ⟨empty, next, made⟩ := made
  have here : inflight.next.file = reader.file := congrArg Position.file next
  have offset : inflight.next.offset = reader.place := congrArg Position.offset next
  rw [if_neg nofun] at made
  rw [empty, List.append_nil] at files
  rw [empty, List.length_nil, Nat.add_zero] at length
  have reader_made : world.madeOf reader.file
      ++ (if inflight.next.file = reader.file then [inflight.line] else []) = submissions seen := by
    rw [if_pos here, made]
  have elsewhere {file : Nat} (apart : file ≠ reader.file)
      : world.madeOf file ++ (if inflight.next.file = file then [inflight.line] else [])
        = world.madeOf file := by
    rw [if_neg (here.trans_ne apart.symm), List.append_nil]
  refine { inv with within := ?_, complete := ?_, row := ?_, later := ?_, mirror := nofun, source := ?_ }
  · intro file
    rw [madeOf_commit]
    by_cases same : file = reader.file
    · subst same
      rw [reader_made, files]
      exact submissions_grows _ _
    · rw [elsewhere same]
      exact inv.within file
  · intro file gone closed
    have apart : file ≠ reader.file := fun same =>
      closed reader (by simp [StreamWorld.opened, opened]) same.symm
    rw [Complete, madeOf_commit, elsewhere apart]
    refine inv.complete file gone fun other open_ => ?_
    obtain rfl : other = reader := by simpa [StreamWorld.opened, runs, opened] using open_.symm
    exact apart.symm
  · rintro _ ⟨rfl⟩
    refine ⟨here.trans_le reads.file, seen, unread, ?_, length.trans offset.symm, finished, ?_⟩
    · rw [here]
      exact files
    · rw [madeOf_commit, here, if_pos rfl]
      exact made
  · intro file later
    have below : inflight.next.file < file := later inflight.next rfl
    rw [madeOf_commit, if_neg below.ne, List.append_nil]
    exact inv.later file fun position committed =>
      (reads.row position committed).trans_lt (here ▸ below)
  · rintro _ ⟨rfl⟩
    refine ⟨fun closed => absurd (closed.symm.trans opened) nofun, fun other opened' => ?_⟩
    obtain rfl := Option.some.inj (opened.symm.trans opened')
    refine { reads with
      row := ?_, idle := nofun, reads := nofun, has := fun _ => ?_, written := nofun, seen := ?_ }
    · rintro _ ⟨rfl⟩
      exact here.le
    · rw [has]
      nofun
    · refine ⟨seen, unread, ?_, ?_, finished, unfinished, ?_⟩
      · rw [empty, List.append_nil]
        exact files
      · rw [empty]
        exact length
      · simp only [has]
        refine ⟨empty, next, ?_⟩
        rw [if_pos trivial, madeOf_commit]
        exact reader_made

theorem StreamInv.ack (inv : world.StreamInv) {mirrored : Bool} (done : world.ack mirrored = some after)
    : after.StreamInv := by
  obtain ⟨source, runs, done⟩ := Option.bind_eq_some_iff.mp done
  simp only [Option.ite_none_left_eq_some, not_not] at done
  obtain ⟨turn, done⟩ := done
  obtain rfl := Option.some.inj done
  have own := inv.source source runs
  obtain ⟨reader, opened⟩ := own.opened (by rw [turn]; exact nofun)
  have reads := own.reader reader opened
  obtain ⟨inflight, has⟩ := Option.ne_none_iff_exists'.mp (reads.has (Or.inr turn))
  obtain ⟨seen, unread, files, length, finished, unfinished, made⟩ := reads.seen
  simp only [has, turn, if_true] at made
  have own : SourceInv world { source with inflight := none, turn := .idle } :=
    ⟨fun closed => absurd (closed.symm.trans opened) nofun, fun other opened' => by
      obtain rfl := Option.some.inj (opened.symm.trans opened')
      exact { reads with
        idle := fun _ => made.1, reads := nofun, has := nofun, written := nofun
        seen := ⟨seen, unread, files, length, finished, unfinished, made.2.2⟩ }⟩
  have changed := inv.changes runs (by rfl) own
  refine { changed with mirror := fun none_ => absurd none_ (reads.written turn), source := ?_ }
  intro other runs'
  have own := changed.source other runs'
  exact ⟨own.unopened, fun reader opened => { own.reader reader opened with }⟩

-- Opening the file

theorem opens_start {source : StreamSource}
    (past : ∀ position ∈ source.dbPosition.or world.offsetFile,
      (world.files world.current).length < position.offset)
    : world.opens source = { source with reader := some ⟨world.current, 0⟩, pos := 0 } := by
  cases known : source.dbPosition.or world.offsetFile with
  | none => simp [opens, known]
  | some position => simp [opens, known, past position known]

theorem opens_at {source : StreamSource} {position : Position} (handed : source.dbPosition = some position)
    (in_ : position.offset ≤ (world.files world.current).length)
    : world.opens source
      = { source with reader := some ⟨world.current, position.offset⟩, pos := position.offset } := by
  simp [opens, handed, Nat.not_lt.mpr in_]

theorem StreamInv.opensFirst (inv : world.StreamInv) {source : StreamSource}
    (row : ∀ position ∈ world.row, position.file < world.current)
    (handed : ∀ position ∈ source.dbPosition, position.file ≤ world.current)
    (inflight : source.inflight = none)
    : ReaderInv world
        { source with reader := some ⟨world.current, 0⟩, pos := 0, buf := [], turn := .reading }
        ⟨world.current, 0⟩ where
  file := le_rfl
  counted := rfl
  row position committed := (row position committed).le
  handed := handed
  idle := nofun
  reads _ := inflight
  has := nofun
  written := nofun
  seen := by
    refine ⟨[], world.files world.current, rfl, rfl, finished_nil, List.not_mem_nil, ?_⟩
    simp only [inflight]
    exact inv.later world.current row

theorem StreamInv.opens (inv : world.StreamInv) {source : StreamSource}
    (unopened : source.dbPosition = world.row ∧ source.inflight = none ∧ source.turn = .idle)
    (steady : ∀ position ∈ source.dbPosition,
      position.file = world.current ∨ (world.files world.current).length < position.offset)
    : ∃ reader, (world.opens source).reader = some reader ∧ reader.file = world.current
      ∧ (reader.place = 0 ∨ world.row = some ⟨reader.file, reader.place⟩)
      ∧ ReaderInv world { world.opens source with buf := [], turn := .reading } reader := by
  obtain ⟨handed, inflight, _⟩ := unopened
  cases row : world.row with
  | none =>
      have unknown : source.dbPosition.or world.offsetFile = none := by
        rw [handed, row, inv.mirror row]
        rfl
      rw [opens_start (by simp [unknown])]
      exact ⟨_, rfl, rfl, Or.inl rfl, inv.opensFirst (by simp [row]) (by simp [handed, row]) inflight⟩
  | some position =>
      rw [row] at handed
      obtain ⟨below, front, back, files, length, finished, made⟩ := inv.row position row
      by_cases same : position.file = world.current
      · rw [same] at files made
        rw [opens_at handed (by simp [files, ← length])]
        refine ⟨_, rfl, rfl, Or.inr (by simp [← same]), ?_⟩
        exact {
          file := le_rfl
          counted := rfl
          row := by simp [row, same]
          handed := by simp [handed, same]
          idle := nofun
          reads := fun _ => inflight
          has := nofun
          written := nofun
          seen := by
            refine ⟨front, back, ?_, length, finished, List.not_mem_nil, ?_⟩
            · rw [List.append_nil]
              exact files
            · simp only [inflight]
              exact made }
      · have past := (steady position handed).resolve_left same
        rw [opens_start (by simp [handed, past])]
        refine ⟨_, rfl, rfl, Or.inl rfl, inv.opensFirst ?_ ?_ inflight⟩
        · simpa [row] using Nat.lt_of_le_of_ne below same
        · simpa [handed] using below

theorem StreamInv.recv (inv : world.StreamInv) (done : world.recv = some after)
    (steady : Steady .recv world)
    : after.StreamInv := by
  obtain ⟨source, runs, done⟩ := Option.bind_eq_some_iff.mp done
  simp only [Option.ite_none_left_eq_some, not_not] at done
  obtain ⟨turn, done⟩ := done
  have own := inv.source source runs
  by_cases held : source.inflight.isSome
  · rw [if_pos held] at done
    obtain rfl := Option.some.inj done
    obtain ⟨inflight, has⟩ := Option.isSome_iff_exists.mp held
    refine inv.changes runs rfl ⟨fun closed => ?_, fun reader opened => ?_⟩
    · exact absurd (has.symm.trans (own.unopened closed).2.1) nofun
    · have reads := own.reader reader opened
      obtain ⟨seen, unread, files, length, finished, unfinished, made⟩ := reads.seen
      simp only [has, turn] at made
      refine { reads with
        idle := nofun, reads := nofun, has := fun _ => ?_, written := nofun, seen := ?_ }
      · rw [has]
        nofun
      · refine ⟨seen, unread, files, length, finished, unfinished, ?_⟩
        simp only [has]
        exact made
  · rw [if_neg held] at done
    obtain rfl := Option.some.inj done
    have none_ : source.inflight = none := by simpa using held
    cases opened : source.reader with
    | none =>
        obtain ⟨reader, open_, here, -, reads⟩ := inv.opens (own.unopened opened)
          (steady source runs opened)
        simp only [Option.isNone_none, if_true]
        refine { inv with complete := ?_, source := ?_ }
        · intro file gone _
          exact inv.complete file gone (by simp [StreamWorld.opened, runs, opened])
        · intro other same
          obtain rfl := Option.some.inj same
          refine ⟨fun closed => absurd (closed.symm.trans open_) nofun, fun other opened' => ?_⟩
          obtain rfl := Option.some.inj (open_.symm.trans opened')
          exact { reads with }
    | some reader =>
        simp only [Option.isNone_some, Bool.false_eq_true, if_false]
        refine inv.changes runs rfl ⟨fun closed => absurd (closed.symm.trans opened) nofun,
          fun other opened' => ?_⟩
        have reads := own.reader other opened'
        have empty := reads.idle turn
        obtain ⟨seen, unread, files, length, finished, unfinished, made⟩ := reads.seen
        rw [empty] at files length
        simp only [none_] at made
        refine { reads with
          idle := nofun, reads := fun _ => none_, has := nofun, written := nofun, seen := ?_ }
        refine ⟨seen, unread, files, length, finished, List.not_mem_nil, ?_⟩
        simp only [none_]
        exact made

-- Reading

theorem ReaderInv.unread {source : StreamSource} {reader : OpenFile} (reads : ReaderInv world source reader)
    : ∃ seen unread, world.files reader.file = seen ++ source.buf ++ unread
      ∧ seen.length + source.buf.length = reader.place ∧ Finished newline seen
      ∧ newline ∉ source.buf ∧ (world.files reader.file).drop reader.place = unread
      ∧ (source.inflight = none → world.madeOf reader.file = submissions seen) := by
  obtain ⟨seen, unread, files, length, finished, unfinished, made⟩ := reads.seen
  refine ⟨seen, unread, files, length, finished, unfinished, ?_, fun none_ => ?_⟩
  · rw [files, ← length, ← List.length_append, List.drop_left]
  · simp only [none_] at made
    exact made

theorem complete_of_read {file : Nat} {seen buf unread : List UInt8}
    (files : world.files file = seen ++ buf ++ unread) (finished : Finished newline seen)
    (unfinished : newline ∉ buf) (rest : newline ∉ unread)
    (made : world.madeOf file = submissions seen)
    : world.Complete file := by
  have none_ : newline ∉ buf ++ unread := by simp [unfinished, rest]
  rw [Complete, made, files, List.append_assoc, submissions_append finished,
    submissions_unfinished none_, List.append_nil]

theorem StreamInv.read (inv : world.StreamInv) (done : world.read = some after)
    (steady : Steady .read world)
    : after.StreamInv
      ∧ ((∀ source ∈ after.source, source.turn = .ended) →
        ∀ reader ∈ world.opened, after.Complete reader.file) := by
  obtain ⟨source, runs, done⟩ := Option.bind_eq_some_iff.mp done
  obtain ⟨reader, open_, done⟩ := Option.bind_eq_some_iff.mp done
  simp only [Option.ite_none_left_eq_some, not_not] at done
  obtain ⟨turn, done⟩ := done
  have own := inv.source source runs
  have reads := own.reader reader open_
  obtain ⟨text, whole⟩ := steady source runs reader open_
  obtain ⟨seen, unread, files, length, finished, unfinished, dropped, made⟩ := reads.unread
  have none_ := reads.reads (Or.inl turn)
  rw [dropped] at done text whole
  rw [if_neg (by simp [text])] at done
  obtain ⟨body, rest, line, inside, rfl⟩ | ⟨ends, all⟩ := @firstLineOf_spec _ newline _ unread
  · rw [line] at done
    rw [if_pos (by simp)] at done
    have grown : submissions (seen ++ (source.buf ++ (body ++ [newline])))
        = world.madeOf reader.file
          ++ if blank (payload (source.buf ++ (body ++ [newline]))) then []
            else [payload (source.buf ++ (body ++ [newline]))] := by
      rw [submissions_append finished, made none_, ← List.append_assoc source.buf,
        submissions_line (by simp [unfinished, inside])]
    have after_ : world.files reader.file = seen ++ (source.buf ++ (body ++ [newline])) ++ rest := by
      rw [files]
      simp only [List.append_assoc]
    have lines : Finished newline (seen ++ (source.buf ++ (body ++ [newline]))) := by
      rw [← List.append_assoc source.buf]
      exact finished.append (finished_concat _)
    split_ifs at done with void
    · obtain rfl := Option.some.inj done
      refine ⟨inv.changes runs (by simp [open_]) ⟨nofun, ?_⟩, fun ended => ?_⟩
      case refine_2 =>
        have turn' := ended _ rfl
        exact absurd (turn.symm.trans turn') nofun
      rintro _ ⟨rfl⟩
      refine { reads with
        counted := congrArg (· + _) reads.counted, idle := fun _ => rfl, seen := ?_ }
      refine ⟨_, rest, ?_, ?_, lines, List.not_mem_nil, ?_⟩
      · rw [List.append_nil]
        exact after_
      · simp only [List.length_append, List.length_nil]
        omega
      · simp only [none_]
        rw [if_pos void, List.append_nil] at grown
        exact grown.symm
    · obtain rfl := Option.some.inj done
      refine ⟨inv.changes runs (by simp [open_]) ⟨nofun, ?_⟩, fun ended => ?_⟩
      case refine_2 => exact absurd (ended _ rfl) nofun
      rintro _ ⟨rfl⟩
      refine { reads with
        counted := congrArg (· + _) reads.counted, idle := nofun, reads := nofun
        has := nofun, written := nofun, seen := ?_ }
      refine ⟨_, rest, ?_, ?_, lines, List.not_mem_nil, rfl, ?_, ?_⟩
      · rw [List.append_nil]
        exact after_
      · simp only [List.length_append, List.length_nil]
        omega
      · simp [reads.counted]
      · rw [if_neg void] at grown
        rw [if_neg nofun]
        exact grown.symm
  · rw [all] at done whole
    have open_line : newline ∉ source.buf ++ unread := by simp [unfinished, ends]
    have last : (source.buf ++ unread).getLast? ≠ some newline :=
      fun is => open_line (List.mem_of_getLast? is)
    have complete : ∀ other ∈ world.opened, world.Complete other.file := by
      intro other open_'
      obtain rfl : other = reader := by simpa [opened, runs, open_] using open_'.symm
      exact complete_of_read files finished unfinished ends (made none_)
    rw [if_neg fun is => last is.2] at done
    split_ifs at done with drains void
    · obtain rfl := Option.some.inj done
      exact ⟨inv.dies fun other open_' => Or.inr (complete other open_'), fun _ => complete⟩
    · have drain : world.follow = false := by simpa using drains
      exact absurd ((whole drain).resolve_left last) void
    · obtain rfl := Option.some.inj done
      refine ⟨inv.changes runs (by simp [open_]) ⟨nofun, ?_⟩, fun _ => complete⟩
      rintro _ ⟨rfl⟩
      refine { reads with
        counted := congrArg (· + _) reads.counted, idle := nofun, reads := fun _ => none_
        has := nofun, written := nofun, seen := ?_ }
      refine ⟨seen, [], ?_, ?_, finished, open_line, ?_⟩
      · rw [List.append_nil, ← List.append_assoc]
        exact files
      · simp only [List.length_append]
        omega
      · simp only [none_]
        exact made none_

/-- A file that is shorter than what was read took the place of one that is all read, and is read from
its start.
-/
theorem StreamInv.reopens (inv : world.StreamInv) {source : StreamSource}
    (runs : world.source = some source) {reader : OpenFile} (open_ : source.reader = some reader)
    (steady : Steady .check world) (shorter : (world.files world.current).length < source.pos)
    : reader.file < world.current ∧ newline ∉ (world.files reader.file).drop reader.place
      ∧ { world with offsetFile := none }.opens source
        = { source with reader := some ⟨world.current, 0⟩, pos := 0 } := by
  have reads := (inv.source source runs).reader reader open_
  obtain ⟨seen, unread, files, length, -⟩ := reads.unread
  have apart : reader.file ≠ world.current := by
    intro here
    rw [← here, files, reads.counted, ← length] at shorter
    simp only [List.length_append] at shorter
    omega
  obtain ⟨-, ends, past⟩ := steady source runs reader open_ apart
  refine ⟨Nat.lt_of_le_of_ne reads.file apart, ends, opens_start ?_⟩
  simpa using past

theorem StreamInv.check (inv : world.StreamInv) (done : world.check = some after)
    (steady : Steady .check world)
    : after.StreamInv := by
  obtain ⟨source, runs, done⟩ := Option.bind_eq_some_iff.mp done
  simp only [Option.ite_none_left_eq_some, not_not] at done
  obtain ⟨turn, done⟩ := done
  have own := inv.source source runs
  obtain ⟨reader, open_⟩ := own.opened (by rw [turn]; exact nofun)
  have reads := own.reader reader open_
  have none_ := reads.reads (Or.inr turn)
  split_ifs at done with shorter
  · obtain ⟨below, ends, opens⟩ := inv.reopens runs open_ steady shorter
    obtain rfl := Option.some.inj done
    have first := inv.opensFirst (fun position committed => (reads.row position committed).trans_lt below)
      (fun position handed => (reads.handed position handed).trans below.le) none_
    simp only [opens]
    refine { inv with complete := ?_, mirror := fun _ => rfl, source := ?_ }
    · intro file gone closed
      by_cases same : file = reader.file
      · obtain ⟨seen, unread, files, length, finished, unfinished, dropped, made⟩ := reads.unread
        rw [dropped] at ends
        rw [same]
        exact complete_of_read files finished unfinished ends (made none_)
      · refine inv.complete file gone fun other open_' => ?_
        obtain rfl : other = reader := by simpa [opened, runs, open_] using open_'.symm
        exact Ne.symm same
    · intro other same
      obtain rfl := Option.some.inj same
      refine ⟨nofun, ?_⟩
      rintro _ ⟨rfl⟩
      exact { first with }
  · obtain rfl := Option.some.inj done
    refine inv.changes runs rfl ⟨fun closed => absurd (closed.symm.trans open_) nofun, ?_⟩
    intro other open_'
    obtain rfl := Option.some.inj (open_.symm.trans open_')
    obtain ⟨seen, unread, files, length, finished, unfinished, made⟩ := reads.seen
    simp only [none_] at made
    refine { reads with
      idle := nofun, reads := fun _ => none_, has := nofun, written := nofun, seen := ?_ }
    refine ⟨seen, unread, files, length, finished, unfinished, ?_⟩
    simp only [none_]
    exact made

-- Whole histories

theorem StreamInv.init (follow : Bool)
    : (streamSystem follow).init.StreamInv where
  fresh _ _ := rfl
  within _ := List.nil_prefix
  complete _ _ _ := rfl
  row := nofun
  later _ _ := rfl
  mirror _ := rfl
  source := nofun

theorem StreamInv.step (inv : world.StreamInv) {op : StreamOp} (done : world.operate op = some after)
    (steady : Steady op world)
    : after.StreamInv := by
  cases op with
  | append file bytes => exact inv.append done steady
  | rotate => exact inv.rotate done steady
  | start => exact inv.start done
  | crash =>
      obtain rfl := Option.some.inj done
      exact inv.dies steady
  | recv => exact inv.recv done steady
  | read => exact (inv.read done steady).1
  | check => exact inv.check done steady
  | commit => exact inv.commit done
  | nack => exact inv.nack done
  | ack mirrored => exact inv.ack done

/-- Each finished line that is not blank is one run, in the order of its file: those of the files that
are gone all are, those of a file that is still read are up to some line.
-/
def InOrder (world : StreamWorld) : Prop :=
  (∀ file, world.madeOf file <+: submissions (world.files file))
    ∧ ∀ file < world.current, (∀ reader ∈ world.opened, reader.file ≠ file) → world.Complete file

theorem StreamInv.inOrder (inv : world.StreamInv)
    : world.InOrder :=
  ⟨inv.within, fun file gone closed => inv.complete file gone.ne closed⟩

/-- What a step does: a read that finds the end of a file leaves no line of it that is no run; and a file
that is opened is the one at the path, and is read from its start or from its own position.
-/
structure StreamCommit (commit : Commit StreamWorld StreamOp) : Prop where
  waits
    : commit.label = .read → (∀ source ∈ commit.after.source, source.turn = .ended) →
      ∀ reader ∈ commit.before.opened, commit.after.Complete reader.file
  seeks
    : ∀ reader ∈ commit.after.opened, (∀ other ∈ commit.before.opened, other.file ≠ reader.file) →
      reader.file = commit.before.current
      ∧ (reader.place = 0 ∨ commit.before.row = some ⟨reader.file, reader.place⟩)

theorem opened_of_operate {op : StreamOp} (done : world.operate op = some after)
    (recv : op ≠ .recv) (check : op ≠ .check)
    : ∀ reader ∈ after.opened, ∃ other ∈ world.opened, other.file = reader.file := by
  cases op with
  | recv => exact absurd rfl recv
  | check => exact absurd rfl check
  | append file bytes =>
      simp only [operate, Option.ite_none_right_eq_some] at done
      obtain rfl := Option.some.inj done.2
      exact fun reader open_ => ⟨reader, open_, rfl⟩
  | rotate =>
      obtain rfl := Option.some.inj done
      exact fun reader open_ => ⟨reader, open_, rfl⟩
  | start =>
      simp only [operate, Option.ite_none_right_eq_some] at done
      obtain rfl := Option.some.inj done.2
      nofun
  | crash =>
      obtain rfl := Option.some.inj done
      nofun
  | read =>
      obtain ⟨source, runs, done⟩ := Option.bind_eq_some_iff.mp done
      obtain ⟨reader, open_, done⟩ := Option.bind_eq_some_iff.mp done
      simp only [Option.ite_none_left_eq_some, not_not] at done
      have has : world.opened = some reader := by simp [opened, runs, open_]
      obtain ⟨turn, done⟩ := done
      intro other open_'
      refine ⟨reader, has, ?_⟩
      split_ifs at done
      all_goals
        obtain rfl := Option.some.inj done
        simp only [opened, Option.bind_some, Option.bind_none, Option.mem_def, Option.some.injEq,
          reduceCtorEq] at open_'
      all_goals
        subst open_'
        rfl
  | commit =>
      obtain ⟨source, runs, done⟩ := Option.bind_eq_some_iff.mp done
      obtain ⟨inflight, has, done⟩ := Option.bind_eq_some_iff.mp done
      simp only [Option.ite_none_left_eq_some] at done
      obtain rfl := Option.some.inj done.2
      exact fun reader open_ => ⟨reader, by simpa [opened, runs] using open_, rfl⟩
  | nack | ack mirrored =>
      obtain ⟨source, runs, done⟩ := Option.bind_eq_some_iff.mp done
      simp only [Option.ite_none_left_eq_some] at done
      obtain rfl := Option.some.inj done.2
      exact fun reader open_ => ⟨reader, by simpa [opened, runs] using open_, rfl⟩

theorem StreamInv.seeks (inv : world.StreamInv) {op : StreamOp} (done : world.operate op = some after)
    (steady : Steady op world) {reader : OpenFile} (open_ : reader ∈ after.opened)
    (new : ∀ other ∈ world.opened, other.file ≠ reader.file)
    : reader.file = world.current
      ∧ (reader.place = 0 ∨ world.row = some ⟨reader.file, reader.place⟩) := by
  by_cases recv : op = .recv
  · subst recv
    obtain ⟨source, runs, done⟩ := Option.bind_eq_some_iff.mp done
    have own := inv.source source runs
    simp only [Option.ite_none_left_eq_some, not_not] at done
    obtain ⟨turn, done⟩ := done
    cases opened : source.reader with
    | none =>
        obtain ⟨opened', has, here, place, -⟩ := inv.opens (own.unopened opened) (steady source runs opened)
        have none_ := (own.unopened opened).2.1
        rw [if_neg (by simp [none_]), if_pos (by simp [opened])] at done
        obtain rfl := Option.some.inj done
        obtain rfl := Option.some.inj (has.symm.trans open_)
        exact ⟨here, place⟩
    | some other =>
        have was : other ∈ world.opened := by simp [StreamWorld.opened, runs, opened]
        rw [if_neg (by simp [opened] : ¬source.reader.isNone = true)] at done
        split_ifs at done
        all_goals
          obtain rfl := Option.some.inj done
          obtain rfl := Option.some.inj (opened.symm.trans open_)
          exact absurd rfl (new other was)
  · by_cases check : op = .check
    · subst check
      obtain ⟨source, runs, done⟩ := Option.bind_eq_some_iff.mp done
      have own := inv.source source runs
      simp only [Option.ite_none_left_eq_some, not_not] at done
      obtain ⟨turn, done⟩ := done
      obtain ⟨other, opened⟩ := own.opened (by rw [turn]; exact nofun)
      have was : other ∈ world.opened := by simp [StreamWorld.opened, runs, opened]
      split_ifs at done with shorter
      · obtain ⟨-, -, opens⟩ := inv.reopens runs opened steady shorter
        simp only [opens] at done
        obtain rfl := Option.some.inj done
        obtain rfl := Option.some.inj open_
        exact ⟨rfl, Or.inl rfl⟩
      · obtain rfl := Option.some.inj done
        obtain rfl := Option.some.inj (opened.symm.trans open_)
        exact absurd rfl (new other was)
    · obtain ⟨other, was, same⟩ := opened_of_operate done recv check reader open_
      exact absurd same (new other was)

end StreamWorld

/-- In every run whose steps leave no line behind, each finished line that is not blank is one run, in the
order of its file, a read that comes to the end of a file leaves no line of it, and a file is read from its
start or from its own position.
-/
theorem lines_become_runs (follow : Bool)
    : ∀ commits world, (streamSystem follow).History StreamWorld.Steady
        (streamSystem follow).init commits world →
      world.InOrder ∧ ∀ commit ∈ commits, StreamWorld.StreamCommit commit := by
  intro commits world history
  have whole := @System.History.rule _ _ _ _ StreamWorld.StreamInv StreamWorld.StreamCommit _ _ _
    history (.init follow) ?_
  · exact ⟨whole.1.inOrder, fun commit member => (whole.2 commit member).2.2⟩
  · intro op origin _ commit member inv steady
    obtain ⟨after, done, rfl⟩ := mem_commitsFrom_toList.mp member
    refine ⟨inv.step done steady, ?_, fun reader open_ new => inv.seeks done steady open_ new⟩
    rintro rfl ended
    exact (inv.read done steady).2 ended

-- A file that is replaced

instance decidableComplete (world : StreamWorld) (file : Nat)
    : Decidable (world.Complete file) :=
  inferInstanceAs (Decidable (_ = _))

instance decidableSteadyStream
    : ∀ (op : StreamOp) (world : StreamWorld), Decidable (StreamWorld.Steady op world)
  | .append .., _ => inferInstanceAs (Decidable (_ ∨ ∃ _ ∈ _, _))
  | .rotate, _ => inferInstanceAs (Decidable ((∃ _ ∈ _, _) ∨ _))
  | .crash, _ => inferInstanceAs (Decidable (∀ _ ∈ _, _ ∨ _))
  | .recv, _ => inferInstanceAs (Decidable (∀ _ ∈ _, _ → ∀ _ ∈ _, _ ∨ _))
  | .read, _ => inferInstanceAs (Decidable (∀ _ ∈ _, ∀ _ ∈ _, _ ∧ (_ → _ ∨ _)))
  | .check, _ => inferInstanceAs (Decidable (∀ _ ∈ _, ∀ _ ∈ _, _ → _ ∧ _ ∧ ∀ _ ∈ _, _))
  | .start, _ | .commit, _ | .nack, _ | .ack _, _ => inferInstanceAs (Decidable True)

/-- A line in pieces after a blank one is made a run; the one after it is refused once, and the process dies
as it is a run and not acknowledged; and a shorter file takes the place of the one that is all read.
-/
def replaced : List StreamOp :=
  [.append 0 [10, 97], .start, .recv, .read, .read, .check, .append 0 [98, 10, 99, 10], .read, .commit,
    .ack true, .recv, .read, .nack, .recv, .commit, .crash, .start, .recv, .read, .rotate,
    .append 1 [100, 10], .check, .read, .commit, .ack false]

/-- The three lines are one run each. -/
theorem lines_become_runs_replaced
    : let world := (streamSystem true).outcome (streamSystem true).init replaced
      world.made = [(0, [97, 98]), (0, [99]), (1, [100])] ∧ world.InOrder :=
  ⟨by decide +kernel, (lines_become_runs true _ _ (.whole .start (by decide +kernel))).1⟩

/-- A file of ten bytes is all read, by a process that started after its first line, and the one that takes
its place has six bytes as it is found.
-/
def seeksForward : List StreamOp :=
  [.append 0 [97, 97, 97, 97, 10], .start, .recv, .read, .commit, .ack true, .crash, .start,
    .append 0 [98, 98, 98, 98, 10], .recv, .read, .commit, .ack true, .recv, .read, .rotate,
    .append 1 [99, 10, 100, 10, 101, 10], .check, .append 1 [102, 10], .read, .read, .commit]

/-- A position of the file that is gone is read in the one that took its place, whose lines before it are
no runs.
-/
theorem lines_are_skipped
    : ¬ ∀ (follow : Bool) (commits : List (Commit StreamWorld StreamOp)) (world : StreamWorld),
        (streamSystem follow).History (fun _ _ => True) (streamSystem follow).init commits world →
          world.InOrder ∧ ∀ commit ∈ commits, StreamWorld.StreamCommit commit := by
  intro inOrder
  have history : (streamSystem true).History (fun _ _ => True) (streamSystem true).init
      ([] ++ (streamSystem true).trace (streamSystem true).init seeksForward)
      ((streamSystem true).outcome (streamSystem true).init seeksForward) :=
    .whole .start (by decide)
  have first := (inOrder true _ _ history).1.1 1
  revert first
  decide +kernel

end Dagron.Source
