import Dagron.Ci.Masking

/-! The relay that prints a job's stream: the steps' lines read as their bytes come, in whatever
chunks, and the runner's own lines, each printed when it asks, on a line of its own.
-/

namespace Dagron.Ci

open Dagron.Library Dagron.Spec

-- The reader

/-- How the relay prints, as the job goes. -/
inductive Stage where
  | steps
  | own
  | closed
  deriving DecidableEq

/-- What the runner asks of the relay: to print its next own line, that the steps are over, or that
its last line is printed.
-/
inductive Ask where
  | line
  | end_
  | close
  deriving DecidableEq

/-- What is printed at a time: of the steps, or one of the runner's own lines. -/
inductive Printed where
  | step (bytes : List UInt8)
  | own (bytes : List UInt8)
  deriving DecidableEq

def Printed.bytes : Printed → List UInt8
  | .step bytes => bytes
  | .own bytes => bytes

/-- What the relay and the runner share. -/
structure Shared where
  output
    : List Printed := []
  commands
    : Commands
  queue
    : List (List UInt8) := []

/-- The relay's reading of the job's stream: the bytes that wait for their line's end, how many of
them hold none, whether a line was printed cut at its bound, whether the line being read is one
not printed, and how the job stands.
-/
structure Reader extends Shared where
  pending
    : List UInt8 := []
  scanned
    : Nat := 0
  isOpen
    : Bool := false
  isHiding
    : Bool := false
  stage
    : Stage := .steps

def lineMax : Nat :=
  64 * 1024

/-- An annotation on a line of its own, after the line that asked for it. -/
def annotationAfter (stop : List UInt8) : Option Annotation → List UInt8
  | none => []
  | some annotation =>
      (if stop.getLast? = some newline then [] else [newline]) ++ annotation.render ++ [newline]

/-- Reads a line of the steps', which ended as it did: in nothing where it was cut, or the last. -/
def Reader.line (reader : Reader) (text stop : List UInt8) : Reader :=
  if reader.stage ≠ .steps then reader
  else if reader.isHiding then { reader with isHiding := stop.isEmpty }
  else if reader.commands.hides text then { reader with isHiding := stop.isEmpty }
  else
    let (shown, annotation, commands) := reader.commands.line text
    { reader with
      commands := commands
      output := reader.output ++ [.step (shown ++ stop ++ annotationAfter stop annotation)] }

/-- Takes the next whole line, and how it ended, from what waits: where a carriage return is last
its line is held until what follows it has come.
-/
def Reader.takeLine (reader : Reader) : Option (List UInt8 × List UInt8) × Reader :=
  match (reader.pending.drop reader.scanned).findIdx? (fun byte => byte == newline || byte == carriage) with
  | none => (none, { reader with scanned := reader.pending.length })
  | some found =>
      let place := found + reader.scanned
      let taken (length : Nat) : Option (List UInt8 × List UInt8) × Reader :=
        (some (reader.pending.take place, (reader.pending.drop place).take length),
          { reader with pending := reader.pending.drop (place + length), scanned := 0 })
      match reader.pending.drop place with
      | first :: second :: _ =>
          if first = carriage ∧ second = newline then taken 2 else taken 1
      | [first] => if first = carriage then (none, { reader with scanned := place }) else taken 1
      | [] => (none, reader)

/-- (readLines fuel) reads each whole line of what waits, no more than (fuel) of them. -/
def Reader.readLines : Nat → Reader → Reader
  | 0, reader => reader
  | fuel + 1, reader =>
      match reader.takeLine with
      | (none, reader) => reader
      | (some (text, stop), reader) => readLines fuel { reader.line text stop with isOpen := false }

def Reader.cut (reader : Reader) : Reader :=
  { { reader with pending := [], scanned := 0 }.line reader.pending [] with isOpen := true }

def Reader.feed (reader : Reader) (bytes : List UInt8) : Reader :=
  let reader := { reader with pending := reader.pending ++ bytes }
  let reader := reader.readLines (reader.pending.length + 1)
  if lineMax ≤ reader.pending.length then reader.cut else reader

def Reader.finish (reader : Reader) : Reader :=
  if reader.pending ≠ [] then reader.cut else reader

def Reader.endLine (reader : Reader) : Reader :=
  if reader.pending ≠ [] ∨ reader.isOpen then
    let (text, stop) := if reader.pending.getLast? = some carriage then
        (reader.pending.dropLast, [carriage, newline])
      else (reader.pending, [newline])
    { { reader with pending := [], scanned := 0 }.line text stop with isOpen := false }
  else reader

def Reader.answer (reader : Reader) : Ask → Reader
  | .line =>
      match reader.queue with
      | [] => reader
      | line :: rest =>
          if reader.stage = .closed then { reader with queue := rest }
          else
            { reader with
              queue := rest
              output := reader.output ++ [.own (reader.commands.ownLine line)] }
  | .end_ => if reader.stage = .steps then { reader with stage := .own } else reader
  | .close => { reader with stage := .closed }

/-- Answers what the runner asks, once every byte of the steps' before it is fed. -/
def Reader.ask (reader : Reader) (word : Ask) : Reader :=
  reader.endLine.answer word

-- Runs

/-- What happens to the relay: the runner queues one of its lines, bytes of the steps come, their
stream ends, or the runner asks.
-/
inductive Event where
  | queue (line : List UInt8)
  | feed (bytes : List UInt8)
  | finish
  | ask (word : Ask)
  deriving DecidableEq

def Reader.step (reader : Reader) : Event → Reader
  | .queue line => { reader with queue := reader.queue ++ [line ++ [newline]] }
  | .feed bytes => reader.feed bytes
  | .finish => reader.finish
  | .ask word => reader.ask word

def Reader.run (reader : Reader) (events : List Event) : Reader :=
  events.foldl Reader.step reader

-- What reading the steps does

def ownLines (output : List Printed) : List (List UInt8) :=
  output.filterMap fun
    | .own bytes => some bytes
    | .step _ => none

def stepsPrinted (output : List Printed) : List (List UInt8) :=
  output.filterMap fun
    | .own _ => none
    | .step bytes => some bytes

/-- What reading the steps may do: it prints of them alone, and once they are over nothing. -/
structure Reads (before after : Reader) : Prop where
  queue
    : after.queue = before.queue
  stage
    : after.stage = before.stage
  printed
    : ∃ written : List (List UInt8), after.output = before.output ++ written.map .step
  quiet
    : before.stage ≠ .steps → after.output = before.output

theorem Reads.refl (reader : Reader)
    : Reads reader reader :=
  ⟨rfl, rfl, ⟨[], (List.append_nil _).symm⟩, fun _ => rfl⟩

theorem Reads.trans {first second third : Reader} (one : Reads first second) (two : Reads second third)
    : Reads first third := by
  obtain ⟨written, printed⟩ := one.printed
  obtain ⟨more, later⟩ := two.printed
  refine ⟨two.queue.trans one.queue, two.stage.trans one.stage, ⟨written ++ more, ?_⟩, fun over_ => ?_⟩
  · rw [later, printed, List.append_assoc, List.map_append]
  · exact (two.quiet (one.stage ▸ over_)).trans (one.quiet over_)

section Reads

variable (reader : Reader)

theorem line_reads (text stop : List UInt8)
    : Reads reader (reader.line text stop) := by
  rw [Reader.line]
  split_ifs with over_ hidden hides
  · exact .refl _
  · exact ⟨rfl, rfl, ⟨[], (List.append_nil _).symm⟩, fun _ => rfl⟩
  · exact ⟨rfl, rfl, ⟨[], (List.append_nil _).symm⟩, fun _ => rfl⟩
  · exact ⟨rfl, rfl, ⟨[_], rfl⟩, fun other => absurd other over_⟩

theorem line_kept (text stop : List UInt8)
    : (reader.line text stop).pending = reader.pending
      ∧ (reader.line text stop).scanned = reader.scanned
      ∧ (reader.line text stop).isOpen = reader.isOpen := by
  rw [Reader.line]
  split_ifs
  · exact ⟨rfl, rfl, rfl⟩
  · exact ⟨rfl, rfl, rfl⟩
  · exact ⟨rfl, rfl, rfl⟩
  · exact ⟨rfl, rfl, rfl⟩

theorem takeLine_first {offset : Nat} (found : (reader.pending.drop reader.scanned).findIdx?
      (fun byte => byte == newline || byte == carriage) = some offset) (byte : UInt8) (rest : List UInt8)
    (parts : reader.pending.drop (offset + reader.scanned) = byte :: rest)
    : byte = newline ∨ byte = carriage := by
  obtain ⟨inside, ends, -⟩ := List.findIdx?_eq_some_iff_getElem.mp found
  rw [Nat.add_comm, ← List.drop_drop, List.drop_eq_getElem_cons inside] at parts
  rw [← (List.cons.inj parts).1]
  simpa using ends

/-- What a reader takes from what waits changes that alone; a line so taken ends as lines do, and
where it ends in a carriage return something still waits.
-/
theorem takeLine_spec
    : ∃ pending scanned,
      reader.takeLine.2 = { reader with pending := pending, scanned := scanned }
        ∧ (reader.takeLine.1 = none → pending = reader.pending)
        ∧ ∀ text stop, reader.takeLine.1 = some (text, stop) →
          stop.getLast? = some newline ∨ stop = [carriage] ∧ pending ≠ [] := by
  rw [Reader.takeLine]
  cases found : (reader.pending.drop reader.scanned).findIdx?
      (fun byte => byte == newline || byte == carriage) with
  | none => exact ⟨reader.pending, _, rfl, fun _ => rfl, nofun⟩
  | some offset =>
      have first := takeLine_first reader found
      dsimp only
      rcases parts : reader.pending.drop (offset + reader.scanned) with _ | ⟨byte, _ | ⟨next, rest⟩⟩
      · exact ⟨reader.pending, reader.scanned, rfl, fun _ => rfl, nofun⟩
      · dsimp only
        split_ifs with held
        · exact ⟨reader.pending, _, rfl, fun _ => rfl, nofun⟩
        · refine ⟨_, _, rfl, nofun, fun text stop taken => .inl ?_⟩
          obtain ⟨-, rfl⟩ := Prod.mk.inj (Option.some.inj taken)
          rw [(first byte [] parts).resolve_right held]
          rfl
      · dsimp only
        split_ifs with both
        · refine ⟨_, _, rfl, nofun, fun text stop taken => .inl ?_⟩
          obtain ⟨-, rfl⟩ := Prod.mk.inj (Option.some.inj taken)
          rw [both.2]
          rfl
        · refine ⟨_, _, rfl, nofun, fun text stop taken => ?_⟩
          obtain ⟨-, rfl⟩ := Prod.mk.inj (Option.some.inj taken)
          rcases first byte (next :: rest) parts with rfl | rfl
          · exact .inl rfl
          · refine .inr ⟨rfl, ?_⟩
            rw [← List.drop_drop, parts]
            exact List.cons_ne_nil next rest

theorem readLines_reads (fuel : Nat)
    : Reads reader (reader.readLines fuel) := by
  induction fuel generalizing reader with
  | zero => exact .refl _
  | succ fuel ih =>
      obtain ⟨pending, scanned, taken, -⟩ := takeLine_spec reader
      rw [Reader.readLines]
      rcases parts : reader.takeLine with ⟨_ | ⟨text, stop⟩, rest⟩
      · simp only [parts] at taken
        subst taken
        exact ⟨rfl, rfl, ⟨[], (List.append_nil _).symm⟩, fun _ => rfl⟩
      · simp only [parts] at taken
        subst taken
        have first := line_reads { reader with pending := pending, scanned := scanned } text stop
        have whole : Reads reader { Reader.line _ text stop with isOpen := false } :=
          ⟨first.queue, first.stage, first.printed, first.quiet⟩
        exact whole.trans (ih _)

theorem cut_reads
    : Reads reader reader.cut := by
  have first := line_reads { reader with pending := [], scanned := 0 } reader.pending []
  exact ⟨first.queue, first.stage, first.printed, first.quiet⟩

theorem feed_reads (bytes : List UInt8)
    : Reads reader (reader.feed bytes) := by
  have lines := readLines_reads { reader with pending := reader.pending ++ bytes }
    ((reader.pending ++ bytes).length + 1)
  have whole : Reads reader _ := ⟨lines.queue, lines.stage, lines.printed, lines.quiet⟩
  rw [Reader.feed]
  split_ifs
  · exact whole.trans (cut_reads _)
  · exact whole

theorem finish_reads
    : Reads reader reader.finish := by
  rw [Reader.finish]
  split_ifs
  · exact cut_reads reader
  · exact .refl reader

theorem endLine_reads
    : Reads reader reader.endLine := by
  rw [Reader.endLine]
  split_ifs
  · have first := line_reads { reader with pending := [], scanned := 0 } reader.pending.dropLast
      [carriage, newline]
    exact ⟨first.queue, first.stage, first.printed, first.quiet⟩
  · have first := line_reads { reader with pending := [], scanned := 0 } reader.pending [newline]
    exact ⟨first.queue, first.stage, first.printed, first.quiet⟩
  · exact .refl reader

end Reads

-- Lines of output

def bytesOf (output : List Printed) : List UInt8 :=
  output.flatMap Printed.bytes

/-- Whether what is printed next starts a line of the output. -/
def AtLineStart (output : List Printed) : Prop :=
  bytesOf output = [] ∨ (bytesOf output).getLast? = some newline

/-- Whether a step's line is not printed while the output stands in the middle of a line. -/
def Reader.HidesMidLine (reader : Reader) (text : List UInt8) : Prop :=
  reader.stage = .steps ∧ reader.isHiding = false ∧ reader.commands.hides text
    ∧ ¬ AtLineStart reader.output

/-- Lines of the steps' that a reader reads of what waits, each as it stands when it is read. -/
def Reader.readings : Nat → Reader → List (Reader × List UInt8)
  | 0, _ => []
  | fuel + 1, reader =>
      match reader.takeLine with
      | (none, _) => []
      | (some (text, stop), reader) =>
          (reader, text) :: readings fuel { reader.line text stop with isOpen := false }

def Reader.reads (reader : Reader) : Event → List (Reader × List UInt8)
  | .queue _ => []
  | .feed bytes =>
      let reader := { reader with pending := reader.pending ++ bytes }
      let fuel := reader.pending.length + 1
      let left := reader.readLines fuel
      reader.readings fuel ++ if lineMax ≤ left.pending.length then [(left, left.pending)] else []
  | .finish => if reader.pending ≠ [] then [(reader, reader.pending)] else []
  | .ask _ =>
      if reader.pending ≠ [] ∨ reader.isOpen then
        [(reader, if reader.pending.getLast? = some carriage then reader.pending.dropLast
          else reader.pending)]
      else []

/-- A run in which no line of the steps' is hidden while the output stands in the middle of one. -/
def Reader.Smooth (start : Reader) (events : List Event) : Prop :=
  ∀ before event after, events = before ++ event :: after →
    ∀ read ∈ (start.run before).reads event, ¬ read.1.HidesMidLine read.2

/-- Whether each of the runner's lines that is printed starts a line of the output, and ends it. -/
def Placed (output : List Printed) : Prop :=
  ∀ before own after, output = before ++ .own own :: after →
    AtLineStart before ∧ ∃ text, own = text ++ [newline]

/-- What holds of a reader between lines: where it prints nothing of the steps' line, or of the
steps at all, the output is at a line's start, as it was before each of the runner's lines.
-/
structure Sound (reader : Reader) : Prop where
  masks
    : Inline reader.commands.masks
  queue
    : ∀ line ∈ reader.queue, ∃ text, line = text ++ [newline]
  over_
    : reader.stage ≠ .steps → AtLineStart reader.output
  hidden
    : reader.isHiding = true → AtLineStart reader.output
  placed
    : Placed reader.output

/-- Sound, and with nothing that waits or was cut the output is at a line's start. -/
structure Settled (reader : Reader) : Prop extends Sound reader where
  waits
    : reader.pending = [] → reader.isOpen = false → AtLineStart reader.output

section Lines

variable {reader : Reader}

theorem bytesOf_append (first second : List Printed)
    : bytesOf (first ++ second) = bytesOf first ++ bytesOf second :=
  List.flatMap_append

theorem atLineStart_append (output : List Printed) {shown : Printed} {text : List UInt8}
    (ends : shown.bytes = text ++ [newline])
    : AtLineStart (output ++ [shown]) := by
  refine .inr ?_
  rw [bytesOf_append, bytesOf, bytesOf, List.flatMap_singleton, ends, ← List.append_assoc,
    List.getLast?_concat]

theorem placed_append_step {output : List Printed} {bytes : List UInt8} (placed : Placed output)
    : Placed (output ++ [.step bytes]) := by
  intro before own after parts
  rcases List.eq_nil_or_concat after with rfl | ⟨rest, last, rfl⟩
  · have := (List.append_inj' parts rfl).2
    simp at this
  · rw [List.concat_eq_append, ← List.cons_append, ← List.append_assoc] at parts
    exact placed before own rest (List.append_inj' parts rfl).1

theorem placed_append_own {output : List Printed} {bytes text : List UInt8}
    (ready : AtLineStart output) (ends : bytes = text ++ [newline]) (placed : Placed output)
    : Placed (output ++ [.own bytes]) := by
  intro before own after parts
  rcases List.eq_nil_or_concat after with rfl | ⟨rest, last, rfl⟩
  · obtain ⟨same, own_⟩ := List.append_inj' parts rfl
    obtain rfl := Printed.own.inj (List.singleton_inj.mp own_)
    exact ⟨same ▸ ready, text, ends⟩
  · rw [List.concat_eq_append, ← List.cons_append, ← List.append_assoc] at parts
    exact placed before own rest (List.append_inj' parts rfl).1

theorem line_sound (sound : Sound reader) {text : List UInt8} (smooth : ¬ reader.HidesMidLine text)
    (stop : List UInt8)
    : Sound (reader.line text stop)
      ∧ (stop.getLast? = some newline → AtLineStart (reader.line text stop).output) := by
  rw [Reader.line]
  split_ifs with over_ hidden hides
  · exact ⟨sound, fun _ => sound.over_ over_⟩
  · have ready := sound.hidden hidden
    exact ⟨⟨sound.masks, sound.queue, fun _ => ready, fun _ => ready, sound.placed⟩, fun _ => ready⟩
  · have ready : AtLineStart reader.output := by
      by_contra middle
      exact smooth ⟨not_not.mp over_, Bool.not_eq_true _ ▸ hidden, hides, middle⟩
    exact ⟨⟨sound.masks, sound.queue, fun _ => ready, fun _ => ready, sound.placed⟩, fun _ => ready⟩
  · refine ⟨⟨inline_line sound.masks text, sound.queue, fun other => absurd other over_,
      fun other => absurd other hidden, placed_append_step sound.placed⟩, fun ends => ?_⟩
    obtain ⟨front, rfl⟩ := List.getLast?_eq_some_iff.mp ends
    dsimp only
    cases said : (reader.commands.line text).2.1 with
    | none | some annotation =>
        exact atLineStart_append _ (by simp [Printed.bytes, annotationAfter, ← List.append_assoc]; rfl)

theorem Sound.of_same {other : Reader} (sound : Sound reader) (commands : other.commands = reader.commands)
    (queue : other.queue = reader.queue) (output : other.output = reader.output)
    (hidden : other.isHiding = reader.isHiding) (stage : other.stage = reader.stage)
    : Sound other := by
  constructor
  · exact commands ▸ sound.masks
  · exact queue ▸ sound.queue
  · rw [output, stage]
    exact sound.over_
  · rw [output, hidden]
    exact sound.hidden
  · exact output ▸ sound.placed

theorem readLines_sound {fuel : Nat} (settled : Settled reader)
    (smooth : ∀ read ∈ reader.readings fuel, ¬ read.1.HidesMidLine read.2)
    : Settled (reader.readLines fuel) := by
  induction fuel generalizing reader with
  | zero => exact settled
  | succ fuel ih =>
      obtain ⟨pending, scanned, taken, held, ends⟩ := takeLine_spec reader
      rw [Reader.readings] at smooth
      rw [Reader.readLines]
      rcases parts : reader.takeLine with ⟨_ | ⟨text, stop⟩, rest⟩
      · simp only [parts, forall_const] at taken held
        subst taken held
        exact ⟨settled.toSound.of_same rfl rfl rfl rfl rfl, settled.waits⟩
      · simp only [parts, Option.some.injEq, Prod.mk.injEq] at taken ends smooth
        subst taken
        have before : Sound { reader with pending := pending, scanned := scanned } :=
          settled.toSound.of_same rfl rfl rfl rfl rfl
        obtain ⟨sound, start⟩ := line_sound before (smooth _ List.mem_cons_self) stop
        obtain ⟨same, -, -⟩ := line_kept { reader with pending := pending, scanned := scanned } text stop
        refine ih ⟨sound.of_same rfl rfl rfl rfl rfl, fun nothing _ => ?_⟩
          (fun read listed => smooth read (List.mem_cons_of_mem _ listed))
        rcases ends text stop ⟨rfl, rfl⟩ with ended | ⟨-, waits⟩
        · exact start ended
        · exact absurd (same.symm.trans nothing) waits

theorem cut_sound (sound : Sound reader) (smooth : ¬ reader.HidesMidLine reader.pending)
    : Settled reader.cut := by
  have before : Sound { reader with pending := [], scanned := 0 } := sound.of_same rfl rfl rfl rfl rfl
  obtain ⟨after, -⟩ := line_sound before smooth []
  exact ⟨after.of_same rfl rfl rfl rfl rfl, nofun⟩

theorem feed_sound (settled : Settled reader) {bytes : List UInt8}
    (smooth : ∀ read ∈ reader.reads (.feed bytes), ¬ read.1.HidesMidLine read.2)
    : Settled (reader.feed bytes) := by
  have before : Settled { reader with pending := reader.pending ++ bytes } :=
    ⟨settled.toSound.of_same rfl rfl rfl rfl rfl, fun nothing =>
      settled.waits (List.append_eq_nil_iff.mp nothing).1⟩
  have lines := readLines_sound before (fun read listed =>
    smooth read (List.mem_append_left _ listed))
  rw [Reader.feed]
  split_ifs with long
  · refine cut_sound lines.toSound (smooth (_, _) (List.mem_append_right _ ?_))
    rw [if_pos long]
    exact List.mem_singleton_self _
  · exact lines

theorem endLine_sound (settled : Settled reader) (word : Ask)
    (smooth : ∀ read ∈ reader.reads (.ask word), ¬ read.1.HidesMidLine read.2)
    : Settled reader.endLine ∧ AtLineStart reader.endLine.output := by
  have before : Sound { reader with pending := [], scanned := 0 } :=
    settled.toSound.of_same rfl rfl rfl rfl rfl
  rw [Reader.endLine]
  rw [Reader.reads] at smooth
  split_ifs at smooth ⊢ with waits held
  · obtain ⟨after, start⟩ := line_sound before (smooth _ List.mem_cons_self) [carriage, newline]
    exact ⟨⟨after.of_same rfl rfl rfl rfl rfl, fun _ _ => start rfl⟩, start rfl⟩
  · obtain ⟨after, start⟩ := line_sound before (smooth _ List.mem_cons_self) [newline]
    exact ⟨⟨after.of_same rfl rfl rfl rfl rfl, fun _ _ => start rfl⟩, start rfl⟩
  · obtain ⟨nothing, shut⟩ := not_or.mp waits
    exact ⟨settled, settled.waits (not_not.mp nothing) (Bool.not_eq_true _ ▸ shut)⟩

/-- One of the runner's own lines is printed as it is, but for the masked values in its words. -/
theorem ownLine_spec (commands : Commands) (line : List UInt8)
    : ∃ kept words, line = kept ++ words
      ∧ commands.ownLine line = kept ++ hidden commands.masks words := by
  have same : ∃ kept words, line = kept ++ words ∧ line = kept ++ hidden commands.masks words :=
    ⟨line, [], (List.append_nil _).symm, (List.append_nil _).symm⟩
  have from_ (place : Nat) : ∃ kept words, line = kept ++ words
      ∧ line.take place ++ commands.masked (line.drop place) = kept ++ hidden commands.masks words :=
    ⟨_, _, (List.take_append_drop place line).symm, by rw [masked_eq]⟩
  rw [Commands.ownLine]
  dsimp only
  split_ifs
  · split
    · exact same
    · split_ifs
      · exact same
      · split
        · exact same
        · exact from_ _
      · exact from_ _
  · exact ⟨[], line, rfl, by rw [masked_eq, List.nil_append]⟩

theorem ownLine_ends {commands : Commands} (within : Inline commands.masks) (text : List UInt8)
    : ∃ shown, commands.ownLine (text ++ [newline]) = shown ++ [newline] := by
  obtain ⟨kept, words, parts, printed⟩ := ownLine_spec commands (text ++ [newline])
  rw [printed]
  rcases List.eq_nil_or_concat words with rfl | ⟨front, last, rfl⟩
  · exact ⟨text, by rw [parts]; rfl⟩
  · rw [List.concat_eq_append, ← List.append_assoc] at parts
    obtain ⟨-, last_⟩ := List.append_inj' parts rfl
    obtain rfl := List.singleton_inj.mp last_
    obtain ⟨shown, ends⟩ := hidden_newline within front
    exact ⟨kept ++ shown, by rw [List.concat_eq_append, ends, List.append_assoc]⟩

theorem answer_settled (settled : Settled reader) (ready : AtLineStart reader.output) (word : Ask)
    : Settled (reader.answer word) := by
  have same (other : Reader) (commands : other.commands = reader.commands)
      (queue : ∀ line ∈ other.queue, line ∈ reader.queue) (output : other.output = reader.output)
      : Settled other := by
    have ready : AtLineStart other.output := output ▸ ready
    refine ⟨⟨commands ▸ settled.masks, fun line listed => settled.queue line (queue line listed),
      fun _ => ready, fun _ => ready, output ▸ settled.placed⟩, fun _ _ => ready⟩
  cases word with
  | end_ =>
      rw [Reader.answer]
      split_ifs
      · exact same _ rfl (fun _ => id) rfl
      · exact settled
  | close => exact same _ rfl (fun _ => id) rfl
  | line =>
      rw [Reader.answer]
      split
      · exact settled
      · rename_i line rest queued
        split_ifs
        · exact same _ rfl (fun line listed => queued ▸ List.mem_cons_of_mem _ listed) rfl
        · obtain ⟨text, rfl⟩ := settled.queue line (queued ▸ List.mem_cons_self)
          obtain ⟨shown, ends⟩ := ownLine_ends settled.masks text
          have after : AtLineStart
              (reader.output ++ [.own (reader.commands.ownLine (text ++ [newline]))]) :=
            atLineStart_append reader.output ends
          exact ⟨⟨settled.masks, fun line listed =>
              settled.queue line (queued ▸ List.mem_cons_of_mem _ listed),
            fun _ => after, fun _ => after, placed_append_own ready ends settled.placed⟩, fun _ _ => after⟩

theorem step_settled (settled : Settled reader) (event : Event)
    (smooth : ∀ read ∈ reader.reads event, ¬ read.1.HidesMidLine read.2)
    : Settled (reader.step event) := by
  cases event with
  | queue line =>
      refine ⟨⟨settled.masks, fun own listed => ?_, settled.over_, settled.hidden, settled.placed⟩,
        settled.waits⟩
      rcases List.mem_append.mp listed with queued | added
      · exact settled.queue own queued
      · exact ⟨line, List.mem_singleton.mp added⟩
  | feed bytes => exact feed_sound settled smooth
  | finish =>
      rw [Reader.step, Reader.finish]
      rw [Reader.reads] at smooth
      split_ifs at smooth ⊢
      · exact cut_sound settled.toSound (smooth _ List.mem_cons_self)
      · exact settled
  | ask word =>
      obtain ⟨after, ready⟩ := endLine_sound settled word smooth
      exact answer_settled after ready word

theorem run_concat (reader : Reader) (events : List Event) (event : Event)
    : reader.run (events ++ [event]) = (reader.run events).step event :=
  List.foldl_concat ..

theorem run_settled (settled : Settled reader) (events : List Event) (smooth : reader.Smooth events)
    : Settled (reader.run events) := by
  induction events using List.reverseRecOn with
  | nil => exact settled
  | append_singleton events event ih =>
      rw [run_concat]
      refine step_settled (ih fun before one after parts => ?_) event (smooth events event [] rfl)
      exact smooth before one (after ++ [event]) (by rw [parts, List.append_assoc, List.cons_append])

end Lines

-- Order

def queued (events : List Event) : List (List UInt8) :=
  events.filterMap fun
    | .queue line => some (line ++ [newline])
    | _ => none

section Order

variable {reader : Reader}

theorem ownLines_append_step (output : List Printed) (written : List (List UInt8))
    : ownLines (output ++ written.map .step) = ownLines output := by
  rw [ownLines, List.filterMap_append, List.filterMap_map]
  simp [ownLines]

theorem Reads.ownLines_eq {after : Reader} (reads : Reads reader after)
    : ownLines after.output = ownLines reader.output := by
  obtain ⟨written, printed⟩ := reads.printed
  rw [printed, ownLines_append_step]

/-- What the runner's lines that are printed are: those it queued first, in their order, each under
the commands as they are when it asks.
-/
theorem run_order {start : Reader} (fresh : start.queue = []) (silent : start.output = [])
    (events : List Event)
    : ∃ (printed : List (Commands × List UInt8)) (taken : List (List UInt8)),
      queued events = taken ++ (start.run events).queue
        ∧ printed.map Prod.snd <+: taken
        ∧ ((start.run events).stage ≠ .closed → printed.map Prod.snd = taken)
        ∧ ownLines (start.run events).output = printed.map (fun one => one.1.ownLine one.2)
        ∧ ∀ one ∈ printed, ∃ before after, events = before ++ .ask .line :: after
          ∧ one.1 = (start.run (before ++ [.ask .line])).commands := by
  induction events using List.reverseRecOn with
  | nil => exact ⟨[], [], by rw [Reader.run, List.foldl_nil, fresh]; rfl, List.prefix_rfl, fun _ => rfl,
      by rw [Reader.run, List.foldl_nil, silent]; rfl, nofun⟩
  | append_singleton events event ih =>
      obtain ⟨printed, taken, order, first, all, own, asked⟩ := ih
      have asked' : ∀ one ∈ printed, ∃ before after,
          events ++ [event] = before ++ .ask .line :: after
            ∧ one.1 = (start.run (before ++ [.ask .line])).commands := by
        intro one listed
        obtain ⟨before, after, parts, commands⟩ := asked one listed
        exact ⟨before, after ++ [event], by rw [parts, List.append_assoc, List.cons_append], commands⟩
      have reads {after : Reader} (reads : Reads (start.run events) after) (unqueued : queued [event] = [])
          : queued (events ++ [event]) = taken ++ after.queue
            ∧ (after.stage ≠ .closed → printed.map Prod.snd = taken)
            ∧ ownLines after.output = printed.map (fun one => one.1.ownLine one.2) := by
        refine ⟨?_, reads.stage ▸ all, reads.ownLines_eq.trans own⟩
        rw [queued, List.filterMap_append, ← queued, ← queued, unqueued, List.append_nil, reads.queue,
          order]
      rw [run_concat]
      cases event with
      | queue line =>
          refine ⟨printed, taken, ?_, first, all, own, asked'⟩
          rw [queued, List.filterMap_append, ← queued, order, List.append_assoc]
          rfl
      | feed bytes =>
          obtain ⟨order, all, own⟩ := reads (feed_reads _ bytes) rfl
          exact ⟨printed, taken, order, first, all, own, asked'⟩
      | finish =>
          obtain ⟨order, all, own⟩ := reads (finish_reads _) rfl
          exact ⟨printed, taken, order, first, all, own, asked'⟩
      | ask word =>
          obtain ⟨order, all, own⟩ := reads (endLine_reads _) rfl
          rw [Reader.step, Reader.ask]
          cases word with
          | end_ =>
              rw [Reader.answer]
              split_ifs with running
              · exact ⟨printed, taken, order, first, fun _ => all (by rw [running]; nofun), own, asked'⟩
              · exact ⟨printed, taken, order, first, all, own, asked'⟩
          | close => exact ⟨printed, taken, order, first, fun other => absurd rfl other, own, asked'⟩
          | line =>
              have commands := congrArg (fun after : Reader => after.commands)
                (run_concat start events (.ask .line))
              rw [Reader.step, Reader.ask] at commands
              rw [Reader.answer] at commands ⊢
              rcases waiting : (start.run events).endLine.queue with _ | ⟨line, rest⟩
              · exact ⟨printed, taken, order, first, all, own, asked'⟩
              · rw [waiting] at order commands
                dsimp only at commands ⊢
                split_ifs at commands ⊢ with closed
                · exact ⟨printed, taken ++ [line], by rw [order, List.append_assoc]; rfl,
                    first.trans (List.prefix_append _ _), fun other => absurd closed other, own, asked'⟩
                · refine ⟨printed ++ [((start.run events).endLine.commands, line)], taken ++ [line], ?_,
                    ?_, fun _ => ?_, ?_, ?_⟩
                  · rw [order, List.append_assoc]
                    rfl
                  · rw [List.map_append, all closed]
                    exact List.prefix_rfl
                  · rw [List.map_append, all closed]
                    rfl
                  · rw [ownLines, List.filterMap_append, ← ownLines, own, List.map_append]
                    rfl
                  · intro one listed
                    rcases List.mem_append.mp listed with before | added
                    · exact asked' one before
                    · exact ⟨events, [], rfl, by rw [List.mem_singleton.mp added, commands]⟩

theorem step_over (over_ : reader.stage ≠ .steps) (event : Event)
    : (reader.step event).stage ≠ .steps
      ∧ stepsPrinted (reader.step event).output = stepsPrinted reader.output := by
  have quiet {after : Reader} (reads : Reads reader after)
      : after.stage ≠ .steps ∧ stepsPrinted after.output = stepsPrinted reader.output :=
    ⟨reads.stage ▸ over_, by rw [reads.quiet over_]⟩
  cases event with
  | queue line => exact ⟨over_, rfl⟩
  | feed bytes => exact quiet (feed_reads reader bytes)
  | finish => exact quiet (finish_reads reader)
  | ask word =>
      obtain ⟨still, same⟩ := quiet (endLine_reads reader)
      rw [Reader.step, Reader.ask, ← same]
      cases word with
      | end_ =>
          rw [Reader.answer, if_neg still]
          exact ⟨still, rfl⟩
      | close => exact ⟨nofun, rfl⟩
      | line =>
          rw [Reader.answer]
          split
          · exact ⟨still, rfl⟩
          · split_ifs
            · exact ⟨still, rfl⟩
            · refine ⟨still, ?_⟩
              rw [stepsPrinted, List.filterMap_append]
              exact List.append_nil _

theorem step_closed (closed : reader.stage = .closed) (event : Event)
    : (reader.step event).stage = .closed ∧ (reader.step event).output = reader.output := by
  have quiet {after : Reader} (reads : Reads reader after)
      : after.stage = .closed ∧ after.output = reader.output :=
    ⟨reads.stage.trans closed, reads.quiet (by rw [closed]; nofun)⟩
  cases event with
  | queue line => exact ⟨closed, rfl⟩
  | feed bytes => exact quiet (feed_reads reader bytes)
  | finish => exact quiet (finish_reads reader)
  | ask word =>
      obtain ⟨still, same⟩ := quiet (endLine_reads reader)
      rw [Reader.step, Reader.ask, ← same]
      cases word with
      | end_ =>
          rw [Reader.answer, if_neg (by rw [still]; nofun)]
          exact ⟨still, rfl⟩
      | close => exact ⟨rfl, rfl⟩
      | line =>
          rw [Reader.answer]
          split
          · exact ⟨still, rfl⟩
          · rw [if_pos still]
            exact ⟨still, rfl⟩

theorem run_over (over_ : reader.stage ≠ .steps) (events : List Event)
    : stepsPrinted (reader.run events).output = stepsPrinted reader.output := by
  induction events generalizing reader with
  | nil => rfl
  | cons event rest ih =>
      obtain ⟨still, same⟩ := step_over over_ event
      exact (ih still).trans same

theorem run_closed (closed : reader.stage = .closed) (events : List Event)
    : (reader.run events).output = reader.output := by
  induction events generalizing reader with
  | nil => rfl
  | cons event rest ih =>
      obtain ⟨still, same⟩ := step_closed closed event
      exact (ih still).trans same

end Order

end Dagron.Ci
