import Dagron.Ci.Relay

/-! The relay's reading does not depend on the chunks that the steps' bytes come in, where no line
is as long as the longest that is read whole.
-/

namespace Dagron.Ci

open Dagron.Library Dagron.Spec

-- Whole lines

def ends (byte : UInt8) : Bool :=
  byte == newline || byte == carriage

/-- What ends at a carriage return: nothing yet, where it is last. -/
def carriageLine : List UInt8 → Option (List UInt8 × List UInt8 × List UInt8)
  | [] => none
  | next :: later =>
      if next = newline then some ([], [carriage, newline], later)
      else some ([], [carriage], next :: later)

/-- The first whole line of bytes, how it ended, and what follows it. -/
@[simp] def firstLine : List UInt8 → Option (List UInt8 × List UInt8 × List UInt8)
  | [] => none
  | byte :: rest =>
      if byte = newline then some ([], [newline], rest)
      else if byte = carriage then carriageLine rest
      else (firstLine rest).map fun (text, stop, left) => (byte :: text, stop, left)

/-- Bytes without a whole line: no end of one, but for a carriage return that is last. -/
def Held (text : List UInt8) : Prop :=
  newline ∉ text ∧ carriage ∉ text.dropLast

/-- How many bytes of those that wait hold no end of a line. -/
def scannedOf (pending : List UInt8) : Nat :=
  if pending.getLast? = some carriage then pending.length - 1 else pending.length

section Whole

variable {bytes text stop rest : List UInt8}

theorem firstLine_eq_none
    : firstLine bytes = none ↔ Held bytes := by
  induction bytes with
  | nil => simp [firstLine, Held]
  | cons byte rest ih =>
      rw [firstLine]
      split_ifs with one two
      · simp [Held, one]
      · subst two
        rcases rest with _ | ⟨next, later⟩
        · simp [carriageLine, Held, newline, carriage]
        · rw [carriageLine]
          split_ifs <;> simp [Held]
      · rw [Option.map_eq_none_iff, ih, Held, Held]
        rcases rest with _ | ⟨next, later⟩
        · simp [Ne.symm one]
        · simp [Ne.symm one, Ne.symm two]

theorem firstLine_parts (first : firstLine bytes = some (text, stop, rest))
    : bytes = text ++ stop ++ rest ∧ stop ≠ [] := by
  induction bytes generalizing text with
  | nil => nomatch first
  | cons byte tail ih =>
      rw [firstLine] at first
      split_ifs at first with one two
      · obtain ⟨rfl, rfl, rfl⟩ := by simpa using first
        exact ⟨by rw [one]; rfl, nofun⟩
      · subst two
        rcases tail with _ | ⟨next, later⟩
        · nomatch first
        · rw [carriageLine] at first
          split_ifs at first with three
          · obtain ⟨rfl, rfl, rfl⟩ := by simpa using first
            exact ⟨by rw [three]; rfl, nofun⟩
          · obtain ⟨rfl, rfl, rfl⟩ := by simpa using first
            exact ⟨rfl, nofun⟩
      · obtain ⟨⟨front, stop', rest'⟩, found, same⟩ := Option.map_eq_some_iff.mp first
        obtain ⟨rfl, rfl, rfl⟩ := by simpa using same
        obtain ⟨parts, holds⟩ := ih found
        exact ⟨by rw [parts]; rfl, holds⟩

theorem firstLine_append (first : firstLine bytes = some (text, stop, rest)) (more : List UInt8)
    : firstLine (bytes ++ more) = some (text, stop, rest ++ more) := by
  induction bytes generalizing text with
  | nil => nomatch first
  | cons byte tail ih =>
      rw [List.cons_append]
      rw [firstLine] at first ⊢
      split_ifs at first ⊢ with one two
      · obtain ⟨rfl, rfl, rfl⟩ := by simpa using first
        rfl
      · rcases tail with _ | ⟨next, later⟩
        · nomatch first
        · rw [List.cons_append]
          rw [carriageLine] at first ⊢
          split_ifs at first ⊢ with three
          · obtain ⟨rfl, rfl, rfl⟩ := by simpa using first
            rfl
          · obtain ⟨rfl, rfl, rfl⟩ := by simpa using first
            rfl
      · obtain ⟨⟨front, stop', rest'⟩, found, same⟩ := Option.map_eq_some_iff.mp first
        obtain ⟨rfl, rfl, rfl⟩ := by simpa using same
        rw [ih found]
        rfl

theorem firstLine_plain {front : List UInt8} (plain : ∀ byte ∈ front, ends byte = false)
    (bytes : List UInt8)
    : firstLine (front ++ bytes)
      = (firstLine bytes).map fun (text, stop, left) => (front ++ text, stop, left) := by
  induction front with
  | nil => simp
  | cons byte rest ih =>
      have own : byte ≠ newline ∧ byte ≠ carriage := by
        simpa [ends] using plain byte List.mem_cons_self
      rw [List.cons_append, firstLine, if_neg own.1, if_neg own.2,
        ih fun byte listed => plain byte (List.mem_cons_of_mem _ listed), Option.map_map]
      rfl

end Whole

theorem scannedOf_plain {bytes : List UInt8} (plain : ∀ byte ∈ bytes, ends byte = false)
    : scannedOf bytes = bytes.length := by
  rw [scannedOf, if_neg]
  intro last
  simpa [ends] using plain carriage (List.mem_of_getLast? last)

/-- Where what was looked through holds no end of a line, the next line is the first whole one. -/
theorem takeLine_eq {reader : Reader}
    (plain : ∀ byte ∈ reader.pending.take reader.scanned, ends byte = false)
    : reader.takeLine = match firstLine reader.pending with
      | none => (none, { reader with scanned := scannedOf reader.pending })
      | some (text, stop, rest) =>
          (some (text, stop), { reader with pending := rest, scanned := 0 }) := by
  rw [Reader.takeLine]
  cases found : (reader.pending.drop reader.scanned).findIdx?
      (fun byte => byte == newline || byte == carriage) with
  | none =>
      have whole : ∀ byte ∈ reader.pending, ends byte = false := by
        intro byte listed
        rw [← List.take_append_drop reader.scanned reader.pending] at listed
        exact (List.mem_append.mp listed).elim (plain byte) (List.findIdx?_eq_none_iff.mp found byte)
      have nothing := firstLine_plain whole []
      rw [List.append_nil] at nothing
      rw [nothing, scannedOf_plain whole]
      rfl
  | some offset =>
      obtain ⟨inside, -, before⟩ := List.findIdx?_eq_some_iff_getElem.mp found
      have front : ∀ byte ∈ reader.pending.take (offset + reader.scanned), ends byte = false := by
        intro byte listed
        rw [Nat.add_comm, List.take_add] at listed
        refine (List.mem_append.mp listed).elim (plain byte) fun later => ?_
        obtain ⟨place, early, rfl⟩ := List.mem_take_iff_getElem.mp later
        exact Bool.eq_false_of_not_eq_true (before place (lt_of_lt_of_le early (min_le_left _ _)))
      have whole := firstLine_plain front (reader.pending.drop (offset + reader.scanned))
      rw [List.take_append_drop] at whole
      have tail : reader.pending.drop (offset + reader.scanned)
          = (reader.pending.drop reader.scanned).drop offset := by
        rw [List.drop_drop, Nat.add_comm]
      have first := takeLine_first reader found
      have onward (length : Nat) (rest : List UInt8)
          (parts : (reader.pending.drop (offset + reader.scanned)).drop length = rest)
          : reader.pending.drop (offset + reader.scanned + length) = rest := by
        rw [← parts, List.drop_drop]
      rw [whole]
      rcases parts : reader.pending.drop (offset + reader.scanned) with _ | ⟨byte, _ | ⟨next, rest⟩⟩
      · rw [tail, List.drop_eq_getElem_cons inside] at parts
        cases parts
      · have size := congrArg List.length parts
        rw [List.length_drop, List.length_singleton] at size
        rcases first byte [] parts with rfl | rfl
        · simp [parts, firstLine, newline, carriage, onward 1 [] (by rw [parts]; rfl)]
        · have last : reader.pending.getLast? = some carriage := by
            rw [← List.take_append_drop (offset + reader.scanned) reader.pending, parts,
              List.getLast?_concat]
          have place : scannedOf reader.pending = offset + reader.scanned := by
            rw [scannedOf, if_pos last]
            omega
          simp [parts, firstLine, carriageLine, newline, carriage, place]
      · have one := onward 1 (next :: rest) (by rw [parts]; rfl)
        have two := onward 2 rest (by rw [parts]; rfl)
        rcases first byte (next :: rest) parts with rfl | rfl
        · simp [parts, firstLine, newline, carriage, one]
        · by_cases line : next = newline
          · subst line
            simp [parts, firstLine, carriageLine, newline, carriage, two]
          · have other : ¬ next = 10 := line
            simp [parts, firstLine, carriageLine, newline, carriage, one, other]

-- Reading what waits

/-- A reader that has read each whole line of what waits. -/
inductive Drains : Reader → Reader → Prop
  | held {reader : Reader} (nothing : firstLine reader.pending = none)
    : Drains reader { reader with scanned := scannedOf reader.pending }
  | line {reader after : Reader} {text stop rest : List UInt8}
    (first : firstLine reader.pending = some (text, stop, rest))
    (later : Drains { { reader with pending := rest, scanned := 0 }.line text stop with
      isOpen := false } after)
    : Drains reader after

/-- A reader with no whole line among what waits, all of it looked through. -/
structure Waiting (reader : Reader) : Prop where
  held
    : firstLine reader.pending = none
  scanned
    : reader.scanned = scannedOf reader.pending

section Drains

variable {reader after : Reader}

theorem line_with (pending text stop : List UInt8)
    : Reader.line { reader with pending := pending } text stop
      = { reader.line text stop with pending := pending } := by
  rw [Reader.line, Reader.line]
  split_ifs <;> rfl

theorem line_requeue (queue : List (List UInt8)) (text stop : List UInt8)
    : Reader.line { reader with queue := queue } text stop
      = { reader.line text stop with queue := queue } := by
  rw [Reader.line, Reader.line]
  split_ifs <;> rfl

theorem readLines_drains {fuel : Nat}
    (plain : ∀ byte ∈ reader.pending.take reader.scanned, ends byte = false)
    (enough : reader.pending.length < fuel)
    : Drains reader (reader.readLines fuel) := by
  induction fuel generalizing reader with
  | zero => omega
  | succ fuel ih =>
      rw [Reader.readLines, takeLine_eq plain]
      cases first : firstLine reader.pending with
      | none => exact .held first
      | some taken =>
          obtain ⟨text, stop, rest⟩ := taken
          obtain ⟨parts, holds⟩ := firstLine_parts first
          obtain ⟨pending, scanned, -⟩ := line_kept { reader with pending := rest, scanned := 0 } text stop
          refine .line first (ih ?_ ?_)
          · intro byte listed
            rw [scanned] at listed
            cases listed
          · have size := congrArg List.length parts
            have some := List.length_pos_iff.mpr holds
            simp only [List.length_append] at size
            rw [pending]
            dsimp only
            omega

theorem Drains.rescan (drains : Drains reader after) (scanned : Nat)
    : Drains { reader with scanned := scanned } after := by
  cases drains with
  | held nothing => exact @Drains.held { reader with scanned := scanned } nothing
  | line first later => exact @Drains.line { reader with scanned := scanned } _ _ _ _ first later

theorem Drains.eq {other : Reader} (drains : Drains reader after) (drains' : Drains reader other)
    : after = other := by
  induction drains with
  | held nothing =>
      cases drains' with
      | held _ => rfl
      | line first later => nomatch nothing.symm.trans first
  | line first later ih =>
      cases drains' with
      | held nothing => nomatch nothing.symm.trans first
      | line first' later' =>
          obtain ⟨rfl, rfl, rfl⟩ := by simpa using first.symm.trans first'
          exact ih later'

theorem Drains.waiting (drains : Drains reader after)
    : Waiting after := by
  induction drains with
  | held nothing => exact ⟨nothing, rfl⟩
  | line first later ih => exact ih

theorem Waiting.drains (waiting : Waiting reader)
    : Drains reader reader := by
  have held := Drains.held waiting.held
  rw [← waiting.scanned] at held
  exact held

theorem Drains.suffix (drains : Drains reader after)
    : after.pending <:+ reader.pending := by
  induction drains with
  | held nothing => exact List.suffix_rfl
  | @line reader after text stop rest first later ih =>
      rw [(firstLine_parts first).1]
      rw [(line_kept _ _ _).1] at ih
      exact ih.trans (List.suffix_append _ _)

/-- What comes later is read alike whether it is there when the first lines are read or not: by
induction on these lines, each of which is the same with more after it.
-/
theorem Drains.append {last : Reader} (drains : Drains reader after) (more : List UInt8)
    (later : Drains { after with pending := after.pending ++ more } last)
    : Drains { reader with pending := reader.pending ++ more } last := by
  induction drains with
  | @held reader nothing => exact later.rescan reader.scanned
  | @line reader after text stop rest first _ ih =>
      have onward := ih later
      rw [(line_kept _ _ _).1] at onward
      refine .line (firstLine_append first more) ?_
      have same := @line_with { reader with pending := rest, scanned := 0 } (rest ++ more) text stop
      dsimp only at same onward ⊢
      rw [same]
      exact onward

theorem Waiting.plain (waiting : Waiting reader) (more : List UInt8)
    : ∀ byte ∈ (reader.pending ++ more).take reader.scanned, ends byte = false := by
  obtain ⟨lines, returns⟩ := firstLine_eq_none.mp waiting.held
  rw [waiting.scanned, scannedOf]
  split_ifs with last
  · intro byte listed
    rw [List.take_append_of_le_length (Nat.sub_le _ 1), ← List.dropLast_eq_take] at listed
    have one : byte ≠ newline := fun same => lines (List.dropLast_subset _ (same ▸ listed))
    have two : byte ≠ carriage := fun same => returns (same ▸ listed)
    simp [ends, one, two]
  · intro byte listed
    rw [List.take_left'  rfl] at listed
    have one : byte ≠ newline := fun same => lines (same ▸ listed)
    have two : byte ≠ carriage := by
      rintro rfl
      obtain ⟨front, final, parts⟩ := List.eq_nil_or_concat' reader.pending |>.resolve_left
        (List.ne_nil_of_mem listed)
      rw [parts, List.dropLast_concat] at returns
      rw [parts, List.getLast?_concat] at last
      rw [parts] at listed
      rcases List.mem_append.mp listed with inside | final'
      · exact returns inside
      · exact last (congrArg some (List.mem_singleton.mp final').symm)
    simp [ends, one, two]

theorem feed_spec (waiting : Waiting reader) (bytes : List UInt8)
    : ∃ after, Drains { reader with pending := reader.pending ++ bytes } after
      ∧ reader.feed bytes = if lineMax ≤ after.pending.length then after.cut else after :=
  ⟨_, @readLines_drains { reader with pending := reader.pending ++ bytes } _ (waiting.plain bytes)
    (Nat.lt_succ_self _), rfl⟩

theorem feed_append (waiting : Waiting reader) (first : List UInt8)
    (drains : Drains { reader with pending := reader.pending ++ first } after)
    (short : after.pending.length < lineMax) (second : List UInt8)
    : reader.feed first = after ∧ reader.feed (first ++ second) = after.feed second := by
  obtain ⟨one, drains', fed⟩ := feed_spec waiting first
  obtain rfl := drains.eq drains'
  obtain ⟨two, later, fed'⟩ := feed_spec drains.waiting second
  obtain ⟨whole, together, fed''⟩ := feed_spec waiting (first ++ second)
  have same : Drains { reader with pending := reader.pending ++ (first ++ second) } two := by
    rw [← List.append_assoc]
    exact drains.append second later
  obtain rfl := together.eq same
  exact ⟨by rw [fed, if_neg (not_le.mpr short)], fed''.trans fed'.symm⟩

theorem cut_waiting
    : Waiting reader.cut := by
  obtain ⟨pending, scanned, -⟩ := line_kept { reader with pending := [], scanned := 0 } reader.pending []
  constructor
  · exact (congrArg firstLine pending).trans rfl
  · exact scanned.trans (congrArg scannedOf pending).symm

theorem finish_pending
    : reader.finish.pending = [] := by
  rw [Reader.finish]
  split_ifs with waits
  · exact (line_kept _ _ _).1
  · exact not_not.mp waits

theorem endLine_pending
    : reader.endLine.pending = [] := by
  rw [Reader.endLine]
  split_ifs with waits
  · exact (line_kept _ _ _).1
  · exact (line_kept _ _ _).1
  · exact not_not.mp (not_or.mp waits).1

theorem finish_waiting (waiting : Waiting reader)
    : Waiting reader.finish := by
  rw [Reader.finish]
  split_ifs
  · exact cut_waiting
  · exact waiting

theorem endLine_waiting (waiting : Waiting reader)
    : Waiting reader.endLine := by
  have ended (text stop : List UInt8)
      : Waiting { Reader.line { reader with pending := [], scanned := 0 } text stop with
        isOpen := false } := by
    obtain ⟨pending, scanned, -⟩ := line_kept { reader with pending := [], scanned := 0 } text stop
    exact ⟨(congrArg firstLine pending).trans rfl, scanned.trans (congrArg scannedOf pending).symm⟩
  rw [Reader.endLine]
  split_ifs
  · exact ended _ _
  · exact ended _ _
  · exact waiting

theorem answer_kept (word : Ask)
    : (reader.answer word).pending = reader.pending
      ∧ (reader.answer word).scanned = reader.scanned := by
  cases word with
  | end_ =>
      rw [Reader.answer]
      split_ifs <;> exact ⟨rfl, rfl⟩
  | close => exact ⟨rfl, rfl⟩
  | line =>
      rw [Reader.answer]
      split
      · exact ⟨rfl, rfl⟩
      · split_ifs <;> exact ⟨rfl, rfl⟩

theorem Drains.requeue (drains : Drains reader after) (queue : List (List UInt8))
    : Drains { reader with queue := queue } { after with queue := queue } := by
  induction drains with
  | @held reader nothing => exact @Drains.held { reader with queue := queue } nothing
  | @line reader after text stop rest first _ ih =>
      refine @Drains.line { reader with queue := queue } _ text stop rest first ?_
      have same := @line_requeue { reader with pending := rest, scanned := 0 } queue text stop
      dsimp only at same ih ⊢
      rw [same]
      exact ih

theorem cut_requeue (queue : List (List UInt8))
    : Reader.cut { reader with queue := queue } = { reader.cut with queue := queue } := by
  have same := @line_requeue { reader with pending := [], scanned := 0 } queue reader.pending []
  dsimp only at same
  rw [Reader.cut, Reader.cut, same]

theorem feed_requeue (waiting : Waiting reader) (bytes : List UInt8) (queue : List (List UInt8))
    : Reader.feed { reader with queue := queue } bytes
      = { reader.feed bytes with queue := queue } := by
  obtain ⟨after, drains, fed⟩ := feed_spec waiting bytes
  obtain ⟨other, drains', fed'⟩ :=
    @feed_spec { reader with queue := queue } ⟨waiting.held, waiting.scanned⟩ bytes
  obtain rfl := drains'.eq (drains.requeue queue)
  rw [fed, fed']
  split_ifs
  · exact cut_requeue queue
  · rfl

end Drains

-- The stream of a run

def Event.byte (byte : UInt8) : Event :=
  .feed [byte]

/-- The stream of a run after one more event: the steps' bytes one by one, their end, and the asks
among them, each after the lines queued for it; and the lines that are queued since.
-/
def streamStep : List Event × List (List UInt8) → Event → List Event × List (List UInt8)
  | (stream, lines), .queue line => (stream, lines ++ [line])
  | (stream, lines), .feed bytes => (stream ++ bytes.map Event.byte, lines)
  | (stream, lines), .finish => (stream ++ [.finish], lines)
  | (stream, lines), .ask word => (stream ++ lines.map Event.queue ++ [.ask word], [])

/-- The stream of a run, in which nothing is left of the chunks that the bytes came in. -/
def stream (events : List Event) : List Event × List (List UInt8) :=
  events.foldl streamStep ([], [])

/-- A run in which each line of the steps', with the carriage return it may end in, is shorter than
the longest that is read whole.
-/
def Short (events : List Event) : Prop :=
  ∀ text : List UInt8, newline ∉ text → carriage ∉ text.dropLast → text.map Event.byte <:+: (stream events).1 →
    text.length < lineMax

section Stream

variable {reader after : Reader}

theorem stream_concat (events : List Event) (event : Event)
    : stream (events ++ [event]) = streamStep (stream events) event :=
  List.foldl_concat ..

theorem Short.before {events : List Event} {event : Event} (short : Short (events ++ [event]))
    : Short events := by
  have grows : (stream events).1 <+: (stream (events ++ [event])).1 := by
    rw [stream_concat]
    cases event with
    | queue line => exact List.prefix_rfl
    | feed bytes | finish => exact List.prefix_append _ _
    | ask word => exact (List.prefix_append _ _).trans (List.prefix_append _ _)
  exact fun text lines returns within => short text lines returns (within.trans grows.isInfix)

theorem run_append (reader : Reader) (first second : List Event)
    : reader.run (first ++ second) = (reader.run first).run second :=
  List.foldl_append ..

theorem run_queue (reader : Reader) (lines : List (List UInt8))
    : reader.run (lines.map Event.queue)
      = { reader with queue := reader.queue ++ lines.map (· ++ [newline]) } := by
  induction lines generalizing reader with
  | nil => exact congrArg (fun queue => { reader with queue := queue }) (List.append_nil _).symm
  | cons line rest ih =>
      rw [List.map_cons, Reader.run, List.foldl_cons, ← Reader.run, ih, Reader.step]
      simp

/-- Bytes fed are read as they are one by one, where no line among them is cut: by induction on the
bytes from the last, each of which is read with what waits after those before it.
-/
theorem feed_bytes (waiting : Waiting reader) (before : List Event) (bytes : List UInt8)
    (here : reader.pending.map Event.byte <:+ before)
    (short : ∀ text : List UInt8, newline ∉ text → carriage ∉ text.dropLast →
      text.map Event.byte <:+: before ++ bytes.map Event.byte → text.length < lineMax)
    : Waiting (reader.feed bytes) ∧ reader.run (bytes.map Event.byte) = reader.feed bytes
      ∧ (reader.feed bytes).pending.map Event.byte <:+ before ++ bytes.map Event.byte := by
  have read : ∃ after, Drains { reader with pending := reader.pending ++ bytes } after
      ∧ after.pending.length < lineMax ∧ reader.run (bytes.map Event.byte) = after
      ∧ after.pending.map Event.byte <:+ before ++ bytes.map Event.byte := by
    induction bytes using List.reverseRecOn with
    | nil =>
        simp only [List.map_nil, List.append_nil] at short ⊢
        obtain ⟨lines, returns⟩ := firstLine_eq_none.mp waiting.held
        exact ⟨reader, waiting.drains, short _ lines returns here.isInfix, rfl, here⟩
    | append_singleton bytes byte ih =>
        simp only [List.map_append, ← List.append_assoc] at short ⊢
        obtain ⟨after, drains, -, ran, waits⟩ := ih fun text lines returns within =>
          short text lines returns (within.trans (List.prefix_append _ _).isInfix)
        obtain ⟨next, later, fed⟩ := feed_spec drains.waiting [byte]
        have held : next.pending.map Event.byte <:+ before ++ bytes.map Event.byte ++ [byte].map Event.byte := by
          obtain ⟨front, same⟩ := waits
          refine (later.suffix.map Event.byte).trans ⟨front, ?_⟩
          rw [← same, List.map_append, List.append_assoc]
        obtain ⟨lines, returns⟩ := firstLine_eq_none.mp later.waiting.held
        have few := short _ lines returns held.isInfix
        refine ⟨next, drains.append [byte] later, few, ?_, held⟩
        rw [run_append, ran]
        exact fed.trans (if_neg (not_le.mpr few))
  obtain ⟨after, drains, few, ran, waits⟩ := read
  obtain ⟨fed, -⟩ := feed_append waiting bytes drains few []
  rw [fed]
  exact ⟨drains.waiting, ran, waits⟩

/-- A run without a line too long is that of its stream, with the lines queued since: by induction
on the events from the last.
-/
theorem run_stream {start : Reader} (empty : start.pending = []) (fresh : start.scanned = 0)
    {events : List Event} (short : Short events)
    : start.run events = { start.run (stream events).1 with
        queue := (start.run (stream events).1).queue ++ (stream events).2.map (· ++ [newline]) }
      ∧ Waiting (start.run (stream events).1)
      ∧ (start.run (stream events).1).pending.map Event.byte <:+ (stream events).1 := by
  induction events using List.reverseRecOn with
  | nil =>
      refine ⟨?_, ⟨?_, ?_⟩, ?_⟩
      · exact congrArg (fun queue => { start with queue := queue }) (List.append_nil _).symm
      · exact (congrArg firstLine empty).trans rfl
      · exact fresh.trans (congrArg scannedOf empty).symm
      · rw [stream, List.foldl_nil, Reader.run, List.foldl_nil, empty]
        exact List.nil_suffix
  | append_singleton events event ih =>
      obtain ⟨same, waiting, waits⟩ := ih short.before
      rw [Short, stream_concat] at short
      rw [run_concat, same, stream_concat]
      cases event with
      | queue line =>
          refine ⟨?_, waiting, waits⟩
          simp [Reader.step, streamStep]
      | feed bytes =>
          obtain ⟨still, ran, held⟩ := feed_bytes waiting _ bytes waits short
          simp only [streamStep, run_append, ran]
          refine ⟨?_, still, held⟩
          rw [Reader.step, feed_requeue waiting, (feed_reads _ bytes).queue]
      | finish =>
          simp only [streamStep, run_concat]
          refine ⟨?_, finish_waiting waiting, ?_⟩
          · rw [Reader.step, Reader.step, (finish_reads _).queue, Reader.finish, Reader.finish]
            dsimp only
            split_ifs
            · exact cut_requeue _
            · rfl
          · rw [Reader.step, finish_pending]
            exact List.nil_suffix
      | ask word =>
          have queue := run_queue (start.run (stream events).1) (stream events).2
          have done := run_concat start ((stream events).1 ++ (stream events).2.map Event.queue) (.ask word)
          rw [run_append start (stream events).1, queue] at done
          simp only [streamStep, done]
          have ready : Waiting { start.run (stream events).1 with
              queue := (start.run (stream events).1).queue
                ++ (stream events).2.map (· ++ [newline]) } :=
            ⟨waiting.held, waiting.scanned⟩
          have ended := endLine_waiting ready
          obtain ⟨pending, scanned⟩ := @answer_kept (Reader.endLine _) word
          refine ⟨?_, ⟨?_, ?_⟩, ?_⟩
          · exact congrArg (fun queue => { Reader.ask _ word with queue := queue }) (List.append_nil _).symm
          · exact (congrArg firstLine pending).trans ended.held
          · exact scanned.trans (ended.scanned.trans (congrArg scannedOf pending.symm))
          · rw [Reader.step, Reader.ask, pending, endLine_pending]
            exact List.nil_suffix

end Stream

-- What the relay prints

def Reader.new (workspace : Option (List Char)) (credentials : List (List Char)) (debug : Bool)
    : Reader :=
  { commands := { Commands.new workspace credentials with debug := debug } }

theorem new_settled (workspace : Option (List Char)) (credentials : List (List Char)) (debug : Bool)
    : Settled (Reader.new workspace credentials debug) := by
  refine ⟨⟨inline_new workspace credentials debug, nofun, fun _ => .inl rfl, fun _ => .inl rfl,
    fun before own after parts => ?_⟩, fun _ _ => .inl rfl⟩
  exact absurd parts.symm (List.append_ne_nil_of_right_ne_nil _ (List.cons_ne_nil _ _))

/-- The runner's lines are printed in the order they are queued, each as it is but for the masked
values in its words; after the steps are over nothing of them is printed, and after the close
nothing at all. In a run in which no line is hidden while the output stands in the middle of
another, each of the runner's is a line of the output; and in one without a line too long for the
reader to hold, what is printed is that of any other run with the same stream.
-/
theorem relay_keeps_own_lines (workspace : Option (List Char)) (credentials : List (List Char))
    (debug : Bool) (events : List Event)
    : let start := Reader.new workspace credentials debug
      let output := (start.run events).output
      (∃ (printed : List (Commands × List UInt8)) (taken : List (List UInt8)),
          queued events = taken ++ (start.run events).queue ∧ printed.map Prod.snd <+: taken
            ∧ ownLines output = printed.map (fun one => one.1.ownLine one.2)
            ∧ ∀ one ∈ printed,
              (∃ kept words, one.2 = kept ++ words
                ∧ one.1.ownLine one.2 = kept ++ hidden one.1.masks words)
              ∧ ∃ before after, events = before ++ .ask .line :: after
                ∧ one.1 = (start.run (before ++ [.ask .line])).commands)
        ∧ (start.Smooth events → ∀ before own after, output = before ++ .own own :: after →
          AtLineStart before ∧ ∃ text, own = text ++ [newline])
        ∧ (∀ before after, events = before ++ .ask .end_ :: after →
          stepsPrinted output = stepsPrinted (start.run (before ++ [.ask .end_])).output)
        ∧ (∀ before after, events = before ++ .ask .close :: after →
          output = (start.run (before ++ [.ask .close])).output)
        ∧ (Short events → ∀ others, (stream others).1 = (stream events).1 →
          (start.run others).output = output) := by
  intro start output
  refine ⟨?_, fun smooth => (run_settled (new_settled workspace credentials debug) events smooth).placed,
    ?_, ?_, fun short others same => ?_⟩
  · obtain ⟨printed, taken, order, first, -, own, asked⟩ := @run_order start rfl rfl events
    exact ⟨printed, taken, order, first, own, fun one listed =>
      ⟨ownLine_spec one.1 one.2, asked one listed⟩⟩
  · rintro before after rfl
    have over_ : (start.run (before ++ [.ask .end_])).stage ≠ .steps := by
      rw [run_concat, Reader.step, Reader.ask, Reader.answer]
      split_ifs with steps
      · rintro ⟨⟩
      · exact steps
    have parts := run_append start (before ++ [.ask .end_]) after
    rw [List.append_assoc, List.singleton_append] at parts
    rw [← run_over over_ after, ← parts]
  · rintro before after rfl
    have closed : (start.run (before ++ [.ask .close])).stage = .closed := by
      rw [run_concat]
      rfl
    have parts := run_append start (before ++ [.ask .close]) after
    rw [List.append_assoc, List.singleton_append] at parts
    rw [← run_closed closed after, ← parts]
  · have also : Short others := by
      rw [Short, same]
      exact short
    have one := congrArg (fun reader : Reader => reader.output) (@run_stream start rfl rfl events short).1
    have two := congrArg (fun reader : Reader => reader.output) (@run_stream start rfl rfl others also).1
    rw [same] at two
    exact two.trans one.symm

/-- A run of two lines of the steps' and one of the runner's. -/
def twoLines : List Event :=
  [.feed (bytes "a\r\nb"), .queue (bytes "own"), .ask .line]

theorem smooth_cons {start : Reader} {event : Event} {rest : List Event}
    (first : (start.reads event).all fun read => !read.1.commands.hides read.2)
    (later : (start.step event).Smooth rest)
    : start.Smooth (event :: rest) := by
  intro before other after parts read listed hides
  rcases before with _ | ⟨head, before⟩
  · obtain ⟨rfl, -⟩ := List.cons.inj parts
    simpa [hides.2.2.1] using List.all_eq_true.mp first read listed
  · obtain ⟨rfl, tail⟩ := List.cons.inj parts
    exact later before other after tail read listed hides

theorem twoLines_smooth
    : (Reader.new none [] false).Smooth twoLines := by
  have last (start : Reader) : start.Smooth [] := by
    intro before event after parts
    exact absurd parts (List.append_ne_nil_of_right_ne_nil _ (List.cons_ne_nil _ _)).symm
  exact smooth_cons (by decide +kernel)
    (smooth_cons (by decide +kernel) (smooth_cons (by decide +kernel) (last _)))

theorem twoLines_short
    : Short twoLines := by
  intro text _ _ within
  have size := within.length_le
  have whole : (stream twoLines).1.length = 6 := by decide +kernel
  rw [List.length_map, whole] at size
  exact lt_of_le_of_lt size (by decide)

/-- The runner's line is one of the output's own, in whatever chunks the steps' bytes come. -/
theorem relay_keeps_own_lines_of_two
    : (∀ before own after, ((Reader.new none [] false).run twoLines).output
          = before ++ .own own :: after → AtLineStart before ∧ ∃ text, own = text ++ [newline])
      ∧ ((Reader.new none [] false).run [.feed (bytes "a\r"), .feed (bytes "\nb"),
          .queue (bytes "own"), .ask .line]).output
        = ((Reader.new none [] false).run twoLines).output :=
  ⟨(relay_keeps_own_lines none [] false twoLines).2.1 twoLines_smooth,
    (relay_keeps_own_lines none [] false twoLines).2.2.2.2 twoLines_short _ (by decide +kernel)⟩

-- A line hidden in the middle of another

theorem trim_of_letter {char : Char} (seen : isSpace char = false) (text : List Char)
    : ∃ front, trim (char :: text) = char :: front := by
  rw [trim, trimStart, List.dropWhile_cons_of_neg (by simp [seen]), trimEnd, List.reverse_cons,
    List.dropWhile_append]
  split_ifs
  · exact ⟨[], by simp [seen]⟩
  · exact ⟨_, by rw [List.reverse_append]; rfl⟩

theorem obey_of_letter (rest : List UInt8)
    : Commands.obey {} (120 :: rest) = (120 :: rest, none, {}) := by
  have read : fromUtf8Lossy (120 :: rest) = 'x' :: fromUtf8Lossy rest := rfl
  obtain ⟨front, trimmed⟩ := @trim_of_letter 'x' (by decide) (fromUtf8Lossy rest)
  have other (pattern : List Char) : dropStart (':' :: pattern) ('x' :: front) = none := by
    rw [dropStart]
    rfl
  have asked : maskAsked (120 :: rest) = none := by
    rw [maskAsked, read, trimmed]
    exact other _
  have stops : dropStart "::stop-commands::".toList (trim (fromUtf8Lossy (120 :: rest))) = none := by
    rw [read, trimmed]
    exact other _
  have plain : readAnnotation none (trim (fromUtf8Lossy (120 :: rest))) = none := by
    rw [read, trimmed, readAnnotation]
    exact congrArg (Option.bind · _) (other _)
  rw [Commands.obey]
  dsimp only
  rw [asked, stops]
  dsimp only
  rw [ Commands.annotation, plain]

theorem line_of_letter (rest : List UInt8)
    : Commands.line {} (120 :: rest) = (120 :: rest, none, {}) := by
  rw [Commands.line, obey_of_letter]
  dsimp only
  rw [masked_eq, hidden, showRuns_outside]
  rintro place - - ⟨mask, listed, -⟩
  nomatch listed

theorem cut_plain {text : List UInt8} (shown : Commands.hides {} text = false)
    (said : Commands.line {} text = (text, none, {}))
    : Reader.cut { Reader.new none [] false with pending := text }
      = { Reader.new none [] false with output := [.step text], isOpen := true } := by
  have hides : (Reader.new none [] false).commands.hides text = false := shown
  have line : (Reader.new none [] false).commands.line text = (text, none, {}) := said
  have read : Reader.line { Reader.new none [] false with scanned := 0 } text []
      = { Reader.new none [] false with output := [.step text] } := by
    rw [Reader.line, if_neg (by decide), if_neg (by decide)]
    simp only [hides, line, annotationAfter, List.append_nil]
    rfl
  exact congrArg (fun reader : Reader => { reader with isOpen := true }) read

/-- What is as long as the longest line that is read whole, and has no end in it, is printed cut. -/
theorem feed_plain {text : List UInt8} (held : firstLine text = none) (long : lineMax ≤ text.length)
    (shown : Commands.hides {} text = false) (said : Commands.line {} text = (text, none, {}))
    : (Reader.new none [] false).feed text
      = { Reader.new none [] false with output := [.step text], isOpen := true } := by
  have waiting : Waiting (Reader.new none [] false) := ⟨rfl, rfl⟩
  obtain ⟨after, drains, fed⟩ := feed_spec waiting text
  obtain rfl := (@Drains.held { Reader.new none [] false with pending := text } held).eq drains
  rw [fed, if_pos long]
  exact cut_plain shown said

/-- A step's line as long as the longest that is read whole. -/
def longLine : List UInt8 :=
  List.replicate lineMax 120

theorem longLine_eq
    : longLine = 120 :: List.replicate (lineMax - 1) 120 :=
  List.replicate_succ

theorem feed_longLine
    : (Reader.new none [] false).feed longLine
      = { Reader.new none [] false with output := [.step longLine], isOpen := true } := by
  have plain (byte : UInt8) (other : byte ≠ 120) : byte ∉ longLine := fun member =>
    other (List.eq_of_mem_replicate member)
  have held : firstLine longLine = none := firstLine_eq_none.mpr
    ⟨plain newline (by decide), fun member =>
      plain carriage (by decide) (List.dropLast_subset _ member)⟩
  have long : lineMax ≤ longLine.length := by rw [longLine, List.length_replicate]
  refine feed_plain held long ?_ ?_
  · rw [longLine_eq]
    rfl
  · rw [longLine_eq]
    exact line_of_letter _

/-- The rest of a long line, where it reads as a debug line, is hidden with the end it had, and the
runner's next line is printed in the middle of the long one's.
-/
theorem a_hidden_end_merges_lines
    : ((Reader.new none [] false).run [.feed longLine, .feed (bytes "::debug::\n"),
          .queue (bytes "::dagron-ci::result::1"), .ask .line]).output
        = [.step longLine, .own (bytes "::dagron-ci::result::1\n")]
      ∧ ¬ AtLineStart [.step longLine] := by
  constructor
  · rw [Reader.run, List.foldl_cons, Reader.step, feed_longLine]
    rfl
  · have printed : bytesOf [.step longLine] = longLine := List.append_nil _
    have last : longLine.getLast? = some 120 := by
      rw [longLine, List.getLast?_replicate, if_neg (by decide)]
    rw [AtLineStart, printed, last]
    rintro (nothing | ended)
    · rw [longLine_eq] at nothing
      cases nothing
    · exact absurd (Option.some.inj ended) (by decide)

end Dagron.Ci
