import Dagron.CiGit.Packets
import Dagron.Library.CharBounds
import Dagron.Spec.Condition

/-! The answer to a fetch: sections of packet lines, and in the last of them the pack, whose bytes are drawn
together in the answer's own.
-/

namespace Dagron.CiGit

open Dagron.Spec (trim dropStart)
open Dagron.Library

-- Sections

def lineText (line : List UInt8) : Except Stop (List Char) :=
  match fromUtf8 line with
  | none => .error (.protocol "a pkt-line is not UTF-8")
  | some text =>
      let text := text.toList
      .ok (if text.getLast? = some '\n' then text.dropLast else text)

def noPack : Stop :=
  .protocol "the answer holds no pack"

/-- What follows a section whose lines are passed over. -/
def skipSection : Nat → List UInt8 → Except Stop (List UInt8)
  | 0, _ => .error .endless
  | fuel + 1, pkts => do
      match ← nextPkt pkts with
      | (some .delim, rest) => .ok rest
      | (some (.data _), rest) => skipSection fuel rest
      | (some .flush, _) => .error noPack
      | _ => .error truncated

def findPackfile : Nat → List UInt8 → Except Stop (List UInt8)
  | 0, _ => .error .endless
  | fuel + 1, pkts => do
      match ← nextPkt pkts with
      | (some (.data line), rest) =>
          let name ← lineText line
          match dropStart "ERR ".toList name with
          | some message => .error (.protocol ("the server refused: " ++ String.ofList message))
          | none =>
              if name = "packfile".toList then .ok rest
              else do
                let rest ← skipSection (rest.length + 1) rest
                findPackfile fuel rest
      | (some .flush, _) => .error noPack
      | _ => .error truncated

-- The pack

/-- A buffer with some of its bytes copied to another place of it. -/
def copyWithin (body : List UInt8) (start stop dest : Nat) : Except Stop (List UInt8) :=
  if start ≤ stop ∧ stop ≤ body.length ∧ dest + (stop - start) ≤ body.length then
    .ok (body.take dest ++ (body.drop start).take (stop - start) ++ body.drop (dest + (stop - start)))
  else .error .panic

def sliceFrom (body : List UInt8) (at_ : Nat) : Except Stop (List UInt8) :=
  if at_ ≤ body.length then .ok (body.drop at_) else .error .panic

/-- Where the pack's bytes in a line are, of a line that starts at a place and ends before the next. -/
def bandRange (line : List UInt8) (at_ next : Nat) : Except Stop (Nat × Nat) :=
  match line with
  | [] => .error (.protocol "a line of the pack is on no band git has")
  | band :: message =>
      -- The band's byte is after the line's four of length.
      if band = 1 then .ok (at_ + 5, next)
      else if band = 2 then .ok (at_, at_)
      else if band = 3 then
        .error (.protocol ("the server failed: " ++ String.ofList ((trim (fromUtf8Lossy message)).take 200)))
      else .error (.protocol "a line of the pack is on no band git has")

/-- The pack of a buffer, of which the first bytes are the pack's already and the next line starts at a place:
each line's data is moved back over the framing before it.
-/
def drawTogether : Nat → List UInt8 → Nat → Nat → Except Stop (List UInt8)
  | 0, _, _, _ => .error .endless
  | fuel + 1, body, at_, stop => do
      let (packet, rest) ← nextPkt (← sliceFrom body at_)
      let next := body.length - rest.length
      match packet with
      | some .flush => .ok (body.take stop)
      | some (.data line) =>
          let (start, past) ← bandRange line at_ next
          let body ← copyWithin body start past stop
          drawTogether fuel body next (stop + (past - start))
      | _ => .error truncated

def readFetch (body : List UInt8) : Except Stop (List UInt8) := do
  let rest ← findPackfile (body.length + 1) body
  drawTogether (body.length + 1) body (body.length - rest.length) 0

-- What an answer is

/-- Whether bytes are the frames of packets, one after the other. -/
def Frames : List Pkt → List UInt8 → Prop
  | [], bytes => bytes = []
  | packet :: packets, bytes => ∃ frame rest, Framed packet frame ∧ Frames packets rest ∧ bytes = frame ++ rest

/-- A section that is passed over: the line that names it, and its other lines. -/
structure Section where
  name
    : List UInt8
  lines
    : List (List UInt8)

def Section.packets (passed : Section) : List Pkt :=
  .data passed.name :: (passed.lines.map .data ++ [.delim])

/-- Whether a line names a section that is not the pack's, and is no error. -/
def NamesOther (line : List UInt8) : Prop :=
  ∃ name, lineText line = .ok name ∧ dropStart "ERR ".toList name = none ∧ name ≠ "packfile".toList

/-- What of the pack is in a line: the first band's data. -/
def firstBand : List UInt8 → List UInt8
  | [] => []
  | band :: data => if band = 1 then data else []

/-- Whether a line is on the pack's band, or on the one of progress. -/
def OnBand (line : List UInt8) : Prop :=
  ∃ band data, line = band :: data ∧ (band = 1 ∨ band = 2)

/-- Whether an answer has a pack in it: sections that are passed over, the pack's section, whose lines' first band
is the pack, and a flush; and whatever follows.
-/
def Answers (body pack : List UInt8) : Prop :=
  ∃ (sections : List Section) (title : List UInt8) (lines : List (List UInt8)) (front section_ after : List UInt8),
    (∀ passed ∈ sections, NamesOther passed.name)
    ∧ lineText title = .ok "packfile".toList
    ∧ Frames (sections.flatMap Section.packets ++ [.data title]) front
    ∧ (∀ line ∈ lines, OnBand line)
    ∧ Frames (lines.map .data ++ [.flush]) section_
    ∧ body = front ++ section_ ++ after
    ∧ pack = lines.flatMap firstBand

theorem frames_append {first second : List Pkt} {bytes : List UInt8}
    : Frames (first ++ second) bytes ↔ ∃ front rest, Frames first front ∧ Frames second rest ∧ bytes = front ++ rest := by
  induction first generalizing bytes with
  | nil =>
      constructor
      · exact fun frames => ⟨[], bytes, rfl, frames, rfl⟩
      · rintro ⟨front, rest, rfl, frames, rfl⟩
        exact frames
  | cons packet first ih =>
      constructor
      · rintro ⟨frame, _, framed, frames, rfl⟩
        obtain ⟨front, rest, begins, ends, rfl⟩ := ih.mp frames
        exact ⟨frame ++ front, rest, ⟨frame, front, framed, begins, rfl⟩, ends, (List.append_assoc _ _ _).symm⟩
      · rintro ⟨_, rest, ⟨frame, front, framed, begins, rfl⟩, ends, rfl⟩
        exact ⟨frame, front ++ rest, framed, ih.mpr ⟨front, rest, begins, ends, rfl⟩, List.append_assoc _ _ _⟩

-- Reading on

/-- What only an answer that is not git's makes of a computation: an error of the protocol. -/
def Safe {Value : Type} (result : Except Stop Value) : Prop :=
  ∀ stop, result = .error stop → ∃ message, stop = .protocol message

theorem Safe.ok {Value : Type} (value : Value)
    : Safe (.ok value) :=
  nofun

theorem Safe.protocol {Value : Type} (message : String)
    : Safe (.error (.protocol message) : Except Stop Value) := by
  rintro stop same
  exact ⟨message, (Except.error.inj same).symm⟩

theorem Safe.bind {First Second : Type} {first : Except Stop First} {second : First → Except Stop Second}
    (safe : Safe first) (next : ∀ value, first = .ok value → Safe (second value))
    : Safe (first >>= second) := by
  cases done : first with
  | error stop =>
      rintro _ same
      obtain rfl := Except.error.inj same
      exact safe stop done
  | ok value => exact next value done

theorem safe_pktOf (pkts : List UInt8) (len : Nat)
    : Safe (pktOf pkts len) := by
  unfold pktOf
  split
  case h_4 => exact .protocol _
  case h_5 =>
    split
    next => exact .protocol _
    next => exact .ok _
  all_goals exact .ok _

theorem safe_nextPkt (pkts : List UInt8)
    : Safe (nextPkt pkts) := by
  rw [nextPkt]
  split
  next => exact .ok _
  next =>
    dsimp only
    split
    next => exact (safe_pktOf _ _).bind fun _ _ => .ok _
    next => exact .protocol _

theorem safe_lineText (line : List UInt8)
    : Safe (lineText line) := by
  unfold lineText
  split
  next => exact .protocol _
  next => exact .ok _

theorem Framed.length {packet : Pkt} {frame : List UInt8} (framed : Framed packet frame)
    : 4 ≤ frame.length ∧ frame.length = 4 + packet.payload.length := by
  obtain ⟨digits, four, -, -, rfl⟩ := framed
  rw [List.length_append]
  omega

theorem length_of_nextPkt {pkts rest : List UInt8} {packet : Pkt} (read : nextPkt pkts = .ok (some packet, rest))
    : rest.length + (4 + packet.payload.length) = pkts.length := by
  obtain ⟨frame, framed, rfl⟩ := nextPkt_eq_some_iff.mp read
  rw [List.length_append, framed.length.2, Nat.add_comm]

theorem nextPkt_framed {packet : Pkt} {frame : List UInt8} (framed : Framed packet frame) (rest : List UInt8)
    : nextPkt (frame ++ rest) = .ok (some packet, rest) :=
  nextPkt_eq_some_iff.mpr ⟨frame, framed, rfl⟩

theorem safe_skipSection {fuel : Nat} {pkts : List UInt8} (enough : pkts.length < fuel)
    : Safe (skipSection fuel pkts) := by
  induction fuel generalizing pkts with
  | zero => exact absurd enough (Nat.not_lt_zero _)
  | succ fuel ih =>
      refine (safe_nextPkt pkts).bind fun ⟨packet, rest⟩ read => ?_
      match packet with
      | some .delim => exact .ok _
      | some (.data line) =>
          have shorter := length_of_nextPkt read
          exact ih (by omega)
      | some .flush => exact .protocol _
      | some .responseEnd => exact .protocol _
      | none => exact .protocol _

theorem skipSection_eq_ok {fuel : Nat} {pkts rest : List UInt8} (enough : pkts.length < fuel)
    : skipSection fuel pkts = .ok rest
      ↔ ∃ (lines : List (List UInt8)) (front : List UInt8), Frames (lines.map .data ++ [.delim]) front
        ∧ pkts = front ++ rest := by
  induction fuel generalizing pkts with
  | zero => exact absurd enough (Nat.not_lt_zero _)
  | succ fuel ih =>
      rw [skipSection, bind_eq_ok_iff]
      constructor
      · rintro ⟨⟨packet, after⟩, read, step⟩
        match packet with
        | some .delim =>
            obtain rfl := Except.ok.inj step
            obtain ⟨frame, framed, rfl⟩ := nextPkt_eq_some_iff.mp read
            exact ⟨[], frame, ⟨frame, [], framed, rfl, (List.append_nil _).symm⟩, rfl⟩
        | some (.data line) =>
            have shorter := length_of_nextPkt read
            obtain ⟨lines, front, frames, rfl⟩ := (ih (by omega)).mp step
            obtain ⟨frame, framed, rfl⟩ := nextPkt_eq_some_iff.mp read
            exact ⟨line :: lines, frame ++ front, ⟨frame, front, framed, frames, rfl⟩,
              (List.append_assoc _ _ _).symm⟩
        | some .flush => cases step
        | some .responseEnd => cases step
        | none => cases step
      · rintro ⟨lines, _, frames, rfl⟩
        cases lines with
        | nil =>
            obtain ⟨frame, _, framed, rfl, rfl⟩ := frames
            rw [List.append_nil]
            exact ⟨_, nextPkt_framed framed rest, rfl⟩
        | cons line lines =>
            obtain ⟨frame, front, framed, frames, rfl⟩ := frames
            rw [List.append_assoc] at enough ⊢
            have read := nextPkt_framed framed (front ++ rest)
            have shorter := length_of_nextPkt read
            exact ⟨_, read, (ih (by omega)).mpr ⟨lines, front, frames, rfl⟩⟩

theorem safe_findPackfile {fuel : Nat} {pkts : List UInt8} (enough : pkts.length < fuel)
    : Safe (findPackfile fuel pkts) := by
  induction fuel generalizing pkts with
  | zero => exact absurd enough (Nat.not_lt_zero _)
  | succ fuel ih =>
      refine (safe_nextPkt pkts).bind fun ⟨packet, rest⟩ read => ?_
      match packet with
      | some (.data line) =>
          refine (safe_lineText line).bind fun name _ => ?_
          split
          next => exact .protocol _
          next =>
            split
            next => exact .ok _
            next =>
              refine (safe_skipSection (Nat.lt_succ_self _)).bind fun after skipped => ?_
              obtain ⟨lines, front, -, rfl⟩ := (skipSection_eq_ok (Nat.lt_succ_self _)).mp skipped
              have shorter := length_of_nextPkt read
              rw [List.length_append] at shorter
              exact ih (by omega)
      | some .flush => exact .protocol _
      | some .delim => exact .protocol _
      | some .responseEnd => exact .protocol _
      | none => exact .protocol _

theorem findPackfile_eq_ok {fuel : Nat} {pkts rest : List UInt8} (enough : pkts.length < fuel)
    : findPackfile fuel pkts = .ok rest
      ↔ ∃ (sections : List Section) (title front : List UInt8), (∀ passed ∈ sections, NamesOther passed.name)
        ∧ lineText title = .ok "packfile".toList
        ∧ Frames (sections.flatMap Section.packets ++ [.data title]) front ∧ pkts = front ++ rest := by
  induction fuel generalizing pkts with
  | zero => exact absurd enough (Nat.not_lt_zero _)
  | succ fuel ih =>
      rw [findPackfile, bind_eq_ok_iff]
      constructor
      · rintro ⟨⟨packet, after⟩, read, step⟩
        match packet with
        | some (.data line) =>
            obtain ⟨name, named, step⟩ := exists_of_bind_eq_ok step
            obtain ⟨frame, framed, rfl⟩ := nextPkt_eq_some_iff.mp read
            split at step
            next => cases step
            next plain =>
              split at step
              next pack =>
                obtain rfl := Except.ok.inj step
                subst pack
                exact ⟨[], line, frame, nofun, named, ⟨frame, [], framed, rfl, (List.append_nil _).symm⟩, rfl⟩
              next other =>
                obtain ⟨later, skipped, found⟩ := exists_of_bind_eq_ok step
                obtain ⟨lines, front, frames, rfl⟩ := (skipSection_eq_ok (Nat.lt_succ_self _)).mp skipped
                have shorter := length_of_nextPkt read
                rw [List.length_append] at shorter
                obtain ⟨sections, title, back, others, titled, frames', rfl⟩ := (ih (by omega)).mp found
                refine ⟨⟨line, lines⟩ :: sections, title, frame ++ (front ++ back),
                  List.forall_mem_cons.mpr ⟨⟨name, named, plain, other⟩, others⟩, titled, ?_, ?_⟩
                · rw [List.flatMap_cons, List.append_assoc]
                  refine ⟨frame, front ++ back, framed, ?_, rfl⟩
                  exact frames_append.mpr ⟨front, back, frames, frames', rfl⟩
                · simp only [List.append_assoc]
        | some .flush => cases step
        | some .delim => cases step
        | some .responseEnd => cases step
        | none => cases step
      · rintro ⟨sections, title, _, others, titled, frames, rfl⟩
        cases sections with
        | nil =>
            obtain ⟨frame, _, framed, rfl, rfl⟩ := frames
            rw [List.append_nil]
            refine ⟨_, nextPkt_framed framed rest, ?_⟩
            change lineText title >>= _ = _
            rw [titled]
            rfl
        | cons passed sections =>
            rw [List.flatMap_cons, List.append_assoc] at frames
            obtain ⟨frame, _, framed, frames, rfl⟩ := frames
            obtain ⟨front, back, begins, ends, rfl⟩ := frames_append.mp frames
            obtain ⟨⟨name, named, plain, other⟩, others⟩ := List.forall_mem_cons.mp others
            rw [List.append_assoc, List.append_assoc] at enough ⊢
            have read := nextPkt_framed framed (front ++ (back ++ rest))
            have shorter := length_of_nextPkt read
            have skipped : skipSection ((front ++ (back ++ rest)).length + 1) (front ++ (back ++ rest))
                = .ok (back ++ rest) :=
              (skipSection_eq_ok (Nat.lt_succ_self _)).mpr ⟨passed.lines, front, begins, rfl⟩
            refine ⟨_, read, ?_⟩
            dsimp only
            rw [named, ok_bind, plain]
            dsimp only
            rw [if_neg other, skipped, ok_bind]
            refine (ih ?_).mpr ⟨sections, title, back, others, titled, ends, rfl⟩
            rw [List.length_append] at shorter
            omega

-- Drawing together

theorem bandRange_of_onBand {line : List UInt8} (on : OnBand line) (at_ next : Nat)
    : ∃ start past, bandRange line at_ next = .ok (start, past)
      ∧ (start = at_ ∧ past = at_ ∧ firstBand line = []
        ∨ start = at_ + 5 ∧ past = next ∧ firstBand line = line.drop 1 ∧ line ≠ []) := by
  obtain ⟨band, data, rfl, rfl | rfl⟩ := on
  · exact ⟨_, _, rfl, .inr ⟨rfl, rfl, rfl, List.cons_ne_nil _ _⟩⟩
  · exact ⟨_, _, rfl, .inl ⟨rfl, rfl, rfl⟩⟩

theorem bandRange_of_not_onBand {line : List UInt8} (off : ¬ OnBand line) (at_ next : Nat)
    : ∃ message, bandRange line at_ next = .error (.protocol message) := by
  cases line with
  | nil => exact ⟨_, rfl⟩
  | cons band data =>
      have first : band ≠ 1 := fun is_ => off ⟨band, data, rfl, .inl is_⟩
      have second : band ≠ 2 := fun is_ => off ⟨band, data, rfl, .inr is_⟩
      rw [bandRange, if_neg first, if_neg second]
      split
      next => exact ⟨_, rfl⟩
      next => exact ⟨_, rfl⟩

/-- A line's data is moved behind what was drawn together before it, and what is yet to be read stays as it is:
the place that is written never passes the place that is read.
-/
theorem moved {body line rest : List UInt8} {at_ stop : Nat} (below : stop ≤ at_) (inside : at_ ≤ body.length)
    (read : nextPkt (body.drop at_) = .ok (some (.data line), rest)) (on : OnBand line)
    : ∃ start past body', bandRange line at_ (body.length - rest.length) = .ok (start, past)
      ∧ copyWithin body start past stop = .ok body'
      ∧ stop + (past - start) ≤ body.length - rest.length
      ∧ body'.length = body.length
      ∧ body'.drop (body.length - rest.length) = rest
      ∧ body'.take (stop + (past - start)) = body.take stop ++ firstBand line := by
  obtain ⟨frame, ⟨digits, four, -, -, rfl⟩, whole⟩ := nextPkt_eq_some_iff.mp read
  change body.drop at_ = digits ++ line ++ rest at whole
  have sizes := congrArg List.length whole
  simp only [List.length_append, List.length_drop, four] at sizes
  obtain ⟨start, past, range, cases_⟩ := bandRange_of_onBand on at_ (body.length - rest.length)
  -- What is written ends before what is yet to be read.
  obtain ⟨forth, inner, behind, data⟩ : start ≤ past ∧ past ≤ body.length
      ∧ stop + (past - start) ≤ body.length - rest.length
      ∧ (body.drop start).take (past - start) = firstBand line := by
    obtain ⟨rfl, rfl, none_⟩ | ⟨rfl, rfl, data, some_⟩ := cases_
    · rw [none_, Nat.sub_self]
      refine ⟨Nat.le_refl _, inside, ?_, List.take_zero⟩
      omega
    · obtain ⟨band, carried, rfl⟩ := List.exists_cons_of_ne_nil some_
      rw [List.length_cons] at sizes
      refine ⟨by omega, by omega, by omega, ?_⟩
      have five : digits ++ band :: carried ++ rest = (digits ++ [band]) ++ (carried ++ rest) := by simp
      have head : 5 = (digits ++ [band]).length := by rw [List.length_append, four, List.length_singleton]
      have count : body.length - rest.length - (at_ + 5) = carried.length := by omega
      rw [data, ← List.drop_drop, whole, five, head, List.drop_left, ← head, count, List.take_left]
      rfl
  have size : (body.take stop ++ firstBand line).length = stop + (past - start) := by
    rw [← data, List.length_append, List.length_take, List.length_take, List.length_drop]
    omega
  refine ⟨start, past, body.take stop ++ firstBand line ++ body.drop (stop + (past - start)), range, ?_, behind, ?_,
    ?_, ?_⟩
  · rw [copyWithin, if_pos ⟨forth, inner, by omega⟩, data]
  · rw [List.length_append, size, List.length_drop]
    omega
  · have tail : (body.length - rest.length) = at_ + (digits ++ line).length := by
      rw [List.length_append]
      omega
    have on_ : stop + (past - start) + (body.length - rest.length - (stop + (past - start)))
        = body.length - rest.length := by omega
    rw [List.drop_append, List.drop_of_length_le (by omega), size, List.drop_drop, on_, tail, ← List.drop_drop,
      whole, List.drop_left]
    rfl
  · rw [← size, List.take_left]

theorem safe_drawTogether {fuel : Nat} {body : List UInt8} {at_ stop : Nat} (below : stop ≤ at_)
    (inside : at_ ≤ body.length) (enough : body.length - at_ < fuel)
    : Safe (drawTogether fuel body at_ stop) := by
  induction fuel generalizing body at_ stop with
  | zero => exact absurd enough (Nat.not_lt_zero _)
  | succ fuel ih =>
      rw [drawTogether, sliceFrom, if_pos inside, ok_bind]
      refine (safe_nextPkt _).bind fun ⟨packet, rest⟩ read => ?_
      match packet with
      | some (.data line) =>
          by_cases on : OnBand line
          · obtain ⟨start, past, body', range, copied, behind, size, -, -⟩ := moved below inside read on
            have shorter := length_of_nextPkt read
            rw [List.length_drop] at shorter
            change Safe (bandRange line at_ (body.length - rest.length) >>= _)
            rw [range, ok_bind]
            dsimp only
            rw [copied, ok_bind]
            exact ih behind (by omega) (by omega)
          · obtain ⟨message, refused⟩ := bandRange_of_not_onBand on at_ (body.length - rest.length)
            change Safe (bandRange line at_ (body.length - rest.length) >>= _)
            rw [refused]
            exact .protocol message
      | some .flush => exact .ok _
      | some .delim => exact .protocol _
      | some .responseEnd => exact .protocol _
      | none => exact .protocol _

/-- What is drawn together is what was, and the first band of the lines yet to be read, up to their flush. -/
theorem drawTogether_eq_ok {fuel : Nat} {body pack : List UInt8} {at_ stop : Nat} (below : stop ≤ at_)
    (inside : at_ ≤ body.length) (enough : body.length - at_ < fuel)
    : drawTogether fuel body at_ stop = .ok pack
      ↔ ∃ (lines : List (List UInt8)) (section_ after : List UInt8), (∀ line ∈ lines, OnBand line)
        ∧ Frames (lines.map .data ++ [.flush]) section_ ∧ body.drop at_ = section_ ++ after
        ∧ pack = body.take stop ++ lines.flatMap firstBand := by
  induction fuel generalizing body at_ stop with
  | zero => exact absurd enough (Nat.not_lt_zero _)
  | succ fuel ih =>
      rw [drawTogether, sliceFrom, if_pos inside, ok_bind, bind_eq_ok_iff]
      constructor
      · rintro ⟨⟨packet, rest⟩, read, step⟩
        match packet with
        | some .flush =>
            obtain rfl := Except.ok.inj step
            obtain ⟨frame, framed, whole⟩ := nextPkt_eq_some_iff.mp read
            exact ⟨[], frame, rest, nofun, ⟨frame, [], framed, rfl, (List.append_nil _).symm⟩, whole,
              (List.append_nil _).symm⟩
        | some (.data line) =>
            change bandRange line at_ (body.length - rest.length) >>= _ = _ at step
            by_cases on : OnBand line
            · obtain ⟨start, past, body', range, copied, behind, size, later, drawn⟩ := moved below inside read on
              have shorter := length_of_nextPkt read
              rw [List.length_drop] at shorter
              rw [range, ok_bind] at step
              dsimp only at step
              rw [copied, ok_bind, ih behind (by omega) (by omega), later, drawn] at step
              obtain ⟨lines, section_, after, each, frames, rfl, rfl⟩ := step
              obtain ⟨frame, framed, whole⟩ := nextPkt_eq_some_iff.mp read
              refine ⟨line :: lines, frame ++ section_, after, List.forall_mem_cons.mpr ⟨on, each⟩,
                ⟨frame, section_, framed, frames, rfl⟩, ?_, ?_⟩
              · rw [whole, List.append_assoc]
              · rw [List.flatMap_cons, List.append_assoc]
            · obtain ⟨message, refused⟩ := bandRange_of_not_onBand on at_ (body.length - rest.length)
              rw [refused] at step
              cases step
        | some .delim => cases step
        | some .responseEnd => cases step
        | none => cases step
      · rintro ⟨lines, _, after, each, frames, whole, rfl⟩
        cases lines with
        | nil =>
            obtain ⟨frame, _, framed, rfl, rfl⟩ := frames
            rw [List.append_nil] at whole
            exact ⟨_, nextPkt_eq_some_iff.mpr ⟨frame, framed, whole⟩, by rw [List.flatMap_nil, List.append_nil]⟩
        | cons line lines =>
            obtain ⟨frame, section_, framed, frames, rfl⟩ := frames
            obtain ⟨on, each⟩ := List.forall_mem_cons.mp each
            rw [List.append_assoc] at whole
            have read := nextPkt_eq_some_iff.mpr ⟨frame, framed, whole⟩
            obtain ⟨start, past, body', range, copied, behind, size, later, drawn⟩ := moved below inside read on
            have shorter := length_of_nextPkt read
            rw [List.length_drop] at shorter
            refine ⟨_, read, ?_⟩
            change bandRange line at_ (body.length - (section_ ++ after).length) >>= _ = _
            rw [range, ok_bind]
            dsimp only
            rw [copied, ok_bind, ih behind (by omega) (by omega), later, drawn]
            exact ⟨lines, section_, after, each, frames, rfl, by rw [List.flatMap_cons, List.append_assoc]⟩

/-- The pack of an answer is the first band of its pack's section, drawn together, where the answer has one; any
other answer is refused. And a line that is written as a packet is read back from it exactly where its length,
with the four of its own, has four hexadecimal digits.
-/
theorem fetch_answer_is_demultiplexed (body : List UInt8) (line : String) (rest : List UInt8)
    : Safe (readFetch body)
      ∧ (∀ pack, readFetch body = .ok pack ↔ Answers body pack)
      ∧ (nextPkt (pkt [] line ++ rest) = .ok (some (.data (utf8 line)), rest)
        ↔ (utf8 line).length + 4 < 2 ^ 16) := by
  have enough : body.length < body.length + 1 := Nat.lt_succ_self _
  refine ⟨?_, fun pack => ?_, nextPkt_pkt_iff line rest⟩
  · refine (safe_findPackfile enough).bind fun rest found => ?_
    exact safe_drawTogether (Nat.zero_le _) (Nat.sub_le _ _) (by omega)
  · rw [readFetch, bind_eq_ok_iff]
    constructor
    · rintro ⟨rest, found, drawn⟩
      obtain ⟨sections, title, front, others, titled, frames, rfl⟩ := (findPackfile_eq_ok enough).mp found
      rw [drawTogether_eq_ok (Nat.zero_le _) (Nat.sub_le _ _) (by omega)] at drawn
      obtain ⟨lines, section_, after, each, frames', whole, rfl⟩ := drawn
      have start : (front ++ rest).length - rest.length = front.length := by
        rw [List.length_append, Nat.add_sub_cancel]
      rw [start, List.drop_left] at whole
      exact ⟨sections, title, lines, front, section_, after, others, titled, frames, each, frames',
        by rw [whole, List.append_assoc], rfl⟩
    · rintro ⟨sections, title, lines, front, section_, after, others, titled, frames, each, frames', rfl, rfl⟩
      rw [List.append_assoc] at enough ⊢
      refine ⟨section_ ++ after,
        (findPackfile_eq_ok enough).mpr ⟨sections, title, front, others, titled, frames, rfl⟩, ?_⟩
      rw [drawTogether_eq_ok (Nat.zero_le _) (Nat.sub_le _ _) (by omega)]
      refine ⟨lines, section_, after, each, frames', ?_, rfl⟩
      have start : (front ++ (section_ ++ after)).length - (section_ ++ after).length = front.length := by
        have size : (front ++ (section_ ++ after)).length = front.length + (section_ ++ after).length :=
          List.length_append
        rw [size, Nat.add_sub_cancel]
      rw [start, List.drop_left]

-- A line that is too long

theorem length_le_encodeChars (chars : List Char)
    : chars.length ≤ (encodeChars chars).length := by
  induction chars with
  | nil => exact Nat.le_refl 0
  | cons char chars ih =>
      obtain ⟨first, rest, encoded, -⟩ := encode_eq_cons char
      have parts : encodeChars (char :: chars) = first :: rest ++ encodeChars chars := by
        rw [← encoded]
        rfl
      rw [parts, List.length_append, List.length_cons, List.length_cons]
      omega

/-- A request names the object format that the server announced, and a line end after it: of a format that fills
the server's own line, the request's line has a length of five digits, and is not read back.
-/
theorem a_full_line_is_not_read_back
    : ¬ ∀ (body : List UInt8) (line : String) (rest : List UInt8), Safe (readFetch body)
        ∧ (∀ pack, readFetch body = .ok pack ↔ Answers body pack)
        ∧ nextPkt (pkt [] line ++ rest) = .ok (some (.data (utf8 line)), rest) := by
  intro claim
  let chars := "object-format=".toList ++ List.replicate 65517 'a' ++ ['\n']
  have short := (fetch_answer_is_demultiplexed [] (String.ofList chars) []).2.2.mp (claim [] (String.ofList chars) []).2.2
  have long := length_le_encodeChars chars
  have size : chars.length = 65532 := by
    rw [List.length_append, List.length_append, List.length_replicate]
    rfl
  rw [utf8_eq_encodeChars, String.toList_ofList] at short
  omega

end Dagron.CiGit
