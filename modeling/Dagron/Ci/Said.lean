import Dagron.Library.Rooms
import Dagron.Library.Slices
import Dagron.Spec.Jsonpred

/-! What a job said of itself as it ended, read back from the lines of its log: its tests' report, the places it
named, the tests that failed and its steps' summaries. Any of the lines can be the job's own script's, and what
they say is held to bounds whoever wrote them.
-/

namespace Dagron.CiSaid

open Dagron.Spec (Json trim trimEnd dropStart splitOnce parseU64)
open Dagron.Library

-- What is read

def annotationsMax : Nat :=
  50

def failedMax : Nat :=
  50

/-- How much of the steps' summaries is kept, in bytes. -/
def summaryMax : Nat :=
  32 * 1024

def pathMax : Nat :=
  240

def titleMax : Nat :=
  160

def messageMax : Nat :=
  400

/-- The counts a report's line gives. -/
structure Counts where
  tests
    : Nat := 0
  failures
    : Nat := 0
  errors
    : Nat := 0
  skipped
    : Nat := 0
  findings
    : Nat := 0
  moreAnnotations
    : Nat := 0
  moreFailed
    : Nat := 0
  problems
    : List (List Char) := []
  deriving DecidableEq

/-- What is said of a place in the commit's files. -/
structure Annotation where
  path
    : List Char
  startLine
    : Nat
  endLine
    : Nat
  level
    : String
  title
    : List Char
  message
    : List Char
  deriving DecidableEq

/-- What one job said. -/
structure Said where
  counts
    : Option Counts := none
  annotations
    : List Annotation := []
  failed
    : List (List Char × List Char) := []
  summary
    : List Char := []
  deriving DecidableEq

/-- What reads JSON: any value, or a string alone. -/
structure JsonReader where
  value
    : List Char → Option Json
  text
    : List Char → Option (List Char)

-- Values

/-- What a value holds under a key, `null` where it holds nothing. -/
def index (value : Json) (key : String) : Json :=
  match value with
  | .object fields => (fields.lookup key).getD .null
  | _ => .null

def asStr : Json → Option (List Char)
  | .string text => some text.toList
  | _ => none

def asU64 : Json → Option Nat
  | .number text => parseU64 text.toList
  | _ => none

def asArray : Json → Option (List Json)
  | .array items => some items
  | _ => none

/-- A text with no white space at its ends, cut to a number of characters. -/
def clamp (text : List Char) (most : Nat) : List Char :=
  let text := trim text
  if text.length ≤ most then text else text.take (most - 1) ++ ['…']

/-- Whether a path is a file's inside a repository: relative, with no way out. -/
def inRepository (path : List Char) : Bool :=
  !path.isEmpty && path.length ≤ pathMax && path.head? != some '/' && !path.contains '\\'
    && !path.any (fun char => char == '\n' || char == '\r' || char == '\x00')
    && (path.splitOn '/').all fun part => !part.isEmpty && part != ['.'] && part != ['.', '.']

def annotation (value : Json) : Option Annotation := do
  let path ← (asStr (index value "path")).filter inRepository
  let start ← (asU64 (index value "start_line")).filter fun line => 1 ≤ line
  let stop := ((asU64 (index value "end_line")).filter fun line => start ≤ line).getD start
  let level :=
    match (asStr (index value "level")).map String.ofList with
    | some "failure" => "failure"
    | some "warning" => "warning"
    | _ => "notice"
  let message := clamp ((asStr (index value "message")).getD []) messageMax
  return {
    path
    startLine := start
    endLine := stop
    level
    title := clamp ((asStr (index value "title")).getD []) titleMax
    message := if message.isEmpty then "(no message)".toList else message }

def countsOf (value : Json) : Counts :=
  let number (key : String) : Nat := (asU64 (index value key)).getD 0
  { tests := number "tests"
    failures := number "failures"
    errors := number "errors"
    skipped := number "skipped"
    findings := number "findings"
    moreAnnotations := number "more_annotations"
    moreFailed := number "more_failed"
    problems := ((((asArray (index value "problems")).getD []).filterMap asStr).take 8).map
      fun problem => clamp problem messageMax }

def failure (value : Json) : Option (List Char × List Char) := do
  let name ← (asStr (index value "name")).filter fun name => !(trim name).isEmpty
  return (clamp name titleMax, clamp ((asStr (index value "message")).getD []) messageMax)

-- Lines

/-- What one line says. -/
inductive Word where
  | report (counts : Counts)
  | annotation (place : Annotation)
  | failed (test : List Char × List Char)
  | summary (part : List Char)

/-- What a line says, if it is one of a job's and can be read as one. -/
def readWord (json : JsonReader) (line : List Char) : Option Word := do
  let rest ← dropStart "::dagron-ci::".toList (trimEnd line)
  let (kind, text) ← splitOnce "::".toList rest
  match String.ofList kind with
  | "report" => return .report (countsOf (← json.value text))
  | "annotation" => return Word.annotation (← annotation (← json.value text))
  | "failed" => return .failed (← failure (← json.value text))
  | "summary" => return .summary (← json.text text)
  | _ => none

/-- What was read so far: what is kept, and how many places and failures were not. -/
structure Reading where
  said
    : Said := {}
  moreAnnotations
    : Nat := 0
  moreFailed
    : Nat := 0

/-- The sum of two numbers of 64 bits, which is nothing where it is none. -/
def addU64 (first second : Nat) : Option Nat :=
  if first + second < 2 ^ 64 then some (first + second) else none

/-- Keeps an item after those that are kept, or counts it where these are as many as are kept. -/
def keepOrCount {Item : Type} (most : Nat) (kept : List Item) (more : Nat) (item : Item)
    : Option (List Item × Nat) :=
  if kept.length < most then some (kept ++ [item], more)
  else (addU64 more 1).map fun more => (kept, more)

def width (char : Char) : Nat :=
  (String.utf8EncodeChar char).length

/-- A summary with one more part, of which what fits is kept. -/
def pushPart (summary part : List Char) : List Char :=
  let room := summaryMax - bytesOf summary
  if bytesOf part ≤ room then summary ++ part
  else
    -- The part's bytes up to the last bound of a character that is in the room.
    summary ++ fitting width (floorFrom (encodeChars part) room) part

def Reading.take (reading : Reading) : Word → Option Reading
  | .report counts => some { reading with said.counts := some counts }
  | Word.annotation place => do
      let (annotations, moreAnnotations) ←
        keepOrCount annotationsMax reading.said.annotations reading.moreAnnotations place
      return { reading with said.annotations := annotations, moreAnnotations }
  | .failed test => do
      let (failed, moreFailed) ← keepOrCount failedMax reading.said.failed reading.moreFailed test
      return { reading with said.failed := failed, moreFailed }
  | .summary part => some { reading with said.summary := pushPart reading.said.summary part }

/-- What was read in the end, with what was not kept counted with what the job itself left out. -/
def Reading.finish (reading : Reading) : Option Said :=
  if 0 < reading.moreAnnotations ∨ 0 < reading.moreFailed then do
    let counts := reading.said.counts.getD {}
    let moreAnnotations ← addU64 counts.moreAnnotations reading.moreAnnotations
    let moreFailed ← addU64 counts.moreFailed reading.moreFailed
    return { reading.said with counts := some { counts with moreAnnotations, moreFailed } }
  else some reading.said

/-- What a job said, from the lines of its log in their order; nothing where a count overflows. -/
def read (json : JsonReader) (lines : List (List Char)) : Option Said := do
  let reading ← (lines.filterMap (readWord json)).foldlM Reading.take {}
  reading.finish

-- Places inside a repository

/-- Where one part of a path leads from a place in a repository; out of it, it leads nowhere. -/
def descend (place : List (List Char)) (part : List Char) : Option (List (List Char)) :=
  if part = [] ∨ part = ['.'] then some place
  else if part = ['.', '.'] then if place = [] then none else some place.dropLast
  else some (place ++ [part])

/-- Whether a path leads from a repository's root to a place inside it, and never out on the way. -/
def StaysInside (path : List Char) : Prop :=
  path.head? ≠ some '/' ∧ ∃ place, place ≠ [] ∧ (path.splitOn '/').foldlM descend [] = some place

theorem foldlM_descend {parts : List (List Char)}
    (named : ∀ part ∈ parts, part ≠ [] ∧ part ≠ ['.'] ∧ part ≠ ['.', '.']) (place : List (List Char))
    : parts.foldlM descend place = some (place ++ parts) := by
  induction parts generalizing place with
  | nil => simp
  | cons part parts ih =>
      obtain ⟨some_, own, up⟩ := named part List.mem_cons_self
      have step : descend place part = some (place ++ [part]) := by
        rw [descend, if_neg (not_or.mpr ⟨some_, own⟩), if_neg up]
      rw [List.foldlM_cons, step]
      refine (ih (fun other there => named other (List.mem_cons_of_mem part there)) _).trans ?_
      rw [List.append_assoc, List.singleton_append]

theorem staysInside_of_inRepository {path : List Char} (inside : inRepository path)
    : StaysInside path := by
  simp only [inRepository, Bool.and_eq_true, List.all_eq_true, bne_iff_ne, ne_eq, Bool.not_eq_true',
    List.isEmpty_eq_false_iff] at inside
  obtain ⟨⟨⟨⟨-, relative⟩, -⟩, -⟩, parts⟩ := inside
  have named (part : List Char) (there : part ∈ path.splitOn '/')
      : part ≠ [] ∧ part ≠ ['.'] ∧ part ≠ ['.', '.'] := by
    obtain ⟨⟨some_, own⟩, up⟩ := parts part there
    exact ⟨some_, own, up⟩
  exact ⟨relative, _, List.splitOn_ne_nil '/' path, foldlM_descend named []⟩

theorem annotation_inside {value : Json} {place : Annotation} (named : annotation value = some place)
    : StaysInside place.path ∧ 1 ≤ place.startLine ∧ place.startLine ≤ place.endLine := by
  simp only [ annotation, bind, Option.bind_eq_some_iff, Option.filter_eq_some_iff, pure, Option.some.injEq] at named
  obtain ⟨path, ⟨-, inside⟩, start, ⟨-, first⟩, rfl⟩ := named
  refine ⟨staysInside_of_inRepository inside, by simpa using first, ?_⟩
  cases stop : (asU64 (index value "end_line")).filter fun line => start ≤ line with
  | none => exact Nat.le_refl start
  | some last =>
      obtain ⟨-, after⟩ := Option.filter_eq_some_iff.mp stop
      simpa using after

-- What is said, all in all

def Word.report? : Word → Option Counts
  | .report counts => some counts
  | _ => none

def Word.place? : Word → Option Annotation
  | Word.annotation place => some place
  | _ => none

def Word.test? : Word → Option (List Char × List Char)
  | .failed test => some test
  | _ => none

def Word.part? : Word → Option (List Char)
  | .summary part => some part
  | _ => none

def reported (words : List Word) : Option Counts :=
  (words.filterMap Word.report?).getLast?

def places (words : List Word) : List Annotation :=
  words.filterMap Word.place?

def tests (words : List Word) : List (List Char × List Char) :=
  words.filterMap Word.test?

def parts (words : List Word) : List (List Char) :=
  words.filterMap Word.part?

def droppedPlaces (words : List Word) : Nat :=
  (places words).length - annotationsMax

def droppedTests (words : List Word) : Nat :=
  (tests words).length - failedMax

/-- What is read of some words where no count overflows. -/
def kept (words : List Word) : Reading :=
  { said :=
      { counts := reported words
        annotations := (places words).take annotationsMax
        failed := (tests words).take failedMax
        summary := (parts words).foldl pushPart [] }
    moreAnnotations := droppedPlaces words
    moreFailed := droppedTests words }

/-- Whether what is not kept of some words is a number of 64 bits. -/
def Counted (words : List Word) : Prop :=
  droppedPlaces words < 2 ^ 64 ∧ droppedTests words < 2 ^ 64

instance (words : List Word) : Decidable (Counted words) :=
  inferInstanceAs (Decidable (_ ∧ _))

theorem keepOrCount_take {Item : Type} {most : Nat} {items : List Item} (counted : items.length - most < 2 ^ 64)
    (item : Item)
    : keepOrCount most (items.take most) (items.length - most) item
      = if (items ++ [item]).length - most < 2 ^ 64
        then some ((items ++ [item]).take most, (items ++ [item]).length - most) else none := by
  rw [keepOrCount, List.length_take, List.length_append, List.length_singleton]
  by_cases short : items.length < most
  · have whole : (items ++ [item]).length ≤ most := by
      rw [List.length_append, List.length_singleton]
      exact short
    have none_ : items.length + 1 - most = items.length - most := by omega
    rw [if_pos (by omega), List.take_of_length_le (Nat.le_of_lt short), List.take_of_length_le whole, none_,
      if_pos counted]
  · have more : items.length + 1 - most = items.length - most + 1 := by omega
    rw [if_neg (by omega), more, List.take_append_of_le_length (by omega), addU64]
    split <;> rfl

theorem filterMap_concat {Item : Type} (said : Word → Option Item) (words : List Word) (word : Word)
    : (words ++ [word]).filterMap said = words.filterMap said ++ (said word).toList := by
  rw [List.filterMap_append, List.filterMap_cons, List.filterMap_nil]
  cases said word <;> rfl

theorem take_kept {words : List Word} (counted : Counted words) (word : Word)
    : (kept words).take word = if Counted (words ++ [word]) then some (kept (words ++ [word])) else none := by
  cases word with
  | report counts =>
      have same : Counted (words ++ [.report counts]) := by
        simpa only [Counted, droppedPlaces, droppedTests, places, tests, filterMap_concat, Word.place?, Word.test?,
          Option.toList_none, List.append_nil] using counted
      rw [if_pos same]
      simp only [kept, Reading.take, reported, droppedPlaces, droppedTests, places, tests, parts, filterMap_concat,
        Word.report?, Word.place?, Word.test?, Word.part?, Option.toList_none, Option.toList_some, List.append_nil,
        List.getLast?_concat]
  | summary part =>
      have same : Counted (words ++ [.summary part]) := by
        simpa only [Counted, droppedPlaces, droppedTests, places, tests, filterMap_concat, Word.place?, Word.test?,
          Option.toList_none, List.append_nil] using counted
      rw [if_pos same]
      simp only [kept, Reading.take, reported, droppedPlaces, droppedTests, places, tests, parts, filterMap_concat,
        Word.report?, Word.place?, Word.test?, Word.part?, Option.toList_none, Option.toList_some, List.append_nil,
        List.foldl_concat]
  | annotation place =>
      have more := keepOrCount_take counted.1 place
      have other : droppedTests (words ++ [Word.annotation place]) = droppedTests words := by
        simp only [droppedTests, tests, filterMap_concat, Word.test?, Option.toList_none, List.append_nil]
      have counted' : Counted (words ++ [Word.annotation place])
          ↔ (places words ++ [place]).length - annotationsMax < 2 ^ 64 := by
        rw [Counted, other, and_iff_left counted.2, droppedPlaces, places, filterMap_concat]
        rfl
      simp only [Reading.take, kept, droppedPlaces, more, counted', other]
      split
      next =>
        simp only [reported, places, tests, parts, filterMap_concat, Word.report?, Word.place?, Word.test?, Word.part?,
          Option.toList_none, Option.toList_some, List.append_nil]
        rfl
      next => rfl
  | failed test =>
      have more := keepOrCount_take counted.2 test
      have other : droppedPlaces (words ++ [.failed test]) = droppedPlaces words := by
        simp only [droppedPlaces, places, filterMap_concat, Word.place?, Option.toList_none, List.append_nil]
      have counted' : Counted (words ++ [.failed test]) ↔ (tests words ++ [test]).length - failedMax < 2 ^ 64 := by
        rw [Counted, other, and_iff_right counted.1, droppedTests, tests, filterMap_concat]
        rfl
      simp only [Reading.take, kept, droppedTests, more, counted', other]
      split
      next =>
        simp only [reported, places, tests, parts, filterMap_concat, Word.report?, Word.place?, Word.test?, Word.part?,
          Option.toList_none, Option.toList_some, List.append_nil]
        rfl
      next => rfl

theorem Counted.front {words : List Word} {word : Word} (counted : Counted (words ++ [word]))
    : Counted words := by
  have fewer {Item : Type} (said : Word → Option Item)
      : (words.filterMap said).length ≤ ((words ++ [word]).filterMap said).length := by
    rw [filterMap_concat, List.length_append]
    exact Nat.le_add_right _ _
  have places_ := fewer Word.place?
  have tests_ := fewer Word.test?
  simp only [Counted, droppedPlaces, droppedTests, places, tests] at counted ⊢
  omega

theorem foldlM_take (words : List Word)
    : words.foldlM Reading.take {} = if Counted words then some (kept words) else none := by
  induction words using List.reverseRecOn with
  | nil => rfl
  | append_singleton words word ih =>
      rw [List.foldlM_append, ih]
      by_cases counted : Counted words
      · rw [if_pos counted]
        refine Eq.trans ?_ (take_kept counted word)
        exact bind_pure ((kept words).take word)
      · rw [if_neg counted, if_neg fun more => counted more.front]
        rfl

-- Summaries

theorem bytesOf_eq_roomOf (chars : List Char)
    : bytesOf chars = roomOf width chars := by
  induction chars with
  | nil => rfl
  | cons char chars ih =>
      rw [bytesOf_cons, ih]
      rfl

/-- A text cut at the last bound of a character in a room is its longest beginning that fits the room. -/
theorem fitting_floorFrom (room : Nat) (chars : List Char)
    : fitting width (floorFrom (encodeChars chars) room) chars = fitting width room chars := by
  have least : roomOf width (fitting width room chars) ≤ floorFrom (encodeChars chars) room := by
    refine le_floorFrom (isCharBoundary_encodeChars_iff.mpr ?_) (roomOf_fitting room chars)
    obtain ⟨rest, whole⟩ := fitting_begins width room chars
    exact ⟨_, rest, whole.symm, bytesOf_eq_roomOf _⟩
  refine eq_fitting_iff.mpr ⟨fitting_begins _ _ _, (roomOf_fitting _ _).trans floorFrom_le, ?_⟩
  intro longer begins small
  have shorter := roomOf_prefix width (prefix_fitting begins small)
  exact (prefix_fitting begins (shorter.trans least)).length_le

theorem pushPart_eq (summary part : List Char)
    : pushPart summary part = summary ++ fitting width (summaryMax - roomOf width summary) part := by
  rw [pushPart, bytesOf_eq_roomOf, bytesOf_eq_roomOf]
  split
  next fits => rw [fitting_of_fits fits]
  next => rw [fitting_floorFrom]

theorem summary_kept (words : List Word)
    : (kept words).said.summary = pour width summaryMax (parts words) := by
  have same : pushPart = fun summary part => summary ++ fitting width (summaryMax - roomOf width summary) part := by
    funext summary part
    exact pushPart_eq summary part
  change (parts words).foldl pushPart [] = _
  rw [same, foldl_pour]
  rfl

-- What is held to its bounds

/-- What a job says of some words within its bounds: the first places and failures as many as are kept, those it
left out with those its last report did, places inside the repository at lines in their order, and the longest
beginning of its summaries that fits.
-/
structure Bounded (words : List Word) (said : Said) : Prop where
  annotations
    : said.annotations = (places words).take annotationsMax
  failed
    : said.failed = (tests words).take failedMax
  leftOut
    : (said.counts.getD {}).moreAnnotations = ((reported words).getD {}).moreAnnotations + droppedPlaces words
      ∧ (said.counts.getD {}).moreFailed = ((reported words).getD {}).moreFailed + droppedTests words
  inside
    : ∀ place ∈ said.annotations,
        StaysInside place.path ∧ 1 ≤ place.startLine ∧ place.startLine ≤ place.endLine
  summary
    : said.summary <+: (parts words).flatten ∧ bytesOf said.summary ≤ summaryMax
      ∧ ∀ longer, longer <+: (parts words).flatten → bytesOf longer ≤ summaryMax →
        longer.length ≤ said.summary.length

/-- Whether what is left out of some words, all in all, is told in numbers of 64 bits. -/
def CountsFit (words : List Word) : Prop :=
  ((reported words).getD {}).moreAnnotations + droppedPlaces words < 2 ^ 64
    ∧ ((reported words).getD {}).moreFailed + droppedTests words < 2 ^ 64

theorem asU64_lt {value : Json} {number : Nat} (read : asU64 value = some number)
    : number < 2 ^ 64 := by
  unfold asU64 at read
  split at read
  next =>
    simp only [parseU64, Option.ite_none_right_eq_some, Option.some.injEq] at read
    obtain ⟨⟨-, -, small⟩, rfl⟩ := read
    exact small
  next => cases read

instance (words : List Word) : Decidable (CountsFit words) :=
  inferInstanceAs (Decidable (_ ∧ _))

theorem countsOf_lt (value : Json)
    : (countsOf value).moreAnnotations < 2 ^ 64 ∧ (countsOf value).moreFailed < 2 ^ 64 := by
  have number (key : String) : (asU64 (index value key)).getD 0 < 2 ^ 64 := by
    cases read : asU64 (index value key) with
    | none => exact Nat.two_pow_pos 64
    | some number => exact asU64_lt read
  exact ⟨number "more_annotations", number "more_failed"⟩

/-- What a line says is a report of numbers of 64 bits, a place inside the repository, or something else. -/
theorem readWord_eq_some {json : JsonReader} {line : List Char} {word : Word} (read : readWord json line = some word)
    : (∀ counts, word = .report counts → counts.moreAnnotations < 2 ^ 64 ∧ counts.moreFailed < 2 ^ 64)
      ∧ ∀ place, word = Word.annotation place →
        StaysInside place.path ∧ 1 ≤ place.startLine ∧ place.startLine ≤ place.endLine := by
  simp only [readWord, bind, Option.bind_eq_some_iff] at read
  obtain ⟨rest, -, ⟨kind, text⟩, -, read⟩ := read
  dsimp only at read
  split at read
  all_goals try simp only [Option.bind_eq_some_iff, pure, Option.some.injEq] at read
  · obtain ⟨value, -, rfl⟩ := read
    exact ⟨fun counts same => Word.report.inj same ▸ countsOf_lt value, nofun⟩
  · obtain ⟨value, -, place, named, rfl⟩ := read
    exact ⟨nofun, fun other same => Word.annotation.inj same ▸ annotation_inside named⟩
  · obtain ⟨value, -, test, -, rfl⟩ := read
    exact ⟨nofun, nofun⟩
  · obtain ⟨part, -, rfl⟩ := read
    exact ⟨nofun, nofun⟩
  · cases read

theorem reported_lt (json : JsonReader) (lines : List (List Char))
    : ((reported (lines.filterMap (readWord json))).getD {}).moreAnnotations < 2 ^ 64
      ∧ ((reported (lines.filterMap (readWord json))).getD {}).moreFailed < 2 ^ 64 := by
  cases last : reported (lines.filterMap (readWord json)) with
  | none => exact ⟨Nat.two_pow_pos 64, Nat.two_pow_pos 64⟩
  | some counts =>
      obtain ⟨word, member, is_⟩ := List.mem_filterMap.mp (List.mem_of_getLast? last)
      obtain ⟨line, -, read⟩ := List.mem_filterMap.mp member
      cases word with
      | report own =>
          obtain rfl := Option.some.inj is_
          exact (readWord_eq_some read).1 own rfl
      | _ => cases is_

theorem places_inside {json : JsonReader} {lines : List (List Char)} {place : Annotation}
    (there : place ∈ places (lines.filterMap (readWord json)))
    : StaysInside place.path ∧ 1 ≤ place.startLine ∧ place.startLine ≤ place.endLine := by
  obtain ⟨word, member, is_⟩ := List.mem_filterMap.mp there
  obtain ⟨line, -, read⟩ := List.mem_filterMap.mp member
  cases word with
  | annotation own =>
      obtain rfl := Option.some.inj is_
      exact (readWord_eq_some read).2 own rfl
  | _ => cases is_

theorem finish_of_fit {words : List Word} (fit : CountsFit words)
    : ∃ counts, (kept words).finish = some { (kept words).said with counts }
        ∧ (counts.getD {}).moreAnnotations = ((reported words).getD {}).moreAnnotations + droppedPlaces words
        ∧ (counts.getD {}).moreFailed = ((reported words).getD {}).moreFailed + droppedTests words := by
  by_cases dropped : 0 < droppedPlaces words ∨ 0 < droppedTests words
  · refine ⟨some { (reported words).getD {} with
      moreAnnotations := ((reported words).getD {}).moreAnnotations + droppedPlaces words
      moreFailed := ((reported words).getD {}).moreFailed + droppedTests words }, ?_, rfl, rfl⟩
    have annotations : addU64 ((reported words).getD {}).moreAnnotations (droppedPlaces words) = some _ := if_pos fit.1
    have failed : addU64 ((reported words).getD {}).moreFailed (droppedTests words) = some _ := if_pos fit.2
    have told : 0 < (kept words).moreAnnotations ∨ 0 < (kept words).moreFailed := dropped
    rw [Reading.finish, if_pos told]
    change (addU64 ((reported words).getD {}).moreAnnotations (droppedPlaces words)).bind _ = _
    rw [annotations]
    change (addU64 ((reported words).getD {}).moreFailed (droppedTests words)).bind _ = _
    rw [failed]
    rfl
  · obtain ⟨noPlaces, noTests⟩ := not_or.mp dropped
    refine ⟨reported words, ?_, ?_, ?_⟩
    · rw [Reading.finish]
      exact if_neg dropped
    · omega
    · omega

theorem finish_of_not_fit {words : List Word} (over_ : ¬ CountsFit words)
    (small : ((reported words).getD {}).moreAnnotations < 2 ^ 64 ∧ ((reported words).getD {}).moreFailed < 2 ^ 64)
    : (kept words).finish = none := by
  have dropped : 0 < (kept words).moreAnnotations ∨ 0 < (kept words).moreFailed := by
    by_contra none_
    change ¬ (0 < droppedPlaces words ∨ 0 < droppedTests words) at none_
    refine over_ ⟨?_, ?_⟩ <;> omega
  rw [Reading.finish, if_pos dropped]
  change (addU64 ((reported words).getD {}).moreAnnotations (droppedPlaces words)).bind _ = _
  by_cases first : ((reported words).getD {}).moreAnnotations + droppedPlaces words < 2 ^ 64
  · have second : ¬ ((reported words).getD {}).moreFailed + droppedTests words < 2 ^ 64 := fun fits => over_ ⟨first, fits⟩
    rw [addU64, if_pos first]
    change (addU64 ((reported words).getD {}).moreFailed (droppedTests words)).bind _ = _
    rw [addU64, if_neg second]
    rfl
  · rw [addU64, if_neg first]
    rfl

/-- What a job says is held to its bounds exactly where what is left out is told in numbers of 64 bits and none
of its summaries goes on once one was cut: that is, begins with a character that what is left of the room has a
place for.
-/
theorem said_is_bounded_iff (json : JsonReader) (lines : List (List Char))
    : let words := lines.filterMap (readWord json)
      (∃ said, read json lines = some said ∧ Bounded words said)
        ↔ CountsFit words ∧ ClosedOnceCut width summaryMax (parts words) := by
  intro words
  have small := reported_lt json lines
  have run : read json lines = if Counted words then (kept words).finish else none := by
    rw [read, foldlM_take]
    change (if Counted words then some (kept words) else none).bind Reading.finish = _
    split <;> rfl
  by_cases fit : CountsFit words
  · have counted : Counted words := by
      obtain ⟨annotations, failed⟩ := fit
      constructor <;> omega
    obtain ⟨counts, told, leftOut⟩ := finish_of_fit fit
    rw [run, if_pos counted, told, and_iff_right fit, ← pour_eq_fitting_iff, ← summary_kept, eq_fitting_iff]
    simp only [← bytesOf_eq_roomOf]
    constructor
    · rintro ⟨said, same, bounded⟩
      obtain rfl := Option.some.inj same
      exact bounded.summary
    · intro summary
      exact ⟨_, rfl, ⟨rfl, rfl, leftOut,
        fun place there => places_inside (List.mem_of_mem_take there), summary⟩⟩
  · refine iff_of_false ?_ fun both => fit both.1
    rintro ⟨said, told, -⟩
    rw [run, finish_of_not_fit fit small, ite_self] at told
    cases told

-- A report that says it left out all there are

/-- The largest number of 64 bits, as a report gives it. -/
def fullReport : List Char :=
  "\x7b\"more_annotations\":18446744073709551615\x7d".toList

def onePlace : List Char :=
  "\x7b\"path\":\"a\",\"start_line\":1\x7d".toList

def fullReader : JsonReader where
  value text :=
    if text = fullReport then some (.object [("more_annotations", .number "18446744073709551615")])
    else if text = onePlace then some (.object [("path", .string "a"), ("start_line", .number "1")])
    else none
  text _ := none

/-- A job that says it left out as many places as a number can be, and then names one more than are kept, is not
held to its bounds: the count of what was left out overflows.
-/
theorem a_full_count_overflows
    : ¬ ∀ (json : JsonReader) (lines : List (List Char)),
        ∃ said, read json lines = some said ∧ Bounded (lines.filterMap (readWord json)) said := by
  intro claim
  have fit := ((said_is_bounded_iff fullReader (("::dagron-ci::report::".toList ++ fullReport)
    :: List.replicate 51 ("::dagron-ci::annotation::".toList ++ onePlace))).mp (claim _ _)).1
  revert fit
  decide +kernel

end Dagron.CiSaid
