import Dagron.Library.Spans
import Dagron.Library.Utf8
import Dagron.Spec.Condition
import Mathlib.Algebra.Group.Nat.Defs

/-! Workflow commands read as a job prints them: what a step asks to have masked and annotated,
the masks of a text, and how the runner's own lines are masked.
-/

namespace Dagron.Ci

open Dagron.Library Dagron.Spec

-- Text

def bytes (text : String) : List UInt8 :=
  encodeChars text.toList

def newline : UInt8 :=
  10

def carriage : UInt8 :=
  13

/-- A text with an escape of three characters replaced by the one it stands for. -/
def unescapeOne (escape : Char × Char × Char) (char : Char) : List Char → List Char
  | first :: second :: third :: rest =>
      if (first, second, third) = escape then char :: unescapeOne escape char rest
      else first :: unescapeOne escape char (second :: third :: rest)
  | short => short

/-- A command's data, or where (property) one of its properties, as it was escaped. -/
def unescape (value : List Char) (property : Bool) : List Char :=
  let value := unescapeOne ('%', '0', 'A') '\n' (unescapeOne ('%', '0', 'D') '\r' value)
  let value := if property then
      unescapeOne ('%', '2', 'C') ',' (unescapeOne ('%', '3', 'A') ':' value)
    else value
  unescapeOne ('%', '2', '5') '%' value

/-- A command's data, of bytes that are no text, as it was escaped. -/
def unescapeBytes : List UInt8 → List UInt8
  | first :: second :: third :: rest =>
      if [first, second, third] = bytes "%0D" then carriage :: unescapeBytes rest
      else if [first, second, third] = bytes "%0A" then newline :: unescapeBytes rest
      else if [first, second, third] = bytes "%25" then bytes "%" ++ unescapeBytes rest
      else first :: unescapeBytes (second :: third :: rest)
  | short => short

def trimAscii (text : List UInt8) : List UInt8 :=
  let isAsciiSpace (byte : UInt8) : Bool :=
    byte == 32 || byte == 9 || byte == 10 || byte == 12 || byte == 13
  ((text.dropWhile isAsciiSpace).reverse.dropWhile isAsciiSpace).reverse

/-- What precedes and what follows the first occurrence of a pattern. -/
def find (needle : List UInt8) : List UInt8 → Option (List UInt8 × List UInt8)
  | [] => none
  | byte :: rest =>
      if needle.isPrefixOf (byte :: rest) then some ([], (byte :: rest).drop needle.length)
      else (find needle rest).map (fun (before, after) => (byte :: before, after))

/-- A whole number of 64 bits, as it is written in decimal digits after a plus sign or none. -/
def parseU64 (text : List Char) : Option Nat :=
  let digits := match text with
    | '+' :: rest => rest
    | _ => text
  if digits ≠ [] ∧ digits.all Char.isDigit then
    let value := digits.foldl (fun value digit => 10 * value + (digit.toNat - 48)) 0
    if value < 2 ^ 64 then some value else none
  else none

-- Masks

/-- What the commands read so far have asked for. -/
structure Commands where
  masks
    : List (List UInt8) := []
  workspace
    : Option (List Char) := none
  stopped
    : Option (List Char) := none
  annotations
    : Nat := 0
  debug
    : Bool := false

def annotationsMax : Nat :=
  50

def containerWorkspace : String :=
  "/github/workspace"

local instance lawfulBytes : LawfulBEq (List UInt8) :=
  inferInstance

/-- The values masked, and one more where it is none of them. -/
def addMask (masks : List (List UInt8)) (value : List UInt8) : List (List UInt8) :=
  if value ∈ masks then masks else masks ++ [value]

/-- A value as it is written, and as a command's data and its properties escape it. -/
def maskForms (line : List Char) : List (List Char) :=
  let escape (char : Char) (by_ : String) (text : List Char) : List Char :=
    text.flatMap (fun own => if own = char then by_.toList else [own])
  let data := escape '%' "%25" line
  [line, data, escape ',' "%2C" (escape ':' "%3A" data)]

def maskLines (value : List Char) : List (List Char) :=
  ((value.splitOnP (fun char => char == '\n' || char == '\r')).map trim).filter
    (fun line => !line.isEmpty)

/-- Masks each line of a value, in each form it may be written in. -/
def Commands.mask (commands : Commands) (value : List Char) : Commands :=
  { commands with
    masks := ((maskLines value).flatMap maskForms).foldl
      (fun masks form => addMask masks (encodeChars form)) commands.masks }

def Commands.maskBytes (commands : Commands) (value : List UInt8) : Commands :=
  let lines := ((unescapeBytes value).splitOnP
    (fun byte => byte == newline || byte == carriage)).map trimAscii
  { commands with
    masks := (lines.filter (fun line => !line.isEmpty)).foldl addMask commands.masks }

/-- (occurrences value at text) are the spans of a value in a text that starts at (at). -/
def occurrences (value : List UInt8) : Nat → List UInt8 → List (Nat × Nat)
  | _, [] => []
  | at_, byte :: rest =>
      if value.isPrefixOf (byte :: rest) then
        (at_, at_ + value.length) :: occurrences value (at_ + 1) rest
      else occurrences value (at_ + 1) rest

def shownMask : List UInt8 :=
  bytes "***"

/-- A text with every masked value replaced, those that overlap as one. -/
def Commands.masked (commands : Commands) (text : List UInt8) : List UInt8 :=
  let spans := (commands.masks.filter (fun value => !value.isEmpty)).flatMap
    (fun value => occurrences value 0 text)
  let inOrder (first second : Nat × Nat) : Bool :=
    first.1 < second.1 || first.1 == second.1 && first.2 ≤ second.2
  cutSpans shownMask 0 (mergeSpans (spans.mergeSort inOrder)) text

/-- A text of characters with every masked value replaced. -/
def Commands.maskText (commands : Commands) (text : List Char) : List Char :=
  fromUtf8Lossy (commands.masked (encodeChars text))

/-- The commands of a job in a workspace, with some values masked from the start. -/
def Commands.new (workspace : Option (List Char)) (masks : List (List Char)) : Commands :=
  let dropSlashes (path : List Char) : List Char :=
    (path.reverse.dropWhile (· == '/')).reverse
  masks.foldl Commands.mask { workspace := workspace.map dropSlashes }

/-- Whether a line is not printed at all: a debug line where debug is off. -/
def Commands.hides (commands : Commands) (line : List UInt8) : Bool :=
  let isAsciiSpace (byte : UInt8) : Bool :=
    byte == 32 || byte == 9 || byte == 10 || byte == 12 || byte == 13
  !commands.debug && commands.stopped.isNone
    && (bytes "::debug::").isPrefixOf (line.dropWhile isAsciiSpace)

-- Annotations

/-- What a command asks to have annotated. -/
structure Annotation where
  path
    : List Char
  startLine
    : Nat
  endLine
    : Nat
  level
    : String
  title
    : List Char
  message
    : List Char
  deriving DecidableEq

/-- The properties of an annotation's command that have been read. -/
structure Properties where
  file
    : Option (List Char) := none
  start
    : Option Nat := none
  stop
    : Option Nat := none
  title
    : List Char := []

def Properties.read (read : Properties) (property : List Char) : Properties :=
  match splitOnce ['='] property with
  | none => read
  | some (key, value) =>
      let value := unescape (trim value) true
      let key := trim key
      if key = "file".toList then { read with file := some value }
      else if key = "line".toList then { read with start := parseU64 value }
      else if key = "endLine".toList then { read with stop := parseU64 value }
      else if key = "title".toList then { read with title := value }
      else read

/-- A file's path inside the job's workspace, or inside a container's view of it. -/
def relativePath (workspace : Option (List Char)) (file : List Char) : List Char :=
  let under := [workspace, some containerWorkspace.toList].findSome? fun own =>
    own.bind fun own => (dropStart own file).bind (dropStart ['/'])
  let file := under.getD file
  (dropStart ['.', '/'] file).getD file

/-- The level of an annotation that a command's name asks for. -/
def annotationLevel (name : List Char) : Option String :=
  if name = "error".toList then some "failure"
  else if name = "warning".toList then some "warning"
  else if name = "notice".toList then some "notice"
  else none

/-- What a command asks to have annotated, before any mask. -/
def readAnnotation (workspace : Option (List Char)) (command : List Char) : Option Annotation :=
  (dropStart "::".toList command).bind fun rest =>
    (splitOnce "::".toList rest).bind fun (head, message) =>
      let (name, properties) := (splitOnce [' '] head).getD (head, [])
      (annotationLevel name).map fun level =>
        let read := (properties.splitOn ',').foldl Properties.read {}
        let start := (read.start.filter (1 ≤ ·)).getD 1
        { path := (read.file.map (relativePath workspace)).getD ".github".toList
          startLine := start
          endLine := (read.stop.filter (start ≤ ·)).getD start
          level := level
          title := read.title
          message := unescape message false }

def Commands.maskAnnotation (commands : Commands) ( annotation : Annotation) : Annotation :=
  { annotation with
    path := commands.maskText annotation.path
    title := commands.maskText annotation.title
    message := commands.maskText annotation.message }

/-- What a command asks to have annotated, no more than a job may have, and the commands after
it.
-/
def Commands.annotation (commands : Commands) (command : List Char)
    : Option Annotation × Commands :=
  match readAnnotation commands.workspace command with
  | none => (none, commands)
  | some annotation =>
      if annotationsMax ≤ commands.annotations then (none, commands)
      else
        (some ( commands.maskAnnotation annotation),
          { commands with annotations := commands.annotations + 1 })

def jsonChar (char : Char) : List Char :=
  let hex (digit : Nat) : Char := "0123456789abcdef".toList.getD digit '0'
  if char = '"' then ['\\', '"']
  else if char = '\\' then ['\\', '\\']
  else if char = '\n' then ['\\', 'n']
  else if char = '\r' then ['\\', 'r']
  else if char = '\t' then ['\\', 't']
  else if char.toNat = 8 then ['\\', 'b']
  else if char.toNat = 12 then ['\\', 'f']
  else if char.toNat < 32 then ['\\', 'u', '0', '0', hex (char.toNat / 16), hex (char.toNat % 16)]
  else [char]

def jsonText (text : List Char) : List Char :=
  ['"'] ++ text.flatMap jsonChar ++ ['"']

def Annotation.render ( annotation : Annotation) : List UInt8 :=
  let field (key : String) (value : List Char) : List Char :=
    jsonText key.toList ++ [':'] ++ value
  let number (value : Nat) : List Char := (toString value).toList
  bytes "::dagron-ci::annotation::" ++ encodeChars (['\x7b']
    ++ field "end_line" (number annotation.endLine) ++ [',']
    ++ field "level" (jsonText annotation.level.toList) ++ [',']
    ++ field "message" (jsonText annotation.message) ++ [',']
    ++ field "path" (jsonText annotation.path) ++ [',']
    ++ field "start_line" (number annotation.startLine) ++ [',']
    ++ field "title" (jsonText annotation.title) ++ ['\x7d'])

-- Lines

def maskAsked (line : List UInt8) : Option (List Char) :=
  dropStart "::add-mask::".toList (trim (fromUtf8Lossy line))

/-- The commands after a line that asks to have a value masked. -/
def Commands.obeyMask (commands : Commands) (line : List UInt8) (value : List Char) : Commands :=
  if isUtf8 line then commands.mask (unescape value false)
  else commands.maskBytes (((find (bytes "::add-mask::") line).map Prod.snd).getD
    (line.drop (bytes "::add-mask::").length))

/-- What a line, without its end, is before any mask: what is shown of it, the annotation it asks
for, and the commands after it.
-/
def Commands.obey (commands : Commands) (line : List UInt8)
    : List UInt8 × Option Annotation × Commands :=
  let command := trim (fromUtf8Lossy line)
  match commands.stopped with
  | some token =>
      if command = "::".toList ++ token ++ "::".toList then
        (line, none, { commands with stopped := none })
      else (line, none, commands)
  | none =>
      match maskAsked line with
      | some value => (bytes "::add-mask::***", none, commands.obeyMask line value)
      | none =>
          match dropStart "::stop-commands::".toList command with
          | some token =>
              let token := trim token
              (line, none, if token.isEmpty then commands else { commands with stopped := some token })
          | none =>
              let ( annotation, commands) := commands.annotation command
              (line, annotation, commands)

/-- A line, without its end, as it is printed, the annotation it asks for, and the commands after
it.
-/
def Commands.line (commands : Commands) (line : List UInt8)
    : List UInt8 × Option Annotation × Commands :=
  let (shown, annotation, commands) := commands.obey line
  (commands.masked shown, annotation, commands)

/-- The kinds of the runner's own lines that are printed as they are. -/
def asTheyAre : List String :=
  ["result", "job", "report", "annotation", "failed", "summary", "cancelled"]

/-- One of the runner's own lines, as it is printed: masked only where a step's words are in
it.
-/
def Commands.ownLine (commands : Commands) (line : List UInt8) : List UInt8 :=
  let protocol := bytes "::dagron-ci::"
  if protocol.isPrefixOf line then
    match find (bytes "::") (line.drop protocol.length) with
    | none => line
    | some (kind, words) =>
        let kept := protocol.length + kind.length + 2
        if kind ∈ asTheyAre.map bytes then line
        else if kind = bytes "step" then
          match find (bytes "::start::") words with
          | none => line
          | some (before, _) =>
              let from_ := kept + before.length + (bytes "::start::").length
              line.take from_ ++ commands.masked (line.drop from_)
        else line.take kept ++ commands.masked (line.drop kept)
  else commands.masked line

end Dagron.Ci
