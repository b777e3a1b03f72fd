import Dagron.Spec.Task

/-! Placeholders and conditions: what `{{ key }}` stands for in a scope, which task outputs a
condition names, and how a `when:` expression is decided.
-/

namespace Dagron.Spec

/-- What the conditions take from the language's floating-point numbers and from its JSON
reader and writer.
-/
structure Externals where
  Num
    : Type
  parseNum
    : List Char → Option Num
  le
    : Num → Num → Bool
  lt
    : Num → Num → Bool
  eq
    : Num → Num → Bool
  add
    : Num → Num → Num
  sub
    : Num → Num → Num
  mul
    : Num → Num → Num
  div
    : Num → Num → Num
  rem
    : Num → Num → Num
  isZero
    : Num → Bool
  /-- A result's text: a whole number has no fraction part, clamped to 64 bits. -/
  renderNum
    : Num → String
  parseJson
    : String → Except String Json
  renderJson
    : Json → String

def plainHost : Externals where
  Num := Int
  parseNum _ := none
  le first second := first ≤ second
  lt first second := first < second
  eq first second := first = second
  add := (· + ·)
  sub := (· - ·)
  mul := (· * ·)
  div := (· / ·)
  rem := (· % ·)
  isZero num := num = 0
  renderNum _ := ""
  parseJson _ := .error "expected value"
  renderJson _ := ""

-- Text

/-- The characters `trim` and `split_whitespace` take for white space. -/
def isSpace (char : Char) : Bool :=
  let code := char.toNat
  (9 ≤ code && code ≤ 13) || code == 0x20 || code == 0x85 || code == 0xA0 || code == 0x1680
    || (0x2000 ≤ code && code ≤ 0x200A) || code == 0x2028 || code == 0x2029
    || code == 0x202F || code == 0x205F || code == 0x3000

/-- The characters `is_ascii_whitespace` takes for white space. -/
def isAsciiSpace (char : Char) : Bool :=
  char == ' ' || char == '\t' || char == '\n' || char == '\x0c' || char == '\r'

def trimStart (text : List Char) : List Char :=
  text.dropWhile isSpace

def trimEnd (text : List Char) : List Char :=
  (text.reverse.dropWhile isSpace).reverse

def trim (text : List Char) : List Char :=
  trimEnd (trimStart text)

/-- What precedes and what follows the first occurrence of a pattern. -/
def splitOnce (pattern : List Char) : List Char → Option (List Char × List Char)
  | [] => if pattern.isEmpty then some ([], []) else none
  | char :: rest =>
      if pattern.isPrefixOf (char :: rest) then
        some ([], (char :: rest).drop pattern.length)
      else
        (splitOnce pattern rest).map (fun (before, after) => (char :: before, after))

theorem splitOnce_char {separator : Char} {front : List Char} (absent : separator ∉ front) (rest : List Char)
    : splitOnce [separator] (front ++ separator :: rest) = some (front, rest) := by
  induction front with
  | nil => simp [splitOnce]
  | cons char front ih =>
      rw [List.mem_cons, not_or] at absent
      simp [splitOnce, absent.1, ih absent.2]

theorem splitOnce_none {separator : Char} {text : List Char} (absent : separator ∉ text)
    : splitOnce [separator] text = none := by
  induction text with
  | nil => rfl
  | cons char rest ih =>
      rw [List.mem_cons, not_or] at absent
      simp [splitOnce, absent.1, ih absent.2]

def dropStart (pattern text : List Char) : Option (List Char) :=
  if pattern.isPrefixOf text then some (text.drop pattern.length) else none

def dropEnd (pattern text : List Char) : Option (List Char) :=
  (dropStart pattern.reverse text.reverse).map List.reverse

def splitWhitespace (text : List Char) : List (List Char) :=
  (text.splitOnP isSpace).filter (fun word => ¬ word.isEmpty)

-- Placeholders

/-- `a OP b` over numbers or names of numbers, or nothing where it is not that. -/
def evalArith (host : Externals) (expr : List Char) (ctx : Bindings) : Option String :=
  match splitWhitespace expr with
  | [first, op, second] =>
      let resolve (token : List Char) : Option host.Num :=
        ((ctx.get (String.ofList token)).bind (fun value => host.parseNum (trim value.toList)))
          <|> host.parseNum token
      (resolve first).bind fun a => (resolve second).bind fun b =>
        (match op with
          | ['+'] => some (host.add a b)
          | ['-'] => some (host.sub a b)
          | ['*'] => some (host.mul a b)
          | ['/'] => if host.isZero b then none else some (host.div a b)
          | ['%'] => if host.isZero b then none else some (host.rem a b)
          | _ => none).map host.renderNum
  | _ => none

/-- (substituteChars fuel) replaces the placeholders of a text no longer than (fuel). -/
def substituteChars (host : Externals) (ctx : Bindings) : Nat → List Char → List Char
  | 0, text => text
  | _, [] => []
  | fuel + 1, char :: rest =>
      match (if char = '{' then dropStart ['{'] rest else none).bind
        (splitOnce ['}', '}']) with
      | some (key, after) =>
          let name := trim key
          let value : List Char :=
            match ctx.get (String.ofList name) with
            | some value => value.toList
            | none =>
                match evalArith host name ctx with
                | some value => value.toList
                | none => ['{', '{'] ++ key ++ ['}', '}']
          value ++ substituteChars host ctx fuel after
      | none => char :: substituteChars host ctx fuel rest

/-- Replaces every `{{ key }}` by what the scope binds the key to, or by the value of the
arithmetic it holds; other placeholders stay as written.
-/
def substitute (host : Externals) (text : String) (ctx : Bindings) : String :=
  String.ofList (substituteChars host ctx text.length text.toList)

def outputRef (key : List Char) : Option (List Char) :=
  (dropStart "tasks.".toList (trim key)).bind (dropEnd ".output".toList)

/-- (whenOutputRefsChars fuel) lists the tasks whose outputs a text no longer than (fuel)
names, each once.
-/
def whenOutputRefsChars : Nat → List Char → List String → List String
  | 0, _, refs => refs
  | fuel + 1, text, refs =>
      match splitOnce ['{', '{'] text with
      | none => refs
      | some (_, after) =>
          match splitOnce ['}', '}'] after with
          | none => refs
          | some (key, rest) =>
              let refs :=
                match outputRef key with
                | some name =>
                    if name.isEmpty ∨ String.ofList name ∈ refs then refs
                    else refs ++ [String.ofList name]
                | none => refs
              whenOutputRefsChars fuel rest refs

/-- The tasks a condition names as `{{ tasks.<name>.output }}`. -/
def whenOutputRefs (cond : String) : List String :=
  whenOutputRefsChars cond.length cond.toList []

def whenRefsTaskOutputs (cond : String) : Bool :=
  ¬ (whenOutputRefs cond).isEmpty

-- Conditions

/-- Whether a quote that opened closes at a position: the quote again, before the end, white
space, a comma or a closing bracket.
-/
def closesAt (quote : Char) : List Char → Bool
  | char :: rest =>
      char == quote
        && (match rest with
          | [] => true
          | next :: _ => next == ' ' || next == '\t' || next == ']' || next == ',')
  | [] => false

/-- How many characters of a text precede the quote that closes it. -/
def closingQuote (quote : Char) : List Char → Option Nat
  | [] => none
  | char :: rest =>
      if closesAt quote (char :: rest) then some 0
      else (closingQuote quote rest).map (· + 1)

/-- (topLevelChars fuel) marks the characters of a text outside quotes and brackets, after a
previous character and inside so many brackets.
-/
def topLevelChars : Nat → Option Char → Nat → List Char → List Bool
  | 0, _, _, _ => []
  | _, _, _, [] => []
  | fuel + 1, previous, depth, char :: rest =>
      let opens := match previous with
        | none => true
        | some before => before == ' ' || before == '\t' || before == '[' || before == ','
      match (if (char == '\'' || char == '"') && opens then closingQuote char rest else none) with
      | some inside =>
          List.replicate (inside + 2) false
            ++ topLevelChars fuel (some char) depth (rest.drop (inside + 1))
      | none =>
          let depth' :=
            if char == '[' then depth + 1 else if char == ']' then depth - 1 else depth
          (depth == 0) :: topLevelChars fuel (some char) depth' rest

/-- For each character of a condition, whether it is outside quotes and brackets. -/
def topLevel (expr : List Char) : List Bool :=
  topLevelChars expr.length none 0 expr

/-- (splitWordChars fuel) splits a marked text at a word that stands alone between white
space at the top level; (part) is what came before, in reverse.
-/
def splitWordChars (word : List Char)
    : Nat → Option Char → List Char → List (Char × Bool) → List (List Char)
  | 0, _, part, text => [trim (part.reverse ++ text.map Prod.fst)]
  | _, _, part, [] => [trim part.reverse]
  | fuel + 1, previous, part, (char, top) :: rest =>
      let text := (char, top) :: rest
      let tail := text.drop word.length
      if word.isPrefixOf (text.map Prod.fst) then
        let before := previous.any isAsciiSpace
        let after := (tail.head?.map Prod.fst).any isAsciiSpace
        let last := (word.getLast?).or previous
        if before && after && top then
          trim part.reverse :: splitWordChars word fuel last [] tail
        else
          splitWordChars word fuel last ((text.take word.length).reverse.map Prod.fst ++ part)
            tail
      else
        splitWordChars word fuel (some char) (char :: part) rest

/-- A condition split at a word, its parts trimmed; the whole where the word is not there. -/
def splitWord (expr word : List Char) : List (List Char) :=
  splitWordChars word expr.length none [] (expr.zip (topLevel expr))

def splitCommas : List Char → List (Char × Bool) → List (List Char)
  | part, [] => [part.reverse]
  | part, (char, top) :: rest =>
      if char == ',' && top then part.reverse :: splitCommas [] rest
      else splitCommas (char :: part) rest

def unquote (item : List Char) : List Char :=
  let item := trim item
  match item with
  | [] => item
  | quote :: rest =>
      if (quote == '"' || quote == '\'') && ¬ rest.isEmpty && item.getLast? == some quote then
        rest.dropLast
      else item

/-- What precedes and what follows the first opening bracket at the top level. -/
def splitBracket : List (Char × Bool) → Option (List Char × List Char)
  | [] => none
  | (char, top) :: rest =>
      if char == '[' && top then some ([], rest.map Prod.fst)
      else (splitBracket rest).map (fun (before, after) => (char :: before, after))

/-- `X in [a, b]` and `X not in [a, b]`, or nothing where a condition is not that. -/
def evalMembership (host : Externals) (expr : List Char) : Option Bool :=
  if expr.getLast? ≠ some ']' then none
  else
    (splitBracket (expr.zip (topLevel expr))).bind fun (before, after) =>
      let head := trimEnd before
      let shape : Option (List Char × Bool) :=
        match dropEnd " not in".toList head with
        | some lhs => some (lhs, true)
        | none => (dropEnd " in".toList head).map (fun lhs => (lhs, false))
      shape.map fun (lhs, negate) =>
        let lhs := trim lhs
        let body := after.dropLast
        let items := (splitCommas [] (body.zip (topLevel body))).map unquote
        let found := (items.filter (fun item => ¬ (trim item).isEmpty)).any fun item =>
          match host.parseNum lhs, host.parseNum item with
          | some a, some b => host.eq a b
          | _, _ => lhs == item
        found != negate

/-- A comparison's decision: numeric where both sides are numbers, else of the texts, which
only `==` and `!=` compare.
-/
def evalComparison (host : Externals) (op lhs rhs : List Char) : Option Bool :=
  match host.parseNum lhs, host.parseNum rhs with
  | some a, some b =>
      match op with
      | ['<', '='] => some (host.le a b)
      | ['>', '='] => some (host.le b a)
      | ['<'] => some (host.lt a b)
      | ['>'] => some (host.lt b a)
      | ['=', '='] => some (host.eq a b)
      | ['!', '='] => some (!host.eq a b)
      | _ => none
  | _, _ =>
      match op with
      | ['=', '='] => some (lhs == rhs)
      | ['!', '='] => some (lhs != rhs)
      | _ => none

/-- The comparison operators, in the order they are looked for. -/
def comparisons : List (List Char) :=
  [['<', '='], ['>', '='], ['=', '='], ['!', '='], ['<'], ['>']]

/-- Decides a condition that is no `or`, no `and` and no membership test. -/
def evalSimple (host : Externals) (expr : List Char) : Except String Bool :=
  if (splitWord expr ['i', 'n']).length > 1 ∧ '[' ∈ expr then
    .error ("malformed membership test in when: '" ++ String.ofList expr
      ++ "' (expected `X in [a, b]`)")
  else
    match comparisons.findSome? (fun op => (splitOnce op expr).map (fun sides => (op, sides))) with
    | some (op, lhs, rhs) =>
        match evalComparison host op (trim lhs) (trim rhs) with
        | some decision => .ok decision
        | none => .error ("non-numeric operands for '" ++ String.ofList op ++ "' in when: '"
            ++ String.ofList expr ++ "'")
    | none =>
        .ok (¬ (expr = [] ∨ expr = "false".toList ∨ expr = "0".toList ∨ expr = "no".toList))

/-- Decides the parts of an `or`, the first true one ending it. -/
def anyTrue (eval : List Char → Except String Bool) : List (List Char) → Except String Bool
  | [] => .ok false
  | part :: rest => do if ← eval part then pure true else anyTrue eval rest

/-- Decides the parts of an `and`, the first false one ending it. -/
def allTrue (eval : List Char → Except String Bool) : List (List Char) → Except String Bool
  | [] => .ok true
  | part :: rest => do if ← eval part then allTrue eval rest else pure false

/-- (evalWhenChars fuel) decides a condition no longer than (fuel). -/
def evalWhenChars (host : Externals) : Nat → List Char → Except String Bool
  | 0, expr => evalSimple host (trim expr)
  | fuel + 1, expr =>
      let expr := trim expr
      let ors := splitWord expr ['o', 'r']
      if ors.length > 1 then anyTrue (evalWhenChars host fuel) ors
      else
        let ands := splitWord expr ['a', 'n', 'd']
        if ands.length > 1 then allTrue (evalWhenChars host fuel) ands
        else
          match evalMembership host expr with
          | some decision => .ok decision
          | none => evalSimple host expr

/-- Decides a `when:` expression: `or`, then `and`, then membership, then a comparison or a
bare value.
-/
def evalWhen (host : Externals) (expr : String) : Except String Bool :=
  evalWhenChars host expr.length expr.toList

/-- What becomes of a loop after an iteration that succeeded. -/
inductive RepeatDecision where
  | done
  | again (delaySecs : Nat)
  | fail (reason : String)
  deriving DecidableEq, Repr

/-- Whether a loop is over after an iteration with an output, goes round again, or has gone
round as often as it may.
-/
def RepeatSpec.decide (host : Externals) (loop : RepeatSpec) (output : String)
    (iteration : Nat) : RepeatDecision :=
  let ctx : Bindings :=
    [("output", String.ofList (trim output.toList)), ("attempt", toString iteration)]
  match evalWhen host (substitute host loop.untilCond ctx) with
  | .ok true => .done
  | .ok false =>
      if iteration < loop.maxIterations then .again loop.delaySecs
      else .fail ("repeat.until '" ++ loop.untilCond ++ "' not satisfied after "
        ++ toString iteration ++ " iterations; last output:\n" ++ output)
  | .error problem =>
      .fail ("repeat.until '" ++ loop.untilCond ++ "' failed to evaluate: " ++ problem)

end Dagron.Spec
