import Dagron.CiExpr.Parse
import Dagron.Library.Slices
import Dagron.Library.Results

/-! The tokens of a text read from its bytes, as the text has them: places are of bytes, and what a token
has of the text is cut out between two of them. No cut is inside a character, no loop is endless, and the
tokens are those of the text's characters.
-/

namespace Dagron.CiExpr

open Dagron.Spec Dagron.Library

-- The readers

/-- How a reader stops short: with an error, at a cut inside a character, or never. -/
inductive Stop where
  | error (error : Error)
  | panic
  | endless
  deriving DecidableEq

def slice (bytes : List UInt8) (start stop : Nat) : Except Stop (List UInt8) :=
  match textPart bytes start stop with
  | some part => .ok part
  | none => .error .panic

/-- What a string holds from a place on, and where it ends. -/
def quotedFrom (bytes : List UInt8) (at_ start : Nat) (held : Text) : Except Stop (Text × Nat) :=
  match _rest : textPart bytes start bytes.length with
  | none => .error (.error ⟨at_, "a string is not closed with a '"⟩)
  | some rest =>
      match _quote : rest.findIdx? (· = 39) with
      | none => .error (.error ⟨at_, "a string is not closed with a '"⟩)
      | some quote => do
          let part ← slice rest 0 quote
          let held := held ++ fromUtf8Lossy part
          let past := start + quote + 1
          let after ← slice bytes past bytes.length
          -- Two quotes are one, inside the string.
          if after.head? = some 39 then
            quotedFrom bytes at_ (past + 1) (held ++ ['\''])
          else .ok (held, past)
  termination_by bytes.length - start
  decreasing_by
    have inside := (List.findIdx?_eq_some_iff_getElem.mp _quote).1
    have long := length_of_textPart _rest
    omega

/-- Whether a sign at a place is an exponent's, in a number that begins at another. -/
def exponentSign (bytes : List UInt8) (start place : Nat) (char : Char) : Except Stop Bool :=
  if (char == '+' || char == '-')
      && (bytes[place - 1]?).any (fun last => asChar last == 'e' || asChar last == 'E') then do
    let seen ← slice bytes start place
    .ok (!holds ['0', 'x'] (fromUtf8Lossy seen) && !holds ['0', 'X'] (fromUtf8Lossy seen))
  else .ok false

def numberEnd (bytes : List UInt8) (start place : Nat) : Except Stop Nat :=
  match _here : bytes[place]? with
  | none => .ok place
  | some byte => do
      let char := asChar byte
      let sign ← exponentSign bytes start place char
      if char.isAlphanum || char == '.' || sign then numberEnd bytes start (place + 1) else .ok place
  termination_by bytes.length - place
  decreasing_by
    have inside := (List.getElem?_eq_some_iff.mp _here).1
    omega

/-- Where a name ends, some of which is before a place. -/
def nameEnd (bytes : List UInt8) (place : Nat) : Nat :=
  match _here : bytes[place]? with
  | none => place
  | some byte =>
      let char := asChar byte
      if char.isAlphanum || char == '_' || char == '-' then nameEnd bytes (place + 1) else place
  termination_by bytes.length - place
  decreasing_by
    have inside := (List.getElem?_eq_some_iff.mp _here).1
    omega

variable (ext : Externals)

def twoOp (two : List UInt8) : Option Op :=
  if two = [61, 61] then some .equal
  else if two = [33, 61] then some .notEqual
  else if two = [60, 61] then some .lessOrEqual
  else if two = [62, 61] then some .greaterOrEqual
  else if two = [38, 38] then some .and
  else if two = [124, 124] then some .or
  else none

def numberBytes (bytes : List UInt8) (at_ : Nat) : Except Stop (Token ext.Num × Nat) := do
  let stop ← numberEnd bytes at_ (at_ + 1)
  let text ← slice bytes at_ stop
  match parseNumber ext (fromUtf8Lossy text) with
  | some num => .ok (.number num, stop - at_)
  | none =>
      .error (.error ⟨at_, "\"" ++ String.ofList (fromUtf8Lossy text) ++ "\" is not a number"⟩)

def nameBytes (bytes : List UInt8) (at_ : Nat) : Except Stop (Token ext.Num × Nat) := do
  let stop := nameEnd bytes (at_ + 1)
  let name ← slice bytes at_ stop
  .ok (.name (fromUtf8Lossy name), stop - at_)

/-- The error at a place of a text where no token begins. -/
def unknownBytes (bytes : List UInt8) (at_ : Nat) (char : Char) : Except Stop (Token ext.Num × Nat) := do
  let rest ← slice bytes at_ bytes.length
  let shown := (fromUtf8Lossy rest).head?.getD char
  .error (.error ⟨at_, String.ofList (ext.debug shown) ++ " is not part of an expression"⟩)

/-- The token at a place of a text, whose byte there looks like a character, and how many bytes it has. -/
def tokenBytes (bytes : List UInt8) (at_ : Nat) (char : Char) : Except Stop (Token ext.Num × Nat) :=
  let two := (textPart bytes at_ (at_ + 2)).getD []
  match char with
  | '(' => .ok (.open_, 1)
  | ')' => .ok (.close, 1)
  | '[' => .ok (.openIndex, 1)
  | ']' => .ok (.closeIndex, 1)
  | ',' => .ok (.comma, 1)
  | '*' => .ok (.star, 1)
  | '\'' => do
      let (held, past) ← quotedFrom bytes at_ (at_ + 1) []
      .ok (.text held, past - at_)
  | '"' =>
      .error (.error
        ⟨at_, "a string is written in single quotes: 'text', and '' for a quote in it"⟩)
  | char =>
      match twoOp two with
      | some op => .ok (.op op, 2)
      | none =>
          if char = '<' then .ok (.op .less, 1)
          else if char = '>' then .ok (.op .greater, 1)
          else if char = '!' then .ok (.not, 1)
          else if beginsNumber char (bytes[at_ + 1]?.map asChar) then numberBytes ext bytes at_
          else if char = '.' then .ok (.dot, 1)
          else if char.isAlpha || char == '_' then nameBytes ext bytes at_
          else unknownBytes ext bytes at_ char

/-- The tokens of a text from a place on, which are read in so many rounds. -/
def tokensRounds (bytes : List UInt8) : Nat → Nat → Except Stop (Tokens ext.Num)
  | 0, _ => .error .endless
  | rounds + 1, at_ =>
      match bytes[at_]? with
      | none => .ok []
      | some byte =>
          let char := asChar byte
          if char = ' ' ∨ char = '\t' ∨ char = '\r' ∨ char = '\n' then tokensRounds bytes rounds (at_ + 1)
          else do
            let (token, len) ← tokenBytes ext bytes at_ char
            let more ← tokensRounds bytes rounds (at_ + len)
            .ok ((at_, token) :: more)

-- What the readers come to

theorem slice_encodeChars (before part after : List Char)
    : slice (encodeChars (before ++ part ++ after)) (bytesOf before) (bytesOf (before ++ part))
      = .ok (encodeChars part) := by
  rw [slice, bytesOf_append, textPart_encodeChars]

theorem textPart_rest (before after : List Char)
    : textPart (encodeChars (before ++ after)) (bytesOf before) (encodeChars (before ++ after)).length
      = some (encodeChars after) := by
  have whole := textPart_encodeChars before after []
  rw [List.append_nil, ← bytesOf_append] at whole
  exact whole

theorem fails_of_high {test : Char → Bool} (ascii : ∀ char, test char = true → char.toNat < 128)
    {char : Char} (high : 128 ≤ char.toNat)
    : test char = false := by
  cases passed : test char with
  | false => rfl
  | true =>
      have low := ascii char passed
      omega

theorem toNat_lt_of_isAlphanum {char : Char} (alphanum : char.isAlphanum = true)
    : char.toNat < 128 := by
  delta Char.isAlphanum Char.isAlpha Char.isUpper Char.isLower at alphanum
  simp only [Char.isDigit, Bool.or_eq_true, Bool.and_eq_true, decide_eq_true_eq, ge_iff_le, UInt32.le_iff_toNat_le] at alphanum
  have value : char.val.toNat = char.toNat := rfl
  simp at alphanum
  omega

theorem nameEnd_eq (before rest : List Char)
    : nameEnd (encodeChars (before ++ rest)) (bytesOf before)
      = bytesOf (before ++ rest.takeWhile fun char => char.isAlphanum || char == '_' || char == '-') := by
  have ascii (char : Char) (passed : (char.isAlphanum || char == '_' || char == '-') = true)
      : char.toNat < 128 := by
    rw [Bool.or_eq_true, Bool.or_eq_true, beq_iff_eq, beq_iff_eq] at passed
    rcases passed with (alphanum | rfl) | rfl
    · exact toNat_lt_of_isAlphanum alphanum
    · decide
    · decide
  induction rest generalizing before with
  | nil =>
      rw [nameEnd]
      split <;> rename_i found
      · rw [List.takeWhile_nil, List.append_nil]
      · rw [List.append_nil, byte_at_end] at found
        cases found
  | cons char rest ih =>
      obtain ⟨byte, there, looks⟩ := byte_at before char rest
      rw [nameEnd]
      split <;> rename_i found
      · rw [there] at found
        cases found
      · obtain rfl := Option.some.inj (there.symm.trans found)
        rcases looks with ⟨low, looks⟩ | ⟨high, looks⟩
        · simp only [looks]
          rw [List.takeWhile_cons]
          split <;> rename_i passed
          · have further := ih (before ++ [char])
            rw [bytesOf_append, bytesOf_ascii_cons low, bytesOf_nil, List.append_assoc, List.append_assoc]
              at further
            exact further
          · rw [List.append_nil]
        · have fails := fails_of_high ascii looks
          have fails' := fails_of_high ascii high
          simp only [fails, List.takeWhile_cons, fails']
          rw [if_neg (by decide), if_neg (by decide), List.append_nil]

/-- Whether a sign after some of a number is an exponent's. -/
def signAfter (seen : Text) (char : Char) : Bool :=
  (char == '+' || char == '-') && seen.getLast?.any (fun last => last == 'e' || last == 'E')
    && !holds ['0', 'x'] seen && !holds ['0', 'X'] seen

theorem exponentSign_eq (before seen rest : List Char) (some_ : seen ≠ [])
    (ascii : ∀ char ∈ seen, char.toNat < 128) (char : Char)
    : exponentSign (encodeChars (before ++ seen ++ rest)) (bytesOf before) (bytesOf (before ++ seen)) char
      = .ok (signAfter seen char) := by
  obtain ⟨init, last, rfl⟩ := (List.eq_nil_or_concat' seen).resolve_left some_
  have low := ascii last (List.mem_append_right _ List.mem_cons_self)
  obtain ⟨byte, there, looks⟩ := byte_at (before ++ init) last rest
  have place : bytesOf (before ++ (init ++ [last])) - 1 = bytesOf (before ++ init) := by
    rw [← List.append_assoc, bytesOf_append, bytesOf_ascii_cons low, bytesOf_nil]
    rfl
  have whole : before ++ (init ++ [last]) ++ rest = before ++ init ++ last :: rest := by simp
  have looks' : asChar byte = last := by
    rcases looks with ⟨-, looks⟩ | ⟨high, -⟩
    · exact looks
    · omega
  have prev : ((encodeChars (before ++ (init ++ [last]) ++ rest))[bytesOf (before ++ (init ++ [last])) - 1]?).any
      (fun last => asChar last == 'e' || asChar last == 'E') = (last == 'e' || last == 'E') := by
    rw [place, whole, there, Option.any_some, looks']
  have last_ : (init ++ [last]).getLast?.any (fun last => last == 'e' || last == 'E') = (last == 'e' || last == 'E') := by
    rw [List.getLast?_concat, Option.any_some]
  rw [exponentSign, prev, slice_encodeChars, signAfter, last_]
  split <;> rename_i test
  · change Except.ok _ = _
    rw [fromUtf8Lossy_encodeChars, test, Bool.true_and]
  · rw [Bool.not_eq_true] at test
    rw [test, Bool.false_and, Bool.false_and]

/-- Whether a number goes on with a character after some of it. -/
def goesOn (seen : Text) (char : Char) : Bool :=
  char.isAlphanum || char == '.' || signAfter seen char

theorem numberOf_cons (seen : Text) (char : Char) (rest : Text)
    : numberOf seen (char :: rest) = if goesOn seen char then numberOf (seen ++ [char]) rest else seen :=
  rfl

theorem toNat_lt_of_goesOn {seen : Text} {char : Char} (on : goesOn seen char = true)
    : char.toNat < 128 := by
  rw [goesOn, Bool.or_eq_true, Bool.or_eq_true, beq_iff_eq] at on
  rcases on with (alphanum | rfl) | sign
  · exact toNat_lt_of_isAlphanum alphanum
  · decide
  · simp only [signAfter, Bool.and_eq_true, Bool.or_eq_true, beq_iff_eq] at sign
    rcases sign.1.1.1 with rfl | rfl
    · decide
    · decide

theorem numberEnd_eq (before seen rest : List Char) (some_ : seen ≠ [])
    (ascii : ∀ char ∈ seen, char.toNat < 128)
    : numberEnd (encodeChars (before ++ seen ++ rest)) (bytesOf before) (bytesOf (before ++ seen))
      = .ok (bytesOf (before ++ numberOf seen rest)) := by
  induction rest generalizing seen with
  | nil =>
      rw [numberEnd]
      split <;> rename_i found
      · rfl
      · rw [List.append_nil, byte_at_end] at found
        cases found
  | cons char rest ih =>
      obtain ⟨byte, there, looks⟩ := byte_at (before ++ seen) char rest
      rw [numberEnd]
      split <;> rename_i found
      · rw [there] at found
        cases found
      · obtain rfl := Option.some.inj (there.symm.trans found)
        dsimp only
        rw [exponentSign_eq before seen (char :: rest) some_ ascii, numberOf_cons]
        change (if goesOn seen (asChar byte) then _ else _) = _
        rcases looks with ⟨low, looks⟩ | ⟨high, looks⟩
        · rw [looks]
          split <;> rename_i on
          · have ascii' : ∀ other ∈ seen ++ [char], other.toNat < 128 := by
              intro other member
              rcases List.mem_append.mp member with member | member
              · exact ascii other member
              · rw [List.mem_singleton.mp member]
                exact low
            have further := ih (seen ++ [char]) (by simp) ascii'
            rw [← List.append_assoc before, bytesOf_append, bytesOf_ascii_cons low, bytesOf_nil,
              List.append_assoc (before ++ seen)] at further
            exact further
          · rfl
        · rw [fails_of_high (fun char => toNat_lt_of_goesOn) looks, fails_of_high (fun char => toNat_lt_of_goesOn) high]
          rfl

-- Strings

theorem quotedText_append {front : Text} (plain : '\'' ∉ front) (rest : Text)
    : quotedText (front ++ rest)
      = (quotedText rest).map fun (text, count) => (front ++ text, count + front.length) := by
  induction front with
  | nil =>
      rw [List.nil_append]
      cases quotedText rest <;> rfl
  | cons char front ih =>
      have other : char ≠ '\'' := fun same => plain (same ▸ List.mem_cons_self)
      have more := ih fun member => plain (List.mem_cons_of_mem _ member)
      rw [List.cons_append, quotedText, more]
      · cases quotedText rest <;> rfl
      · exact fun _ same _ => other same
      · exact other

theorem quotedText_eq_none {text : Text} (plain : '\'' ∉ text)
    : quotedText text = none := by
  have whole := quotedText_append plain []
  rw [List.append_nil] at whole
  exact whole

theorem quote_not_mem {text : List Char} (plain : '\'' ∉ text)
    : (39 : UInt8) ∉ encodeChars text := by
  intro member
  obtain ⟨char, listed, inside⟩ := List.mem_flatMap.mp member
  have same : char.toNat = '\''.toNat := toNat_of_mem_encode (by decide) inside
  exact plain (Char.toNat_inj.mp same ▸ listed)

theorem findIdx_plain {front : List Char} (plain : '\'' ∉ front)
    : (encodeChars front).findIdx? (· = 39) = none := by
  rw [List.findIdx?_eq_none_iff]
  exact fun byte member => decide_eq_false fun same => quote_not_mem plain (same ▸ member)

theorem findIdx_quote {front : List Char} (plain : '\'' ∉ front) (rest : List Char)
    : (encodeChars (front ++ '\'' :: rest)).findIdx? (· = 39) = some (bytesOf front) := by
  have quote : encodeChars ('\'' :: rest) = 39 :: encodeChars rest := rfl
  rw [encodeChars_append, List.findIdx?_append, findIdx_plain plain, quote, List.findIdx?_cons]
  exact congrArg some (Nat.zero_add _)

theorem head_quote_iff {text : List Char}
    : (encodeChars text).head? = some 39 ↔ ∃ rest, text = '\'' :: rest := by
  constructor
  · intro first
    cases text with
    | nil => cases first
    | cons char rest =>
        obtain ⟨lead, conts, encoded, -⟩ := encode_eq_cons char
        rw [encodeChars, List.flatMap_cons, encoded, List.cons_append, List.head?_cons] at first
        have inside : (39 : UInt8) ∈ String.utf8EncodeChar char := by
          rw [encoded, Option.some.inj first]
          exact List.mem_cons_self
        have same : char.toNat = '\''.toNat := toNat_of_mem_encode (by decide) inside
        exact ⟨rest, by rw [Char.toNat_inj.mp same]⟩
  · rintro ⟨rest, rfl⟩
    rfl

/-- What a reader of bytes comes to at the end of a string. -/
def quotedEnd (at_ : Nat) (held before rest : Text) : Except Stop (Text × Nat) :=
  match quotedText rest with
  | some (text, count) => .ok (held ++ text, bytesOf (before ++ rest.take count))
  | none => .error (.error ⟨at_, "a string is not closed with a '"⟩)

theorem quotedEnd_of_closed (at_ : Nat) (held before : Text) {front after : Text} (plain : '\'' ∉ front)
    (closed : ∀ rest, after ≠ '\'' :: rest)
    : quotedEnd at_ held before (front ++ '\'' :: after)
      = .ok (held ++ front, bytesOf (before ++ front ++ ['\''])) := by
  have ends : quotedText ('\'' :: after) = some ([], 1) := by
    rw [quotedText]
    exact fun rest same => closed rest same
  have taken : (front ++ '\'' :: after).take (1 + front.length) = front ++ ['\''] := by
    rw [Nat.add_comm, List.take_length_add_append]
    rfl
  rw [quotedEnd, quotedText_append plain, ends]
  dsimp only [Option.map_some]
  rw [taken, List.append_nil, List.append_assoc]

theorem quotedEnd_of_doubled (at_ : Nat) (held before : Text) {front : Text} (plain : '\'' ∉ front)
    (more : Text)
    : quotedEnd at_ held before (front ++ '\'' :: '\'' :: more)
      = quotedEnd at_ (held ++ front ++ ['\'']) (before ++ front ++ ['\'', '\'']) more := by
  rw [quotedEnd, quotedText_append plain, quotedText, quotedEnd]
  cases quotedText more with
  | none => rfl
  | some read =>
      obtain ⟨text, count⟩ := read
      have taken : (front ++ '\'' :: '\'' :: more).take (count + 2 + front.length)
          = front ++ '\'' :: '\'' :: more.take count := by
        rw [Nat.add_comm, List.take_length_add_append]
        rfl
      dsimp only [Option.map_some]
      rw [taken]
      simp

theorem quotedFrom_eq {bound : Nat} (at_ : Nat) (held before rest : Text) (within : rest.length ≤ bound)
    : quotedFrom (encodeChars (before ++ rest)) at_ (bytesOf before) held
      = quotedEnd at_ held before rest := by
  induction bound generalizing held before rest with
  | zero =>
      obtain rfl := List.length_eq_zero_iff.mp (Nat.le_zero.mp within)
      rw [quotedFrom]
      split <;> rename_i found
      · rfl
      · obtain rfl := Option.some.inj ((textPart_rest before []).symm.trans found)
        rfl
  | succ bound ih =>
      rw [quotedFrom]
      split <;> rename_i found
      · rw [textPart_rest] at found
        cases found
      · obtain rfl := Option.some.inj ((textPart_rest before rest).symm.trans found)
        by_cases quoted : '\'' ∈ rest
        · obtain ⟨front, after, rfl, plain⟩ := List.eq_append_cons_of_mem quoted
          have taken : slice (encodeChars (front ++ '\'' :: after)) 0 (bytesOf front)
              = .ok (encodeChars front) := by
            have cut := slice_encodeChars [] front ('\'' :: after)
            exact cut
          have past : bytesOf before + bytesOf front + 1 = bytesOf (before ++ front ++ ['\'']) := by
            rw [bytesOf_append, bytesOf_append]
            rfl
          have whole : before ++ (front ++ '\'' :: after) = before ++ front ++ ['\''] ++ after := by simp
          have follows : slice (encodeChars (before ++ (front ++ '\'' :: after)))
              (bytesOf (before ++ front ++ ['\'']))
              (encodeChars (before ++ (front ++ '\'' :: after))).length = .ok (encodeChars after) := by
            rw [slice, whole, textPart_rest]
          split <;> rename_i at_quote
          · rw [findIdx_quote plain] at at_quote
            cases at_quote
          · obtain rfl := Option.some.inj ((findIdx_quote plain after).symm.trans at_quote)
            rw [taken]
            change (slice _ _ _ >>= _) = _
            rw [past, follows, fromUtf8Lossy_encodeChars]
            change (if _ then _ else _) = _
            split <;> rename_i next
            · obtain ⟨more, rfl⟩ := head_quote_iff.mp next
              have shorter : more.length ≤ bound := by
                rw [List.length_append, List.length_cons, List.length_cons] at within
                omega
              have further := ih (held ++ front ++ ['\'']) (before ++ front ++ ['\'', '\'']) more shorter
              have place : bytesOf (before ++ front ++ ['\'', '\''])
                  = bytesOf (before ++ front ++ ['\'']) + 1 := by
                rw [← past, bytesOf_append, bytesOf_append]
                rfl
              have same : before ++ front ++ ['\'', '\''] ++ more
                  = before ++ (front ++ '\'' :: '\'' :: more) := by simp
              rw [quotedEnd_of_doubled at_ held before plain, ← further, place, same]
            · have closed (rest : Text) : after ≠ '\'' :: rest :=
                fun same => next (head_quote_iff.mpr ⟨rest, same⟩)
              exact (quotedEnd_of_closed at_ held before plain closed).symm
        · rw [quotedEnd, quotedText_eq_none quoted]
          split <;> rename_i at_quote
          · rfl
          · rw [findIdx_plain quoted] at at_quote
            cases at_quote

-- Operators, numbers and names

def twoChars : Char → Text → Option Op
  | '=', '=' :: _ => some .equal
  | '!', '=' :: _ => some .notEqual
  | '<', '=' :: _ => some .lessOrEqual
  | '>', '=' :: _ => some .greaterOrEqual
  | '&', '&' :: _ => some .and
  | '|', '|' :: _ => some .or
  | _, _ => none

theorem encodeChars_inj {first second : List Char} (same : encodeChars first = encodeChars second)
    : first = second := by
  obtain ⟨more, rfl⟩ := prefix_of_encodeChars_prefix ⟨[], (List.append_nil _).trans same⟩
  obtain ⟨rest, back⟩ := prefix_of_encodeChars_prefix ⟨[], (List.append_nil _).trans same.symm⟩
  have none_ : more = [] := by
    have long := congrArg List.length back
    simp only [List.length_append] at long
    exact List.length_eq_zero_iff.mp (by omega)
  rw [none_, List.append_nil]

theorem two_iff (before : List Char) (char : Char) (rest : List Char) {first second : Char}
    (low : first.toNat < 128) (low' : second.toNat < 128)
    : (textPart (encodeChars (before ++ char :: rest)) (bytesOf before) (bytesOf before + 2)).getD []
        = [UInt8.ofNat first.toNat, UInt8.ofNat second.toNat]
      ↔ char = first ∧ ∃ more, rest = second :: more := by
  have pair : encodeChars [first, second] = [UInt8.ofNat first.toNat, UInt8.ofNat second.toNat] := by
    rw [encodeChars, List.flatMap_cons, List.flatMap_cons, encode_ascii low, encode_ascii low']
    rfl
  rw [← pair]
  constructor
  · intro same
    cases taken : textPart (encodeChars (before ++ char :: rest)) (bytesOf before) (bytesOf before + 2) with
    | none =>
        rw [taken, pair] at same
        cases same
    | some bytes =>
        obtain ⟨part, more, split, rfl⟩ := exists_of_textPart taken
        rw [taken] at same
        obtain rfl := encodeChars_inj same
        obtain ⟨rfl, rfl⟩ := List.cons.inj split
        exact ⟨rfl, more, rfl⟩
  · rintro ⟨rfl, more, rfl⟩
    have taken := textPart_encodeChars before [char, second] more
    have long : bytesOf [char, second] = 2 := by
      rw [bytesOf, pair]
      rfl
    rw [long, List.append_assoc] at taken
    exact congrArg (Option.getD · []) taken

theorem twoOp_eq (before : List Char) (char : Char) (rest : List Char)
    : twoOp ((textPart (encodeChars (before ++ char :: rest)) (bytesOf before) (bytesOf before + 2)).getD [])
      = twoChars char rest := by
  have equal := two_iff before char rest (by decide : '='.toNat < 128) (by decide : '='.toNat < 128)
  have notEqual := two_iff before char rest (by decide : '!'.toNat < 128) (by decide : '='.toNat < 128)
  have less := two_iff before char rest (by decide : '<'.toNat < 128) (by decide : '='.toNat < 128)
  have greater := two_iff before char rest (by decide : '>'.toNat < 128) (by decide : '='.toNat < 128)
  have and_ := two_iff before char rest (by decide : '&'.toNat < 128) (by decide : '&'.toNat < 128)
  have or_ := two_iff before char rest (by decide : '|'.toNat < 128) (by decide : '|'.toNat < 128)
  generalize (textPart (encodeChars (before ++ char :: rest)) (bytesOf before) (bytesOf before + 2)).getD []
    = two at equal notEqual less greater and_ or_ ⊢
  unfold twoChars
  split
  · rw [equal.mpr ⟨rfl, _, rfl⟩]
    rfl
  · rw [notEqual.mpr ⟨rfl, _, rfl⟩]
    rfl
  · rw [less.mpr ⟨rfl, _, rfl⟩]
    rfl
  · rw [greater.mpr ⟨rfl, _, rfl⟩]
    rfl
  · rw [and_.mpr ⟨rfl, _, rfl⟩]
    rfl
  · rw [or_.mpr ⟨rfl, _, rfl⟩]
    rfl
  · rename_i no₁ no₂ no₃ no₄ no₅ no₆
    rw [twoOp, if_neg fun same => ?_, if_neg fun same => ?_, if_neg fun same => ?_, if_neg fun same => ?_,
      if_neg fun same => ?_, if_neg fun same => ?_]
    · obtain ⟨is, more, follows⟩ := or_.mp same
      exact no₆ more is follows
    · obtain ⟨is, more, follows⟩ := and_.mp same
      exact no₅ more is follows
    · obtain ⟨is, more, follows⟩ := greater.mp same
      exact no₄ more is follows
    · obtain ⟨is, more, follows⟩ := less.mp same
      exact no₃ more is follows
    · obtain ⟨is, more, follows⟩ := notEqual.mp same
      exact no₂ more is follows
    · obtain ⟨is, more, follows⟩ := equal.mp same
      exact no₁ more is follows

theorem exists_numberOf (seen rest : Text)
    : ∃ taken left, rest = taken ++ left ∧ numberOf seen rest = seen ++ taken := by
  induction rest generalizing seen with
  | nil => exact ⟨[], [], rfl, (List.append_nil seen).symm⟩
  | cons char rest ih =>
      rw [numberOf_cons]
      split
      · obtain ⟨taken, left, rfl, same⟩ := ih (seen ++ [char])
        exact ⟨char :: taken, left, rfl, by rw [same, List.append_assoc]; rfl⟩
      · exact ⟨[], char :: rest, rfl, (List.append_nil seen).symm⟩

theorem beginsNumber_eq_false {char : Char} (high : 128 ≤ char.toNat) (next : Option Char)
    : beginsNumber char next = false := by
  have ascii (char : Char) (passed : (char.isDigit || (char == '-' || char == '+' || char == '.')) = true)
      : char.toNat < 128 := by
    simp only [Bool.or_eq_true, beq_iff_eq] at passed
    rcases passed with digit | (rfl | rfl) | rfl
    · exact toNat_lt_of_isAlphanum (by rw [Char.isAlphanum, digit, Bool.or_true])
    · decide
    · decide
    · decide
  have fails := fails_of_high ascii high
  rw [Bool.or_eq_false_iff] at fails
  rw [beginsNumber, fails.1, fails.2]
  rfl

theorem beginsNumber_next (before : List Char) (char : Char) (rest : List Char)
    : beginsNumber char ((encodeChars (before ++ rest))[bytesOf before]?.map asChar)
      = beginsNumber char rest.head? := by
  have ascii (char : Char) (passed : (char.isDigit || char == '.') = true) : char.toNat < 128 := by
    simp only [Bool.or_eq_true, beq_iff_eq] at passed
    rcases passed with digit | rfl
    · exact toNat_lt_of_isAlphanum (by rw [Char.isAlphanum, digit, Bool.or_true])
    · decide
  cases rest with
  | nil =>
      rw [List.append_nil, byte_at_end]
      rfl
  | cons next rest =>
      obtain ⟨byte, there, looks⟩ := byte_at before next rest
      rw [there]
      rcases looks with ⟨-, looks⟩ | ⟨high, looks⟩
      · rw [Option.map_some, looks]
        rfl
      · rw [beginsNumber, beginsNumber, Option.map_some, Option.any_some, List.head?_cons, Option.any_some,
          fails_of_high ascii looks, fails_of_high ascii high]

/-- What the readers of bytes come to where those of characters come to a token and how many it has. -/
def spanned {Num : Type} (text : Text) : Except Error (Token Num × Nat) → Except Stop (Token Num × Nat)
  | .ok (token, count) => .ok (token, bytesOf (text.take count))
  | .error error => .error (.error error)

theorem unknown_spanned (before : List Char) (char looks : Char) (rest : List Char)
    : unknownBytes ext (encodeChars (before ++ char :: rest)) (bytesOf before) looks
      = spanned (char :: rest)
          (error (bytesOf before) (String.ofList (ext.debug char) ++ " is not part of an expression")) := by
  rw [unknownBytes, slice, textPart_rest]
  change Except.error _ = _
  rw [fromUtf8Lossy_encodeChars]
  rfl

theorem tokenBytes_of_high (before : List Char) {char looks : Char} (rest : List Char)
    (high : 128 ≤ char.toNat) (high' : 128 ≤ looks.toNat)
    : tokenBytes ext (encodeChars (before ++ char :: rest)) (bytesOf before) looks
      = spanned (char :: rest) (tokenAt ext (bytesOf before) char rest) := by
  have other {char : Char} (high : 128 ≤ char.toNat) (low : Char) (small : low.toNat < 128) : char ≠ low := by
    rintro rfl
    omega
  have none_ : twoChars char rest = none := by
    unfold twoChars
    split
    all_goals first | rfl | exact absurd high (by decide)
  have two := twoOp_eq before char rest
  rw [none_] at two
  have alpha (char : Char) (passed : (char.isAlpha || char == '_') = true) : char.toNat < 128 := by
    simp only [Bool.or_eq_true, beq_iff_eq] at passed
    rcases passed with alpha | rfl
    · exact toNat_lt_of_isAlphanum (by rw [Char.isAlphanum, alpha, Bool.true_or])
    · decide
  have there : tokenAt ext (bytesOf before) char rest
      = error (bytesOf before) (String.ofList (ext.debug char) ++ " is not part of an expression") := by
    unfold tokenAt
    split
    all_goals first | exact absurd high (by decide) | skip
    rw [beginsNumber_eq_false high, if_neg (by decide), if_neg (other high '.' (by decide)),
      fails_of_high alpha high, if_neg (by decide)]
  rw [there]
  unfold tokenBytes
  dsimp only
  rw [two]
  split
  all_goals first | exact absurd high' (by decide) | skip
  dsimp only
  rw [if_neg (other high' '<' (by decide)), if_neg (other high' '>' (by decide)),
    if_neg (other high' '!' (by decide)), beginsNumber_eq_false high', if_neg (by decide),
    if_neg (other high' '.' (by decide)), fails_of_high alpha high', if_neg (by decide)]
  exact unknown_spanned ext before char looks rest

theorem slice_token (before part left : List Char)
    : slice (encodeChars (before ++ (part ++ left))) (bytesOf before) (bytesOf (before ++ part))
      = .ok (encodeChars part) := by
  rw [← List.append_assoc]
  exact slice_encodeChars before part left

theorem bytesOf_append_sub (before part : List Char)
    : bytesOf (before ++ part) - bytesOf before = bytesOf part := by
  rw [bytesOf_append, Nat.add_sub_cancel_left]

theorem number_spanned (before : List Char) {char : Char} (rest : List Char) (low : char.toNat < 128)
    : numberBytes ext (encodeChars (before ++ char :: rest)) (bytesOf before)
      = spanned (char :: rest)
          (match parseNumber ext (numberOf [char] rest) with
          | some num => .ok (Token.number num, (numberOf [char] rest).length)
          | none =>
              error (bytesOf before)
                ("\"" ++ String.ofList (numberOf [char] rest) ++ "\" is not a number")) := by
  have ends := numberEnd_eq before [char] rest (List.cons_ne_nil _ _)
    (fun other listed => by rw [List.mem_singleton.mp listed]; exact low)
  have place : bytesOf (before ++ [char]) = bytesOf before + 1 := by
    rw [bytesOf_append, bytesOf_ascii_cons low]
    rfl
  rw [place, List.append_assoc, List.singleton_append] at ends
  obtain ⟨taken, left, rfl, number⟩ := exists_numberOf [char] rest
  rw [numberBytes, ends]
  change (slice _ _ _ >>= _) = _
  rw [number]
  change (slice (encodeChars (before ++ ([char] ++ taken ++ left))) _ _ >>= _) = _
  rw [slice_token before ([char] ++ taken) left]
  change (match parseNumber ext (fromUtf8Lossy (encodeChars ([char] ++ taken))) with
    | some num => _
    | none => _) = _
  rw [fromUtf8Lossy_encodeChars, bytesOf_append_sub]
  cases parseNumber ext ([char] ++ taken) with
  | none => rfl
  | some num =>
      have all_ : ([char] ++ taken ++ left).take ([char] ++ taken).length = [char] ++ taken :=
        List.take_left
      change _ = Except.ok (Token.number num, bytesOf ((char :: (taken ++ left)).take _))
      exact congrArg (fun part => Except.ok (Token.number num, bytesOf part)) all_.symm

theorem name_spanned (before : List Char) {char : Char} (rest : List Char) (low : char.toNat < 128)
    : nameBytes ext (encodeChars (before ++ char :: rest)) (bytesOf before)
      = spanned (char :: rest)
          (let more := rest.takeWhile fun char => char.isAlphanum || char == '_' || char == '-'
          .ok (Token.name (char :: more), more.length + 1)) := by
  have ends := nameEnd_eq (before ++ [char]) rest
  have place : bytesOf (before ++ [char]) = bytesOf before + 1 := by
    rw [bytesOf_append, bytesOf_ascii_cons low]
    rfl
  have split := List.takeWhile_append_dropWhile
    (p := fun char : Char => char.isAlphanum || char == '_' || char == '-') (l := rest)
  dsimp only
  generalize rest.takeWhile (fun char : Char => char.isAlphanum || char == '_' || char == '-') = more
    at ends split ⊢
  generalize rest.dropWhile (fun char : Char => char.isAlphanum || char == '_' || char == '-') = left
    at split
  subst split
  rw [place, List.append_assoc, List.append_assoc, List.singleton_append, List.singleton_append] at ends
  rw [nameBytes, ends]
  change (slice (encodeChars (before ++ ((char :: more) ++ left))) _ _ >>= _) = _
  rw [slice_token before (char :: more) left]
  change Except.ok (Token.name (fromUtf8Lossy (encodeChars (char :: more))), _) = _
  have all_ : ((char :: more) ++ left).take (more.length + 1) = char :: more :=
    List.take_left' rfl
  rw [fromUtf8Lossy_encodeChars, bytesOf_append_sub]
  exact congrArg (fun part => Except.ok (Token.name (char :: more), bytesOf part)) all_.symm

theorem text_spanned (before rest : List Char)
    : (do
        let (held, past) ← quotedFrom (encodeChars (before ++ '\'' :: rest)) (bytesOf before)
          (bytesOf before + 1) []
        .ok (Token.text held, past - bytesOf before))
      = @spanned ext.Num ('\'' :: rest)
          (match quotedText rest with
          | some (text, count) => .ok (Token.text text, count + 1)
          | none => error (bytesOf before) "a string is not closed with a '") := by
  have ends := quotedFrom_eq (bytesOf before) [] (before ++ ['\'']) rest (Nat.le_refl _)
  have place : bytesOf (before ++ ['\'']) = bytesOf before + 1 := by
    rw [bytesOf_append]
    rfl
  rw [place, List.append_assoc, List.singleton_append] at ends
  rw [ends, quotedEnd]
  cases quotedText rest with
  | none => rfl
  | some read =>
      obtain ⟨text, count⟩ := read
      change Except.ok (Token.text ([] ++ text), bytesOf (before ++ ['\''] ++ rest.take count) - bytesOf before)
        = Except.ok (Token.text text, bytesOf ('\'' :: rest.take count))
      rw [List.append_assoc, bytesOf_append_sub]
      rfl

theorem tokenBytes_of_two (before : List Char) {char : Char} (rest : List Char) {op : Op}
    (two : twoChars char rest = some op)
    : tokenBytes ext (encodeChars (before ++ char :: rest)) (bytesOf before) char = .ok (.op op, 2) := by
  have read := twoOp_eq before char rest
  rw [two] at read
  unfold tokenBytes
  dsimp only
  rw [read]
  split
  all_goals first | cases two | rfl

theorem tokenBytes_of_none (before : List Char) {char : Char} {rest : List Char}
    (low : char.toNat < 128) (two : twoChars char rest = none)
    (simple : char ∉ ['(', ')', '[', ']', ',', '*', '\'', '"'])
    : tokenBytes ext (encodeChars (before ++ char :: rest)) (bytesOf before) char
      = if char = '<' then .ok (.op .less, 1)
        else if char = '>' then .ok (.op .greater, 1)
        else if char = '!' then .ok (.not, 1)
        else if beginsNumber char rest.head? then
          numberBytes ext (encodeChars (before ++ char :: rest)) (bytesOf before)
        else if char = '.' then .ok (.dot, 1)
        else if char.isAlpha || char == '_' then
          nameBytes ext (encodeChars (before ++ char :: rest)) (bytesOf before)
        else unknownBytes ext (encodeChars (before ++ char :: rest)) (bytesOf before) char := by
  have read := twoOp_eq before char rest
  have next := beginsNumber_next (before ++ [char]) char rest
  have place : bytesOf (before ++ [char]) = bytesOf before + 1 := by
    rw [bytesOf_append, bytesOf_ascii_cons low]
    rfl
  rw [place, List.append_assoc, List.singleton_append] at next
  unfold tokenBytes
  dsimp only
  rw [read, two]
  split
  all_goals first | exact absurd (by decide) simple | skip
  dsimp only
  rw [next]

/-- A token that begins with a character of one byte is the same, read from bytes or from characters. -/
theorem tokenBytes_of_ascii (before : List Char) {char : Char} (rest : List Char) (low : char.toNat < 128)
    : tokenBytes ext (encodeChars (before ++ char :: rest)) (bytesOf before) char
      = spanned (char :: rest) (tokenAt ext (bytesOf before) char rest) := by
  have one (token : Token ext.Num)
      : Except.ok (token, 1) = spanned (char :: rest) (.ok (token, 1)) := by
    change _ = Except.ok (token, bytesOf [char])
    rw [bytesOf_ascii_cons low]
    rfl
  unfold tokenAt
  split
  · exact one .open_
  · exact one .close
  · exact one .openIndex
  · exact one .closeIndex
  · exact one .comma
  · exact one .star
  · exact text_spanned ext before rest
  · rfl
  · exact tokenBytes_of_two ext before _ rfl
  · exact tokenBytes_of_two ext before _ rfl
  · exact tokenBytes_of_two ext before _ rfl
  · exact tokenBytes_of_two ext before _ rfl
  · exact tokenBytes_of_two ext before _ rfl
  · exact tokenBytes_of_two ext before _ rfl
  · rename_i no
    have none_ : twoChars '<' rest = none := by
      unfold twoChars
      split
      all_goals first | rfl | exact (no _ rfl).elim | contradiction
    exact (tokenBytes_of_none ext before low none_ (by decide)).trans (one (.op .less))
  · rename_i no
    have none_ : twoChars '>' rest = none := by
      unfold twoChars
      split
      all_goals first | rfl | exact (no _ rfl).elim | contradiction
    exact (tokenBytes_of_none ext before low none_ (by decide)).trans (one (.op .greater))
  · rename_i no
    have none_ : twoChars '!' rest = none := by
      unfold twoChars
      split
      all_goals first | rfl | exact (no _ rfl).elim | contradiction
    exact (tokenBytes_of_none ext before low none_ (by decide)).trans (one .not)
  · rename_i no₁ no₂ no₃ no₄ no₅ no₆ no₇ no₈ less greater not_ two₁ two₂ two₃ two₄ two₅ two₆
    have none_ : twoChars char rest = none :=
      twoChars.eq_7 char rest two₁ two₂ two₃ two₄ two₅ two₆
    have simple : char ∉ ['(', ')', '[', ']', ',', '*', '\'', '"'] := by
      simp only [List.mem_cons, List.not_mem_nil, or_false, not_or]
      exact ⟨no₁, no₂, no₃, no₄, no₅, no₆, no₇, no₈⟩
    rw [tokenBytes_of_none ext before low none_ simple, if_neg less, if_neg greater, if_neg not_]
    split
    · exact number_spanned ext before rest low
    · split
      · exact one .dot
      · split
        · exact name_spanned ext before rest low
        · exact unknown_spanned ext before char char rest

-- The tokens

theorem byteLen_eq (text : Text)
    : byteLen text = bytesOf text := by
  induction text with
  | nil => rfl
  | cons char text ih =>
      rw [bytesOf_cons, String.length_utf8EncodeChar, ← ih]
      rfl

theorem pos_of_tokenAt {at_ : Nat} {char : Char} {rest : Text} {token : Token ext.Num} {count : Nat}
    (read : tokenAt ext at_ char rest = .ok (token, count))
    : 0 < count := by
  unfold tokenAt at read
  split at read
  all_goals first | (cases read; exact Nat.succ_pos _) | skip
  · cases quoted : quotedText rest with
    | none =>
        rw [quoted] at read
        cases read
    | some held =>
        rw [quoted] at read
        cases read
        exact Nat.succ_pos _
  · cases read
  · split at read
    · obtain ⟨taken, left, -, number⟩ := exists_numberOf [char] rest
      dsimp only at read
      cases parsed : parseNumber ext (numberOf [char] rest) with
      | none =>
          rw [parsed] at read
          cases read
      | some num =>
          rw [parsed] at read
          cases read
          rw [number]
          exact Nat.succ_pos _
    · split at read
      · cases read
        exact Nat.succ_pos _
      · split at read
        · cases read
          exact Nat.succ_pos _
        · cases read

theorem tokenBytes_eq (before : List Char) {char looks : Char} (rest : List Char)
    (same : char.toNat < 128 ∧ looks = char ∨ 128 ≤ char.toNat ∧ 128 ≤ looks.toNat)
    : tokenBytes ext (encodeChars (before ++ char :: rest)) (bytesOf before) looks
      = spanned (char :: rest) (tokenAt ext (bytesOf before) char rest) := by
  rcases same with ⟨low, rfl⟩ | ⟨high, high'⟩
  · exact tokenBytes_of_ascii ext before rest low
  · exact tokenBytes_of_high ext before rest high high'

def isBlankChar (char : Char) : Prop :=
  char = ' ' ∨ char = '\t' ∨ char = '\r' ∨ char = '\n'

theorem toNat_lt_of_isBlankChar {char : Char} (blank : isBlankChar char)
    : char.toNat < 128 := by
  rcases blank with rfl | rfl | rfl | rfl
  · decide
  · decide
  · decide
  · decide

theorem tokensRounds_eq {rounds : Nat} (before rest : List Char) (enough : rest.length < rounds)
    : tokensRounds ext (encodeChars (before ++ rest)) rounds (bytesOf before)
      = (tokensFrom ext (bytesOf before) rest).mapError .error := by
  induction rounds generalizing before rest with
  | zero => exact absurd enough (Nat.not_lt_zero _)
  | succ rounds ih =>
      cases rest with
      | nil =>
          rw [tokensRounds, tokensFrom, List.append_nil, byte_at_end]
          rfl
      | cons char rest =>
          obtain ⟨byte, there, looks⟩ := byte_at before char rest
          have fewer : rest.length < rounds := Nat.lt_of_succ_lt_succ enough
          have same : isBlankChar (asChar byte) ↔ isBlankChar char := by
            rcases looks with ⟨-, looks⟩ | ⟨high, high'⟩
            · rw [looks]
            · refine iff_of_false (fun blank => ?_) fun blank => ?_
              · exact absurd (toNat_lt_of_isBlankChar blank) (Nat.not_lt_of_le high')
              · exact absurd (toNat_lt_of_isBlankChar blank) (Nat.not_lt_of_le high)
          rw [tokensRounds, tokensFrom, there]
          by_cases blank : isBlankChar char
          · have low := toNat_lt_of_isBlankChar blank
            have further := ih (before ++ [char]) rest fewer
            rw [bytesOf_append, bytesOf_ascii_cons low, List.append_assoc] at further
            have blank' := same.mpr blank
            unfold isBlankChar at blank blank'
            dsimp only
            rw [if_pos blank', if_pos blank]
            exact further
          · have blank' := mt same.mp blank
            unfold isBlankChar at blank blank'
            dsimp only
            rw [if_neg blank', if_neg blank]
            rw [tokenBytes_eq ext before rest (looks.imp_left fun both => ⟨both.1, both.2⟩)]
            cases read : tokenAt ext (bytesOf before) char rest with
            | error error => rfl
            | ok found =>
                obtain ⟨token, count⟩ := found
                obtain ⟨count, rfl⟩ := Nat.exists_eq_succ_of_ne_zero (Nat.ne_of_gt (pos_of_tokenAt ext read))
                have split : before ++ char :: rest
                    = before ++ (char :: rest).take (count + 1) ++ rest.drop count := by
                  rw [List.append_assoc]
                  exact congrArg (before ++ ·) (List.take_append_drop (count + 1) (char :: rest)).symm
                have shorter : (rest.drop count).length < rounds := by
                  rw [List.length_drop]
                  omega
                have further := ih (before ++ (char :: rest).take (count + 1)) (rest.drop count) shorter
                rw [← split, bytesOf_append, ← byteLen_eq ((char :: rest).take (count + 1))] at further
                change (tokensRounds ext _ rounds
                  (bytesOf before + bytesOf ((char :: rest).take (count + 1))) >>= _) = _
                rw [← byteLen_eq ((char :: rest).take (count + 1)), further]
                change _ = (tokensFrom ext _ (rest.drop count) >>= _).mapError _
                cases tokensFrom ext (bytesOf before + byteLen ((char :: rest).take (count + 1)))
                  (rest.drop count) with
                | error error => rfl
                | ok more => rfl

end Dagron.CiExpr
