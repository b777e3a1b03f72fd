import Dagron.Spec.Condition

/-! Texts with placeholders as pieces: characters that stand for themselves, and placeholders with
their keys. Filling in a text fills in its pieces, and a text filled in twice is one filled in once
where the first scope puts in nothing that the second could read as a placeholder.
-/

namespace Dagron.Spec

/-- A piece of a text: a character, or a placeholder of a key. -/
inductive Piece where
  | letter (char : Char)
  | placeholder (key : List Char)

/-- The placeholder that a text starts with, by its key, and what follows it. -/
def opening : List Char → Option (List Char × List Char)
  | [] => none
  | char :: rest =>
      (if char = '{' then dropStart ['{'] rest else none).bind (splitOnce ['}', '}'])

def placeholderText (key : List Char) : List Char :=
  ['{', '{'] ++ key ++ ['}', '}']

/-- (piecesWithin fuel) are the pieces of a text no longer than (fuel). -/
def piecesWithin : Nat → List Char → List Piece
  | 0, text => text.map .letter
  | _, [] => []
  | fuel + 1, char :: rest =>
      match opening (char :: rest) with
      | some (key, after) => .placeholder key :: piecesWithin fuel after
      | none => .letter char :: piecesWithin fuel rest

def pieces (text : List Char) : List Piece :=
  piecesWithin text.length text

/-- What a scope gives for a placeholder's key: what it binds the key to, or the value of the
arithmetic the key is.
-/
def lookup (host : Externals) (ctx : Bindings) (key : List Char) : Option String :=
  (ctx.get (String.ofList (trim key))).or (evalArith host (trim key) ctx)

def Piece.fill (host : Externals) (ctx : Bindings) : Piece → List Char
  | .letter char => [char]
  | .placeholder key => ((lookup host ctx key).map String.toList).getD (placeholderText key)

/-- The pieces that a piece becomes once a scope has filled it in: a placeholder the scope knows
nothing of stays one.
-/
def Piece.settle (host : Externals) (ctx : Bindings) : Piece → List Piece
  | .letter char => [.letter char]
  | .placeholder key =>
      match lookup host ctx key with
      | some value => value.toList.map .letter
      | none => [.placeholder key]

-- Openings

section Openings

variable {pattern text before after : List Char}

theorem splitOnce_spec (found : splitOnce pattern text = some (before, after))
    : text = before ++ pattern ++ after
      ∧ ∀ after', splitOnce pattern (before ++ pattern ++ after') = some (before, after') := by
  induction text generalizing before with
  | nil =>
      unfold splitOnce at found
      split at found
      case isTrue empty =>
        cases found
        obtain rfl := List.isEmpty_iff.mp empty
        refine ⟨rfl, fun after' => ?_⟩
        cases after' <;> simp [splitOnce]
      case isFalse => cases found
  | cons char rest ih =>
      unfold splitOnce at found
      split at found
      case isTrue starts =>
        cases found
        obtain ⟨tail, whole⟩ := List.isPrefixOf_iff_prefix.mp starts
        refine ⟨by rw [List.nil_append, ← whole, List.drop_left], fun after' => ?_⟩
        cases same : pattern ++ after' with
        | nil =>
            obtain ⟨rfl, rfl⟩ := List.append_eq_nil_iff.mp same
            rfl
        | cons char' rest' =>
            rw [List.nil_append, same, splitOnce, ← same,
              if_pos (List.isPrefixOf_iff_prefix.mpr (List.prefix_append _ _)), List.drop_left]
      case isFalse starts =>
        obtain ⟨⟨before', after'⟩, cut, same⟩ := Option.map_eq_some_iff.mp found
        obtain ⟨rfl, rfl⟩ := Prod.mk.inj same
        obtain ⟨whole, anywhere⟩ := ih cut
        refine ⟨by rw [whole]; rfl, fun other => ?_⟩
        rw [List.cons_append, List.cons_append, splitOnce, if_neg ?_, anywhere, Option.map_some]
        -- A pattern that starts here would end no later than the one found.
        intro starts'
        refine starts (List.isPrefixOf_iff_prefix.mpr ?_)
        have within : char :: (before' ++ pattern) <+: char :: rest := by
          rw [whole]
          exact List.cons_prefix_cons.mpr ⟨rfl, List.prefix_append _ _⟩
        have here : pattern <+: char :: (before' ++ pattern) := by
          have both := List.isPrefixOf_iff_prefix.mp starts'
          refine List.prefix_of_prefix_length_le both
            (List.cons_prefix_cons.mpr ⟨rfl, List.prefix_append _ _⟩) ?_
          rw [List.length_cons, List.length_append]
          omega
        exact here.trans within

theorem splitOnce_tail {char : Char} (absent : splitOnce pattern (char :: text) = none)
    : splitOnce pattern text = none := by
  unfold splitOnce at absent
  split at absent
  · cases absent
  · exact Option.map_eq_none_iff.mp absent

variable {key : List Char}

/-- A text that opens a placeholder is that and what follows, wherever it goes on from there. -/
theorem opening_spec (opens : opening text = some (key, after))
    : text = placeholderText key ++ after
      ∧ ∀ after', opening (placeholderText key ++ after') = some (key, after') := by
  cases text with
  | nil => cases opens
  | cons char rest =>
      obtain ⟨inner, second, cut⟩ := Option.bind_eq_some_iff.mp opens
      split at second
      case isFalse => cases second
      case isTrue brace =>
        cases brace
        unfold dropStart at second
        split at second
        case isFalse => cases second
        case isTrue starts =>
          cases second
          obtain ⟨whole, anywhere⟩ := splitOnce_spec cut
          obtain ⟨tail, split_⟩ := List.isPrefixOf_iff_prefix.mp starts
          subst split_
          rw [List.singleton_append, List.length_singleton, List.drop_one, List.tail_cons] at whole
          refine ⟨by rw [whole]; simp [placeholderText], fun after' => ?_⟩
          have same : placeholderText key ++ after'
              = '{' :: '{' :: (key ++ ['}', '}'] ++ after') := by
            simp [placeholderText]
          rw [same]
          exact anywhere after'

theorem length_of_opens (opens : opening text = some (key, after))
    : after.length < text.length := by
  rw [(opening_spec opens).1, List.length_append]
  simp [placeholderText]

theorem opening_unclosed (unclosed : splitOnce ['}', '}'] text = none)
    : opening text = none := by
  cases opens : opening text with
  | none => rfl
  | some found =>
      obtain ⟨key, after⟩ := found
      have whole := (opening_spec opens).1
      rw [whole] at unclosed opens
      have inner : splitOnce ['}', '}'] (key ++ ['}', '}'] ++ after) = none := by
        have whole : splitOnce ['}', '}'] ('{' :: '{' :: (key ++ ['}', '}'] ++ after)) = none := by
          simpa [placeholderText] using unclosed
        exact splitOnce_tail (splitOnce_tail whole)
      have cut : splitOnce ['}', '}'] (key ++ ['}', '}'] ++ after) = some (key, after) := by
        simpa [placeholderText, opening, dropStart] using opens
      rw [cut] at inner
      cases inner

theorem opening_of_ne {char : Char} (apart : char ≠ '{') (rest : List Char)
    : opening (char :: rest) = none := by
  rw [opening, if_neg apart, Option.bind_none]

end Openings

-- Pieces

section Pieces

variable {text after key : List Char} {char : Char}

theorem piecesWithin_eq {fuel : Nat} (room : text.length ≤ fuel)
    : piecesWithin fuel text = pieces text := by
  suffices same : ∀ fuel' fuel'' text, text.length ≤ fuel' → text.length ≤ fuel'' →
      piecesWithin fuel' text = piecesWithin fuel'' text from same _ _ _ room (Nat.le_refl _)
  intro fuel'
  induction fuel' with
  | zero =>
      intro fuel'' text none_ _
      obtain rfl := List.length_eq_zero_iff.mp (Nat.le_zero.mp none_)
      cases fuel'' <;> rfl
  | succ fuel' ih =>
      intro fuel'' text room room'
      cases text with
      | nil => cases fuel'' <;> rfl
      | cons char rest =>
          rw [List.length_cons] at room room'
          obtain ⟨more, rfl⟩ : ∃ more, fuel'' = more + 1 := ⟨fuel'' - 1, by omega⟩
          rw [piecesWithin, piecesWithin]
          cases opens : opening (char :: rest) with
          | none => exact congrArg _ (ih more rest (by omega) (by omega))
          | some found =>
              obtain ⟨key, after⟩ := found
              have shorter := length_of_opens opens
              rw [List.length_cons] at shorter
              exact congrArg _ (ih more after (by omega) (by omega))

theorem pieces_cons (literal : opening (char :: text) = none)
    : pieces (char :: text) = .letter char :: pieces text := by
  rw [pieces, List.length_cons, piecesWithin, literal]
  rfl

theorem pieces_opens (opens : opening text = some (key, after))
    : pieces text = .placeholder key :: pieces after := by
  cases text with
  | nil => cases opens
  | cons char rest =>
      have shorter := length_of_opens opens
      rw [pieces, List.length_cons, piecesWithin, opens]
      exact congrArg _ (piecesWithin_eq (Nat.le_of_lt_succ shorter))

theorem pieces_placeholder (opens : opening text = some (key, after)) (rest : List Char)
    : pieces (placeholderText key ++ rest) = .placeholder key :: pieces rest :=
  pieces_opens ((opening_spec opens).2 rest)

theorem pieces_append {plain : List Char} (braceless : '{' ∉ plain) (rest : List Char)
    : pieces (plain ++ rest) = plain.map .letter ++ pieces rest := by
  induction plain with
  | nil => rfl
  | cons char others ih =>
      obtain ⟨apart, later⟩ := not_or.mp (fun either => braceless (List.mem_cons.mpr either))
      rw [List.cons_append, pieces_cons (opening_of_ne (Ne.symm apart) _), ih later]
      rfl

theorem pieces_unclosed (unclosed : splitOnce ['}', '}'] text = none)
    : pieces text = text.map .letter := by
  induction text with
  | nil => rfl
  | cons char rest ih =>
      rw [pieces_cons (opening_unclosed unclosed), ih (splitOnce_tail unclosed), List.map_cons]

theorem pieces_induction {holds : List Char → Prop} (nil : holds [])
    (literal : ∀ char rest, opening (char :: rest) = none → holds rest → holds (char :: rest))
    (placed : ∀ text key after, opening text = some (key, after) → holds after → holds text)
    (text : List Char)
    : holds text := by
  induction size : text.length using Nat.strongRecOn generalizing text with
  | ind size ih =>
      cases text with
      | nil => exact nil
      | cons char rest =>
          cases opens : opening (char :: rest) with
          | none =>
              refine literal char rest opens (ih rest.length ?_ rest rfl)
              rw [← size, List.length_cons]
              exact Nat.lt_succ_self _
          | some found =>
              obtain ⟨key, after⟩ := found
              exact placed _ key after opens (ih after.length (size ▸ length_of_opens opens) after rfl)

end Pieces

-- Filling in

section Filling

variable {host : Externals} {ctx : Bindings} {text : List Char}

theorem substituteChars_eq (fuel : Nat)
    : substituteChars host ctx fuel text = (piecesWithin fuel text).flatMap (Piece.fill host ctx) := by
  induction fuel generalizing text with
  | zero => simp [substituteChars, piecesWithin, Piece.fill, List.flatMap_map]
  | succ fuel ih =>
      cases text with
      | nil => rfl
      | cons char rest =>
          rw [substituteChars, piecesWithin, opening]
          cases (if char = '{' then dropStart ['{'] rest else none).bind (splitOnce ['}', '}']) with
          | none => exact congrArg (char :: ·) ih
          | some found =>
              obtain ⟨key, after⟩ := found
              dsimp only
              rw [List.flatMap_cons, ← ih, Piece.fill, lookup]
              cases ctx.get (String.ofList (trim key)) with
              | some value => rfl
              | none => cases evalArith host (trim key) ctx <;> rfl

theorem substitute_eq (text : String)
    : (substitute host text ctx).toList = (pieces text.toList).flatMap (Piece.fill host ctx) := by
  rw [substitute, String.toList_ofList, substituteChars_eq,
    piecesWithin_eq (Nat.le_of_eq String.length_toList)]

/-- What a scope puts into a text opens no placeholder. -/
def Braceless (host : Externals) (ctx : Bindings) (text : List Char) : Prop :=
  ∀ key, .placeholder key ∈ pieces text → ∀ value ∈ lookup host ctx key, '{' ∉ value.toList

/-- A text that a scope puts no brace into has, once filled in, the pieces its own become; by
induction along them.
-/
theorem pieces_filled (braceless : Braceless host ctx text)
    : pieces ((pieces text).flatMap (Piece.fill host ctx))
      = (pieces text).flatMap (Piece.settle host ctx) := by
  induction text using pieces_induction with
  | nil => rfl
  | literal char rest literal ih =>
      have later : Braceless host ctx rest := fun key among =>
        braceless key (pieces_cons literal ▸ List.mem_cons_of_mem _ among)
      rw [pieces_cons literal, List.flatMap_cons, List.flatMap_cons, ← ih later]
      refine pieces_cons ?_
      by_cases brace : char = '{'
      · subst brace
        cases rest with
        | nil => exact literal
        | cons next more =>
            by_cases brace : next = '{'
            · subst brace
              -- Two braces open nothing only where nothing closes, and then nothing is filled in.
              have unclosed : splitOnce ['}', '}'] more = none := by
                simpa [opening, dropStart] using literal
              have unclosed' : splitOnce ['}', '}'] ('{' :: more) = none := by
                rw [splitOnce, if_neg (by simp [List.isPrefixOf]), unclosed, Option.map_none]
              rw [pieces_unclosed unclosed', List.flatMap_map]
              simpa [Piece.fill] using literal
            · rw [pieces_cons (opening_of_ne brace more)]
              simp [opening, dropStart, List.isPrefixOf, Piece.fill, Ne.symm brace]
      · exact opening_of_ne brace _
  | placed text key after opens ih =>
      have later : Braceless host ctx after := fun other among =>
        braceless other (pieces_opens opens ▸ List.mem_cons_of_mem _ among)
      rw [pieces_opens opens, List.flatMap_cons, List.flatMap_cons, ← ih later, Piece.fill, Piece.settle]
      cases known : lookup host ctx key with
      | none => exact pieces_placeholder opens _
      | some value =>
          have plain := braceless key (pieces_opens opens ▸ List.mem_cons_self) value known
          exact pieces_append plain _

/-- How a text must stand to two scopes for it to be the same to fill in the one and then the other,
and to fill in both: each of its placeholders is the first scope's to fill in, with a value that
opens no placeholder, or the second's alone.
-/
def InTurns (host : Externals) (first second both : Bindings) (text : String) : Prop :=
  ∀ key, .placeholder key ∈ pieces text.toList →
    match lookup host first key with
    | some value => '{' ∉ value.toList ∧ lookup host both key = some value
    | none => lookup host both key = lookup host second key

theorem substitute_substitute {first second both : Bindings} {text : String}
    (turns : InTurns host first second both text)
    : substitute host (substitute host text first) second = substitute host text both := by
  refine String.toList_inj.mp ?_
  have braceless : Braceless host first text.toList := by
    intro key among value known
    have turn := turns key among
    rw [known] at turn
    exact turn.1
  rw [substitute_eq, substitute_eq, substitute_eq, pieces_filled braceless, List.flatMap_assoc,
    List.flatMap_def, List.flatMap_def]
  refine congrArg List.flatten (List.map_congr_left fun piece among => ?_)
  cases piece with
  | letter char => rfl
  | placeholder key =>
      have turn := turns key among
      rw [Piece.settle]
      cases known : lookup host first key with
      | none =>
          rw [known] at turn
          simp [Piece.fill, turn]
      | some value =>
          rw [known] at turn
          simp [Piece.fill, turn.2, List.flatMap_map]

end Filling

end Dagron.Spec
