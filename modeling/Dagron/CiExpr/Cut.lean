import Dagron.Spec.Graph
import Dagron.CiExpr.Template

/-! A text cut at its expressions: a text that is read is its pieces put together, the three readers of it
cut it alike, and a script is rewritten piece by piece.
-/

namespace Dagron.CiExpr

open Dagron.Spec Dagron.Library

-- What opens an expression

def Plain (text : Text) : Prop :=
  splitOnce opening text = none

theorem plain_nil
    : Plain [] :=
  rfl

theorem plain_cons {char : Char} {rest : Text}
    : Plain (char :: rest) ↔ ¬opening.isPrefixOf (char :: rest) ∧ Plain rest := by
  unfold Plain
  rw [splitOnce]
  split_ifs with here
  · simp [here]
  · simp [here]

theorem opens_of_dollar {char : Char} {rest tail : Text}
    (opens : opening.isPrefixOf (char :: (rest ++ '$' :: tail)))
    : opening.isPrefixOf (char :: rest) := by
  match rest with
  | [] => simp [opening] at opens
  | [_] => simp [opening] at opens
  | _ :: _ :: _ => simpa [opening] using opens

theorem split_plain {before : Text} (plain : Plain before) (after : Text)
    : splitOnce opening (before ++ opening ++ after) = some (before, after) := by
  induction before with
  | nil => simp [splitOnce, opening]
  | cons char rest ih =>
      obtain ⟨here, plain⟩ := plain_cons.mp plain
      rw [List.cons_append, List.cons_append, splitOnce, if_neg, ih plain]
      · rfl
      · intro opens
        rw [List.append_assoc] at opens
        exact here (opens_of_dollar opens)

theorem split_of_opening {text before after : Text} (split : splitOnce opening text = some (before, after))
    : text = before ++ opening ++ after ∧ Plain before := by
  induction text generalizing before with
  | nil => exact absurd split nofun
  | cons char rest ih =>
      rw [splitOnce] at split
      split_ifs at split with here
      · cases split
        obtain ⟨after, same⟩ := List.isPrefixOf_iff_prefix.mp here
        rw [← same]
        exact ⟨by simp, plain_nil⟩
      · obtain ⟨⟨before', _⟩, later, same⟩ := Option.map_eq_some_iff.mp split
        cases same
        obtain ⟨rfl, plain⟩ := ih later
        refine ⟨rfl, plain_cons.mpr ⟨?_, plain⟩⟩
        intro begins
        apply here
        rw [List.append_assoc, List.isPrefixOf_iff_prefix]
        exact (List.isPrefixOf_iff_prefix.mp begins).trans (List.prefix_append (char :: before') _)

/-- Two texts with nothing that opens an expression have none together, where the second begins as an
opening does.
-/
theorem Plain.append {before tail : Text} (plain : Plain before) (next : Plain ('$' :: tail))
    : Plain (before ++ '$' :: tail) := by
  induction before with
  | nil => exact next
  | cons char rest ih =>
      obtain ⟨here, plain⟩ := plain_cons.mp plain
      exact plain_cons.mpr ⟨fun opens => here (opens_of_dollar opens), ih plain⟩

theorem Plain.without {front text : Text} (none_ : '$' ∉ front) (plain : Plain text)
    : Plain (front ++ text) := by
  induction front with
  | nil => exact plain
  | cons char rest ih =>
      obtain ⟨other, none_⟩ := List.ne_and_not_mem_of_not_mem_cons none_
      refine plain_cons.mpr ⟨?_, ih none_⟩
      simp [opening, other]

theorem Plain.around {before after : Text} (first : Plain before) (number : Nat) (plain : Plain after)
    : Plain (before ++ (variable_ number ++ after)) := by
  have none_ : '$' ∉ ['{', '_'] ++ "_CI_E".toList ++ Nat.toDigits 10 number ++ ['}'] := by
    simp only [List.mem_append, not_or]
    refine ⟨⟨by decide, fun digit => ?_⟩, by decide⟩
    exact absurd (Nat.isDigit_of_mem_toDigits (by decide) (by decide) digit) (by decide)
  apply first.append
  exact plain_cons.mpr ⟨by simp [opening], Plain.without none_ plain⟩

-- What ends one

/-- Whether a text is an expression's up to its end, whatever follows that. -/
def Closed (quoted : Bool) (source : Text) : Prop :=
  ∀ after, expressionEnd quoted (source ++ closing ++ after) = some source.length

theorem sourceEnd_eq (quoted : Bool) (index : Nat) (text : Text)
    : sourceEnd quoted index text = (expressionEnd quoted text).map (· + index) := by
  induction text generalizing quoted index with
  | nil => rfl
  | cons char rest ih =>
      rw [sourceEnd, expressionEnd]
      split_ifs
      · rw [ih, Option.map_map]
        congr 1
        funext place
        simp
        omega
      · simp
      · rw [ih, Option.map_map]
        congr 1
        funext place
        simp
        omega

theorem closed_of_end {quoted : Bool} {body : Text} {close : Nat}
    (found : expressionEnd quoted body = some close)
    : ∃ source after, body = source ++ closing ++ after ∧ source.length = close
      ∧ Closed quoted source := by
  induction body generalizing quoted close with
  | nil => exact absurd found nofun
  | cons char rest ih =>
      rw [expressionEnd] at found
      split_ifs at found with quote ends
      · obtain ⟨close', later, rfl⟩ := Option.map_eq_some_iff.mp found
        obtain ⟨source, after, rfl, length, closed⟩ := ih later
        refine ⟨char :: source, after, rfl, congrArg (· + 1) length, fun after => ?_⟩
        rw [List.cons_append, List.cons_append, expressionEnd, if_pos quote, closed after]
        rfl
      · obtain rfl := Option.some.inj found
        obtain ⟨rfl, unquoted, next⟩ := ends
        cases rest with
        | nil => exact absurd next nofun
        | cons second after =>
            obtain rfl := Option.some.inj next
            refine ⟨[], after, rfl, rfl, fun after => ?_⟩
            simp [closing, expressionEnd, unquoted]
      · obtain ⟨close', later, rfl⟩ := Option.map_eq_some_iff.mp found
        obtain ⟨source, after, rfl, length, closed⟩ := ih later
        refine ⟨char :: source, after, rfl, congrArg (· + 1) length, fun after' => ?_⟩
        rw [List.cons_append, List.cons_append, expressionEnd, if_neg quote, if_neg, closed after']
        · rfl
        · cases source with
          | nil | cons next more => simpa [closing] using ends

-- Pieces

variable {ext : Externals}

/-- A text without an expression, and the expression that follows it, as it is written and as it is read. -/
structure Piece (ext : Externals) where
  before
    : Text
  source
    : Text
  expr
    : Expr ext
  plain
    : Plain before
  closed
    : Closed false source
  reads
    : parse ext source = .ok expr

namespace Piece

/-- Pieces put together, with the text after the last of them. -/
def join : List (Piece ext) → Text → Text
  | [], last => last
  | piece :: rest, last => piece.before ++ opening ++ (piece.source ++ closing ++ join rest last)

def parts : List (Piece ext) → Text → List (Part ext)
  | [], last => if last.isEmpty then [] else [.text last]
  | piece :: rest, last =>
      (if piece.before.isEmpty then [] else [.text piece.before]) ++ .expr piece.expr :: parts rest last

variable {last : Text}

theorem take_closed (source after : Text)
    : (source ++ closing ++ after).take source.length = source
      ∧ (source ++ closing ++ after).drop (source.length + 2) = after := by
  refine ⟨?_, List.drop_left' (by simp [closing])⟩
  rw [List.append_assoc, List.take_left]

theorem partsFrom_join (pieces : List (Piece ext)) (plain : Plain last) (offset : Nat)
    : partsFrom ext offset (join pieces last) = .ok (parts pieces last) := by
  induction pieces generalizing offset with
  | nil =>
      rw [partsFrom, join]
      split
      case h_1 => rfl
      case h_2 before body split => cases (plain.symm.trans split)
  | cons piece rest ih =>
      rw [partsFrom, join]
      split
      case h_1 split => cases (split.symm.trans (split_plain piece.plain _))
      case h_2 before body split =>
        cases split.symm.trans (split_plain piece.plain _)
        obtain ⟨take, drop⟩ := take_closed piece.source (join rest last)
        rw [piece.closed]
        simp only [take, drop, piece.reads, ih]
        rfl

theorem exists_of_partsFrom {text : Text} {offset : Nat} {parts : List (Part ext)}
    (reads : partsFrom ext offset text = .ok parts)
    : ∃ (pieces : List (Piece ext)) (last : Text), Plain last ∧ text = join pieces last := by
  induction length : text.length using Nat.strongRecOn generalizing text offset parts with
  | ind count ih =>
      rw [partsFrom] at reads
      split at reads
      case h_1 split => exact ⟨[], text, split, rfl⟩
      case h_2 before body split =>
        obtain ⟨same, plain⟩ := split_of_opening split
        split at reads
        case h_1 => cases reads
        case h_2 close found =>
          obtain ⟨source, after, rfl, rfl, closed⟩ := closed_of_end found
          obtain ⟨take, drop⟩ := take_closed source after
          rw [take, drop] at reads
          cases expr : parse ext source with
          | error e =>
              rw [expr] at reads
              cases reads
          | ok expr' =>
              rw [expr] at reads
              obtain ⟨_, _, reads⟩ := exists_of_bind_eq_ok reads
              obtain ⟨more, later, -⟩ := exists_of_bind_eq_ok reads
              obtain ⟨pieces, last, plain', rfl⟩ := ih after.length
                (by rw [← length, same]; simp [opening]; omega) later rfl
              exact ⟨⟨before, source, expr', plain, closed, expr⟩ :: pieces, last, plain', same⟩

theorem sources_join (pieces : List (Piece ext)) (plain : Plain last)
    : sources (join pieces last) = pieces.map source := by
  induction pieces with
  | nil =>
      rw [sources, join]
      split
      case h_1 => rfl
      case h_2 before body split => cases (plain.symm.trans split)
  | cons piece rest ih =>
      rw [sources, join]
      split
      case h_1 split => cases (split.symm.trans (split_plain piece.plain _))
      case h_2 before body split =>
        cases split.symm.trans (split_plain piece.plain _)
        obtain ⟨take, drop⟩ := take_closed piece.source (join rest last)
        rw [sourceEnd_eq, piece.closed]
        simp only [Option.map_some, Nat.add_zero, take, drop, ih, List.map_cons]

theorem exprs_parts (pieces : List (Piece ext)) (last : Text)
    : (Template.mk (parts pieces last)).exprs = pieces.map expr := by
  induction pieces with
  | nil =>
      simp only [Template.exprs, parts]
      split_ifs <;> rfl
  | cons piece rest ih =>
      simp only [Template.exprs] at ih
      simp only [Template.exprs, parts, List.filterMap_append, List.filterMap_cons, ih, List.map_cons]
      split_ifs <;> rfl

-- The script rewritten

/-- Pieces put together with the expressions that are not pasted replaced by variables, some of whose
numbers are taken.
-/
def written : Nat → List (Piece ext) → Text → Text
  | _, [], last => last
  | taken, piece :: rest, last =>
      if piece.expr.pasted then
        piece.before ++ opening ++ (piece.source ++ closing ++ written taken rest last)
      else piece.before ++ (variable_ (taken + 1) ++ written (taken + 1) rest last)

def replaced (pieces : List (Piece ext)) : List (Piece ext) :=
  pieces.filter fun piece => !piece.expr.pasted

theorem replaceParts_parts (readsVariables : Bool) (pieces : List (Piece ext)) (last : Text)
    (exprs : List Text) (refused : Bool) (count : Nat)
    : Template.replaceParts (rewrite readsVariables) ⟨pieces.map source, exprs, refused⟩ count
        (parts pieces last)
      = (written exprs.length pieces last,
          ⟨[], exprs ++ (replaced pieces).map fun piece => trim piece.source,
            refused || (!readsVariables && !(replaced pieces).isEmpty)⟩) := by
  induction pieces generalizing exprs refused count with
  | nil =>
      rw [parts]
      split_ifs with none_
      · simp_all [Template.replaceParts, written, replaced]
      · simp [Template.replaceParts, written, replaced]
  | cons piece rest ih =>
      have step : Template.replaceParts (rewrite readsVariables)
            ⟨(piece :: rest).map source, exprs, refused⟩ count
            (.expr piece.expr :: parts rest last)
          = ((written exprs.length (piece :: rest) last).drop piece.before.length,
              ⟨[], exprs ++ (replaced (piece :: rest)).map fun piece => trim piece.source,
                refused || (!readsVariables && !(replaced (piece :: rest)).isEmpty)⟩) := by
        by_cases pasted : piece.expr.pasted
        · simp [Template.replaceParts, rewrite, written, replaced, pasted, ih]
        · simp [Template.replaceParts, rewrite, written, replaced, pasted, ih]
          cases refused <;> cases readsVariables <;> simp
      have begins : piece.before <+: written exprs.length (piece :: rest) last := by
        rw [written]
        split_ifs
        · rw [List.append_assoc]
          exact List.prefix_append ..
        · exact List.prefix_append ..
      obtain ⟨after, same⟩ := begins
      rw [parts]
      split_ifs with none_
      · rw [List.nil_append, step]
        simp_all
      · rw [List.singleton_append, Template.replaceParts, step, ← same]
        simp

theorem written_split (taken : Nat) (front : List (Piece ext)) {piece : Piece ext}
    (variable_ : ¬piece.expr.pasted) (back : List (Piece ext)) (last : Text)
    : written taken (front ++ piece :: back) last
      = written taken front piece.before ++ CiExpr.variable_ (taken + (replaced front).length + 1)
        ++ written (taken + (replaced front).length + 1) back last := by
  induction front generalizing taken with
  | nil => simp [written, replaced, variable_]
  | cons first rest ih =>
      by_cases pasted : first.expr.pasted
      · simp [written, replaced, pasted] at ih ⊢
        rw [ih]
      · simp [written, replaced, pasted] at ih ⊢
        rw [ih]
        simp [Nat.add_assoc, Nat.add_comm 1]

/-- The script as it is rewritten is cut at the expressions that are left in it, by induction on its
pieces; what is carried is what was written since the last of them.
-/
theorem exists_written (pieces : List (Piece ext)) (plain : Plain last) (taken : Nat) (carried : Text)
    (carries : ∀ text, Plain text → Plain (carried ++ text))
    : ∃ (left : List (Piece ext)) (last' : Text), Plain last'
      ∧ carried ++ written taken pieces last = join left last'
      ∧ left.map expr = (pieces.map expr).filter Expr.pasted := by
  induction pieces generalizing taken carried with
  | nil => exact ⟨[], carried ++ last, carries last plain, rfl, rfl⟩
  | cons piece rest ih =>
      by_cases pasted : piece.expr.pasted
      · obtain ⟨left, last', plain', same, exprs⟩ := ih taken [] fun _ plain => plain
        refine ⟨{ piece with before := carried ++ piece.before, plain := carries _ piece.plain }
          :: left, last', plain', ?_, ?_⟩
        · rw [List.nil_append] at same
          simp [written, join, pasted, same]
        · simp [pasted, exprs]
      · obtain ⟨left, last', plain', same, exprs⟩ := ih (taken + 1)
          (carried ++ piece.before ++ variable_ (taken + 1)) (fun text plain => by
            rw [List.append_assoc, List.append_assoc]
            exact carries _ (piece.plain.around _ plain))
        refine ⟨left, last', plain', ?_, ?_⟩
        · rw [← same]
          simp [written, pasted]
        · simp [pasted, exprs]

end Piece

end Dagron.CiExpr
