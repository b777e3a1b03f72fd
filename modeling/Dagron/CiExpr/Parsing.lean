import Dagron.CiExpr.Grammar
import Dagron.CiExpr.Lexer

/-! The parser over a text's bytes: it ends, cuts no character apart, and reads the expressions of the
grammar that nest and stand within the bounds.
-/

namespace Dagron.CiExpr

open Dagron.Spec Dagron.Library

variable (ext : Externals)

/-- Reads one expression, all of the text, whose tokens are read from its bytes in so many rounds. -/
def parseRounds (rounds : Nat) (text : Text) : Except Stop (Expr ext) := do
  let tokens ← tokensRounds ext (encodeChars text) rounds 0
  if tokens.isEmpty then .error (.error ⟨0, "the expression is empty"⟩)
  else do
    let read ← (level ext (byteLen text) 0 .or tokens).mapError .error
    if read.rest.isEmpty then return ⟨read.value.node⟩
    else .error (.error ⟨nextAt (byteLen text) read.rest, "the expression goes on past its end"⟩)

theorem length_le_bytesOf (text : Text)
    : text.length ≤ bytesOf text := by
  induction text with
  | nil => exact Nat.le_refl _
  | cons char text ih =>
      obtain ⟨first, rest, encoded, -⟩ := encode_eq_cons char
      rw [bytesOf_cons, encoded, List.length_cons, List.length_cons]
      omega

theorem parseRounds_eq (text : Text) {rounds : Nat} (enough : (encodeChars text).length < rounds)
    : parseRounds ext rounds text = (parse ext text).mapError .error := by
  have lexed := tokensRounds_eq ext [] text (Nat.lt_of_le_of_lt (length_le_bytesOf text) enough)
  rw [List.nil_append, bytesOf_nil] at lexed
  rw [parseRounds, parse, tokens, lexed]
  cases tokensFrom ext 0 text with
  | error error => rfl
  | ok all =>
      change (if all.isEmpty then _ else _) = Except.mapError Stop.error (if all.isEmpty then _ else _)
      split
      · rfl
      · cases level ext (byteLen text) 0 .or all with
        | error error => rfl
        | ok read =>
            change (if read.rest.isEmpty then _ else _)
              = Except.mapError Stop.error (if read.rest.isEmpty then _ else _)
            split
            · rfl
            · rfl

/-- The parser accepts exactly its grammar: in a round for each byte and one more, or in any number more, it
comes to an expression or an error, at no cut inside a character; it comes to an expression where the text's
tokens are derived with that tree, nesting and standing within the bounds; and no tree stands higher.
-/
theorem parse_accepts_the_grammar (text : Text) (more : Nat)
    : parseRounds ext ((encodeChars text).length + 1 + more) text = (parse ext text).mapError .error
      ∧ (∀ expr, parse ext text = .ok expr
          ↔ ∃ all nesting, tokens ext text = .ok all ∧ Derives ext (.level .or) all expr.node nesting
            ∧ nesting ≤ maxDepth ∧ expr.node.height ≤ maxHeight)
      ∧ ∀ expr ∈ (parse ext text).toOption, expr.node.height ≤ maxHeight := by
  refine ⟨parseRounds_eq ext text (by omega), fun expr => parse_eq_ok_iff ext, fun expr read => ?_⟩
  cases parsed : parse ext text with
  | error error =>
      rw [parsed] at read
      cases read
  | ok found =>
      rw [parsed] at read
      obtain rfl := Option.some.inj read
      obtain ⟨-, -, -, -, -, low⟩ := (parse_eq_ok_iff ext).mp parsed
      exact low

end Dagron.CiExpr
