import Dagron.CiExpr.Glob
import Dagron.Library.Wildcards
import Mathlib.Logic.Relation

/-! What a compiled glob matches: the language that its tokens stand for. The table of what is known changes
no answer, as every cell of it holds what the matching without a table comes to.
-/

namespace Dagron.CiExpr

open Dagron.Library

def GlobToken.language : GlobToken → Language Char
  | .char letter => single (· = letter)
  | .one => single (· ≠ '/')
  | .star => within '/'
  | .globstar false => anyRun
  | .globstar true => parts '/'
  | .class_ negated ranges =>
      single fun char =>
        char ≠ '/' ∧ ((∃ range ∈ ranges, range.1 ≤ char ∧ char ≤ range.2) ↔ negated = false)

def languageOf (tokens : List GlobToken) : Language Char :=
  (tokens.map GlobToken.language).prod

-- Matching without a table

section Plain

variable (tokens : List GlobToken) (text : Text)

mutual
def plainAt (t p : Nat) : Bool :=
  match htoken : tokens[p]? with
  | none => decide (t = text.length)
  | some (.char char) => hasAt text t (· == char) && plainAt (t + 1) (p + 1)
  | some .one => hasAt text t (· != '/') && plainAt (t + 1) (p + 1)
  | some .star =>
      plainAt t (p + 1)
        || if has : hasAt text t (· != '/') then plainAt (t + 1) p else false
  | some (.globstar false) =>
      plainAt t (p + 1) || if more : t < text.length then plainAt (t + 1) p else false
  | some (.globstar true) => plainAt t (p + 1) || plainAfterSlash t p
  | some (.class_ negated ranges) =>
      hasAt text t (inClass negated ranges) && plainAt (t + 1) (p + 1)
termination_by 2 * ((tokens.length - p) + (text.length - t)) + 1
decreasing_by
  all_goals
    have := (List.getElem?_eq_some_iff.mp htoken).1
    first
      | (have shorter := lt_of_hasAt has; omega)
      | omega

def plainAfterSlash (t p : Nat) : Bool :=
  if more : t < text.length then
    (decide (text[t] = '/') && plainAt (t + 1) (p + 1)) || plainAfterSlash (t + 1) p
  else false
termination_by 2 * ((tokens.length - p) + (text.length - t))
end

theorem plainAt_eq (t p : Nat)
    : plainAt tokens text t p
      = match tokens[p]? with
        | none => decide (t = text.length)
        | some (.char char) => hasAt text t (· == char) && plainAt tokens text (t + 1) (p + 1)
        | some .one => hasAt text t (· != '/') && plainAt tokens text (t + 1) (p + 1)
        | some .star =>
            plainAt tokens text t (p + 1)
              || (hasAt text t (· != '/') && plainAt tokens text (t + 1) p)
        | some (.globstar false) =>
            plainAt tokens text t (p + 1)
              || (decide (t < text.length) && plainAt tokens text (t + 1) p)
        | some (.globstar true) =>
            plainAt tokens text t (p + 1) || plainAfterSlash tokens text t p
        | some (.class_ negated ranges) =>
            hasAt text t (inClass negated ranges) && plainAt tokens text (t + 1) (p + 1) := by
  rw [plainAt]
  split <;> rename_i htoken <;> rw [htoken]
  · simp
  · simp

def guarded (check : Bool) (step : Memo Bool → Bool × Memo Bool) (memo : Memo Bool)
    : Bool × Memo Bool :=
  if check then step memo else (false, memo)

def orElse (first : Bool × Memo Bool) (second : Memo Bool → Bool × Memo Bool) : Bool × Memo Bool :=
  if first.1 then (true, first.2) else second first.2

/-- What a cell that is not known comes to, before it is filled. -/
def tried (t p : Nat) (memo : Memo Bool) : Bool × Memo Bool :=
  match tokens[p]? with
  | none => (decide (t = text.length), memo)
  | some (.char char) =>
      guarded (hasAt text t (· == char)) (matchesAt tokens text (t + 1) (p + 1)) memo
  | some .one => guarded (hasAt text t (· != '/')) (matchesAt tokens text (t + 1) (p + 1)) memo
  | some .star =>
      orElse (matchesAt tokens text t (p + 1) memo)
        (guarded (hasAt text t (· != '/')) (matchesAt tokens text (t + 1) p))
  | some (.globstar false) =>
      orElse (matchesAt tokens text t (p + 1) memo)
        (guarded (t < text.length) (matchesAt tokens text (t + 1) p))
  | some (.globstar true) =>
      orElse (matchesAt tokens text t (p + 1) memo) (afterSlash tokens text t p)
  | some (.class_ negated ranges) =>
      guarded (hasAt text t (inClass negated ranges)) (matchesAt tokens text (t + 1) (p + 1)) memo

theorem matchesAt_of_unknown {t p : Nat} {memo : Memo Bool} (unknown : memo.cell t p = none)
    : matchesAt tokens text t p memo
      = ((tried tokens text t p memo).1,
          (tried tokens text t p memo).2.fill t p (tried tokens text t p memo).1) := by
  rw [matchesAt, unknown]
  refine congrArg (fun result : Bool × Memo Bool => (result.1, result.2.fill t p result.1)) ?_
  rw [tried]
  split <;> rename_i htoken <;> simp only [htoken, guarded, orElse, dite_eq_ite, decide_eq_true_eq]

/-- What a matching with a table comes to: the answer that it has without one, and a table with no wrong
answer in it.
-/
def Answers (result : Bool × Memo Bool) (answer : Bool) : Prop :=
  result.1 = answer ∧ Memo.Sound (plainAt tokens text) result.2

variable {tokens text}

theorem Answers.guarded {check : Bool} {step : Memo Bool → Bool × Memo Bool} {memo : Memo Bool}
    {answer : Bool} (sound : Memo.Sound (plainAt tokens text) memo)
    (answers : check = true → Answers tokens text (step memo) answer)
    : Answers tokens text (guarded check step memo) (check && answer) := by
  cases check with
  | false => exact ⟨rfl, sound⟩
  | true => exact answers rfl

theorem Answers.orElse {first : Bool × Memo Bool} {second : Memo Bool → Bool × Memo Bool}
    {answer answer' : Bool} (answers : Answers tokens text first answer)
    (answers' : Answers tokens text (second first.2) answer')
    : Answers tokens text (orElse first second) (answer || answer') := by
  obtain ⟨found, memo⟩ := first
  obtain ⟨rfl, sound⟩ := answers
  cases found with
  | false => exact answers'
  | true => exact ⟨rfl, sound⟩

mutual
theorem matchesAt_answers (t p : Nat) (memo : Memo Bool) (sound : Memo.Sound (plainAt tokens text) memo)
    : Answers tokens text (matchesAt tokens text t p memo) (plainAt tokens text t p) := by
  cases hcell : memo.cell t p with
  | some known =>
      rw [matchesAt, hcell]
      exact ⟨sound t p known hcell, sound⟩
  | none =>
      -- What is found goes into the table, so it is enough that it is the answer.
      suffices found : Answers tokens text (tried tokens text t p memo) (plainAt tokens text t p) by
        rw [matchesAt_of_unknown tokens text hcell, found.1]
        exact ⟨rfl, found.2.fill t p⟩
      rw [plainAt_eq, tried]
      cases htoken : tokens[p]? with
      | none => exact ⟨rfl, sound⟩
      | some token =>
          have inside := (List.getElem?_eq_some_iff.mp htoken).1
          cases token with
          | char char | class_ negated ranges =>
              exact .guarded sound fun _ => matchesAt_answers (t + 1) (p + 1) memo sound
          | one => exact .guarded sound fun _ => matchesAt_answers (t + 1) (p + 1) memo sound
          | star =>
              have first := matchesAt_answers t (p + 1) memo sound
              refine first.orElse ?_
              refine .guarded first.2 fun has => ?_
              have := lt_of_hasAt has
              exact matchesAt_answers (t + 1) p _ first.2
          | globstar slash =>
              have first := matchesAt_answers t (p + 1) memo sound
              cases slash with
              | false =>
                  refine first.orElse ?_
                  refine .guarded first.2 fun more => ?_
                  have := of_decide_eq_true more
                  exact matchesAt_answers (t + 1) p _ first.2
              | true => exact first.orElse (afterSlash_answers t p _ first.2)
termination_by 2 * ((tokens.length - p) + (text.length - t)) + 1

theorem afterSlash_answers (t p : Nat) (memo : Memo Bool) (sound : Memo.Sound (plainAt tokens text) memo)
    : Answers tokens text (afterSlash tokens text t p memo) (plainAfterSlash tokens text t p) := by
  rw [afterSlash, plainAfterSlash]
  split
  · split
    · rename_i slash
      have first := matchesAt_answers (t + 1) (p + 1) memo sound
      rw [decide_eq_true slash, Bool.true_and]
      exact first.orElse (afterSlash_answers (t + 1) p _ first.2)
    · rename_i other
      rw [decide_eq_false other, Bool.false_and, Bool.false_or]
      exact afterSlash_answers (t + 1) p memo sound
  · exact ⟨rfl, sound⟩
termination_by 2 * ((tokens.length - p) + (text.length - t))
end

-- What is read of the table

/-- A call of the matching: its two places, and the table that it reads its cell of. -/
structure Call where
  t
    : Nat
  p
    : Nat
  memo
    : Memo Bool

variable (tokens text)

/-- The calls that the search for a slash makes. -/
inductive SlashCalls : Nat → Nat → Memo Bool → Call → Prop where
  | here {t p : Nat} {memo : Memo Bool}
    : text[t]? = some '/' → SlashCalls t p memo ⟨t + 1, p + 1, memo⟩
  | behind {t p : Nat} {memo : Memo Bool} {call : Call}
    : text[t]? = some '/'
      → (matchesAt tokens text (t + 1) (p + 1) memo).1 = false
      → SlashCalls (t + 1) p (matchesAt tokens text (t + 1) (p + 1) memo).2 call
      → SlashCalls t p memo call
  | past {t p : Nat} {memo : Memo Bool} {char : Char} {call : Call}
    : text[t]? = some char → char ≠ '/' → SlashCalls (t + 1) p memo call → SlashCalls t p memo call

/-- The calls that a call makes itself. -/
inductive Calls : Call → Call → Prop where
  | char {t p : Nat} {memo : Memo Bool} {char : Char}
    : memo.cell t p = none → tokens[p]? = some (.char char) → hasAt text t (· == char) = true
      → Calls ⟨t, p, memo⟩ ⟨t + 1, p + 1, memo⟩
  | one {t p : Nat} {memo : Memo Bool}
    : memo.cell t p = none → tokens[p]? = some .one → hasAt text t (· != '/') = true
      → Calls ⟨t, p, memo⟩ ⟨t + 1, p + 1, memo⟩
  | class_ {t p : Nat} {memo : Memo Bool} {negated : Bool} {ranges : List (Char × Char)}
    : memo.cell t p = none → tokens[p]? = some (.class_ negated ranges)
      → hasAt text t (inClass negated ranges) = true → Calls ⟨t, p, memo⟩ ⟨t + 1, p + 1, memo⟩
  | nothing {t p : Nat} {memo : Memo Bool} {token : GlobToken}
    : memo.cell t p = none → tokens[p]? = some token
      → (token = .star ∨ ∃ slash, token = .globstar slash) → Calls ⟨t, p, memo⟩ ⟨t, p + 1, memo⟩
  | more {t p : Nat} {memo : Memo Bool} {token : GlobToken}
    : memo.cell t p = none → tokens[p]? = some token
      → (matchesAt tokens text t (p + 1) memo).1 = false
      → (token = .star ∧ hasAt text t (· != '/') = true
        ∨ token = .globstar false ∧ t < text.length)
      → Calls ⟨t, p, memo⟩ ⟨t + 1, p, (matchesAt tokens text t (p + 1) memo).2⟩
  | segments {t p : Nat} {memo : Memo Bool} {call : Call}
    : memo.cell t p = none → tokens[p]? = some (.globstar true)
      → (matchesAt tokens text t (p + 1) memo).1 = false
      → SlashCalls tokens text t p (matchesAt tokens text t (p + 1) memo).2 call
      → Calls ⟨t, p, memo⟩ call

def firstCall : Call :=
  ⟨0, 0, Memo.blank (text.length + 1) (tokens.length + 1)⟩

variable {tokens text}

theorem SlashCalls.sound {t p : Nat} {memo : Memo Bool} {call : Call}
    (calls : SlashCalls tokens text t p memo call) (sound : Memo.Sound (plainAt tokens text) memo)
    : Memo.Sound (plainAt tokens text) call.memo := by
  induction calls with
  | here _ => exact sound
  | behind _ _ _ ih => exact ih (matchesAt_answers _ _ _ sound).2
  | past _ _ _ ih => exact ih sound

theorem Calls.sound {call call' : Call} (calls : Calls tokens text call call')
    (sound : Memo.Sound (plainAt tokens text) call.memo)
    : Memo.Sound (plainAt tokens text) call'.memo := by
  cases calls with
  | char _ _ _ | one _ _ | class_ _ _ _ | nothing _ _ _ => exact sound
  | more _ _ _ _ => exact (matchesAt_answers _ _ _ sound).2
  | segments _ _ _ inner => exact inner.sound (matchesAt_answers _ _ _ sound).2

theorem sound_of_called {call : Call}
    (called : Relation.ReflTransGen (Calls tokens text) (firstCall tokens text) call)
    : Memo.Sound (plainAt tokens text) call.memo := by
  induction called with
  | refl => exact Memo.sound_blank _ _ _
  | tail _ step ih => exact step.sound ih

theorem matches_eq_plainAt (glob : Glob) (text : Text)
    : glob.matches text = plainAt glob.tokens text 0 0 :=
  (matchesAt_answers 0 0 _ (Memo.sound_blank _ _ _)).1

end Plain

-- The language of the tokens

section Language

variable {tokens : List GlobToken} {text : Text} {t p : Nat}

theorem languageOf_drop {token : GlobToken} (htoken : tokens[p]? = some token)
    : languageOf (tokens.drop p) = token.language * languageOf (tokens.drop (p + 1)) := by
  obtain ⟨inside, rfl⟩ := List.getElem?_eq_some_iff.mp htoken
  rw [List.drop_eq_getElem_cons inside]
  exact List.prod_cons

theorem hasAt_iff {passes : Char → Bool}
    : hasAt text t passes = true
      ↔ ∃ char, text.drop t = char :: text.drop (t + 1) ∧ passes char = true := by
  unfold hasAt
  constructor
  · intro has
    cases found : text[t]? with
    | none =>
        rw [found] at has
        cases has
    | some char =>
        rw [found] at has
        obtain ⟨inside, rfl⟩ := List.getElem?_eq_some_iff.mp found
        exact ⟨text[t], List.drop_eq_getElem_cons inside, has⟩
  · rintro ⟨char, hdrop, has⟩
    have found : text[t]? = some char := by
      rw [← List.head?_drop, hdrop]
      rfl
    rw [found]
    exact has

theorem mem_single_iff {passes : Char → Bool} {letters : Char → Prop} {further : Language Char}
    {answer : Bool} (same : ∀ char, passes char = true ↔ letters char)
    (rest : hasAt text t passes = true → (answer = true ↔ text.drop (t + 1) ∈ further))
    : (hasAt text t passes && answer) = true ↔ text.drop t ∈ single letters * further := by
  rw [Bool.and_eq_true, mem_single_mul_iff]
  constructor
  · rintro ⟨has, found⟩
    obtain ⟨char, hdrop, passed⟩ := hasAt_iff.mp has
    exact ⟨char, _, hdrop, (same char).mp passed, (rest has).mp found⟩
  · rintro ⟨char, others, hdrop, chosen, member⟩
    have tail : others = text.drop (t + 1) := by
      rw [← List.tail_drop, hdrop]
      rfl
    have has := hasAt_iff.mpr ⟨char, tail ▸ hdrop, (same char).mpr chosen⟩
    exact ⟨has, (rest has).mpr (tail ▸ member)⟩

theorem inClass_iff {negated : Bool} {ranges : List (Char × Char)} {char : Char}
    : inClass negated ranges char = true
      ↔ char ≠ '/' ∧ ((∃ range ∈ ranges, range.1 ≤ char ∧ char ≤ range.2) ↔ negated = false) := by
  unfold inClass
  rw [Bool.and_eq_true, bne_iff_ne]
  refine and_congr_right fun _ => ?_
  have some_ : (ranges.any fun range => range.1 ≤ char && char ≤ range.2) = true
      ↔ ∃ range ∈ ranges, range.1 ≤ char ∧ char ≤ range.2 := by
    simp
  rw [← some_, bne_iff_ne]
  cases negated <;> simp

theorem more_iff {passes : Char → Bool} {further : Language Char} {answer : Bool}
    (rest : hasAt text t passes = true → (answer = true ↔ text.drop (t + 1) ∈ further))
    : (hasAt text t passes && answer) = true
      ↔ ∃ letter others, text.drop t = letter :: others ∧ passes letter = true ∧ others ∈ further :=
  (mem_single_iff (fun _ => Iff.rfl) rest).trans mem_single_mul_iff

theorem hasAt_any
    : hasAt text t (fun _ => true) = decide (t < text.length) := by
  unfold hasAt
  by_cases inside : t < text.length
  · rw [List.getElem?_eq_getElem inside, decide_eq_true inside]
    rfl
  · rw [List.getElem?_eq_none (by omega), decide_eq_false inside]
    rfl

mutual
theorem plainAt_iff (t p : Nat) (within : t ≤ text.length)
    : plainAt tokens text t p = true ↔ text.drop t ∈ languageOf (tokens.drop p) := by
  rw [plainAt_eq]
  cases htoken : tokens[p]? with
  | none =>
      rw [List.drop_eq_nil_of_le (List.getElem?_eq_none_iff.mp htoken)]
      change decide (t = text.length) = true ↔ text.drop t = []
      rw [decide_eq_true_eq, List.drop_eq_nil_iff]
      omega
  | some token =>
      have inside := (List.getElem?_eq_some_iff.mp htoken).1
      rw [languageOf_drop htoken]
      have next : ∀ {passes : Char → Bool}, hasAt text t passes = true →
          (plainAt tokens text (t + 1) (p + 1) = true
            ↔ text.drop (t + 1) ∈ languageOf (tokens.drop (p + 1))) :=
        fun has => plainAt_iff (t + 1) (p + 1) (lt_of_hasAt has)
      have again : ∀ {passes : Char → Bool}, hasAt text t passes = true →
          (plainAt tokens text (t + 1) p = true
            ↔ text.drop (t + 1) ∈ token.language * languageOf (tokens.drop (p + 1))) := by
        intro passes has
        have := lt_of_hasAt has
        rw [← languageOf_drop htoken]
        exact plainAt_iff (t + 1) p this
      cases token with
      | char char => exact mem_single_iff (fun _ => beq_iff_eq) next
      | one => exact mem_single_iff (fun _ => bne_iff_ne) next
      | class_ negated ranges => exact mem_single_iff (fun _ => inClass_iff) next
      | star =>
          change (plainAt tokens text t (p + 1)
            || (hasAt text t (· != '/') && plainAt tokens text (t + 1) p)) = true ↔ _
          rw [Bool.or_eq_true, plainAt_iff t (p + 1) within, more_iff again]
          simp only [bne_iff_ne]
          exact mem_within_mul_iff.symm
      | globstar slash =>
          cases slash with
          | false =>
              change (plainAt tokens text t (p + 1)
                || (decide (t < text.length) && plainAt tokens text (t + 1) p)) = true ↔ _
              rw [Bool.or_eq_true, plainAt_iff t (p + 1) within, ← hasAt_any, more_iff again]
              simp only [true_and]
              exact mem_anyRun_mul_iff.symm
          | true =>
              change (plainAt tokens text t (p + 1) || plainAfterSlash tokens text t p) = true ↔ _
              rw [Bool.or_eq_true, plainAt_iff t (p + 1) within, plainAfterSlash_iff t p]
              refine Iff.trans (or_congr Iff.rfl ?_) mem_parts_mul_iff.symm
              constructor
              · rintro ⟨place, after, found, member⟩
                refine ⟨place - t, ?_, ?_⟩
                · rw [List.getElem?_drop, Nat.add_sub_cancel' after]
                  exact found
                · rw [List.drop_drop, show t + (place - t + 1) = place + 1 by omega]
                  exact member
              · rintro ⟨place, found, member⟩
                rw [List.getElem?_drop] at found
                rw [List.drop_drop] at member
                exact ⟨t + place, Nat.le_add_right t place, found, member⟩
termination_by 2 * ((tokens.length - p) + (text.length - t)) + 1

theorem plainAfterSlash_iff (t p : Nat)
    : plainAfterSlash tokens text t p = true
      ↔ ∃ place, t ≤ place ∧ text[place]? = some '/'
        ∧ text.drop (place + 1) ∈ languageOf (tokens.drop (p + 1)) := by
  rw [plainAfterSlash]
  split
  · rename_i inside
    rw [Bool.or_eq_true, Bool.and_eq_true, decide_eq_true_eq, plainAt_iff (t + 1) (p + 1) inside,
      plainAfterSlash_iff (t + 1) p]
    constructor
    · rintro (⟨slash, member⟩ | ⟨place, after, found, member⟩)
      · exact ⟨t, Nat.le_refl t, List.getElem?_eq_some_iff.mpr ⟨inside, slash⟩, member⟩
      · exact ⟨place, by omega, found, member⟩
    · rintro ⟨place, after, found, member⟩
      rcases Nat.eq_or_lt_of_le after with rfl | later
      · exact Or.inl ⟨(List.getElem?_eq_some_iff.mp found).2, member⟩
      · exact Or.inr ⟨place, later, found, member⟩
  · rename_i outside
    constructor
    · intro absurd_
      cases absurd_
    · rintro ⟨place, after, found, _⟩
      exact absurd (Nat.lt_of_le_of_lt after (List.getElem?_eq_some_iff.mp found).1) outside
termination_by 2 * ((tokens.length - p) + (text.length - t))
end

theorem matches_iff (glob : Glob) (text : Text)
    : glob.matches text = true ↔ text ∈ languageOf glob.tokens := by
  rw [matches_eq_plainAt]
  exact plainAt_iff 0 0 (Nat.zero_le _)

end Language

end Dagron.CiExpr
