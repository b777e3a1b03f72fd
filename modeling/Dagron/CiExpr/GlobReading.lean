import Dagron.CiExpr.GlobLanguage

/-! How a pattern is written: what each character of it stands for, and the classes. The rules of the globs'
documentation are one reading of it, and what is compiled another; they part where a class begins with a
caret, and where a range of one ends in an escaped character.
-/

namespace Dagron.CiExpr

open Dagron.Library

/-- A character of a class as itself, or escaped, and what follows it. -/
inductive Written : Text → Char → Text → Prop where
  | plain {char : Char} {rest : Text} : char ≠ '\\' → Written (char :: rest) char rest
  | escaped {char : Char} {rest : Text} : Written ('\\' :: char :: rest) char rest

/-- What is left open of how a class is written: the characters that negate one, and the last character
of a range.
-/
structure ClassRules where
  negations
    : List Char
  ending
    : Text → Char → Text → Prop

def documented : ClassRules where
  negations := ['!']
  ending := Written

/-- The documented rules, and a caret that negates too. -/
def withCaret : ClassRules where
  negations := ['!', '^']
  ending := Written

/-- The rules of a class none of whose ranges ends in an escaped character. -/
def plainEnds : ClassRules where
  negations := ['!', '^']
  ending := fun text char rest => text = char :: rest ∧ char ≠ '\\'

def compiled : ClassRules where
  negations := ['!', '^']
  ending := fun text char rest => text = char :: rest

/-- Whether a range goes on here: a hyphen that is not the last character of its class. -/
def Ranged (text : Text) : Prop :=
  ∃ last rest, text = '-' :: last :: rest ∧ last ≠ ']'

/-- The members of a class, up to the bracket that closes it, and what follows that; a bracket that is the
first of them is a member.
-/
inductive Members (rules : ClassRules) : Bool → Text → List (Char × Char) → Text → Prop where
  | close {rest : Text} : Members rules false (']' :: rest) [] rest
  | one {first : Bool} {text rest after : Text} {char : Char} {ranges : List (Char × Char)}
    : (text.head? = some ']' → first = true) → Written text char rest → ¬ Ranged rest
      → Members rules false rest ranges after → Members rules first text ((char, char) :: ranges) after
  | range {first : Bool} {text rest rest' after : Text} {char last : Char}
      {ranges : List (Char × Char)}
    : (text.head? = some ']' → first = true) → Written text char ('-' :: rest) → Ranged ('-' :: rest)
      → rules.ending rest last rest' → char ≤ last
      → Members rules false rest' ranges after → Members rules first text ((char, last) :: ranges) after

/-- The tokens that a pattern writes. -/
inductive Spells (rules : ClassRules) : Text → List GlobToken → Prop where
  | nil : Spells rules [] []
  | escaped {char : Char} {rest : Text} {tokens : List GlobToken}
    : Spells rules rest tokens → Spells rules ('\\' :: char :: rest) (.char char :: tokens)
  | segments {rest : Text} {tokens : List GlobToken}
    : Spells rules rest tokens → Spells rules ('*' :: '*' :: '/' :: rest) (.globstar true :: tokens)
  | globstar {rest : Text} {tokens : List GlobToken}
    : rest.head? ≠ some '/' → rest.head? ≠ some '*' → Spells rules rest tokens
      → Spells rules ('*' :: '*' :: rest) (.globstar false :: tokens)
  | star {rest : Text} {tokens : List GlobToken}
    : rest.head? ≠ some '*' → Spells rules rest tokens → Spells rules ('*' :: rest) (.star :: tokens)
  | one {rest : Text} {tokens : List GlobToken}
    : Spells rules rest tokens → Spells rules ('?' :: rest) (.one :: tokens)
  | class_ {text rest : Text} {ranges : List (Char × Char)} {tokens : List GlobToken}
    : (∀ char ∈ rules.negations, text.head? ≠ some char) → Members rules true text ranges rest
      → Spells rules rest tokens → Spells rules ('[' :: text) (.class_ false ranges :: tokens)
  | negated {char : Char} {text rest : Text} {ranges : List (Char × Char)} {tokens : List GlobToken}
    : char ∈ rules.negations → Members rules true text ranges rest
      → Spells rules rest tokens → Spells rules ('[' :: char :: text) (.class_ true ranges :: tokens)
  | char {char : Char} {rest : Text} {tokens : List GlobToken}
    : char ∉ ['\\', '*', '?', '['] → Spells rules rest tokens
      → Spells rules (char :: rest) (.char char :: tokens)

def Denoted (rules : ClassRules) (pattern : Text) : Language Char :=
  {text | ∃ tokens, Spells rules pattern tokens ∧ text ∈ languageOf tokens}

/-- No range of a class of the pattern ends in an escaped character. -/
def PlainEnds (pattern : Text) : Prop :=
  ∃ tokens, Spells plainEnds pattern tokens

-- One reading

theorem Written.unique {text rest rest' : Text} {char char' : Char} (written : Written text char rest)
    (written' : Written text char' rest')
    : char = char' ∧ rest = rest' := by
  cases written with
  | plain hne =>
      cases written' with
      | plain _ => exact ⟨rfl, rfl⟩
      | escaped => exact absurd rfl hne
  | escaped =>
      cases written' with
      | plain hne => exact absurd rfl hne
      | escaped => exact ⟨rfl, rfl⟩

theorem written_iff {text rest : Text} {char : Char}
    : Written text char rest ↔ letter text = some (char, rest) := by
  constructor
  · intro written
    cases written with
    | plain hne => simp [letter, hne]
    | escaped => rfl
  · intro read
    unfold letter at read
    split at read
    · cases read
    · cases read
    · cases read
      exact .escaped
    · rename_i text' char' rest' alone more
      cases read
      refine .plain fun same => ?_
      subst same
      cases rest with
      | nil => exact alone rfl rfl
      | cons next others => exact more next others rfl rfl

theorem Members.unique {rules : ClassRules}
    (ending : ∀ {text char rest char' rest'}, rules.ending text char rest →
      rules.ending text char' rest' → char = char' ∧ rest = rest')
    {first : Bool} {text after after' : Text} {ranges ranges' : List (Char × Char)}
    (members : Members rules first text ranges after)
    (members' : Members rules first text ranges' after')
    : ranges = ranges' ∧ after = after' := by
  induction members generalizing ranges' after' with
  | close =>
      cases members' with
      | close => exact ⟨rfl, rfl⟩
      | one hfirst _ _ _ | range hfirst _ _ _ _ _ => cases hfirst rfl
  | one hfirst written single_ _ ih =>
      cases members' with
      | close => cases hfirst rfl
      | one _ written' _ more =>
          obtain ⟨rfl, rfl⟩ := written.unique written'
          obtain ⟨rfl, rfl⟩ := ih more
          exact ⟨rfl, rfl⟩
      | range _ written' ranged _ _ _ =>
          obtain ⟨rfl, rfl⟩ := written.unique written'
          exact absurd ranged single_
  | range hfirst written ranged hend _ _ ih =>
      cases members' with
      | close => cases hfirst rfl
      | one _ written' single_ _ =>
          obtain ⟨rfl, rfl⟩ := written.unique written'
          exact absurd ranged single_
      | range _ written' _ hend' _ more =>
          obtain ⟨rfl, same⟩ := written.unique written'
          cases same
          obtain ⟨rfl, rfl⟩ := ending hend hend'
          obtain ⟨rfl, rfl⟩ := ih more
          exact ⟨rfl, rfl⟩

theorem Spells.unique {rules : ClassRules}
    (ending : ∀ {text char rest char' rest'}, rules.ending text char rest →
      rules.ending text char' rest' → char = char' ∧ rest = rest')
    {text : Text} {tokens tokens' : List GlobToken} (spells : Spells rules text tokens)
    (spells' : Spells rules text tokens')
    : tokens = tokens' := by
  induction spells generalizing tokens' with
  | nil =>
      cases spells'
      rfl
  | escaped _ ih =>
      cases spells' with
      | escaped more => rw [ih more]
      | char plain _ => exact absurd (by simp) plain
  | segments _ ih =>
      cases spells' with
      | segments more => rw [ih more]
      | globstar noSlash _ _ => exact absurd rfl noSlash
      | star noStar _ => exact absurd rfl noStar
      | char plain _ => exact absurd (by simp) plain
  | globstar noSlash noStar _ ih =>
      cases spells' with
      | segments _ => exact absurd rfl noSlash
      | globstar _ _ more => rw [ih more]
      | star noStar _ => exact absurd rfl noStar
      | char plain _ => exact absurd (by simp) plain
  | star noStar _ ih =>
      cases spells' with
      | segments _ | globstar _ _ _ => exact absurd rfl noStar
      | star _ more => rw [ih more]
      | char plain _ => exact absurd (by simp) plain
  | one _ ih =>
      cases spells' with
      | one more => rw [ih more]
      | char plain _ => exact absurd (by simp) plain
  | class_ positive members _ ih =>
      cases spells' with
      | class_ _ members' more =>
          obtain ⟨rfl, rfl⟩ := members.unique ending members'
          rw [ih more]
      | negated negates _ _ => exact absurd rfl (positive _ negates)
      | char plain _ => exact absurd (by simp) plain
  | negated negates members _ ih =>
      cases spells' with
      | class_ positive _ _ => exact absurd rfl (positive _ negates)
      | negated _ members' more =>
          obtain ⟨rfl, rfl⟩ := members.unique ending members'
          rw [ih more]
      | char plain _ => exact absurd (by simp) plain
  | char plain _ ih =>
      cases spells' with
      | char _ more => rw [ih more]
      | _ => exact absurd (by simp) plain

theorem Members.mono {rules rules' : ClassRules}
    (ending : ∀ {text char rest}, rules.ending text char rest → rules'.ending text char rest)
    {first : Bool} {text after : Text} {ranges : List (Char × Char)}
    (members : Members rules first text ranges after)
    : Members rules' first text ranges after := by
  induction members with
  | close => exact .close
  | one hfirst written single_ _ ih => exact .one hfirst written single_ ih
  | range hfirst written ranged hend le _ ih => exact .range hfirst written ranged (ending hend) le ih

theorem Spells.mono {rules rules' : ClassRules} (negations : rules'.negations = rules.negations)
    (ending : ∀ {text char rest}, rules.ending text char rest → rules'.ending text char rest)
    {text : Text} {tokens : List GlobToken} (spells : Spells rules text tokens)
    : Spells rules' text tokens := by
  induction spells with
  | nil => exact .nil
  | escaped _ ih => exact .escaped ih
  | segments _ ih => exact .segments ih
  | globstar noSlash noStar _ ih => exact .globstar noSlash noStar ih
  | star noStar _ ih => exact .star noStar ih
  | one _ ih => exact .one ih
  | class_ positive members _ ih =>
      exact .class_ (negations ▸ positive) (members.mono ending) ih
  | negated negates members _ ih =>
      exact .negated (negations ▸ negates) (members.mono ending) ih
  | char plain _ ih => exact .char plain ih

-- What is compiled

theorem rangeEnd_iff {text rest : Text} {last : Char}
    : rangeEnd text = some (last, rest) ↔ text = '-' :: last :: rest ∧ last ≠ ']' := by
  unfold rangeEnd
  split
  · rename_i last' rest'
    by_cases close : last' = ']'
    · simp only [close, ne_eq, not_true_eq_false, if_false]
      constructor
      · intro absurd_
        cases absurd_
      · rintro ⟨same, hne⟩
        cases same
        exact absurd rfl hne
    · simp only [close, ne_eq, not_false_eq_true, if_true, Option.some_inj, Prod.mk.injEq]
      constructor
      · rintro ⟨rfl, rfl⟩
        exact ⟨rfl, close⟩
      · rintro ⟨same, _⟩
        cases same
        exact ⟨rfl, rfl⟩
  · rename_i other
    constructor
    · intro absurd_
      cases absurd_
    · rintro ⟨same, _⟩
      exact absurd same (other _ _)

theorem rangeEnd_eq_none_iff {text : Text}
    : rangeEnd text = none ↔ ¬ Ranged text := by
  rw [Option.eq_none_iff_forall_not_mem]
  constructor
  · rintro none_ ⟨last, rest, rfl, hne⟩
    exact none_ (last, rest) (rangeEnd_iff.mpr ⟨rfl, hne⟩)
  · rintro single_ ⟨last, rest⟩ found
    obtain ⟨same, hne⟩ := rangeEnd_iff.mp found
    exact single_ ⟨last, rest, same, hne⟩

theorem ranges_eq (first : Bool) (chars : Text)
    : ranges first chars
      = if chars.head? = some ']' ∧ first = false then some ([], chars.tail)
        else (letter chars).bind fun (char, rest) =>
          match rangeEnd rest with
          | some (last, rest') =>
              if last < char then none
              else (ranges false rest').map fun (more, next) => ((char, last) :: more, next)
          | none => (ranges false rest).map fun (more, next) => ((char, char) :: more, next) := by
  rw [ranges]
  simp only [Bool.not_eq_true']
  split
  · rfl
  · split <;> rename_i hletter <;> rw [hletter]
    · rfl
    · rw [Option.bind_some]
      split <;> rename_i hend <;> rw [hend]

theorem ranges_eq_some_iff {first : Bool} {text after : Text} {found : List (Char × Char)}
    : ranges first text = some (found, after) ↔ Members compiled first text found after := by
  constructor
  · intro read
    induction hsize : text.length using Nat.strongRecOn generalizing first text found with
    | _ size ih =>
        rw [ranges_eq] at read
        split at read
        · rename_i closed
          cases read
          cases text with
          | nil => cases closed.1
          | cons char rest =>
              obtain ⟨same, rfl⟩ := closed
              cases same
              exact .close
        · rename_i going
          have hfirst : text.head? = some ']' → first = true := by
            intro close
            simpa [close] using going
          obtain ⟨⟨char, rest⟩, hletter, read⟩ := Option.bind_eq_some_iff.mp read
          have shorter := length_of_letter hletter
          have written := written_iff.mpr hletter
          cases hend : rangeEnd rest with
          | none =>
              simp only [hend] at read
              obtain ⟨⟨more, _⟩, hmore, same⟩ := Option.map_eq_some_iff.mp read
              cases same
              exact .one hfirst written (rangeEnd_eq_none_iff.mp hend) (ih _ (hsize ▸ shorter) hmore rfl)
          | some ended =>
              obtain ⟨last, rest'⟩ := ended
              simp only [hend] at read
              split at read
              · cases read
              · rename_i le
                obtain ⟨⟨more, _⟩, hmore, same⟩ := Option.map_eq_some_iff.mp read
                cases same
                have shorter' := length_of_rangeEnd hend
                obtain ⟨rfl, hne⟩ := rangeEnd_iff.mp hend
                exact .range hfirst written ⟨last, rest', rfl, hne⟩ rfl (Char.not_lt.mp le)
                  (ih _ (hsize ▸ shorter'.trans shorter) hmore rfl)
  · intro members
    induction members with
    | close => simp [ranges_eq]
    | one hfirst written single_ _ ih =>
        rw [ranges_eq, if_neg (by simpa using hfirst), written_iff.mp written, Option.bind_some]
        simp only [rangeEnd_eq_none_iff.mpr single_, ih, Option.map_some]
    | range hfirst written ranged hend le _ ih =>
        obtain ⟨_, _, same, hne⟩ := ranged
        cases same
        cases hend
        rw [ranges_eq, if_neg (by simpa using hfirst), written_iff.mp written, Option.bind_some]
        simp only [rangeEnd_iff.mpr ⟨rfl, hne⟩, Char.not_lt.mpr le, if_false, ih, Option.map_some]

theorem class_eq_some_iff {text after : Text} {token : GlobToken}
    : class_ text = some (token, after)
      ↔ (∃ found, token = .class_ false found ∧ (∀ char ∈ compiled.negations, text.head? ≠ some char)
          ∧ Members compiled true text found after)
        ∨ ∃ char rest found, token = .class_ true found ∧ text = char :: rest
          ∧ char ∈ compiled.negations ∧ Members compiled true rest found after := by
  have negates : (text.head? = some '!' ∨ text.head? = some '^')
      ↔ ∃ char ∈ compiled.negations, text.head? = some char := by
    simp [compiled]
  unfold class_
  simp only [← ranges_eq_some_iff]
  by_cases negated : text.head? = some '!' ∨ text.head? = some '^'
  · obtain ⟨char, hchar, hhead⟩ := negates.mp negated
    cases text with
    | nil => cases hhead
    | cons first rest =>
        obtain rfl := Option.some_inj.mp hhead
        simp only [negated, if_true, List.tail_cons, decide_true]
        constructor
        · intro read
          obtain ⟨⟨found, _⟩, hfound, same⟩ := Option.map_eq_some_iff.mp read
          cases same
          exact Or.inr ⟨first, rest, found, rfl, rfl, hchar, hfound⟩
        · rintro (⟨_, _, positive, _⟩ | ⟨_, _, found, rfl, same, _, hfound⟩)
          · exact absurd rfl (positive first hchar)
          · cases same
            rw [hfound]
            rfl
  · simp only [negated, if_false, decide_false]
    constructor
    · intro read
      obtain ⟨⟨found, _⟩, hfound, same⟩ := Option.map_eq_some_iff.mp read
      cases same
      exact Or.inl ⟨found, rfl, fun char hchar hhead => negated (negates.mpr ⟨char, hchar, hhead⟩),
        hfound⟩
    · rintro (⟨found, rfl, _, hfound⟩ | ⟨char, rest, _, _, rfl, hchar, _⟩)
      · rw [hfound]
        rfl
      · exact absurd (negates.mpr ⟨char, hchar, rfl⟩) negated

theorem map_cons_eq_ok_iff {token : GlobToken} {read : Except String (List GlobToken)}
    {tokens : List GlobToken}
    : read.map (token :: ·) = .ok tokens ↔ ∃ more, read = .ok more ∧ tokens = token :: more := by
  cases read with
  | error why =>
      constructor
      · intro absurd_
        cases absurd_
      · rintro ⟨_, absurd_, _⟩
        cases absurd_
  | ok more =>
      constructor
      · intro same
        cases same
        exact ⟨more, rfl, rfl⟩
      · rintro ⟨_, same, rfl⟩
        cases same
        rfl

theorem map_cons_spells {debug : Text → Text} {pattern chars : Text} {token : GlobToken}
    {tokens : List GlobToken}
    (shorter : ∀ more, compile debug pattern chars = .ok more → Spells compiled chars more)
    (read : (compile debug pattern chars).map (token :: ·) = .ok tokens)
    : ∃ more, tokens = token :: more ∧ Spells compiled chars more := by
  obtain ⟨more, hmore, rfl⟩ := map_cons_eq_ok_iff.mp read
  exact ⟨more, rfl, shorter more hmore⟩

theorem spells_of_compile {debug : Text → Text} {pattern chars : Text} {tokens : List GlobToken}
    (read : compile debug pattern chars = .ok tokens)
    : Spells compiled chars tokens := by
  induction hsize : chars.length using Nat.strongRecOn generalizing chars tokens with
  | _ size ih =>
      have shorter : ∀ {rest : Text}, rest.length < chars.length → ∀ more,
          compile debug pattern rest = .ok more → Spells compiled rest more :=
        fun less more hmore => ih _ (hsize ▸ less) hmore rfl
      rw [compile.eq_def] at read
      split at read
      · cases read
        exact .nil
      · split at read
        · cases read
        · obtain ⟨more, rfl, spells⟩ := map_cons_spells (shorter (by simp only [List.length_cons]; omega)) read
          exact .escaped spells
      · split at read
        · cases read
        · obtain ⟨more, rfl, spells⟩ := map_cons_spells (shorter (by simp only [List.length_cons]; omega)) read
          exact .segments spells
        · rename_i rest noStar noSlash
          obtain ⟨more, rfl, spells⟩ := map_cons_spells (shorter (by simp only [List.length_cons]; omega)) read
          refine .globstar ?_ ?_ spells
          · intro slash
            obtain ⟨others, rfl⟩ := List.head?_eq_some_iff.mp slash
            exact noSlash others rfl
          · intro star
            obtain ⟨others, rfl⟩ := List.head?_eq_some_iff.mp star
            exact noStar others rfl
      · rename_i rest noStar
        obtain ⟨more, rfl, spells⟩ := map_cons_spells (shorter (by simp)) read
        refine .star ?_ spells
        intro star
        obtain ⟨others, rfl⟩ := List.head?_eq_some_iff.mp star
        exact noStar others rfl
      · obtain ⟨more, rfl, spells⟩ := map_cons_spells (shorter (by simp)) read
        exact .one spells
      · split at read
        · cases read
        · rename_i rest token next hclass
          have less := length_of_class hclass
          obtain ⟨more, rfl, spells⟩ := map_cons_spells (shorter less) read
          rcases class_eq_some_iff.mp hclass with
            ⟨found, rfl, positive, members⟩ | ⟨char, rest, found, rfl, rfl, negates, members⟩
          · exact .class_ positive members spells
          · exact .negated negates members spells
      · rename_i char rest _ noStars noStar noOne noClass
        obtain ⟨more, rfl, spells⟩ := map_cons_spells (shorter (by simp)) read
        refine .char ?_ spells
        simp_all

theorem compile_class {debug : Text → Text} {pattern chars next : Text} {token : GlobToken}
    {more : List GlobToken} (hclass : class_ chars = some (token, next))
    (rest : compile debug pattern next = .ok more)
    : compile debug pattern ('[' :: chars) = .ok (token :: more) := by
  rw [compile]
  split
  · rename_i unclosed
    rw [hclass] at unclosed
    cases unclosed
  · rename_i closed
    rw [hclass] at closed
    cases closed
    rw [rest]
    rfl

theorem compile_of_spells {debug : Text → Text} {pattern chars : Text} {tokens : List GlobToken}
    (spells : Spells compiled chars tokens)
    : compile debug pattern chars = .ok tokens := by
  induction spells with
  | nil => rw [compile]
  | escaped _ ih | segments _ ih | one _ ih =>
      rw [compile, ih]
      rfl
  | globstar noSlash noStar _ ih =>
      rw [compile, ih]
      · rfl
      · rintro others rfl
        exact noStar rfl
      · rintro others rfl
        exact noSlash rfl
  | star noStar _ ih =>
      rw [compile, ih]
      · rfl
      · rintro others rfl
        exact noStar rfl
  | class_ positive members _ ih =>
      exact compile_class (class_eq_some_iff.mpr (Or.inl ⟨_, rfl, positive, members⟩)) ih
  | negated negates members _ ih =>
      exact compile_class (class_eq_some_iff.mpr (Or.inr ⟨_, _, _, rfl, rfl, negates, members⟩)) ih
  | char plain _ ih =>
      simp only [List.mem_cons, List.not_mem_nil, or_false, not_or] at plain
      obtain ⟨noEscape, noStar, noOne, noClass⟩ := plain
      rw [compile, ih]
      · rfl
      · exact noEscape
      · exact fun others same _ => noStar same
      · exact noStar
      · exact noOne
      · exact noClass

-- What a glob stands for

theorem new_eq_ok_iff {debug : Text → Text} {pattern : Text} {glob : Glob}
    : Glob.new debug pattern = .ok glob
      ↔ pattern ≠ [] ∧ pattern.any isControl = false ∧ glob.source = pattern
        ∧ Spells compiled pattern glob.tokens := by
  unfold Glob.new
  by_cases empty : pattern = []
  · simp [empty]
  by_cases control : pattern.any isControl = true
  · simp [empty, control, wrong]
  · rw [if_neg empty, if_neg control]
    cases read : compile debug pattern pattern with
    | error why =>
        constructor
        · intro absurd_
          cases absurd_
        · rintro ⟨_, _, _, spells⟩
          rw [compile_of_spells spells] at read
          cases read
    | ok tokens =>
        have spells := spells_of_compile read
        constructor
        · intro same
          cases same
          exact ⟨empty, by simpa using control, rfl, spells⟩
        · rintro ⟨_, _, rfl, spells'⟩
          rw [compile_of_spells spells'] at read
          cases read
          rfl

theorem compiled_ending {text rest rest' : Text} {char char' : Char}
    (ends : compiled.ending text char rest) (ends' : compiled.ending text char' rest')
    : char = char' ∧ rest = rest' := by
  cases ends
  cases ends'
  exact ⟨rfl, rfl⟩

/-- A glob matches the texts that its pattern stands for by the rules that it is compiled by. -/
theorem matches_iff_compiled {debug : Text → Text} {pattern : Text} {glob : Glob}
    (compiles : Glob.new debug pattern = .ok glob) (text : Text)
    : glob.matches text = true ↔ text ∈ Denoted compiled pattern := by
  obtain ⟨_, _, _, spells⟩ := new_eq_ok_iff.mp compiles
  rw [matches_iff]
  constructor
  · exact fun member => ⟨glob.tokens, spells, member⟩
  · rintro ⟨tokens, spells', member⟩
    rwa [spells.unique compiled_ending spells']

/-- Where no range ends in an escaped character, what is compiled is what is documented but for the caret. -/
theorem denoted_compiled_eq {pattern : Text} (plain : PlainEnds pattern)
    : Denoted compiled pattern = Denoted withCaret pattern := by
  obtain ⟨tokens, spells⟩ := plain
  have asCompiled := @Spells.mono plainEnds compiled rfl (fun ends => ends.1) _ _ spells
  have asCaret : Spells withCaret pattern tokens := by
    refine @Spells.mono plainEnds withCaret rfl ?_ _ _ spells
    rintro _ _ _ ⟨rfl, hne⟩
    exact .plain hne
  refine Language.ext fun text => ⟨?_, ?_⟩
  · rintro ⟨tokens', spells', member⟩
    rw [spells'.unique compiled_ending asCompiled] at member
    exact ⟨tokens, asCaret, member⟩
  · rintro ⟨tokens', spells', member⟩
    rw [spells'.unique Written.unique asCaret] at member
    exact ⟨tokens, asCompiled, member⟩

theorem mem_languageOf_class_iff {negated : Bool} {ranges : List (Char × Char)} {char : Char}
    : [char] ∈ languageOf [.class_ negated ranges] ↔ inClass negated ranges char = true := by
  rw [inClass_iff]
  constructor
  · intro member
    obtain ⟨letter, _, same, chosen, _⟩ := mem_single_mul_iff.mp member
    cases same
    exact chosen
  · intro chosen
    exact mem_single_mul_iff.mpr ⟨char, [], rfl, chosen, rfl⟩

/-- A class that begins with a caret is compiled to what it leaves out, and a range whose end is escaped to
one that ends in the backslash: the texts that they match are not those of the documentation.
-/
theorem class_is_not_documented
    : (∃ glob, Glob.new id ['[', '^', 'a', ']'] = .ok glob ∧ glob.matches ['b'] = true
        ∧ ['b'] ∉ Denoted documented ['[', '^', 'a', ']'])
      ∧ ∃ glob, Glob.new id ['[', 'A', '-', '\\', 'z', ']'] = .ok glob ∧ glob.matches ['a'] = false
        ∧ ['a'] ∈ Denoted documented ['[', 'A', '-', '\\', 'z', ']'] := by
  constructor
  · refine ⟨⟨['[', '^', 'a', ']'], [.class_ true [('a', 'a')]]⟩, by decide +kernel, by decide +kernel, ?_⟩
    have spells : Spells documented ['[', '^', 'a', ']'] [.class_ false [('^', '^'), ('a', 'a')]] := by
      refine .class_ (by simp [documented]) (.one (by decide) (.plain (by decide)) ?_ (.one (by decide)
        (.plain (by decide)) ?_ .close)) .nil
      · rintro ⟨last, rest, same, _⟩
        cases same
      · rintro ⟨last, rest, same, _⟩
        cases same
    rintro ⟨tokens, spells', member⟩
    rw [spells'.unique Written.unique spells] at member
    exact absurd (mem_languageOf_class_iff.mp member) (by decide)
  · refine ⟨⟨['[', 'A', '-', '\\', 'z', ']'], [.class_ false [('A', '\\'), ('z', 'z')]]⟩,
      by decide +kernel, by decide +kernel, [.class_ false [('A', 'z')]], ?_, mem_languageOf_class_iff.mpr (by decide)⟩
    exact .class_ (by simp [documented]) (.range (by decide) (.plain (by decide))
      ⟨'\\', ['z', ']'], rfl, by decide⟩ .escaped (by decide) .close) .nil

/-- The pattern that decides a name: it matches the name, and none after it in the list does. -/
def Decides (patterns : Patterns) (name : Text) (pattern : Bool × Glob) : Prop :=
  ∃ before after, patterns = before ++ pattern :: after ∧ pattern.2.matches name = true
    ∧ ∀ other ∈ after, other.2.matches name = false

theorem find_reverse_eq_some_iff {patterns : Patterns} {name : Text} {pattern : Bool × Glob}
    : (patterns.reverse.find? fun (_, glob) => glob.matches name) = some pattern
      ↔ Decides patterns name pattern := by
  rw [List.find?_eq_some_iff_append]
  constructor
  · rintro ⟨found, after, before, same, others⟩
    refine ⟨before.reverse, after.reverse, ?_, found, ?_⟩
    · rw [← List.reverse_reverse patterns, same]
      simp
    · intro other member
      simpa using others other (List.mem_reverse.mp member)
  · rintro ⟨before, after, rfl, found, others⟩
    refine ⟨found, after.reverse, before.reverse, by simp, ?_⟩
    intro other member
    simpa using others other (List.mem_reverse.mp member)

theorem matches_of_decides {patterns : Patterns} {name : Text} {pattern : Bool × Glob}
    (decides : Decides patterns name pattern)
    : patterns.matches name = pattern.1 := by
  unfold Patterns.matches
  rw [find_reverse_eq_some_iff.mpr decides]
  rfl

theorem matches_of_none {patterns : Patterns} {name : Text}
    (none_ : ∀ pattern ∈ patterns, pattern.2.matches name = false)
    : patterns.matches name = false := by
  unfold Patterns.matches
  rw [List.find?_eq_none.mpr]
  · rfl
  · intro pattern member
    simpa using none_ pattern (List.mem_reverse.mp member)

/-- Where no range of a class ends in an escaped character, a glob matches the texts that its pattern stands
for, with a caret as another way to negate a class; every cell of the table holds what the matching without
one comes to when it is read; and the last pattern of a list that matches a name decides it.
-/
theorem glob_is_its_language (debug : Text → Text)
    : (∀ pattern glob, Glob.new debug pattern = .ok glob → PlainEnds pattern →
        ∀ text, glob.matches text = true ↔ text ∈ Denoted withCaret pattern)
      ∧ (∀ (glob : Glob) (text : Text) (call : Call) (known : Bool),
          Relation.ReflTransGen (Calls glob.tokens text) (firstCall glob.tokens text) call →
          call.memo.cell call.t call.p = some known →
          known = plainAt glob.tokens text call.t call.p)
      ∧ ∀ (patterns : Patterns) (name : Text),
          (∀ pattern, Decides patterns name pattern → patterns.matches name = pattern.1)
          ∧ ((∀ pattern ∈ patterns, pattern.2.matches name = false) →
            patterns.matches name = false) := by
  refine ⟨?_, ?_, fun patterns name => ⟨fun _ => matches_of_decides, matches_of_none⟩⟩
  · intro pattern glob compiles plain text
    rw [matches_iff_compiled compiles, denoted_compiled_eq plain]
  · intro glob text call known called read
    exact sound_of_called called _ _ _ read

/-- The pattern of a branch's name, with a class and both stars. -/
theorem glob_is_its_language_branch
    : ∃ glob, Glob.new id ['[', '^', 'a', ']', '*', '*', '/', '*'] = .ok glob
      ∧ (glob.matches ['b', '/', 'c'] = true
        ↔ ['b', '/', 'c'] ∈ Denoted withCaret ['[', '^', 'a', ']', '*', '*', '/', '*'])
      ∧ (∀ known, (firstCall glob.tokens ['b']).memo.cell 0 0 = some known →
          known = plainAt glob.tokens ['b'] 0 0)
      ∧ Patterns.matches [(true, glob)] ['b'] = true := by
  have plain : PlainEnds ['[', '^', 'a', ']', '*', '*', '/', '*'] :=
    ⟨_, .negated (by decide) (.one (by decide) (.plain (by decide))
      (by rintro ⟨_, _, same, _⟩; cases same) .close) (.segments (.star (by decide) .nil))⟩
  have compiles : Glob.new id ['[', '^', 'a', ']', '*', '*', '/', '*']
      = .ok ⟨['[', '^', 'a', ']', '*', '*', '/', '*'],
          [.class_ true [('a', 'a')], .globstar true, .star]⟩ := by
    decide +kernel
  refine ⟨_, compiles, (glob_is_its_language id).1 _ _ compiles plain _,
    fun known => (glob_is_its_language id).2.1 _ _ (firstCall _ _) known .refl,
    ((glob_is_its_language id).2.2 _ _).1 (true, _) ⟨[], [], rfl, ?_, by simp⟩⟩
  decide +kernel

end Dagron.CiExpr
