import Dagron.CiExpr.Cut

/-! What an outsider chooses is no text of a script: an expression that is pasted comes to the same against
any two hosts that differ in nothing but what outsiders choose, and any other one is a variable there.
-/

namespace Dagron.CiExpr

open Dagron.Spec

variable {ext : Externals}

/-- Whether two hosts differ in nothing but what outsiders choose. -/
structure Agree (first second : Host ext) : Prop where
  own
    : ∀ name, toAsciiLowercase name ∈ ownContexts → first.context name = second.context name
  github
    : ∀ name, toAsciiLowercase name = "github".toList →
      ∀ property, toAsciiLowercase property ∈ notAnOutsiders →
        (first.context name).map (fun value => value.get property)
          = (second.context name).map fun value => value.get property
  calls
    : first.call = second.call

-- Values

/-- A text that begins with no white space still begins as it did without what is at its ends. -/
theorem trim_head {char : Char} (rest : Text) (is : isSpace char = false)
    : ∃ rest', trim (char :: rest) = char :: rest' := by
  rw [trim, trimStart, List.dropWhile_cons_of_neg (by simp [is]), trimEnd, List.reverse_cons]
  obtain ⟨kept, same⟩ : ∃ kept, (rest.reverse ++ [char]).dropWhile isSpace = kept ++ [char] := by
    induction rest.reverse with
    | nil => exact ⟨[], by simp [is]⟩
    | cons last more ih =>
        by_cases space : isSpace last
        · rw [List.cons_append, List.dropWhile_cons_of_pos space]
          exact ih
        · exact ⟨last :: more, by rw [List.cons_append, List.dropWhile_cons_of_neg space]⟩
  exact ⟨kept.reverse, by simp [same]⟩

theorem isAlpha_iff {char : Char}
    : char.isAlpha ↔ 65 ≤ char.toNat ∧ char.toNat ≤ 90 ∨ 97 ≤ char.toNat ∧ char.toNat ≤ 122 := by
  delta Char.isAlpha Char.isUpper Char.isLower
  simp [UInt32.le_iff_toNat_le]

theorem isAlpha_of_toLower {char : Char} (letter : char.toLower.isAlpha)
    : char.isAlpha := by
  unfold Char.toLower at letter
  split at letter
  case isTrue upper =>
    rw [isAlpha_iff]
    exact Or.inl (by simpa [UInt32.le_iff_toNat_le] using upper)
  case isFalse => exact letter

theorem isSpace_of_isAlpha {char : Char} (letter : char.isAlpha)
    : isSpace char = false := by
  rw [isAlpha_iff] at letter
  simp [isSpace]
  omega

theorem parseNumber_letter {char : Char} (rest : Text) (letter : char.isAlpha)
    : parseNumber ext (char :: rest) = none := by
  have other {mark : Char} (none_ : mark.isAlpha = false) : mark ≠ char := by
    rintro rfl
    exact absurd letter (by simp [none_])
  have minus : '-' ≠ char := other (by decide)
  have plus : '+' ≠ char := other (by decide)
  have zero : '0' ≠ char := other (by decide)
  have point : '.' ≠ char := other (by decide)
  have digit : char.isDigit = false := by
    rw [isAlpha_iff] at letter
    simp only [Char.isDigit, UInt32.le_iff_toNat_le, ge_iff_le, Bool.and_eq_false_iff,
      decide_eq_false_iff_not]
    simp
    omega
  simp [parseNumber, dropStart, minus, plus, zero, digit, point.symm]

theorem at_property {property : Text} (listed : toAsciiLowercase property ∈ notAnOutsiders)
    (value : Value ext.Num)
    : value.at_ (.string property) = value.get property := by
  have letters : notAnOutsiders.all (fun name => name.head?.any Char.isAlpha) = true := by decide
  obtain ⟨first, begins, letter⟩ := (Option.any_eq_true ..).mp (List.all_eq_true.mp letters _ listed)
  cases property with
  | nil => exact absurd begins nofun
  | cons char rest =>
      obtain rfl := Option.some.inj begins
      have letter := isAlpha_of_toLower letter
      obtain ⟨rest', trimmed⟩ := trim_head rest (isSpace_of_isAlpha letter)
      have number : ext.whole (Value.string (char :: rest)).toNumber = none := by
        rw [Value.toNumber, trimmed, parseNumber_letter rest' letter]
        exact ext.whole_nan
      cases value <;> simp [Value.at_, Value.get, Value.text, number]

-- Trees

variable {first second : Host ext}

theorem call_congr (agree : Agree first second)
    : call first = call second := by
  funext at_ name args
  simp only [call, agree.calls]

theorem eval_property (agree : Agree first second) {name property : Text} (own : ours (name, some property))
    : (first.context name).map (fun value => value.get property)
        = (second.context name).map fun value => value.get property := by
  simp only [ours] at own
  split_ifs at own with mine github
  · rw [agree.own name mine]
  · exact agree.github name github property (by simpa using own)

theorem eval_index (agree : Agree first second) {name property : Text} (own : ours (name, some property))
    : (first.context name).map (fun value => value.at_ (.string property))
        = (second.context name).map fun value => value.at_ (.string property) := by
  have same := eval_property agree own
  simp only [ours] at own
  split_ifs at own with mine github
  · rw [agree.own name mine]
  · have listed : toAsciiLowercase property ∈ notAnOutsiders := by simpa using own
    simpa only [at_property listed] using same

theorem contexts_property {base : Node ext.Num} {property : Text} (other : ¬∃ name, base = .context name)
    : (Node.property base property).contexts = base.contexts := by
  cases base with
  | context name => exact absurd ⟨name, rfl⟩ other
  | _ => simp [Node.contexts]

theorem contexts_index {base index : Node ext.Num}
    (other : ¬∃ name property, base = .context name ∧ index = .literal (.string property))
    : (Node.index base index).contexts = base.contexts ++ index.contexts := by
  rw [Node.contexts]
  rintro name property rfl rfl
  exact other ⟨name, property, rfl, rfl⟩

mutual

theorem Node.eval_congr (agree : Agree first second) (node : Node ext.Num) (own : node.contexts.all ours)
    : node.eval first = node.eval second := by
  cases node with
  | literal value => rfl
  | context name =>
      have own : ours (name, none) := by simpa [Node.contexts] using own
      have same : first.context name = second.context name := by
        apply agree.own
        simp only [ours] at own
        split_ifs at own with mine github
        · exact mine
        · exact absurd own nofun
      rw [Node.eval, Node.eval, same]
  | property base property =>
      by_cases context : ∃ name, base = .context name
      · obtain ⟨name, rfl⟩ := context
        have same := eval_property agree (by simpa [Node.contexts] using own)
        simp only [Node.eval]
        cases here : first.context name <;> cases there : second.context name <;>
          simp_all [bind, Except.bind]
      · rw [contexts_property context] at own
        rw [Node.eval, Node.eval, Node.eval_congr agree base own]
  | index base index =>
      by_cases named : ∃ name property, base = .context name ∧ index = .literal (.string property)
      · obtain ⟨name, property, rfl, rfl⟩ := named
        have same := eval_index agree (by simpa [Node.contexts] using own)
        simp only [Node.eval]
        cases here : first.context name <;> cases there : second.context name <;>
          simp_all [bind, Except.bind]
      · rw [contexts_index named, List.all_append, Bool.and_eq_true] at own
        rw [Node.eval, Node.eval, Node.eval_congr agree base own.1, Node.eval_congr agree index own.2]
  | every base =>
      rw [Node.eval, Node.eval, Node.eval_congr agree base own]
  | not inner =>
      rw [Node.eval, Node.eval, Node.eval_congr agree inner own]
  | call at_ name args =>
      rw [Node.eval, Node.eval, evalArgs_congr agree args own, call_congr agree]
  | binary op left right =>
      rw [Node.contexts, List.all_append, Bool.and_eq_true] at own
      rw [Node.eval, Node.eval, Node.eval_congr agree left own.1, Node.eval_congr agree right own.2]

theorem evalArgs_congr (agree : Agree first second) (args : List (Node ext.Num))
    (own : (contextsOf args).all ours)
    : evalArgs first args = evalArgs second args := by
  cases args with
  | nil => rfl
  | cons arg rest =>
      rw [contextsOf, List.all_append, Bool.and_eq_true] at own
      rw [evalArgs, evalArgs, Node.eval_congr agree arg own.1, evalArgs_congr agree rest own.2]

end

-- Scripts

theorem Expr.eval_congr (agree : Agree first second) {expr : Expr ext} (pasted : expr.pasted)
    : expr.eval first = expr.eval second := by
  rw [Expr.eval, Expr.eval, Node.eval_congr agree expr.node pasted]

/-- A text all of whose expressions are pasted is the same for both hosts, by induction on its parts. -/
theorem text_congr (agree : Agree first second) {template : Template ext}
    (pasted : ∀ expr ∈ template.exprs, expr.pasted)
    : template.text first = template.text second := by
  obtain ⟨parts⟩ := template
  simp only [Template.exprs, Template.text] at pasted ⊢
  induction parts with
  | nil => rfl
  | cons part rest ih =>
      cases part with
      | text text =>
          rw [Template.writeParts, Template.writeParts, ih pasted]
      | expr expr =>
          obtain ⟨here, later⟩ := List.forall_mem_cons.mp pasted
          rw [Template.writeParts, Template.writeParts, ih later, expr.eval_congr agree here]

/-- How a script is rewritten: each expression of it that is not pasted is the variable of its number, and
the text of that number is the expression's own; and what is read of it again are the others, in order.
-/
structure Rewrites (run : Text) (read : Template ext) (rewritten : Text) (exprs : List Text) : Prop where
  pieces
    : ∃ (pieces : List (Piece ext)) (last : Text),
      run = Piece.join pieces last ∧ read.exprs = pieces.map Piece.expr
      ∧ rewritten = Piece.written 0 pieces last ∧ exprs.length = (Piece.replaced pieces).length
      ∧ ∀ front piece back, pieces = front ++ piece :: back → ¬piece.expr.pasted →
        let before := (Piece.replaced front).length
        exprs[before]? = some (trim piece.source)
          ∧ rewritten = Piece.written 0 front piece.before ++ variable_ (before + 1)
            ++ Piece.written (before + 1) back last
  again
    : ∃ again, template ext rewritten = .ok again ∧ again.exprs = read.exprs.filter Expr.pasted

theorem script_rewrites {run : Text} {read : Template ext} (reads : template ext run = .ok read)
    : ∃ rewritten exprs, Rewrites run read rewritten exprs ∧ ∀ readsVariables,
      script ext run readsVariables
        = .ok (if !readsVariables && !exprs.isEmpty then none else some (rewritten, exprs)) := by
  obtain ⟨parts, cut, rfl⟩ : ∃ parts, partsFrom ext 0 run = .ok parts ∧ Template.mk parts = read := by
    cases cut : partsFrom ext 0 run with
    | error e =>
        rw [template, cut] at reads
        exact absurd reads nofun
    | ok parts =>
        rw [template, cut] at reads
        exact ⟨parts, rfl, Except.ok.inj reads⟩
  obtain ⟨pieces, last, plain, rfl⟩ := Piece.exists_of_partsFrom cut
  obtain rfl : Piece.parts pieces last = parts :=
    Except.ok.inj ((Piece.partsFrom_join pieces plain 0).symm.trans cut)
  obtain ⟨left, last', plain', same, exprs⟩ := Piece.exists_written pieces plain 0 [] fun _ plain => plain
  refine ⟨Piece.written 0 pieces last, (Piece.replaced pieces).map fun piece => trim piece.source,
    ⟨⟨pieces, last, rfl, Piece.exprs_parts pieces last, rfl, by simp, ?_⟩, ?_⟩, ?_⟩
  · rintro front piece back rfl variable_
    refine ⟨?_, ?_⟩
    · simp [Piece.replaced, variable_]
    · simpa using Piece.written_split 0 front variable_ back last
  · rw [List.nil_append] at same
    refine ⟨⟨Piece.parts left last'⟩, ?_, ?_⟩
    · rw [same, template, Piece.partsFrom_join left plain' 0]
      rfl
    · rw [Piece.exprs_parts, Piece.exprs_parts, exprs]
  · intro readsVariables
    rw [script, reads]
    simp only [Template.replace, Piece.sources_join pieces plain]
    have parts := Piece.replaceParts_parts readsVariables pieces last [] false 0
    simp only [bind, Except.bind, parts]
    simp [pure, Except.pure]

/-- The script that is run is the same for any two hosts that differ in nothing but what outsiders choose;
and a script that is read is rewritten, each expression of an outsider's the variable of its number.
-/
theorem no_outsiders_text (ext : Externals)
    : (∀ (run : Text) (first second : Host ext), Agree first second →
        scriptText first run = scriptText second run)
      ∧ ∀ (run : Text) (read : Template ext), template ext run = .ok read →
        ∃ rewritten exprs, Rewrites run read rewritten exprs ∧ ∀ readsVariables,
          script ext run readsVariables
            = .ok (if !readsVariables && !exprs.isEmpty then none else some (rewritten, exprs)) := by
  refine ⟨fun run first second agree => ?_, fun run read reads => script_rewrites reads⟩
  cases reads : template ext run with
  | error e =>
      have fails : script ext run true = .error e := by
        rw [script, reads]
        rfl
      rw [scriptText, scriptText, fails]
      rfl
  | ok read =>
      obtain ⟨rewritten, exprs, rewrites, done⟩ := script_rewrites reads
      obtain ⟨again, reads', left⟩ := rewrites.again
      have pasted : ∀ expr ∈ again.exprs, expr.pasted := by
        intro expr listed
        rw [left] at listed
        exact (List.mem_filter.mp listed).2
      have rewritten_ : script ext run true = .ok (some (rewritten, exprs)) := by
        simpa using done true
      rw [scriptText, scriptText, rewritten_]
      simp only [bind, Except.bind, reads', text_congr agree pasted]

-- A pull request's branch

def wholeNumbers : Externals where
  Num := Option Int
  nan := none
  infinity := none
  ofInt := some
  neg := Option.map Neg.neg
  parse text := (parseU64 text).map fun whole => some whole
  isNan := Option.isNone
  isInfinite _ := false
  isZero num := num = some 0
  isPositive num := num.any (0 < ·)
  partialCmp first second := first.bind fun first => second.map (compare first)
  whole num := num
  display _ := []
  toLowercase := toAsciiLowercase
  debug char := [char]
  toStringPretty _ := none
  fromStr _ := .error "expected value"
  whole_nan := rfl

/-- A host that knows a commit and the branch it is of, and a matrix. -/
def branchHost (branch : Text) : Host wholeNumbers where
  context name :=
    if toAsciiLowercase name = "github".toList then
      some (.object [("sha".toList, .string "1c5b".toList), ("head_ref".toList, .string branch)])
    else if toAsciiLowercase name = "matrix".toList then
      some (.object [("os".toList, .string "linux".toList)])
    else none
  call _ _ := none

theorem branchHost_agree (first second : Text)
    : Agree (branchHost first) (branchHost second) where
  own name own := by
    have other : toAsciiLowercase name ≠ "github".toList := by
      intro same
      rw [same] at own
      revert own
      decide
    simp only [branchHost, if_neg other]
  github name github property listed := by
    have other : toAsciiLowercase "head_ref".toList ≠ toAsciiLowercase property := by
      intro same
      rw [← same] at listed
      revert listed
      decide
    have apart : "head_ref".toList ≠ property := fun same => other (congrArg _ same)
    have by_ : ("head_ref".toList == property) = false := by simpa using apart
    have by_' : (toAsciiLowercase "head_ref".toList == toAsciiLowercase property) = false := by
      simpa using other
    simp only [branchHost, if_pos github, Option.map_some, Value.get, List.find?_cons, by_, by_']
  calls := rfl

/-- A script with what an outsider chose in it, and what none did. -/
def branchScript : Text :=
  ("x=$\x7b\x7b matrix.os \x7d\x7d; git checkout $\x7b\x7b github.head_ref \x7d\x7d "
    ++ "$\x7b\x7bgithub['SHA']\x7d\x7d").toList

/-- The script is the same whatever the branch is named, and is read again. -/
theorem no_outsiders_text_branch
    : scriptText (branchHost "main".toList) branchScript
          = scriptText (branchHost "$(curl x)".toList) branchScript
        ∧ scriptText (branchHost "main".toList) branchScript
          = .ok (some "x=linux; git checkout $\x7b__CI_E1\x7d 1c5b".toList)
        ∧ ∃ read, template wholeNumbers branchScript = .ok read
          ∧ ∃ rewritten exprs, Rewrites branchScript read rewritten exprs := by
  refine ⟨(no_outsiders_text wholeNumbers).1 _ _ _ (branchHost_agree _ _), by decide +kernel, ?_⟩
  have some_ : (template wholeNumbers branchScript).toOption.isSome := by decide +kernel
  cases reads : template wholeNumbers branchScript with
  | error e =>
      rw [reads] at some_
      exact absurd some_ nofun
  | ok read =>
      obtain ⟨rewritten, exprs, rewrites, -⟩ := (no_outsiders_text wholeNumbers).2 _ read reads
      exact ⟨read, rfl, rewritten, exprs, rewrites⟩

end Dagron.CiExpr
