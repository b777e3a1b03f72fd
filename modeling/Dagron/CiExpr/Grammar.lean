import Dagron.CiExpr.Parse
import Dagron.Library.Results

/-! The grammar that expressions are of: operators from the left, those of each level binding more than
those of the level before it, and what stands in brackets nests. The parser reads exactly what it derives.
-/

namespace Dagron.CiExpr

open Dagron.Spec Dagron.Library

-- The grammar

mutual
/-- How many of a tree's operators, properties, indexes and calls stand one over another. -/
@[simp] def Node.height {Num : Type} : Node Num → Nat
  | .literal _ => 0
  | .context _ => 0
  | .property base _ => base.height + 1
  | .index base index => max base.height index.height + 1
  | .every base => base.height + 1
  | .call _ _ args => heights args + 1
  | .not inner => inner.height + 1
  | .binary _ left right => max left.height right.height + 1

def heights {Num : Type} : List (Node Num) → Nat
  | [] => 0
  | node :: rest => max node.height (heights rest)
end

/-- The parts of an expression: what operators of a level join, and what they join. -/
inductive Phrase where
  | level (of_ : Level)
  | unary
  | postfix_
  | primary

def Level.operand : Level → Phrase
  | or => .level .and
  | and => .level .equality
  | equality => .level .comparison
  | comparison => .unary

variable (ext : Externals)

mutual
/-- (Derives part tokens node nesting) says that tokens are a part with a tree, in which so many negations,
brackets, indexes and arguments are one inside another.
-/
inductive Derives : Phrase → Tokens ext.Num → Node ext.Num → Nat → Prop
  | operand {of_ tokens node nesting} (operand : Derives of_.operand tokens node nesting)
    : Derives (.level of_) tokens node nesting
  | binary {of_ left right leftNode rightNode nesting nesting' at_ op}
    (left_ : Derives (.level of_) left leftNode nesting) (takes : of_.takes op = true)
    (right_ : Derives of_.operand right rightNode nesting')
    : Derives (.level of_) (left ++ (at_, .op op) :: right) (.binary op leftNode rightNode)
        (max nesting nesting')
  | not {tokens node nesting at_} (inner : Derives .unary tokens node nesting)
    : Derives .unary ((at_, .not) :: tokens) (.not node) (nesting + 1)
  | postfix_ {tokens node nesting} (base : Derives .postfix_ tokens node nesting)
    : Derives .unary tokens node nesting
  | primary {tokens node nesting} (base : Derives .primary tokens node nesting)
    : Derives .postfix_ tokens node nesting
  | property {tokens node nesting at_ at' name} (base : Derives .postfix_ tokens node nesting)
    : Derives .postfix_ (tokens ++ [(at_, .dot), (at', .name name)]) (.property node name) nesting
  | every {tokens node nesting at_ at'} (base : Derives .postfix_ tokens node nesting)
    : Derives .postfix_ (tokens ++ [(at_, .dot), (at', .star)]) (.every node) nesting
  | index {tokens node nesting inner innerNode nesting' at_ at'}
    (base : Derives .postfix_ tokens node nesting) (inside : Derives (.level .or) inner innerNode nesting')
    : Derives .postfix_ (tokens ++ (at_, .openIndex) :: (inner ++ [(at', .closeIndex)]))
        (.index node innerNode) (max nesting (nesting' + 1))
  | number {at_ num}
    : Derives .primary [(at_, .number num)] (.literal (.number num)) 0
  | text {at_ text}
    : Derives .primary [(at_, .text text)] (.literal (.string text)) 0
  | brackets {inner node nesting at_ at'} (inside : Derives (.level .or) inner node nesting)
    : Derives .primary ((at_, .open_) :: (inner ++ [(at', .close)])) node (nesting + 1)
  | name {at_ name}
    : Derives .primary [(at_, .name name)] (named ext name) 0
  | callNothing {at_ at' at'' name}
    : Derives .primary [(at_, .name name), (at', .open_), (at'', .close)] (.call at_ name []) 0
  | call {at_ at' at'' name tokens args nesting} (arguments : DerivesAll tokens args nesting)
    : Derives .primary ((at_, .name name) :: (at', .open_) :: (tokens ++ [(at'', .close)]))
        (.call at_ name args) nesting

/-- The same of arguments, with commas between them. -/
inductive DerivesAll : Tokens ext.Num → List (Node ext.Num) → Nat → Prop
  | one {tokens node nesting} (only : Derives (.level .or) tokens node nesting)
    : DerivesAll tokens [node] (nesting + 1)
  | more {tokens node nesting rest nodes nesting' at_} (first : Derives (.level .or) tokens node nesting)
    (others : DerivesAll rest nodes nesting')
    : DerivesAll (tokens ++ (at_, .comma) :: rest) (node :: nodes) (max (nesting + 1) nesting')
end

-- What is read is derived

section Sound

variable {ext}

/-- (Parsed part depth tokens tall rest) says that tokens are a part, so deep in an expression, and what is
left, within the bounds of depth and height.
-/
def Parsed (part : Phrase) (depth : Nat) (tokens : Tokens ext.Num) (tall : Tall ext.Num)
    (rest : Tokens ext.Num) : Prop :=
  ∃ used nesting, tokens = used ++ rest ∧ Derives ext part used tall.node nesting
    ∧ depth + nesting ≤ maxDepth ∧ tall.height = tall.node.height ∧ tall.height ≤ maxHeight

theorem over_eq_ok_iff {Num : Type} {at_ below : Nat} {node : Node Num} {tall : Tall Num}
    : over_ at_ below node = .ok tall ↔ below + 1 ≤ maxHeight ∧ tall = ⟨node, below + 1⟩ := by
  rw [over_, error]
  split <;> rename_i high
  · constructor
    · intro ok
      cases ok
    · rintro ⟨low, -⟩
      omega
  · rw [Except.ok.injEq]
    constructor
    · rintro rfl
      exact ⟨by omega, rfl⟩
    · rintro ⟨-, rfl⟩
      rfl

theorem binary_eq_ok_iff {Num : Type} {at_ : Nat} {op : Op} {left right tall : Tall Num}
    : binary at_ op left right = .ok tall
      ↔ max left.height right.height + 1 ≤ maxHeight
        ∧ tall = ⟨.binary op left.node right.node, max left.height right.height + 1⟩ :=
  over_eq_ok_iff

section Rules

variable {depth at_ at' : Nat} {start tokens rest : Tokens ext.Num}

theorem Parsed.binary {of_ : Level} {op : Op} {left right : Tall ext.Num}
    (before : Parsed (.level of_) depth start left ((at_, .op op) :: tokens)) (takes : of_.takes op = true)
    (operand : Parsed of_.operand depth tokens right rest)
    (low : max left.height right.height + 1 ≤ maxHeight)
    : Parsed (.level of_) depth start
        ⟨.binary op left.node right.node, max left.height right.height + 1⟩ rest := by
  obtain ⟨used, nesting, rfl, derives, deep, height, -⟩ := before
  obtain ⟨used', nesting', rfl, derives', deep', height', -⟩ := operand
  refine ⟨used ++ (at_, .op op) :: used', max nesting nesting', ?_, .binary derives takes derives', ?_, ?_, low⟩
  · rw [List.append_assoc, List.cons_append]
  · omega
  · rw [Node.height, height, height']

theorem Parsed.not {inner : Tall ext.Num} (inside : Parsed .unary (depth + 1) tokens inner rest)
    (low : inner.height + 1 ≤ maxHeight)
    : Parsed .unary depth ((at_, .not) :: tokens) ⟨.not inner.node, inner.height + 1⟩ rest := by
  obtain ⟨used, nesting, rfl, derives, deep, height, -⟩ := inside
  refine ⟨(at_, .not) :: used, nesting + 1, rfl, .not derives, ?_, ?_, low⟩
  · omega
  · rw [Node.height, height]

theorem Parsed.property {base : Tall ext.Num} {name : Text}
    (before : Parsed .postfix_ depth start base ((at_, .dot) :: (at', .name name) :: rest))
    (low : base.height + 1 ≤ maxHeight)
    : Parsed .postfix_ depth start ⟨.property base.node name, base.height + 1⟩ rest := by
  obtain ⟨used, nesting, rfl, derives, deep, height, -⟩ := before
  refine ⟨used ++ [(at_, Token.dot), (at', Token.name name)], nesting, ?_, .property derives, deep, ?_, low⟩
  · rw [List.append_assoc]
    rfl
  · rw [Node.height, height]

theorem Parsed.every {base : Tall ext.Num}
    (before : Parsed .postfix_ depth start base ((at_, .dot) :: (at', .star) :: rest))
    (low : base.height + 1 ≤ maxHeight)
    : Parsed .postfix_ depth start ⟨.every base.node, base.height + 1⟩ rest := by
  obtain ⟨used, nesting, rfl, derives, deep, height, -⟩ := before
  refine ⟨used ++ [(at_, Token.dot), (at', Token.star)], nesting, ?_, .every derives, deep, ?_, low⟩
  · rw [List.append_assoc]
    rfl
  · rw [Node.height, height]

theorem Parsed.index {base index : Tall ext.Num}
    (before : Parsed .postfix_ depth start base ((at_, .openIndex) :: tokens))
    (inside : Parsed (.level .or) (depth + 1) tokens index ((at', .closeIndex) :: rest))
    (low : max base.height index.height + 1 ≤ maxHeight)
    : Parsed .postfix_ depth start ⟨.index base.node index.node, max base.height index.height + 1⟩ rest := by
  obtain ⟨used, nesting, rfl, derives, deep, height, -⟩ := before
  obtain ⟨used', nesting', rfl, derives', deep', height', -⟩ := inside
  refine ⟨used ++ (at_, Token.openIndex) :: (used' ++ [(at', Token.closeIndex)]), max nesting (nesting' + 1), ?_,
    .index derives derives', ?_, ?_, low⟩
  · rw [List.append_assoc, List.cons_append, List.append_assoc]
    rfl
  · omega
  · rw [Node.height, height, height']

theorem Parsed.brackets {inner : Tall ext.Num}
    (inside : Parsed (.level .or) (depth + 1) tokens inner ((at', .close) :: rest))
    : Parsed .primary depth ((at_, .open_) :: tokens) inner rest := by
  obtain ⟨used, nesting, rfl, derives, deep, bounds⟩ := inside
  refine ⟨(at_, .open_) :: (used ++ [(at', Token.close)]), nesting + 1, ?_, .brackets derives, ?_, bounds⟩
  · rw [List.cons_append, List.append_assoc]
    rfl
  · omega

/-- The same of arguments, and of the bracket that closes them. -/
def ParsedAll (depth : Nat) (tokens : Tokens ext.Num) (args : List (Node ext.Num) × Nat)
    (rest : Tokens ext.Num) : Prop :=
  ∃ used nesting at_, tokens = used ++ (at_, .close) :: rest ∧ DerivesAll ext used args.1 nesting
    ∧ depth + nesting ≤ maxDepth ∧ args.2 = heights args.1 ∧ args.2 ≤ maxHeight

theorem ParsedAll.one {arg : Tall ext.Num}
    (only : Parsed (.level .or) (depth + 1) tokens arg ((at_, .close) :: rest))
    : ParsedAll depth tokens ([arg.node], arg.height) rest := by
  obtain ⟨used, nesting, rfl, derives, deep, height, low⟩ := only
  refine ⟨used, nesting + 1, at_, rfl, .one derives, ?_, ?_, low⟩
  · omega
  · rw [heights, heights, height, Nat.max_zero]

theorem ParsedAll.more {arg : Tall ext.Num} {args : List (Node ext.Num) × Nat}
    (first : Parsed (.level .or) (depth + 1) start arg ((at_, .comma) :: tokens))
    (others : ParsedAll depth tokens args rest)
    : ParsedAll depth start (arg.node :: args.1, max arg.height args.2) rest := by
  obtain ⟨used, nesting, rfl, derives, deep, height, low⟩ := first
  obtain ⟨used', nesting', at', rfl, derives', deep', height', low'⟩ := others
  refine ⟨used ++ (at_, .comma) :: used', max (nesting + 1) nesting', at', ?_, .more derives derives', ?_, ?_, ?_⟩
  · rw [List.append_assoc, List.cons_append]
  · omega
  · rw [heights, height, height']
  · exact Nat.max_le.mpr ⟨low, low'⟩

theorem Parsed.call {name : Text} {args : List (Node ext.Num) × Nat} (inside : ParsedAll depth tokens args rest)
    (low : args.2 + 1 ≤ maxHeight)
    : Parsed .primary depth ((at_, .name name) :: (at', .open_) :: tokens)
        ⟨.call at_ name args.1, args.2 + 1⟩ rest := by
  obtain ⟨used, nesting, at'', rfl, derives, deep, height, -⟩ := inside
  refine ⟨(at_, .name name) :: (at', .open_) :: (used ++ [(at'', Token.close)]), nesting, ?_, .call derives, deep, ?_,
    low⟩
  · rw [List.cons_append, List.cons_append, List.append_assoc]
    rfl
  · rw [Node.height, height]

theorem Parsed.leaf {token : Token ext.Num} {node : Node ext.Num} (within : depth ≤ maxDepth)
    (derives : Derives ext .primary [(at_, token)] node 0) (flat : node.height = 0)
    : Parsed .primary depth ((at_, token) :: rest) (leaf node) rest :=
  ⟨[(at_, token)], 0, rfl, derives, within, flat.symm, Nat.zero_le _⟩

end Rules

theorem height_named (name : Text)
    : (named ext name).height = 0 := by
  unfold named
  split_ifs <;> rfl

theorem expect_spec {size : Nat} {want : Token ext.Num → Bool} {what : String} {tokens : Tokens ext.Num}
    {read : Read ext.Num Unit tokens} (ok : expect size want what tokens = .ok read)
    : ∃ at_ token, tokens = (at_, token) :: read.rest ∧ want token = true := by
  rw [expect.eq_def] at ok
  split at ok
  · rename_i at_ token rest
    split at ok
    · rename_i wanted
      obtain rfl := Except.ok.inj ok
      exact ⟨at_, token, rfl, wanted⟩
    · cases ok
  · cases ok

theorem eq_closeIndex {token : Token ext.Num} (wanted : (token matches .closeIndex) = true)
    : token = .closeIndex := by
  cases token <;> first | rfl | cases wanted

theorem eq_close {token : Token ext.Num} (wanted : (token matches .close) = true)
    : token = .close := by
  cases token <;> first | rfl | cases wanted

theorem argumentEnd_spec {size : Nat} {tokens : Tokens ext.Num} {read : Read ext.Num Bool tokens}
    (ok : argumentEnd size tokens = .ok read)
    : ∃ at_, tokens = (at_, if read.value then .comma else .close) :: read.rest := by
  rw [argumentEnd.eq_def] at ok
  split at ok
  · obtain rfl := Except.ok.inj ok
    exact ⟨_, rfl⟩
  · obtain rfl := Except.ok.inj ok
    exact ⟨_, rfl⟩
  · cases ok

/-- Whether what is read is derived, of as many tokens as a bound allows. -/
structure SoundBelow (ext : Externals) (bound : Nat) : Prop where
  level
    : ∀ {size depth : Nat} {of_ : Level} {tokens : Tokens ext.Num} {read : Read ext.Num (Tall ext.Num) tokens},
        tokens.length * 12 + of_.rank * 2 + 3 < bound → depth ≤ maxDepth → level ext size depth of_ tokens = .ok read →
          Parsed (.level of_) depth tokens read.value read.rest
  operand
    : ∀ {size depth : Nat} {of_ : Level} {tokens : Tokens ext.Num} {read : Read ext.Num (Tall ext.Num) tokens},
        tokens.length * 12 + of_.rank * 2 + 2 < bound → depth ≤ maxDepth → operand ext size depth of_ tokens = .ok read →
          Parsed of_.operand depth tokens read.value read.rest
  levelRest
    : ∀ {size depth : Nat} {of_ : Level} {left : Tall ext.Num} {start tokens : Tokens ext.Num}
        {read : ReadOn ext.Num (Tall ext.Num) tokens},
        tokens.length * 12 < bound → depth ≤ maxDepth → levelRest ext size depth of_ left tokens = .ok read → Parsed (.level of_) depth start left tokens →
          Parsed (.level of_) depth start read.value read.rest
  unary
    : ∀ {size depth : Nat} {tokens : Tokens ext.Num} {read : Read ext.Num (Tall ext.Num) tokens},
        tokens.length * 12 + 1 < bound → depth ≤ maxDepth → unary ext size depth tokens = .ok read →
          Parsed .unary depth tokens read.value read.rest
  postfixRest
    : ∀ {size depth : Nat} {base : Tall ext.Num} {start tokens : Tokens ext.Num}
        {read : ReadOn ext.Num (Tall ext.Num) tokens},
        tokens.length * 12 < bound → depth ≤ maxDepth → postfixRest ext size depth base tokens = .ok read → Parsed .postfix_ depth start base tokens →
          Parsed .postfix_ depth start read.value read.rest
  nested
    : ∀ {size depth : Nat} {tokens : Tokens ext.Num} {read : Read ext.Num (Tall ext.Num) tokens},
        tokens.length * 12 + 10 < bound → depth ≤ maxDepth → nested ext size depth tokens = .ok read →
          Parsed (.level .or) (depth + 1) tokens read.value read.rest
  primary
    : ∀ {size depth : Nat} {tokens : Tokens ext.Num} {read : Read ext.Num (Tall ext.Num) tokens},
        tokens.length * 12 < bound → depth ≤ maxDepth → primary ext size depth tokens = .ok read →
          Parsed .primary depth tokens read.value read.rest
  arguments
    : ∀ {size depth : Nat} {tokens : Tokens ext.Num}
        {read : Read ext.Num (List (Node ext.Num) × Nat) tokens},
        tokens.length * 12 + 11 < bound → depth ≤ maxDepth → arguments ext size depth tokens = .ok read →
          ParsedAll depth tokens read.value read.rest

theorem level_sound {bound size depth : Nat} {of_ : Level} {tokens : Tokens ext.Num}
    {read : Read ext.Num (Tall ext.Num) tokens} (below : SoundBelow ext bound)
    (bounded : tokens.length * 12 + of_.rank * 2 + 3 ≤ bound) (within : depth ≤ maxDepth)
    (ok : level ext size depth of_ tokens = .ok read)
    : Parsed (.level of_) depth tokens read.value read.rest := by
  rw [level] at ok
  obtain ⟨left, first, ok⟩ := exists_of_bind_eq_ok ok
  obtain ⟨all, later, ok⟩ := exists_of_bind_eq_ok ok
  obtain rfl := Except.ok.inj ok
  have fewer := left.fewer
  obtain ⟨used, nesting, split, derives, bounds⟩ := below.operand (by omega) within first
  exact below.levelRest (by omega) within later ⟨used, nesting, split, .operand derives, bounds⟩

theorem operand_sound {bound size depth : Nat} {of_ : Level} {tokens : Tokens ext.Num}
    {read : Read ext.Num (Tall ext.Num) tokens} (below : SoundBelow ext bound)
    (bounded : tokens.length * 12 + of_.rank * 2 + 2 ≤ bound) (within : depth ≤ maxDepth)
    (ok : operand ext size depth of_ tokens = .ok read)
    : Parsed of_.operand depth tokens read.value read.rest := by
  rw [operand.eq_def] at ok
  cases of_ with
  | or | and | equality => exact below.level (Nat.lt_of_succ_le bounded) within ok
  | comparison => exact below.unary (Nat.lt_of_succ_le bounded) within ok

theorem levelRest_sound {bound size depth : Nat} {of_ : Level} {left : Tall ext.Num} {start tokens : Tokens ext.Num}
    {read : ReadOn ext.Num (Tall ext.Num) tokens} (below : SoundBelow ext bound)
    (bounded : tokens.length * 12 ≤ bound) (within : depth ≤ maxDepth)
    (ok : levelRest ext size depth of_ left tokens = .ok read)
    (before : Parsed (.level of_) depth start left tokens)
    : Parsed (.level of_) depth start read.value read.rest := by
  rw [levelRest.eq_def] at ok
  split at ok
  · rename_i at_ op rest
    split at ok
    · rename_i takes
      obtain ⟨right, operand, ok⟩ := exists_of_bind_eq_ok ok
      obtain ⟨both, joined, ok⟩ := exists_of_bind_eq_ok ok
      obtain ⟨all, later, ok⟩ := exists_of_bind_eq_ok ok
      obtain rfl := Except.ok.inj ok
      obtain ⟨low, rfl⟩ := binary_eq_ok_iff.mp joined
      have rank := of_.rank_le
      have fewer := right.fewer
      rw [List.length_cons] at bounded
      change Parsed (.level of_) depth start all.value all.rest
      exact below.levelRest (by omega) within later (before.binary takes (below.operand (by omega) within operand) low)
    · obtain rfl := Except.ok.inj ok
      exact before
  · obtain rfl := Except.ok.inj ok
    exact before

theorem unary_sound {bound size depth : Nat} {tokens : Tokens ext.Num}
    {read : Read ext.Num (Tall ext.Num) tokens} (below : SoundBelow ext bound)
    (bounded : tokens.length * 12 + 1 ≤ bound) (within : depth ≤ maxDepth)
    (ok : unary ext size depth tokens = .ok read)
    : Parsed .unary depth tokens read.value read.rest := by
  rw [unary.eq_def] at ok
  split at ok
  · rename_i at_ rest
    split at ok
    · cases ok
    · rename_i deep
      obtain ⟨inner, inside, ok⟩ := exists_of_bind_eq_ok ok
      obtain ⟨tall, above, ok⟩ := exists_of_bind_eq_ok ok
      obtain rfl := Except.ok.inj ok
      obtain ⟨low, rfl⟩ := over_eq_ok_iff.mp above
      rw [List.length_cons] at bounded
      exact Parsed.not (below.unary (by omega) (Nat.not_lt.mp deep) inside) low
  · obtain ⟨base, first, ok⟩ := exists_of_bind_eq_ok ok
    obtain ⟨all, later, ok⟩ := exists_of_bind_eq_ok ok
    obtain rfl := Except.ok.inj ok
    have fewer := base.fewer
    obtain ⟨used, nesting, split, derives, bounds⟩ := below.primary (by omega) within first
    obtain ⟨used, nesting, split, derives, bounds⟩ :=
      below.postfixRest (by omega) within later ⟨used, nesting, split, .primary derives, bounds⟩
    exact ⟨used, nesting, split, .postfix_ derives, bounds⟩

theorem postfixRest_sound {bound size depth : Nat} {base : Tall ext.Num} {start tokens : Tokens ext.Num}
    {read : ReadOn ext.Num (Tall ext.Num) tokens} (below : SoundBelow ext bound)
    (bounded : tokens.length * 12 ≤ bound) (within : depth ≤ maxDepth)
    (ok : postfixRest ext size depth base tokens = .ok read)
    (before : Parsed .postfix_ depth start base tokens)
    : Parsed .postfix_ depth start read.value read.rest := by
  rw [postfixRest.eq_def] at ok
  split at ok
  · obtain ⟨tall, above, ok⟩ := exists_of_bind_eq_ok ok
    obtain ⟨all, later, ok⟩ := exists_of_bind_eq_ok ok
    obtain rfl := Except.ok.inj ok
    obtain ⟨low, rfl⟩ := over_eq_ok_iff.mp above
    rw [List.length_cons, List.length_cons] at bounded
    change Parsed .postfix_ depth start all.value all.rest
    exact below.postfixRest (by omega) within later (before.property low)
  · obtain ⟨tall, above, ok⟩ := exists_of_bind_eq_ok ok
    obtain ⟨all, later, ok⟩ := exists_of_bind_eq_ok ok
    obtain rfl := Except.ok.inj ok
    obtain ⟨low, rfl⟩ := over_eq_ok_iff.mp above
    rw [List.length_cons, List.length_cons] at bounded
    change Parsed .postfix_ depth start all.value all.rest
    exact below.postfixRest (by omega) within later (before.every low)
  · cases ok
  · obtain ⟨index, inside, ok⟩ := exists_of_bind_eq_ok ok
    obtain ⟨close, closed, ok⟩ := exists_of_bind_eq_ok ok
    obtain ⟨tall, above, ok⟩ := exists_of_bind_eq_ok ok
    obtain ⟨all, later, ok⟩ := exists_of_bind_eq_ok ok
    obtain rfl := Except.ok.inj ok
    obtain ⟨low, rfl⟩ := over_eq_ok_iff.mp above
    have fewer := index.fewer
    have fewer' := close.fewer
    rw [List.length_cons] at bounded
    have parsed := below.nested (by omega) within inside
    obtain ⟨at', token, is, wanted⟩ := expect_spec closed
    rw [is, eq_closeIndex wanted] at parsed
    change Parsed .postfix_ depth start all.value all.rest
    exact below.postfixRest (by omega) within later (before.index parsed low)
  · obtain rfl := Except.ok.inj ok
    exact before

theorem nested_sound {bound size depth : Nat} {tokens : Tokens ext.Num}
    {read : Read ext.Num (Tall ext.Num) tokens} (below : SoundBelow ext bound)
    (bounded : tokens.length * 12 + 10 ≤ bound)
    (ok : nested ext size depth tokens = .ok read)
    : Parsed (.level .or) (depth + 1) tokens read.value read.rest := by
  rw [nested] at ok
  split at ok
  · cases ok
  · rename_i deep
    have rank : Level.or.rank = 3 := rfl
    exact below.level (by omega) (Nat.not_lt.mp deep) ok

theorem primary_sound {bound size depth : Nat} {tokens : Tokens ext.Num}
    {read : Read ext.Num (Tall ext.Num) tokens} (below : SoundBelow ext bound)
    (bounded : tokens.length * 12 ≤ bound) (within : depth ≤ maxDepth)
    (ok : primary ext size depth tokens = .ok read)
    : Parsed .primary depth tokens read.value read.rest := by
  rw [primary.eq_def] at ok
  split at ok
  · obtain rfl := Except.ok.inj ok
    exact .leaf within .number rfl
  · obtain rfl := Except.ok.inj ok
    exact .leaf within .text rfl
  · obtain ⟨inner, inside, ok⟩ := exists_of_bind_eq_ok ok
    obtain ⟨close, closed, ok⟩ := exists_of_bind_eq_ok ok
    obtain rfl := Except.ok.inj ok
    rw [List.length_cons] at bounded
    have parsed := below.nested (by omega) within inside
    obtain ⟨at', token, is, wanted⟩ := expect_spec closed
    rw [is, eq_close wanted] at parsed
    exact parsed.brackets
  · obtain ⟨tall, above, ok⟩ := exists_of_bind_eq_ok ok
    obtain rfl := Except.ok.inj ok
    obtain ⟨low, rfl⟩ := over_eq_ok_iff.mp above
    exact ⟨_, 0, rfl, .callNothing, within, rfl, low⟩
  · obtain ⟨args, inside, ok⟩ := exists_of_bind_eq_ok ok
    obtain ⟨tall, above, ok⟩ := exists_of_bind_eq_ok ok
    obtain rfl := Except.ok.inj ok
    obtain ⟨low, rfl⟩ := over_eq_ok_iff.mp above
    rw [List.length_cons, List.length_cons] at bounded
    exact Parsed.call (below.arguments (by omega) within inside) low
  · obtain rfl := Except.ok.inj ok
    exact .leaf within .name (height_named _)
  · cases ok
  · cases ok
  · cases ok

theorem arguments_sound {bound size depth : Nat} {tokens : Tokens ext.Num}
    {read : Read ext.Num (List (Node ext.Num) × Nat) tokens} (below : SoundBelow ext bound)
    (bounded : tokens.length * 12 + 11 ≤ bound) (within : depth ≤ maxDepth)
    (ok : arguments ext size depth tokens = .ok read)
    : ParsedAll depth tokens read.value read.rest := by
  rw [arguments] at ok
  obtain ⟨arg, inside, ok⟩ := exists_of_bind_eq_ok ok
  obtain ⟨next, ended, ok⟩ := exists_of_bind_eq_ok ok
  have fewer := arg.fewer
  have fewer' := next.fewer
  have parsed := below.nested (by omega) within inside
  obtain ⟨at_, is⟩ := argumentEnd_spec ended
  rw [is] at parsed
  split at ok <;> rename_i more
  · obtain ⟨others, later, ok⟩ := exists_of_bind_eq_ok ok
    obtain rfl := Except.ok.inj ok
    rw [if_pos more] at parsed
    exact .more parsed (below.arguments (by omega) within later)
  · obtain rfl := Except.ok.inj ok
    rw [if_neg more] at parsed
    exact .one parsed
theorem sound (ext : Externals) (bound : Nat)
    : SoundBelow ext bound := by
  induction bound with
  | zero => exact ⟨nofun, nofun, nofun, nofun, nofun, nofun, nofun, nofun⟩
  | succ bound below =>
      exact
        { level := fun less => level_sound below (Nat.le_of_lt_succ less)
          operand := fun less => operand_sound below (Nat.le_of_lt_succ less)
          levelRest := fun less => levelRest_sound below (Nat.le_of_lt_succ less)
          unary := fun less => unary_sound below (Nat.le_of_lt_succ less)
          postfixRest := fun less => postfixRest_sound below (Nat.le_of_lt_succ less)
          nested := fun less _ => nested_sound below (Nat.le_of_lt_succ less)
          primary := fun less => primary_sound below (Nat.le_of_lt_succ less)
          arguments := fun less => arguments_sound below (Nat.le_of_lt_succ less) }

end Sound

-- What is derived is read

section Complete

variable {ext}

/-- The level that an operator is of, by how many bind more. -/
def Op.rank : Op → Nat
  | .less | .lessOrEqual | .greater | .greaterOrEqual => 0
  | .equal | .notEqual => 1
  | .and => 2
  | .or => 3

theorem Level.takes_iff {of_ : Level} {op : Op}
    : of_.takes op = true ↔ op.rank = of_.rank := by
  cases of_ <;> cases op <;> decide

/-- Whether a token after a part would be read into it. -/
def Phrase.readsOn {Num : Type} : Phrase → Token Num → Bool
  | _, .open_ => true
  | .primary, _ => false
  | _, .dot => true
  | _, .openIndex => true
  | .level of_, .op op => op.rank ≤ of_.rank
  | _, _ => false

/-- Whether nothing of some tokens would be read into a part before them. -/
def Phrase.Stops (part : Phrase) (rest : Tokens ext.Num) : Prop :=
  ∀ next ∈ rest.head?, part.readsOn next.2 = false

def Phrase.begins {Num : Type} : Phrase → Token Num → Bool
  | _, .number _ => true
  | _, .text _ => true
  | _, .open_ => true
  | _, .name _ => true
  | .level _, .not => true
  | .unary, .not => true
  | _, _ => false

theorem begins_operand {Num : Type} {of_ : Level} {token : Token Num}
    : of_.operand.begins token = (Phrase.level of_).begins token := by
  cases of_ <;> cases token <;> rfl

theorem Derives.begins {part : Phrase} {tokens : Tokens ext.Num} {node : Node ext.Num} {nesting : Nat}
    (derives : Derives ext part tokens node nesting)
    : ∃ first rest, tokens = first :: rest ∧ part.begins first.2 = true := by
  match derives with
  | .operand lower =>
      obtain ⟨first, rest, rfl, begins⟩ := Derives.begins lower
      exact ⟨first, rest, rfl, begins_operand ▸ begins⟩
  | .binary left _ _ =>
      obtain ⟨first, rest, rfl, begins⟩ := Derives.begins left
      exact ⟨first, _, rfl, begins⟩
  | .not _ => exact ⟨_, _, rfl, rfl⟩
  | .postfix_ base =>
      obtain ⟨first, rest, rfl, begins⟩ := Derives.begins base
      refine ⟨first, rest, rfl, ?_⟩
      obtain ⟨at_, token⟩ := first
      cases token <;> first | rfl | cases begins
  | .primary base =>
      obtain ⟨first, rest, rfl, begins⟩ := Derives.begins base
      refine ⟨first, rest, rfl, ?_⟩
      obtain ⟨at_, token⟩ := first
      cases token <;> first | rfl | cases begins
  | .property base =>
      obtain ⟨first, rest, rfl, begins⟩ := Derives.begins base
      exact ⟨first, _, rfl, begins⟩
  | .every base =>
      obtain ⟨first, rest, rfl, begins⟩ := Derives.begins base
      exact ⟨first, _, rfl, begins⟩
  | .index base _ =>
      obtain ⟨first, rest, rfl, begins⟩ := Derives.begins base
      exact ⟨first, _, rfl, begins⟩
  | .number => exact ⟨_, _, rfl, rfl⟩
  | .text => exact ⟨_, _, rfl, rfl⟩
  | .brackets _ => exact ⟨_, _, rfl, rfl⟩
  | .name => exact ⟨_, _, rfl, rfl⟩
  | .callNothing => exact ⟨_, _, rfl, rfl⟩
  | .call _ => exact ⟨_, _, rfl, rfl⟩

theorem DerivesAll.begins {tokens : Tokens ext.Num} {nodes : List (Node ext.Num)} {nesting : Nat}
    (derives : DerivesAll ext tokens nodes nesting)
    : ∃ first rest, tokens = first :: rest ∧ (Phrase.level .or).begins first.2 = true := by
  cases derives with
  | one only => exact Derives.begins only
  | more front others =>
      obtain ⟨first, rest, rfl, begins⟩ := Derives.begins front
      exact ⟨first, _, rfl, begins⟩

def Came {Result : Type} {tokens : Tokens ext.Num} (outcome : Except Error (Read ext.Num Result tokens))
    (value : Result) (rest : Tokens ext.Num) : Prop :=
  ∃ read, outcome = .ok read ∧ read.value = value ∧ read.rest = rest

def CameOn {Result : Type} {tokens : Tokens ext.Num} (outcome : Except Error (ReadOn ext.Num Result tokens))
    (value : Result) (rest : Tokens ext.Num) : Prop :=
  ∃ read, outcome = .ok read ∧ read.value = value ∧ read.rest = rest

section Readers

variable {size depth at_ at' : Nat} {tokens rest rest' : Tokens ext.Num} {tall : Tall ext.Num}

theorem level_came {of_ : Level} {left : Tall ext.Num}
    (first : Came (operand ext size depth of_ tokens) left rest)
    (later : CameOn (levelRest ext size depth of_ left rest) tall rest')
    : Came (level ext size depth of_ tokens) tall rest' := by
  obtain ⟨read, ok, rfl, rfl⟩ := first
  obtain ⟨all, ok', rfl, rfl⟩ := later
  refine ⟨⟨all.value, all.rest, Nat.lt_of_le_of_lt all.noMore read.fewer⟩, ?_, rfl, rfl⟩
  rw [level]
  exact bind_eq_ok_iff.mpr ⟨read, ok, bind_eq_ok_iff.mpr ⟨all, ok', rfl⟩⟩

theorem levelRest_takes {of_ : Level} {op : Op} {left right : Tall ext.Num} (takes : of_.takes op = true)
    (operand_ : Came (operand ext size depth of_ tokens) right rest)
    (low : max left.height right.height + 1 ≤ maxHeight)
    (later
      : CameOn (levelRest ext size depth of_
          ⟨.binary op left.node right.node, max left.height right.height + 1⟩ rest) tall rest')
    : CameOn (levelRest ext size depth of_ left ((at_, .op op) :: tokens)) tall rest' := by
  obtain ⟨read, ok, rfl, rfl⟩ := operand_
  obtain ⟨all, ok', rfl, rfl⟩ := later
  have joined : binary at_ op left read.value
      = .ok ⟨.binary op left.node read.value.node, max left.height read.value.height + 1⟩ :=
    binary_eq_ok_iff.mpr ⟨low, rfl⟩
  refine ⟨⟨all.value, all.rest, Nat.le_trans all.noMore (Nat.le_succ_of_le (Nat.le_of_lt read.fewer))⟩, ?_,
    rfl, rfl⟩
  rw [levelRest.eq_def]
  simp only [takes, if_true]
  exact bind_eq_ok_iff.mpr ⟨read, ok, bind_eq_ok_iff.mpr ⟨_, joined, bind_eq_ok_iff.mpr ⟨all, ok', rfl⟩⟩⟩

theorem levelRest_stops {of_ : Level} (stops : (Phrase.level of_).Stops rest) (left : Tall ext.Num)
    : CameOn (levelRest ext size depth of_ left rest) left rest := by
  rw [levelRest.eq_def]
  split
  · rename_i at_ op rest
    have high : (Phrase.level of_).readsOn (.op op : Token ext.Num) = false := stops _ rfl
    have other : ¬of_.takes op = true := by
      rw [Level.takes_iff]
      have above := of_decide_eq_false high
      omega
    rw [if_neg other]
    exact ⟨_, rfl, rfl, rfl⟩
  · exact ⟨_, rfl, rfl, rfl⟩

theorem unary_not {inner : Tall ext.Num} (deep : depth + 1 ≤ maxDepth)
    (inside : Came (unary ext size (depth + 1) tokens) inner rest) (low : inner.height + 1 ≤ maxHeight)
    : Came (unary ext size depth ((at_, .not) :: tokens)) ⟨.not inner.node, inner.height + 1⟩ rest := by
  obtain ⟨read, ok, rfl, rfl⟩ := inside
  have above : over_ at_ read.value.height (.not read.value.node)
      = .ok ⟨.not read.value.node, read.value.height + 1⟩ :=
    over_eq_ok_iff.mpr ⟨low, rfl⟩
  refine ⟨⟨⟨.not read.value.node, read.value.height + 1⟩, read.rest, Nat.lt_succ_of_lt read.fewer⟩, ?_, rfl,
    rfl⟩
  rw [unary.eq_def]
  simp only [if_neg (Nat.not_lt.mpr deep)]
  exact bind_eq_ok_iff.mpr ⟨read, ok, bind_eq_ok_iff.mpr ⟨_, above, rfl⟩⟩

theorem unary_base {base : Tall ext.Num} (first : Came (primary ext size depth tokens) base rest)
    (later : CameOn (postfixRest ext size depth base rest) tall rest')
    : Came (unary ext size depth tokens) tall rest' := by
  obtain ⟨read, ok, rfl, rfl⟩ := first
  obtain ⟨all, ok', rfl, rfl⟩ := later
  refine ⟨⟨all.value, all.rest, Nat.lt_of_le_of_lt all.noMore read.fewer⟩, ?_, rfl, rfl⟩
  rw [unary.eq_def]
  split
  · rw [primary.eq_def] at ok
    cases ok
  · exact bind_eq_ok_iff.mpr ⟨read, ok, bind_eq_ok_iff.mpr ⟨all, ok', rfl⟩⟩

theorem postfixRest_property {base : Tall ext.Num} {name : Text} (low : base.height + 1 ≤ maxHeight)
    (later : CameOn (postfixRest ext size depth ⟨.property base.node name, base.height + 1⟩ tokens) tall rest)
    : CameOn (postfixRest ext size depth base ((at_, .dot) :: (at', .name name) :: tokens)) tall rest := by
  obtain ⟨all, ok, rfl, rfl⟩ := later
  have above : over_ at_ base.height (.property base.node name)
      = .ok ⟨.property base.node name, base.height + 1⟩ :=
    over_eq_ok_iff.mpr ⟨low, rfl⟩
  refine ⟨⟨all.value, all.rest, Nat.le_succ_of_le (Nat.le_succ_of_le all.noMore)⟩, ?_, rfl, rfl⟩
  rw [postfixRest]
  exact bind_eq_ok_iff.mpr ⟨_, above, bind_eq_ok_iff.mpr ⟨all, ok, rfl⟩⟩

theorem postfixRest_every {base : Tall ext.Num} (low : base.height + 1 ≤ maxHeight)
    (later : CameOn (postfixRest ext size depth ⟨.every base.node, base.height + 1⟩ tokens) tall rest)
    : CameOn (postfixRest ext size depth base ((at_, .dot) :: (at', .star) :: tokens)) tall rest := by
  obtain ⟨all, ok, rfl, rfl⟩ := later
  have above : over_ at_ base.height (.every base.node) = .ok ⟨.every base.node, base.height + 1⟩ :=
    over_eq_ok_iff.mpr ⟨low, rfl⟩
  refine ⟨⟨all.value, all.rest, Nat.le_succ_of_le (Nat.le_succ_of_le all.noMore)⟩, ?_, rfl, rfl⟩
  rw [postfixRest]
  exact bind_eq_ok_iff.mpr ⟨_, above, bind_eq_ok_iff.mpr ⟨all, ok, rfl⟩⟩

theorem expect_came {want : Token ext.Num → Bool} {what : String} {token : Token ext.Num}
    (wanted : want token = true)
    : expect size want what ((at_, token) :: rest) = .ok ⟨(), rest, Nat.lt_succ_self _⟩ := by
  rw [expect.eq_def]
  simp only [wanted, if_true]

theorem nested_came (deep : depth + 1 ≤ maxDepth)
    (inside : Came (level ext size (depth + 1) .or tokens) tall rest)
    : Came (nested ext size depth tokens) tall rest := by
  rw [nested, if_neg (Nat.not_lt.mpr deep)]
  exact inside

theorem postfixRest_index {base index : Tall ext.Num}
    (inside : Came (nested ext size depth tokens) index ((at', .closeIndex) :: rest))
    (low : max base.height index.height + 1 ≤ maxHeight)
    (later
      : CameOn (postfixRest ext size depth
          ⟨.index base.node index.node, max base.height index.height + 1⟩ rest) tall rest')
    : CameOn (postfixRest ext size depth base ((at_, .openIndex) :: tokens)) tall rest' := by
  obtain ⟨⟨value, left, fewer⟩, ok, rfl, is⟩ := inside
  obtain rfl : left = (at', .closeIndex) :: rest := is
  obtain ⟨all, ok', rfl, rfl⟩ := later
  have above : over_ at_ (max base.height value.height) (.index base.node value.node)
      = .ok ⟨.index base.node value.node, max base.height value.height + 1⟩ :=
    over_eq_ok_iff.mpr ⟨low, rfl⟩
  refine ⟨⟨all.value, all.rest, ?_⟩, ?_, rfl, rfl⟩
  · have noMore := all.noMore
    simp only [List.length_cons] at fewer ⊢
    omega
  · rw [postfixRest]
    exact bind_eq_ok_iff.mpr ⟨_, ok, bind_eq_ok_iff.mpr ⟨_, expect_came rfl, bind_eq_ok_iff.mpr
      ⟨_, above, bind_eq_ok_iff.mpr ⟨all, ok', rfl⟩⟩⟩⟩

theorem postfixRest_stops (stops : Phrase.unary.Stops rest) (base : Tall ext.Num)
    : CameOn (postfixRest ext size depth base rest) base rest := by
  rw [postfixRest.eq_def]
  split
  · cases stops _ rfl
  · cases stops _ rfl
  · cases stops _ rfl
  · cases stops _ rfl
  · exact ⟨_, rfl, rfl, rfl⟩

theorem primary_brackets (inside : Came (nested ext size depth tokens) tall ((at', .close) :: rest))
    : Came (primary ext size depth ((at_, .open_) :: tokens)) tall rest := by
  obtain ⟨⟨value, left, fewer⟩, ok, rfl, is⟩ := inside
  obtain rfl : left = (at', .close) :: rest := is
  refine ⟨⟨value, rest, ?_⟩, ?_, rfl, rfl⟩
  · simp only [List.length_cons] at fewer ⊢
    omega
  · rw [primary]
    exact bind_eq_ok_iff.mpr ⟨_, ok, bind_eq_ok_iff.mpr ⟨_, expect_came rfl, rfl⟩⟩

theorem primary_name {name : Text} (stops : Phrase.primary.Stops rest)
    : Came (primary ext size depth ((at_, .name name) :: rest)) (leaf (named ext name)) rest := by
  rw [primary.eq_def]
  match rest with
  | [] => exact ⟨_, rfl, rfl, rfl⟩
  | (at', token) :: rest =>
      cases token <;> first | exact ⟨_, rfl, rfl, rfl⟩ | cases stops _ rfl

theorem primary_callNothing {at'' : Nat} {name : Text}
    : Came (primary ext size depth ((at_, .name name) :: (at', .open_) :: (at'', .close) :: rest))
        ⟨.call at_ name [], 1⟩ rest := by
  refine ⟨⟨⟨.call at_ name [], 1⟩, rest, ?_⟩, ?_, rfl, rfl⟩
  · simp only [List.length_cons]
    omega
  · rw [primary.eq_def]
    rfl

theorem primary_call {name : Text} {args : List (Node ext.Num) × Nat} {at'' : Nat} {token : Token ext.Num}
    (some_ : (token matches .close) = false)
    (inside : Came (arguments ext size depth ((at'', token) :: tokens)) args rest)
    (low : args.2 + 1 ≤ maxHeight)
    : Came (primary ext size depth ((at_, .name name) :: (at', .open_) :: (at'', token) :: tokens))
        ⟨.call at_ name args.1, args.2 + 1⟩ rest := by
  obtain ⟨read, ok, rfl, rfl⟩ := inside
  have above : over_ at_ read.value.2 (.call at_ name read.value.1)
      = .ok ⟨.call at_ name read.value.1, read.value.2 + 1⟩ :=
    over_eq_ok_iff.mpr ⟨low, rfl⟩
  refine ⟨⟨⟨.call at_ name read.value.1, read.value.2 + 1⟩, read.rest,
    Nat.lt_succ_of_lt (Nat.lt_succ_of_lt read.fewer)⟩, ?_, rfl, rfl⟩
  cases token with
  | close => cases some_
  | _ =>
      rw [primary.eq_def]
      exact bind_eq_ok_iff.mpr ⟨read, ok, bind_eq_ok_iff.mpr ⟨_, above, rfl⟩⟩

theorem arguments_one {arg : Tall ext.Num}
    (only : Came (nested ext size depth tokens) arg ((at_, .close) :: rest))
    : Came (arguments ext size depth tokens) ([arg.node], arg.height) rest := by
  obtain ⟨⟨value, left, fewer⟩, ok, rfl, is⟩ := only
  obtain rfl : left = (at_, .close) :: rest := is
  refine ⟨⟨([value.node], value.height), rest, ?_⟩, ?_, rfl, rfl⟩
  · simp only [List.length_cons] at fewer
    omega
  · rw [arguments]
    exact bind_eq_ok_iff.mpr ⟨_, ok, rfl⟩

theorem arguments_more {arg : Tall ext.Num} {args : List (Node ext.Num) × Nat}
    (first : Came (nested ext size depth tokens) arg ((at_, .comma) :: rest))
    (others : Came (arguments ext size depth rest) args rest')
    : Came (arguments ext size depth tokens) (arg.node :: args.1, max arg.height args.2) rest' := by
  obtain ⟨⟨value, left, fewer⟩, ok, rfl, is⟩ := first
  obtain rfl : left = (at_, .comma) :: rest := is
  obtain ⟨more, ok', rfl, rfl⟩ := others
  refine ⟨⟨(value.node :: more.value.1, max value.height more.value.2), more.rest, ?_⟩, ?_, rfl, rfl⟩
  · have lesser := more.fewer
    simp only [List.length_cons] at fewer
    omega
  · rw [arguments]
    exact bind_eq_ok_iff.mpr ⟨_, ok, bind_eq_ok_iff.mpr ⟨⟨true, rest, _⟩, rfl, bind_eq_ok_iff.mpr
      ⟨more, ok', rfl⟩⟩⟩

end Readers

section Stopping

variable {at_ : Nat} {rest : Tokens ext.Num}

theorem Phrase.stops_nil (part : Phrase)
    : part.Stops ([] : Tokens ext.Num) :=
  nofun

theorem Phrase.stops_closing (part : Phrase) {token : Token ext.Num}
    (closing : token = .close ∨ token = .closeIndex ∨ token = .comma)
    : part.Stops ((at_, token) :: rest) := by
  intro next is
  obtain rfl := Option.some.inj is
  rcases closing with rfl | rfl | rfl <;> cases part <;> rfl

theorem Level.stops_takes {of_ : Level} {op : Op} (takes : of_.takes op = true)
    : of_.operand.Stops ((at_, .op op) :: rest) := by
  intro next is
  obtain rfl := Option.some.inj is
  rw [Level.takes_iff] at takes
  cases of_ <;> simp [Level.operand, Phrase.readsOn, takes, Level.rank]

theorem readsOn_operand {of_ : Level} {token : Token ext.Num} (reads : of_.operand.readsOn token = true)
    : (Phrase.level of_).readsOn token = true := by
  cases token with
  | op op =>
      revert reads
      cases of_ <;> cases op <;> first | exact id | exact fun _ => rfl
  | _ =>
      revert reads
      cases of_ <;> exact id

theorem Level.stops_operand {of_ : Level} (stops : (Phrase.level of_).Stops rest)
    : of_.operand.Stops rest := by
  intro next is
  cases reads : of_.operand.readsOn next.2 with
  | false => rfl
  | true =>
      have on := readsOn_operand reads
      rw [stops next is] at on
      cases on

theorem Phrase.stops_primary (stops : Phrase.unary.Stops rest)
    : Phrase.primary.Stops rest := by
  intro next is
  obtain ⟨at_, token⟩ := next
  have over_ := stops _ is
  cases token <;> first | rfl | cases over_

end Stopping

/-- (Completes part tokens node nesting) says that a part is read where its tokens are the next, whatever
they are followed by that is not read on into it.
-/
def Completes (part : Phrase) (tokens : Tokens ext.Num) (node : Node ext.Num) (nesting : Nat) : Prop :=
  ∀ size depth, depth + nesting ≤ maxDepth → node.height ≤ maxHeight → ∀ rest,
    match part with
    | .level of_ => of_.operand.Stops rest → ∀ tall rest',
        CameOn (levelRest ext size depth of_ ⟨node, node.height⟩ rest) tall rest' →
        Came (level ext size depth of_ (tokens ++ rest)) tall rest'
    | .unary => Phrase.unary.Stops rest →
        Came (unary ext size depth (tokens ++ rest)) ⟨node, node.height⟩ rest
    | .postfix_ => Phrase.primary.Stops rest → ∀ tall rest',
        CameOn (postfixRest ext size depth ⟨node, node.height⟩ rest) tall rest' →
        Came (unary ext size depth (tokens ++ rest)) tall rest'
    | .primary => Phrase.primary.Stops rest →
        Came (primary ext size depth (tokens ++ rest)) ⟨node, node.height⟩ rest

section Parts

variable {tokens : Tokens ext.Num} {node : Node ext.Num} {nesting size depth : Nat}

theorem Completes.level {of_ : Level} (completes : Completes (.level of_) tokens node nesting)
    (deep : depth + nesting ≤ maxDepth) (low : node.height ≤ maxHeight) {rest : Tokens ext.Num}
    (stops : (Phrase.level of_).Stops rest)
    : Came (level ext size depth of_ (tokens ++ rest)) ⟨node, node.height⟩ rest :=
  completes size depth deep low rest (Level.stops_operand stops) _ _ (levelRest_stops stops _)

theorem Completes.operand {of_ : Level} (completes : Completes of_.operand tokens node nesting)
    (deep : depth + nesting ≤ maxDepth) (low : node.height ≤ maxHeight) {rest : Tokens ext.Num}
    (stops : of_.operand.Stops rest)
    : Came (operand ext size depth of_ (tokens ++ rest)) ⟨node, node.height⟩ rest := by
  rw [CiExpr.operand.eq_def]
  cases of_ with
  | or | and | equality => exact Completes.level completes deep low stops
  | comparison => exact completes size depth deep low rest stops

theorem Completes.nested (completes : Completes (.level .or) tokens node nesting)
    (deep : depth + (nesting + 1) ≤ maxDepth) (low : node.height ≤ maxHeight) {at_ : Nat}
    {token : Token ext.Num} {rest : Tokens ext.Num}
    (closing : token = .close ∨ token = .closeIndex ∨ token = .comma)
    : Came (nested ext size depth (tokens ++ (at_, token) :: rest)) ⟨node, node.height⟩
        ((at_, token) :: rest) := by
  refine nested_came (by omega) ?_
  exact completes.level (by omega) low (Phrase.stops_closing _ closing)

end Parts

mutual
theorem Derives.completes {part : Phrase} {tokens : Tokens ext.Num} {node : Node ext.Num} {nesting : Nat}
    (derives : Derives ext part tokens node nesting)
    : Completes part tokens node nesting := by
  intro size depth deep low rest
  match derives with
  | .operand lower =>
      intro stops tall rest' later
      exact level_came ((Derives.completes lower).operand deep low stops) later
  | @Derives.binary _ of_ left right leftNode rightNode nesting nesting' at_ op first takes second =>
      intro stops tall rest' later
      rw [Node.height] at low
      rw [List.append_assoc, List.cons_append]
      refine Derives.completes first size depth (by omega) (by omega) _ (Level.stops_takes takes) tall rest' ?_
      exact levelRest_takes takes ((Derives.completes second).operand (by omega) (by omega) stops) low later
  | .not inner =>
      intro stops
      rw [Node.height] at low
      exact unary_not (by omega) (Derives.completes inner size (depth + 1) (by omega) (by omega) rest stops) low
  | .postfix_ base =>
      intro stops
      exact Derives.completes base size depth deep low rest (Phrase.stops_primary stops) _ _
        (postfixRest_stops stops _)
  | .primary base =>
      intro stops tall rest' later
      exact unary_base (Derives.completes base size depth deep low rest stops) later
  | .property base =>
      intro stops tall rest' later
      rw [Node.height] at low
      rw [List.append_assoc]
      exact Derives.completes base size depth deep (by omega) _ (by rintro _ ⟨⟩; rfl) tall rest'
        (postfixRest_property low later)
  | .every base =>
      intro stops tall rest' later
      rw [Node.height] at low
      rw [List.append_assoc]
      exact Derives.completes base size depth deep (by omega) _ (by rintro _ ⟨⟩; rfl) tall rest'
        (postfixRest_every low later)
  | .index base inside =>
      intro stops tall rest' later
      rw [Node.height] at low
      rw [List.append_assoc, List.cons_append, List.append_assoc]
      refine Derives.completes base size depth (by omega) (by omega) _ (by rintro _ ⟨⟩; rfl) tall rest' ?_
      exact postfixRest_index ((Derives.completes inside).nested (by omega) (by omega) (Or.inr (Or.inl rfl)))
        low later
  | .number => exact fun _ => ⟨_, by rw [CiExpr.primary.eq_def]; rfl, rfl, rfl⟩
  | .text => exact fun _ => ⟨_, by rw [CiExpr.primary.eq_def]; rfl, rfl, rfl⟩
  | .brackets inside =>
      intro stops
      rw [List.cons_append, List.append_assoc]
      exact primary_brackets ((Derives.completes inside).nested deep low (Or.inl rfl))
  | .name =>
      intro stops
      rw [height_named]
      exact primary_name stops
  | .callNothing => exact fun _ => primary_callNothing
  | @Derives.call _ at_ at' at'' name inner args nesting all =>
      intro stops
      rw [Node.height] at low ⊢
      have inside := @DerivesAll.completes inner args nesting all size depth at'' deep (by omega) rest
      obtain ⟨⟨at_, token⟩, more, rfl, begins⟩ := all.begins
      rw [List.cons_append, List.cons_append, List.append_assoc, List.cons_append]
      rw [List.cons_append] at inside
      refine primary_call ?_ inside low
      cases token <;> first | rfl | cases begins

theorem DerivesAll.completes {tokens : Tokens ext.Num} {nodes : List (Node ext.Num)} {nesting : Nat}
    (derives : DerivesAll ext tokens nodes nesting) {size depth at_ : Nat} (deep : depth + nesting ≤ maxDepth)
    (low : heights nodes ≤ maxHeight) (rest : Tokens ext.Num)
    : Came (arguments ext size depth (tokens ++ (at_, .close) :: rest)) (nodes, heights nodes) rest := by
  match derives with
  | .one only =>
      rw [heights, heights, Nat.max_zero] at low ⊢
      exact arguments_one ((Derives.completes only).nested deep low (Or.inl rfl))
  | @DerivesAll.more _ tokens node nesting rest' nodes nesting' at' first others =>
      rw [heights] at low ⊢
      rw [List.append_assoc, List.cons_append]
      have deep' : depth + (nesting + 1) ≤ maxDepth := by omega
      have deep'' : depth + nesting' ≤ maxDepth := by omega
      have front := @Completes.nested _ _ _ _ size depth (Derives.completes first) deep' (by omega) at' _
        (rest' ++ (at_, .close) :: rest) (Or.inr (Or.inr rfl))
      exact arguments_more front (DerivesAll.completes others deep'' (by omega) rest)
end

end Complete

-- A whole text

/-- An expression is read where its tokens are one that nests and stands within the bounds, and has the
tree that it has then.
-/
theorem parse_eq_ok_iff {text : Text} {expr : Expr ext}
    : parse ext text = .ok expr
      ↔ ∃ all nesting, tokens ext text = .ok all ∧ Derives ext (.level .or) all expr.node nesting
        ∧ nesting ≤ maxDepth ∧ expr.node.height ≤ maxHeight := by
  constructor
  · intro ok
    obtain ⟨all, lexed, ok⟩ := exists_of_bind_eq_ok ok
    split at ok
    · cases ok
    · obtain ⟨read, parsed, ok⟩ := exists_of_bind_eq_ok ok
      split at ok <;> rename_i ended
      · obtain rfl := Except.ok.inj ok
        have bounded : all.length * 12 + Level.or.rank * 2 + 3 < all.length * 12 + Level.or.rank * 2 + 4 :=
          Nat.lt_succ_self _
        obtain ⟨used, nesting, split, derives, deep, height, low⟩ :=
          (sound ext _).level bounded (Nat.zero_le _) parsed
        rw [List.isEmpty_iff.mp ended, List.append_nil] at split
        rw [Nat.zero_add] at deep
        rw [height] at low
        exact ⟨all, nesting, lexed, split ▸ derives, deep, low⟩
      · cases ok
  · rintro ⟨all, nesting, lexed, derives, deep, low⟩
    obtain ⟨first, rest, rfl, -⟩ := derives.begins
    have deep' : 0 + nesting ≤ maxDepth := by rwa [Nat.zero_add]
    have came := @Completes.level _ _ _ _ (byteLen text) 0 .or (Derives.completes derives) deep' low []
      (Phrase.stops_nil _)
    rw [List.append_nil] at came
    obtain ⟨read, parsed, value, ended⟩ := came
    refine bind_eq_ok_iff.mpr ⟨first :: rest, lexed, ?_⟩
    refine bind_eq_ok_iff.mpr ⟨read, parsed, ?_⟩
    rw [ended, value]
    rfl

end Dagron.CiExpr
