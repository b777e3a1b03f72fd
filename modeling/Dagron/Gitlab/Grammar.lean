import Dagron.Gitlab.Rules

/-! The grammar of conditions: what is joined by or is joined by and before, and a variable alone, a comparison
and what is in parentheses is joined by neither. The parser reads exactly what is derived.
-/

namespace Dagron.Gitlab

open Dagron.Library

-- The grammar

/-- The parts of a condition. -/
inductive Part where
  | or
  | and
  | unit

/-- What stands for an operand. -/
inductive Stands : Token → Operand → Prop
  | var {name : Text}
    : Stands (.var name) (.var name)
  | str {text : Text}
    : Stands (.str text) (.str text)
  | null
    : Stands .null .null
  | regex {pattern : Text} {fold : Bool}
    : Stands (.regex pattern fold) (.regex pattern fold)

/-- (Derives part tokens expr nesting) says that tokens are a part of a condition, with so many parentheses one
inside another.
-/
inductive Derives : Part → List Token → Expr → Nat → Prop
  | alone {tokens : List Token} {expr : Expr} {nesting : Nat} (only : Derives .and tokens expr nesting)
    : Derives .or tokens expr nesting
  | or {before operand : List Token} {left right : Expr} {nesting nesting' : Nat}
    (left_ : Derives .or before left nesting) (right_ : Derives .and operand right nesting')
    : Derives .or (before ++ .or :: operand) (.or left right) (max nesting nesting')
  | single {tokens : List Token} {expr : Expr} {nesting : Nat} (only : Derives .unit tokens expr nesting)
    : Derives .and tokens expr nesting
  | and {before operand : List Token} {left right : Expr} {nesting nesting' : Nat}
    (left_ : Derives .and before left nesting) (right_ : Derives .unit operand right nesting')
    : Derives .and (before ++ .and :: operand) (.and left right) (max nesting nesting')
  | group {inner : List Token} {expr : Expr} {nesting : Nat} (inside : Derives .or inner expr nesting)
    : Derives .unit (.open_ :: (inner ++ [.close])) expr (nesting + 1)
  | defined {name : Text}
    : Derives .unit [.var name] (.defined name) 0
  | compare {first second : Token} {op : Op} {left right : Operand} (left_ : Stands first left)
    (right_ : Stands second right) (fits : op.matches_ → right.isPattern)
    : Derives .unit [first, .op op, second] (.compare left op right) 0

theorem operand_eq_some_iff {token : Token} {operand : Operand}
    : token.operand = some operand ↔ Stands token operand := by
  constructor
  · intro same
    cases token with
    | var name => exact Option.some.inj same ▸ .var
    | str text => exact Option.some.inj same ▸ .str
    | regex pattern fold => exact Option.some.inj same ▸ .regex
    | null => exact Option.some.inj same ▸ .null
    | op | and | or | open_ | close => cases same
  · intro stands
    cases stands with
    | var | str | null | regex => rfl

variable {hidden : Char → Bool}

-- What is read is derived

/-- A reader reads only what is a part of a condition, and nests no deeper than is allowed. -/
def Sound (part : Part) (deeper : Nat) (item : Reader) : Prop :=
  ∀ {tokens : List Token} {read : Read Expr tokens}, item tokens = .ok read →
    ∃ used nesting, tokens = used ++ read.rest ∧ Derives part used read.value nesting ∧ nesting ≤ deeper

/-- How a part is joined of others. -/
structure Joins (part sub : Part) (joins : Token) (join : Expr → Expr → Expr) : Prop where
  one
    : ∀ {tokens expr nesting}, Derives sub tokens expr nesting → Derives part tokens expr nesting
  more
    : ∀ {before operand left right nesting nesting'}, Derives part before left nesting →
        Derives sub operand right nesting' →
        Derives part (before ++ joins :: operand) (join left right) (max nesting nesting')

theorem joins_or : Joins .or .and .or .or :=
  ⟨.alone, .or⟩

theorem joins_and : Joins .and .unit .and .and :=
  ⟨.single, .and⟩

section Joined

variable {part sub : Part} {joins : Token} {join : Expr → Expr → Expr} {item : Reader} {deeper : Nat}

theorem joinedRest_sound (rules : Joins part sub joins join) (sound : Sound sub deeper item)
    {before tokens : List Token} {left : Expr} {nesting : Nat} {all : ReadOn tokens}
    (derives : Derives part before left nesting) (within : nesting ≤ deeper)
    (read : joinedRest item joins join left tokens = .ok all)
    : ∃ used nesting, before ++ tokens = used ++ all.rest ∧ Derives part used all.value nesting ∧
        nesting ≤ deeper := by
  induction size : tokens.length using Nat.strongRecOn generalizing before tokens left nesting with
  | ind size ih =>
      subst size
      cases tokens with
      | nil =>
          rw [joinedRest] at read
          obtain rfl := Except.ok.inj read
          exact ⟨before, nesting, rfl, derives, within⟩
      | cons token rest =>
          rw [joinedRest] at read
          split at read
          next same =>
            subst same
            obtain ⟨right, first, read⟩ := exists_of_bind_eq_ok read
            obtain ⟨later, onward, made⟩ := exists_of_bind_eq_ok read
            obtain rfl := Except.ok.inj made
            obtain ⟨used, nesting', whole, derives', within'⟩ := sound first
            obtain ⟨used', nesting'', whole', derives'', within''⟩ :=
              ih right.rest.length (Nat.lt_succ_of_lt right.fewer) (rules.more derives derives')
                (Nat.max_le.mpr ⟨within, within'⟩) onward rfl
            have split_ : before ++ token :: rest = before ++ token :: used ++ right.rest := by
              rw [List.append_assoc, List.cons_append]
              exact congrArg (fun rest => before ++ token :: rest) whole
            exact ⟨used', nesting'', split_.trans whole', derives'', within''⟩
          next =>
            obtain rfl := Except.ok.inj read
            exact ⟨before, nesting, rfl, derives, within⟩

theorem joined_sound (rules : Joins part sub joins join) (sound : Sound sub deeper item)
    : Sound part deeper (joined item joins join) := by
  intro tokens read ok
  obtain ⟨left, first, ok⟩ := exists_of_bind_eq_ok ok
  obtain ⟨all, onward, made⟩ := exists_of_bind_eq_ok ok
  obtain rfl := Except.ok.inj made
  obtain ⟨used, nesting, whole, derives, within⟩ := sound first
  obtain ⟨used', nesting', whole', derives', within'⟩ :=
    joinedRest_sound rules sound (rules.one derives) within onward
  exact ⟨used', nesting', whole.trans whole', derives', within'⟩

end Joined

theorem operand_sound {tokens : List Token} {read : Read Operand tokens} (ok : operand hidden tokens = .ok read)
    : ∃ token, tokens = token :: read.rest ∧ Stands token read.value := by
  cases tokens with
  | nil => cases ok
  | cons token rest =>
      rw [operand] at ok
      split at ok
      next found =>
        obtain rfl := Except.ok.inj ok
        exact ⟨token, rfl, operand_eq_some_iff.mp found⟩
      next => cases ok

theorem comparison_sound (deeper : Nat)
    : Sound .unit deeper (comparison hidden) := by
  intro tokens read ok
  obtain ⟨left, first, ok⟩ := exists_of_bind_eq_ok ok
  obtain ⟨token, whole, stands⟩ := operand_sound first
  split at ok
  next op rest next_ =>
    obtain ⟨right, second, ok⟩ := exists_of_bind_eq_ok ok
    obtain ⟨token', whole', stands'⟩ := operand_sound second
    split at ok
    next => cases ok
    next fits =>
      obtain rfl := Except.ok.inj ok
      have next' : left.rest = .op op :: token' :: right.rest := next_.trans (congrArg _ whole')
      exact ⟨[token, .op op, token'], 0, whole.trans (congrArg _ next'),
        .compare stands stands' (by simpa using fits), Nat.zero_le _⟩
  next =>
    split at ok
    next name same =>
      obtain rfl := Except.ok.inj ok
      rw [same] at stands
      cases stands with
      | var => exact ⟨_, 0, whole, .defined, Nat.zero_le _⟩
    next => cases ok

theorem grouped_sound {deeper : Nat} {inner : Reader} (sound : Sound .or deeper inner) {rest : List Token}
    {read : Read Expr (.open_ :: rest)} (ok : grouped inner rest = .ok read)
    : ∃ used nesting, .open_ :: rest = used ++ read.rest ∧ Derives .unit used read.value nesting ∧
        nesting ≤ deeper + 1 := by
  obtain ⟨inside, first, ok⟩ := exists_of_bind_eq_ok ok
  obtain ⟨used, nesting, whole, derives, within⟩ := sound first
  split at ok
  next tail next_ =>
    obtain rfl := Except.ok.inj ok
    have whole' : rest = used ++ [.close] ++ tail := by
      rw [List.append_assoc]
      exact whole.trans (congrArg _ next_)
    exact ⟨.open_ :: (used ++ [.close]), _, congrArg _ whole', .group derives, Nat.succ_le_succ within⟩
  next => cases ok

theorem unit_eq_comparison {deeper : Nat} {tokens : List Token} (other : ∀ rest, tokens ≠ .open_ :: rest)
    : unit hidden deeper tokens = comparison hidden tokens := by
  rw [unit]
  exact other

theorem unit_sound (deeper : Nat)
    : Sound .unit deeper (unit hidden deeper) := by
  induction deeper with
  | zero =>
      intro tokens read ok
      by_cases opens : ∃ rest, tokens = .open_ :: rest
      · obtain ⟨rest, rfl⟩ := opens
        cases ok
      · rw [unit_eq_comparison (not_exists.mp opens)] at ok
        exact comparison_sound 0 ok
  | succ deeper ih =>
      intro tokens read ok
      by_cases opens : ∃ rest, tokens = .open_ :: rest
      · obtain ⟨rest, rfl⟩ := opens
        exact grouped_sound (joined_sound joins_or (joined_sound joins_and ih)) ok
      · rw [unit_eq_comparison (not_exists.mp opens)] at ok
        exact comparison_sound _ ok

theorem or_sound (deeper : Nat)
    : Sound .or deeper (or hidden deeper) :=
  joined_sound joins_or (joined_sound joins_and (unit_sound deeper))

-- What is derived is read

/-- (Gives item tokens expr rest) says that a reader reads a condition, up to what is left. -/
def Gives (item : Reader) (tokens : List Token) (expr : Expr) (rest : List Token) : Prop :=
  ∃ read, item tokens = .ok read ∧ read.value = expr ∧ read.rest = rest

/-- The same of what is joined to a condition that was read. -/
def GivesOn (item : Reader) (joins : Token) (join : Expr → Expr → Expr) (left : Expr) (tokens : List Token)
    (expr : Expr) (rest : List Token) : Prop :=
  ∃ all, joinedRest item joins join left tokens = .ok all ∧ all.value = expr ∧ all.rest = rest

/-- A token that is joined to a condition that is alone. -/
def Token.compares : Token → Bool
  | op _ => true
  | _ => false

def Part.goesOn : Part → Token → Bool
  | unit, token => token.compares
  | and, token => token.compares || token = .and
  | or, token => token.compares || token = .and || token = .or

def Stops (part : Part) (rest : List Token) : Prop :=
  ∀ token ∈ rest.head?, part.goesOn token = false

section Joined

variable {item : Reader} {joins : Token} {join : Expr → Expr → Expr}

theorem GivesOn.stop {left : Expr} {rest : List Token} (other : ∀ token ∈ rest.head?, token ≠ joins)
    : GivesOn item joins join left rest left rest := by
  cases rest with
  | nil => exact ⟨_, by rw [joinedRest], rfl, rfl⟩
  | cons token rest => exact ⟨_, by rw [joinedRest, if_neg (other token rfl)], rfl, rfl⟩

theorem GivesOn.more {left right expr : Expr} {tokens rest tail : List Token}
    (operand : Gives item tokens right rest) (onward : GivesOn item joins join (join left right) rest expr tail)
    : GivesOn item joins join left (joins :: tokens) expr tail := by
  obtain ⟨read, ok, rfl, rfl⟩ := operand
  obtain ⟨all, ok', rfl, rfl⟩ := onward
  refine ⟨⟨all.value, all.rest, Nat.le_succ_of_le (Nat.le_trans all.noMore (Nat.le_of_lt read.fewer))⟩, ?_,
    rfl, rfl⟩
  rw [joinedRest, if_pos rfl, ok, ok_bind, ok', ok_bind]
  rfl

theorem Gives.joined {left expr : Expr} {tokens rest tail : List Token} (first : Gives item tokens left rest)
    (onward : GivesOn item joins join left rest expr tail)
    : Gives (joined item joins join) tokens expr tail := by
  obtain ⟨read, ok, rfl, rfl⟩ := first
  obtain ⟨all, ok', rfl, rfl⟩ := onward
  refine ⟨⟨all.value, all.rest, Nat.lt_of_le_of_lt all.noMore read.fewer⟩, ?_, rfl, rfl⟩
  rw [Dagron.Gitlab.joined, ok, ok_bind, ok', ok_bind]
  rfl

end Joined

/-- What a part is read to, before what no more of it follows: a part that goes on is read as far as what is
joined to it is.
-/
def Complete (hidden : Char → Bool) (deeper : Nat) (tokens : List Token) (expr : Expr) : Part → Prop
  | .unit => ∀ rest, Stops .unit rest → Gives (unit hidden deeper) (tokens ++ rest) expr rest
  | .and => ∀ rest, Stops .unit rest → ∀ all tail,
      GivesOn (unit hidden deeper) .and .and expr rest all tail →
        Gives (and hidden deeper) (tokens ++ rest) all tail
  | .or => ∀ rest, Stops .and rest → ∀ all tail,
      GivesOn (and hidden deeper) .or .or expr rest all tail →
        Gives (or hidden deeper) (tokens ++ rest) all tail

theorem Stops.unit {rest : List Token} (stops : Stops .and rest)
    : Stops .unit rest :=
  fun token there => (Bool.or_eq_false_iff.mp (stops token there)).1

theorem Complete.gives_and {deeper : Nat} {tokens : List Token} {expr : Expr}
    (complete : Complete hidden deeper tokens expr .and) {rest : List Token} (stops : Stops .and rest)
    : Gives (and hidden deeper) (tokens ++ rest) expr rest :=
  complete rest stops.unit _ _ (GivesOn.stop fun token there =>
    of_decide_eq_false (Bool.or_eq_false_iff.mp (stops token there)).2)

theorem Complete.gives_or {deeper : Nat} {tokens : List Token} {expr : Expr}
    (complete : Complete hidden deeper tokens expr .or) {rest : List Token} (stops : Stops .or rest)
    : Gives (or hidden deeper) (tokens ++ rest) expr rest :=
  complete rest (fun token there => (Bool.or_eq_false_iff.mp (stops token there)).1) _ _
    (GivesOn.stop fun token there => of_decide_eq_false (Bool.or_eq_false_iff.mp (stops token there)).2)

theorem operand_complete {token : Token} {operand : Operand} (stands : Stands token operand) (rest : List Token)
    : Dagron.Gitlab.operand hidden (token :: rest) = .ok ⟨operand, rest, Nat.lt_succ_self _⟩ := by
  rw [Dagron.Gitlab.operand]
  split
  next found =>
    rw [operand_eq_some_iff.mpr stands] at found
    obtain rfl := Option.some.inj found
    rfl
  next missing =>
    rw [operand_eq_some_iff.mpr stands] at missing
    cases missing

theorem Stands.ne_open {token : Token} {operand : Operand} (stands : Stands token operand)
    : token ≠ .open_ := by
  cases stands with
  | var | str | null | regex => exact Token.noConfusion

theorem Gives.grouped {deeper : Nat} {tokens rest : List Token} {expr : Expr}
    (inside : Gives (or hidden deeper) tokens expr (.close :: rest))
    : Gives (Dagron.Gitlab.unit hidden (deeper + 1)) (.open_ :: tokens) expr rest := by
  obtain ⟨read, ok, rfl, left_⟩ := inside
  have fewer : rest.length < (.open_ :: tokens).length := by
    have := read.fewer
    rw [left_] at this
    simp only [List.length_cons] at this ⊢
    omega
  refine ⟨⟨read.value, rest, fewer⟩, ?_, rfl, rfl⟩
  show Dagron.Gitlab.grouped (or hidden deeper) tokens = _
  rw [Dagron.Gitlab.grouped, ok, ok_bind]
  split
  next tail next_ =>
    obtain rfl := (List.cons.inj (left_.symm.trans next_)).2
    rfl
  next other => exact absurd left_ (other rest)

theorem gives_defined {deeper : Nat} {name : Text} {rest : List Token} (stops : Stops .unit rest)
    : Gives (unit hidden deeper) (.var name :: rest) (.defined name) rest := by
  refine ⟨⟨.defined name, rest, Nat.lt_succ_self _⟩, ?_, rfl, rfl⟩
  rw [unit_eq_comparison fun _ same => Stands.var.ne_open (List.cons.inj same).1, comparison,
    operand_complete .var, ok_bind]
  split
  next op tail next_ =>
    have goesOn := stops (.op op) (congrArg List.head? next_)
    cases goesOn
  next => rfl

theorem gives_compare {deeper : Nat} {first second : Token} {op : Op} {left right : Operand} {rest : List Token}
    (left_ : Stands first left) (right_ : Stands second right) (fits : op.matches_ → right.isPattern)
    : Gives (unit hidden deeper) (first :: .op op :: second :: rest) (.compare left op right) rest := by
  have fewer : rest.length < (first :: .op op :: second :: rest).length := by
    simp only [List.length_cons]
    omega
  refine ⟨⟨.compare left op right, rest, fewer⟩, ?_, rfl, rfl⟩
  rw [unit_eq_comparison fun _ same => left_.ne_open (List.cons.inj same).1, comparison,
    operand_complete left_, ok_bind]
  show (operand hidden (second :: rest) >>= _) = _
  rw [operand_complete right_, ok_bind]
  refine if_neg ?_
  simpa using fits

theorem complete_of_derives {part : Part} {tokens : List Token} {expr : Expr} {nesting : Nat}
    (derives : Derives part tokens expr nesting) {deeper : Nat} (within : nesting ≤ deeper)
    : Complete hidden deeper tokens expr part := by
  induction derives generalizing deeper with
  | alone _ ih =>
      intro rest stops all tail onward
      exact (Complete.gives_and (ih within) stops).joined onward
  | @or before operand left right nesting nesting' _ _ ih ih' =>
      intro rest stops all tail onward
      rw [List.append_assoc]
      refine ih (le_trans (le_max_left _ _) within) _ (fun token there => ?_) all tail
        (GivesOn.more (Complete.gives_and (ih' (le_trans (le_max_right _ _) within)) stops) onward)
      obtain rfl := Option.some.inj there
      rfl
  | single _ ih =>
      intro rest stops all tail onward
      exact (ih within rest stops).joined onward
  | @and before operand left right nesting nesting' _ _ ih ih' =>
      intro rest stops all tail onward
      rw [List.append_assoc]
      refine ih (le_trans (le_max_left _ _) within) _ (fun token there => ?_) all tail
        (GivesOn.more (ih' (le_trans (le_max_right _ _) within) rest stops) onward)
      obtain rfl := Option.some.inj there
      rfl
  | @group inner expr nesting _ ih =>
      intro rest _
      obtain ⟨deeper, rfl⟩ := Nat.exists_eq_add_of_le' (le_trans (Nat.le_add_left 1 nesting) within)
      have closes : Stops .or (.close :: rest) := fun token there => by
        obtain rfl := Option.some.inj there
        rfl
      have inside := Complete.gives_or (ih (Nat.le_of_succ_le_succ within)) closes
      rw [List.cons_append, List.append_assoc]
      exact inside.grouped
  | @defined name =>
      intro rest stops
      exact gives_defined stops
  | compare left_ right_ fits =>
      intro rest _
      exact gives_compare left_ right_ fits

theorem parse_eq_ok_iff {text : Text} {expr : Expr} (short : bytesOf text ≤ maxLen)
    : parse hidden text = .ok expr ↔
      ∃ all nesting, tokens hidden text = .ok all ∧ Derives .or all expr nesting ∧ nesting ≤ maxDepth := by
  rw [parse, if_neg (Nat.not_lt.mpr short), bind_eq_ok_iff]
  constructor
  · rintro ⟨all, lexed, ok⟩
    split at ok
    next => cases ok
    next =>
      obtain ⟨read, ok, last⟩ := exists_of_bind_eq_ok ok
      obtain ⟨used, nesting, whole, derives, within⟩ := or_sound maxDepth ok
      split at last
      next nothing =>
        obtain rfl := Except.ok.inj last
        rw [nothing, List.append_nil] at whole
        exact ⟨all, nesting, lexed, whole ▸ derives, within⟩
      next => cases last
  · rintro ⟨all, nesting, lexed, derives, within⟩
    refine ⟨all, lexed, ?_⟩
    have gives := @Complete.gives_or hidden _ _ _ (complete_of_derives derives within) []
      (by rintro _ ⟨⟩)
    rw [List.append_nil] at gives
    obtain ⟨read, ok, rfl, nothing⟩ := gives
    have some_ : all ≠ [] := List.ne_nil_of_length_pos (Nat.zero_lt_of_lt read.fewer)
    rw [if_neg (List.isEmpty_iff.not.mpr some_), ok, ok_bind]
    split
    next => rfl
    next token tail next_ => cases nothing.symm.trans next_

end Dagron.Gitlab
