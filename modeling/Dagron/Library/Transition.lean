import Mathlib.Data.List.Basic

/-! Systems whose operations commit one state after another. A crash can end an operation
after any of its commits, so a history records commits rather than whole operations.
-/

namespace Dagron.Library

/-- A transition system with labelled operations; (commits) lists the states an operation
commits, in order, when it starts in a state.
-/
structure System (State Label : Type) where
  init
    : State
  commits
    : Label → State → List State

/-- One committed state change, with the operation that made it. -/
structure Commit (State Label : Type) where
  label
    : Label
  before
    : State
  after
    : State

/-- The commits of one operation: each starts in the state the one before it left. -/
def commitsFrom {State Label : Type} (label : Label)
    : State → List State → List (Commit State Label)
  | _, [] => []
  | state, next :: rest => ⟨label, state, next⟩ :: commitsFrom label next rest

/-- One operation that runs the same transaction for each of its items. -/
def sweep {State Item : Type} (transaction : Item → State → State)
    : List Item → State → List State
  | [], _ => []
  | item :: rest, state =>
      transaction item state :: sweep transaction rest (transaction item state)

/-- Commits that follow one another from a first state to a last one. -/
def Linked {State Label : Type} : State → List (Commit State Label) → State → Prop
  | start, [], last => start = last
  | start, commit :: rest, last => commit.before = start ∧ Linked commit.after rest last

section Commits

variable {State Label Item : Type}

theorem linked_append {start last : State} {first second : List (Commit State Label)}
    : Linked start (first ++ second) last
      ↔ ∃ middle, Linked start first middle ∧ Linked middle second last := by
  induction first generalizing start with
  | nil => simp [Linked]
  | cons head rest ih => simp [Linked, ih, and_assoc]

theorem linked_commitsFrom (label : Label) (state : State) (states : List State)
    : Linked state (commitsFrom label state states) (states.getLastD state) := by
  induction states generalizing state with
  | nil => rfl
  | cons next rest ih =>
      rw [List.getLastD_cons]
      exact ⟨rfl, ih next⟩

/-- The commits of states in two parts are the commits of each, the second from where the
first ended.
-/
theorem commitsFrom_append (label : Label) (state : State) (first second : List State)
    : commitsFrom label state (first ++ second)
      = commitsFrom label state first ++ commitsFrom label (first.getLastD state) second := by
  induction first generalizing state with
  | nil => rfl
  | cons next rest ih =>
      rw [List.getLastD_cons]
      exact congrArg _ (ih next)

theorem label_of_mem_commitsFrom {label : Label} {state : State} {states : List State}
    {commit : Commit State Label} (member : commit ∈ commitsFrom label state states)
    : commit.label = label := by
  induction states generalizing state with
  | nil => cases member
  | cons next rest ih =>
      rcases List.mem_cons.mp member with rfl | later
      · rfl
      · exact ih later

theorem mem_commitsFrom_of_cut {label : Label} {state : State} {done states : List State}
    (cut : done <+: states) {commit : Commit State Label}
    (member : commit ∈ commitsFrom label state done)
    : commit ∈ commitsFrom label state states := by
  obtain ⟨rest, rfl⟩ := cut
  induction done generalizing state with
  | nil => cases member
  | cons next tail ih =>
      rcases List.mem_cons.mp member with rfl | later
      · exact List.mem_cons_self
      · exact List.mem_cons_of_mem _ (ih later)

@[simp]
theorem mem_commitsFrom_singleton {label : Label} {state next : State} {commit : Commit State Label}
    : commit ∈ commitsFrom label state [next] ↔ commit = ⟨label, state, next⟩ := by
  simp [commitsFrom]

theorem mem_commitsFrom_toList {label : Label} {state : State} {next? : Option State}
    {commit : Commit State Label}
    : commit ∈ commitsFrom label state next?.toList
      ↔ ∃ next, next? = some next ∧ commit = ⟨label, state, next⟩ := by
  cases next? <;> simp [commitsFrom]

/-- What every transaction of a sweep keeps holds before each of its commits, each of which is
its transaction run for one of the items.
-/
theorem kept_of_mem_sweep {Kept : State → Prop} {transaction : Item → State → State}
    {label : Label} {items : List Item} {state : State} {commit : Commit State Label}
    (keep : ∀ item ∈ items, ∀ state, Kept state → Kept (transaction item state))
    (holds : Kept state) (member : commit ∈ commitsFrom label state (sweep transaction items state))
    : Kept commit.before ∧ ∃ item ∈ items, commit.after = transaction item commit.before := by
  induction items generalizing state with
  | nil => cases member
  | cons head rest ih =>
      rcases List.mem_cons.mp member with rfl | later
      · exact ⟨holds, head, List.mem_cons_self, rfl⟩
      · obtain ⟨kept, item, within, same⟩ := ih (fun item among => keep item (List.mem_cons_of_mem _ among))
          (keep head List.mem_cons_self state holds) later
        exact ⟨kept, item, List.mem_cons_of_mem _ within, same⟩

theorem exists_item_of_mem_sweep {transaction : Item → State → State} {label : Label}
    {items : List Item} {state : State} {commit : Commit State Label}
    (member : commit ∈ commitsFrom label state (sweep transaction items state))
    : ∃ item ∈ items, commit.after = transaction item commit.before :=
  (kept_of_mem_sweep (fun _ _ _ (_ : True) => trivial) trivial member).2

/-- Commits that follow one another keep an invariant they each keep, and each meets the
specification it meets where the invariant holds, by induction along the chain.
-/
theorem Linked.rule {Inv : State → Prop} {Spec : Commit State Label → Prop}
    {commits : List (Commit State Label)} {start last : State}
    (linked : Linked start commits last) (holds : Inv start)
    (step : ∀ commit ∈ commits, Inv commit.before → Inv commit.after ∧ Spec commit)
    : Inv last
      ∧ ∀ commit ∈ commits, Inv commit.before ∧ Inv commit.after ∧ Spec commit := by
  induction commits generalizing start with
  | nil =>
      obtain rfl : start = last := linked
      exact ⟨holds, by simp⟩
  | cons head rest ih =>
      obtain ⟨rfl, linked⟩ := linked
      obtain ⟨after, spec⟩ := step head List.mem_cons_self holds
      obtain ⟨last, every⟩ := ih linked after (fun commit member =>
        step commit (List.mem_cons_of_mem _ member))
      exact ⟨last, List.forall_mem_cons.mpr ⟨⟨holds, after, spec⟩, every⟩⟩

end Commits

namespace System

variable {State Label : Type} (sys : System State Label) (allowed : Label → State → Prop)

/-- Histories of the system from a state: operations in any order, each cut short after any
of its commits, whose transactions all start in states where they are allowed.
-/
inductive History (start : State) : List (Commit State Label) → State → Prop
  | start : History start [] start
  | operate {commits : List (Commit State Label)} {state : State}
      (earlier : History start commits state) (label : Label) (done : List State)
      (cut : done <+: sys.commits label state)
      (permitted : ∀ commit ∈ commitsFrom label state done, allowed label commit.before)
      : History start (commits ++ commitsFrom label state done) (done.getLastD state)

/-- A state is reachable when a history from the initial state ends in it. -/
def Reachable (state : State) : Prop :=
  ∃ commits, sys.History allowed sys.init commits state

variable {sys allowed}

theorem History.linked {start : State} {commits : List (Commit State Label)} {state : State}
    (history : sys.History allowed start commits state)
    : Linked start commits state := by
  induction history with
  | start => rfl
  | operate earlier label done cut permitted ih =>
      exact linked_append.mpr ⟨_, ih, linked_commitsFrom label _ done⟩

/-- The rule for whole histories: what every allowed transaction preserves holds at the end
and around each commit, and what every transaction does is true of each commit.
-/
theorem History.rule {Inv : State → Prop} {Spec : Commit State Label → Prop} {start : State}
    {commits : List (Commit State Label)} {state : State}
    (history : sys.History allowed start commits state) (initial : Inv start)
    (step : ∀ label origin, Inv origin →
      ∀ commit ∈ commitsFrom label origin (sys.commits label origin),
        Inv commit.before → allowed label commit.before → Inv commit.after ∧ Spec commit)
    : Inv state ∧ ∀ commit ∈ commits, Inv commit.before ∧ Inv commit.after ∧ Spec commit := by
  induction history with
  | start => exact ⟨initial, by simp⟩
  | operate earlier label done cut permitted ih =>
      obtain ⟨holds, every⟩ := ih
      obtain ⟨last, new⟩ := (linked_commitsFrom label _ done).rule holds
        (fun commit member before =>
          step label _ holds commit (mem_commitsFrom_of_cut cut member) before (permitted commit member))
      refine ⟨last, ?_⟩
      intro commit member
      rcases List.mem_append.mp member with old | fresh
      · exact every commit old
      · exact new commit fresh

theorem Reachable.invariant {Inv : State → Prop} {state : State}
    (reachable : sys.Reachable allowed state) (initial : Inv sys.init)
    (step : ∀ label origin, Inv origin →
      ∀ commit ∈ commitsFrom label origin (sys.commits label origin),
        Inv commit.before → allowed label commit.before → Inv commit.after)
    : Inv state := by
  obtain ⟨commits, history⟩ := reachable
  have whole : Inv state ∧ ∀ commit ∈ commits, Inv commit.before ∧ Inv commit.after ∧ True :=
    history.rule initial (fun label origin start commit member before permitted =>
      ⟨step label origin start commit member before permitted, trivial⟩)
  exact whole.1

/-- What holds after one commit of a history, and is kept by every commit, holds before each
later commit and at the end.
-/
theorem History.carry {Kept : State → Prop} {start : State}
    {early late : List (Commit State Label)} {first : Commit State Label} {state : State}
    (history : sys.History allowed start (early ++ first :: late) state)
    (keep : ∀ commit ∈ late, Kept commit.before → Kept commit.after)
    (holds : Kept first.after)
    : Kept state ∧ ∀ commit ∈ late, Kept commit.before := by
  obtain ⟨middle, _, linked⟩ := linked_append.mp history.linked
  have whole : Kept state ∧ ∀ commit ∈ late, Kept commit.before ∧ Kept commit.after ∧ True :=
    linked.2.rule holds (fun commit member before => ⟨keep commit member before, trivial⟩)
  obtain ⟨last, every⟩ := whole
  exact ⟨last, fun commit member => (every commit member).1⟩

-- Whole operations

section Whole

variable (sys) (allowed)

def outcome : State → List Label → State
  | state, [] => state
  | state, label :: rest => outcome ((sys.commits label state).getLastD state) rest

def trace : State → List Label → List (Commit State Label)
  | _, [] => []
  | state, label :: rest =>
      commitsFrom label state (sys.commits label state)
        ++ trace ((sys.commits label state).getLastD state) rest

/-- Whether every transaction of some operations, each whole, starts where it is allowed. -/
def Permits : State → List Label → Prop
  | _, [] => True
  | state, label :: rest =>
      (∀ commit ∈ commitsFrom label state (sys.commits label state), allowed label commit.before)
        ∧ Permits ((sys.commits label state).getLastD state) rest

instance decidablePermits [∀ label state, Decidable (allowed label state)]
    : ∀ state labels, Decidable (sys.Permits allowed state labels)
  | _, [] => isTrue trivial
  | state, label :: rest =>
      have := decidablePermits ((sys.commits label state).getLastD state) rest
      inferInstanceAs (Decidable (_ ∧ _))

end Whole

theorem History.whole {start state : State} {commits : List (Commit State Label)}
    (history : sys.History allowed start commits state) {labels : List Label}
    (permits : sys.Permits allowed state labels)
    : sys.History allowed start (commits ++ sys.trace state labels) (sys.outcome state labels) := by
  induction labels generalizing commits state with
  | nil =>
      rw [trace, List.append_nil]
      exact history
  | cons label rest ih =>
      rw [trace, ← List.append_assoc]
      exact ih (.operate history label _ (List.prefix_refl _) permits.1) permits.2

theorem History.first {start state : State} {commits : List (Commit State Label)}
    (history : sys.History allowed start commits state) (label : Label)
    (some_ : sys.commits label state ≠ []) (permitted : allowed label state)
    : sys.History allowed start (commits ++ [⟨label, state, (sys.commits label state).head some_⟩])
        ((sys.commits label state).head some_) := by
  have cut : [(sys.commits label state).head some_] <+: sys.commits label state :=
    ⟨_, List.cons_head_tail some_⟩
  refine history.operate label _ cut ?_
  intro commit member
  obtain rfl := mem_commitsFrom_singleton.mp member
  exact permitted

theorem Reachable.outcome {labels : List Label} (permits : sys.Permits allowed sys.init labels)
    : sys.Reachable allowed (sys.outcome sys.init labels) :=
  ⟨_, .whole .start permits⟩

end System

end Dagron.Library
