import Dagron.Library.Results

/-! Transactions over a working copy: statements that each may fail, at any of which the
environment may break the transaction, and of which nothing is kept unless it commits.
-/

namespace Dagron.Library

variable {State Error : Type}

/-- What a statement makes of the working copy, or why it fails. -/
abbrev Statement (State Error : Type) := State → Except Error State

/-- Why a transaction comes to nothing: a statement of it failed, or it was broken. -/
inductive Failure (Error : Type) where
  | statement (error : Error)
  | broken
  deriving DecidableEq

/-- The working copy that statements leave one after the other; (breaks) says at which place
the transaction is broken, the commit being its last place.
-/
def workThrough (breaks : Nat → Bool)
    : Nat → List (Statement State Error) → State → Except (Failure Error) State
  | place, [], working => if breaks place then .error .broken else .ok working
  | place, statement :: rest, working =>
      if breaks place then .error .broken
      else (statement working).mapError .statement >>= workThrough breaks (place + 1) rest

/-- The store after a transaction, and whether it went through: its working copy as it commits,
and else the store as it was.
-/
def transact (breaks : Nat → Bool) (statements : List (Statement State Error)) (store : State)
    : State × Except (Failure Error) Unit :=
  match workThrough breaks 0 statements store with
  | .ok working => (working, .ok ())
  | .error failure => (store, .error failure)

/-- What statements one after the other make of a state, where nothing breaks them. -/
def inTurn (statements : List (Statement State Error)) (state : State) : Except Error State :=
  statements.foldlM (fun state statement => statement state) state

theorem transact_of_error {breaks : Nat → Bool} {statements : List (Statement State Error)}
    {store : State} {failure : Failure Error}
    (failed : (transact breaks statements store).2 = .error failure)
    : (transact breaks statements store).1 = store := by
  unfold transact at failed ⊢
  split at failed
  case h_1 => cases failed
  case h_2 => rfl

/-- What a transaction is left with at its commit is what its statements make in turn, by
induction over them.
-/
theorem inTurn_of_workThrough {breaks : Nat → Bool} {statements : List (Statement State Error)}
    {place : Nat} {store working : State}
    (done : workThrough breaks place statements store = .ok working)
    : inTurn statements store = .ok working := by
  induction statements generalizing place store with
  | nil =>
      unfold workThrough at done
      split at done
      · cases done
      · cases done
        rfl
  | cons statement rest ih =>
      unfold workThrough at done
      split at done
      · cases done
      · obtain ⟨next, first, later⟩ := exists_of_bind_eq_ok done
        unfold inTurn
        rw [List.foldlM_cons]
        exact bind_eq_ok_iff.mpr ⟨next, ok_of_mapError first, ih later⟩

theorem inTurn_of_transact {breaks : Nat → Bool} {statements : List (Statement State Error)}
    {store : State} (done : (transact breaks statements store).2 = .ok ())
    : inTurn statements store = .ok (transact breaks statements store).1 := by
  unfold transact at done ⊢
  split at done
  case h_1 working same => exact inTurn_of_workThrough same
  case h_2 => cases done

theorem inTurn_cons (first : Statement State Error) (rest : List (Statement State Error)) (state : State)
    : inTurn (first :: rest) state = first state >>= inTurn rest := by
  unfold inTurn
  rw [List.foldlM_cons]

theorem inTurn_append (first second : List (Statement State Error)) (state : State)
    : inTurn (first ++ second) state = inTurn first state >>= inTurn second := by
  unfold inTurn
  rw [List.foldlM_append]

theorem inTurn_append_of_ok {first : List (Statement State Error)} {state next : State}
    (done : inTurn first state = .ok next) (second : List (Statement State Error))
    : inTurn (first ++ second) state = inTurn second next := by
  rw [inTurn_append, done]
  rfl

theorem inTurn_writes {Item : Type} (write : State → Item → State) (items : List Item) (state : State)
    : inTurn (items.map (fun item => (fun state => .ok (write state item) : Statement State Error)))
        state
      = .ok (items.foldl write state) := by
  induction items generalizing state with
  | nil => rfl
  | cons item rest ih =>
      rw [List.map_cons, inTurn_cons]
      exact ih (write state item)

end Dagron.Library
