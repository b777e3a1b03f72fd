import Mathlib.Data.List.Basic

/-! Computations that do things one after the other, and return a value or fail: what each did, up
to where it failed, is kept beside what it came to.
-/

namespace Dagron.Library

/-- What a computation did, and what it came to. -/
structure Traced (Act Fault Value : Type) where
  acts
    : List Act
  result
    : Except Fault Value

namespace Traced

variable {Act Fault Item Value : Type}

/-- What comes after a computation is done only where it returned. -/
def andThen (first : Traced Act Fault Item) (next : Item → Traced Act Fault Value)
    : Traced Act Fault Value :=
  match first.result with
  | .ok item => ⟨first.acts ++ (next item).acts, (next item).result⟩
  | .error fault => ⟨first.acts, .error fault⟩

instance : Monad (Traced Act Fault) where
  pure value := ⟨[], .ok value⟩
  bind := andThen

def act (act : Act) : Traced Act Fault Unit :=
  ⟨[act], .ok ()⟩

def raise (fault : Fault) : Traced Act Fault Value :=
  ⟨[], .error fault⟩

def orRaise (value? : Option Value) (fault : Fault) : Traced Act Fault Value :=
  match value? with
  | some value => pure value
  | none => raise fault

-- Results

@[simp]
theorem result_pure (value : Value)
    : (pure value : Traced Act Fault Value).result = .ok value :=
  rfl

@[simp]
theorem result_act (done : Act)
    : (act done : Traced Act Fault Unit).result = .ok () :=
  rfl

@[simp]
theorem result_raise (fault : Fault)
    : (raise fault : Traced Act Fault Value).result = .error fault :=
  rfl

@[simp]
theorem result_bind (first : Traced Act Fault Item) (next : Item → Traced Act Fault Value)
    : (first >>= next).result = first.result >>= fun item => (next item).result := by
  change (andThen first next).result = _
  unfold andThen
  cases first.result <;> rfl

@[simp]
theorem result_orRaise (value? : Option Value) (fault : Fault)
    : (orRaise value? fault : Traced Act Fault Value).result
      = value?.elim (.error fault) .ok := by
  cases value? <;> rfl

-- Bounds on what is done

/-- Everything that is done is allowed, and a failure, if any, is of an expected kind. -/
structure Within (allowed : Act → Prop) (expected : Fault → Prop) (run : Traced Act Fault Value)
    : Prop where
  acts
    : ∀ act ∈ run.acts, allowed act
  fault
    : ∀ fault, run.result = .error fault → expected fault

variable {allowed : Act → Prop} {expected : Fault → Prop}

theorem Within.pure (value : Value)
    : Within allowed expected (Pure.pure value : Traced Act Fault Value) where
  acts _ done := by cases done
  fault _ failed := by cases failed

theorem Within.act {done : Act} (fine : allowed done)
    : Within allowed expected (Traced.act done : Traced Act Fault Unit) where
  acts other listed := by
    rw [List.mem_singleton.mp listed]
    exact fine
  fault _ failed := by cases failed

theorem Within.raise {fault : Fault} (fine : expected fault)
    : Within allowed expected (Traced.raise fault : Traced Act Fault Value) where
  acts _ done := by cases done
  fault other failed := by
    cases failed
    exact fine

theorem Within.orRaise {value? : Option Value} {fault : Fault} (fine : expected fault)
    : Within allowed expected (Traced.orRaise value? fault : Traced Act Fault Value) := by
  cases value? with
  | none => exact .raise fine
  | some value => exact .pure value

theorem Within.bind {first : Traced Act Fault Item} {next : Item → Traced Act Fault Value}
    (before : Within allowed expected first)
    (after : ∀ item, first.result = .ok item → Within allowed expected (next item))
    : Within allowed expected (first >>= next) := by
  change Within allowed expected (andThen first next)
  unfold andThen
  cases came : first.result with
  | error fault =>
      refine ⟨before.acts, ?_⟩
      rintro other ⟨⟩
      exact before.fault fault came
  | ok item =>
      have later := after item came
      refine ⟨?_, later.fault⟩
      intro done listed
      rcases List.mem_append.mp listed with listed | listed
      · exact before.acts done listed
      · exact later.acts done listed

end Traced

end Dagron.Library
