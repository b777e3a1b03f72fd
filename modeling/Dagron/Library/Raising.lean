import Mathlib.Data.List.Basic
import Mathlib.Order.Basic

/-! Values raised by one demand after another: what every raise keeps, what every demand meets in
the end, and which of several demands a pinned part ends up with.
-/

namespace Dagron.Library

variable {Value Demand Pin : Type} {raise : Value → Demand → Value}

section Order

variable [Preorder Value]

theorem le_foldl_raise (raises : ∀ value demand, value ≤ raise value demand) (value : Value)
    (demands : List Demand)
    : value ≤ demands.foldl raise value :=
  List.foldlRecOn _ _ le_rfl fun _ most demand _ => most.trans (raises _ demand)

theorem foldl_raise_meets {Meets : Demand → Value → Prop}
    (raises : ∀ value demand, value ≤ raise value demand)
    (upward : ∀ demand value higher, value ≤ higher → Meets demand value → Meets demand higher)
    (imposed : ∀ value demand, Meets demand (raise value demand)) (value : Value)
    (demands : List Demand)
    : ∀ demand ∈ demands, Meets demand (demands.foldl raise value) := by
  induction demands generalizing value with
  | nil => simp
  | cons demand rest ih =>
      intro other listed
      rcases List.mem_cons.mp listed with rfl | later
      · exact upward _ _ _ (le_foldl_raise raises _ rest) (imposed value _)
      · exact ih _ other later

end Order

section Pins

variable {Open : Value → Prop} {pin : Demand → Option Pin} {held : Value → Option Pin}
  {demands : List Demand} {value : Value}

/-- A part that every raise of an open value pins, where its demand has a pin, ends up with the
last pin.
-/
theorem foldl_raise_pinned
    (pins : ∀ value, Open value → ∀ demand ∈ demands, Open (raise value demand)
      ∧ held (raise value demand) = (pin demand).or (held value))
    (start : Open value)
    : Open (demands.foldl raise value)
      ∧ held (demands.foldl raise value)
        = (demands.reverse.findSome? pin).or (held value) := by
  induction demands generalizing value with
  | nil => exact ⟨start, rfl⟩
  | cons demand rest ih =>
      obtain ⟨stays, one⟩ := pins value start demand List.mem_cons_self
      obtain ⟨ends, many⟩ := ih
        (fun value open_ demand listed => pins value open_ demand (List.mem_cons_of_mem _ listed))
        stays
      refine ⟨ends, ?_⟩
      rw [List.foldl_cons, many, one, List.reverse_cons, List.findSome?_append, Option.or_assoc]
      simp

def PinsAgree (pin : Demand → Option Pin) (demands : List Demand) : Prop :=
  ∀ first ∈ demands, ∀ second ∈ demands, ∀ one two,
    pin first = some one → pin second = some two → one = two

theorem pins_held_iff
    (pins : ∀ value, Open value → ∀ demand ∈ demands, Open (raise value demand)
      ∧ held (raise value demand) = (pin demand).or (held value))
    (start : Open value)
    : (∀ demand ∈ demands, ∀ one, pin demand = some one → held (demands.foldl raise value) = some one)
      ↔ PinsAgree pin demands := by
  constructor
  · intro met first listed second among one two pinned pinned'
    exact Option.some.inj ((met first listed one pinned).symm.trans (met second among two pinned'))
  · intro agree demand listed one pinned
    rw [(foldl_raise_pinned pins start).2]
    cases last : demands.reverse.findSome? pin with
    | none =>
        have unpinned := List.findSome?_eq_none_iff.mp last demand (List.mem_reverse.mpr listed)
        rw [pinned] at unpinned
        cases unpinned
    | some two =>
        obtain ⟨other, among, pinned'⟩ := List.exists_of_findSome?_eq_some last
        rw [agree demand listed other (List.mem_reverse.mp among) one two pinned pinned']
        rfl

end Pins

end Dagron.Library
