import Mathlib.Data.Fintype.Card
import Mathlib.Data.Fintype.EquivFin
import Mathlib.Data.Fintype.Sets
import Mathlib.Logic.Relation
import Mathlib.Order.WellFounded

/-! Graphs whose nodes are taken out one after another, each after all that it needs: where all of them can be
taken out there is no cycle, and what cannot be taken out holds one.
-/

namespace Dagron.Library

variable {Node : Type} (needs : Node → Node → Prop)

/-- Whether each node of an order, the last taken out first, needs none but those that were taken out before it. -/
def Eliminates (order : List Node) : Prop :=
  ∀ later node earlier, order = later ++ node :: earlier → ∀ other, needs node other → other ∈ earlier

def Cyclic : Prop :=
  ∃ node, Relation.TransGen needs node node

/-- Whether a chain of needs leads from a node into a cycle. -/
def Leads (node : Node) : Prop :=
  ∃ circle, Relation.ReflTransGen needs node circle ∧ Relation.TransGen needs circle circle

variable {needs}

theorem Eliminates.cons {order : List Node} {node : Node} (eliminates : Eliminates needs order)
    (free : ∀ other, needs node other → other ∈ order)
    : Eliminates needs (node :: order) := by
  intro later other earlier split
  cases later with
  | nil =>
      obtain ⟨rfl, rfl⟩ := List.cons.inj split
      exact free
  | cons first later => exact eliminates later other earlier (List.cons.inj split).2

theorem Eliminates.exists_rank [DecidableEq Node] {order : List Node} (eliminates : Eliminates needs order)
    (nodup : order.Nodup) (all : ∀ node other, needs node other → node ∈ order)
    : ∃ rank : Node → Nat, ∀ node other, needs node other → rank other < rank node := by
  refine ⟨fun node => order.reverse.idxOf node, fun node other need => ?_⟩
  obtain ⟨later, earlier, split⟩ := List.append_of_mem (all node other need)
  have before := eliminates later node earlier split other need
  subst split
  have apart : node ∉ earlier := (List.nodup_cons.mp (List.nodup_append.mp nodup).2.1).1
  have turned : (later ++ node :: earlier).reverse = earlier.reverse ++ node :: later.reverse := by simp
  beta_reduce
  rw [turned, List.idxOf_append_of_mem (List.mem_reverse.mpr before),
    List.idxOf_append_of_notMem (fun there => apart (List.mem_reverse.mp there)), List.idxOf_cons_self,
    Nat.add_zero]
  exact List.idxOf_lt_length_of_mem (List.mem_reverse.mpr before)

theorem not_cyclic_of_rank {rank : Node → Nat} (falls : ∀ node other, needs node other → rank other < rank node)
    : ¬ Cyclic needs := by
  rintro ⟨node, circle⟩
  have lower (node other : Node) (chain : Relation.TransGen needs node other) : rank other < rank node := by
    induction chain with
    | single need => exact falls _ _ need
    | tail _ need ih => exact (falls _ _ need).trans ih
  exact absurd (lower node node circle) (lt_irrefl _)

/-- Nodes that each need one of themselves hold a cycle. -/
theorem cyclic_of_stuck [DecidableEq Node] {left : List Node} {first : Node} (there : first ∈ left)
    (stuck : ∀ node ∈ left, ∃ other ∈ left, needs node other)
    : Cyclic needs := by
  by_contra acyclic
  let below (one two : {node // node ∈ left}) : Prop := Relation.TransGen needs two.1 one.1
  have trans : IsTrans _ below := ⟨fun _ _ _ first second => second.trans first⟩
  have irrefl : Std.Irrefl below := ⟨fun node circle => acyclic ⟨node.1, circle⟩⟩
  have founded : WellFounded below := Finite.wellFounded_of_trans_of_irrefl below
  obtain ⟨⟨least, listed⟩, -, lowest⟩ := founded.has_min Set.univ ⟨⟨first, there⟩, trivial⟩
  obtain ⟨other, listed', need⟩ := stuck least listed
  exact lowest ⟨other, listed'⟩ trivial (.single need)

-- What leads into a cycle

theorem Leads.next {node : Node} (leads : Leads needs node)
    : ∃ other, needs node other ∧ Leads needs other := by
  obtain ⟨circle, chain, around⟩ := leads
  obtain ⟨other, need, rest⟩ := Relation.TransGen.head'_iff.mp (around.trans_right chain)
  exact ⟨other, need, circle, rest, around⟩

/-- No chain leads from a node that is taken out into a cycle: by induction on the order. -/
theorem Eliminates.not_leads {order : List Node} (eliminates : Eliminates needs order) {node : Node}
    (there : node ∈ order)
    : ¬ Leads needs node := by
  induction order generalizing node with
  | nil => cases there
  | cons first earlier ih =>
      have others : Eliminates needs earlier := fun later other rest split =>
        eliminates (first :: later) other rest (by rw [split]; rfl)
      intro leads
      obtain rfl | there := List.mem_cons.mp there
      · obtain ⟨other, need, leads⟩ := leads.next
        exact ih others (eliminates [] node earlier rfl other need) leads
      · exact ih others there leads

/-- Nodes that each need one of themselves lead into a cycle: the ones that a chain leads to hold one. -/
theorem leads_of_stuck [DecidableEq Node] {left : List Node} {first : Node} (there : first ∈ left)
    (stuck : ∀ node ∈ left, ∃ other ∈ left, needs node other)
    : Leads needs first := by
  classical
  let ahead (node other : Node) : Prop := Relation.ReflTransGen needs first node ∧ needs node other
  have found : first ∈ left.filter fun node => Relation.ReflTransGen needs first node :=
    List.mem_filter.mpr ⟨there, decide_eq_true .refl⟩
  obtain ⟨circle, around⟩ : Cyclic ahead := by
    refine cyclic_of_stuck found fun node among => ?_
    obtain ⟨listed, reached⟩ := List.mem_filter.mp among
    obtain ⟨other, listed', need⟩ := stuck node listed
    have reached := of_decide_eq_true reached
    exact ⟨other, List.mem_filter.mpr ⟨listed', decide_eq_true (reached.tail need)⟩, reached, need⟩
  obtain ⟨_, step, _⟩ := Relation.TransGen.head'_iff.mp around
  exact ⟨circle, step.1, Relation.TransGen.mono (fun _ _ step => step.2) _ _ around⟩

end Dagron.Library
