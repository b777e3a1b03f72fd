import Mathlib.Data.List.Count
import Mathlib.Algebra.Order.BigOperators.Group.List
import Mathlib.Algebra.Order.Group.Int
import Mathlib.Algebra.Order.Group.Nat

/-! Dependency graphs whose waiting nodes count down their unfinished prerequisites in a
stored counter. A board is exact when every stored counter is the number it stands for, and
solvent when no counter runs ahead of it.
-/

namespace Dagron.Library

/-- A countdown board: edges lead from a node to the prerequisites it waits for, (live) nodes
have not finished, (pending) ones have not started, and (hold) counts units a counter carries
besides prerequisites.
-/
structure Board (Node : Type) where
  edges
    : List (Node × Node)
  pending
    : Node → Bool
  live
    : Node → Bool
  remaining
    : Node → Int
  hold
    : Node → Int

namespace Board

variable {Node : Type} [DecidableEq Node]

/-- How many prerequisites of a node among the given ones. -/
def prerequisites (edges : List (Node × Node)) (among : Node → Bool) (node : Node) : Nat :=
  edges.countP (fun edge => edge.1 = node ∧ among edge.2)

/-- How many prerequisites of a node have not finished. -/
def blockers (board : Board Node) (node : Node) : Nat :=
  prerequisites board.edges board.live node

/-- How far a stored counter stands above the count it stands for. -/
def slack (board : Board Node) (node : Node) : Int :=
  board.remaining node - board.blockers node - board.hold node

def Exact (board : Board Node) : Prop :=
  ∀ node, board.pending node → board.slack node = 0

/-- No pending node's counter is below the count it stands for. -/
def Solvent (board : Board Node) : Prop :=
  ∀ node, board.pending node → 0 ≤ board.slack node

/-- A change makes no node pending, and keeps the slack of those that stay so. -/
def Keeps (before after : Board Node) : Prop :=
  ∀ node, after.pending node → before.pending node ∧ after.slack node = before.slack node

/-- A change makes no node pending, and lowers the slack of none that stays so. -/
def Raises (before after : Board Node) : Prop :=
  ∀ node, after.pending node → before.pending node ∧ before.slack node ≤ after.slack node

/-- A change keeps the slack of the nodes that stay pending, or leaves none. -/
def Recounts (before after : Board Node) : Prop :=
  ∀ node, after.pending node →
    (before.pending node ∧ after.slack node = before.slack node) ∨ after.slack node = 0

omit [DecidableEq Node] in
/-- A graph is acyclic when some rank falls along each of its edges. -/
def Acyclic (edges : List (Node × Node)) : Prop :=
  ∃ rank : Node → Nat, ∀ edge ∈ edges, rank edge.2 < rank edge.1

-- Changes

theorem Exact.solvent {board : Board Node} (exact_ : board.Exact)
    : board.Solvent :=
  fun node pending => (exact_ node pending).ge

theorem Recounts.exact {before after : Board Node} (recounts : Recounts before after)
    (exact_ : before.Exact)
    : after.Exact := by
  intro node pending
  rcases recounts node pending with ⟨was, same⟩ | none
  · rw [same, exact_ node was]
  · exact none

theorem Recounts.solvent {before after : Board Node} (recounts : Recounts before after)
    (solvent : before.Solvent)
    : after.Solvent := by
  intro node pending
  rcases recounts node pending with ⟨was, same⟩ | none
  · rw [same]
    exact solvent node was
  · exact none.ge

theorem Raises.solvent {before after : Board Node} (raises : Raises before after) (solvent : before.Solvent)
    : after.Solvent := by
  intro node pending
  obtain ⟨was, above⟩ := raises node pending
  exact (solvent node was).trans above

theorem Keeps.raises {before after : Board Node} (keeps : Keeps before after)
    : Raises before after := by
  intro node pending
  obtain ⟨was, same⟩ := keeps node pending
  exact ⟨was, same.ge⟩

theorem Keeps.recounts {before after : Board Node} (keeps : Keeps before after)
    : Recounts before after :=
  fun node pending => .inl (keeps node pending)

theorem Keeps.refl (board : Board Node)
    : Keeps board board :=
  fun _ pending => ⟨pending, rfl⟩

theorem Keeps.trans {first second third : Board Node} (before : Keeps first second)
    (after : Keeps second third)
    : Keeps first third := by
  intro node pending
  obtain ⟨was, same⟩ := after node pending
  obtain ⟨wasFirst, same'⟩ := before node was
  exact ⟨wasFirst, same.trans same'⟩

theorem Raises.trans {first second third : Board Node} (before : Raises first second)
    (after : Raises second third)
    : Raises first third := by
  intro node pending
  obtain ⟨was, above⟩ := after node pending
  obtain ⟨wasFirst, above'⟩ := before node was
  exact ⟨wasFirst, above'.trans above⟩

theorem Keeps.then_recounts {first second third : Board Node} (before : Keeps first second)
    (after : Recounts second third)
    : Recounts first third := by
  intro node pending
  rcases after node pending with ⟨was, same⟩ | none
  · obtain ⟨wasFirst, same'⟩ := before node was
    exact .inl ⟨wasFirst, same.trans same'⟩
  · exact .inr none

theorem Recounts.then_keeps {first second third : Board Node} (before : Recounts first second)
    (after : Keeps second third)
    : Recounts first third := by
  intro node pending
  obtain ⟨was, same⟩ := after node pending
  rcases before node was with ⟨wasFirst, same'⟩ | none
  · exact .inl ⟨wasFirst, same.trans same'⟩
  · exact .inr (same.trans none)

-- Counting prerequisites

theorem prerequisites_or {edges : List (Node × Node)} {first second among : Node → Bool} {node : Node}
    (splits : ∀ other, (node, other) ∈ edges →
      (among other = (first other || second other)) ∧ ¬ (first other ∧ second other))
    : prerequisites edges among node
      = prerequisites edges first node + prerequisites edges second node := by
  induction edges with
  | nil => rfl
  | cons edge rest ih =>
      have ih := ih (fun other member => splits other (List.mem_cons_of_mem _ member))
      simp only [prerequisites, List.countP_cons] at ih ⊢
      by_cases at_ : edge.1 = node
      · obtain ⟨whole, disjoint⟩ := splits edge.2 (by
          rw [← at_]
          exact List.mem_cons_self)
        rw [whole]
        cases hf : first edge.2 <;> cases hs : second edge.2 <;>
          simp_all <;> omega
      · simpa [at_] using ih

theorem prerequisites_congr {edges : List (Node × Node)} {first second : Node → Bool}
    {node : Node} (agree : ∀ other, (node, other) ∈ edges → first other = second other)
    : prerequisites edges first node = prerequisites edges second node := by
  apply List.countP_congr
  rintro ⟨waiter, other⟩ member
  simp only [decide_eq_true_eq]
  constructor
  · rintro ⟨rfl, yes⟩
    exact ⟨rfl, agree other member ▸ yes⟩
  · rintro ⟨rfl, yes⟩
    exact ⟨rfl, (agree other member).symm ▸ yes⟩

theorem prerequisites_mono {edges : List (Node × Node)} {first second : Node → Bool}
    {node : Node} (within : ∀ other, (node, other) ∈ edges → first other → second other)
    : prerequisites edges first node ≤ prerequisites edges second node := by
  apply List.countP_mono_left
  rintro ⟨waiter, other⟩ member
  simp only [decide_eq_true_eq]
  rintro ⟨rfl, yes⟩
  exact ⟨rfl, within other member yes⟩

theorem prerequisites_filter {edges : List (Node × Node)} {among : Node → Bool} {node : Node}
    : prerequisites edges among node
      = prerequisites (edges.filter (fun edge => edge.1 = node)) among node := by
  rw [prerequisites, prerequisites, List.countP_filter]
  apply List.countP_congr
  intro edge _
  simp +contextual

theorem prerequisites_eq_zero {edges : List (Node × Node)} {among : Node → Bool} {node : Node}
    : prerequisites edges among node = 0
      ↔ ∀ other, (node, other) ∈ edges → among other = false := by
  rw [prerequisites, List.countP_eq_zero]
  constructor
  · intro none other member
    simpa using none _ member
  · rintro none ⟨waiter, other⟩ member
    simp only [decide_eq_true_eq]
    rintro ⟨rfl, yes⟩
    simp [none other member] at yes

theorem prerequisites_single {edges : List (Node × Node)} (distinct : edges.Nodup) (node other : Node)
    : prerequisites edges (fun found => decide (found = other)) node
      = if (node, other) ∈ edges then 1 else 0 := by
  have same : prerequisites edges (fun found => decide (found = other)) node
      = edges.count (node, other) := by
    rw [prerequisites, List.count_eq_countP]
    apply List.countP_congr
    rintro ⟨waiter, found⟩ _
    simp
  rw [same, distinct.count]

-- Finishing, opening and recounting nodes

theorem slack_congr {before after : Board Node} {node : Node}
    (remaining : after.remaining node = before.remaining node)
    (hold : after.hold node = before.hold node)
    (blockers : after.blockers node = before.blockers node)
    : after.slack node = before.slack node := by
  rw [slack, slack, remaining, hold, blockers]

/-- A change keeps slack that touches no pending node's counter or hold, and finishes and
opens none of its prerequisites.
-/
theorem Keeps.quiet {before after : Board Node} (edges : after.edges = before.edges)
    (still : ∀ node, after.pending node →
      before.pending node
        ∧ after.remaining node = before.remaining node ∧ after.hold node = before.hold node
        ∧ ∀ other, (node, other) ∈ before.edges → after.live other = before.live other)
    : Keeps before after := by
  intro node pending
  obtain ⟨was, remaining, hold, live⟩ := still node pending
  refine ⟨was, slack_congr remaining hold ?_⟩
  rw [blockers, blockers, edges]
  exact prerequisites_congr live

theorem Keeps.graph {before after : Board Node}
    (still : ∀ node, after.pending node →
      before.pending node
        ∧ after.remaining node = before.remaining node ∧ after.hold node = before.hold node
        ∧ after.edges.filter (fun edge => edge.1 = node)
          = before.edges.filter (fun edge => edge.1 = node)
        ∧ ∀ other, (node, other) ∈ before.edges → after.live other = before.live other)
    : Keeps before after := by
  intro node pending
  obtain ⟨was, remaining, hold, edges, live⟩ := still node pending
  refine ⟨was, slack_congr remaining hold ?_⟩
  have same : before.blockers node = prerequisites before.edges after.live node :=
    prerequisites_congr (fun other member => (live other member).symm)
  rw [same, blockers, prerequisites_filter, edges, ← prerequisites_filter]

theorem Keeps.finish {before after : Board Node} (finished : Node → Bool)
    (edges : after.edges = before.edges)
    (wasLive : ∀ node, finished node → before.live node)
    (live : ∀ node, after.live node = (before.live node && !finished node))
    (still : ∀ node, after.pending node →
      before.pending node ∧ after.hold node = before.hold node
        ∧ after.remaining node = before.remaining node - prerequisites before.edges finished node)
    : Keeps before after := by
  intro node pending
  obtain ⟨was, hold, remaining⟩ := still node pending
  refine ⟨was, ?_⟩
  have split : before.blockers node
      = after.blockers node + prerequisites before.edges finished node := by
    rw [blockers, blockers, edges]
    apply prerequisites_or
    intro other _
    have lived := wasLive other
    rw [live other]
    cases gone : finished other with
    | false => simp
    | true => simp [lived gone]
  unfold slack
  omega

theorem Raises.finish {before after : Board Node} (edges : after.edges = before.edges)
    (live : ∀ node, after.live node → before.live node)
    (still : ∀ node, after.pending node →
      before.pending node ∧ after.hold node = before.hold node
        ∧ after.remaining node = before.remaining node)
    : Raises before after := by
  intro node pending
  obtain ⟨was, hold, remaining⟩ := still node pending
  refine ⟨was, ?_⟩
  have fewer : after.blockers node ≤ before.blockers node := by
    rw [blockers, blockers, edges]
    exact prerequisites_mono (fun other _ => live other)
  unfold slack
  omega

theorem slack_eq_zero_of_counted {board : Board Node} {node : Node}
    (counted : board.remaining node = board.blockers node + board.hold node)
    : board.slack node = 0 := by
  unfold slack
  omega

-- Progress

theorem Solvent.finished {board : Board Node} (solvent : board.Solvent) {node other : Node}
    (pending : board.pending node) (hold : 0 ≤ board.hold node)
    (zero : board.remaining node ≤ 0) (edge : (node, other) ∈ board.edges)
    : board.live other = false := by
  have above := solvent node pending
  have none : board.blockers node = 0 := by
    unfold slack at above
    omega
  exact prerequisites_eq_zero.mp none other edge

/-- On an exact acyclic board, a closed set of nodes whose unfinished members are all pending
with counters that are not zero has no unfinished member: a node of least rank among them
would count a prerequisite of lower rank.
-/
theorem Exact.all_finished {board : Board Node} (exact_ : board.Exact)
    (acyclic : Acyclic board.edges) {closed : Node → Prop}
    (within : ∀ edge ∈ board.edges, closed edge.1 → closed edge.2)
    (stuck : ∀ node, closed node → board.live node →
      board.pending node ∧ board.remaining node ≠ 0 ∧ board.hold node = 0)
    : ∀ node, closed node → board.live node = false := by
  obtain ⟨rank, falls⟩ := acyclic
  suffices all : ∀ bound node, rank node < bound → closed node → board.live node = false from
    fun node => all (rank node + 1) node (Nat.lt_succ_self _)
  intro bound
  induction bound with
  | zero => exact fun node below => absurd below (Nat.not_lt_zero _)
  | succ bound ih =>
      intro node below member
      by_contra unfinished
      obtain ⟨pending, waits, free⟩ := stuck node member (by simpa using unfinished)
      have none : board.blockers node = 0 := by
        apply prerequisites_eq_zero.mpr
        intro other edge
        have lower : rank other < rank node := falls _ edge
        exact ih other (by omega) (within _ edge member)
      have zero := exact_ node pending
      unfold slack at zero
      omega

-- Growing graphs

omit [DecidableEq Node] in
theorem Acyclic.subset {edges edges' : List (Node × Node)} (acyclic : Acyclic edges)
    (within : ∀ edge ∈ edges', edge ∈ edges)
    : Acyclic edges' := by
  obtain ⟨rank, falls⟩ := acyclic
  exact ⟨rank, fun edge member => falls edge (within edge member)⟩

omit [DecidableEq Node] in
/-- A graph of blocks, each ranked on its own, is acyclic where its blocks are: an edge runs
within a block, along its rank, or from one block to another along an edge of the blocks.
-/
theorem Acyclic.nested {Block : Type} {outer : List (Block × Block)}
    {edges : List (Node × Node)} (acyclic : Acyclic outer) (block : Node → Block)
    (rank : Block → Node → Nat)
    (falls : ∀ edge ∈ edges, (block edge.1, block edge.2) ∈ outer
      ∨ block edge.1 = block edge.2
        ∧ rank (block edge.1) edge.2 < rank (block edge.1) edge.1)
    : Acyclic edges := by
  obtain ⟨above, steps⟩ := acyclic
  let own (node : Node) : Nat := rank (block node) node
  let width : Nat := (edges.map (fun edge => own edge.2)).sum + 1
  refine ⟨fun node => above (block node) * width + own node, ?_⟩
  intro edge member
  have narrow : own edge.2 < width :=
    Nat.lt_succ_of_le (List.le_sum_of_mem (List.mem_map_of_mem member))
  rcases falls edge member with outwards | ⟨same, inwards⟩
  · have less := steps _ outwards
    have wide : (above (block edge.2) + 1) * width ≤ above (block edge.1) * width :=
      Nat.mul_le_mul_right width less
    rw [Nat.add_mul, Nat.one_mul] at wide
    dsimp only at wide ⊢
    omega
  · have less : own edge.2 < own edge.1 := by
      simp only [own]
      rw [← same]
      exact inwards
    dsimp only
    rw [same]
    omega

theorem Acyclic.add_leaves {edges added : List (Node × Node)} (acyclic : Acyclic edges)
    (leaf : ∀ edge ∈ added, ∀ other ∈ edges ++ added, other.1 ≠ edge.2)
    : Acyclic (edges ++ added) := by
  obtain ⟨rank, falls⟩ := acyclic
  refine ⟨fun node => if ∃ edge ∈ added, edge.2 = node then 0 else rank node + 1, ?_⟩
  intro edge member
  have waits : ¬ ∃ other ∈ added, other.2 = edge.1 := by
    rintro ⟨other, within, same⟩
    exact leaf other within edge member same.symm
  simp only [if_neg waits]
  split
  · exact Nat.succ_pos _
  case isFalse notLeaf =>
    rcases List.mem_append.mp member with old | new
    · exact Nat.succ_lt_succ (falls edge old)
    · exact absurd ⟨edge, new, rfl⟩ notLeaf

omit [DecidableEq Node] in
theorem Acyclic.append {edges added : List (Node × Node)} (fresh : Node → Bool)
    (acyclic : Acyclic edges) (acyclic' : Acyclic added)
    (old : ∀ edge ∈ edges, fresh edge.1 = false ∧ fresh edge.2 = false)
    (new : ∀ edge ∈ added, fresh edge.1 = true ∧ fresh edge.2 = true)
    : Acyclic (edges ++ added) := by
  obtain ⟨rank, falls⟩ := acyclic
  obtain ⟨rank', falls'⟩ := acyclic'
  refine ⟨fun node => if fresh node then rank' node else rank node, ?_⟩
  intro edge member
  rcases List.mem_append.mp member with inOld | inNew
  · simp only [old edge inOld]
    exact falls edge inOld
  · simp only [new edge inNew]
    exact falls' edge inNew

end Board

end Dagron.Library
