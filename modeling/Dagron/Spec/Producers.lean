import Dagron.Spec.Fanouts

/-! Which rows a runtime fan-out takes for its producer's: they are found again by their names among
what the fan-out depends on, once expansion has folded fan-outs and calls into those names.
-/

namespace Dagron.Spec

open Dagron.Library

/-- Whether a row is named under a producer, as its instances are. -/
def under (producer row : String) : Bool :=
  (producer ++ ".").toList.isPrefixOf row.toList

theorem not_under_self (producer : String)
    : under producer producer = false := by
  rw [under, ← Bool.not_eq_true, List.isPrefixOf_iff_prefix]
  intro longer
  have less := longer.length_le
  rw [String.toList_append, List.length_append] at less
  have dot : ".".toList.length = 1 := rfl
  omega

/-- The rows that are taken are those of a producer, among some dependencies, exactly where the
producer is a row there, and the only one of its own; or no row there is called as it is, its own
are there and named under it, and only they are.
-/
theorem mem_fanoutProducerRows_iff {producer : String} {dependsOn own : List String}
    : (∀ row, row ∈ fanoutProducerRows producer dependsOn ↔ row ∈ own)
      ↔ producer ∈ dependsOn ∧ (∀ row, row ∈ own ↔ row = producer)
        ∨ producer ∉ dependsOn ∧ (∀ row ∈ own, row ∈ dependsOn ∧ under producer row)
          ∧ ∀ row ∈ dependsOn, under producer row → row ∈ own := by
  unfold fanoutProducerRows
  by_cases exact_ : producer ∈ dependsOn
  · rw [if_pos exact_]
    simp only [List.mem_singleton, exact_, true_and, not_true_eq_false, false_and, or_false]
    exact forall_congr' fun row => Iff.comm
  · rw [if_neg exact_]
    simp only [List.mem_filter, exact_, false_and, not_false_eq_true, true_and, false_or]
    constructor
    · intro same
      exact ⟨fun row own => (same row).mpr own, fun row among under_ => (same row).mp ⟨among, under_⟩⟩
    · rintro ⟨owned, others⟩ row
      exact ⟨fun ⟨among, under_⟩ => others row among under_, owned row⟩

-- A list's rows

/-- A producer whose rows can be told by their names from those of the other tasks a fan-out depends
on: each row of it can be depended on, and it is one row of its own name, or its rows are named
under it and no other's are, or have its name.
-/
structure ToldApart (per : PerTask) (deps : List String) (producer : String) : Prop where
  exits
    : ∀ row ∈ (per.leavesOf producer).names, row ∈ (per.leavesOf producer).exits
  named
    : (∀ row, row ∈ (per.leavesOf producer).names ↔ row = producer)
      ∨ (∀ row ∈ (per.leavesOf producer).names, under producer row)
        ∧ ∀ dep ∈ deps, dep ≠ producer → ∀ row ∈ (per.leavesOf dep).exits,
            row ≠ producer ∧ under producer row = false

section Rows

variable {env : ExpandEnv} {levels : Option Nat} {namePrefix : String} {ctx : Bindings}
  {tasks : List TaskSpec} {budget left : Nat} {expanded : Expanded} {per : PerTask}
  {task barrier : TaskSpec} {producer : String}

theorem owner_unique (names : expanded.names = tasks.flatMap (fun task => (per.leavesOf task.name).names))
    (distinct : expanded.names.Nodup) {first second row : String}
    (listed : first ∈ tasks.map TaskSpec.name) (listed' : second ∈ tasks.map TaskSpec.name)
    (own : row ∈ (per.leavesOf first).names) (own' : row ∈ (per.leavesOf second).names)
    : first = second := by
  obtain ⟨task, among, rfl⟩ := List.mem_map.mp listed
  obtain ⟨task', among', rfl⟩ := List.mem_map.mp listed'
  rw [names, List.nodup_flatMap] at distinct
  by_contra different
  have symm : Std.Symm (Function.onFun List.Disjoint
      (fun (task : TaskSpec) => (per.leavesOf task.name).names)) :=
    ⟨fun _ _ apart _ here there => apart there here⟩
  exact distinct.2.forall among among' (fun same => different (congrArg TaskSpec.name same)) own own'

theorem mem_dependsOn_barrier {deeper : Option Expander}
    (expands : expandOne env deeper namePrefix ctx task budget = .ok (per.leavesOf task.name, left))
    (fans : task.withOutputOf = some producer)
    (parks : barrier ∈ wireTask per.renamed task (per.leavesOf task.name) (per.exitsOf task.dependsOn))
    {row : String}
    : row ∈ barrier.dedupe.dependsOn ↔ ∃ dep ∈ task.dependsOn, row ∈ (per.leavesOf dep).exits := by
  obtain ⟨own, made, rfl⟩ := List.mem_map.mp parks
  obtain ⟨_, root, _⟩ := expandOne_barrier (fans ▸ rfl) expands made
  have wired : (wireLeaf per.renamed task (per.leavesOf task.name) (per.exitsOf task.dependsOn)
      own).dependsOn = per.exitsOf task.dependsOn := by
    unfold wireLeaf
    dsimp only
    rw [if_pos root]
    split <;> rfl
  rw [TaskSpec.dedupe, wired, mem_retainFirst, PerTask.exitsOf, List.mem_flatMap]
  simp

/-- A fan-out takes exactly its producer's rows where their names tell them apart. -/
theorem producer_rows_iff
    (each : expandEach env (levels.map (expandList env)) namePrefix ctx [] tasks budget
      = .ok (per, left))
    (wires : wireList per (tasks.flatMap TaskSpec.dependsOn) tasks = .ok expanded)
    (distinct : expanded.names.Nodup) (listed : task ∈ tasks)
    (fans : task.withOutputOf = some producer) (depends : producer ∈ task.dependsOn)
    (parks : barrier ∈ wireTask per.renamed task (per.leavesOf task.name) (per.exitsOf task.dependsOn))
    : (∀ row, row ∈ fanoutProducerRows producer barrier.dedupe.dependsOn
          ↔ row ∈ (per.leavesOf producer).names)
      ↔ ToldApart per task.dependsOn producer := by
  have deep : ∀ expander ∈ levels.map (expandList env), expander.Sound := by
    intro expander called
    obtain ⟨level, _, rfl⟩ := Option.map_eq_some_iff.mp called
    exact (expandList_sound env level).1
  obtain ⟨each, _⟩ := expandEach_ok deep each
  obtain ⟨_, _, expands⟩ := each.expands task listed
  have depended {row : String} := @mem_dependsOn_barrier env namePrefix ctx _ _ per task barrier
    producer _ expands fans parks row
  obtain ⟨tasks_, known, _, _⟩ := wireList_ok wires
  have names := names_wired tasks_
  have among {dep : String} (needs : dep ∈ task.dependsOn) : dep ∈ tasks.map TaskSpec.name :=
    each.named ▸ known task listed dep needs
  have leaves {dep row : String} (needs : dep ∈ task.dependsOn) (exit : row ∈ (per.leavesOf dep).exits)
      : row ∈ (per.leavesOf dep).names := (each.sound_leavesOf (among needs)).exits row exit
  -- A row of the producer's that is depended on is one of its exits.
  have exits {row : String} (own : row ∈ (per.leavesOf producer).names)
      (needs : row ∈ barrier.dedupe.dependsOn) : row ∈ (per.leavesOf producer).exits := by
    obtain ⟨dep, needs, exit⟩ := depended.mp needs
    obtain rfl := owner_unique names distinct (among needs) (among depends) (leaves needs exit) own
    exact exit
  rw [mem_fanoutProducerRows_iff]
  constructor
  · rintro (⟨called, alone⟩ | ⟨uncalled, own, others⟩)
    · have one := exits ((alone producer).mpr rfl) called
      refine ⟨fun row own => ?_, .inl alone⟩
      rw [(alone row).mp own]
      exact one
    · refine ⟨fun row named => exits named (own row named).1, .inr ⟨fun row named => (own row named).2, ?_⟩⟩
      intro dep needs apart row exit
      have listed : row ∈ barrier.dedupe.dependsOn := depended.mpr ⟨dep, needs, exit⟩
      refine ⟨fun same => uncalled (same ▸ listed), ?_⟩
      rw [← Bool.not_eq_true]
      intro under_
      exact apart (owner_unique names distinct (among needs) (among depends) (leaves needs exit)
        (others row listed under_))
  · rintro ⟨exits_, alone | ⟨own, others⟩⟩
    · have one := exits_ producer ((alone producer).mpr rfl)
      exact .inl ⟨depended.mpr ⟨producer, depends, one⟩, alone⟩
    · refine .inr ⟨?_, ?_, ?_⟩
      · intro called
        obtain ⟨dep, needs, exit⟩ := depended.mp called
        by_cases same : dep = producer
        · subst same
          have under_ := own _ (leaves needs exit)
          rw [not_under_self] at under_
          cases under_
        · exact (others dep needs same _ exit).1 rfl
      · exact fun row named => ⟨depended.mpr ⟨producer, depends, exits_ row named⟩, own row named⟩
      · intro row listed under_
        obtain ⟨dep, needs, exit⟩ := depended.mp listed
        by_cases same : dep = producer
        · exact same ▸ leaves needs exit
        · rw [(others dep needs same row exit).2] at under_
          cases under_

end Rows

/-- A task for each of what the instances of another print, which waits for a third as well. -/
def consumer (other : String) : TaskSpec where
  name := "each"
  command := ["check"]
  dependsOn := ["list", other]
  withOutputOf := some "list"

/-- A listing that is fanned out, what consumes it, and the third task. -/
def listing (other : String) : List TaskSpec :=
  [{ name := "list", command := ["list"], withItems := some [.string "eu", .string "us"] },
    { name := other, command := ["plan"] }, consumer other]

def listingRows (other : String) : PerTask :=
  ((expandEach ⟨plainHost, [], 9⟩ none "" [] [] (listing other) 9).toOption.map Prod.fst).getD []

def consumerRow (other : String) : TaskSpec :=
  { buildLeaf plainHost (consumer other) "each" [] none with dependsOn := ["list.0", "list.1", other] }

/-- A listing's rows are told from those of a task of another name. -/
theorem producer_rows_iff_plan
    : ToldApart (listingRows "plan") (consumer "plan").dependsOn "list"
      ∧ ∀ row, row ∈ fanoutProducerRows "list" (consumerRow "plan").dedupe.dependsOn
        ↔ row ∈ ((listingRows "plan").leavesOf "list").names := by
  have apart : ToldApart (listingRows "plan") (consumer "plan").dependsOn "list" :=
    ⟨by decide, .inr ⟨by decide, by decide⟩⟩
  exact ⟨apart, (@producer_rows_iff ⟨plainHost, [], 9⟩ none "" [] (listing "plan") 9 5 _
    (listingRows "plan") (consumer "plan") (consumerRow "plan") "list" rfl rfl (by decide)
    (by exact .tail _ (.tail _ (.head _))) rfl (.head _) (.head _)).mpr apart⟩

/-- A task whose name starts with its producer's and a dot is taken for an instance of it. -/
theorem not_producer_rows
    : ¬ ∀ (env : ExpandEnv) (levels : Option Nat) (namePrefix : String) (ctx : Bindings)
        (tasks : List TaskSpec) (budget left : Nat) (expanded : Expanded) (per : PerTask)
        (task barrier : TaskSpec) (producer : String),
        expandEach env (levels.map (expandList env)) namePrefix ctx [] tasks budget
            = .ok (per, left) →
          wireList per (tasks.flatMap TaskSpec.dependsOn) tasks = .ok expanded →
            expanded.names.Nodup → task ∈ tasks → task.withOutputOf = some producer →
              producer ∈ task.dependsOn →
                barrier ∈ wireTask per.renamed task (per.leavesOf task.name)
                    (per.exitsOf task.dependsOn) →
                  ∀ row, row ∈ fanoutProducerRows producer barrier.dedupe.dependsOn
                    ↔ row ∈ (per.leavesOf producer).names := by
  intro exactly
  have row := exactly ⟨plainHost, [], 9⟩ none "" [] (listing "list.plan") 9 5 _
    (listingRows "list.plan") (consumer "list.plan") (consumerRow "list.plan") "list" rfl rfl
    (by decide) (.tail _ (.tail _ (.head _))) rfl (.head _) (.head _) "list.plan"
  revert row
  decide

end Dagron.Spec
