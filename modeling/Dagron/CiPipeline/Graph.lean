import Dagron.CiPipeline.Form
import Dagron.Library.Elimination
import Mathlib.Data.String.Basic

/-! The check of a pipeline's dependencies: each of them names another task of the pipeline, and they form no
cycle.
-/

namespace Dagron.CiPipeline

open Dagron.Library

/-- What is wrong with a pipeline, and where. -/
structure Problem where
  path
    : String
  message
    : String
  deriving DecidableEq

section Checking

variable (tasks : List Task)

def dependencyProblem (debug : List Char → String) (task : Task) (dep : String) : Option Problem :=
  if dep = task.name then some ⟨"tasks (" ++ task.name ++ ")", "depends on itself"⟩
  else if dep ∈ tasks.map Task.name then none
  else some ⟨"tasks (" ++ task.name ++ ").depends_on", "names no task: " ++ debug dep.toList⟩

/-- Whether a dependency is counted: a self-dependency and an unknown name are reported, and not counted. -/
def counted (name dep : String) : Bool :=
  dep ≠ name ∧ dep ∈ tasks.map Task.name

/-- How many dependencies are left of each task, and the tasks that are ready, the next one first. -/
structure Sweep where
  indegree
    : OrderedMap String Nat
  ready
    : List String

def start : Sweep :=
  let names := tasks.foldl (fun indegree task => indegree.insert task.name 0) .empty
  let indegree := tasks.foldl (fun indegree task =>
    let n := (task.dependsOn.filter (counted tasks task.name)).length
    indegree.insert task.name ((indegree.get? task.name).getD 0 + n)) names
  ⟨indegree, ((indegree.entries.filter fun entry => entry.2 = 0).map Prod.fst).reverse⟩

/-- Takes what a task needs of one that is done off what is left of it. -/
def release (done : String) (sweep : Sweep) (task : Task) : Sweep :=
  let hits := (task.dependsOn.filter fun dep => dep = done ∧ counted tasks task.name dep).length
  match (sweep.indegree.get? task.name).filter fun _ => 0 < hits with
  | none => sweep
  | some degree =>
      ⟨sweep.indegree.insert task.name (degree - hits),
        if degree - hits = 0 then task.name :: sweep.ready else sweep.ready⟩

/-- The tasks that are left over when none is ready; none where the loop is out of fuel. -/
def settle : Nat → Sweep → Option (List String)
  | 0, _ => none
  | _ + 1, ⟨indegree, []⟩ => some (indegree.entries.map Prod.fst)
  | fuel + 1, ⟨indegree, done :: ready⟩ =>
      settle fuel (tasks.foldl (release tasks done) ⟨indegree.erase done, ready⟩)

def cycleProblem (stuck : List String) : Problem :=
  ⟨"tasks", "depends_on forms a cycle through " ++ ", ".intercalate stuck⟩

/-- What is wrong with the dependencies of a list of tasks; none if the check does not end. -/
def graph (debug : List Char → String) : Option (List Problem) := do
  let stuck ← settle tasks (tasks.length + 1) (start tasks)
  return (tasks.flatMap fun task => task.dependsOn.filterMap (dependencyProblem tasks debug task))
    ++ if stuck.isEmpty then [] else [cycleProblem stuck]

-- What is needed

/-- Whether a task of a name needs another task of the list. -/
def Needs (name dep : String) : Prop :=
  ∃ task ∈ tasks, task.name = name ∧ dep ∈ task.dependsOn ∧ dep ≠ name ∧ dep ∈ tasks.map Task.name

/-- How many dependencies some tasks of a name have on others that are not gone. -/
def waits (gone : List String) (some_ : List Task) (name : String) : Nat :=
  ((some_.filter fun task => task.name = name).flatMap Task.dependsOn).countP fun dep =>
    counted tasks name dep ∧ dep ∉ gone

variable {tasks} {gone : List String} {name : String}

theorem waits_nil
    : waits tasks gone [] name = 0 :=
  rfl

theorem waits_append (first second : List Task)
    : waits tasks gone (first ++ second) name = waits tasks gone first name + waits tasks gone second name := by
  rw [waits, List.filter_append, List.flatMap_append, List.countP_append]
  rfl

theorem waits_singleton (task : Task)
    : waits tasks gone [task] name
      = if task.name = name then
          task.dependsOn.countP fun dep => counted tasks name dep ∧ dep ∉ gone
        else 0 := by
  by_cases same : task.name = name <;> simp [waits, same]

theorem waits_eq_zero
    : waits tasks gone tasks name = 0 ↔ ∀ dep, Needs tasks name dep → dep ∈ gone := by
  rw [waits, List.countP_eq_zero]
  constructor
  · rintro none_ dep ⟨task, there, named, needs, apart, known⟩
    by_contra left
    refine none_ dep ?_ (by simpa [counted, apart, left] using known)
    exact List.mem_flatMap.mpr ⟨task, List.mem_filter.mpr ⟨there, by simpa using named⟩, needs⟩
  · intro all dep among left
    obtain ⟨task, there, needs⟩ := List.mem_flatMap.mp among
    obtain ⟨there, named⟩ := List.mem_filter.mp there
    simp only [counted, ne_eq, Bool.decide_and, Bool.and_eq_true, decide_eq_true_eq] at left named
    exact left.2 (all dep ⟨task, there, named, needs, left.1.1, left.1.2⟩)

/-- What is left once a task is gone that was not, and what it was of. -/
theorem countP_gone {done : String} (present : done ∉ gone) (name : String) (deps : List String)
    : (deps.countP fun dep => counted tasks name dep ∧ dep ∉ gone)
      = (deps.filter fun dep => dep = done ∧ counted tasks name dep).length
        + deps.countP fun dep => counted tasks name dep ∧ dep ∉ done :: gone := by
  rw [← List.countP_eq_length_filter]
  induction deps with
  | nil => rfl
  | cons dep rest ih =>
      simp only [List.countP_cons, ih]
      by_cases same : dep = done
      · by_cases counts : counted tasks name done = true
        · simp [same, present, counts]
          omega
        · simp [same, counts]
      · simp [same]
        omega

-- The counts

/-- What a sweep holds: for each task that is not gone how many dependencies are left, and, once each, those of them
that wait for none.
-/
structure Counts (tasks : List Task) (gone : List String) (left : String → Nat) (sweep : Sweep) : Prop where
  held
    : ∀ name, sweep.indegree.get? name
        = if name ∈ tasks.map Task.name ∧ name ∉ gone then some (left name) else none
  ready
    : ∀ name, name ∈ sweep.ready ↔ (name ∈ tasks.map Task.name ∧ name ∉ gone) ∧ left name = 0
  nodup
    : sweep.ready.Nodup

variable {left left' : String → Nat} {sweep : Sweep}

theorem Counts.congr (counts : Counts tasks gone left sweep) (same : ∀ name ∉ gone, left name = left' name)
    : Counts tasks gone left' sweep := by
  refine ⟨fun name => ?_, fun name => ?_, counts.nodup⟩
  · rw [counts.held name]
    split
    next both => rw [same name both.2]
    next => rfl
  · rw [counts.ready name]
    exact and_congr_right fun both => by rw [same name both.2]

/-- Releasing a task takes what it needs of the one that is done off what is left of its name. -/
theorem Counts.release (counts : Counts tasks gone left sweep) (done : String) {task : Task}
    (there : task ∈ tasks) {hits : Nat}
    (is : hits = (task.dependsOn.filter fun dep => dep = done ∧ counted tasks task.name dep).length)
    (within : task.name ∉ gone → hits ≤ left task.name)
    : Counts tasks gone (fun name => if name = task.name then left name - hits else left name)
        (release tasks done sweep task) := by
  have named : task.name ∈ tasks.map Task.name := List.mem_map_of_mem there
  rw [CiPipeline.release, ← is, counts.held task.name]
  by_cases taken : task.name ∈ gone
  · rw [if_neg fun both => both.2 taken, Option.filter_none]
    refine counts.congr fun name present => ?_
    rw [if_neg fun same : name = task.name => present (same ▸ taken)]
  · have fits := within taken
    rw [if_pos ⟨named, taken⟩]
    by_cases some_ : 0 < hits
    · have kept : (some (left task.name)).filter (fun _ => decide (0 < hits)) = some (left task.name) := by
        simp [some_]
      rw [kept]
      refine ⟨fun name => ?_, fun name => ?_, ?_⟩
      · rw [OrderedMap.get?_insert, counts.held name]
        by_cases same : name = task.name
        · rw [if_pos same, if_pos same, if_pos ⟨same ▸ named, same ▸ taken⟩, same]
        · rw [if_neg same, if_neg same]
      · dsimp only
        by_cases same : name = task.name
        · subst same
          have waited : task.name ∉ sweep.ready := fun ready => by
            have := ((counts.ready _).mp ready).2
            omega
          by_cases last : left task.name - hits = 0
          · simp [last, named, taken]
          · simp [last, waited]
        · by_cases last : left task.name - hits = 0 <;> simp [last, same, counts.ready name]
      · dsimp only
        split
        next last =>
          refine List.nodup_cons.mpr ⟨fun ready => ?_, counts.nodup⟩
          have := ((counts.ready _).mp ready).2
          omega
        next => exact counts.nodup
    · have dropped : (some (left task.name)).filter (fun _ => decide (0 < hits)) = none := by
        simp [some_]
      rw [dropped]
      refine counts.congr fun name _ => ?_
      split <;> omega

/-- Once a task is done, what was left of it is gone, and it waits for none. -/
theorem Counts.erase {indegree : OrderedMap String Nat} {done : String} {ready : List String}
    (counts : Counts tasks gone left ⟨indegree, done :: ready⟩)
    : Counts tasks (done :: gone) left ⟨indegree.erase done, ready⟩ := by
  obtain ⟨fresh, once⟩ := List.nodup_cons.mp counts.nodup
  refine ⟨fun name => ?_, fun name => ?_, once⟩
  · rw [OrderedMap.get?_erase, counts.held name]
    by_cases same : name = done <;> simp [same]
  · have was := counts.ready name
    by_cases same : name = done
    · subst same
      simp [fresh]
    · simpa [same] using was

theorem Counts.released {done : String} (present : done ∉ gone) (seen rest : List Task)
    (within : ∀ task ∈ rest, task ∈ tasks)
    (counts : Counts tasks (done :: gone)
      (fun name => waits tasks (done :: gone) seen name + waits tasks gone rest name) sweep)
    : Counts tasks (done :: gone) (waits tasks (done :: gone) (seen ++ rest))
        (rest.foldl (CiPipeline.release tasks done) sweep) := by
  induction rest generalizing seen sweep with
  | nil =>
      rw [List.append_nil]
      exact counts.congr fun name _ => by rw [waits_nil, Nat.add_zero]
  | cons task rest ih =>
      have split (name : String) : waits tasks gone (task :: rest) name
          = waits tasks gone [task] name + waits tasks gone rest name := waits_append [task] rest
      have gone_ := @countP_gone tasks gone done present task.name task.dependsOn
      have next := counts.release done (within task List.mem_cons_self) rfl fun _ => by
        rw [split, waits_singleton, if_pos rfl]
        omega
      have order : seen ++ task :: rest = (seen ++ [task]) ++ rest := by simp
      rw [List.foldl_cons, order]
      refine ih (seen ++ [task]) (fun other later => within other (List.mem_cons_of_mem _ later))
        (next.congr fun name _ => ?_)
      rw [split, waits_append, waits_singleton, waits_singleton]
      by_cases same : name = task.name
      · subst same
        simp only [if_true]
        omega
      · rw [if_neg same, if_neg (Ne.symm same), if_neg (Ne.symm same)]
        omega

-- The loop

theorem get?_zeros (some_ : List Task) (map : OrderedMap String Nat) (name : String)
    : (some_.foldl (fun indegree task => indegree.insert task.name 0) map).get? name
      = if name ∈ some_.map Task.name then some 0 else map.get? name := by
  induction some_ generalizing map with
  | nil => simp
  | cons task rest ih =>
      rw [List.foldl_cons, ih, OrderedMap.get?_insert, List.map_cons]
      by_cases later : name ∈ rest.map Task.name
      · rw [if_pos later, if_pos (List.mem_cons_of_mem _ later)]
      · by_cases same : name = task.name <;> simp [later, same]

theorem get?_sums (some_ : List Task) (map : OrderedMap String Nat)
    (held : ∀ task ∈ some_, (map.get? task.name).isSome) (name : String)
    : (some_.foldl (fun indegree task => indegree.insert task.name ((indegree.get? task.name).getD 0
          + (task.dependsOn.filter (counted tasks task.name)).length)) map).get? name
      = (map.get? name).map (· + waits tasks [] some_ name) := by
  induction some_ generalizing map with
  | nil => simp [waits_nil]
  | cons task rest ih =>
      obtain ⟨degree, is⟩ := Option.isSome_iff_exists.mp (held task List.mem_cons_self)
      have split : waits tasks [] (task :: rest) name
          = waits tasks [] [task] name + waits tasks [] rest name := waits_append [task] rest
      rw [List.foldl_cons, ih, OrderedMap.get?_insert, split, waits_singleton, is]
      · by_cases same : name = task.name
        · subst same
          simp [is, ← List.countP_eq_length_filter, Nat.add_assoc]
        · simp [same, Ne.symm same]
      · intro other later
        rw [OrderedMap.get?_insert]
        split
        · rfl
        · exact held other (List.mem_cons_of_mem _ later)

theorem counts_start
    : Counts tasks [] (waits tasks [] tasks) (start tasks) := by
  have held (name : String) : (start tasks).indegree.get? name
      = if name ∈ tasks.map Task.name ∧ name ∉ [] then some (waits tasks [] tasks name) else none := by
    have known (task : Task) (there : task ∈ tasks) :
        ((tasks.foldl (fun indegree task => indegree.insert task.name 0)
          (.empty : OrderedMap String Nat)).get? task.name).isSome := by
      rw [get?_zeros, if_pos (List.mem_map_of_mem there)]
      rfl
    refine (get?_sums tasks _ known name).trans ?_
    rw [get?_zeros]
    by_cases named : name ∈ tasks.map Task.name
    · simp [named]
    · simp [named]
      rfl
  refine ⟨held, fun name => ?_, ?_⟩
  · have free : name ∈ (start tasks).ready ↔ (start tasks).indegree.get? name = some 0 := by
      rw [← OrderedMap.mem_entries]
      simp [start]
    rw [free, held name]
    by_cases named : name ∈ tasks.map Task.name
    · simp [named]
    · simp [named]
  · exact List.nodup_reverse.mpr ((OrderedMap.nodup_keys _).sublist (List.filter_sublist.map Prod.fst))

/-- The loop ends, with what is left when nothing of it is ready. -/
theorem settle_spec {fuel : Nat} (counts : Counts tasks gone (waits tasks gone tasks) sweep)
    (eliminates : Eliminates (Needs tasks) gone) (nodup : gone.Nodup)
    (within : ∀ name ∈ gone, name ∈ tasks.map Task.name) (enough : tasks.length < fuel + gone.length)
    : ∃ stuck gone', settle tasks fuel sweep = some stuck ∧ Eliminates (Needs tasks) gone' ∧ gone'.Nodup
        ∧ (∀ name, name ∈ stuck ↔ name ∈ tasks.map Task.name ∧ name ∉ gone')
        ∧ ∀ name ∈ stuck, waits tasks gone' tasks name ≠ 0 := by
  induction fuel generalizing gone sweep with
  | zero =>
      have few := (nodup.subperm within).length_le
      rw [List.length_map] at few
      omega
  | succ fuel ih =>
      obtain ⟨indegree, _ | ⟨done, ready⟩⟩ := sweep
      · have keys (name : String)
            : name ∈ indegree.entries.map Prod.fst ↔ name ∈ tasks.map Task.name ∧ name ∉ gone := by
          rw [OrderedMap.mem_keys, counts.held name]
          split
          next both => simp only [Option.isSome_some, both, not_false_eq_true, and_self]
          next apart => simp only [Option.isSome_none, Bool.false_eq_true, apart]
        refine ⟨_, gone, rfl, eliminates, nodup, keys, fun name there none_ => ?_⟩
        exact List.not_mem_nil ((counts.ready name).mpr ⟨(keys name).mp there, none_⟩)
      · obtain ⟨⟨named, present⟩, none_⟩ := (counts.ready done).mp List.mem_cons_self
        have free := waits_eq_zero.mp none_
        have swept : Counts tasks (done :: gone)
            (fun name => waits tasks (done :: gone) [] name + waits tasks gone tasks name)
            ⟨indegree.erase done, ready⟩ :=
          counts.erase.congr fun name _ => by rw [waits_nil, Nat.zero_add]
        refine ih (swept.released present [] tasks fun _ there => there) (eliminates.cons free)
          (List.nodup_cons.mpr ⟨present, nodup⟩) ?_ ?_
        · intro name among
          obtain rfl | among := List.mem_cons.mp among
          · exact named
          · exact within name among
        · rw [List.length_cons]
          omega

/-- A task that is left over and waits needs one that is left over. -/
theorem exists_left {stuck : List String}
    (left : ∀ name, name ∈ stuck ↔ name ∈ tasks.map Task.name ∧ name ∉ gone)
    (waiting : waits tasks gone tasks name ≠ 0)
    : ∃ dep ∈ stuck, Needs tasks name dep := by
  by_contra free
  refine waiting (waits_eq_zero.mpr fun dep needs => ?_)
  by_contra present
  obtain ⟨task, listed, named, among, apart, known⟩ := needs
  exact free ⟨dep, (left dep).mpr ⟨known, present⟩, task, listed, named, among, apart, known⟩

/-- The loop ends; it leaves tasks over exactly where tasks need one another in a circle, and otherwise they have a
rank that falls along what they need.
-/
theorem settle_start
    : ∃ stuck, settle tasks (tasks.length + 1) (start tasks) = some stuck
        ∧ (stuck ≠ [] ↔ Cyclic (Needs tasks))
        ∧ (stuck = [] → ∃ rank : String → Nat, ∀ name dep, Needs tasks name dep → rank dep < rank name) := by
  have none_gone : Eliminates (Needs tasks) [] := fun later _ _ split => by cases later <;> cases split
  obtain ⟨stuck, gone, ends, eliminates, nodup, left, waiting⟩ :=
    settle_spec counts_start none_gone List.nodup_nil (by simp) (Nat.lt_succ_self _)
  have ranked (none_ : stuck = [])
      : ∃ rank : String → Nat, ∀ name dep, Needs tasks name dep → rank dep < rank name := by
    refine eliminates.exists_rank nodup fun name dep ⟨task, there, named, _⟩ => ?_
    by_contra present
    have left_ := (left name).mpr ⟨named ▸ List.mem_map_of_mem there, present⟩
    rw [none_] at left_
    exact List.not_mem_nil left_
  refine ⟨stuck, ends, ⟨fun some_ => ?_, fun cyclic none_ => ?_⟩, ranked⟩
  · obtain ⟨first, there⟩ := List.exists_mem_of_ne_nil stuck some_
    exact cyclic_of_stuck there fun name left_ => exists_left left (waiting name left_)
  · obtain ⟨rank, falls⟩ := ranked none_
    exact not_cyclic_of_rank falls cyclic

/-- What the check reports: each self-dependency and each unknown name, and a cycle where there is one. -/
theorem graph_spec (debug : List Char → String)
    : ∃ problems, graph tasks debug = some problems
        ∧ ((∃ stuck, cycleProblem stuck ∈ problems) ↔ Cyclic (Needs tasks))
        ∧ (∀ task ∈ tasks, ∀ dep ∈ task.dependsOn, ∀ problem,
            dependencyProblem tasks debug task dep = some problem → problem ∈ problems)
        ∧ ∀ problem ∈ problems, (∃ stuck, problem = cycleProblem stuck)
            ∨ ∃ task ∈ tasks, ∃ dep ∈ task.dependsOn, dependencyProblem tasks debug task dep = some problem := by
  obtain ⟨stuck, ends, circle, -⟩ := @settle_start tasks
  have apart {task : Task} {dep : String} {problem : Problem}
      (is : dependencyProblem tasks debug task dep = some problem) (others : List String)
      : cycleProblem others ≠ problem := by
    rintro rfl
    have long : "tasks".toList.length < ("tasks (" ++ task.name ++ ")").toList.length := by
      simp [String.toList_append]
    unfold dependencyProblem at is
    split at is
    · have same := congrArg (fun problem : Problem => problem.path.toList.length) (Option.some.inj is)
      exact absurd same (ne_of_gt long)
    · split at is
      · cases is
      · have same := congrArg (fun problem : Problem => problem.path.toList.length) (Option.some.inj is)
        simp [cycleProblem, String.toList_append] at same
  have own : ∀ problem, problem ∈ tasks.flatMap (fun task =>
        task.dependsOn.filterMap (dependencyProblem tasks debug task))
      ↔ ∃ task ∈ tasks, ∃ dep ∈ task.dependsOn, dependencyProblem tasks debug task dep = some problem := by
    simp only [List.mem_flatMap, List.mem_filterMap, implies_true]
  refine ⟨_, by rw [graph, ends]; rfl, ?_, ?_, ?_⟩
  · rw [← circle]
    constructor
    · rintro ⟨others, reported⟩ none_
      rw [none_] at reported
      obtain ⟨task, _, dep, _, is⟩ := (own _).mp (by simpa using reported)
      exact apart is others rfl
    · intro some_
      refine ⟨stuck, List.mem_append_right _ ?_⟩
      rw [if_neg (List.isEmpty_iff.not.mpr some_)]
      exact List.mem_singleton_self _
  · intro task there dep needs problem is
    exact List.mem_append_left _ ((own problem).mpr ⟨task, there, dep, needs, is⟩)
  · intro problem reported
    obtain found | circle_ := List.mem_append.mp reported
    · exact .inr ((own problem).mp found)
    · split at circle_
      · cases circle_
      · exact .inl ⟨stuck, List.mem_singleton.mp circle_⟩

theorem sorted_settle {fuel : Nat} {stuck : List String} (ends : settle tasks fuel sweep = some stuck)
    : stuck.Pairwise (· < ·) := by
  induction fuel generalizing sweep with
  | zero => cases ends
  | succ fuel ih =>
      obtain ⟨indegree, _ | ⟨done, ready⟩⟩ := sweep
      · cases ends
        exact indegree.sorted
      · exact ih ends

/-- The cycle that is reported names, in their order, the tasks that a chain of needs leads from into a cycle: those
on one, and those that wait for one.
-/
theorem cycle_names_what_leads_there (debug : List Char → String)
    : ∃ stuck, graph tasks debug = some
          ((tasks.flatMap fun task => task.dependsOn.filterMap (dependencyProblem tasks debug task))
            ++ if stuck.isEmpty then [] else [cycleProblem stuck])
        ∧ stuck.Pairwise (· < ·) ∧ ∀ name, name ∈ stuck ↔ Leads (Needs tasks) name := by
  have none_gone : Eliminates (Needs tasks) [] := fun later _ _ split => by cases later <;> cases split
  obtain ⟨stuck, gone, ends, eliminates, _, left, waiting⟩ :=
    settle_spec counts_start none_gone List.nodup_nil (by simp) (Nat.lt_succ_self _)
  refine ⟨stuck, by rw [graph, ends]; rfl, sorted_settle ends, fun name => ⟨fun left_ => ?_, fun leads => ?_⟩⟩
  · exact leads_of_stuck left_ fun name left_ => exists_left left (waiting name left_)
  · obtain ⟨dep, ⟨task, there, named, _⟩, _⟩ := leads.next
    refine (left name).mpr ⟨named ▸ List.mem_map_of_mem there, fun present => ?_⟩
    exact eliminates.not_leads present leads

end Checking

end Dagron.CiPipeline
