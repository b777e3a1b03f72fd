import Dagron.CiPipeline.CommitKey
import Dagron.CiPipeline.Graph
import Dagron.Spec.Expansion

/-! What a pipeline that passed the check of its dependencies compiles to: a workflow that is not refused for a
cycle.
-/

namespace Dagron.CiPipeline

open Dagron.Library
open Dagron.Spec (Json DagSpec TaskSpec)

-- Mappings

variable {fields : List (String × Json)} {key other : String}

theorem get?_put (value : Json)
    : get? (put key value fields) other = if other = key then some value else get? fields other := by
  have keeps (entry : String × Json) : (if entry.1 = key then (key, value) else entry).1 = entry.1 := by
    split
    next same => exact same.symm
    next => rfl
  by_cases present : fields.any (·.1 = key)
  · rw [put, if_pos present, get?, List.find?_map]
    simp only [Function.comp_def, keeps, get?]
    cases found : fields.find? (fun entry => entry.1 = other) with
    | none =>
        have apart : other ≠ key := by
          rintro rfl
          obtain ⟨entry, there, is⟩ := List.any_eq_true.mp present
          exact List.find?_eq_none.mp found entry there is
        rw [if_neg apart]
        rfl
    | some entry =>
        have named : entry.1 = other := by simpa using List.find?_some found
        rw [Option.map_some, Option.map_some, Option.map_some, named]
        split <;> rfl
  · rw [put, if_neg present, get?, get?, List.find?_append]
    by_cases same : other = key
    · subst same
      have none_ : fields.find? (fun entry => entry.1 = other) = none :=
        List.find?_eq_none.mpr fun entry there is => present (List.any_eq_true.mpr ⟨entry, there, is⟩)
      simp [none_]
    · have later : [(key, value)].find? (fun entry => entry.1 = other) = none := by simp [Ne.symm same]
      rw [later, Option.or_none, if_neg same]

theorem nodup_put (value : Json) (once : (fields.map Prod.fst).Nodup)
    : ((put key value fields).map Prod.fst).Nodup := by
  rw [put]
  split
  · have keys : (fields.map fun entry => if entry.1 = key then (key, value) else entry).map Prod.fst
        = fields.map Prod.fst := by
      rw [List.map_map]
      refine List.map_congr_left fun entry _ => ?_
      rw [Function.comp_apply]
      split
      next same => exact same.symm
      next => rfl
    rw [keys]
    exact once
  · rw [List.map_append]
    refine List.nodup_append.mpr ⟨once, List.nodup_singleton _, ?_⟩
    rintro name there _ last rfl
    obtain rfl := List.mem_singleton.mp last
    obtain ⟨entry, among, same⟩ := List.mem_map.mp there
    exact ‹¬ _› (List.any_eq_true.mpr ⟨entry, among, by simpa using same⟩)

theorem get?_foldl_put {entries : List (String × Json)} (absent : ∀ entry ∈ entries, entry.1 ≠ other)
    : get? (entries.foldl (fun fields entry => put entry.1 entry.2 fields) fields) other = get? fields other := by
  induction entries generalizing fields with
  | nil => rfl
  | cons entry rest ih =>
      rw [List.foldl_cons, ih fun later there => absent later (List.mem_cons_of_mem _ there), get?_put,
        if_neg (absent entry List.mem_cons_self).symm]

theorem get?_eq_some_iff {value : Json} (once : (fields.map Prod.fst).Nodup)
    : get? fields key = some value ↔ (key, value) ∈ fields := by
  induction fields with
  | nil => simp [get?]
  | cons entry rest ih =>
      obtain ⟨fresh, once⟩ := List.nodup_cons.mp once
      by_cases same : entry.1 = key
      · subst same
        have absent : (entry.1, value) ∉ rest := fun there =>
          fresh (List.mem_map.mpr ⟨_, there, rfl⟩)
        simp [get?, absent, Prod.ext_iff, eq_comm]
      · have apart : (key, value) ≠ entry := fun is => same (congrArg Prod.fst is).symm
        simpa [get?, same, apart] using ih once

/-- A mapping without a key holds what it held under the others. -/
theorem swapRemove_spec (once : (fields.map Prod.fst).Nodup)
    : ((swapRemove key fields).map Prod.fst).Nodup
      ∧ ∀ entry, entry.1 ≠ key → (entry ∈ swapRemove key fields ↔ entry ∈ fields) := by
  rw [swapRemove]
  cases found : fields.findIdx? (·.1 = key) with
  | none => exact ⟨once, fun _ _ => Iff.rfl⟩
  | some place =>
      obtain ⟨inside, named, -⟩ := List.findIdx?_eq_some_iff_getElem.mp found
      obtain ⟨front, entry, back, rfl, size, is⟩
          : ∃ front entry back, fields = front ++ entry :: back ∧ front.length = place ∧ entry.1 = key :=
        ⟨fields.take place, fields[place], fields.drop (place + 1), by simp, by simp; omega, by simpa using named⟩
      have set_ (last : String × Json) : (front ++ entry :: back).set place last = front ++ last :: back := by
        rw [List.set_append_right _ _ size.le, ← size, Nat.sub_self, List.set_cons_zero]
      rcases List.eq_nil_or_concat back with rfl | ⟨back, last, rfl⟩
      · simp only [List.getLast?_concat, set_, List.dropLast_concat]
        refine ⟨once.sublist ((List.sublist_append_left front _).map _), fun other apart => ?_⟩
        have differ : other ≠ entry := fun same => apart (same ▸ is)
        simp [differ]
      · have ends : (front ++ entry :: (back ++ [last])).getLast? = some last := by
          rw [← List.cons_append, ← List.append_assoc, List.getLast?_concat]
        have dropped : (front ++ last :: (back ++ [last])).dropLast = front ++ last :: back := by
          rw [← List.cons_append, ← List.append_assoc, List.dropLast_concat]
        simp only [List.concat_eq_append] at set_ once ⊢
        simp only [ends, set_, dropped]
        have kept : (front ++ back ++ [last]).Sublist (front ++ entry :: (back ++ [last])) := by
          rw [List.append_assoc]
          exact (List.Sublist.refl front).append (List.sublist_cons_self _ _)
        have moved : (front ++ last :: back).Perm (front ++ back ++ [last]) := by
          rw [List.append_assoc]
          exact List.Perm.append_left front (List.perm_append_singleton last back).symm
        refine ⟨((moved.map _).nodup_iff).mpr (once.sublist (kept.map _)), fun other apart => ?_⟩
        have differ : other ≠ entry := fun same => apart (same ▸ is)
        simp [differ, or_comm]

/-- What a mapping says of a task: its name, and what it depends on. -/
structure Names (name : String) (deps : Option Json) (fields : List (String × Json)) : Prop where
  once
    : (fields.map Prod.fst).Nodup
  name
    : get? fields "name" = some (.string name)
  deps
    : get? fields "depends_on" = deps

variable {name : String} {deps : Option Json}

theorem Names.put (names : Names name deps fields) (apart : key ≠ "name") (apart' : key ≠ "depends_on")
    (value : Json)
    : Names name deps (put key value fields) :=
  ⟨nodup_put value names.once, by rw [get?_put, if_neg apart.symm, names.name],
    by rw [get?_put, if_neg apart'.symm, names.deps]⟩

theorem Names.foldl_put (names : Names name deps fields) {entries : List (String × Json)}
    (apart : ∀ entry ∈ entries, entry.1 ≠ "name" ∧ entry.1 ≠ "depends_on")
    : Names name deps (entries.foldl (fun fields entry => CiPipeline.put entry.1 entry.2 fields) fields) :=
  List.foldlRecOn _ _ names fun _ names entry there => names.put (apart entry there).1 (apart entry there).2 entry.2

theorem Names.swapRemove (names : Names name deps fields) (apart : key ≠ "name") (apart' : key ≠ "depends_on")
    : Names name deps (swapRemove key fields) := by
  obtain ⟨once, same⟩ := @swapRemove_spec fields key names.once
  have kept {other : String} (apart : key ≠ other)
      : get? (CiPipeline.swapRemove key fields) other = get? fields other := by
    refine Option.ext fun value => ?_
    rw [get?_eq_some_iff once, get?_eq_some_iff names.once]
    exact same _ apart.symm
  exact ⟨once, (kept apart).trans names.name, (kept apart').trans names.deps⟩

theorem Names.ite {cond : Prop} [Decidable cond] {fields' : List (String × Json)} (names : Names name deps fields)
    (names' : Names name deps fields')
    : Names name deps (if cond then fields else fields') := by
  split
  · exact names
  · exact names'

-- Workflows

/-- A task's own keys are none of those that the reading of it takes out, and that its compiler writes. -/
def Task.KeysApart (t : Task) : Prop :=
  ∀ field ∈ t.fields, field.1 ∉ ["name", "steps", "depends_on", "report"]

instance (t : Task) : Decidable t.KeysApart := by
  unfold Task.KeysApart
  infer_instance

def textOf : Json → Option String
  | .string text => some text
  | _ => none

def dependencies (t : Task) : Option Json :=
  if t.dependsOn = [] then none else some (.array (t.dependsOn.map .string))

theorem names_task (settings : Settings) {t : Task} (apart : t.KeysApart)
    : ∃ fields, task settings t = .object fields ∧ Names t.name (dependencies t) fields := by
  refine ⟨_, rfl, ?_⟩
  have first : Names t.name none (put "name" (.string t.name) []) :=
    ⟨nodup_put _ List.nodup_nil, by rw [get?_put, if_pos rfl], rfl⟩
  have listed : Names t.name (dependencies t) (if t.dependsOn ≠ [] then
      put "depends_on" (.array (t.dependsOn.map .string)) (put "name" (.string t.name) [])
      else put "name" (.string t.name) []) := by
    by_cases none_ : t.dependsOn = []
    · rw [if_neg (not_not_intro none_), dependencies, if_pos none_]
      exact first
    · rw [if_pos none_, dependencies, if_neg none_]
      exact ⟨nodup_put _ first.once, by rw [get?_put, if_neg (by decide), first.name],
        by rw [get?_put, if_pos rfl]⟩
  have own : Names t.name (dependencies t) _ := listed.foldl_put
    (fun field there => by
      have other := apart field (List.mem_filter.mp there).1
      simp only [List.mem_cons, not_or] at other
      exact ⟨other.1, other.2.2.1⟩
      : ∀ field ∈ t.fields.filter fun field => field.1 ≠ "env" ∧ field.1 ≠ "workspace", _)
  dsimp only
  refine Names.ite ?_ (Names.put ?_ (by decide) (by decide) _)
  all_goals
    split
    next =>
      refine Names.put (Names.ite ?_ (Names.swapRemove ?_ (by decide) (by decide))) (by decide) (by decide) _
      all_goals
        refine Names.ite own (Names.put (Names.ite own (Names.put own ?_ ?_ _)) ?_ ?_ _) <;> decide
    next =>
      refine Names.swapRemove (Names.ite own (Names.put (Names.ite own (Names.put own ?_ ?_ _)) ?_ ?_ _)) ?_ ?_ <;>
        decide

/-- What core reads of a task: its name and the names of the tasks that it depends on. -/
def written (row : Json) : Option (String × List String) := do
  let fields ← asObject row
  match get? fields "name", get? fields "depends_on" with
  | some (.string name), none => some (name, [])
  | some (.string name), some (.array deps) => some (name, deps.filterMap textOf)
  | _, _ => none

theorem written_task (settings : Settings) {t : Task} (apart : t.KeysApart)
    : written (task settings t) = some (t.name, t.dependsOn) := by
  obtain ⟨fields, is, names⟩ := names_task settings apart
  have texts (deps : List String) : (deps.map Json.string).filterMap textOf = deps := by
    rw [List.filterMap_map]
    exact List.filterMap_some
  rw [written, is]
  show (match get? fields "name", get? fields "depends_on" with
    | some (.string name), none => some (name, [])
    | some (.string name), some (.array deps) => some (name, deps.filterMap textOf)
    | _, _ => none) = _
  rw [names.name, names.deps, dependencies]
  by_cases none_ : t.dependsOn = []
  · rw [if_pos none_, none_]
  · simp only [if_neg none_, texts]

/-- What a compiled workflow holds under the keys that a graph is made of. -/
theorem get?_workflow (p : FilteredPipeline) (inputs : OrderedMap String String) (settings : Settings)
    : ∃ fields, workflow p inputs settings = .object fields
        ∧ get? fields "tasks" = some (.array (p.tasks.map (task settings)))
        ∧ ∀ key ∈ ["templates", "use"], get? p.spec key = none → get? fields key = none := by
  refine ⟨_, rfl, by rw [get?_put, if_pos rfl], fun key among absent => ?_⟩
  have others : ∀ field ∈ p.spec, field.1 ≠ key := fun field there same => by
    refine absurd absent (Option.isSome_iff_ne_none.mp ?_)
    rw [get?, Option.isSome_map, List.find?_isSome]
    exact ⟨field, there, decide_eq_true same⟩
  have skip : ∀ name ∈ ["name", "parameters", "concurrency_key", "max_active_runs", "when_full", "tags",
        "task_defaults", "tasks"],
      ∀ value fields, get? (put name value fields) key = get? fields key := by
    intro name own value fields
    refine (get?_put value).trans (if_neg fun same => ?_)
    subst same
    revert own
    obtain rfl | rfl := List.mem_pair.mp among <;> decide
  dsimp only
  rw [skip _ (by decide), skip _ (by decide),
    get?_foldl_put fun field there => others field (List.mem_filter.mp there).1, skip _ (by decide)]
  split
  · rw [skip _ (by decide)]
    split
    · rw [skip _ (by decide), skip _ (by decide), skip _ (by decide)]
      rfl
    · rw [skip _ (by decide), skip _ (by decide), skip _ (by decide), skip _ (by decide)]
      rfl
  · split
    · rw [skip _ (by decide), skip _ (by decide), skip _ (by decide), skip _ (by decide)]
      rfl
    · rw [skip _ (by decide), skip _ (by decide)]
      rfl

/-- How a reader reads a workflow: its tasks with the names that they have and depend on, in their order, and no
template where it has none of its own or of a library.
-/
structure ReadsAs (workflow : Json) (spec : DagSpec) : Prop where
  tasks
    : ∀ fields rows, asObject workflow = some fields → get? fields "tasks" = some (.array rows) →
        rows.map written = spec.tasks.map fun task => some (task.name, task.dependsOn)
  templates
    : ∀ fields, asObject workflow = some fields → get? fields "templates" = none → get? fields "use" = none →
        spec.templates = []

section Compiled

variable {p : FilteredPipeline} {inputs : OrderedMap String String} {settings : Settings} {spec : DagSpec}

/-- What is read of a compiled workflow has no cycle where the pipeline's tasks have a rank. -/
theorem authoredAcyclic_of_rank (apart : ∀ task ∈ p.tasks, task.KeysApart)
    (templates : get? p.spec "templates" = none) (use : get? p.spec "use" = none)
    (reads : ReadsAs (workflow p inputs settings) spec) {rank : String → Nat}
    (falls : ∀ task ∈ p.tasks, ∀ dep ∈ task.dependsOn, rank dep < rank task.name)
    : spec.AuthoredAcyclic := by
  obtain ⟨fields, is, rows, kept⟩ := get?_workflow p inputs settings
  have object : asObject (workflow p inputs settings) = some fields := by rw [is]; rfl
  have none_ := reads.templates fields object (kept _ (by decide) templates) (kept _ (by decide) use)
  refine ⟨⟨rank, fun edge there => ?_⟩, fun template among => ?_⟩
  · obtain ⟨task, listed, dep, needs, rfl⟩ := Spec.mem_edges.mp there
    have tasks := reads.tasks fields _ object rows
    have among : some (task.name, task.dependsOn) ∈ (p.tasks.map (CiPipeline.task settings)).map written :=
      tasks ▸ List.mem_map_of_mem listed
    rw [List.map_map] at among
    obtain ⟨own, own_there, same⟩ := List.mem_map.mp among
    rw [Function.comp_apply, written_task settings (apart own own_there), Option.some.injEq,
      Prod.mk.injEq] at same
    exact same.1 ▸ falls own own_there dep (same.2 ▸ needs)
  · rw [none_] at among
    cases among

/-- What passed the check of its dependencies has a rank that falls along them. -/
theorem exists_rank_of_graph {tasks : List Task} {debug : List Char → String} (passes : graph tasks debug = some [])
    : ∃ rank : String → Nat, ∀ task ∈ tasks, ∀ dep ∈ task.dependsOn, rank dep < rank task.name := by
  obtain ⟨problems, is, circle, reported, -⟩ := @graph_spec tasks debug
  obtain rfl := Option.some.inj (is.symm.trans passes)
  obtain ⟨stuck, -, stuck_iff, ranked⟩ := @settle_start tasks
  have none_ : stuck = [] := by
    by_contra some_
    obtain ⟨others, there⟩ := circle.mpr (stuck_iff.mp some_)
    exact List.not_mem_nil there
  obtain ⟨rank, falls⟩ := ranked none_
  refine ⟨rank, fun task there dep needs => falls _ _ ⟨task, there, rfl, needs, ?_⟩⟩
  have quiet : dependencyProblem tasks debug task dep = none := by
    cases found : dependencyProblem tasks debug task dep with
    | none => rfl
    | some problem => exact absurd (reported task there dep needs problem found) List.not_mem_nil
  unfold dependencyProblem at quiet
  split at quiet
  · cases quiet
  · split at quiet
    next apart known => exact ⟨apart, known⟩
    next => cases quiet

end Compiled

/-- The check ends, reports a cycle exactly where there is one, and each dependency of a task on itself or on a name
that no task has; what a pipeline that passes it compiles to is refused for no cycle.
-/
theorem graph_exact {write : Json → Except String String} {read : String → Except String DagSpec}
    (reads : ∀ workflow yaml spec, write workflow = .ok yaml → read yaml = .ok spec → ReadsAs workflow spec)
    (tasks : List Task) (debug : List Char → String)
    : ∃ problems, graph tasks debug = some problems
        ∧ ((∃ stuck, cycleProblem stuck ∈ problems) ↔ Cyclic (Needs tasks))
        ∧ (∀ task ∈ tasks, task.name ∈ task.dependsOn →
            ⟨"tasks (" ++ task.name ++ ")", "depends on itself"⟩ ∈ problems)
        ∧ (∀ task ∈ tasks, ∀ dep ∈ task.dependsOn, dep ∉ tasks.map Task.name →
            ⟨"tasks (" ++ task.name ++ ").depends_on", "names no task: " ++ debug dep.toList⟩ ∈ problems)
        ∧ (problems = [] → ∀ (p : FilteredPipeline), p.tasks = tasks → (∀ task ∈ tasks, task.KeysApart) →
            get? p.spec "templates" = none → get? p.spec "use" = none →
            ∀ ev settings compiled, compile debug write p ev settings = .ok (.run compiled) →
            ∀ spec, read compiled.yaml = .ok spec →
            ∀ host maxTasks out, Spec.expand host maxTasks spec = .ok out → ¬ out.dedupe.RefusedForCycle) := by
  obtain ⟨problems, is, circle, reported, -⟩ := @graph_spec tasks debug
  refine ⟨problems, is, circle, fun task there self => ?_, fun task there dep needs unknown => ?_, ?_⟩
  · exact reported task there _ self _ (if_pos rfl)
  · refine reported task there dep needs _ ?_
    have apart : dep ≠ task.name := fun same => unknown (same ▸ List.mem_map_of_mem there)
    rw [dependencyProblem, if_neg apart, if_neg unknown]
  · rintro rfl p rfl apart templates use ev settings compiled runs spec read_ host maxTasks out expands
    obtain ⟨given, -, yaml, -⟩ := compile_run runs
    obtain ⟨rank, falls⟩ := exists_rank_of_graph is
    exact Spec.expand_not_refused expands
      (authoredAcyclic_of_rank apart templates use (reads _ _ _ yaml read_) falls)

-- Two tasks, one after the other

def chained : FilteredPipeline where
  name := "ci"
  on := {}
  concurrency := none
  tasks := [
    { name := "build", fields := [("command", .array [.string "make"])] },
    { name := "test", dependsOn := ["build"], fields := [("command", .array [.string "make", .string "test"])] }]
  spec := []
  filters := { push := some {} }

def chainedYaml : String :=
  pushedYaml ++ "- name: test\n  depends_on:\n  - build\n  command:\n  - make\n  - test\n"

/-- The workflow as it is read from its text. -/
def chainedSpec : DagSpec where
  name := "ci"
  parameters := CI_PARAMETERS.map fun name => (name, "")
  taskDefaults := some {
    env := CI_PARAMETERS.map fun name =>
      { name := String.ofList (name.toList.map Char.toUpper), value := placeholder name } }
  tasks := [
    { name := "build", command := ["make"] },
    { name := "test", command := ["make", "test"], dependsOn := ["build"] }]

/-- Writes the workflow of two tasks, and no other. -/
def writeChained (workflow : Json) : Except String String :=
  match asObject workflow with
  | none => .error "is no mapping"
  | some fields =>
      if (itemsOf (get? fields "tasks")).map written = [some ("build", []), some ("test", ["build"])] then
        .ok chainedYaml
      else .error "is another workflow"

def readChained (yaml : String) : Except String DagSpec :=
  if yaml = chainedYaml then .ok chainedSpec else .error "is another text"

theorem readsAs_chained
    : ∀ workflow yaml spec, writeChained workflow = .ok yaml → readChained yaml = .ok spec →
        ReadsAs workflow spec := by
  intro workflow yaml spec writes reads
  unfold writeChained at writes
  unfold readChained at reads
  split at reads
  next =>
    obtain rfl := Except.ok.inj reads
    split at writes
    next => cases writes
    next fields object =>
      split at writes
      next listed =>
        refine ⟨fun fields' rows object' found => ?_, fun _ _ _ _ => rfl⟩
        obtain rfl := Option.some.inj (object.symm.trans object')
        rw [found] at listed
        exact listed
      next => cases writes
  next => cases reads

theorem graph_exact_chained
    : graph chained.tasks (fun text => String.ofList text) = some []
        ∧ ∃ compiled out,
          compile (fun text => String.ofList text) writeChained chained
              (compileEvent widgets (pushFrom "e1" seenLast (by decide)) .unknown) {} = .ok (.run compiled)
            ∧ compiled.yaml = chainedYaml
            ∧ Spec.expand Spec.plainHost 10 chainedSpec = .ok out
            ∧ ¬ out.dedupe.RefusedForCycle := by
  obtain ⟨problems, is, -, -, -, passes⟩ :=
    graph_exact readsAs_chained chained.tasks (fun text => String.ofList text)
  have none_ : graph chained.tasks (fun text => String.ofList text) = some [] := by decide
  obtain rfl := Option.some.inj (is.symm.trans none_)
  have apart : ∀ task ∈ chained.tasks, task.KeysApart := by decide
  have runs : ∃ parameters, compile (fun text => String.ofList text) writeChained chained
      (compileEvent widgets (pushFrom "e1" seenLast (by decide)) .unknown) {} = .ok (.run ⟨chainedYaml, parameters⟩) :=
    ⟨_, rfl⟩
  have expands : (Spec.expand Spec.plainHost 10 chainedSpec).toOption.isSome := by decide
  obtain ⟨parameters, runs⟩ := runs
  cases ok : Spec.expand Spec.plainHost 10 chainedSpec with
  | error message =>
      rw [ok] at expands
      cases expands
  | ok out =>
      exact ⟨is, _, out, runs, rfl, rfl, passes rfl chained rfl apart rfl rfl _ _ _ runs _ (if_pos rfl) _ _ _ ok⟩

end Dagron.CiPipeline
