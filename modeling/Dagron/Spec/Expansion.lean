import Mathlib.Algebra.GroupWithZero.Nat
import Mathlib.Data.List.Pairwise
import Dagron.Spec.Expand

/-! What expansion makes of a workflow: leaves only, as many as a run may have, whose
dependencies are among them and make no cycle where the authored ones make none.
-/

namespace Dagron.Spec

open Dagron.Library

-- Sound expansions

def TaskSpec.isLeaf (task : TaskSpec) : Prop :=
  task.template = none ∧ task.withItems = none ∧ task.withParam = none

def Expanded.names (expanded : Expanded) : List String :=
  expanded.tasks.map TaskSpec.name

/-- What holds of every expansion: it has leaves only, its boundary is among them, and they
depend on one another.
-/
structure Expanded.Sound (expanded : Expanded) : Prop where
  leaves
    : ∀ task ∈ expanded.tasks, task.isLeaf
  fanouts
    : FanoutsPlain expanded.tasks
  roots
    : ∀ name ∈ expanded.roots, name ∈ expanded.names
  exits
    : ∀ name ∈ expanded.exits, name ∈ expanded.names
  known
    : ∀ task ∈ expanded.tasks, ∀ dep ∈ task.dependsOn, dep ∈ expanded.names

namespace Expanded

theorem names_append (first second : Expanded)
    : (first.append second).names = first.names ++ second.names :=
  List.map_append

theorem Sound.empty
    : Expanded.empty.Sound where
  leaves _ listed := by cases listed
  fanouts _ listed := by cases listed
  roots _ listed := by cases listed
  exits _ listed := by cases listed
  known _ listed := by cases listed

theorem Sound.append {first second : Expanded} (sound : first.Sound) (sound' : second.Sound)
    : (first.append second).Sound where
  leaves task listed :=
    (List.mem_append.mp listed).elim (sound.leaves task) (sound'.leaves task)
  fanouts task listed :=
    (List.mem_append.mp listed).elim (sound.fanouts task) (sound'.fanouts task)
  roots name listed := by
    rw [names_append]
    exact List.mem_append.mpr ((List.mem_append.mp listed).imp (sound.roots name) (sound'.roots name))
  exits name listed := by
    rw [names_append]
    exact List.mem_append.mpr ((List.mem_append.mp listed).imp (sound.exits name) (sound'.exits name))
  known task listed dep needs := by
    rw [names_append]
    exact List.mem_append.mpr ((List.mem_append.mp listed).imp
      (fun listed => sound.known task listed dep needs)
      (fun listed => sound'.known task listed dep needs))

end Expanded

-- One task

theorem checkShape_fanouts {task : TaskSpec} (ok : checkShape task = .ok ())
    (fans : task.withOutputOf.isSome)
    : (task.taskType = none ∨ task.taskType = some "task") ∧ task.gang.isNone := by
  simp only [checkShape, checkFanout, checkRuntimeFanout, fans, if_true, bind_eq_ok,
    require_eq_ok, decide_eq_true_eq] at ok
  exact ⟨ok.2.2.2.1.2.2.2, ok.2.2.2.1.2.2.1⟩

/-- An expander whose expansions are sound, and pay for each leaf. -/
def Expander.Sound (expander : Expander) : Prop :=
  ∀ tasks namePrefix ctx budget expanded left,
    expander tasks namePrefix ctx budget = .ok (expanded, left) →
      expanded.Sound ∧ expanded.tasks.length + left = budget

section Task

variable {env : ExpandEnv} {deeper : Option Expander} {namePrefix : String} {ctx : Bindings}
  {task : TaskSpec} {budget left : Nat} {expanded : Expanded}

theorem Expanded.Sound.leaf (host : Externals) (base : String) (runtimeWhen : Option String)
    (ok : checkShape task = .ok ())
    : Expanded.Sound ⟨[base], [base], [buildLeaf host task base ctx runtimeWhen]⟩ where
  leaves leaf listed := by
    obtain rfl := List.mem_singleton.mp listed
    exact ⟨rfl, rfl, rfl⟩
  fanouts leaf listed fans := by
    obtain rfl := List.mem_singleton.mp listed
    exact @checkShape_fanouts task ok fans
  roots _ listed := listed
  exits _ listed := listed
  known leaf listed dep needs := by
    obtain rfl := List.mem_singleton.mp listed
    cases needs

theorem expandCall_ok {base : String}
    (ok : expandCall env deeper task base ctx budget = .ok (expanded, left))
    : ∃ expander ∈ deeper, ∃ template ∈ env.templates, ∃ scope,
        expander template.tasks (base ++ ".") scope budget = .ok (expanded, left) := by
  unfold expandCall at ok
  split at ok
  · cases ok
  case h_2 expander =>
    dsimp only at ok
    split at ok
    · cases ok
    case h_2 template found =>
      exact ⟨expander, rfl, template, List.mem_of_find?_eq_some found, _, ok⟩

theorem expandInstance_ok {base : String} {runtimeWhen : Option String}
    (ok : expandInstance env deeper task base ctx runtimeWhen budget = .ok (expanded, left))
    : (∃ expander ∈ deeper, ∃ template ∈ env.templates, ∃ scope,
        expander template.tasks (base ++ ".") scope budget = .ok (expanded, left))
      ∨ budget = left + 1
        ∧ expanded = ⟨[base], [base], [buildLeaf env.host task base ctx runtimeWhen]⟩ := by
  unfold expandInstance at ok
  split at ok
  · exact .inl (expandCall_ok ok)
  · split at ok
    · cases ok
    · cases ok
      exact .inr ⟨rfl, rfl⟩

theorem expandInstance_sound {base : String} {runtimeWhen : Option String}
    (deep : ∀ expander ∈ deeper, expander.Sound) (shape : checkShape task = .ok ())
    (ok : expandInstance env deeper task base ctx runtimeWhen budget = .ok (expanded, left))
    : expanded.Sound ∧ expanded.tasks.length + left = budget := by
  rcases expandInstance_ok ok with ⟨expander, called, template, _, scope, ok⟩ | ⟨rfl, rfl⟩
  · exact deep expander called _ _ _ _ _ _ ok
  · exact ⟨.leaf env.host base runtimeWhen shape, Nat.add_comm 1 left⟩

theorem expandItems_sound (deep : ∀ expander ∈ deeper, expander.Sound)
    (shape : checkShape task = .ok ()) {index : Nat} {seen : List String}
    {items : List (Option Json)}
    (ok : expandItems env deeper namePrefix ctx task index seen items budget = .ok (expanded, left))
    : expanded.Sound ∧ expanded.tasks.length + left = budget := by
  induction items generalizing index seen budget expanded with
  | nil =>
      cases ok
      exact ⟨.empty, Nat.zero_add left⟩
  | cons item rest ih =>
      unfold expandItems at ok
      obtain ⟨kept, _, ok⟩ := exists_of_bind_eq_ok ok
      cases kept with
      | none => exact ih ok
      | some kept =>
          obtain ⟨⟨first, between⟩, one, ok⟩ := exists_of_bind_eq_ok ok
          obtain ⟨⟨others, last⟩, many, ok⟩ := exists_of_bind_eq_ok ok
          cases ok
          obtain ⟨sound, paid⟩ := expandInstance_sound deep shape one
          obtain ⟨sound', paid'⟩ := ih many
          refine ⟨sound.append sound', ?_⟩
          simp only [Expanded.append, List.length_append]
          omega

theorem expandOne_sound (deep : ∀ expander ∈ deeper, expander.Sound)
    (ok : expandOne env deeper namePrefix ctx task budget = .ok (expanded, left))
    : expanded.Sound ∧ expanded.tasks.length + left = budget := by
  unfold expandOne at ok
  obtain ⟨_, shape, ok⟩ := exists_of_bind_eq_ok ok
  obtain ⟨items, _, ok⟩ := exists_of_bind_eq_ok ok
  obtain ⟨_, _, ok⟩ := exists_of_bind_eq_ok ok
  exact expandItems_sound deep shape ok

end Task

-- A list

/-- What the task of a name expanded to, nothing where there is none. -/
def PerTask.leavesOf (per : PerTask) (name : String) : Expanded :=
  (per.get name).getD .empty

def PerTask.exitsOf (per : PerTask) (names : List String) : List String :=
  names.flatMap (fun name => (per.leavesOf name).exits)

section Per

variable {per : PerTask}

theorem PerTask.leavesOf_of_mem (distinct : (per.map Prod.fst).Nodup)
    {entry : String × Expanded} (listed : entry ∈ per)
    : per.leavesOf entry.1 = entry.2 := by
  have found : per.find? (fun other => other.1 = entry.1) = some entry := by
    cases search : per.find? (fun other => other.1 = entry.1) with
    | none =>
        have unlisted := List.find?_eq_none.mp search entry listed
        simp at unlisted
    | some other =>
        have same : other.1 = entry.1 := by
          simpa using List.find?_some search
        rw [List.inj_on_of_nodup_map distinct (List.mem_of_find?_eq_some search) listed same]
  simp only [PerTask.leavesOf, PerTask.get, found, Option.map_some, Option.getD_some]

theorem PerTask.mem_of_get {name : String} (some_ : (per.get name).isSome)
    : name ∈ per.map Prod.fst := by
  obtain ⟨expanded, found⟩ := Option.isSome_iff_exists.mp some_
  obtain ⟨entry, search, _⟩ := Option.map_eq_some_iff.mp found
  have same : entry.1 = name := by simpa using List.find?_some search
  exact same ▸ List.mem_map_of_mem (List.mem_of_find?_eq_some search)

theorem dependencyExits_ok {task : TaskSpec} {deps exits : List String}
    (ok : dependencyExits per task deps = .ok exits)
    : exits = per.exitsOf deps ∧ ∀ dep ∈ deps, dep ∈ per.map Prod.fst := by
  induction deps generalizing exits with
  | nil =>
      cases ok
      exact ⟨rfl, nofun⟩
  | cons dep rest ih =>
      unfold dependencyExits at ok
      split at ok
      · cases ok
      case h_2 expanded found =>
        obtain ⟨others, later, ok⟩ := exists_of_bind_eq_ok ok
        cases ok
        obtain ⟨rfl, known⟩ := ih later
        refine ⟨?_, List.forall_mem_cons.mpr ⟨?_, known⟩⟩
        · simp only [PerTask.exitsOf, List.flatMap_cons, PerTask.leavesOf, found, Option.getD_some]
        · exact PerTask.mem_of_get (by rw [found]; rfl)

/-- A leaf that a list wires: it keeps what it is, and depends on what it did, or, at a root,
on the exits of what its task depends on.
-/
structure Wired (own leaf : TaskSpec) (roots exits : List String) : Prop where
  name
    : leaf.name = own.name
  hook
    : leaf.hook = own.hook
  plain
    : own.isLeaf → leaf.isLeaf
  fanout
    : leaf.withOutputOf = own.withOutputOf ∧ leaf.taskType = own.taskType
      ∧ leaf.gang = own.gang
  deps
    : leaf.dependsOn = own.dependsOn ∨ own.name ∈ roots ∧ leaf.dependsOn = exits

theorem wired_wireLeaf (renamed : List (String × String)) (task : TaskSpec)
    (expanded : Expanded) (exits : List String) (own : TaskSpec)
    : Wired own (wireLeaf renamed task expanded exits own) expanded.roots exits := by
  unfold wireLeaf
  dsimp only
  split <;> split
  case isTrue.isTrue root => exact ⟨rfl, rfl, fun leaf => leaf, ⟨rfl, rfl, rfl⟩, .inr ⟨‹_›, rfl⟩⟩
  case isTrue.isFalse => exact ⟨rfl, rfl, fun leaf => leaf, ⟨rfl, rfl, rfl⟩, .inl rfl⟩
  case isFalse.isTrue => exact ⟨rfl, rfl, fun leaf => leaf, ⟨rfl, rfl, rfl⟩, .inr ⟨‹_›, rfl⟩⟩
  case isFalse.isFalse => exact ⟨rfl, rfl, fun leaf => leaf, ⟨rfl, rfl, rfl⟩, .inl rfl⟩

theorem wireList_cons {depended : List String} {task : TaskSpec} {rest : List TaskSpec}
    {expanded : Expanded} (ok : wireList per depended (task :: rest) = .ok expanded)
    : ∃ exits others, dependencyExits per task task.dependsOn = .ok exits
        ∧ wireList per depended rest = .ok others
        ∧ expanded = Expanded.append {
            roots := if task.dependsOn.isEmpty then (per.leavesOf task.name).roots else []
            exits := if task.name ∈ depended then [] else (per.leavesOf task.name).exits
            tasks := wireTask per.renamed task (per.leavesOf task.name) exits } others := by
  unfold wireList at ok
  obtain ⟨exits, deps, ok⟩ := exists_of_bind_eq_ok ok
  obtain ⟨others, later, ok⟩ := exists_of_bind_eq_ok ok
  exact ⟨exits, others, deps, later, (Except.ok.inj ok).symm⟩

/-- What wiring a list makes: the wired leaves of its tasks, each of which depends on tasks of
the list, and a boundary of theirs.
-/
theorem wireList_ok {depended : List String} {tasks : List TaskSpec} {expanded : Expanded}
    (ok : wireList per depended tasks = .ok expanded)
    : expanded.tasks = tasks.flatMap (fun task =>
        wireTask per.renamed task (per.leavesOf task.name) (per.exitsOf task.dependsOn))
      ∧ (∀ task ∈ tasks, ∀ dep ∈ task.dependsOn, dep ∈ per.map Prod.fst)
      ∧ (∀ name ∈ expanded.roots, ∃ task ∈ tasks, name ∈ (per.leavesOf task.name).roots)
      ∧ ∀ name ∈ expanded.exits, ∃ task ∈ tasks, name ∈ (per.leavesOf task.name).exits := by
  induction tasks generalizing expanded with
  | nil =>
      obtain rfl := Except.ok.inj ok
      simp [Expanded.empty]
  | cons task rest ih =>
      obtain ⟨exits, others, deps, later, rfl⟩ := wireList_cons ok
      obtain ⟨rfl, known⟩ := dependencyExits_ok deps
      obtain ⟨tasks_, known_, roots, exits⟩ := ih later
      refine ⟨?_, List.forall_mem_cons.mpr ⟨known, known_⟩, ?_, ?_⟩
      · simp only [Expanded.append, List.flatMap_cons, tasks_]
      · intro name listed
        rcases List.mem_append.mp listed with own | other
        · dsimp only at own
          split at own
          · exact ⟨task, List.mem_cons_self, own⟩
          · cases own
        · obtain ⟨owner, among, listed⟩ := roots name other
          exact ⟨owner, List.mem_cons_of_mem _ among, listed⟩
      · intro name listed
        rcases List.mem_append.mp listed with own | other
        · dsimp only at own
          split at own
          · cases own
          · exact ⟨task, List.mem_cons_self, own⟩
        · obtain ⟨owner, among, listed⟩ := exits name other
          exact ⟨owner, List.mem_cons_of_mem _ among, listed⟩

end Per

section List

variable {env : ExpandEnv} {deeper : Option Expander} {namePrefix : String} {ctx : Bindings}
  {tasks : List TaskSpec} {budget left : Nat} {expanded : Expanded} {per : PerTask}

/-- What the tasks of a list expand to on their own: an expansion of each, under its name,
which no other has; its leaves are paid for.
-/
structure Each (env : ExpandEnv) (deeper : Option Expander) (namePrefix : String)
    (ctx : Bindings) (tasks : List TaskSpec) (budget left : Nat) (per : PerTask) : Prop where
  named
    : per.map Prod.fst = tasks.map TaskSpec.name
  distinct
    : (tasks.map TaskSpec.name).Nodup
  expands
    : ∀ task ∈ tasks, ∃ budget left,
        expandOne env deeper namePrefix ctx task budget = .ok (per.leavesOf task.name, left)
  sound
    : ∀ entry ∈ per, entry.2.Sound
  paid
    : (per.map (fun entry => entry.2.tasks.length)).sum + left = budget

theorem expandEach_ok (deep : ∀ expander ∈ deeper, expander.Sound) {seen : List String}
    (ok : expandEach env deeper namePrefix ctx seen tasks budget = .ok (per, left))
    : Each env deeper namePrefix ctx tasks budget left per
      ∧ ∀ task ∈ tasks, task.name ∉ seen := by
  induction tasks generalizing seen budget per with
  | nil =>
      cases ok
      exact ⟨⟨rfl, List.nodup_nil, by simp, by simp, Nat.zero_add left⟩, by simp⟩
  | cons task rest ih =>
      unfold expandEach at ok
      obtain ⟨_, fresh, ok⟩ := exists_of_bind_eq_ok ok
      obtain ⟨⟨first, between⟩, one, ok⟩ := exists_of_bind_eq_ok ok
      obtain ⟨⟨others, last⟩, many, ok⟩ := exists_of_bind_eq_ok ok
      cases ok
      have fresh : task.name ∉ seen := of_decide_eq_true (require_eq_ok.mp fresh)
      obtain ⟨sound, paid⟩ := expandOne_sound deep one
      obtain ⟨each, unseen⟩ := ih many
      have apart : task.name ∉ rest.map TaskSpec.name := by
        intro again
        obtain ⟨other, listed, same⟩ := List.mem_map.mp again
        exact unseen other listed (by simp [same])
      have named : ((task.name, first) :: others).map Prod.fst
          = (task :: rest).map TaskSpec.name := by
        rw [List.map_cons, List.map_cons, each.named]
      have distinct : ((task :: rest).map TaskSpec.name).Nodup :=
        List.nodup_cons.mpr ⟨apart, each.distinct⟩
      have found {entry : String × Expanded} (listed : entry ∈ (task.name, first) :: others)
          : PerTask.leavesOf ((task.name, first) :: others) entry.1 = entry.2 :=
        PerTask.leavesOf_of_mem (named ▸ distinct) listed
      refine ⟨⟨named, distinct, ?_, List.forall_mem_cons.mpr ⟨sound, each.sound⟩, ?_⟩, ?_⟩
      · intro owner listed
        rcases List.mem_cons.mp listed with rfl | later
        · exact ⟨budget, between, (found List.mem_cons_self).symm ▸ one⟩
        · obtain ⟨before, after, expands⟩ := each.expands owner later
          have among : owner.name ∈ others.map Prod.fst :=
            each.named ▸ List.mem_map_of_mem later
          obtain ⟨entry, within, same⟩ := List.mem_map.mp among
          refine ⟨before, after, ?_⟩
          have here := found (List.mem_cons_of_mem _ within)
          have there := PerTask.leavesOf_of_mem (each.named.symm ▸ each.distinct) within
          rw [same] at here there
          rw [here, ← there]
          exact expands
      · have paid' := each.paid
        simp only [List.map_cons, List.sum_cons]
        omega
      · refine List.forall_mem_cons.mpr ⟨fresh, fun owner listed again => ?_⟩
        exact unseen owner listed (List.mem_cons_of_mem _ again)

theorem Each.sound_leavesOf (each : Each env deeper namePrefix ctx tasks budget left per)
    {name : String} (listed : name ∈ tasks.map TaskSpec.name)
    : (per.leavesOf name).Sound := by
  obtain ⟨entry, within, rfl⟩ := List.mem_map.mp (each.named.symm ▸ listed)
  rw [PerTask.leavesOf_of_mem (each.named.symm ▸ each.distinct) within]
  exact each.sound entry within

theorem names_wired
    (wired : expanded.tasks = tasks.flatMap (fun task =>
      wireTask per.renamed task (per.leavesOf task.name) (per.exitsOf task.dependsOn)))
    : expanded.names = tasks.flatMap (fun task => (per.leavesOf task.name).names) := by
  rw [Expanded.names, wired, List.map_flatMap]
  congr 1
  funext task
  rw [wireTask, List.map_map]
  exact List.map_congr_left (fun own _ => (wired_wireLeaf _ _ _ _ own).name)

theorem Each.length_wired (each : Each env deeper namePrefix ctx tasks budget left per)
    (wired : expanded.tasks = tasks.flatMap (fun task =>
      wireTask per.renamed task (per.leavesOf task.name) (per.exitsOf task.dependsOn)))
    : expanded.tasks.length = (per.map (fun entry => entry.2.tasks.length)).sum := by
  have own : tasks.map (fun task => (per.leavesOf task.name).tasks.length)
      = per.map (fun entry => (per.leavesOf entry.1).tasks.length) := by
    have named := congrArg (List.map (fun name => (per.leavesOf name).tasks.length)) each.named
    rw [List.map_map, List.map_map] at named
    exact named.symm
  rw [wired, List.length_flatMap]
  simp only [wireTask, List.length_map]
  rw [own]
  refine congrArg List.sum (List.map_congr_left (fun entry listed => ?_))
  rw [PerTask.leavesOf_of_mem (each.named.symm ▸ each.distinct) listed]

theorem expandListWith_sound (deep : ∀ expander ∈ deeper, expander.Sound)
    : (expandListWith env deeper).Sound := by
  intro tasks namePrefix ctx budget expanded left ok
  unfold expandListWith at ok
  obtain ⟨⟨per, last⟩, each, ok⟩ := exists_of_bind_eq_ok ok
  obtain ⟨wired, wiring, ok⟩ := exists_of_bind_eq_ok ok
  cases ok
  obtain ⟨each, _⟩ := expandEach_ok deep each
  obtain ⟨tasks_, known, roots, exits⟩ := wireList_ok wiring
  have names := names_wired tasks_
  have sound (task : TaskSpec) (listed : task ∈ tasks) : (per.leavesOf task.name).Sound :=
    each.sound_leavesOf (List.mem_map_of_mem listed)
  have within {name : String} {task : TaskSpec} (listed : task ∈ tasks)
      (among : name ∈ (per.leavesOf task.name).names) : name ∈ expanded.names := by
    rw [names]
    exact List.mem_flatMap.mpr ⟨task, listed, among⟩
  have made (leaf : TaskSpec) (listed : leaf ∈ expanded.tasks)
      : ∃ task ∈ tasks, ∃ own ∈ (per.leavesOf task.name).tasks,
          Wired own leaf (per.leavesOf task.name).roots (per.exitsOf task.dependsOn) := by
    rw [tasks_] at listed
    obtain ⟨task, among, listed⟩ := List.mem_flatMap.mp listed
    obtain ⟨own, member, rfl⟩ := List.mem_map.mp listed
    exact ⟨task, among, own, member, wired_wireLeaf _ _ _ _ own⟩
  refine ⟨⟨?_, ?_, ?_, ?_, ?_⟩, ?_⟩
  · intro leaf listed
    obtain ⟨task, among, own, member, wired⟩ := made leaf listed
    exact wired.plain ((sound task among).leaves own member)
  · intro leaf listed fans
    obtain ⟨task, among, own, member, wired⟩ := made leaf listed
    obtain ⟨fanout, kind, gang⟩ := wired.fanout
    rw [kind, gang]
    exact (sound task among).fanouts own member (fanout ▸ fans)
  · intro name listed
    obtain ⟨task, among, root⟩ := roots name listed
    exact within among ((sound task among).roots name root)
  · intro name listed
    obtain ⟨task, among, exit⟩ := exits name listed
    exact within among ((sound task among).exits name exit)
  · intro leaf listed dep needs
    obtain ⟨task, among, own, member, wired⟩ := made leaf listed
    rcases wired.deps with same | ⟨_, replaced⟩
    · exact within among ((sound task among).known own member dep (same ▸ needs))
    · rw [replaced] at needs
      obtain ⟨name, depends, exit⟩ := List.mem_flatMap.mp needs
      have listed := each.named ▸ known task among name depends
      obtain ⟨other, there, rfl⟩ := List.mem_map.mp listed
      exact within there ((sound other there).exits dep exit)
  · rw [each.length_wired tasks_]
    exact each.paid

end List

-- Cycles

theorem mem_edges {tasks : List TaskSpec} {edge : String × String}
    : edge ∈ edges tasks ↔ ∃ task ∈ tasks, ∃ dep ∈ task.dependsOn, (task.name, dep) = edge := by
  simp only [edges, List.mem_flatMap, List.mem_map]

theorem edges_append (first second : List TaskSpec)
    : edges (first ++ second) = edges first ++ edges second :=
  List.flatMap_append

theorem Expanded.Sound.edge_within {expanded : Expanded} (sound : expanded.Sound)
    {edge : String × String} (listed : edge ∈ edges expanded.tasks)
    : edge.1 ∈ expanded.names ∧ edge.2 ∈ expanded.names := by
  obtain ⟨task, member, dep, needs, rfl⟩ := mem_edges.mp listed
  exact ⟨List.mem_map_of_mem member, sound.known task member dep needs⟩

theorem Expanded.acyclic_append {first second : Expanded} (sound : first.Sound)
    (sound' : second.Sound) (distinct : (first.append second).names.Nodup)
    (acyclic : Board.Acyclic (edges first.tasks)) (acyclic' : Board.Acyclic (edges second.tasks))
    : Board.Acyclic (edges (first.append second).tasks) := by
  rw [names_append] at distinct
  have apart := (List.nodup_append.mp distinct).2.2
  have outside {name : String} (own : name ∈ first.names) : name ∉ second.names :=
    fun other => apart name own name other rfl
  rw [append, edges_append]
  refine .append (fun name => decide (name ∈ second.names)) acyclic acyclic' ?_ ?_
  · intro edge listed
    obtain ⟨source, target⟩ := sound.edge_within listed
    exact ⟨decide_eq_false (outside source), decide_eq_false (outside target)⟩
  · intro edge listed
    obtain ⟨source, target⟩ := sound'.edge_within listed
    exact ⟨decide_eq_true source, decide_eq_true target⟩

/-- An expander that makes no cycle of a list that has none, where the leaves' names differ. -/
def Expander.Acyclic (expander : Expander) : Prop :=
  ∀ tasks namePrefix ctx budget expanded left,
    expander tasks namePrefix ctx budget = .ok (expanded, left) →
      Board.Acyclic (edges tasks) → expanded.names.Nodup → Board.Acyclic (edges expanded.tasks)

section Acyclic

variable {env : ExpandEnv} {deeper : Option Expander} {namePrefix : String} {ctx : Bindings}
  {task : TaskSpec} {tasks : List TaskSpec} {budget left : Nat} {expanded : Expanded}
  (templates : ∀ template ∈ env.templates, Board.Acyclic (edges template.tasks))
  (deep : ∀ expander ∈ deeper, expander.Sound ∧ expander.Acyclic)

include templates deep

theorem expandItems_acyclic (shape : checkShape task = .ok ()) {index : Nat}
    {seen : List String} {items : List (Option Json)}
    (ok : expandItems env deeper namePrefix ctx task index seen items budget = .ok (expanded, left))
    (distinct : expanded.names.Nodup)
    : Board.Acyclic (edges expanded.tasks) := by
  have sounds : ∀ expander ∈ deeper, expander.Sound :=
    fun expander called => (deep expander called).1
  induction items generalizing index seen budget expanded with
  | nil =>
      obtain ⟨rfl, _⟩ := Prod.mk.inj (Except.ok.inj ok)
      exact ⟨fun _ => 0, by simp [Expanded.empty, edges]⟩
  | cons item rest ih =>
      unfold expandItems at ok
      obtain ⟨kept, _, ok⟩ := exists_of_bind_eq_ok ok
      cases kept with
      | none => exact ih ok distinct
      | some kept =>
          obtain ⟨⟨first, between⟩, one, ok⟩ := exists_of_bind_eq_ok ok
          obtain ⟨⟨others, last⟩, many, ok⟩ := exists_of_bind_eq_ok ok
          obtain ⟨rfl, rfl⟩ := Prod.mk.inj (Except.ok.inj ok)
          have both := distinct
          rw [Expanded.names_append] at both
          have own := (List.nodup_append.mp both).1
          have rest_ := ih many (List.nodup_append.mp both).2.1
          refine Expanded.acyclic_append (expandInstance_sound sounds shape one).1
            (expandItems_sound sounds shape many).1 distinct ?_ rest_
          rcases expandInstance_ok one with
            ⟨expander, called, template, listed, scope, ok⟩ | ⟨_, rfl⟩
          · exact (deep expander called).2 _ _ _ _ _ _ ok (templates template listed) own
          · exact ⟨fun _ => 0, by simp [buildLeaf, edges]⟩

theorem expandOne_acyclic (ok : expandOne env deeper namePrefix ctx task budget = .ok (expanded, left))
    (distinct : expanded.names.Nodup)
    : Board.Acyclic (edges expanded.tasks) := by
  unfold expandOne at ok
  obtain ⟨_, shape, ok⟩ := exists_of_bind_eq_ok ok
  obtain ⟨items, _, ok⟩ := exists_of_bind_eq_ok ok
  obtain ⟨_, _, ok⟩ := exists_of_bind_eq_ok ok
  exact expandItems_acyclic templates deep shape ok distinct

/-- A list makes no cycle where its tasks make none and its leaves' names differ: a leaf ranks
by its task among the list's, and by itself among the task's leaves.
-/
theorem expandListWith_acyclic
    : (expandListWith env deeper).Acyclic := by
  intro tasks namePrefix ctx budget expanded left ok acyclic distinct
  have sounds : ∀ expander ∈ deeper, expander.Sound :=
    fun expander called => (deep expander called).1
  unfold expandListWith at ok
  obtain ⟨⟨per, last⟩, each, ok⟩ := exists_of_bind_eq_ok ok
  obtain ⟨wired, wiring, ok⟩ := exists_of_bind_eq_ok ok
  obtain ⟨rfl, rfl⟩ := Prod.mk.inj (Except.ok.inj ok)
  obtain ⟨each, _⟩ := expandEach_ok sounds each
  obtain ⟨tasks_, known, _, _⟩ := wireList_ok wiring
  rw [names_wired tasks_, List.nodup_flatMap] at distinct
  obtain ⟨own, apart⟩ := distinct
  have ranks (name : String) : ∃ rank : String → Nat, name ∈ tasks.map TaskSpec.name →
      ∀ edge ∈ edges (per.leavesOf name).tasks, rank edge.2 < rank edge.1 := by
    by_cases listed : name ∈ tasks.map TaskSpec.name
    · obtain ⟨task, member, rfl⟩ := List.mem_map.mp listed
      obtain ⟨_, _, expands⟩ := each.expands task member
      obtain ⟨rank, falls⟩ := expandOne_acyclic templates deep expands (own task member)
      exact ⟨rank, fun _ => falls⟩
    · exact ⟨fun _ => 0, fun member => absurd member listed⟩
  choose rank falls using ranks
  let block (leaf : String) : String :=
    ((tasks.find? (fun task => leaf ∈ (per.leavesOf task.name).names)).map TaskSpec.name).getD ""
  have home {task : TaskSpec} {leaf : String} (listed : task ∈ tasks)
      (among : leaf ∈ (per.leavesOf task.name).names) : block leaf = task.name := by
    cases search : tasks.find? (fun task => leaf ∈ (per.leavesOf task.name).names) with
    | none =>
        have absent := List.find?_eq_none.mp search task listed
        simp [among] at absent
    | some other =>
        have within : leaf ∈ (per.leavesOf other.name).names := by
          simpa using List.find?_some search
        simp only [block, search, Option.map_some, Option.getD_some]
        by_contra different
        have symm : Std.Symm (Function.onFun List.Disjoint
            (fun (task : TaskSpec) => (per.leavesOf task.name).names)) := ⟨fun _ _ apart _ here there => apart there here⟩
        exact apart.forall (List.mem_of_find?_eq_some search) listed
          (fun same => different (congrArg TaskSpec.name same)) within among
  refine .nested acyclic block rank ?_
  intro edge listed
  obtain ⟨leaf, made, dep, needs, rfl⟩ := mem_edges.mp listed
  rw [tasks_] at made
  obtain ⟨task, among, made⟩ := List.mem_flatMap.mp made
  obtain ⟨before, member, rfl⟩ := List.mem_map.mp made
  have wired := wired_wireLeaf per.renamed task (per.leavesOf task.name) (per.exitsOf task.dependsOn) before
  have source : block (wireLeaf per.renamed task (per.leavesOf task.name)
      (per.exitsOf task.dependsOn) before).name = task.name := by
    rw [wired.name]
    exact home among (List.mem_map_of_mem member)
  have sound := each.sound_leavesOf (List.mem_map_of_mem among)
  rcases wired.deps with same | ⟨_, replaced⟩
  · rw [same] at needs
    refine .inr ⟨?_, ?_⟩
    · rw [source]
      exact (home among (sound.known before member dep needs)).symm
    · rw [source, wired.name]
      exact falls task.name (List.mem_map_of_mem among) _ (mem_edges.mpr ⟨before, member, dep, needs, rfl⟩)
  · rw [replaced] at needs
    obtain ⟨name, depends, exit⟩ := List.mem_flatMap.mp needs
    have listed := each.named ▸ known task among name depends
    obtain ⟨other, there, rfl⟩ := List.mem_map.mp listed
    have target := home there ((each.sound_leavesOf listed).exits dep exit)
    refine .inl ?_
    rw [source, target]
    exact mem_edges.mpr ⟨task, among, other.name, depends, rfl⟩

end Acyclic

/-- Lists expand soundly and make no cycle, however deep their calls nest, by induction on the
levels left.
-/
theorem expandList_sound (env : ExpandEnv) (levels : Nat)
    : (expandList env levels).Sound
      ∧ ((∀ template ∈ env.templates, Board.Acyclic (edges template.tasks)) →
        (expandList env levels).Acyclic) := by
  induction levels with
  | zero =>
      refine ⟨expandListWith_sound (by simp), fun templates => ?_⟩
      exact expandListWith_acyclic templates (by simp)
  | succ levels ih =>
      obtain ⟨sound, acyclic⟩ := ih
      refine ⟨expandListWith_sound ?_, fun templates => expandListWith_acyclic templates ?_⟩
      · intro expander called
        obtain rfl := Option.some.inj called
        exact sound
      · intro expander called
        obtain rfl := Option.some.inj called
        exact ⟨sound, acyclic templates⟩

-- Hooks

/-- A task once hooks are wired: as it was, or, where it is a hook, after every task that is
none.
-/
structure Hooked (tasks : List TaskSpec) (own task : TaskSpec) : Prop where
  name
    : task.name = own.name
  hook
    : task.hook = own.hook
  plain
    : own.isLeaf → task.isLeaf
  fanout
    : task.withOutputOf = own.withOutputOf ∧ task.taskType = own.taskType
      ∧ task.gang = own.gang
  deps
    : own.hook = none ∧ task.dependsOn = own.dependsOn
      ∨ own.hook.isSome ∧ ∀ dep ∈ task.dependsOn, dep ∈ plainNames tasks ∧ dep ≠ own.name

theorem wireHook_ok {tasks : List TaskSpec} {own task : TaskSpec}
    (ok : wireHook (plainNames tasks) own = .ok task)
    : Hooked tasks own task := by
  unfold wireHook at ok
  split at ok
  case h_1 none_ =>
    obtain rfl := Except.ok.inj ok
    exact ⟨rfl, rfl, fun plain => plain, ⟨rfl, rfl, rfl⟩, .inl ⟨none_, rfl⟩⟩
  case h_2 hook some_ =>
    obtain ⟨rule, _, ok⟩ := exists_of_bind_eq_ok ok
    obtain rfl := Except.ok.inj ok
    refine ⟨rfl, rfl, fun plain => plain, ⟨rfl, rfl, rfl⟩, .inr ⟨by simp [some_], ?_⟩⟩
    intro dep needs
    obtain ⟨listed, apart⟩ := List.mem_filter.mp needs
    exact ⟨listed, of_decide_eq_true apart⟩

theorem wireHooks_ok {tasks wired : List TaskSpec} (ok : wireHooks tasks = .ok wired)
    : List.Forall₂ (Hooked tasks) tasks wired := by
  have each (owns wired : List TaskSpec) (ok : owns.mapM (wireHook (plainNames tasks)) = .ok wired)
      : List.Forall₂ (Hooked tasks) owns wired := by
    induction owns generalizing wired with
    | nil =>
        obtain rfl := Except.ok.inj ok
        exact .nil
    | cons own rest ih =>
        rw [List.mapM_cons] at ok
        obtain ⟨task, one, ok⟩ := exists_of_bind_eq_ok ok
        obtain ⟨others, many, ok⟩ := exists_of_bind_eq_ok ok
        obtain rfl := Except.ok.inj ok
        exact .cons (wireHook_ok one) (ih others many)
  exact each tasks wired ok

/-- Tasks whose hooks are wired have the names they had; each is made of one of them, and each
of them makes one.
-/
theorem names_hooked {tasks owns wired : List TaskSpec} (hooked : List.Forall₂ (Hooked tasks) owns wired)
    : wired.map TaskSpec.name = owns.map TaskSpec.name
      ∧ (∀ task ∈ wired, ∃ own ∈ owns, Hooked tasks own task)
      ∧ ∀ own ∈ owns, ∃ task ∈ wired, Hooked tasks own task := by
  induction hooked with
  | nil => simp
  | cons one _ ih =>
      obtain ⟨names, made, makes⟩ := ih
      refine ⟨by rw [List.map_cons, List.map_cons, one.name, names], ?_, ?_⟩
      · intro task listed
        rcases List.mem_cons.mp listed with rfl | later
        · exact ⟨_, List.mem_cons_self, one⟩
        · obtain ⟨own, among, hooked⟩ := made task later
          exact ⟨own, List.mem_cons_of_mem _ among, hooked⟩
      · intro own listed
        rcases List.mem_cons.mp listed with rfl | later
        · exact ⟨_, List.mem_cons_self, one⟩
        · obtain ⟨task, among, hooked⟩ := makes own later
          exact ⟨task, List.mem_cons_of_mem _ among, hooked⟩

/-- Wiring hooks makes no cycle where there was none, no task but a hook depends on a hook, and
names differ: a hook ranks above every other task.
-/
theorem acyclic_hooked {tasks wired : List TaskSpec} (hooked : List.Forall₂ (Hooked tasks) tasks wired)
    (distinct : (tasks.map TaskSpec.name).Nodup) (acyclic : Board.Acyclic (edges tasks))
    (plain : ∀ task ∈ wired, task.hook = none → ∀ dep ∈ task.dependsOn, dep ∈ plainNames tasks)
    : Board.Acyclic (edges wired) := by
  obtain ⟨names, made, _⟩ := names_hooked hooked
  let hooks (name : String) : Bool := decide (name ∉ plainNames tasks)
  have ranked : Board.Acyclic [(true, false)] := ⟨Bool.toNat, by simp⟩
  obtain ⟨rank, falls⟩ := acyclic
  refine ranked.nested hooks (fun _ => rank) ?_
  intro edge listed
  obtain ⟨task, member, dep, needs, rfl⟩ := mem_edges.mp listed
  obtain ⟨own, among, hooked⟩ := made task member
  have below {dep : String} (named : dep ∈ plainNames tasks) : hooks dep = false :=
    decide_eq_false (not_not_intro named)
  rcases hooked.deps with ⟨none_, same⟩ | ⟨some_, after⟩
  · have named : own.name ∈ plainNames tasks :=
      List.mem_map_of_mem (List.mem_filter.mpr ⟨among, by simp [none_]⟩)
    have target := plain task member (hooked.hook.trans none_) dep needs
    refine .inr ⟨?_, ?_⟩
    · rw [hooked.name, below named, below target]
    · rw [hooked.name]
      exact falls _ (mem_edges.mpr ⟨own, among, dep, same ▸ needs, rfl⟩)
  · have above : hooks own.name = true := by
      refine decide_eq_true (fun named => ?_)
      obtain ⟨other, listed, same⟩ := List.mem_map.mp named
      obtain ⟨there, none_⟩ := List.mem_filter.mp listed
      obtain rfl := List.inj_on_of_nodup_map distinct there among same
      rw [Option.isNone_iff_eq_none.mp none_] at some_
      cases some_
    refine .inl ?_
    rw [hooked.name, above, below (after dep needs).1]
    exact List.mem_singleton_self _

-- Workflows

/-- Whether each list of tasks that a workflow is written in has no cycle. -/
def DagSpec.AuthoredAcyclic (spec : DagSpec) : Prop :=
  Board.Acyclic (edges spec.tasks)
    ∧ ∀ template ∈ spec.templates, Board.Acyclic (edges template.tasks)

def HooksLast (tasks : List TaskSpec) : Prop :=
  ∀ task ∈ tasks, task.hook = none → ∀ dep ∈ task.dependsOn, ∀ other ∈ tasks,
    other.name = dep → other.hook = none

instance (tasks : List TaskSpec) : Decidable (HooksLast tasks) := by
  unfold HooksLast
  infer_instance

/-- What expanding a workflow does: its lists are expanded, the defaults in their tasks, and
hooks are wired.
-/
theorem expand_ok {host : Externals} {maxTasks : Nat} {spec out : DagSpec}
    (ok : expand host maxTasks spec = .ok out)
    : ∃ applied : TaskSpec → TaskSpec, ∃ templates, ∃ expanded left,
        (∀ task, (applied task).name = task.name ∧ (applied task).dependsOn = task.dependsOn)
        ∧ (∀ template ∈ templates, ∃ own ∈ spec.templates, template.tasks = own.tasks.map applied)
        ∧ expandList ⟨host, templates, maxTasks⟩ maxDepth (spec.tasks.map applied) ""
          spec.parameters maxTasks = .ok (expanded, left)
        ∧ wireHooks expanded.tasks = .ok out.tasks := by
  unfold expand at ok
  obtain ⟨_, _, ok⟩ := exists_of_bind_eq_ok ok
  dsimp only at ok
  obtain ⟨_, _, ok⟩ := exists_of_bind_eq_ok ok
  obtain ⟨⟨expanded, left⟩, lists, ok⟩ := exists_of_bind_eq_ok ok
  obtain ⟨tasks, hooks, ok⟩ := exists_of_bind_eq_ok ok
  obtain rfl := Except.ok.inj ok
  refine ⟨_, _, expanded, left, ?_, ?_, lists, hooks⟩
  · intro task
    cases spec.taskDefaults <;> exact ⟨rfl, rfl⟩
  · intro template listed
    obtain ⟨own, among, rfl⟩ := List.mem_map.mp listed
    exact ⟨own, among, rfl⟩

theorem edges_map {applied : TaskSpec → TaskSpec}
    (keeps : ∀ task, (applied task).name = task.name
      ∧ (applied task).dependsOn = task.dependsOn) (tasks : List TaskSpec)
    : edges (tasks.map applied) = edges tasks := by
  simp only [edges, List.flatMap_map, keeps]

theorem DagGraph.fromSpec_distinct {spec : DagSpec} (fanouts : FanoutsPlain spec.tasks)
    : (spec.tasks.map TaskSpec.name).Nodup
      ∨ ∃ message, DagGraph.fromSpec spec fanouts = .error message := by
  cases ok : DagGraph.fromSpec spec fanouts with
  | error message => exact .inr ⟨message, rfl⟩
  | ok dag =>
      have distinct := dag.wellFormed.distinct
      rw [DagGraph.fromSpec_spec ok, DagSpec.dedupe, List.map_map] at distinct
      exact .inl distinct

/-- Where names differ and no task but a hook depends on a hook, lists without cycles expand to a graph without
cycles.
-/
theorem expand_acyclic {host : Externals} {maxTasks : Nat} {spec out : DagSpec}
    (ok : expand host maxTasks spec = .ok out) (distinct : (out.tasks.map TaskSpec.name).Nodup)
    (last : HooksLast out.tasks) (authored : spec.AuthoredAcyclic)
    : Board.Acyclic (edges out.tasks) := by
  obtain ⟨applied, templates, expanded, left, keeps, own, lists, hooks⟩ := expand_ok ok
  obtain ⟨sounds, acyclic⟩ := expandList_sound ⟨host, templates, maxTasks⟩ maxDepth
  obtain ⟨sound, -⟩ := sounds _ _ _ _ _ _ lists
  have hooked := wireHooks_ok hooks
  obtain ⟨names, made, makes⟩ := names_hooked hooked
  rw [names] at distinct
  refine acyclic_hooked hooked distinct ?_ ?_
  · refine acyclic ?_ _ _ _ _ _ _ lists ?_ distinct
    · intro template listed
      obtain ⟨own, among, same⟩ := own template listed
      rw [same, edges_map keeps]
      exact authored.2 own among
    · rw [edges_map keeps]
      exact authored.1
  · intro task listed none_ dep needs
    obtain ⟨before, among, hooked⟩ := made task listed
    rcases hooked.deps with ⟨_, same⟩ | ⟨some_, _⟩
    · obtain ⟨other, there, rfl⟩ := List.mem_map.mp (sound.known before among dep (same ▸ needs))
      obtain ⟨wired, listed', hooked'⟩ := makes other there
      have plain := last task listed none_ _ needs wired listed' hooked'.name
      refine List.mem_map_of_mem (List.mem_filter.mpr ⟨there, ?_⟩)
      rw [← hooked'.hook, plain]
      rfl
    · rw [← hooked.hook, none_] at some_
      cases some_

/-- What lists without cycles expand to is not refused for a cycle. -/
theorem expand_not_refused {host : Externals} {maxTasks : Nat} {spec out : DagSpec}
    (ok : expand host maxTasks spec = .ok out) (authored : spec.AuthoredAcyclic)
    : ¬ out.dedupe.RefusedForCycle := by
  rintro ⟨-, tasks, deps, cyclic⟩
  have named : out.dedupe.tasks.map TaskSpec.name = out.tasks.map TaskSpec.name := by
    rw [DagSpec.dedupe, List.map_map]
    rfl
  have checked (task : TaskSpec) (there : task ∈ out.dedupe.tasks) (dep : String) (needs : dep ∈ task.dependsOn)
      : dep ∈ out.dedupe.tasks.map TaskSpec.name
        ∧ dep ∉ (out.dedupe.tasks.filter fun other => other.hook.isSome).map TaskSpec.name := by
    have passed := forM_eq_ok.mp (forM_eq_ok.mp deps task there) dep needs
    simpa only [bind_eq_ok, require_eq_ok, decide_eq_true_eq] using passed
  have distinct := (checkTasks_ok tasks).1
  rw [named] at distinct
  have last : HooksLast out.tasks := by
    intro task there _ dep needs other among same
    by_contra hook
    refine (checked task.dedupe (List.mem_map_of_mem there) dep
      (mem_retainFirst.mpr ⟨needs, List.not_mem_nil⟩)).2 ?_
    refine List.mem_map.mpr ⟨other.dedupe, List.mem_filter.mpr ⟨List.mem_map_of_mem among, ?_⟩, same⟩
    exact Option.isSome_iff_ne_none.mpr hook
  have acyclic : Board.Acyclic (edges out.dedupe.tasks) := by
    refine (expand_acyclic ok distinct last authored).subset fun edge listed => ?_
    obtain ⟨task, there, dep, needs, rfl⟩ := mem_edges.mp listed
    obtain ⟨own, among, rfl⟩ := List.mem_map.mp there
    exact mem_edges.mpr ⟨own, among, dep, (mem_retainFirst.mp needs).1, rfl⟩
  rw [not_isCyclic_of_acyclic (fun task there dep needs => (checked task there dep needs).1) acyclic] at cyclic
  cases cyclic

/-- What a workflow expands to has leaves only, no more than a run may have, which depend on
one another; their names differ, or no graph is made of them; and where they differ and no task
but a hook depends on a hook, lists without cycles expand to a graph without cycles, in which
no task depends on itself.
-/
theorem expand_sound {host : Externals} {maxTasks : Nat} {spec out : DagSpec}
    (ok : expand host maxTasks spec = .ok out)
    : (∀ task ∈ out.tasks, task.isLeaf)
      ∧ out.tasks.length ≤ maxTasks
      ∧ (∀ task ∈ out.tasks, ∀ dep ∈ task.dependsOn, dep ∈ out.tasks.map TaskSpec.name)
      ∧ (∃ fanouts : FanoutsPlain out.tasks, (out.tasks.map TaskSpec.name).Nodup
        ∨ ∃ message, DagGraph.fromSpec out fanouts = .error message)
      ∧ ((out.tasks.map TaskSpec.name).Nodup → HooksLast out.tasks → spec.AuthoredAcyclic →
        Board.Acyclic (edges out.tasks)
          ∧ ∀ task ∈ out.tasks, task.name ∉ task.dependsOn) := by
  obtain ⟨applied, templates, expanded, left, keeps, own, lists, hooks⟩ := expand_ok ok
  obtain ⟨sounds, acyclic⟩ := expandList_sound ⟨host, templates, maxTasks⟩ maxDepth
  obtain ⟨sound, paid⟩ := sounds _ _ _ _ _ _ lists
  have hooked := wireHooks_ok hooks
  obtain ⟨names, made, makes⟩ := names_hooked hooked
  have fanouts : FanoutsPlain out.tasks := by
    intro task listed fans
    obtain ⟨before, among, hooked⟩ := made task listed
    obtain ⟨fanout, kind, gang⟩ := hooked.fanout
    rw [kind, gang]
    exact sound.fanouts before among (fanout ▸ fans)
  have known (task : TaskSpec) (listed : task ∈ out.tasks) (dep : String)
      (needs : dep ∈ task.dependsOn) : dep ∈ out.tasks.map TaskSpec.name := by
    rw [names]
    obtain ⟨before, among, hooked⟩ := made task listed
    rcases hooked.deps with ⟨_, same⟩ | ⟨_, after⟩
    · exact sound.known before among dep (same ▸ needs)
    · exact List.map_subset _ (List.filter_subset_self _) (after dep needs).1
  refine ⟨?_, ?_, known, ⟨fanouts, DagGraph.fromSpec_distinct fanouts⟩, ?_⟩
  · intro task listed
    obtain ⟨before, among, hooked⟩ := made task listed
    exact hooked.plain (sound.leaves before among)
  · rw [← hooked.length_eq]
    omega
  · intro distinct last authored
    have graph := expand_acyclic ok distinct last authored
    refine ⟨graph, fun task listed needs => ?_⟩
    obtain ⟨rank, falls⟩ := graph
    exact absurd (falls _ (mem_edges.mpr ⟨task, listed, task.name, needs, rfl⟩)) (lt_irrefl _)

/-- A start gate, then for each of two items a call of a template of two gates in turn. -/
def fannedSpec : DagSpec where
  name := "fanned"
  templates := [{ name := "each", tasks := [
    { name := "gate", taskType := some "approval" },
    { name := "done", taskType := some "approval", dependsOn := ["gate"] }] }]
  tasks := [
    { name := "start", taskType := some "approval" },
    { name := "each", template := some "each", dependsOn := ["start"],
      withItems := some [.null, .null] }]

/-- Instances of calls expand to a graph without cycles. -/
theorem expand_sound_fannedSpec
    : ∃ out, expand plainHost 10 fannedSpec = .ok out
      ∧ edges out.tasks = [("each.0.gate", "start"), ("each.0.done", "each.0.gate"),
        ("each.1.gate", "start"), ("each.1.done", "each.1.gate")]
      ∧ Board.Acyclic (edges out.tasks) := by
  have result : (expand plainHost 10 fannedSpec).toOption.map (fun out =>
      (edges out.tasks, decide (out.tasks.map TaskSpec.name).Nodup, decide (HooksLast out.tasks)))
      = some ([("each.0.gate", "start"), ("each.0.done", "each.0.gate"),
        ("each.1.gate", "start"), ("each.1.done", "each.1.gate")], true, true) := by
    decide
  cases ok : expand plainHost 10 fannedSpec with
  | error message =>
      rw [ok] at result
      cases result
  | ok out =>
      rw [ok] at result
      simp only [Except.toOption, Option.map_some, Option.some.injEq, Prod.mk.injEq,
        decide_eq_true_eq] at result
      obtain ⟨edges, distinct, last⟩ := result
      have authored : fannedSpec.AuthoredAcyclic := by
        refine ⟨⟨fun name => if name = "each" then 1 else 0, by decide⟩, ?_⟩
        intro template listed
        obtain rfl := List.mem_singleton.mp listed
        exact ⟨fun name => if name = "done" then 1 else 0, by decide⟩
      exact ⟨out, rfl, edges, ((expand_sound ok).2.2.2.2 distinct last authored).1⟩

def notifiedSpec : DagSpec where
  name := "notified"
  tasks := [
    { name := "notify", taskType := some "approval", hook := some "on_exit" },
    { name := "report", taskType := some "approval", dependsOn := ["notify"] }]

/-- A task that depends on a hook makes a cycle of lists that have none, which expansion leaves
to the graph to refuse.
-/
theorem not_expand_sound
    : ¬ ∀ (host : Externals) (maxTasks : Nat) (spec out : DagSpec),
        expand host maxTasks spec = .ok out →
          (∀ task ∈ out.tasks, task.isLeaf)
          ∧ ((out.tasks.map TaskSpec.name).Nodup
            ∨ ∃ fanouts message, DagGraph.fromSpec out fanouts = .error message)
          ∧ (∀ task ∈ out.tasks, ∀ dep ∈ task.dependsOn, dep ∈ out.tasks.map TaskSpec.name)
          ∧ (∀ task ∈ out.tasks, task.name ∉ task.dependsOn)
          ∧ (spec.AuthoredAcyclic → Board.Acyclic (edges out.tasks))
          ∧ out.tasks.length ≤ maxTasks := by
  intro claim
  have result : (expand plainHost 10 notifiedSpec).toOption.map (fun out => edges out.tasks)
      = some [("notify", "report"), ("report", "notify")] := by
    decide
  cases ok : expand plainHost 10 notifiedSpec with
  | error message =>
      rw [ok] at result
      cases result
  | ok out =>
      rw [ok] at result
      have circle : edges out.tasks = [("notify", "report"), ("report", "notify")] :=
        Option.some.inj result
      have authored : notifiedSpec.AuthoredAcyclic :=
        ⟨⟨fun name => if name = "report" then 1 else 0, by decide⟩, by simp [notifiedSpec]⟩
      obtain ⟨rank, falls⟩ := (claim _ _ _ _ ok).2.2.2.2.1 authored
      rw [circle] at falls
      have first := falls ("notify", "report") (by decide)
      have second := falls ("report", "notify") (by decide)
      exact absurd (first.trans second) (lt_irrefl _)

end Dagron.Spec
