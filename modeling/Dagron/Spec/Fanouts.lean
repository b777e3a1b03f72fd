import Dagron.Spec.Expansion
import Dagron.Spec.Placeholders

/-! A runtime fan-out against the one its list would have made when the workflow expanded: the
instances of the one, which are filled in twice, are those of the other, which are filled in once,
where the two scopes take turns.
-/

namespace Dagron.Spec

open Dagron.Library

-- Instances

/-- What a run view shows of an instance. -/
structure InstanceView where
  name
    : String
  command
    : List String
  env
    : List EnvVar
  arguments
    : Bindings

def TaskSpec.view (leaf : TaskSpec) : InstanceView :=
  ⟨leaf.name, leaf.command, leaf.env, leaf.arguments⟩

/-- The instances that were made, none where making them failed. -/
def instancesOf (made : Except String (List TaskSpec)) : List InstanceView :=
  (made.toOption.getD []).map TaskSpec.view

/-- The scope of an instance: a surrounding scope, the item and its index. -/
def itemScope (host : Externals) (ctx : Bindings) (index : Nat) (item : Json) : Bindings :=
  (bindItem host ctx item).insert "index" (toString index)

/-- A task that fans out over what another prints, as it is with the list written under
`with_items:`.
-/
def TaskSpec.listed (task : TaskSpec) (items : List Json) : TaskSpec :=
  { task with
    withItems := some items
    withOutputOf := none }

/-- An instance whose parameters and item take turns: no text of it is filled in from both at one
placeholder, or twice over; its label needs no parameter; and the task's condition keeps it.
-/
structure TakesTurns (host : Externals) (ctx : Bindings) (task : TaskSpec) (index : Nat)
    (item : Json) : Prop where
  texts
    : ∀ text ∈ task.command ++ task.env.map EnvVar.value,
        InTurns host ctx (itemScope host [] index item) (itemScope host ctx index item) text
  label
    : ∀ label ∈ task.instanceKey, ∀ key, .placeholder key ∈ pieces label.toList →
        lookup host (itemScope host ctx index item) key
          = lookup host (itemScope host [] index item) key
  kept
    : ∃ runtimeWhen, guardOf host task (itemScope host ctx index item) = .ok (.keep runtimeWhen)

-- The barrier

section Barrier

variable {env : ExpandEnv} {deeper : Option Expander} {namePrefix : String} {ctx : Bindings}
  {task barrier : TaskSpec} {budget left : Nat} {expanded : Expanded}

theorem checkShape_runtime (ok : checkShape task = .ok ()) (fans : task.withOutputOf.isSome)
    : task.withItems = none ∧ task.withParam = none ∧ task.template = none
      ∧ task.isWorkflow = false := by
  simp only [checkShape, checkFanout, checkRuntimeFanout, fans, if_true, bind_eq_ok,
    require_eq_ok, decide_eq_true_eq, Bool.not_eq_true', Bool.or_eq_false_iff,
    Option.isSome_eq_false_iff, Option.isNone_iff_eq_none] at ok
  obtain ⟨_, _, _, ⟨⟨items, param⟩, template, _, kind⟩, _⟩ := ok
  refine ⟨items, param, template, ?_⟩
  unfold TaskSpec.isWorkflow
  rcases kind with kind | kind <;> rw [kind] <;> rfl

theorem expandInstance_plain (template : task.template = none) (base : String) (runtimeWhen : Option String)
    : expandInstance env deeper task base ctx runtimeWhen (left + 1)
      = .ok (⟨[base], [base], [buildLeaf env.host task base ctx runtimeWhen]⟩, left) := by
  simp only [expandInstance, template, Option.isSome_none, Bool.false_eq_true, if_false]

/-- What a runtime fan-out expands to is the one leaf that parks, unless its condition drops it. -/
theorem expandOne_barrier (fans : task.withOutputOf.isSome)
    (ok : expandOne env deeper namePrefix ctx task budget = .ok (expanded, left))
    (among : barrier ∈ expanded.tasks)
    : checkShape task = .ok () ∧ barrier.name ∈ expanded.roots
      ∧ ∃ runtimeWhen, barrier = buildLeaf env.host task (namePrefix ++ task.name) ctx runtimeWhen := by
  unfold expandOne at ok
  obtain ⟨_, shape, ok⟩ := exists_of_bind_eq_ok ok
  refine ⟨shape, ?_⟩
  obtain ⟨items_, param, template, _⟩ := checkShape_runtime shape fans
  obtain ⟨items, resolved, ok⟩ := exists_of_bind_eq_ok ok
  obtain ⟨_, _, ok⟩ := exists_of_bind_eq_ok ok
  rw [resolveItems, items_, param] at resolved
  cases resolved
  unfold expandItems at ok
  obtain ⟨kept, kept_, ok⟩ := exists_of_bind_eq_ok ok
  cases kept with
  | none =>
      cases ok
      cases among
  | some kept =>
      obtain ⟨⟨first, between⟩, one, ok⟩ := exists_of_bind_eq_ok ok
      obtain ⟨⟨others, last⟩, none_, ok⟩ := exists_of_bind_eq_ok ok
      cases none_
      cases ok
      have alone : kept.base = namePrefix ++ task.name ∧ kept.scope = ctx := by
        unfold keptItem at kept_
        obtain ⟨guard, _, kept_⟩ := exists_of_bind_eq_ok kept_
        cases guard with
        | drop => cases kept_
        | keep runtimeWhen =>
            simp only [items_, param, Option.isSome_none, Bool.false_eq_true, or_self, if_false] at kept_
            cases kept_
            exact ⟨rfl, rfl⟩
      cases budget with
      | zero =>
          simp only [expandInstance, template, Option.isSome_none, Bool.false_eq_true, if_false] at one
          cases one
      | succ budget =>
          rw [expandInstance_plain template] at one
          cases one
          obtain rfl := List.mem_singleton.mp among
          exact ⟨.head _, kept.runtimeWhen, by rw [alone.1, alone.2]⟩

end Barrier

-- One instance

section Instance

variable {env : ExpandEnv} {deeper : Option Expander} {namePrefix : String} {ctx : Bindings}
  {task : TaskSpec} {items : List Json} {runtimeWhen : Option String} {index : Nat} {item : Json}
  {seen : List String}

/-- A text without a placeholder that a parameter has a say in is filled in without parameters. -/
theorem substitute_congr {host : Externals} {first second : Bindings} {text : String}
    (same : ∀ key, .placeholder key ∈ pieces text.toList → lookup host first key = lookup host second key)
    : substitute host text first = substitute host text second := by
  refine String.toList_inj.mp ?_
  rw [substitute_eq, substitute_eq, List.flatMap_def, List.flatMap_def]
  refine congrArg List.flatten (List.map_congr_left fun piece among => ?_)
  cases piece with
  | letter char => rfl
  | placeholder key => rw [Piece.fill, Piece.fill, same key among]

theorem label_runtime (fans : task.withOutputOf.isSome) (turns : TakesTurns env.host ctx task index item)
    : (instanceLabel env.host (buildLeaf env.host task (namePrefix ++ task.name) ctx runtimeWhen)
          index (itemScope env.host [] index item) seen).toOption
      = (instanceLabel env.host (task.listed items) index (itemScope env.host ctx index item)
          seen).toOption := by
  have kept : (buildLeaf env.host task (namePrefix ++ task.name) ctx runtimeWhen).instanceKey
      = task.instanceKey := if_pos fans
  have listed : (task.listed items).instanceKey = task.instanceKey := rfl
  unfold instanceLabel
  rw [kept, listed]
  cases key : task.instanceKey with
  | none => rfl
  | some label =>
      dsimp only
      rw [substitute_congr (turns.label label key)]
      split_ifs <;> rfl

theorem view_buildLeaf {host : Externals} {leaf : TaskSpec} (kind : leaf.isWorkflow = false)
    (name : String) (scope : Bindings)
    : (buildLeaf host leaf name scope runtimeWhen).view
      = ⟨name, leaf.command.map (substitute host · scope),
          leaf.env.map (fun var => { var with value := substitute host var.value scope }),
          leaf.arguments⟩ := by
  simp only [TaskSpec.view, buildLeaf, kind, Bool.false_eq_true, if_false]

theorem view_runtime (kind : task.isWorkflow = false)
    (turns : TakesTurns env.host ctx task index item) (name : String)
    (runtimeWhen' : Option String)
    : (buildLeaf env.host (buildLeaf env.host task (namePrefix ++ task.name) ctx runtimeWhen) name
          (itemScope env.host [] index item) none).view
      = (buildLeaf env.host (task.listed items) name (itemScope env.host ctx index item)
          runtimeWhen').view := by
  have texts (text : String) (among : text ∈ task.command ++ task.env.map EnvVar.value)
      : substitute env.host (substitute env.host text ctx) (itemScope env.host [] index item)
        = substitute env.host text (itemScope env.host ctx index item) :=
    substitute_substitute (turns.texts text among)
  have command : (task.command.map (substitute env.host · ctx)).map
        (substitute env.host · (itemScope env.host [] index item))
      = task.command.map (substitute env.host · (itemScope env.host ctx index item)) := by
    rw [List.map_map]
    exact List.map_congr_left fun text among => texts text (List.mem_append_left _ among)
  have vars : (task.env.map (fun var =>
        { var with value := substitute env.host var.value ctx })).map (fun var =>
          { var with value := substitute env.host var.value (itemScope env.host [] index item) })
      = task.env.map (fun var =>
          { var with value := substitute env.host var.value (itemScope env.host ctx index item) }) := by
    rw [List.map_map]
    refine List.map_congr_left fun var among => ?_
    have filled := texts var.value (List.mem_append_right _ (List.mem_map_of_mem among))
    simp only [Function.comp_apply, filled]
  have kind' : (buildLeaf env.host task (namePrefix ++ task.name) ctx runtimeWhen).isWorkflow = false :=
    kind
  have kind'' : (task.listed items).isWorkflow = false := kind
  have once : (buildLeaf env.host task (namePrefix ++ task.name) ctx runtimeWhen).arguments
      = task.arguments := by
    simp only [buildLeaf, kind, Bool.false_eq_true, if_false]
  rw [view_buildLeaf kind', view_buildLeaf kind'', once]
  exact congrArg₂ (fun command env => InstanceView.mk name command env task.arguments) command vars

end Instance

-- All instances

section Instances

variable {env : ExpandEnv} {deeper : Option Expander} {namePrefix : String} {ctx : Bindings}
  {task barrier : TaskSpec} {all items : List Json} {runtimeWhen : Option String} {index : Nat}
  {seen : List String} {budget : Nat}

theorem fanoutLeaves_cons (host : Externals) (barrier : TaskSpec) (item : Json) (rest : List Json)
    : (fanoutLeaves host barrier index seen (item :: rest)).toOption
      = (instanceLabel host barrier index (itemScope host [] index item) seen).toOption.bind
          fun label => (fanoutLeaves host barrier (index + 1) (label :: seen) rest).toOption.map
            fun leaves => { buildLeaf host barrier (barrier.name ++ "." ++ label)
              (itemScope host [] index item) none with
                withOutputOf := none
                instanceKey := none } :: leaves := by
  rw [fanoutLeaves, toOption_bind]
  refine Option.bind_congr fun label _ => ?_
  rw [toOption_bind]
  cases fanoutLeaves host barrier (index + 1) (label :: seen) rest <;> rfl

/-- The instances of a list that is written with its task, from one of its items on that the
task's condition keeps.
-/
theorem expandItems_listed (template : task.template = none) {item : Json} {rest : List (Option Json)}
    (kept : guardOf env.host task (itemScope env.host ctx index item) = .ok (.keep runtimeWhen))
    : (expandItems env deeper namePrefix ctx (task.listed all) index seen (some item :: rest)
          (budget + 1)).toOption
      = (instanceLabel env.host (task.listed all) index (itemScope env.host ctx index item)
          seen).toOption.bind fun label =>
            (expandItems env deeper namePrefix ctx (task.listed all) (index + 1) (label :: seen) rest
              budget).toOption.map fun made =>
                let base := namePrefix ++ task.name ++ "." ++ label
                (Expanded.append ⟨[base], [base], [buildLeaf env.host (task.listed all) base
                  (itemScope env.host ctx index item) runtimeWhen]⟩ made.1, made.2) := by
  have keeps : guardOf env.host (task.listed all) (itemScope env.host ctx index item)
      = .ok (.keep runtimeWhen) := kept
  have item_ : keptItem env.host namePrefix ctx (task.listed all) index seen (some item)
      = (instanceLabel env.host (task.listed all) index (itemScope env.host ctx index item) seen) >>=
          fun label => .ok (some ⟨itemScope env.host ctx index item,
            namePrefix ++ task.name ++ "." ++ label, label :: seen, runtimeWhen⟩) := by
    unfold keptItem
    dsimp only
    rw [← itemScope, keeps]
    rfl
  rw [expandItems, toOption_bind, item_, toOption_bind, Option.bind_assoc]
  refine Option.bind_congr fun label _ => ?_
  have template' : (task.listed all).template = none := template
  have one := @expandInstance_plain env deeper (itemScope env.host ctx index item)
    (task.listed all) budget template' (namePrefix ++ task.name ++ "." ++ label) runtimeWhen
  have first {value : Option Kept} : (Except.ok value : Except String _).toOption = some value := rfl
  rw [first, Option.bind_some]
  dsimp only
  rw [one, toOption_bind]
  change Option.bind (some _) _ = _
  rw [Option.bind_some, toOption_bind]
  cases expandItems env deeper namePrefix ctx (task.listed all) (index + 1) (label :: seen) rest
    budget <;> rfl

theorem instances_agree (fans : task.withOutputOf.isSome) (shape : checkShape task = .ok ())
    (made : barrier = buildLeaf env.host task (namePrefix ++ task.name) ctx runtimeWhen)
    (room : items.length ≤ budget)
    (turns : ∀ entry ∈ items.zipIdx index, TakesTurns env.host ctx task entry.2 entry.1)
    : (fanoutLeaves env.host barrier index seen items).toOption.map (List.map TaskSpec.view)
      = (expandItems env deeper namePrefix ctx (task.listed all) index seen (items.map some)
          budget).toOption.map (fun made => made.1.tasks.map TaskSpec.view) := by
  obtain ⟨_, _, template, kind⟩ := checkShape_runtime shape fans
  induction items generalizing index seen budget with
  | nil => rfl
  | cons item rest ih =>
      obtain ⟨left, rfl⟩ : ∃ left, budget = left + 1 := ⟨budget - 1, by rw [List.length_cons] at room; omega⟩
      rw [List.zipIdx_cons, List.forall_mem_cons] at turns
      obtain ⟨turn, turns⟩ := turns
      replace turn : TakesTurns env.host ctx task index item := turn
      obtain ⟨runtimeWhen', kept⟩ := turn.kept
      rw [fanoutLeaves_cons, List.map_cons, expandItems_listed template kept, made,
        label_runtime fans turn, Option.map_bind, Option.map_bind]
      refine Option.bind_congr fun label _ => ?_
      have later := @ih (index + 1) (label :: seen) left (Nat.le_of_succ_le_succ room) turns
      rw [made] at later
      have view := @view_runtime env namePrefix ctx task all runtimeWhen index item kind turn
        (namePrefix ++ task.name ++ "." ++ label) runtimeWhen'
      simp only [Function.comp_apply, Option.map_map]
      cases leaves : (fanoutLeaves env.host (buildLeaf env.host task (namePrefix ++ task.name) ctx
          runtimeWhen) (index + 1) (label :: seen) rest).toOption with
      | none =>
          rw [leaves, Option.map_none, eq_comm, Option.map_eq_none_iff] at later
          rw [later, Option.map_none, Option.map_none]
      | some leaves_ =>
          rw [leaves, Option.map_some, eq_comm, Option.map_eq_some_iff] at later
          obtain ⟨expanded, expands, later⟩ := later
          rw [expands, Option.map_some, Option.map_some]
          exact congrArg some (congrArg₂ List.cons view later.symm)

theorem checkShape_listed (fans : task.withOutputOf.isSome) (shape : checkShape task = .ok ())
    : checkShape (task.listed items) = .ok () := by
  obtain ⟨_, param, _, _⟩ := checkShape_runtime shape fans
  unfold checkShape at shape ⊢
  obtain ⟨command, shape⟩ := bind_eq_ok.mp shape
  obtain ⟨call, _⟩ := bind_eq_ok.mp shape
  refine bind_eq_ok.mpr ⟨command, bind_eq_ok.mpr ⟨call, ?_⟩⟩
  unfold checkFanout TaskSpec.listed
  simp [param, bind_eq_ok, require_eq_ok]

theorem expandOne_listed (fans : task.withOutputOf.isSome) (shape : checkShape task = .ok ())
    : (expandOne env deeper namePrefix ctx (task.listed items) budget).toOption
      = if items = [] then none
        else (expandItems env deeper namePrefix ctx (task.listed items) 0 [] (items.map some)
          budget).toOption := by
  unfold expandOne
  rw [checkShape_listed fans shape]
  cases items with
  | nil => rfl
  | cons item rest => rfl

/-- A runtime fan-out makes the instances that its list would have made under `with_items:`, where
the parameters and each item take turns and the run has room for them.
-/
theorem fanouts_agree {producers : List (String × String)} {left room : Nat} {expanded : Expanded}
    (fans : task.withOutputOf.isSome)
    (expands : expandOne env deeper namePrefix ctx task budget = .ok (expanded, left))
    (parks : barrier ∈ expanded.tasks)
    (printed : producedItems env.host barrier producers = .ok items)
    (seats : items.length ≤ room)
    (turns : ∀ entry ∈ items.zipIdx, TakesTurns env.host ctx task entry.2 entry.1)
    : instancesOf (fanoutInstances env.host barrier producers)
      = instancesOf ((expandOne env deeper namePrefix ctx (task.listed items) room).map
          (fun made => made.1.tasks)) := by
  obtain ⟨shape, _, runtimeWhen, made⟩ := expandOne_barrier fans expands parks
  have agree := @instances_agree env deeper namePrefix ctx task barrier items items runtimeWhen 0 []
    room fans shape made seats turns
  have both {Value : Type} (made : Except String Value) (leaves : Value → List TaskSpec)
      : instancesOf (made.map leaves)
        = (made.toOption.map (fun made => (leaves made).map TaskSpec.view)).getD [] := by
    cases made <;> rfl
  have first := both (fanoutLeaves env.host barrier 0 [] items) id
  unfold fanoutInstances
  rw [printed, both, expandOne_listed fans shape]
  change instancesOf (fanoutLeaves env.host barrier 0 [] items) = _
  split_ifs with none_
  · rw [none_]
    rfl
  · rw [← agree]
    exact (congrArg instancesOf (Except.map_id ▸ rfl)).trans first

end Instances

def regionsHost : Externals :=
  { plainHost with parseJson := fun _ => .ok (.array [.string "eu", .string "us"]) }

/-- A task for each region that is printed, labelled as it says. -/
def deployment (label : String) : TaskSpec where
  name := "deploy"
  command := ["deploy", "\x7b\x7b item \x7d\x7d"]
  withOutputOf := some "regions"
  instanceKey := some label

def parkedDeployment (label : String) : TaskSpec :=
  buildLeaf regionsHost (deployment label) "deploy" [("stage", "prod")] none

/-- A label of the item alone is the same both ways. -/
theorem fanouts_agree_regions
    : instancesOf (fanoutInstances regionsHost (parkedDeployment "\x7b\x7b item \x7d\x7d")
          [("regions", "[..]")])
      = instancesOf ((expandOne ⟨regionsHost, [], 9⟩ none "" [("stage", "prod")]
          ((deployment "\x7b\x7b item \x7d\x7d").listed [.string "eu", .string "us"]) 9).map
            (fun made => made.1.tasks)) := by
  have item : pieces "\x7b\x7b item \x7d\x7d".toList = [.placeholder " item ".toList] := rfl
  have other : pieces "deploy".toList = "deploy".toList.map .letter := rfl
  refine @fanouts_agree ⟨regionsHost, [], 9⟩ none "" [("stage", "prod")] _
    (parkedDeployment "\x7b\x7b item \x7d\x7d") _ 9 _ 8 9 _ rfl rfl (.head _) rfl (by decide) ?_
  intro entry among
  refine ⟨?_, ?_, none, rfl⟩
  · intro text written key placed
    rcases List.mem_cons.mp written with rfl | written
    · rw [other] at placed
      simp at placed
    · obtain rfl := List.mem_singleton.mp written
      rw [item] at placed
      cases List.mem_singleton.mp placed
      rcases List.mem_cons.mp among with rfl | among
      · exact rfl
      · obtain rfl := List.mem_singleton.mp among
        exact rfl
  · intro label is key placed
    cases is
    rw [item] at placed
    cases List.mem_singleton.mp placed
    rcases List.mem_cons.mp among with rfl | among
    · exact rfl
    · obtain rfl := List.mem_singleton.mp among
      exact rfl

/-- A label that names a parameter loses it: the runtime fan-out knows the item alone. -/
theorem not_fanouts_agree
    : ¬ ∀ (env : ExpandEnv) (deeper : Option Expander) (namePrefix : String) (ctx : Bindings)
        (task barrier : TaskSpec) (budget left room : Nat) (expanded : Expanded)
        (producers : List (String × String)) (items : List Json),
        task.withOutputOf.isSome →
          expandOne env deeper namePrefix ctx task budget = .ok (expanded, left) →
            barrier ∈ expanded.tasks → producedItems env.host barrier producers = .ok items →
              items.length ≤ room →
                instancesOf (fanoutInstances env.host barrier producers)
                  = instancesOf ((expandOne env deeper namePrefix ctx (task.listed items) room).map
                      (fun made => made.1.tasks)) := by
  intro agree
  let label := "\x7b\x7b stage \x7d\x7d-\x7b\x7b item \x7d\x7d"
  have same := agree ⟨regionsHost, [], 9⟩ none "" [("stage", "prod")] (deployment label)
    (parkedDeployment label) 9 8 9 _ [("regions", "[..]")] [.string "eu", .string "us"] rfl rfl
    (.head _) rfl (by decide)
  have names := congrArg (List.map InstanceView.name) same
  revert names
  decide

end Dagron.Spec
