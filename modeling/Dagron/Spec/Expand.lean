import Dagron.Spec.Graph

/-! Template expansion: a workflow that calls templates, fans tasks out and guards them with
conditions becomes a flat list of leaf tasks, its dependencies rewired through the boundary
tasks of what each authored task became.
-/

namespace Dagron.Spec

def maxDepth : Nat :=
  64

/-- What one task, or a list of tasks, expands to: the leaf tasks, and the names of those that
depend on nothing inside and of those nothing inside depends on.
-/
structure Expanded where
  roots
    : List String
  exits
    : List String
  tasks
    : List TaskSpec

def Expanded.empty : Expanded :=
  ⟨[], [], []⟩

def Expanded.append (first second : Expanded) : Expanded where
  roots := first.roots ++ second.roots
  exits := first.exits ++ second.exits
  tasks := first.tasks ++ second.tasks

-- Leaves

def plain (host : Externals) : Json → String
  | .string text => text
  | .number text => text
  | .bool value => toString value
  | .null => ""
  | other => host.renderJson other

/-- Binds `item`, and `item.key` for each field of an object. -/
def bindItem (host : Externals) (ctx : Bindings) (item : Json) : Bindings :=
  let ctx := ctx.insert "item" (plain host item)
  match item with
  | .object fields =>
      fields.foldl (fun ctx (key, value) => ctx.insert ("item." ++ key) (plain host value)) ctx
  | _ => ctx

def isLabelChar (char : Char) : Bool :=
  ('a' ≤ char && char ≤ 'z') || ('A' ≤ char && char ≤ 'Z') || ('0' ≤ char && char ≤ '9')
    || char == '_' || char == '-'

/-- The characters a label keeps, up to (room), each run of others as one dash; (dashed) says
whether the last character kept stands for such a run.
-/
def labelChars : Nat → Bool → List Char → List Char
  | 0, _, _ => []
  | _, _, [] => []
  | room + 1, dashed, char :: rest =>
      if isLabelChar char then char :: labelChars room false rest
      else if dashed then labelChars (room + 1) true rest
      else '-' :: labelChars room true rest

/-- A rendered instance label, kept to the characters of a name and without dashes at its
ends.
-/
def sanitizeLabel (raw : String) : String :=
  let isDash (char : Char) : Bool := char == '-'
  let chars := (labelChars 64 false raw.toList).dropWhile isDash
  String.ofList (chars.reverse.dropWhile isDash).reverse

/-- A leaf task with its text fields substituted; (runtimeWhen) is the part of its condition
left for when it becomes ready.
-/
def buildLeaf (host : Externals) (task : TaskSpec) (name : String) (ctx : Bindings)
    (runtimeWhen : Option String) : TaskSpec :=
  let sub (text : String) : String := substitute host text ctx
  { task with
    name := name
    command := task.command.map sub
    dependsOn := []
    wait := task.wait.map fun wait =>
      { waitFor := wait.waitFor.map sub
        untilTime := wait.untilTime.map sub
        url := wait.url.map sub
        dataset := wait.dataset.map sub }
    approvalMessage := task.approvalMessage.map sub
    approvalShow := task.approvalShow.map sub
    binds := task.binds.map sub
    approvers := task.approvers.map sub
    dockerImage := task.dockerImage.map sub
    env := task.env.map (fun var => { var with value := sub var.value })
    serviceAccount := task.serviceAccount.map sub
    runnerClass := task.runnerClass.map sub
    cache := task.cache.map (fun cache => { cache with key := sub cache.key })
    repeatSpec := task.repeatSpec.map (fun loop => { loop with untilCond := sub loop.untilCond })
    defer := task.defer.map fun deferral =>
      { deferral with kind := sub deferral.kind, connection := deferral.connection.map sub }
    gangMember := none
    produces := task.produces.map sub
    template := none
    arguments :=
      if task.isWorkflow then task.arguments.map (fun (key, value) => (key, sub value))
      else task.arguments
    withItems := none
    withParam := none
    when := runtimeWhen
    instanceKey := if task.withOutputOf.isSome then task.instanceKey else none }

/-- The label of one instance of a fan-out: its index, or its rendered key, which may be
neither empty nor taken.
-/
def instanceLabel (host : Externals) (task : TaskSpec) (index : Nat) (ctx : Bindings)
    (seen : List String) : Except String String :=
  match task.instanceKey with
  | none => .ok (toString index)
  | some key =>
      let label := sanitizeLabel (substitute host key ctx)
      if label.isEmpty then
        .error ("task '" ++ task.name ++ "' instance_key '" ++ key
          ++ "' rendered empty for item " ++ toString index
          ++ " (after sanitizing to [A-Za-z0-9_.-])")
      else if label ∈ seen then
        .error ("task '" ++ task.name ++ "' instance_key '" ++ key
          ++ "' rendered duplicate label '" ++ label
          ++ "' — labels must be unique within the fan-out")
      else .ok label

-- Runtime fan-out

/-- The items a runtime fan-out's producers printed, one array after another; an empty output
adds none.
-/
def producedItems (host : Externals) (barrier : TaskSpec)
    : List (String × String) → Except String (List Json)
  | [] => .ok []
  | (row, output) :: rest => do
      let raw := String.ofList (trim output.toList)
      if raw.isEmpty then producedItems host barrier rest
      else
        let fansOut := "task '" ++ barrier.name ++ "' fans out over '" ++ row
          ++ "' output, which is "
        match host.parseJson raw with
        | .error problem => .error (fansOut ++ "not valid JSON: " ++ problem)
        | .ok (.array items) => return items ++ (← producedItems host barrier rest)
        | .ok other => .error (fansOut ++ other.kind ++ " rather than a JSON array")

/-- One instance for each item, named under the barrier, each an ordinary task. -/
def fanoutLeaves (host : Externals) (barrier : TaskSpec)
    : Nat → List String → List Json → Except String (List TaskSpec)
  | _, _, [] => .ok []
  | index, seen, item :: rest => do
      let ctx := (bindItem host [] item).insert "index" (toString index)
      let label ← instanceLabel host barrier index ctx seen
      let leaf := buildLeaf host barrier (barrier.name ++ "." ++ label) ctx none
      let leaf := { leaf with withOutputOf := none, instanceKey := none }
      return leaf :: (← fanoutLeaves host barrier (index + 1) (label :: seen) rest)

/-- The instances a parked fan-out resolves to from its producers' output, each producer a
row's name and what it printed.
-/
def fanoutInstances (host : Externals) (barrier : TaskSpec) (producers : List (String × String))
    : Except String (List TaskSpec) := do
  fanoutLeaves host barrier 0 [] (← producedItems host barrier producers)

-- Checks before a task expands

def refuseOnCall (task : TaskSpec) (key why : String) (set : Bool) : Except String Unit :=
  require (!(task.template.isSome && set))
    (task.named ++ " cannot set `" ++ key ++ ":` on a `template:` call — " ++ why)

/-- The checks of what a task runs: a command, a template's tasks, or, where it waits for
something, neither.
-/
def checkCommand (task : TaskSpec) : Except String Unit := do
  let commandless (kind why : String) : Except String Unit := do
    require task.template.isNone
      (kind ++ " task '" ++ task.name ++ "' cannot also be a `template` call")
    require task.command.isEmpty
      (kind ++ " task '" ++ task.name ++ "' cannot set a `command` (" ++ why ++ ")")
  if task.isApproval then commandless "approval" "it waits for a human"
  else if task.isWorkflow then commandless "sub-workflow" "it triggers a workflow"
  else if task.isWait then commandless "wait" "it defers on a timer"
  else
    require (task.template.isSome == task.command.isEmpty)
      (task.named ++ " must set exactly one of `command` (leaf) or `template` (call)")

def checkCall (task : TaskSpec) : Except String Unit := do
  refuseOnCall task "defer"
    ("a call expands into the template's tasks, so the deferral has no leaf to attach to and "
      ++ "would be dropped. Put `defer:` on the template's own submitting task instead")
    task.defer.isSome
  refuseOnCall task "image_pull_policy"
    ("a call expands into the template's tasks, so the policy would reach none of them. Set it "
      ++ "on the template's own tasks, or for the whole workflow in `task_defaults`")
    task.imagePullPolicy.isSome
  refuseOnCall task "repeat"
    ("a call expands into the template's tasks, so the loop has no leaf to attach to and would "
      ++ "be dropped. Loop the template's own task, or fan the call out with `with_items:` to "
      ++ "run the sub-DAG more than once")
    task.repeatSpec.isSome
  refuseOnCall task "forge_token"
    ("a call expands into the template's tasks, so the token would reach none of them. Set it "
      ++ "on the template's own command task")
    task.forgeToken
  refuseOnCall task "privileged"
    ("a call expands into the template's tasks, so no container of them would be privileged. "
      ++ "Set it on the template's own command task")
    task.privileged

def checkRuntimeFanout (task : TaskSpec) : Except String Unit := do
  require (!(task.withItems.isSome || task.withParam.isSome))
    (task.named ++ " sets with_output_of together with with_items/with_param — a task fans "
      ++ "out from one source")
  require task.template.isNone
    (task.named ++ " cannot set `with_output_of` on a `template:` call — a call expands into "
      ++ "the template's tasks, so there is no row to fan out at run time. Fan out a leaf "
      ++ "inside the template, or use `with_items:` on the call, which is resolved at "
      ++ "expansion")
  require task.gang.isNone
    (task.named ++ " cannot combine `with_output_of` with `gang` — a gang's size has to be "
      ++ "known before it is claimed")
  require (task.taskType = none ∨ task.taskType = some "task")
    (task.named ++ " cannot combine `with_output_of` with `type: " ++ task.taskType.getD "task"
      ++ "` — a runtime fan-out substitutes \x7b\x7b item \x7d\x7d into a command")

def checkFanout (task : TaskSpec) : Except String Unit := do
  require (!(task.withItems.isSome && task.withParam.isSome))
    (task.named ++ " sets both with_items and with_param")
  if task.withOutputOf.isSome then checkRuntimeFanout task
  require (task.instanceKey.isNone || task.withItems.isSome || task.withParam.isSome
      || task.withOutputOf.isSome)
    (task.named ++ " sets instance_key without with_items/with_param/with_output_of (nothing to "
      ++ "label)")

/-- The checks of a task's shape, made before anything of it resolves. -/
def checkShape (task : TaskSpec) : Except String Unit := do
  checkCommand task
  checkCall task
  checkFanout task

/-- The items a task fans out over, or one instance without an item. -/
def resolveItems (host : Externals) (task : TaskSpec) (ctx : Bindings)
    : Except String (List (Option Json)) :=
  match task.withItems, task.withParam with
  | some items, _ => .ok (items.map some)
  | none, some param =>
      match host.parseJson (substitute host param ctx) with
      | .error problem =>
          .error ("with_param '" ++ param ++ "' is not valid JSON: " ++ problem)
      | .ok (.array items) => .ok (items.map some)
      | .ok _ => .error ("with_param '" ++ param ++ "' did not resolve to a JSON array")
  | none, none => .ok [none]

/-- What a condition decides at expansion: the instance is dropped, or kept, with the part of
the condition that names task outputs left for when it becomes ready.
-/
inductive Guard where
  | drop
  | keep (runtimeWhen : Option String)

/-- Decides the parts of an `and` that name no task output; the others are the result, or
nothing where a decided part is false.
-/
def decideParts (host : Externals) : List (List Char) → Except String (Option (List String))
  | [] => .ok (some [])
  | part :: rest => do
      let text := String.ofList part
      if whenRefsTaskOutputs text then
        return (← decideParts host rest).map (fun parts => text :: parts)
      else
        let holds ← evalWhen host text
        let parts ← decideParts host rest
        return if holds then parts else none

/-- A condition whose parameters are filled in, with the parts decided that can be; nothing
where one of them is false.
-/
def splitRuntime (host : Externals) (resolved : String) : Except String (Option String) :=
  if whenRefsTaskOutputs resolved ∧ (splitWord resolved.toList ['o', 'r']).length = 1 then
    let parts := splitWord resolved.toList ['a', 'n', 'd']
    if parts.length > 1 then do
      return (← decideParts host parts).map (" and ".intercalate ·)
    else .ok (some resolved)
  else .ok (some resolved)

def guardOf (host : Externals) (task : TaskSpec) (ctx : Bindings) : Except String Guard :=
  match task.when with
  | none => .ok (.keep none)
  | some cond => do
      match ← splitRuntime host (substitute host cond ctx) with
      | none => return .drop
      | some resolved =>
          if whenRefsTaskOutputs resolved then
            require task.template.isNone
              (task.named ++ ": a runtime `when` (referencing tasks.*.output) is only supported "
                ++ "on leaf tasks, not template calls")
            return .keep (some resolved)
          else if ← evalWhen host resolved then return .keep none
          else return .drop

-- Wiring a list

/-- (renameChars fuel) rewrites the task outputs a text names, as (renamed) says. -/
def renameChars (renamed : List (String × String)) : Nat → List Char → List Char
  | 0, text => text
  | fuel + 1, text =>
      match splitOnce ['{', '{'] text with
      | none => text
      | some (before, after) =>
          match splitOnce ['}', '}'] after with
          | none => text
          | some (key, rest) =>
              let target := (outputRef key).bind fun name =>
                (renamed.find? (fun entry => entry.1 = String.ofList name)).map Prod.snd
              let placeholder : List Char :=
                match target with
                | some name => ['{', '{'] ++ " tasks.".toList ++ name.toList
                    ++ ".output ".toList ++ ['}', '}']
                | none => ['{', '{'] ++ key ++ ['}', '}']
              before ++ placeholder ++ renameChars renamed fuel rest

/-- A condition with the task outputs it names renamed. -/
def renameOutputRefs (cond : String) (renamed : List (String × String)) : String :=
  String.ofList (renameChars renamed cond.length cond.toList)

/-- What each task of a list expanded to, by authored name. -/
abbrev PerTask := List (String × Expanded)

def PerTask.get (per : PerTask) (name : String) : Option Expanded :=
  (per.find? (fun entry => entry.1 = name)).map Prod.snd

/-- The authored names that became one row of another name. -/
def PerTask.renamed (per : PerTask) : List (String × String) :=
  per.filterMap fun (name, expanded) =>
    match expanded.exits with
    | [only] => if only = name then none else some (name, only)
    | _ => none

/-- A leaf's references to siblings, pointed at the rows the siblings became. -/
def TaskSpec.repoint (renamed : List (String × String)) (task : TaskSpec) : TaskSpec :=
  { task with
    when := task.when.map (renameOutputRefs · renamed)
    envFrom := task.envFrom.map fun source =>
      match renamed.find? (fun entry => entry.1 = source.task) with
      | some (_, row) => { source with task := row }
      | none => source }

def dependencyExits (per : PerTask) (task : TaskSpec) : List String → Except String (List String)
  | [] => .ok []
  | dep :: rest =>
      match per.get dep with
      | none => .error ("task '" ++ task.name ++ "' depends on unknown task '" ++ dep ++ "'")
      | some expanded => do return expanded.exits ++ (← dependencyExits per task rest)

/-- A leaf of one task as its list wires it: a root depends on the exits of what the task
depends on.
-/
def wireLeaf (renamed : List (String × String)) (task : TaskSpec) (expanded : Expanded)
    (exits : List String) (leaf : TaskSpec) : TaskSpec :=
  let leaf := if leaf.name ∈ expanded.roots then { leaf with dependsOn := exits } else leaf
  if task.template.isNone ∧ renamed ≠ [] then leaf.repoint renamed else leaf

def wireTask (renamed : List (String × String)) (task : TaskSpec) (expanded : Expanded)
    (exits : List String) : List TaskSpec :=
  expanded.tasks.map (wireLeaf renamed task expanded exits)

/-- Wires the tasks of a list together: the list's roots are those of its tasks that depend on
nothing, and its exits those of the tasks that (depended) does not name.
-/
def wireList (per : PerTask) (depended : List String) : List TaskSpec → Except String Expanded
  | [] => .ok .empty
  | task :: rest => do
      let exits ← dependencyExits per task task.dependsOn
      let expanded := (per.get task.name).getD .empty
      let wired : Expanded := {
        roots := if task.dependsOn.isEmpty then expanded.roots else []
        exits := if task.name ∈ depended then [] else expanded.exits
        tasks := wireTask per.renamed task expanded exits
      }
      return wired.append (← wireList per depended rest)

-- Expansion

/-- An expander of the lists one call deeper: it takes the tasks, the names' prefix, the scope
and how many more leaves may be made, and says how many are left.
-/
abbrev Expander := List TaskSpec → String → Bindings → Nat → Except String (Expanded × Nat)

/-- What every level of an expansion shares: text handling, the templates there are, and how
many tasks a run may have.
-/
structure ExpandEnv where
  host
    : Externals
  templates
    : List TemplateSpec
  maxTasks
    : Nat

/-- Expands a call into its template's tasks, in a scope of the template's parameters and the
call's arguments; (deeper) is missing where calls nest too deep.
-/
def expandCall (env : ExpandEnv) (deeper : Option Expander)
    (task : TaskSpec) (base : String) (ctx : Bindings) (budget : Nat)
    : Except String (Expanded × Nat) :=
  match deeper with
  | none => .error ("template recursion exceeded depth " ++ toString maxDepth ++ " at task '"
      ++ task.name ++ "' (missing a `when:` base case?)")
  | some expander =>
      let name := task.template.getD ""
      match env.templates.find? (fun template => template.name = name) with
      | none =>
          .error ("task '" ++ task.name ++ "' calls unknown template '" ++ name ++ "'")
      | some template =>
          let scope := task.arguments.foldl
            (fun scope (key, value) => scope.insert key (substitute env.host value ctx))
            template.parameters
          expander template.tasks (base ++ ".") scope budget

/-- Expands one instance of a task, whose leaves are named from (base). -/
def expandInstance (env : ExpandEnv)
    (deeper : Option Expander) (task : TaskSpec) (base : String) (ctx : Bindings)
    (runtimeWhen : Option String) (budget : Nat) : Except String (Expanded × Nat) :=
  if task.template.isSome then expandCall env deeper task base ctx budget
  else
    match budget with
    | 0 => .error ("expansion exceeded " ++ toString env.maxTasks
        ++ " tasks (fan-out × recursion blow-up?)")
    | left + 1 => .ok (⟨[base], [base], [buildLeaf env.host task base ctx runtimeWhen]⟩, left)

/-- An instance of a task that its condition keeps: its scope, what its leaves are named from,
the labels that are taken then, and the part of its condition left for when it becomes ready.
-/
structure Kept where
  scope
    : Bindings
  base
    : String
  seen
    : List String
  runtimeWhen
    : Option String

/-- What becomes of one item of a task: an instance, unless its condition drops it. -/
def keptItem (host : Externals) (namePrefix : String) (ctx : Bindings) (task : TaskSpec)
    (index : Nat) (seen : List String) (item : Option Json) : Except String (Option Kept) := do
  let scope := match item with
    | some item => (bindItem host ctx item).insert "index" (toString index)
    | none => ctx
  match ← guardOf host task scope with
  | .drop => return none
  | .keep runtimeWhen =>
      let own := namePrefix ++ task.name
      if task.withItems.isSome ∨ task.withParam.isSome then
        let label ← instanceLabel host task index scope seen
        return some ⟨scope, own ++ "." ++ label, label :: seen, runtimeWhen⟩
      else return some ⟨scope, own, seen, runtimeWhen⟩

/-- Expands the instances of a task, one for each item. -/
def expandItems (env : ExpandEnv) (deeper : Option Expander)
    (namePrefix : String) (ctx : Bindings) (task : TaskSpec)
    : Nat → List String → List (Option Json) → Nat → Except String (Expanded × Nat)
  | _, _, [], budget => .ok (.empty, budget)
  | index, seen, item :: rest, budget => do
      match ← keptItem env.host namePrefix ctx task index seen item with
      | none => expandItems env deeper namePrefix ctx task (index + 1) seen rest budget
      | some kept =>
          let (first, budget) ←
            expandInstance env deeper task kept.base kept.scope kept.runtimeWhen budget
          let (others, budget) ←
            expandItems env deeper namePrefix ctx task (index + 1) kept.seen rest budget
          return (first.append others, budget)

def expandOne (env : ExpandEnv) (deeper : Option Expander)
    (namePrefix : String) (ctx : Bindings) (task : TaskSpec) (budget : Nat)
    : Except String (Expanded × Nat) := do
  checkShape task
  let items ← resolveItems env.host task ctx
  require (!items.isEmpty)
    (task.named ++ " fans out over an empty list (with_items/with_param resolved to [])")
  expandItems env deeper namePrefix ctx task 0 [] items budget

/-- Expands each task of a list on its own; the names must differ. -/
def expandEach (env : ExpandEnv) (deeper : Option Expander)
    (namePrefix : String) (ctx : Bindings)
    : List String → List TaskSpec → Nat → Except String (PerTask × Nat)
  | _, [], budget => .ok ([], budget)
  | seen, task :: rest, budget => do
      require (task.name ∉ seen) ("duplicate task name '" ++ task.name ++ "'")
      let (expanded, budget) ← expandOne env deeper namePrefix ctx task budget
      let (others, budget) ←
        expandEach env deeper namePrefix ctx (task.name :: seen) rest budget
      return ((task.name, expanded) :: others, budget)

/-- Expands a list of sibling tasks and wires them together. -/
def expandListWith (env : ExpandEnv)
    (deeper : Option Expander) : Expander :=
  fun tasks namePrefix ctx budget => do
    let (per, budget) ← expandEach env deeper namePrefix ctx [] tasks budget
    let wired ← wireList per (tasks.flatMap TaskSpec.dependsOn) tasks
    return (wired, budget)

/-- (expandList levels) expands a list of sibling tasks in which calls nest at most (levels)
deep.
-/
def expandList (env : ExpandEnv) : Nat → Expander
  | 0 => expandListWith env none
  | levels + 1 => expandListWith env (some (expandList env levels))

/-- A task with the workflow's defaults where it leaves a field unset; the workflow's
variables stand before its own.
-/
def TaskDefaults.apply (defaults : TaskDefaults) (task : TaskSpec) : TaskSpec :=
  { task with
    maxAttempts := if task.maxAttempts = 1 then defaults.maxAttempts.getD 1 else task.maxAttempts
    retryDelaySecs :=
      if task.retryDelaySecs = 0 then defaults.retryDelaySecs.getD 0 else task.retryDelaySecs
    retryMaxDelaySecs := task.retryMaxDelaySecs <|> defaults.retryMaxDelaySecs
    retryBudgets := task.retryBudgets ++ defaults.retryBudgets.filter
      (fun budget => budget.1 ∉ task.retryBudgets.map Prod.fst)
    dockerImage := task.dockerImage <|> defaults.dockerImage
    imagePullPolicy :=
      if task.template.isNone then task.imagePullPolicy <|> defaults.imagePullPolicy
      else task.imagePullPolicy
    runnerClass := task.runnerClass <|> defaults.runnerClass
    priority := if task.priority = 0 then defaults.priority.getD 0 else task.priority
    pool := task.pool <|> defaults.pool
    env := defaults.env ++ task.env }

def hookRule (task : TaskSpec) (hook : String) : Except String String :=
  if hook = "on_exit" then .ok "all_done"
  else if hook = "on_failure" then .ok "one_failed"
  else .error ("task '" ++ task.name ++ "' has invalid hook '" ++ hook
    ++ "' (expected on_exit or on_failure)")

def plainNames (tasks : List TaskSpec) : List String :=
  (tasks.filter (fun task => task.hook.isNone)).map TaskSpec.name

/-- Wires a lifecycle hook: it depends on the tasks named, under the rule its kind implies. -/
def wireHook (names : List String) (task : TaskSpec) : Except String TaskSpec :=
  match task.hook with
  | none => .ok task
  | some hook => do
      let rule ← hookRule task hook
      return { task with
        dependsOn := names.filter (fun name => name ≠ task.name)
        triggerRule := some rule }

/-- Wires lifecycle hooks, each after every task that is no hook. -/
def wireHooks (tasks : List TaskSpec) : Except String (List TaskSpec) :=
  tasks.mapM (wireHook (plainNames tasks))

/-- Expands every call, fan-out and decidable condition of a workflow whose runs may have so
many tasks.
-/
def expand (host : Externals) (maxTasks : Nat) (spec : DagSpec) : Except String DagSpec := do
  require spec.uses.isEmpty
    ("`use: [" ++ ", ".intercalate spec.uses ++ "]` was not resolved — template libraries are "
      ++ "imported by dagron-api when a workflow is saved or run; this path does not resolve "
      ++ "them. Paste the templates into this spec, or submit it through the API")
  let applied := match spec.taskDefaults with
    | some defaults => defaults.apply
    | none => id
  let tasks := spec.tasks.map applied
  let templates := spec.templates.map
    (fun template => { template with tasks := template.tasks.map applied })
  require (templates.map TemplateSpec.name).Nodup "duplicate template name"
  let (expanded, _) ←
    expandList ⟨host, templates, maxTasks⟩ maxDepth tasks "" spec.parameters maxTasks
  let tasks ← wireHooks expanded.tasks
  return { spec with
    parameters := []
    templates := []
    uses := []
    taskDefaults := none
    concurrencyKey := spec.concurrencyKey.map (fun key => substitute host key spec.parameters)
    tasks := tasks }

end Dagron.Spec
