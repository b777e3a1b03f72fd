import Dagron.Review.Diff

/-! When a plan without changes means the same run: a view has some of the settings of a task and a plan some
of those of a run, so that two versions that differ in none of these are the same only if they do not differ
in the rest either.
-/

namespace Dagron.Review

open Dagron.Library

variable {hidden : Char → Bool}

-- The same run

/-- Two tasks that differ in nothing but the order of their dependencies. -/
structure SameTask (base head : TaskSpec) : Prop where
  dependsOn
    : base.dependsOn.Perm head.dependsOn
  rest
    : { base with dependsOn := head.dependsOn } = head

def DagGraph.names (graph : DagGraph) : List String :=
  graph.spec.tasks.map TaskSpec.name

/-- What a workflow sets for its runs: all but its own name, its tags and its tasks. -/
def DagSpec.settings (spec : DagSpec) : DagSpec :=
  { spec with name := "", tags := [], tasks := [] }

/-- Two workflows whose runs are the same: their tasks are, name by name, and so is what they set for a run. -/
structure SameRun (base head : DagGraph) : Prop where
  names
    : ∀ name, name ∈ base.names ↔ name ∈ head.names
  tasks
    : ∀ first ∈ base.spec.tasks, ∀ second ∈ head.spec.tasks, first.name = second.name →
      SameTask first second
  settings
    : base.spec.settings = head.spec.settings

-- What a plan shows, and what it leaves out

/-- The value that a variable has: of two with its name, the later one's. -/
def TaskSpec.valueOf (task : TaskSpec) (name : String) : Option String :=
  (task.values.reverse.find? fun entry => entry.1 = name).map Prod.snd

def TaskSpec.secretOf (task : TaskSpec) (name : String) : Option String :=
  (task.secrets.reverse.find? fun entry => entry.1 = name).map Prod.snd

/-- Two tasks that do not differ in what a view has of them. -/
structure ShownAlike (base head : TaskSpec) : Prop where
  dependsOn
    : base.dependsOn.Perm head.dependsOn
  values
    : ∀ name, base.valueOf name = head.valueOf name
  secrets
    : ∀ name, base.secretOf name = head.secretOf name
  command
    : base.command = head.command
  dockerImage
    : base.dockerImage = head.dockerImage
  maxAttempts
    : base.maxAttempts = head.maxAttempts
  retryDelaySecs
    : base.retryDelaySecs = head.retryDelaySecs
  retryMaxDelaySecs
    : base.retryMaxDelaySecs = head.retryMaxDelaySecs
  timeoutSecs
    : base.timeoutSecs = head.timeoutSecs
  triggerRule
    : base.triggerRule = head.triggerRule
  hook
    : base.hook = head.hook
  allowFailure
    : base.allowFailure = head.allowFailure
  taskType
    : base.taskType = head.taskType
  approvalTimeoutSecs
    : base.approvalTimeoutSecs = head.approvalTimeoutSecs
  approvalOnTimeout
    : base.approvalOnTimeout = head.approvalOnTimeout
  approvalMessage
    : base.approvalMessage = head.approvalMessage
  approvalShow
    : base.approvalShow = head.approvalShow
  binds
    : base.binds = head.binds
  approvers
    : base.approvers = head.approvers
  notTriggerer
    : base.notTriggerer = head.notTriggerer

/-- Two tasks that do not differ in what a view leaves out: of their variables the order, those that a later
one replaces, and whether a secret may be missing.
-/
structure LeftOutAlike (base head : TaskSpec) : Prop where
  input
    : base.input = head.input
  arguments
    : base.arguments = head.arguments
  withOutputOf
    : base.withOutputOf = head.withOutputOf
  when
    : base.when = head.when
  instanceKey
    : base.instanceKey = head.instanceKey
  workflow
    : base.workflow = head.workflow
  wait
    : base.wait = head.wait
  retryOnTimeout
    : base.retryOnTimeout = head.retryOnTimeout
  retryBudgets
    : base.retryBudgets = head.retryBudgets
  imagePullPolicy
    : base.imagePullPolicy = head.imagePullPolicy
  env
    : base.env = head.env
  environment
    : base.environment = head.environment
  resources
    : base.resources = head.resources
  serviceAccount
    : base.serviceAccount = head.serviceAccount
  runnerClass
    : base.runnerClass = head.runnerClass
  priority
    : base.priority = head.priority
  pool
    : base.pool = head.pool
  cache
    : base.cache = head.cache
  repeatSpec
    : base.repeatSpec = head.repeatSpec
  defer
    : base.defer = head.defer
  produces
    : base.produces = head.produces
  gang
    : base.gang = head.gang
  isolation
    : base.isolation = head.isolation
  workspace
    : base.workspace = head.workspace
  services
    : base.services = head.services
  envFrom
    : base.envFrom = head.envFrom
  identity
    : base.identity = head.identity
  forgeToken
    : base.forgeToken = head.forgeToken
  dockerDaemon
    : base.dockerDaemon = head.dockerDaemon
  privileged
    : base.privileged = head.privileged
  tokens
    : base.tokens = head.tokens
  artifactApi
    : base.artifactApi = head.artifactApi

/-- Two workflows that do not differ in what a plan shows. -/
structure Shown (base head : DagGraph) : Prop where
  names
    : ∀ name, name ∈ base.names ↔ name ∈ head.names
  tasks
    : ∀ first ∈ base.spec.tasks, ∀ second ∈ head.spec.tasks, first.name = second.name →
      ShownAlike first second
  runTimeoutSecs
    : base.spec.runTimeoutSecs = head.spec.runTimeoutSecs
  deadline
    : base.spec.deadline = head.spec.deadline
  notify
    : base.spec.notify = head.spec.notify
  resultFrom
    : base.spec.resultFrom = head.spec.resultFrom

/-- Two workflows that do not differ in what a plan leaves out of the tasks that both have, and of a run. -/
structure LeftOut (base head : DagGraph) : Prop where
  tasks
    : ∀ first ∈ base.spec.tasks, ∀ second ∈ head.spec.tasks, first.name = second.name →
      LeftOutAlike first second
  concurrencyKey
    : base.spec.concurrencyKey = head.spec.concurrencyKey
  maxActiveRuns
    : base.spec.maxActiveRuns = head.spec.maxActiveRuns
  whenFull
    : base.spec.whenFull = head.spec.whenFull
  budget
    : base.spec.budget = head.spec.budget
  runnerClass
    : base.spec.runnerClass = head.spec.runnerClass
  environment
    : base.spec.environment = head.spec.environment
  onDatasets
    : base.spec.onDatasets = head.spec.onDatasets
  datasetsMode
    : base.spec.datasetsMode = head.spec.datasetsMode

theorem sameTask_iff {base head : TaskSpec} (named : base.name = head.name)
    : SameTask base head ↔ ShownAlike base head ∧ LeftOutAlike base head := by
  constructor
  · rintro ⟨dependsOn, rest⟩
    have alike {Value : Type} (field : TaskSpec → Value)
        : field { base with dependsOn := head.dependsOn } = field head :=
      congrArg field rest
    have env : base.env = head.env := alike TaskSpec.env
    refine ⟨⟨dependsOn, fun name => ?_, fun name => ?_,
      alike TaskSpec.command, alike TaskSpec.dockerImage, alike TaskSpec.maxAttempts,
      alike TaskSpec.retryDelaySecs, alike TaskSpec.retryMaxDelaySecs, alike TaskSpec.timeoutSecs,
      alike TaskSpec.triggerRule, alike TaskSpec.hook, alike TaskSpec.allowFailure, alike TaskSpec.taskType,
      alike TaskSpec.approvalTimeoutSecs, alike TaskSpec.approvalOnTimeout, alike TaskSpec.approvalMessage,
      alike TaskSpec.approvalShow, alike TaskSpec.binds, alike TaskSpec.approvers,
      alike TaskSpec.notTriggerer⟩,
      ⟨alike TaskSpec.input, alike TaskSpec.arguments, alike TaskSpec.withOutputOf, alike TaskSpec.when,
      alike TaskSpec.instanceKey, alike TaskSpec.workflow, alike TaskSpec.wait,
      alike TaskSpec.retryOnTimeout, alike TaskSpec.retryBudgets, alike TaskSpec.imagePullPolicy,
      alike TaskSpec.env, alike TaskSpec.environment, alike TaskSpec.resources,
      alike TaskSpec.serviceAccount, alike TaskSpec.runnerClass, alike TaskSpec.priority,
      alike TaskSpec.pool, alike TaskSpec.cache, alike TaskSpec.repeatSpec, alike TaskSpec.defer,
      alike TaskSpec.produces, alike TaskSpec.gang, alike TaskSpec.isolation, alike TaskSpec.workspace,
      alike TaskSpec.services, alike TaskSpec.envFrom, alike TaskSpec.identity, alike TaskSpec.forgeToken,
      alike TaskSpec.dockerDaemon, alike TaskSpec.privileged, alike TaskSpec.tokens,
      alike TaskSpec.artifactApi⟩⟩
    · rw [TaskSpec.valueOf, TaskSpec.values, env]
      rfl
    · rw [TaskSpec.secretOf, TaskSpec.secrets, env]
      rfl
  · rintro ⟨shown, leftOut⟩
    refine ⟨shown.dependsOn, ?_⟩
    obtain ⟨_, _, _, command, dockerImage, maxAttempts, retryDelaySecs, retryMaxDelaySecs, timeoutSecs,
      triggerRule, hook, allowFailure, taskType, approvalTimeoutSecs, approvalOnTimeout, approvalMessage,
      approvalShow, binds, approvers, notTriggerer⟩ := shown
    obtain ⟨input, arguments, withOutputOf, when, instanceKey, workflow, wait, retryOnTimeout, retryBudgets,
      imagePullPolicy, env, environment, resources, serviceAccount, runnerClass, priority, pool, cache,
      repeatSpec, defer, produces, gang, isolation, workspace, services, envFrom, identity, forgeToken,
      dockerDaemon, privileged, tokens, artifactApi⟩ :=
      leftOut
    cases base
    cases head
    subst_vars
    rfl

-- What is compared

theorem fieldLine_eq_nil {Value : Type} [DecidableEq Value] {label : String} {write : Value → String}
    {base head : Value}
    : fieldLine label write base head = [] ↔ base = head := by
  unfold fieldLine
  split
  next same => exact ⟨fun _ => same, fun _ => rfl⟩
  next differ => exact ⟨fun none_ => (nomatch none_), fun same => (differ same).elim⟩

theorem keyLine_eq_nil {label : String} {write : String → String} {base head : Option String}
    : keyLine label write base head = [] ↔ base = head := by
  cases base with
  | none =>
      cases head with
      | none => exact ⟨fun _ => rfl, fun _ => rfl⟩
      | some head => exact ⟨fun none_ => (nomatch none_), fun same => (nomatch same)⟩
  | some base =>
      cases head with
      | none => exact ⟨fun none_ => (nomatch none_), fun same => (nomatch same)⟩
      | some head =>
          rw [keyLine, Option.some.injEq]
          split
          next same => exact ⟨fun _ => same, fun _ => rfl⟩
          next differ => exact ⟨fun none_ => (nomatch none_), fun same => (differ same).elim⟩

theorem mem_bothKeys {base head : OrderedMap String String} {key : String}
    : key ∈ bothKeys base head ↔ (base.get? key).isSome ∨ (head.get? key).isSome := by
  rw [bothKeys, List.mem_mergeSort, List.mem_dedup, List.mem_append]
  exact or_congr OrderedMap.mem_keys OrderedMap.mem_keys

theorem mapLines_eq_nil {label : String → String} {write : String → String}
    {base head : OrderedMap String String}
    : mapLines label write base head = [] ↔ base = head := by
  rw [mapLines, List.flatMap_eq_nil_iff]
  constructor
  · intro none_
    refine OrderedMap.ext_get? fun key => ?_
    by_cases listed : key ∈ bothKeys base head
    · exact keyLine_eq_nil.mp (none_ key listed)
    · rw [mem_bothKeys, not_or, Option.not_isSome_iff_eq_none, Option.not_isSome_iff_eq_none] at listed
      rw [listed.1, listed.2]
  · rintro rfl key -
    exact keyLine_eq_nil.mpr rfl

theorem diffFields_eq_nil {base head : TaskView}
    : base.diffFields hidden head = [] ↔ base = head := by
  unfold TaskView.diffFields
  simp only [List.append_eq_nil_iff, and_assoc, fieldLine_eq_nil, mapLines_eq_nil]
  constructor
  · rintro ⟨command, dependsOn, image, maxAttempts, retryDelaySecs, retryMaxDelaySecs, timeoutSecs,
      triggerRule, hook, allowFailure, taskType, approvalTimeoutSecs, approvalOnTimeout, approvalMessage,
      approvalShow, binds, approvers, notTriggerer, env, envSecret⟩
    exact TaskView.ext command dependsOn image env envSecret maxAttempts retryDelaySecs retryMaxDelaySecs
      timeoutSecs triggerRule hook allowFailure taskType approvalTimeoutSecs approvalOnTimeout
      approvalMessage approvalShow binds approvers notTriggerer
  · rintro rfl
    simp only [and_self]

theorem mergeSort_eq_iff {first second : List String}
    : first.mergeSort = second.mergeSort ↔ first.Perm second := by
  constructor
  · intro same
    have sorted := List.mergeSort_perm first fun one two => decide (one ≤ two)
    rw [same] at sorted
    exact sorted.symm.trans (List.mergeSort_perm second _)
  · intro perm
    have sorted (texts : List String) : texts.mergeSort.Pairwise (· ≤ ·) := by
      have ordered := @List.pairwise_mergeSort String (fun one two => decide (one ≤ two))
        (fun _ _ _ below above => by simpa using le_trans (by simpa using below) (by simpa using above))
        (fun one two => by simpa using le_total one two) texts
      exact ordered.imp fun below => of_decide_eq_true below
    exact (((List.mergeSort_perm first _).trans perm).trans (List.mergeSort_perm second _).symm).eq_of_pairwise
      (fun _ _ _ _ below above => le_antisymm below above) (sorted first) (sorted second)

theorem ofList_eq_iff {first second : List (String × String)}
    : OrderedMap.ofList first = OrderedMap.ofList second ↔
      ∀ name, (first.reverse.find? fun entry => entry.1 = name).map Prod.snd
        = (second.reverse.find? fun entry => entry.1 = name).map Prod.snd := by
  constructor
  · intro same name
    rw [← OrderedMap.get?_ofList_eq_find?, ← OrderedMap.get?_ofList_eq_find?, same]
  · intro same
    refine OrderedMap.ext_get? fun name => ?_
    rw [OrderedMap.get?_ofList_eq_find?, OrderedMap.get?_ofList_eq_find?, same]

theorem fromSpec_eq_iff {base head : TaskSpec}
    : TaskView.fromSpec base = TaskView.fromSpec head ↔ ShownAlike base head := by
  constructor
  · intro same
    have alike {Value : Type} (field : TaskView → Value)
        : field (TaskView.fromSpec base) = field (TaskView.fromSpec head) :=
      congrArg field same
    exact
      { dependsOn := mergeSort_eq_iff.mp (alike TaskView.dependsOn)
        values := ofList_eq_iff.mp (alike TaskView.env)
        secrets := ofList_eq_iff.mp (alike TaskView.envSecret)
        command := alike TaskView.command
        dockerImage := alike TaskView.image
        maxAttempts := alike TaskView.maxAttempts
        retryDelaySecs := alike TaskView.retryDelaySecs
        retryMaxDelaySecs := alike TaskView.retryMaxDelaySecs
        timeoutSecs := alike TaskView.timeoutSecs
        triggerRule := alike TaskView.triggerRule
        hook := alike TaskView.hook
        allowFailure := alike TaskView.allowFailure
        taskType := alike TaskView.taskType
        approvalTimeoutSecs := alike TaskView.approvalTimeoutSecs
        approvalOnTimeout := alike TaskView.approvalOnTimeout
        approvalMessage := alike TaskView.approvalMessage
        approvalShow := alike TaskView.approvalShow
        binds := alike TaskView.binds
        approvers := alike TaskView.approvers
        notTriggerer := alike TaskView.notTriggerer }
  · intro shown
    exact TaskView.ext shown.command (mergeSort_eq_iff.mpr shown.dependsOn) shown.dockerImage
      (ofList_eq_iff.mpr shown.values) (ofList_eq_iff.mpr shown.secrets) shown.maxAttempts
      shown.retryDelaySecs shown.retryMaxDelaySecs shown.timeoutSecs shown.triggerRule shown.hook
      shown.allowFailure shown.taskType shown.approvalTimeoutSecs shown.approvalOnTimeout
      shown.approvalMessage shown.approvalShow shown.binds shown.approvers shown.notTriggerer

-- What is notified, from its text

theorem legible_debugGit (hidden : Char → Bool)
    : Legible (debugGit hidden) := by
  have text := legible_debugString hidden
  have maybe := legible_debugOption text
  intro first second rest rest' same
  simp only [debugGit, debugField_append] at same
  obtain ⟨provider, same⟩ := text.field same
  obtain ⟨repo, same⟩ := text.field same
  obtain ⟨sha, same⟩ := text.field same
  obtain ⟨context, same⟩ := maybe.field same
  obtain ⟨targetUrl, same⟩ := maybe.field same
  obtain ⟨description, same⟩ := maybe.field same
  exact ⟨GitNotify.ext provider repo sha context targetUrl description, List.append_cancel_left same⟩

theorem legible_debugWebhook (hidden : Char → Bool)
    : Legible (debugWebhook hidden) := by
  intro first second rest rest' same
  simp only [debugWebhook, debugField_append] at same
  obtain ⟨url, same⟩ := (legible_debugString hidden).field same
  obtain ⟨on, same⟩ := (legible_debugStrings hidden).field same
  exact ⟨WebhookNotify.ext url on, List.append_cancel_left same⟩

theorem legible_debugSlack (hidden : Char → Bool)
    : Legible (debugSlack hidden) := by
  intro first second rest rest' same
  simp only [debugSlack, debugField_append] at same
  obtain ⟨webhookUrl, same⟩ := (legible_debugString hidden).field same
  obtain ⟨on, same⟩ := (legible_debugStrings hidden).field same
  exact ⟨SlackNotify.ext webhookUrl on, List.append_cancel_left same⟩

theorem legible_debugNotify (hidden : Char → Bool)
    : Legible (debugNotify hidden) := by
  intro first second rest rest' same
  simp only [debugNotify, debugField_append] at same
  obtain ⟨git, same⟩ := (legible_debugOption (legible_debugGit hidden)).field same
  obtain ⟨webhook, same⟩ := (legible_debugOption (legible_debugWebhook hidden)).field same
  obtain ⟨slack, same⟩ := (legible_debugOption (legible_debugSlack hidden)).field same
  exact ⟨NotifySpec.ext git webhook slack, List.append_cancel_left same⟩

theorem notify_text_inj {base head : Option NotifySpec}
    : base.map (fun notify => String.ofList (debugNotify hidden notify))
        = head.map (fun notify => String.ofList (debugNotify hidden notify))
      ↔ base = head :=
  (Option.map_injective fun _ _ same =>
    (legible_debugNotify hidden).injective (String.ofList_injective same)).eq_iff

theorem deadline_text_inj {base head : Option DeadlineSpec}
    : base.map DeadlineSpec.within = head.map DeadlineSpec.within ↔ base = head :=
  (Option.map_injective fun _ _ same => DeadlineSpec.ext same).eq_iff

-- The tasks of both versions

theorem DagGraph.mem_names {graph : DagGraph} {name : String}
    : name ∈ graph.names ↔ ∃ task ∈ graph.spec.tasks, task.name = name :=
  List.mem_map

theorem DagGraph.eq_of_name {graph : DagGraph} {first second : TaskSpec} (there : first ∈ graph.spec.tasks)
    (there' : second ∈ graph.spec.tasks) (named : first.name = second.name)
    : first = second :=
  List.inj_on_of_nodup_map graph.distinct there there' named

theorem DagGraph.get?_views {graph : DagGraph} {task : TaskSpec} (there : task ∈ graph.spec.tasks)
    : (viewsOf graph.spec.tasks).get? task.name = some (TaskView.fromSpec task) := by
  refine OrderedMap.get?_ofList fun view => ⟨fun listed => ?_, fun same => ?_⟩
  · obtain ⟨other, member, same⟩ := List.mem_map.mp listed
    obtain ⟨named, rfl⟩ := Prod.mk.inj same
    rw [graph.eq_of_name member there named]
  · exact List.mem_map.mpr ⟨task, there, congrArg (Prod.mk task.name) (Option.some.inj same)⟩

theorem DagGraph.isSome_get?_views {graph : DagGraph} {name : String}
    : ((viewsOf graph.spec.tasks).get? name).isSome ↔ name ∈ graph.names := by
  refine ⟨fun some_ => ?_, get?_viewsOf_isSome⟩
  obtain ⟨view, held⟩ := Option.isSome_iff_exists.mp some_
  obtain ⟨task, member, same⟩ := List.mem_map.mp (OrderedMap.mem_of_get?_ofList held)
  exact DagGraph.mem_names.mpr ⟨task, member, (Prod.mk.inj same).1⟩

theorem DagGraph.isNone_get?_views {graph : DagGraph} {name : String}
    : ((viewsOf graph.spec.tasks).get? name).isNone ↔ name ∉ graph.names := by
  rw [← DagGraph.isSome_get?_views, Option.isNone_iff_eq_none, Option.not_isSome_iff_eq_none]

variable {base head : DagGraph}

theorem mem_added {name : String}
    : name ∈ (plan hidden base head).added ↔ name ∈ head.names ∧ name ∉ base.names := by
  refine List.mem_filter.trans (and_congr_right fun _ => ?_)
  exact DagGraph.isNone_get?_views

theorem mem_removed {name : String}
    : name ∈ (plan hidden base head).removed ↔ name ∈ base.names ∧ name ∉ head.names := by
  refine List.mem_mergeSort.trans (List.mem_filter.trans (and_congr ?_ ?_))
  · exact OrderedMap.mem_keys.trans DagGraph.isSome_get?_views
  · exact DagGraph.isNone_get?_views

theorem view_resolve {task : TaskSpec} (member : task ∈ head.spec.tasks)
    (there : task.name ∈ (resolve hidden head).order)
    : (resolve hidden head).view task.name there = TaskView.fromSpec task := by
  rw [Resolved.view, Option.get_of_eq_some]
  exact DagGraph.get?_views member

theorem changeOf_eq_some {name : String} {fields : List String} {change : String × List String}
    : changeOf name fields = some change ↔ fields ≠ [] ∧ change = (name, fields) := by
  unfold changeOf
  split
  next none_ =>
    exact ⟨fun some_ => (nomatch some_), fun ⟨differ, _⟩ => (differ (List.isEmpty_iff.mp none_)).elim⟩
  next differ =>
    rw [Option.some.injEq]
    exact ⟨fun same => ⟨fun none_ => differ (List.isEmpty_iff.mpr none_), same.symm⟩,
      fun ⟨_, same⟩ => same.symm⟩

theorem mem_changedTasks {change : String × List String}
    : change ∈ (plan hidden base head).changed ↔
      ∃ first ∈ base.spec.tasks, ∃ second ∈ head.spec.tasks,
        first.name = change.1 ∧ second.name = change.1 ∧ ¬ShownAlike first second ∧
        change.2 = (TaskView.fromSpec first).diffFields hidden (TaskView.fromSpec second) := by
  refine List.mem_filterMap.trans ⟨?_, ?_⟩
  · rintro ⟨⟨name, there⟩, -, made⟩
    obtain ⟨view, held, made⟩ := Option.bind_eq_some_iff.mp made
    obtain ⟨first, member, named⟩ := DagGraph.mem_names.mp
      (DagGraph.isSome_get?_views.mp (Option.isSome_iff_exists.mpr ⟨view, held⟩))
    obtain ⟨second, member', rfl⟩ := DagGraph.mem_names.mp there
    obtain rfl : TaskView.fromSpec first = view :=
      Option.some.inj ((DagGraph.get?_views member).symm.trans (named ▸ held))
    rw [view_resolve member'] at made
    obtain ⟨differ, rfl⟩ := changeOf_eq_some.mp made
    exact ⟨first, member, second, member', named, rfl,
      fun shown => differ (diffFields_eq_nil.mpr (fromSpec_eq_iff.mpr shown)), rfl⟩
  · rintro ⟨first, member, second, member', named, named', differ, lines⟩
    obtain ⟨name, fields⟩ := change
    obtain rfl : second.name = name := named'
    have there : second.name ∈ (resolve hidden head).order := List.mem_map_of_mem member'
    have held : (resolve hidden base).views.get? second.name = some (TaskView.fromSpec first) :=
      (congrArg _ named.symm).trans (DagGraph.get?_views member)
    refine ⟨⟨second.name, there⟩, List.mem_attach _ _, Option.bind_eq_some_iff.mpr ⟨_, held, ?_⟩⟩
    rw [view_resolve member']
    exact changeOf_eq_some.mpr ⟨fun none_ => differ (fromSpec_eq_iff.mp (diffFields_eq_nil.mp none_)),
      congrArg (Prod.mk second.name) lines⟩

/-- The tasks that are said to have changed are those of both versions that do not show the same. -/
theorem mem_changed {name : String}
    : name ∈ (plan hidden base head).changed.map Prod.fst ↔
      ∃ first ∈ base.spec.tasks, ∃ second ∈ head.spec.tasks,
        first.name = name ∧ second.name = name ∧ ¬ShownAlike first second := by
  constructor
  · intro there
    obtain ⟨change, member, rfl⟩ := List.mem_map.mp there
    obtain ⟨first, here, second, here', named, named', differ, -⟩ := mem_changedTasks.mp member
    exact ⟨first, here, second, here', named, named', differ⟩
  · rintro ⟨first, here, second, here', named, named', differ⟩
    exact List.mem_map.mpr ⟨(name, _), mem_changedTasks.mpr
      ⟨first, here, second, here', named, named', differ, rfl⟩, rfl⟩

theorem nodup_changed (hidden : Char → Bool) (base head : DagGraph)
    : ((plan hidden base head).changed.map Prod.fst).Nodup := by
  show ((changedTasks hidden (resolve hidden base) (resolve hidden head)).map Prod.fst).Nodup
  rw [changedTasks, List.map_filterMap]
  refine List.Nodup.filterMap ?_ (List.nodup_attach.mpr head.distinct)
  rintro ⟨name, there⟩ ⟨name', there'⟩ listed one two
  obtain ⟨change, made, rfl⟩ := Option.map_eq_some_iff.mp one
  obtain ⟨change', made', same⟩ := Option.map_eq_some_iff.mp two
  obtain ⟨_, -, made⟩ := Option.bind_eq_some_iff.mp made
  obtain ⟨_, -, made'⟩ := Option.bind_eq_some_iff.mp made'
  obtain ⟨-, rfl⟩ := changeOf_eq_some.mp made
  obtain ⟨-, rfl⟩ := changeOf_eq_some.mp made'
  exact Subtype.ext same.symm

-- Plans without changes

theorem rootChange_eq_nil {label : String} {first second : Option String}
    : rootChange label first second = [] ↔ first = second := by
  unfold rootChange
  split
  next same => exact ⟨fun _ => same, fun _ => rfl⟩
  next differ => exact ⟨fun none_ => (nomatch none_), fun same => (differ same).elim⟩

theorem runTimeout_eq_none
    : (plan hidden base head).runTimeout = none ↔
      base.spec.runTimeoutSecs = head.spec.runTimeoutSecs := by
  show (if base.spec.runTimeoutSecs = head.spec.runTimeoutSecs then none else some (_, _)) = none ↔ _
  split
  next same => exact ⟨fun _ => same, fun _ => rfl⟩
  next differ => exact ⟨fun none_ => (nomatch none_), fun same => (differ same).elim⟩

theorem rootChanges_eq_nil
    : (plan hidden base head).rootChanges = [] ↔
      base.spec.deadline = head.spec.deadline ∧ base.spec.notify = head.spec.notify ∧
      base.spec.resultFrom = head.spec.resultFrom := by
  show rootChange _ _ _ ++ rootChange _ _ _ ++ rootChange _ _ _ = [] ↔ _
  rw [List.append_eq_nil_iff, List.append_eq_nil_iff, rootChange_eq_nil, rootChange_eq_nil,
    rootChange_eq_nil, and_assoc]
  exact and_congr deadline_text_inj (and_congr notify_text_inj Iff.rfl)

theorem Plan.hasChanges_eq_false {plan : Plan}
    : plan.hasChanges = false ↔
      plan.added = [] ∧ plan.removed = [] ∧ plan.changed = [] ∧ plan.runTimeout = none ∧
      plan.rootChanges = [] := by
  simp [Plan.hasChanges, and_assoc]

theorem hasChanges_eq_false
    : (plan hidden base head).hasChanges = false ↔ Shown base head := by
  rw [Plan.hasChanges_eq_false, runTimeout_eq_none, rootChanges_eq_nil]
  constructor
  · rintro ⟨added, removed, changed, runTimeoutSecs, deadline, notify, resultFrom⟩
    have names (name : String) : name ∈ base.names ↔ name ∈ head.names := by
      have notAdded : name ∉ (plan hidden base head).added := added ▸ List.not_mem_nil
      have notRemoved : name ∉ (plan hidden base head).removed := removed ▸ List.not_mem_nil
      rw [mem_added] at notAdded
      rw [mem_removed] at notRemoved
      tauto
    refine ⟨names, fun first there second there' named => ?_, runTimeoutSecs, deadline, notify,
      resultFrom⟩
    by_contra differ
    have listed := (@mem_changed hidden base head second.name).mpr
      ⟨first, there, second, there', named, rfl, differ⟩
    rw [changed] at listed
    cases listed
  · intro shown
    refine ⟨?_, ?_, ?_, shown.runTimeoutSecs, shown.deadline, shown.notify, shown.resultFrom⟩
    · refine List.eq_nil_iff_forall_not_mem.mpr fun name there => ?_
      obtain ⟨here, absent⟩ := mem_added.mp there
      exact absent ((shown.names name).mpr here)
    · refine List.eq_nil_iff_forall_not_mem.mpr fun name there => ?_
      obtain ⟨here, absent⟩ := mem_removed.mp there
      exact absent ((shown.names name).mp here)
    · refine List.eq_nil_iff_forall_not_mem.mpr fun change there => ?_
      obtain ⟨first, here, second, here', named, named', differ, -⟩ := mem_changedTasks.mp there
      exact differ (shown.tasks first here second here' (named.trans named'.symm))

/-- Two versions have the same run if they differ neither in what is shown nor in what is left out. -/
theorem sameRun_iff
    : SameRun base head ↔ Shown base head ∧ LeftOut base head := by
  constructor
  · rintro ⟨names, tasks, settings⟩
    have alike {Value : Type} (field : DagSpec → Value)
        : field base.spec.settings = field head.spec.settings :=
      congrArg field settings
    have both (first : TaskSpec) (there : first ∈ base.spec.tasks) (second : TaskSpec)
        (there' : second ∈ head.spec.tasks) (named : first.name = second.name)
        : ShownAlike first second ∧ LeftOutAlike first second :=
      (sameTask_iff named).mp (tasks first there second there' named)
    exact
      ⟨{ names := names
         tasks := fun first there second there' named => (both first there second there' named).1
         runTimeoutSecs := alike DagSpec.runTimeoutSecs
         deadline := alike DagSpec.deadline
         notify := alike DagSpec.notify
         resultFrom := alike DagSpec.resultFrom },
       { tasks := fun first there second there' named => (both first there second there' named).2
         concurrencyKey := alike DagSpec.concurrencyKey
         maxActiveRuns := alike DagSpec.maxActiveRuns
         whenFull := alike DagSpec.whenFull
         budget := alike DagSpec.budget
         runnerClass := alike DagSpec.runnerClass
         environment := alike DagSpec.environment
         onDatasets := alike DagSpec.onDatasets
         datasetsMode := alike DagSpec.datasetsMode }⟩
  · rintro ⟨shown, leftOut⟩
    refine ⟨shown.names, fun first there second there' named => (sameTask_iff named).mpr
      ⟨shown.tasks first there second there' named, leftOut.tasks first there second there' named⟩, ?_⟩
    simp only [DagSpec.settings, shown.runTimeoutSecs, shown.deadline, shown.notify, shown.resultFrom,
      leftOut.concurrencyKey, leftOut.maxActiveRuns, leftOut.whenFull, leftOut.budget,
      leftOut.runnerClass, leftOut.environment, leftOut.onDatasets, leftOut.datasetsMode]

/-- The tasks of the two versions, as a plan has them: each of the head's is added, changed or neither, and
then both versions have it and show the same, and each of the base's is removed or the head's.
-/
structure Partition (plan : Plan) (base head : DagGraph) : Prop where
  once
    : plan.added.Nodup ∧ (plan.changed.map Prod.fst).Nodup ∧ plan.removed.Nodup
  added
    : ∀ name, name ∈ plan.added ↔ name ∈ head.names ∧ name ∉ base.names
  removed
    : ∀ name, name ∈ plan.removed ↔ name ∈ base.names ∧ name ∉ head.names
  each
    : ∀ name ∈ head.names,
        name ∈ plan.added ∧ name ∉ plan.changed.map Prod.fst ∨
        name ∉ plan.added ∧ name ∈ plan.changed.map Prod.fst ∨
        name ∉ plan.added ∧ name ∉ plan.changed.map Prod.fst ∧
          ∃ first ∈ base.spec.tasks, ∃ second ∈ head.spec.tasks,
            first.name = name ∧ second.name = name ∧ ShownAlike first second
  lines
    : ∀ change ∈ plan.changed, change.1 ∈ base.names ∧ change.1 ∈ head.names ∧ change.2 ≠ []

theorem partition (hidden : Char → Bool) (base head : DagGraph)
    : Partition (plan hidden base head) base head where
  once :=
    ⟨head.distinct.filter _, nodup_changed hidden base head,
      ((List.mergeSort_perm _ _).nodup_iff).mpr ((OrderedMap.nodup_keys _).filter _)⟩
  added := fun _ => mem_added
  removed := fun _ => mem_removed
  each := fun name there => by
    obtain ⟨second, member, named⟩ := DagGraph.mem_names.mp there
    by_cases here : name ∈ base.names
    · obtain ⟨first, member', named'⟩ := DagGraph.mem_names.mp here
      have notAdded : name ∉ (plan hidden base head).added := fun listed => (mem_added.mp listed).2 here
      by_cases shown : ShownAlike first second
      · refine .inr (.inr ⟨notAdded, fun listed => ?_, first, member', second, member, named', named, shown⟩)
        obtain ⟨one, one_, two, two_, oneNamed, twoNamed, differ⟩ := mem_changed.mp listed
        rw [base.eq_of_name one_ member' (oneNamed.trans named'.symm),
          head.eq_of_name two_ member (twoNamed.trans named.symm)] at differ
        exact differ shown
      · exact .inr (.inl ⟨notAdded, mem_changed.mpr ⟨first, member', second, member, named', named, shown⟩⟩)
    · refine .inl ⟨mem_added.mpr ⟨there, here⟩, fun listed => ?_⟩
      obtain ⟨one, one_, -, -, oneNamed, -, -⟩ := mem_changed.mp listed
      exact here (DagGraph.mem_names.mpr ⟨one, one_, oneNamed⟩)
  lines := fun change there => by
    obtain ⟨first, here, second, here', named, named', differ, lines⟩ := mem_changedTasks.mp there
    refine ⟨DagGraph.mem_names.mpr ⟨first, here, named⟩, DagGraph.mem_names.mpr ⟨second, here', named'⟩,
      fun none_ => differ ?_⟩
    exact fromSpec_eq_iff.mp (diffFields_eq_nil.mp (lines.symm.trans none_))

/-- A plan is faithful if it has changes wherever the runs of the two versions are not the same, and each task
is where it belongs.
-/
def Faithful (hidden : Char → Bool) (base head : DagGraph) : Prop :=
  ((plan hidden base head).hasChanges = false → SameRun base head) ∧
  Partition (plan hidden base head) base head

/-- A plan is faithful if the versions differ in something that is shown, or in nothing that is left out. -/
theorem faithful_iff (hidden : Char → Bool) (base head : DagGraph)
    : Faithful hidden base head ↔ ¬Shown base head ∨ LeftOut base head := by
  rw [Faithful, hasChanges_eq_false, sameRun_iff, and_iff_left (partition hidden base head)]
  constructor
  · intro same
    by_cases shown : Shown base head
    · exact .inr (same shown).2
    · exact .inl shown
  · rintro (differ | leftOut) shown
    · exact absurd shown differ
    · exact ⟨shown, leftOut⟩

def oneTask (task : TaskSpec) : DagGraph where
  spec := { name := "etl", tasks := [task] }
  distinct := List.nodup_singleton _

/-- A task that draws from another pool than before is not the same, and the plan has no changes. -/
theorem pool_hidden
    : ¬Faithful (fun _ => false) (oneTask { name := "extract", command := ["fetch"] })
        (oneTask { name := "extract", command := ["fetch"], pool := some "warehouse" }) := by
  rintro ⟨same, -⟩
  have run := same (hasChanges_eq_false.mpr
    { names := fun _ => Iff.rfl
      tasks := fun first there second there' _ => by
        obtain rfl := List.mem_singleton.mp there
        obtain rfl := List.mem_singleton.mp there'
        exact fromSpec_eq_iff.mp rfl
      runTimeoutSecs := rfl
      deadline := rfl
      notify := rfl
      resultFrom := rfl })
  have task := run.tasks _ List.mem_cons_self _ List.mem_cons_self rfl
  exact absurd (congrArg TaskSpec.pool task.rest) (by decide)

end Dagron.Review
