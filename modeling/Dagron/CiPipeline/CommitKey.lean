import Dagron.CiPipeline.Compile

/-! The key of a commit's event, by which its run is submitted once, and the request that the event compiles to.
-/

namespace Dagron.CiPipeline

open Dagron.Library
open Dagron.Spec (Json splitOnce_char)

-- Events as they are queued

inductive Trust where
  | trusted
  | untrusted
  | agent
  deriving DecidableEq

def Trust.asStr : Trust → String
  | .trusted => "trusted"
  | .untrusted => "untrusted"
  | .agent => "agent"

/-- The events that may lead to a run, or cancel one. -/
inductive Kind where
  | push
  | tag
  | delete
  | pullRequest
  | pullRequestClosed
  | mergeGroup
  | mergeGroupDestroyed
  | dispatch
  | schedule
  deriving DecidableEq

def Kind.asStr : Kind → String
  | .push => "push"
  | .tag => "tag"
  | .delete => "delete"
  | .pullRequest => "pull_request"
  | .pullRequestClosed => "pull_request_closed"
  | .mergeGroup => "merge_group"
  | .mergeGroupDestroyed => "merge_group_destroyed"
  | .dispatch => "dispatch"
  | .schedule => "schedule"

/-- A full commit id: 40 hex digits or 64, in lower case. -/
def isCommitId (id : String) : Bool :=
  (id.utf8ByteSize = 40 || id.utf8ByteSize = 64)
    && id.toList.all fun char => char.isDigit || ('a' ≤ char && char ≤ 'f')

/-- An event as the receivers hand it to the queue: each has looked at its commit's id. -/
structure NewEvent where
  kind
    : Kind
  gitRef
    : String
  sha
    : String
  /-- The commit of an annotated tag, whose own id the event came with. -/
  commit
    : Option String
  baseSha
    : Option String
  baseRef
    : Option String
  pr
    : Option Int
  trust
    : Trust
  is_sha
    : isCommitId sha

def commitKey (repoId : String) (event : NewEvent) : String :=
  "ci:" ++ repoId ++ ":" ++ event.kind.asStr ++ ":" ++ event.gitRef ++ ":" ++ event.sha

/-- An event in the queue: its id, which has no colon, and the inputs of a dispatch. -/
structure Queued where
  id
    : String
  event
    : NewEvent
  inputs
    : OrderedMap String String
  plain
    : ':' ∉ id.toList

/-- The key that an event is queued under: a dispatch's ends in its own id. -/
def Queued.key (repoId : String) (queued : Queued) : String :=
  match queued.event.kind with
  | .dispatch => commitKey repoId queued.event ++ ":" ++ queued.id
  | _ => commitKey repoId queued.event

structure Repo where
  id
    : String
  fullName
    : String
  forgeHost
    : String

/-- The event, as the compiler reads it: its commit is the one that an annotated tag names, where it is known. The
changed files are looked up where a filter asks for them.
-/
def compileEvent (repo : Repo) (queued : Queued) (changed : Changes) : Event where
  kind := queued.event.kind.asStr
  gitRef := queued.event.gitRef
  sha := queued.event.commit.getD queued.event.sha
  baseSha := queued.event.baseSha
  baseRef := queued.event.baseRef
  pr := queued.event.pr
  trust := queued.event.trust.asStr
  repo := repo.fullName
  forgeHost := repo.forgeHost
  inputs := queued.inputs
  changed := changed

-- What the key keeps

theorem colon_append_inj {first first' rest rest' : List Char} (plain : ':' ∉ first) (plain' : ':' ∉ first')
    (same : first ++ ':' :: rest = first' ++ ':' :: rest')
    : first = first' ∧ rest = rest' := by
  have read := splitOnce_char plain rest
  rw [same, splitOnce_char plain', Option.some.injEq, Prod.mk.injEq] at read
  exact ⟨read.1.symm, read.2.symm⟩

theorem append_colon_inj {rest rest' last last' : List Char} (plain : ':' ∉ last) (plain' : ':' ∉ last')
    (same : rest ++ ':' :: last = rest' ++ ':' :: last')
    : rest = rest' ∧ last = last' := by
  have reversed (rest last : List Char) : (rest ++ ':' :: last).reverse = last.reverse ++ ':' :: rest.reverse := by
    simp
  have same_ := congrArg List.reverse same
  rw [reversed, reversed] at same_
  have read := colon_append_inj (by rwa [List.mem_reverse]) (by rwa [List.mem_reverse]) same_
  exact ⟨List.reverse_injective read.2, List.reverse_injective read.1⟩

theorem NewEvent.plain (event : NewEvent)
    : ':' ∉ event.sha.toList := by
  intro there
  have hex := event.is_sha
  simp only [isCommitId, Bool.and_eq_true, List.all_eq_true] at hex
  exact absurd (hex.2 ':' there) (by decide)

theorem Kind.plain (kind : Kind)
    : ':' ∉ kind.asStr.toList := by
  cases kind <;> decide

theorem Kind.asStr_inj {kind kind' : Kind} (same : kind.asStr = kind'.asStr)
    : kind = kind' := by
  revert same
  cases kind <;> cases kind' <;> decide

def Queued.tail (queued : Queued) : List Char :=
  let commit := queued.event.gitRef.toList ++ ':' :: queued.event.sha.toList
  match queued.event.kind with
  | .dispatch => commit ++ ':' :: queued.id.toList
  | _ => commit

theorem Queued.toList_key (repoId : String) (queued : Queued)
    : (queued.key repoId).toList
      = "ci:".toList ++ repoId.toList ++ ':' :: (queued.event.kind.asStr.toList ++ ':' :: queued.tail) := by
  unfold key tail commitKey
  cases queued.event.kind <;> simp [String.toList_append]

theorem Queued.key_inj {repoId : String} {first second : Queued}
    (same : first.key repoId = second.key repoId)
    : first.event.kind = second.event.kind ∧ first.event.gitRef = second.event.gitRef
        ∧ first.event.sha = second.event.sha
        ∧ (first.event.kind = .dispatch → first.id = second.id) := by
  have texts := congrArg String.toList same
  rw [toList_key, toList_key] at texts
  have rest := (List.cons.inj (List.append_cancel_left texts)).2
  obtain ⟨kind, tails⟩ := colon_append_inj (Kind.plain _) (Kind.plain _) rest
  have kind_ := Kind.asStr_inj (String.toList_inj.mp kind)
  unfold tail at tails
  rw [← kind_] at tails
  have commit (texts : first.event.gitRef.toList ++ ':' :: first.event.sha.toList
        = second.event.gitRef.toList ++ ':' :: second.event.sha.toList)
      : first.event.gitRef = second.event.gitRef ∧ first.event.sha = second.event.sha := by
    obtain ⟨ref, sha⟩ := append_colon_inj first.event.plain second.event.plain texts
    exact ⟨String.toList_inj.mp ref, String.toList_inj.mp sha⟩
  by_cases dispatch : first.event.kind = .dispatch
  · rw [dispatch] at tails
    obtain ⟨texts, id⟩ := append_colon_inj first.plain second.plain tails
    obtain ⟨ref, sha⟩ := commit texts
    exact ⟨kind_, ref, sha, fun _ => String.toList_inj.mp id⟩
  · have texts : first.event.gitRef.toList ++ ':' :: first.event.sha.toList
        = second.event.gitRef.toList ++ ':' :: second.event.sha.toList := by
      dsimp only at tails
      split at tails
      next is_ => exact absurd is_ dispatch
      next => exact tails
    obtain ⟨ref, sha⟩ := commit texts
    exact ⟨kind_, ref, sha, fun is_ => absurd is_ dispatch⟩

-- What the request holds

theorem get?_extend_absent {map : OrderedMap String String} {entries : List (String × String)}
    {key : String} (absent : key ∉ entries.map Prod.fst)
    : (extend map entries).get? key = map.get? key := by
  unfold extend
  induction entries generalizing map with
  | nil => rfl
  | cons entry rest ih =>
      rw [List.map_cons, List.mem_cons, not_or] at absent
      rw [List.foldl_cons, ih absent.2, OrderedMap.get?_insert, if_neg absent.1]

theorem get?_extend {map : OrderedMap String String} {entries : List (String × String)}
    {key value : String} (differ : (entries.map Prod.fst).Nodup) (there : (key, value) ∈ entries)
    : (extend map entries).get? key = some value := by
  induction entries generalizing map with
  | nil => cases there
  | cons entry rest ih =>
      obtain ⟨absent, differ⟩ := List.nodup_cons.mp differ
      obtain rfl | there := List.mem_cons.mp there
      · have last : (extend (map.insert key value) rest).get? key = _ := get?_extend_absent absent
        rw [OrderedMap.get?_insert, if_pos rfl] at last
        exact last
      · exact ih differ there

theorem get?_parameters {p : FilteredPipeline} {ev : Event} {given : OrderedMap String String}
    {name value : String} (there : (name, value) ∈ ciParameters ev)
    : (extend (extend given (ciParameters ev)) (failedParameters p ev)).get? name = some value := by
  have names : (ciParameters ev).map Prod.fst = CI_PARAMETERS := rfl
  have listed : name ∈ CI_PARAMETERS := names ▸ List.mem_map_of_mem there
  have absent : name ∉ (failedParameters p ev).map Prod.fst := by
    have apart : ∀ name ∈ CI_PARAMETERS, name ∉ FAILED_PARAMETERS := by decide
    unfold failedParameters
    split
    · rw [List.map_map]
      exact fun other => apart name listed (by simpa using other)
    · exact List.not_mem_nil
  rw [get?_extend_absent absent]
  exact get?_extend (names ▸ (by decide : CI_PARAMETERS.Nodup)) there

theorem wholeText_inj {first second : Int} (same : wholeText first = wholeText second)
    : first = second := by
  have unsigned (number : Nat) (rest : List Char) : '-' :: rest ≠ decimal number := fun same =>
    absurd (isDigit_of_mem_decimal (same ▸ List.mem_cons_self : '-' ∈ decimal number)) (by decide)
  have texts := String.ofList_injective same
  split at texts <;> split at texts
  · have values := decimal_inj.mp (List.cons.inj texts).2
    omega
  · exact absurd texts (unsigned _ _)
  · exact absurd texts.symm (unsigned _ _)
  · have values := decimal_inj.mp texts
    omega

theorem wholeText_ne (number : Int)
    : wholeText number ≠ "" := by
  intro empty
  have none_ := String.ofList_injective empty
  exact Nat.toDigits_ne_nil (List.append_eq_nil_iff.mp none_).2

theorem prText_inj {first second : Option Int}
    (same : (first.map wholeText).getD "" = (second.map wholeText).getD "")
    : first = second := by
  cases first with
  | none =>
      cases second with
      | none => rfl
      | some number => exact absurd same.symm (wholeText_ne number)
  | some number =>
      cases second with
      | none => exact absurd same (wholeText_ne number)
      | some other => exact congrArg some (wholeText_inj same)

-- The same request

/-- Two events say the same of what a request takes of an event beside its key: the commit that runs, the commit
and the branch that it is measured against, the pull request, and its trust.
-/
structure Agree (first second : NewEvent) : Prop where
  commit
    : first.commit.getD first.sha = second.commit.getD second.sha
  baseSha
    : first.baseSha.getD "" = second.baseSha.getD ""
  baseRef
    : fullRef first.baseRef = fullRef second.baseRef
  pr
    : first.pr = second.pr
  trust
    : first.trust = second.trust

theorem Trust.asStr_inj {trust trust' : Trust} (same : trust.asStr = trust'.asStr)
    : trust = trust' := by
  revert same
  cases trust <;> cases trust' <;> decide

variable {debug : List Char → String} {write : Json → Except String String} {p : FilteredPipeline}
  {settings : Settings} {repo : Repo} {first second : Queued} {changed changed' : Changes}
  {compiled compiled' : Compiled}

theorem agree_of_same
    (runs : compile debug write p (compileEvent repo first changed) settings = .ok (.run compiled))
    (runs' : compile debug write p (compileEvent repo second changed') settings = .ok (.run compiled'))
    (same : compiled = compiled')
    : Agree first.event second.event := by
  obtain ⟨given, -, -, parameters⟩ := compile_run runs
  obtain ⟨given', -, -, parameters'⟩ := compile_run runs'
  have alike {name value value' : String} (there : (name, value) ∈ ciParameters (compileEvent repo first changed))
      (there' : (name, value') ∈ ciParameters (compileEvent repo second changed'))
      : value = value' := by
    have held := @get?_parameters p _ given _ _ there
    rw [← parameters, same, parameters', get?_parameters there'] at held
    exact (Option.some.inj held).symm
  constructor
  · exact @alike "ci_sha" _ _ (by simp [ciParameters, compileEvent]) (by simp [ciParameters, compileEvent])
  · exact @alike "ci_base_sha" _ _ (by simp [ciParameters, compileEvent]) (by simp [ciParameters, compileEvent])
  · exact @alike "ci_base_ref" _ _ (by simp [ciParameters, compileEvent, baseRef])
      (by simp [ciParameters, compileEvent, baseRef])
  · exact prText_inj (@alike "ci_pr" _ _ (by simp [ciParameters, compileEvent])
      (by simp [ciParameters, compileEvent]))
  · exact Trust.asStr_inj (@alike "ci_trust" _ _ (by simp [ciParameters, compileEvent])
      (by simp [ciParameters, compileEvent]))

theorem ciParameters_eq (kind : first.event.kind = second.event.kind)
    (ref : first.event.gitRef = second.event.gitRef) (agree : Agree first.event second.event)
    : ciParameters (compileEvent repo first changed) = ciParameters (compileEvent repo second changed') := by
  have group_ : group (compileEvent repo first changed) = group (compileEvent repo second changed') := by
    unfold group compileEvent
    dsimp only
    rw [kind, ref, agree.pr]
  simp only [ciParameters, group_]
  simp only [baseRef, compileEvent, kind, ref, agree.commit, agree.baseSha, agree.baseRef, agree.pr, agree.trust]

/-- Two events of one repository that are queued under one key make the same request, where they run a pipeline, just
where they say the same of the commit that runs, of what it is measured against, of the pull request and of its
trust.
-/
theorem same_request_iff (key : first.key repo.id = second.key repo.id)
    (rows : first.id = second.id → first = second)
    (runs : compile debug write p (compileEvent repo first changed) settings = .ok (.run compiled))
    (runs' : compile debug write p (compileEvent repo second changed') settings = .ok (.run compiled'))
    : compiled = compiled' ↔ Agree first.event second.event := by
  refine ⟨agree_of_same runs runs', fun agree => ?_⟩
  obtain ⟨kind, ref, -, id⟩ := Queued.key_inj key
  obtain ⟨given, taken, yaml, parameters⟩ := compile_run runs
  obtain ⟨given', taken', yaml', parameters'⟩ := compile_run runs'
  have inputs_ : given = given' := by
    by_cases dispatch : first.event.kind = .dispatch
    · obtain rfl := rows (id dispatch)
      exact Except.ok.inj (taken.symm.trans taken')
    · have none_ {queued : Queued} (other : queued.event.kind ≠ .dispatch) (changed : Changes)
          : inputs debug p (compileEvent repo queued changed) = .ok .empty :=
        if_pos fun same => other (Kind.asStr_inj same)
      rw [none_ dispatch] at taken
      rw [none_ (kind ▸ dispatch)] at taken'
      exact Except.ok.inj (taken.symm.trans taken')
  have failed_ : failedParameters p (compileEvent repo first changed)
      = failedParameters p (compileEvent repo second changed') := by
    have other (queued : Queued) (changed : Changes) : (compileEvent repo queued changed).kind ≠ "failed" := by
      show queued.event.kind.asStr ≠ "failed"
      cases queued.event.kind <;> decide
    simp only [failedParameters, if_neg (other _ _)]
  obtain ⟨text, values⟩ := compiled
  obtain ⟨text', values'⟩ := compiled'
  rw [inputs_] at yaml parameters
  rw [ciParameters_eq kind ref agree, failed_, ← parameters'] at parameters
  exact Compiled.mk.injEq .. ▸ ⟨Except.ok.inj (yaml.symm.trans yaml'), parameters⟩

-- A push seen twice

/-- A pipeline that every push runs, of one task with a command of its own. -/
def pushed : FilteredPipeline where
  name := "ci"
  on := {}
  concurrency := none
  tasks := [{ name := "build", fields := [("command", .array [.string "make"])] }]
  spec := []
  filters := { push := some {} }

def pushedYaml : String :=
  "name: ci\nparameters:\n"
    ++ String.join (CI_PARAMETERS.map fun name => "  " ++ name ++ ": ''\n")
    ++ "tags:\n- ci\ntask_defaults:\n  timeout_secs: 3600\n  env:\n"
    ++ String.join (CI_PARAMETERS.map fun name => "  - name: " ++ String.ofList (name.toList.map Char.toUpper)
      ++ "\n    value: '" ++ placeholder name ++ "'\n")
    ++ "tasks:\n- name: build\n  command:\n  - make\n"

/-- A push to the main branch, measured against a commit. -/
def pushFrom (id base : String) (plain : ':' ∉ id.toList) : Queued where
  id := id
  event := {
    kind := .push
    gitRef := "refs/heads/main"
    sha := "cccccccccccccccccccccccccccccccccccccccc"
    commit := none
    baseSha := some base
    baseRef := none
    pr := none
    trust := .trusted
    is_sha := by decide
  }
  inputs := .empty
  plain := plain

def widgets : Repo :=
  ⟨"r1", "acme/widgets", "github.com"⟩

/-- The commits that a webhook and a sweep measure the push against: the sweep did not see the second of them. -/
def seenLast : String :=
  "aaaaaaaaaaaaaaaaaaaaaaaaaaaaaaaaaaaaaaaa"

def pushedLast : String :=
  "bbbbbbbbbbbbbbbbbbbbbbbbbbbbbbbbbbbbbbbb"

def requestOf (queued : Queued) : Except String Outcome :=
  compile (fun text => String.ofList text) (fun _ => .ok pushedYaml) pushed
    (compileEvent widgets queued .unknown) {}

theorem requestOf_push (id base : String) (plain : ':' ∉ id.toList)
    : requestOf (pushFrom id base plain) = .ok (.run ⟨pushedYaml,
        extend (extend .empty (ciParameters (compileEvent widgets (pushFrom id base plain) .unknown))) []⟩) :=
  rfl

theorem same_request_of_push
    : ∃ request,
        requestOf (pushFrom "e1" seenLast (by decide)) = .ok (.run request)
          ∧ requestOf (pushFrom "e2" seenLast (by decide)) = .ok (.run request) := by
  have runs := requestOf_push "e1" seenLast (by decide)
  have runs' := requestOf_push "e2" seenLast (by decide)
  have key : (pushFrom "e1" seenLast (by decide)).key widgets.id
      = (pushFrom "e2" seenLast (by decide)).key widgets.id := rfl
  have same := (same_request_iff key (fun same => absurd same (by decide)) runs runs').mpr
    ⟨rfl, rfl, rfl, rfl, rfl⟩
  exact ⟨_, runs, same ▸ runs'⟩

/-- A webhook and a sweep see one commit, under one key, and make two requests. -/
theorem one_key_two_requests
    : (pushFrom "e1" pushedLast (by decide)).key widgets.id = (pushFrom "e2" seenLast (by decide)).key widgets.id
        ∧ ∃ request request',
          requestOf (pushFrom "e1" pushedLast (by decide)) = .ok (.run request)
            ∧ requestOf (pushFrom "e2" seenLast (by decide)) = .ok (.run request')
            ∧ request ≠ request' := by
  refine ⟨rfl, _, _, requestOf_push _ _ _, requestOf_push _ _ _, fun same => ?_⟩
  have agree := agree_of_same (requestOf_push "e1" pushedLast (by decide))
    (requestOf_push "e2" seenLast (by decide)) same
  exact absurd agree.baseSha (by decide)

end Dagron.CiPipeline
