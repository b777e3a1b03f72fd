import Dagron.Library.Raising
import Dagron.Spec.Graph

/-! What a task is allowed to do: the envelope it declares, the floors an operator sets, and the
envelope that is in force once each floor has raised it.
-/

namespace Dagron.Spec

open Dagron.Library

-- Envelopes

/-- The seccomp posture of a task. -/
inductive Seccomp where
  | unconfined
  | runtimeDefault
  deriving DecidableEq, Repr

def Seccomp.strength : Seccomp → Nat
  | unconfined => 0
  | runtimeDefault => 1

def Seccomp.label : Seccomp → String
  | unconfined => "Unconfined"
  | runtimeDefault => "RuntimeDefault"

/-- What of the network a task has: its executor's, what an allowlist of the operator's lets it
reach, or none.
-/
inductive Network where
  | default
  | allow (name : String)
  | none
  deriving DecidableEq, Repr

/-- The spelling of a network in a specification, in a floor and in what is attested. -/
def Network.label : Network → String
  | default => "default"
  | allow name => "allow:" ++ name
  | none => "none"

def Network.allowlist : Network → Option String
  | allow name => some name
  | _ => Option.none

/-- What one task is allowed to do; a field that is not set says nothing. -/
structure IsolationSpec where
  runtimeClass
    : Option String := none
  seccomp
    : Option Seccomp := none
  readOnlyRootFs
    : Option Bool := none
  noNewPrivileges
    : Option Bool := none
  dropAllCapabilities
    : Option Bool := none
  runAsNonRoot
    : Option Bool := none
  runAsUser
    : Option Int := none
  serviceAccountToken
    : Option Bool := none
  network
    : Option Network := none
  deriving DecidableEq, Repr

def IsolationSpec.isEmpty (spec : IsolationSpec) : Bool :=
  spec = {}

-- Envelopes that mean what they say

/-- Whether a text of at most (most) bytes is a DNS label. -/
def isDnsLabel (most : Nat) (label : String) : Bool :=
  let isDnsChar (char : Char) : Bool :=
    ('a' ≤ char && char ≤ 'z') || ('0' ≤ char && char ≤ '9') || char == '-'
  !label.isEmpty && label.utf8ByteSize ≤ most && label.toList.all isDnsChar
    && label.toList.head? != some '-' && label.toList.getLast? != some '-'

def allowlistNameMax : Nat :=
  57

def validAllowlistName (name : String) : Except String Unit :=
  require (isDnsLabel allowlistNameMax name)
    ("an allowlist's name is 1 to " ++ toString allowlistNameMax ++ " characters of [a-z0-9-], "
      ++ "neither starting nor ending with '-', and '" ++ name ++ "' is not")

def validRuntimeClass (name : String) : Except String Unit := do
  require (!name.isEmpty && name.utf8ByteSize ≤ 253)
    ("isolation.runtime_class must be 1-253 characters, got " ++ toString name.utf8ByteSize)
  require ((name.toList.splitOn '.').all (fun label => isDnsLabel 63 (String.ofList label)))
    ("isolation.runtime_class '" ++ name ++ "' must be a lowercase RFC 1123 subdomain: "
      ++ "dot-separated labels of [a-z0-9-], each non-empty and neither starting nor ending "
      ++ "with '-'")

def validUser (uid : Int) : Except String Unit := do
  require (uid ≠ 0)
    ("isolation.run_as_user must not be 0 — to run as root, leave run_as_user unset and set "
      ++ "run_as_non_root: false, so the spec says what it means")
  require (0 ≤ uid) ("isolation.run_as_user must not be negative, got " ++ toString uid)

def IsolationSpec.validate (spec : IsolationSpec) : Except String Unit := do
  spec.runtimeClass.forM validRuntimeClass
  spec.runAsUser.forM validUser
  require (!(spec.runAsNonRoot = some true ∧ spec.runAsUser = some 0))
    "isolation.run_as_non_root: true contradicts run_as_user: 0"
  (spec.network.bind Network.allowlist).forM fun name =>
    match validAllowlistName name with
    | .ok _ => .ok ()
    | .error why => .error ("isolation.network: " ++ why)

-- Floors

/-- One field that a floor overrode. -/
structure Tightened where
  field
    : String
  requested
    : String
  applied
    : String
  deriving DecidableEq, Repr

/-- The stronger of a requested and a floored boolean, of which (strong) is the strong one. -/
def strongerBool (field : String) (requested floor : Option Bool) (strong : Bool)
    : Option Bool × List Tightened :=
  match floor with
  | none => (requested, [])
  | some floor =>
      if floor ≠ strong then (requested, [])
      else if requested = some strong then (requested, [])
      else (some strong, [⟨field, (requested.map toString).getD "unset", toString strong⟩])

def strongerSeccomp (requested floor : Option Seccomp) : Option Seccomp × List Tightened :=
  match floor with
  | none => (requested, [])
  | some floor =>
      if floor = .unconfined then (requested, [])
      else if requested.all (fun own => own.strength < floor.strength) then
        (some floor, [⟨"seccomp", (requested.map Seccomp.label).getD "unset", floor.label⟩])
      else (requested, [])

/-- What a floor puts in the place of a requested network, if anything. -/
def raisedNetwork (requested floor : Option Network) : Option Network :=
  match floor, requested with
  | some .none, asked => if asked ≠ some .none then some .none else none
  | some (.allow pinned), asked =>
      match asked with
      | some .none => none
      | some (.allow named) => if named = pinned then none else some (.allow pinned)
      | _ => some (.allow pinned)
  | _, _ => none

def strongerNetwork (requested floor : Option Network) : Option Network × List Tightened :=
  match raisedNetwork requested floor with
  | none => (requested, [])
  | some applied =>
      (some applied,
        [⟨"network", (requested.map Network.label).getD "unset", applied.label⟩])

def flooredUser (requested floor : Option Int) : Option Int × List Tightened :=
  match floor with
  | none => (requested, [])
  | some uid =>
      if requested.isNone then (some uid, [⟨"run_as_user", "unset", toString uid⟩])
      else (requested, [])

/-- A floor's runtime class, whatever the task asked for. -/
def pinnedRuntimeClass (requested floor : Option String) : Option String × List Tightened :=
  match floor with
  | none => (requested, [])
  | some pinned =>
      if requested ≠ some pinned then
        (some pinned, [⟨"runtime_class", requested.getD "unset", pinned⟩])
      else (requested, [])

/-- An envelope raised to a floor, and every field that the floor overrode. -/
def IsolationSpec.applyFloor (spec floor : IsolationSpec) : IsolationSpec × List Tightened :=
  let seccomp := strongerSeccomp spec.seccomp floor.seccomp
  let readOnly :=
    strongerBool "read_only_root_fs" spec.readOnlyRootFs floor.readOnlyRootFs true
  let privileges :=
    strongerBool "no_new_privileges" spec.noNewPrivileges floor.noNewPrivileges true
  let capabilities :=
    strongerBool "drop_all_capabilities" spec.dropAllCapabilities floor.dropAllCapabilities true
  let nonRoot := strongerBool "run_as_non_root" spec.runAsNonRoot floor.runAsNonRoot true
  let token :=
    strongerBool "service_account_token" spec.serviceAccountToken floor.serviceAccountToken false
  let network := strongerNetwork spec.network floor.network
  let user := flooredUser spec.runAsUser floor.runAsUser
  let runtimeClass := pinnedRuntimeClass spec.runtimeClass floor.runtimeClass
  ({ runtimeClass := runtimeClass.1
     seccomp := seccomp.1
     readOnlyRootFs := readOnly.1
     noNewPrivileges := privileges.1
     dropAllCapabilities := capabilities.1
     runAsNonRoot := nonRoot.1
     runAsUser := user.1
     serviceAccountToken := token.1
     network := network.1 },
    seccomp.2 ++ readOnly.2 ++ privileges.2 ++ capabilities.2 ++ nonRoot.2 ++ token.2
      ++ network.2 ++ user.2 ++ runtimeClass.2)

/-- The envelope a task runs under, of the one it declares, the engine's floor and the one for
runs that are not trusted, and what it is told was overridden; no envelope where none of them
says anything.
-/
def effectiveIsolation (declared floor classFloor : Option IsolationSpec)
    : Option IsolationSpec × List Tightened :=
  match declared, floor, classFloor with
  | none, none, none => (none, [])
  | declared, floor, classFloor =>
      let declared := declared.getD {}
      let (raised, tightened) := match floor with
        | some floor => declared.applyFloor floor
        | none => (declared, [])
      let (effective, more) := match classFloor with
        | some floor => raised.applyFloor floor
        | none => (raised, [])
      (if effective.isEmpty then none else some effective,
        (tightened ++ more).filter (fun one => one.requested ≠ "unset"))

-- Each field

/-- What a field may become: what it was, or its strong value. -/
def Strengthened {α : Type} (strong : α) (before after : Option α) : Prop :=
  after = before ∨ after = some strong

section Fields

variable {α : Type} {strong : α} {before middle after : Option α}

theorem Strengthened.trans (first : Strengthened strong before middle)
    (second : Strengthened strong middle after)
    : Strengthened strong before after := by
  rcases second with rfl | strengthened
  · exact first
  · exact .inr strengthened

theorem Strengthened.keeps (raised : Strengthened strong before after) (held : before = some strong)
    : after = some strong := by
  rcases raised with rfl | strengthened
  · exact held
  · exact strengthened

theorem strongerBool_strengthened (field : String) (requested floor : Option Bool) (strong : Bool)
    : Strengthened strong requested (strongerBool field requested floor strong).1 := by
  unfold strongerBool Strengthened
  split
  · simp
  · split_ifs <;> simp

theorem strongerBool_imposed {field : String} {requested floor : Option Bool} {strong : Bool}
    (imposed : floor = some strong)
    : (strongerBool field requested floor strong).1 = some strong := by
  subst imposed
  by_cases held : requested = some strong <;> simp [strongerBool, held]

theorem strongerBool_of_met {field : String} {requested floor : Option Bool} {strong : Bool}
    (met : floor = some strong → requested = some strong)
    : strongerBool field requested floor strong = (requested, []) := by
  cases floor with
  | none => rfl
  | some floor =>
      by_cases same : floor = strong
      · simp [strongerBool, met (congrArg some same)]
      · simp [strongerBool, same]

theorem strongerSeccomp_strengthened (requested floor : Option Seccomp)
    : Strengthened .runtimeDefault requested (strongerSeccomp requested floor).1 := by
  rcases floor with _ | _ | _ <;> rcases requested with _ | _ | _ <;>
    simp [strongerSeccomp, Strengthened, Seccomp.strength]

theorem strongerSeccomp_imposed {requested floor : Option Seccomp} (imposed : floor = some .runtimeDefault)
    : (strongerSeccomp requested floor).1 = some .runtimeDefault := by
  subst imposed
  rcases requested with _ | _ | _ <;> rfl

theorem strongerSeccomp_of_met {requested floor : Option Seccomp}
    (met : floor = some .runtimeDefault → requested = some .runtimeDefault)
    : strongerSeccomp requested floor = (requested, []) := by
  rcases floor with _ | _ | _
  · rfl
  · rfl
  · rw [met rfl]
    rfl

/-- How much of the network is taken away: nothing, all but an allowlist, or all. -/
def Network.strength : Option Network → Nat
  | some .none => 2
  | some (.allow _) => 1
  | _ => 0

theorem Network.eq_none_of_strength {network : Option Network} (all : 2 ≤ strength network)
    : network = some .none := by
  rcases network with _ | _ | _ | _ <;> simp_all [strength]

theorem strongerNetwork_strength (requested floor : Option Network)
    : Network.strength requested ≤ Network.strength (strongerNetwork requested floor).1
      ∧ Network.strength floor ≤ Network.strength (strongerNetwork requested floor).1 := by
  rcases floor with _ | _ | pinned | _ <;> rcases requested with _ | _ | named | _ <;>
    first
    | decide
    | simp [strongerNetwork, raisedNetwork, Network.strength]
  split_ifs <;> simp

theorem strongerNetwork_of_met {requested floor : Option Network}
    (less : Network.strength floor ≤ Network.strength requested)
    (pin : ∀ name, floor = some (.allow name) → requested = some (.allow name) ∨ requested = some .none)
    : strongerNetwork requested floor = (requested, []) := by
  rcases floor with _ | _ | pinned | _
  · rfl
  · rfl
  · rcases pin pinned rfl with rfl | rfl
    · simp [strongerNetwork, raisedNetwork]
    · rfl
  · rw [Network.eq_none_of_strength less]
    rfl

/-- Where neither a task nor a floor takes the whole network away, the floor's allowlist stands,
and else the task's.
-/
theorem strongerNetwork_pinned {requested floor : Option Network}
    (open_ : requested ≠ some .none) (part : floor ≠ some .none)
    : (strongerNetwork requested floor).1
      = ((floor.bind Network.allowlist).map Network.allow).or requested := by
  rcases floor with _ | _ | pinned | _
  · rfl
  · rfl
  · rcases requested with _ | _ | named | _
    · rfl
    · rfl
    · by_cases same : named = pinned <;>
        simp [strongerNetwork, raisedNetwork, Network.allowlist, same]
    · exact absurd rfl open_
  · exact absurd rfl part

theorem pinnedRuntimeClass_eq (requested floor : Option String)
    : (pinnedRuntimeClass requested floor).1 = floor.or requested := by
  rcases floor with _ | pinned
  · rfl
  · by_cases same : requested = some pinned <;> simp [pinnedRuntimeClass, same]

theorem pinnedRuntimeClass_of_met {requested floor : Option String}
    (met : ∀ name, floor = some name → requested = some name)
    : pinnedRuntimeClass requested floor = (requested, []) := by
  rcases floor with _ | pinned
  · rfl
  · simp [pinnedRuntimeClass, met pinned rfl]

theorem flooredUser_eq (requested floor : Option Int)
    : (flooredUser requested floor).1 = requested.or floor := by
  rcases floor with _ | uid <;> rcases requested with _ | own <;> rfl

theorem flooredUser_of_met {requested floor : Option Int} (met : floor.isSome → requested.isSome)
    : flooredUser requested floor = (requested, []) := by
  rcases floor with _ | uid
  · rfl
  · obtain ⟨own, rfl⟩ := Option.isSome_iff_exists.mp (met rfl)
    rfl

end Fields

-- Valid envelopes

theorem optionForM_eq_ok {α : Type} {item : Option α} {check : α → Except String Unit}
    : item.forM check = .ok () ↔ ∀ value, item = some value → check value = .ok () := by
  cases item <;> simp [Option.forM, pure, Except.pure]

/-- What a valid envelope holds: a DNS subdomain, a user that is not root and an allowlist's
name, each where it is set.
-/
theorem validate_eq_ok {spec : IsolationSpec}
    : spec.validate = .ok ()
      ↔ (∀ name, spec.runtimeClass = some name → validRuntimeClass name = .ok ())
        ∧ (∀ uid, spec.runAsUser = some uid → 0 < uid)
        ∧ (∀ name, spec.network = some (.allow name) → validAllowlistName name = .ok ()) := by
  have user {uid : Int} : validUser uid = .ok () ↔ 0 < uid := by
    simp only [validUser, bind_eq_ok, require_eq_ok, decide_eq_true_eq]
    omega
  have named {name : String} : (match validAllowlistName name with
      | .ok _ => .ok ()
      | .error why => .error ("isolation.network: " ++ why) : Except String Unit) = .ok ()
      ↔ validAllowlistName name = .ok () := by
    cases validAllowlistName name <;> simp
  have allowed {name : String} : spec.network.bind Network.allowlist = some name
      ↔ spec.network = some (.allow name) := by
    rcases spec.network with _ | _ | _ | _ <;> simp [Network.allowlist]
  simp only [IsolationSpec.validate, bind_eq_ok, optionForM_eq_ok, require_eq_ok, user, named, allowed]
  refine and_congr_right fun _ => and_congr_right fun users => and_iff_right ?_
  simp only [Bool.not_eq_true', decide_eq_false_iff_not]
  rintro ⟨_, root⟩
  exact absurd (users 0 root) (lt_irrefl 0)

/-- An envelope that means what it says. -/
structure Envelope where
  spec
    : IsolationSpec
  valid
    : spec.validate = .ok ()

namespace Envelope

theorem user_pos (envelope : Envelope) {uid : Int} (user : envelope.spec.runAsUser = some uid)
    : 0 < uid :=
  (validate_eq_ok.mp envelope.valid).2.1 uid user

theorem valid_raise (task floor : Envelope)
    : (task.spec.applyFloor floor.spec).1.validate = .ok () := by
  obtain ⟨classes, users, names⟩ := validate_eq_ok.mp task.valid
  obtain ⟨classes', users', names'⟩ := validate_eq_ok.mp floor.valid
  refine validate_eq_ok.mpr ⟨fun name named => ?_, fun uid user => ?_, fun name named => ?_⟩
  · rw [show (task.spec.applyFloor floor.spec).1.runtimeClass = _ from pinnedRuntimeClass_eq _ _] at named
    rcases Option.or_eq_some_iff.mp named with pinned | ⟨_, own⟩
    · exact classes' name pinned
    · exact classes name own
  · rw [show (task.spec.applyFloor floor.spec).1.runAsUser = _ from flooredUser_eq _ _] at user
    rcases Option.or_eq_some_iff.mp user with own | ⟨_, floored⟩
    · exact users uid own
    · exact users' uid floored
  · have from_ : task.spec.network = some (.allow name) ∨ floor.spec.network = some (.allow name) := by
      change (strongerNetwork _ _).1 = _ at named
      by_cases none_ : task.spec.network = some .none ∨ floor.spec.network = some .none
      · have less := strongerNetwork_strength task.spec.network floor.spec.network
        rw [named] at less
        rcases none_ with whole | whole <;> simp [whole, Network.strength] at less
      · obtain ⟨open_, part⟩ := not_or.mp none_
        rw [strongerNetwork_pinned open_ part] at named
        rcases Option.or_eq_some_iff.mp named with pinned | ⟨_, own⟩
        · rcases whole : floor.spec.network with _ | _ | _ | _ <;>
            simp_all [Network.allowlist]
        · exact .inl own
    exact from_.elim (names name) (names' name)

def raise (task floor : Envelope) : Envelope :=
  ⟨(task.spec.applyFloor floor.spec).1, valid_raise task floor⟩

/-- What a raise may do to an envelope: each ordered field keeps its value or takes its strong
one, the network shrinks, and what is pinned stays pinned, if to another value.
-/
structure Hardens (before after : Envelope) : Prop where
  seccomp
    : Strengthened .runtimeDefault before.spec.seccomp after.spec.seccomp
  readOnlyRootFs
    : Strengthened true before.spec.readOnlyRootFs after.spec.readOnlyRootFs
  noNewPrivileges
    : Strengthened true before.spec.noNewPrivileges after.spec.noNewPrivileges
  dropAllCapabilities
    : Strengthened true before.spec.dropAllCapabilities after.spec.dropAllCapabilities
  runAsNonRoot
    : Strengthened true before.spec.runAsNonRoot after.spec.runAsNonRoot
  serviceAccountToken
    : Strengthened false before.spec.serviceAccountToken after.spec.serviceAccountToken
  runAsUser
    : ∀ uid, before.spec.runAsUser = some uid → after.spec.runAsUser = some uid
  network
    : Network.strength before.spec.network ≤ Network.strength after.spec.network
  runtimeClass
    : before.spec.runtimeClass.isSome → after.spec.runtimeClass.isSome

instance : Preorder Envelope where
  le := Hardens
  le_refl envelope := by constructor <;> simp [Strengthened]
  le_trans first second third lower higher :=
    { seccomp := lower.seccomp.trans higher.seccomp
      readOnlyRootFs := lower.readOnlyRootFs.trans higher.readOnlyRootFs
      noNewPrivileges := lower.noNewPrivileges.trans higher.noNewPrivileges
      dropAllCapabilities := lower.dropAllCapabilities.trans higher.dropAllCapabilities
      runAsNonRoot := lower.runAsNonRoot.trans higher.runAsNonRoot
      serviceAccountToken := lower.serviceAccountToken.trans higher.serviceAccountToken
      runAsUser := fun uid user => higher.runAsUser uid (lower.runAsUser uid user)
      network := lower.network.trans higher.network
      runtimeClass := fun set => higher.runtimeClass (lower.runtimeClass set) }

/-- What an envelope has of a floor in the fields that have an order: the strong value of each
field the floor sets so, a user that is not root, no more of the network, and a pinned runtime
class.
-/
structure Meets (floor effective : Envelope) : Prop where
  seccomp
    : floor.spec.seccomp = some .runtimeDefault → effective.spec.seccomp = some .runtimeDefault
  readOnlyRootFs
    : floor.spec.readOnlyRootFs = some true → effective.spec.readOnlyRootFs = some true
  noNewPrivileges
    : floor.spec.noNewPrivileges = some true → effective.spec.noNewPrivileges = some true
  dropAllCapabilities
    : floor.spec.dropAllCapabilities = some true →
      effective.spec.dropAllCapabilities = some true
  runAsNonRoot
    : floor.spec.runAsNonRoot = some true → effective.spec.runAsNonRoot = some true
  serviceAccountToken
    : floor.spec.serviceAccountToken = some false →
      effective.spec.serviceAccountToken = some false
  runAsUser
    : floor.spec.runAsUser.isSome → ∃ uid, effective.spec.runAsUser = some uid ∧ 0 < uid
  network
    : Network.strength floor.spec.network ≤ Network.strength effective.spec.network
  runtimeClass
    : floor.spec.runtimeClass.isSome → effective.spec.runtimeClass.isSome

/-- What an envelope has of a floor's pins: its runtime class, and its allowlist or less. -/
structure HoldsPins (floor effective : Envelope) : Prop where
  runtimeClass
    : ∀ name, floor.spec.runtimeClass = some name → effective.spec.runtimeClass = some name
  network
    : ∀ name, floor.spec.network = some (.allow name) →
      effective.spec.network = some (.allow name) ∨ effective.spec.network = some .none

theorem le_raise (task floor : Envelope)
    : task ≤ task.raise floor where
  seccomp := strongerSeccomp_strengthened _ _
  readOnlyRootFs := strongerBool_strengthened _ _ _ _
  noNewPrivileges := strongerBool_strengthened _ _ _ _
  dropAllCapabilities := strongerBool_strengthened _ _ _ _
  runAsNonRoot := strongerBool_strengthened _ _ _ _
  serviceAccountToken := strongerBool_strengthened _ _ _ _
  runAsUser uid user := by
    change (flooredUser _ _).1 = _
    simp [flooredUser_eq, user]
  network := (strongerNetwork_strength _ _).1
  runtimeClass set := by
    change (pinnedRuntimeClass _ _).1.isSome
    simp [pinnedRuntimeClass_eq, set]

theorem meets_raise (task floor : Envelope)
    : floor.Meets (task.raise floor) where
  seccomp := strongerSeccomp_imposed
  readOnlyRootFs := strongerBool_imposed
  noNewPrivileges := strongerBool_imposed
  dropAllCapabilities := strongerBool_imposed
  runAsNonRoot := strongerBool_imposed
  serviceAccountToken := strongerBool_imposed
  runAsUser set := by
    have some_ : (task.raise floor).spec.runAsUser.isSome := by
      change (flooredUser _ _).1.isSome
      simp [flooredUser_eq, set]
    obtain ⟨uid, user⟩ := Option.isSome_iff_exists.mp some_
    exact ⟨uid, user, user_pos _ user⟩
  network := (strongerNetwork_strength _ _).2
  runtimeClass set := by
    change (pinnedRuntimeClass _ _).1.isSome
    simp [pinnedRuntimeClass_eq, set]

theorem holdsPins_raise (task floor : Envelope)
    : floor.HoldsPins (task.raise floor) where
  runtimeClass name pinned := by
    change (pinnedRuntimeClass _ _).1 = _
    simp [pinnedRuntimeClass_eq, pinned]
  network name pinned := by
    change (strongerNetwork _ _).1 = _ ∨ (strongerNetwork _ _).1 = _
    by_cases whole : task.spec.network = some .none
    · simp [whole, pinned, strongerNetwork, raisedNetwork]
    · refine .inl ?_
      rw [strongerNetwork_pinned whole (by simp [pinned])]
      simp [pinned, Network.allowlist]

theorem Meets.mono {floor lower higher : Envelope} (hardens : lower ≤ higher) (meets : floor.Meets lower)
    : floor.Meets higher where
  seccomp set := hardens.seccomp.keeps (meets.seccomp set)
  readOnlyRootFs set := hardens.readOnlyRootFs.keeps (meets.readOnlyRootFs set)
  noNewPrivileges set := hardens.noNewPrivileges.keeps (meets.noNewPrivileges set)
  dropAllCapabilities set := hardens.dropAllCapabilities.keeps (meets.dropAllCapabilities set)
  runAsNonRoot set := hardens.runAsNonRoot.keeps (meets.runAsNonRoot set)
  serviceAccountToken set := hardens.serviceAccountToken.keeps (meets.serviceAccountToken set)
  runAsUser set := by
    obtain ⟨uid, user, positive⟩ := meets.runAsUser set
    exact ⟨uid, hardens.runAsUser uid user, positive⟩
  network := meets.network.trans hardens.network
  runtimeClass set := hardens.runtimeClass (meets.runtimeClass set)

/-- A floor that an envelope is at least as strict as changes nothing, and has nothing to say. -/
theorem applyFloor_of_met {task floor : Envelope} (meets : floor.Meets task) (pins : floor.HoldsPins task)
    : task.spec.applyFloor floor.spec = (task.spec, []) := by
  have user (set : floor.spec.runAsUser.isSome) : task.spec.runAsUser.isSome := by
    obtain ⟨uid, user, _⟩ := meets.runAsUser set
    simp [user]
  simp only [IsolationSpec.applyFloor, strongerSeccomp_of_met meets.seccomp,
    strongerBool_of_met meets.readOnlyRootFs, strongerBool_of_met meets.noNewPrivileges,
    strongerBool_of_met meets.dropAllCapabilities, strongerBool_of_met meets.runAsNonRoot,
    strongerBool_of_met meets.serviceAccountToken,
    strongerNetwork_of_met meets.network pins.network, flooredUser_of_met user,
    pinnedRuntimeClass_of_met pins.runtimeClass, List.append_nil]

-- Floors in turn

def unset : Envelope :=
  ⟨{}, rfl⟩

def allowPin (floor : Envelope) : Option Network :=
  (floor.spec.network.bind Network.allowlist).map .allow

/-- Whether a task, or a floor, takes the whole network away. -/
def Unnetworked (task : Envelope) (floors : List Envelope) : Prop :=
  task.spec.network = some .none ∨ ∃ floor ∈ floors, floor.spec.network = some .none

instance (task : Envelope) (floors : List Envelope) : Decidable (Unnetworked task floors) :=
  inferInstanceAs (Decidable (_ ∨ _))

variable (task : Envelope) (floors : List Envelope)

theorem foldl_meets
    : ∀ floor ∈ floors, floor.Meets (floors.foldl raise task) :=
  @foldl_raise_meets _ _ raise _ Meets le_raise (fun _ _ _ => Meets.mono) meets_raise task floors

theorem runtimeClass_foldl
    : (floors.foldl raise task).spec.runtimeClass
      = (floors.reverse.findSome? (fun floor => floor.spec.runtimeClass)).or
        task.spec.runtimeClass := by
  refine (@foldl_raise_pinned _ _ _ raise (fun _ => True) _ (fun envelope => envelope.spec.runtimeClass)
    floors task ?_ trivial).2
  intro value _ floor _
  exact ⟨trivial, pinnedRuntimeClass_eq _ _⟩

theorem allowPins {task floors} (part : ¬ Unnetworked task floors)
    : task.spec.network ≠ some .none
      ∧ ∀ value : Envelope, value.spec.network ≠ some .none → ∀ floor ∈ floors,
        (value.raise floor).spec.network ≠ some .none
        ∧ (value.raise floor).spec.network = floor.allowPin.or value.spec.network := by
  obtain ⟨open_, none_⟩ := not_or.mp part
  refine ⟨open_, fun value open_ floor listed => ?_⟩
  have pinned : (value.raise floor).spec.network = floor.allowPin.or value.spec.network :=
    strongerNetwork_pinned open_ (fun whole => none_ ⟨floor, listed, whole⟩)
  refine ⟨?_, pinned⟩
  rw [pinned, allowPin]
  cases floor.spec.network.bind Network.allowlist <;> simp [open_]

/-- The network in force: none where a task or a floor takes it away; else the allowlist of the
last floor that has one, or what the task asked for.
-/
theorem network_foldl
    : (Unnetworked task floors → (floors.foldl raise task).spec.network = some .none)
      ∧ (¬ Unnetworked task floors →
        (floors.foldl raise task).spec.network
          = (floors.reverse.findSome? allowPin).or task.spec.network) := by
  constructor
  · intro whole
    apply Network.eq_none_of_strength
    rcases whole with own | ⟨floor, listed, floored⟩
    · have kept := (le_foldl_raise le_raise task floors).network
      rwa [own] at kept
    · have met := (foldl_meets task floors floor listed).network
      rwa [floored] at met
  · intro part
    obtain ⟨open_, pins⟩ := allowPins part
    exact (@foldl_raise_pinned _ _ _ raise (fun value => value.spec.network ≠ some .none) _
      (fun value => value.spec.network) floors task pins open_).2

/-- Every floor's pins are held exactly where floors pin one runtime class, and one allowlist
where none of the network is left to none of them.
-/
theorem holdsPins_iff
    : (∀ floor ∈ floors, floor.HoldsPins (floors.foldl raise task))
      ↔ PinsAgree (fun floor => floor.spec.runtimeClass) floors
        ∧ (Unnetworked task floors ∨ PinsAgree allowPin floors) := by
  have classes := @pins_held_iff _ _ _ raise (fun _ => True) (fun floor => floor.spec.runtimeClass)
    (fun envelope => envelope.spec.runtimeClass) floors task
    (fun value _ floor _ => ⟨trivial, pinnedRuntimeClass_eq _ _⟩) trivial
  have allowed {floor : Envelope} {network : Network} : floor.allowPin = some network
      ↔ ∃ name, floor.spec.network = some (.allow name) ∧ network = .allow name := by
    rcases whole : floor.spec.network with _ | _ | _ | _ <;>
      simp [allowPin, whole, Network.allowlist, eq_comm]
  constructor
  · intro held
    refine ⟨classes.mp (fun floor listed => (held floor listed).runtimeClass), ?_⟩
    by_cases whole : Unnetworked task floors
    · exact .inl whole
    · obtain ⟨open_, pins⟩ := allowPins whole
      refine .inr ((@pins_held_iff _ _ _ raise (fun value => value.spec.network ≠ some .none) _
        (fun value => value.spec.network) floors task pins open_).mp ?_)
      intro floor listed network pinned
      obtain ⟨name, named, rfl⟩ := allowed.mp pinned
      refine ((held floor listed).network name named).resolve_right ?_
      exact (@foldl_raise_pinned _ _ _ raise (fun value => value.spec.network ≠ some .none) _
        (fun value => value.spec.network) floors task pins open_).1
  · rintro ⟨agree, network⟩ floor listed
    refine ⟨classes.mpr agree floor listed, fun name named => ?_⟩
    by_cases whole : Unnetworked task floors
    · exact .inr ((network_foldl task floors).1 whole)
    · obtain ⟨open_, pins⟩ := allowPins whole
      exact .inl ((@pins_held_iff _ _ _ raise (fun value => value.spec.network ≠ some .none) _
        (fun value => value.spec.network) floors task pins open_).mpr
        (network.resolve_left whole) floor listed _ (allowed.mpr ⟨name, named, rfl⟩))

/-- The envelope a task runs under is the one it declares, raised to the engine's floor and then
to the floor of its run's class.
-/
theorem effectiveIsolation_eq (declared floor classFloor : Option Envelope)
    : let effective :=
        ((floor.toList ++ classFloor.toList).foldl raise (declared.getD unset)).spec
      (effectiveIsolation (declared.map spec) (floor.map spec) (classFloor.map spec)).1
        = if effective.isEmpty then none else some effective := by
  cases declared <;> cases floor <;> cases classFloor <;> rfl

/-- Floors in turn weaken nothing a task declares, and the envelope has of each of them the
strong value of every ordered field; of the pinned fields it has the last floor's pin, so that
every floor is met in full exactly where their pins agree. A further floor undoes nothing of the
ordered fields, and a floor applied again changes nothing and has nothing to say. The engine's
envelope is made so, of its own floor and then the run's class's.
-/
theorem floors_only_raise (declared : Option Envelope) (floors : List Envelope)
    : let task := declared.getD unset
      let effective := floors.foldl raise task
      task ≤ effective
      ∧ (∀ floor ∈ floors, floor.Meets effective)
      ∧ ((∀ floor ∈ floors, floor.HoldsPins effective)
        ↔ PinsAgree (fun floor => floor.spec.runtimeClass) floors
          ∧ (Unnetworked task floors ∨ PinsAgree allowPin floors))
      ∧ effective.spec.runtimeClass
        = (floors.reverse.findSome? (fun floor => floor.spec.runtimeClass)).or
          task.spec.runtimeClass
      ∧ effective.spec.network
        = (if Unnetworked task floors then some .none
          else (floors.reverse.findSome? allowPin).or task.spec.network)
      ∧ (∀ more, effective ≤ (floors ++ more).foldl raise task)
      ∧ (∀ floor, (effective.raise floor).spec.applyFloor floor.spec
        = ((effective.raise floor).spec, []))
      ∧ ∀ floor classFloor : Option Envelope, floors = floor.toList ++ classFloor.toList →
        (effectiveIsolation (declared.map spec) (floor.map spec) (classFloor.map spec)).1
          = if effective.spec.isEmpty then none else some effective.spec := by
  intro task effective
  refine ⟨le_foldl_raise le_raise task floors, foldl_meets task floors,
    holdsPins_iff task floors, runtimeClass_foldl task floors, ?_, ?_, ?_, ?_⟩
  · split_ifs with whole
    · exact (network_foldl task floors).1 whole
    · exact (network_foldl task floors).2 whole
  · intro more
    rw [List.foldl_append]
    exact le_foldl_raise le_raise effective more
  · intro floor
    exact applyFloor_of_met (meets_raise effective floor) (holdsPins_raise effective floor)
  · rintro floor classFloor rfl
    exact effectiveIsolation_eq declared floor classFloor

/-- Of two floors that pin different runtime classes, the first is not met. -/
theorem not_floors_only_raise
    : ¬ ∀ (task : Envelope) (floors : List Envelope), ∀ floor ∈ floors,
        floor.Meets (floors.foldl raise task) ∧ floor.HoldsPins (floors.foldl raise task) := by
  intro claim
  let gvisor : Envelope := ⟨{ runtimeClass := some "gvisor" }, by decide⟩
  let kata : Envelope := ⟨{ runtimeClass := some "kata" }, by decide⟩
  have held := (claim unset [gvisor, kata] gvisor (List.mem_cons_self ..)).2.runtimeClass
    "gvisor" rfl
  exact absurd held (by decide)

end Envelope

end Dagron.Spec
