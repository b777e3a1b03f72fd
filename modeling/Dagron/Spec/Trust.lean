import Mathlib.Logic.Relation
import Dagron.Spec.Confine

/-! Runs made from other runs: what a sub-workflow's record and a resubmit's take over from the
record they are derived from, and what stays the same however long the derivation is.
-/

namespace Dagron.Spec

def RunTrigger.engine : String :=
  "engine"

/-- A record for a run that is made again from the one (original) started: it keeps the class
and the origin of an original that is not trusted.
-/
def RunTrigger.copying (trigger : RunTrigger) (original : Option RunTrigger) : RunTrigger :=
  let class_ := classOf original
  match original with
  | none => trigger
  | some original =>
      if confined class_ then
        { trigger with
          trust := some class_
          forgeHost := original.forgeHost
          repo := original.repo
          gitRef := original.gitRef
          sha := original.sha
          baseSha := original.baseSha
          pr := original.pr }
      else trigger

/-- The record of a run that (task) of (parentRun) started. -/
def RunTrigger.childOf (parent : Option RunTrigger) (parentRun task : String) : RunTrigger :=
  let inherited := parent.getD { kind := "" }
  let trust :=
    match parent with
    | some parent =>
        if parent.trust.isNone ∧ parent.kind = "ci" then some (classOf (some parent))
        else inherited.trust
    | none => inherited.trust
  { inherited with
    kind := "workflow"
    principal := engine
    source := some ("run:" ++ parentRun ++ "/" ++ task)
    trust := trust }

/-- One run made from another: its record is derived from the other's. -/
inductive RunTrigger.Derives (original : RunTrigger) : RunTrigger → Prop where
  | child (parentRun task : String)
    : Derives original (childOf (some original) parentRun task)
  | again (caller : RunTrigger)
    : Derives original (caller.copying (some original))

/-- Two records of one class and one origin: the forge, the repository, the ref, the commit and
the pull request.
-/
structure RunTrigger.SameOrigin (original trigger : RunTrigger) : Prop where
  trust
    : classOf (some trigger) = classOf (some original)
  forgeHost
    : trigger.forgeHost = original.forgeHost
  repo
    : trigger.repo = original.repo
  gitRef
    : trigger.gitRef = original.gitRef
  sha
    : trigger.sha = original.sha
  baseSha
    : trigger.baseSha = original.baseSha
  pr
    : trigger.pr = original.pr

namespace RunTrigger

variable {original middle trigger : RunTrigger}

theorem SameOrigin.same
    : SameOrigin original original := by
  constructor <;> rfl

theorem SameOrigin.trans (first : SameOrigin original middle) (second : SameOrigin middle trigger)
    : SameOrigin original trigger where
  trust := second.trust.trans first.trust
  forgeHost := second.forgeHost.trans first.forgeHost
  repo := second.repo.trans first.repo
  gitRef := second.gitRef.trans first.gitRef
  sha := second.sha.trans first.sha
  baseSha := second.baseSha.trans first.baseSha
  pr := second.pr.trans first.pr

theorem kind_of_confined (unsaid : original.trust = none) (held : confined (classOf (some original)))
    : original.kind = "ci" := by
  by_contra other
  simp [classOf, unsaid, other, confined] at held

/-- A sub-workflow's record is of its parent's class, said in words where the parent's left it
to its kind.
-/
theorem SameOrigin.childOf (held : confined (classOf (some original))) (parentRun task : String)
    : SameOrigin original (childOf (some original) parentRun task) := by
  refine ⟨?_, rfl, rfl, rfl, rfl, rfl, rfl⟩
  cases said : original.trust with
  | none =>
      have kind := kind_of_confined said held
      simp [RunTrigger.childOf, classOf, said, kind]
  | some class_ => simp [RunTrigger.childOf, classOf, said]

theorem SameOrigin.copying (held : confined (classOf (some original))) (caller : RunTrigger)
    : SameOrigin original (caller.copying (some original)) := by
  have copied : caller.copying (some original)
      = { caller with
          trust := some (classOf (some original))
          forgeHost := original.forgeHost
          repo := original.repo
          gitRef := original.gitRef
          sha := original.sha
          baseSha := original.baseSha
          pr := original.pr } := if_pos held
  rw [copied]
  exact ⟨rfl, rfl, rfl, rfl, rfl, rfl, rfl⟩

theorem Derives.sameOrigin (derives : Derives original trigger) (held : confined (classOf (some original)))
    : SameOrigin original trigger := by
  cases derives with
  | child parentRun task => exact .childOf held parentRun task
  | again caller => exact .copying held caller

/-- However a run is made from one that is not trusted, through sub-workflows and resubmits in
any order, it is of the same class and origin: by induction along the derivation, each step of
which finds a record of a confined class.
-/
theorem trust_never_rises (held : confined (classOf (some original)))
    (chain : Relation.ReflTransGen Derives original trigger)
    : SameOrigin original trigger := by
  induction chain with
  | refl => exact .same
  | tail _ derives ih =>
      refine ih.trans (derives.sameOrigin ?_)
      rwa [ih.trust]

/-- A fork's pull request, made again by a person, as a sub-workflow of it is. -/
theorem trust_never_rises_fork
    : let fork : RunTrigger := { kind := "ci", repo := some "acme/widgets", pr := some 8 }
      let person : RunTrigger := { kind := "manual", principal := "user:dev" }
      classOf (some (childOf (some (person.copying (some fork))) "run-1" "deploy")) = untrusted := by
  intro fork person
  exact (@trust_never_rises fork _ (by decide)
    (.tail (.single (.again person)) (.child "run-1" "deploy"))).trust

end RunTrigger

end Dagron.Spec
