import Dagron.CiExpr.BranchGlobs
import Dagron.Spec.Protected
import Dagron.Spec.Trust

/-! Environments and the runs that may use them: no derivation of a run that is not trusted is let into an environment
that is not open to runs of its class and origin.
-/

namespace Dagron.Spec

/-- What is asked of a run by a policy: its trust, its ref where it has one, and its workflow's name. -/
structure RunFacts where
  trust
    : String
  gitRef
    : Option String
  pipeline
    : String

def RunFacts.of (trigger : Option RunTrigger) (pipeline : String) : RunFacts where
  trust := classOf trigger
  gitRef := trigger.bind RunTrigger.gitRef
  pipeline := pipeline

structure EnvironmentRefused where
  environment
    : String
  reason
    : String

/-- The environment that a repository's secrets are in. -/
def repositoryEnvironment (forgeHost fullName : String) : String :=
  (forgeHost ++ "/" ++ fullName).map Char.toLower

/-- Whether a run may use an environment as far as whose it is goes: a repository's is its own runs' alone. -/
def repositoryAdmits (name : String) (trigger : Option RunTrigger) : Except EnvironmentRefused Unit :=
  if '/' ∉ name.toList then .ok ()
  else
    let own := trigger.bind fun trigger =>
      let ci := trigger.kind = "ci" ∧ "ci:".toList.isPrefixOf trigger.principal.toList
      match decide ci, trigger.forgeHost, trigger.repo with
      | true, some host, some repo => some (repositoryEnvironment host repo)
      | _, _, _ => none
    if own = some name then .ok ()
    else .error ⟨name, "it is a repository's, and this run is not one of that repository's"⟩

/-- Whether an environment with a policy, or without one, admits a run. -/
def admits (environment : String) (policy : Option EnvironmentPolicy) (facts : RunFacts)
    : Except EnvironmentRefused Unit := do
  let policy := policy.getD { environment := environment }
  let refused (reason : String) : Except EnvironmentRefused Unit := .error ⟨environment, reason⟩
  let listed (patterns : List String) := ", ".intercalate patterns
  if !policy.allowedTrust.any (· == facts.trust) then
    let admitted :=
      if policy.allowedTrust.isEmpty then "no run" else listed policy.allowedTrust ++ " runs"
    refused ("its policy admits " ++ admitted ++ ", and this one is " ++ facts.trust)
  match policy.allowedRefs, facts.gitRef with
  | none, _ => pure ()
  | some patterns, some ref =>
      if patterns.any (Pattern.matches · ref) then pure ()
      else
        refused ("its policy admits the refs " ++ listed patterns ++ ", and this run is for " ++ ref)
  | some patterns, none =>
      refused ("its policy admits the refs " ++ listed patterns
        ++ ", and this run was made for no ref")
  match policy.allowedPipelines with
  | none => pure ()
  | some patterns =>
      if patterns.any (Pattern.matches · facts.pipeline) then pure ()
      else
        refused ("its policy admits the pipelines " ++ listed patterns ++ ", and this one is "
          ++ facts.pipeline)

/-- Whether an environment admits a run, by whose it is and by the policy that is stored for it. -/
def admitEnvironment (policyOf : String → Option EnvironmentPolicy) (environment : String)
    (trigger : Option RunTrigger) (facts : RunFacts) : Except EnvironmentRefused Unit := do
  repositoryAdmits environment trigger
  admits environment (policyOf environment) facts

/-- What holds of a run that an environment with a policy admits, by the languages of the policy's patterns. -/
structure Admitted (policy : EnvironmentPolicy) (environment pipeline : String) (trigger : RunTrigger) : Prop where
  trust
    : classOf (some trigger) ∈ policy.allowedTrust
  ref
    : ∀ patterns ∈ policy.allowedRefs, ∃ ref ∈ trigger.gitRef, ∃ pattern ∈ patterns,
        ref.toList ∈ CiExpr.languageOf (CiExpr.policyTokens pattern.toList)
  named
    : ∀ patterns ∈ policy.allowedPipelines, ∃ pattern ∈ patterns,
        pipeline.toList ∈ CiExpr.languageOf (CiExpr.policyTokens pattern.toList)
  own
    : '/' ∈ environment.toList → ∃ host ∈ trigger.forgeHost, ∃ repo ∈ trigger.repo,
        environment = repositoryEnvironment host repo

section Admitted

variable {policyOf : String → Option EnvironmentPolicy} {environment pipeline : String} {original trigger : RunTrigger}

theorem repositoryAdmits_ok (ok : repositoryAdmits environment (some trigger) = .ok ())
    (slash : '/' ∈ environment.toList)
    : ∃ host ∈ trigger.forgeHost, ∃ repo ∈ trigger.repo, environment = repositoryEnvironment host repo := by
  rw [repositoryAdmits, if_neg (not_not.mpr slash)] at ok
  dsimp only at ok
  split_ifs at ok with own
  rw [Option.bind_some] at own
  split at own
  next host repo _ here there => exact ⟨host, here, repo, there, (Option.some.inj own).symm⟩
  next => cases own

theorem admits_ok {policy : Option EnvironmentPolicy} {facts : RunFacts} (ok : admits environment policy facts = .ok ())
    : facts.trust ∈ (policy.getD { environment }).allowedTrust
      ∧ (∀ patterns ∈ (policy.getD { environment }).allowedRefs, ∃ ref ∈ facts.gitRef, ∃ pattern ∈ patterns,
          Pattern.matches pattern ref)
      ∧ ∀ patterns ∈ (policy.getD { environment }).allowedPipelines, ∃ pattern ∈ patterns,
          Pattern.matches pattern facts.pipeline := by
  unfold admits at ok
  generalize policy.getD { environment } = policy at ok ⊢
  dsimp only at ok
  repeat' split at ok
  all_goals first | cases ok; done | simp_all

/-- However a run is made from one that is not trusted, an environment that admits it has a policy, and admits by it
runs of the first one's class, ref and repository.
-/
theorem derived_runs_are_kept_out (held : confined (classOf (some original)))
    (chain : Relation.ReflTransGen RunTrigger.Derives original trigger)
    (admitted : admitEnvironment policyOf environment (some trigger) (.of (some trigger) pipeline) = .ok ())
    : ∃ policy ∈ policyOf environment, Admitted policy environment pipeline original := by
  have same : original.SameOrigin trigger := by
    clear admitted
    induction chain with
    | refl => exact .same
    | tail _ derives ih => exact ih.trans (derives.sameOrigin (ih.trust ▸ held))
  obtain ⟨_, own, ok⟩ := Library.exists_of_bind_eq_ok admitted
  obtain ⟨trust, ref, named⟩ := admits_ok ok
  simp only [RunFacts.of, Option.bind_some, same.trust, same.gitRef, Pattern.matches, CiExpr.glob_iff] at trust ref named
  cases policy : policyOf environment with
  | none =>
      rw [policy, Option.getD_none, List.mem_singleton] at trust
      simp [confined, trust] at held
  | some policy_ =>
      rw [policy] at trust ref named
      refine ⟨policy_, rfl, trust, ref, named, fun slash => ?_⟩
      rw [← same.forgeHost, ← same.repo]
      exact repositoryAdmits_ok own slash

/-- A fork's pull request, run again by hand, is let in where a policy names its class. -/
theorem derived_runs_are_kept_out_preview
    : let fork : RunTrigger := { kind := "ci", repo := some "acme/widgets", gitRef := some "refs/pull/8/head" }
      let preview : EnvironmentPolicy := { environment := "preview", allowedTrust := [untrusted] }
      Admitted preview "preview" "ci" fork := by
  intro fork preview
  obtain ⟨policy, stored, admitted⟩ := @derived_runs_are_kept_out (fun _ => some preview) "preview" "ci" fork _
    (by decide) (.single (.again { kind := "manual" })) rfl
  exact Option.some.inj stored ▸ admitted

end Admitted

end Dagron.Spec
