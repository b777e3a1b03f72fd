import Dagron.Fleet.Rows

/-! The fleet keeps its quotas, whoever looks; and a repository that asks for a look has one scheduled, as long as
no look that lost its claim has a job run again later, and no repository is connected again that still asks.
-/

namespace Dagron.Fleet

open Dagron.Library

variable {quota : String → Quota} {world next : World} {op : Op}

-- Quotas

/-- Whether each class has no more runners out than its label lets it, for every repository together and for
each.
-/
def World.WithinQuotas (quota : String → Quota) (world : World) : Prop :=
  ∀ class_,
    (∀ most ∈ (quota class_).all,
        world.runners.count (fun row => row.class_ = class_ ∧ row.state ≠ .ended) ≤ most)
      ∧ ∀ repoId, ∀ most ∈ (quota class_).repository,
        world.runners.count (fun row => row.class_ = class_ ∧ row.repoId = repoId ∧ row.state ≠ .ended) ≤ most

theorem count_le_of_moves {before after : Table Runner} (moves : ∀ row ∈ after, ∃ old ∈ before, old.Moves row)
    {of : Runner → Prop} [DecidablePred of]
    (same : ∀ old row, Runner.Moves old row → of row → of old)
    : after.count (fun row => of row ∧ row.state ≠ .ended)
      ≤ before.count (fun row => of row ∧ row.state ≠ .ended) := by
  refine Table.count_le_of_keys fun row there ⟨own, live⟩ => ?_
  obtain ⟨old, present, moved⟩ := moves row there
  exact ⟨old, present, ⟨same old row moved own, moved.out live⟩, moved.name.symm⟩

theorem World.WithinQuotas.step (within : world.WithinQuotas quota) (done : world.step quota op = some next)
    : next.WithinQuotas quota := by
  have moved (moves : ∀ row ∈ next.runners, ∃ old ∈ world.runners, old.Moves row) : next.WithinQuotas quota := by
    refine fun class_ => ⟨fun most is => ?_, fun repoId most is => ?_⟩
    · refine Nat.le_trans (count_le_of_moves moves ?_) ((within class_).1 most is)
      exact fun old row moves own => moves.class_ ▸ own
    · have fewer := @count_le_of_moves _ _ moves (fun row => row.class_ = class_ ∧ row.repoId = repoId) _
        fun old row moves own => ⟨moves.class_ ▸ own.1, moves.repoId ▸ own.2⟩
      simp only [and_assoc] at fewer
      exact Nat.le_trans fewer ((within class_).2 repoId most is)
  obtain moves | ⟨inserted, place⟩ | kept := runners_step done
  · exact moved moves.from_
  · refine fun class_ => ⟨fun most is => ?_, fun repoId most is => ?_⟩
    · rw [Table.count_insert inserted]
      split
      next own =>
        obtain ⟨rfl, -⟩ := own
        exact place.1 most is
      next => exact (within class_).1 most is
    · rw [Table.count_insert inserted]
      split
      next own =>
        obtain ⟨rfl, rfl, -⟩ := own
        exact place.2 most is
      next => exact (within class_).2 repoId most is
  · exact moved fun row there => ⟨row, kept row there, .refl row⟩

-- Who asks for a look

/-- A job that asks for a look: it waits, or is due to be run again. -/
def FleetJob.asks (job : FleetJob) : Prop :=
  job.state = .queued ∨ job.retry = some .due

/-- A repository that asks for a look: one was asked for while one went, or a job of it asks. -/
def World.asks (world : World) (repo : Repo) : Prop :=
  repo.fleetPokedAt.isSome ∨ ∃ job ∈ world.jobs, job.repoId = repo.id ∧ job.asks

/-- A repository that is connected and asks for a look has one scheduled. -/
def World.Scheduled (world : World) : Prop :=
  ∀ repo ∈ world.repos, repo.disconnectedAt = none → world.asks repo → repo.fleetDueAt.isSome

/-- A step that forgets nobody. A look has a job run again later only where a look of its repository is
scheduled still. And a repository is connected again only where one is, or where no job of it is due and no
look was asked for.
-/
def Op.remembers (op : Op) (world : World) : Prop :=
  match op with
  | .retry _ key .due _ =>
      ∀ job ∈ world.jobs.get? key, ∀ repo ∈ world.repos.get? job.repoId,
        repo.disconnectedAt = none → repo.fleetDueAt.isSome
  | .connect repo =>
      ∀ was ∈ world.repos.rows, was.forgeHost = repo.forgeHost ∧ was.fullName = repo.fullName →
        was.fleetDueAt.isSome
          ∨ was.fleetPokedAt = none ∧ ∀ job ∈ world.jobs.rows, job.repoId = was.id → job.retry ≠ some .due
  | _ => True

instance (op : Op) (world : World) : Decidable (op.remembers world) := by
  unfold Op.remembers
  split <;> infer_instance

-- What a step does to the jobs

/-- A job that asks for a look no more than one of its repository did before. -/
def Was (jobs : Table FleetJob) (job : FleetJob) : Prop :=
  ∃ old ∈ jobs, old.repoId = job.repoId
    ∧ (job.state = .queued → old.state = .queued) ∧ (job.retry = some .due → old.retry = some .due)

theorem was_self {jobs : Table FleetJob} {job : FleetJob} (there : job ∈ jobs)
    : Was jobs job :=
  ⟨job, there, rfl, id, id⟩

theorem was_update {jobs : Table FleetJob} {cond : FleetJob → Prop} [DecidablePred cond]
    {set : FleetJob → FleetJob} (keeps : ∀ row, Keyed.key (set row) = Keyed.key row)
    (quiet : ∀ row, (set row).repoId = row.repoId
      ∧ ((set row).state = .queued → row.state = .queued)
      ∧ ((set row).retry = some .due → row.retry = some .due))
    : ∀ job ∈ jobs.update cond set keeps, Was jobs job := by
  intro job there
  obtain ⟨old, present, rfl⟩ := Table.mem_update.mp there
  refine ⟨old, present, ?_⟩
  split
  · exact ⟨(quiet old).1.symm, (quiet old).2⟩
  · exact ⟨rfl, id, id⟩

theorem was_advance {jobs : Table FleetJob} {old : FleetJob} (there : old ∈ jobs) (now : Nat) (job : Job)
    : Was jobs (old.advance now job) := by
  refine ⟨old, there, ?_⟩
  unfold FleetJob.advance
  split
  · exact ⟨rfl, id, id⟩
  · split
    · exact ⟨rfl, nofun, id⟩
    · exact ⟨rfl, id, id⟩
  · split
    · exact ⟨rfl, nofun, id⟩
    · exact ⟨rfl, id, id⟩

/-- A delivery writes a job of its repository, which waits only where that is connected, or moves one on. -/
theorem was_or_written (repoId : String) (job : Job) (class_ : String)
    : ∀ row ∈ world.writeJob repoId job class_,
      Was world.jobs row ∨ row.repoId = repoId ∧ (row.state = .queued → world.connected repoId) := by
  intro row there
  unfold World.writeJob at there
  split at there
  next =>
    split at there
    next connected =>
      obtain rfl | there := Table.mem_insertOrIgnore there
      · exact Or.inr ⟨rfl, fun _ => connected⟩
      · exact Or.inl (was_self there)
    next => exact Or.inl (was_self there)
  all_goals
    obtain rfl | ⟨old, present, rfl | rfl⟩ := Table.mem_upsert there
    · exact Or.inr ⟨rfl, nofun⟩
    · exact Or.inl (was_self present)
    · exact Or.inl (was_advance present _ _)

-- What holds of the rows

/-- What is known of the rows before each step: a look that holds its claim is scheduled to be taken over, a job
that waits is of a repository that is connected, and who asks for a look has one scheduled.
-/
structure LooksInv (world : World) : Prop where
  claimed
    : ∀ repo ∈ world.repos, repo.fleetClaim.isSome → repo.fleetDueAt.isSome
  known
    : ∀ job ∈ world.jobs, ∃ repo ∈ world.repos, repo.id = job.repoId
  waiting
    : ∀ job ∈ world.jobs, job.state = .queued → world.connected job.repoId
  scheduled
    : world.Scheduled

theorem asks_of_was {repo : Repo} {job : FleetJob} (was : Was world.jobs job) (of : job.repoId = repo.id)
    (asks : job.asks)
    : world.asks repo := by
  obtain ⟨old, present, same, queued, due⟩ := was
  exact Or.inr ⟨old, present, same.trans of, asks.imp queued due⟩

/-- An update of the repositories keeps what holds, where those it admits, and those of jobs that ask now, have
a look scheduled if they are to.
-/
theorem LooksInv.updated (inv : LooksInv world) {cond : Repo → Prop} [DecidablePred cond] {set : Repo → Repo}
    (keeps : ∀ row, Keyed.key (set row) = Keyed.key row)
    (repos : next.repos = world.repos.update cond set keeps)
    (waiting : ∀ job ∈ next.jobs, job.state = .queued → next.connected job.repoId)
    (jobs : ∀ job ∈ next.jobs, Was world.jobs job
      ∨ (∃ repo ∈ world.repos, repo.id = job.repoId)
        ∧ ∀ row ∈ world.repos, row.id = job.repoId → row.disconnectedAt = none →
          cond row ∨ row.fleetDueAt.isSome)
    (due : ∀ row ∈ world.repos, cond row →
      ((set row).fleetClaim.isSome → (set row).fleetDueAt.isSome)
        ∧ ((set row).disconnectedAt = none → next.asks (set row) → (set row).fleetDueAt.isSome))
    : LooksInv next where
  claimed := by
    rw [repos]
    intro repo there claimed
    obtain ⟨row, present, rfl⟩ := Table.mem_update.mp there
    by_cases met : cond row
    · rw [if_pos met] at claimed ⊢
      exact (due row present met).1 claimed
    · rw [if_neg met] at claimed ⊢
      exact inv.claimed row present claimed
  known := by
    intro job there
    have before : ∃ repo ∈ world.repos, repo.id = job.repoId := by
      obtain ⟨old, present, same, -⟩ | ⟨known, -⟩ := jobs job there
      · exact same ▸ inv.known old present
      · exact known
    obtain ⟨repo, present, of⟩ := before
    refine ⟨_, repos ▸ Table.mem_update.mpr ⟨repo, present, rfl⟩, ?_⟩
    split
    · exact (keeps repo).trans of
    · exact of
  waiting := waiting
  scheduled := by
    intro repo there connected asks
    rw [repos] at there
    obtain ⟨row, present, rfl⟩ := Table.mem_update.mp there
    by_cases met : cond row
    · rw [if_pos met] at connected asks ⊢
      exact (due row present met).2 connected asks
    · rw [if_neg met] at connected asks ⊢
      obtain poked | ⟨job, among, of, asks⟩ := asks
      · exact inv.scheduled row present connected (Or.inl poked)
      · obtain was | ⟨-, told⟩ := jobs job among
        · exact inv.scheduled row present connected (asks_of_was was of asks)
        · exact (told row present of.symm connected).resolve_left met

/-- A step that leaves the repositories keeps what holds, where those of jobs that ask now have a look scheduled. -/
theorem LooksInv.jobs (inv : LooksInv world) (repos : next.repos = world.repos)
    (jobs : ∀ job ∈ next.jobs, Was world.jobs job
      ∨ (∃ old ∈ world.jobs, old.repoId = job.repoId ∧ (job.state = .queued → old.state = .queued))
        ∧ ∀ row ∈ world.repos, row.id = job.repoId → row.disconnectedAt = none → row.fleetDueAt.isSome)
    : LooksInv next := by
  refine @LooksInv.updated _ _ inv (fun _ => False) _ id (fun _ => rfl) ?_ ?_ ?_ ?_
  · rw [repos, Table.update_none]
    exact fun _ _ => id
  · intro job there queued
    have old : ∃ old ∈ world.jobs, old.repoId = job.repoId ∧ (job.state = .queued → old.state = .queued) := by
      obtain ⟨old, present, same, waits, -⟩ | ⟨old, -⟩ := jobs job there
      · exact ⟨old, present, same, waits⟩
      · exact old
    obtain ⟨old, present, same, waits⟩ := old
    have before := inv.waiting old present (waits queued)
    rw [World.connected, repos, ← same]
    exact before
  · intro job there
    obtain was | ⟨⟨old, present, same, -⟩, told⟩ := jobs job there
    · exact Or.inl was
    · exact Or.inr ⟨same ▸ inv.known old present, fun row among of connected => Or.inr (told row among of connected)⟩
  · intros
    contradiction

-- Steps

theorem LooksInv.fleetJob (inv : LooksInv world) {repoId : String} {repo : Repo}
    (found : world.repos.get? repoId = some repo) (job : Job) (class_ : String)
    : LooksInv (world.fleetJob repoId job class_) := by
  have connected (id : String) : (world.fleetJob repoId job class_).connected id = world.connected id := by
    refine connected_update ?_ rfl ?_ id <;> exact fun _ => rfl
  refine inv.updated ?_ rfl ?_ ?_ ?_
  · exact fun _ => rfl
  · intro row there queued
    rw [connected]
    obtain ⟨old, present, same, waits, -⟩ | ⟨rfl, waits⟩ := was_or_written repoId job class_ row there
    · exact same ▸ inv.waiting old present (waits queued)
    · exact waits queued
  · intro row there
    refine (was_or_written repoId job class_ row there).imp id fun ⟨of, _⟩ => ?_
    obtain ⟨present, key⟩ := Table.get?_eq_some_iff.mp found
    refine ⟨⟨repo, present, key.trans of.symm⟩, fun row among same _ => ?_⟩
    -- One that no look holds is made due; one that a look holds is due when the lease ends.
    by_cases free : row.fleetClaim = none
    · exact Or.inl ⟨same.trans of, free⟩
    · exact Or.inr (inv.claimed row among (Option.isSome_iff_ne_none.mpr free))
  · exact fun row _ _ => ⟨fun _ => rfl, fun _ _ => rfl⟩

theorem LooksInv.fleetDue (inv : LooksInv world) (repoId : String)
    : LooksInv (world.fleetDue repoId) := by
  have connected (id : String) : (world.fleetDue repoId).connected id = world.connected id := by
    refine connected_update ?_ rfl ?_ id <;> exact fun _ => rfl
  have due (row : Repo) (there : row ∈ world.repos)
      : (if row.fleetClaim = none then some world.now else row.fleetDueAt).isSome := by
    split
    next => rfl
    next held => exact inv.claimed row there (Option.isSome_iff_ne_none.mpr held)
  refine inv.updated ?_ rfl ?_ ?_ ?_
  · exact fun _ => rfl
  · exact fun job there queued => (connected _).trans (inv.waiting job there queued)
  · exact fun job there => Or.inl (was_self there)
  · exact fun row there _ => ⟨fun _ => due row there, fun _ _ => due row there⟩

theorem LooksInv.claimFleet (inv : LooksInv world) {claim : String} {lease : Nat}
    (done : world.claimFleet claim lease = some next)
    : LooksInv next := by
  obtain ⟨-, done⟩ := Option.ite_none_left_eq_some.mp done
  obtain ⟨repo, -, rfl⟩ := Option.map_eq_some_iff.mp done
  refine inv.updated ?_ rfl ?_ ?_ ?_
  · exact fun _ => rfl
  · intro job there queued
    refine Eq.trans ?_ (inv.waiting job there queued)
    refine connected_update ?_ rfl ?_ _ <;> exact fun _ => rfl
  · exact fun job there => Or.inl (was_self there)
  · exact fun row _ _ => ⟨fun _ => rfl, fun _ _ => rfl⟩

theorem LooksInv.finishFleet (inv : LooksInv world) {claim : String} {again : Nat}
    (done : world.finishFleet claim again = some next)
    : LooksInv next := by
  obtain ⟨look, -, rfl⟩ := Option.map_eq_some_iff.mp done
  refine inv.updated ?_ rfl ?_ ?_ ?_
  · exact fun _ => rfl
  · intro job there queued
    refine Eq.trans ?_ (inv.waiting job there queued)
    refine connected_update ?_ rfl ?_ _ <;> exact fun _ => rfl
  · exact fun job there => Or.inl (was_self there)
  · refine fun row _ _ => ⟨nofun, fun connected asks => ?_⟩
    have opens : world.isOpen row = true := by
      have none_ : row.disconnectedAt.isNone = true := Option.isNone_iff_eq_none.mpr connected
      rw [World.isOpen, none_, Bool.true_and, Bool.or_eq_true, Bool.or_eq_true]
      refine Or.inl (asks.imp id fun ⟨job, there, of, asked⟩ => ?_)
      exact List.any_eq_true.mpr ⟨job, there, decide_eq_true ⟨of, asked⟩⟩
    change (if world.isOpen row then some (world.now + again) else none).isSome
    rw [if_pos opens]
    rfl

/-- What came of running a job again is written where it asks for no look, or a look is scheduled. -/
theorem LooksInv.retryDied (inv : LooksInv world) {claim : String} {key : String × String} {retry : Retry}
    {again : Option Nat} (remembers : (Op.retry claim key retry again).remembers world)
    (done : world.retryDied claim key retry again = some next)
    : LooksInv next := by
  obtain ⟨-, done⟩ := Option.ite_none_right_eq_some.mp done
  obtain rfl := Option.some.inj done
  refine inv.jobs rfl fun job there => ?_
  cases retry with
  | asked | refused =>
      refine Or.inl (was_update ?_ ?_ job there)
      · exact fun _ => rfl
      · exact fun _ => ⟨rfl, id, nofun⟩
  | due =>
      dsimp only [World.fleetRetry] at there
      obtain ⟨old, present, rfl⟩ := Table.mem_update.mp there
      split
      next met =>
        refine Or.inr ⟨⟨old, present, rfl, id⟩, fun row among of connected => ?_⟩
        have read : world.repos.get? old.repoId = some row := Table.get?_eq_some_iff.mpr ⟨among, of⟩
        exact remembers old (met.1 ▸ Table.get?_of_mem present) row read connected
      next => exact Or.inl (was_self present)

/-- A repository that is connected again asks for no look, or has one scheduled; a new one has no jobs. -/
theorem LooksInv.connectRepo (inv : LooksInv world) {repo : Repo}
    (remembers : (Op.connect repo).remembers world) (done : world.connectRepo repo = some next)
    : LooksInv next := by
  unfold World.connectRepo at done
  split at done
  next was found =>
    obtain rfl := Option.some.inj done
    have there : was ∈ world.repos := List.mem_of_find?_eq_some found
    have named := by simpa using List.find?_some found
    refine inv.updated ?_ rfl ?_ ?_ ?_
    · exact fun _ => rfl
    · intro job among queued
      have before := inv.waiting job among queued
      rw [World.connected, Option.any_eq_true] at before ⊢
      obtain ⟨row, read, connected⟩ := before
      refine ⟨_, by rw [Table.get?_update, read]; rfl, ?_⟩
      dsimp only
      split
      · rfl
      · exact connected
    · exact fun job among => Or.inl (was_self among)
    · rintro row among ⟨same, apart⟩
      obtain rfl : row = was := Table.eq_of_key_eq among there same
      refine ⟨fun claimed => inv.claimed row there claimed, fun _ asks => ?_⟩
      obtain due | ⟨silent, settled⟩ := remembers row there named
      · exact due
      · obtain poked | ⟨job, own, of, queued | due⟩ := asks
        · rw [show row.fleetPokedAt = none from silent] at poked
          cases poked
        · -- A job that waits is of a repository that is connected, and this one is not.
          have before := inv.waiting job own queued
          rw [World.connected, of, show row.id = Keyed.key row from rfl, Table.get?_of_mem there] at before
          exact absurd (Option.isNone_iff_eq_none.mp before) apart
        · exact absurd due (settled job own of)
  next =>
    obtain ⟨repos, inserted, rfl⟩ := Option.map_eq_some_iff.mp done
    obtain ⟨fresh, reads⟩ := Table.get?_insert inserted
    have rows (row : Repo) (there : row ∈ repos) : row ∈ world.repos ∨ row.id = repo.id ∧ row.fleetClaim = none
        ∧ row.fleetPokedAt = none := by
      rw [Table.mem_iff, Table.rows_insert inserted, List.mem_append, List.mem_singleton] at there
      refine there.imp id ?_
      rintro rfl
      exact ⟨rfl, rfl, rfl⟩
    have kept (row : Repo) (there : row ∈ world.repos) : row ∈ repos := by
      rw [Table.mem_iff, Table.rows_insert inserted]
      exact List.mem_append_left _ there
    have absent (job : FleetJob) (own : job ∈ world.jobs) : job.repoId ≠ repo.id := by
      intro of
      obtain ⟨row, there, same⟩ := inv.known job own
      exact Table.get?_eq_none_iff.mp fresh row there (same.trans of)
    refine ⟨fun row there claimed => ?_, fun job own => ?_, fun job own queued => ?_,
      fun row there connected asks => ?_⟩
    · obtain old | ⟨-, free, -⟩ := rows row there
      · exact inv.claimed row old claimed
      · rw [free] at claimed
        cases claimed
    · obtain ⟨row, there, same⟩ := inv.known job own
      exact ⟨row, kept row there, same⟩
    · have before := inv.waiting job own queued
      have other : (repos.get? job.repoId) = world.repos.get? job.repoId :=
        (reads job.repoId).trans (if_neg (absent job own))
      rw [World.connected, other]
      exact before
    · obtain old | ⟨new, -, silent⟩ := rows row there
      · exact inv.scheduled row old connected asks
      · obtain poked | ⟨job, own, of, -⟩ := asks
        · rw [silent] at poked
          cases poked
        · exact absurd (of.trans new) (absent job own)

theorem LooksInv.disconnectRepo (inv : LooksInv world) {forgeHost fullName : String}
    (done : world.disconnectRepo forgeHost fullName = some next)
    : LooksInv next := by
  obtain ⟨was, -, rfl⟩ := Option.map_eq_some_iff.mp done
  refine inv.updated ?_ rfl ?_ ?_ ?_
  · exact fun _ => rfl
  · intro job there queued
    dsimp only at there
    obtain ⟨old, present, rfl⟩ := Table.mem_update.mp there
    split at queued
    · cases queued
    next apart =>
      have other : old.repoId ≠ was.id := fun same => apart ⟨same, queued⟩
      have before := inv.waiting old present queued
      rw [if_neg apart, World.connected, Table.get?_update]
      rw [World.connected] at before
      cases read : world.repos.get? old.repoId with
      | none =>
          rw [read] at before
          cases before
      | some row =>
          have key : row.id = old.repoId := Table.key_of_get? read
          rw [Option.map_some, if_neg (key ▸ other)]
          rw [read] at before
          exact before
  · intro job there
    refine Or.inl (was_update ?_ ?_ job there)
    · exact fun _ => rfl
    · exact fun _ => ⟨rfl, (by rintro ⟨⟩), id⟩
  · exact fun row there _ => ⟨fun claimed => inv.claimed row there claimed, (by rintro ⟨⟩)⟩

theorem LooksInv.quiet (inv : LooksInv world) {cond : FleetJob → Prop} [DecidablePred cond]
    {set : FleetJob → FleetJob} (keeps : ∀ row, Keyed.key (set row) = Keyed.key row)
    (repos : next.repos = world.repos) (jobs : next.jobs = world.jobs.update cond set keeps)
    (less : ∀ row, (set row).repoId = row.repoId
      ∧ ((set row).state = .queued → row.state = .queued)
      ∧ ((set row).retry = some .due → row.retry = some .due))
    : LooksInv next :=
  inv.jobs repos fun job there => Or.inl (was_update keeps less job (jobs ▸ there))

theorem LooksInv.still (inv : LooksInv world) (repos : next.repos = world.repos) (jobs : next.jobs = world.jobs)
    : LooksInv next :=
  inv.jobs repos fun _ there => Or.inl (was_self (jobs ▸ there))

theorem LooksInv.step (inv : LooksInv world) (remembers : op.remembers world)
    (done : world.step quota op = some next)
    : LooksInv next := by
  cases op with
  | job repoId job class_ =>
      obtain ⟨repo, found, rfl⟩ := Option.map_eq_some_iff.mp done
      exact inv.fleetJob found job class_
  | due repoId =>
      obtain rfl := Option.some.inj done
      exact inv.fleetDue repoId
  | claim claim lease => exact inv.claimFleet done
  | finish claim again => exact inv.finishFleet done
  | retry claim key retry again => exact inv.retryDied remembers done
  | connect repo => exact inv.connectRepo remembers done
  | disconnect forgeHost fullName => exact inv.disconnectRepo done
  | told repoId workflowRun trust | asked key =>
      obtain rfl := Option.some.inj done
      refine inv.quiet ?_ rfl rfl ?_
      · exact fun _ => rfl
      · exact fun _ => ⟨rfl, id, id⟩
  | gone key =>
      obtain rfl := Option.some.inj done
      refine inv.quiet ?_ rfl rfl ?_
      · exact fun _ => rfl
      · exact fun _ => ⟨rfl, nofun, id⟩
  | drop horizon =>
      obtain rfl := Option.some.inj done
      exact inv.jobs rfl fun job there => Or.inl (was_self (Table.mem_delete.mp there).1)
  | want repoId class_ name org trust =>
      obtain ⟨repo, -, done⟩ := Option.bind_eq_some_iff.mp done
      unfold World.fleetWant at done
      split at done
      · obtain ⟨runners, -, rfl⟩ := Option.map_eq_some_iff.mp done
        exact inv.still rfl rfl
      · obtain rfl := Option.some.inj done
        exact inv.still rfl rfl
  | died claim within limit =>
      obtain ⟨-, -, rfl⟩ := Option.map_eq_some_iff.mp done
      exact inv.still rfl rfl
  | tick | heard | stop | registered | launched | ended | runEnd | swept =>
      obtain rfl := Option.some.inj done
      exact inv.still rfl rfl

theorem repos_finishFleet_lost {claim : String} {again : Nat} {look : Look} (at_ : world.look claim = some look)
    (lost : ∀ repo ∈ world.repos.get? look.repoId, repo.fleetClaim ≠ some claim)
    (done : world.finishFleet claim again = some next)
    : next.repos = world.repos := by
  obtain ⟨other, same, rfl⟩ := Option.map_eq_some_iff.mp done
  obtain rfl := Option.some.inj (at_.symm.trans same)
  dsimp only
  rw [Table.update_none]
  rintro row there ⟨of, held⟩
  exact lost row (of ▸ Table.get?_of_mem there) held

/-- The fleet keeps its quotas and forgets nobody. In every run of deliveries, of any lookers' steps and of what
is done to repositories, each step of which forgets nobody, no class has more runners out than its label lets
it, a connected repository that asks for a look has one scheduled, and a look whose claim was taken over changes
no repository as it ends.
-/
theorem nobody_is_forgotten {commits : List (Commit World Op)}
    (history : (fleetSystem quota .empty).History Op.remembers {} commits world)
    : world.WithinQuotas quota ∧ world.Scheduled
      ∧ ∀ commit ∈ commits, ∀ claim again, commit.label = .finish claim again →
        ∀ look, commit.before.look claim = some look →
        (∀ repo ∈ commit.before.repos.get? look.repoId, repo.fleetClaim ≠ some claim) →
        commit.after.repos = commit.before.repos := by
  have rule := @System.History.rule _ _ _ _ (fun world => world.WithinQuotas quota ∧ LooksInv world)
    (fun commit => commit.before.step quota commit.label = some commit.after) _ _ _ history ?_ ?_
  · obtain ⟨⟨within, inv⟩, steps⟩ := rule
    refine ⟨within, inv.scheduled, fun commit member claim again label look at_ lost => ?_⟩
    have done := (steps commit member).2.2
    rw [label] at done
    exact repos_finishFleet_lost at_ lost done
  · refine ⟨fun class_ => ⟨fun most _ => Nat.zero_le most, fun _ most _ => Nat.zero_le most⟩, ?_⟩
    have none_ {Row Key : Type} [Keyed Row Key] {prop : Row → Prop} (row : Row)
        (there : row ∈ (Table.empty : Table Row)) : prop row :=
      absurd there (Table.not_mem_empty row)
    exact ⟨none_, none_, none_, none_⟩
  · intro op origin before commit member held remembers
    obtain ⟨next, done, rfl⟩ := mem_commitsFrom_toList.mp member
    exact ⟨⟨held.1.step done, held.2.step remembers done⟩, done⟩

-- A job that is due, and one that is forgotten

def widgets : Repo where
  id := "repo"
  forge := "github"
  forgeHost := "github.com"
  fullName := "acme/widgets"
  cell := "default"

def failing (action : JobAction) : Job :=
  { delivered action with conclusion := if action = .completed then some "failure" else none }

def oneRunner (_ : String) : Quota where
  all := some 1

/-- A look starts a runner for a job, and ends; the job fails, as its runner died, which the next look reads. -/
def runnerDies : List Op :=
  [.connect widgets, .job "repo" (failing .queued) "dagron", .claim "first" 60000,
    .want "repo" "dagron" "dagron-a" none .trusted, .want "repo" "dagron" "dagron-b" none .trusted,
    .launched "dagron-a" "run-1", .finish "first" 5000, .job "repo" (failing .inProgress) "dagron",
    .job "repo" (failing .completed) "dagron", .claim "first" 60000, .runEnd "dagron-a" "failed",
    .swept "dagron-a", .died "first" 3600000 4]

def runsAgain : List Op :=
  runnerDies ++ [.retry "first" ("github.com", "1") .due (some 60000), .finish "first" 5000]

/-- The look loses its claim to another, to which the forge refuses the job; the forge gives the first no
answer.
-/
def losesClaim : List Op :=
  runnerDies ++ [.tick 60000, .claim "second" 60000, .died "second" 3600000 4,
    .retry "second" ("github.com", "1") .refused none, .finish "second" 5000,
    .retry "first" ("github.com", "1") .due (some 60000)]

theorem nobody_is_forgotten_runsAgain
    : let world := (fleetSystem oneRunner .empty).outcome {} runsAgain
      world.WithinQuotas oneRunner ∧ world.Scheduled
        ∧ ∃ repo ∈ world.repos.rows, repo.fleetDueAt = some 5000 := by
  have kept := nobody_is_forgotten (@System.History.whole _ _ (fleetSystem oneRunner .empty) Op.remembers
    _ _ _ .start runsAgain (by decide +kernel))
  exact ⟨kept.1, kept.2.1, by decide +kernel⟩

/-- A look that lost its claim has a job run again later, and no look is scheduled that would. -/
theorem a_lost_look_forgets
    : ¬ ∀ (quota : String → Quota) commits world,
        (fleetSystem quota .empty).History (fun _ _ => True) {} commits world →
        world.WithinQuotas quota ∧ world.Scheduled
          ∧ ∀ commit ∈ commits, ∀ claim again, commit.label = .finish claim again →
            ∀ look, commit.before.look claim = some look →
            (∀ repo ∈ commit.before.repos.get? look.repoId, repo.fleetClaim ≠ some claim) →
            commit.after.repos = commit.before.repos := by
  intro remembers
  have scheduled := (remembers oneRunner _ _ (@System.History.whole _ _ (fleetSystem oneRunner .empty)
    (fun _ _ => True) _ _ _ .start losesClaim (by decide +kernel))).2.1
  have asked : ∃ repo ∈ ((fleetSystem oneRunner .empty).outcome {} losesClaim).repos.rows,
      repo.disconnectedAt = none ∧ repo.fleetDueAt = none
        ∧ ∃ job ∈ ((fleetSystem oneRunner .empty).outcome {} losesClaim).jobs.rows,
          job.repoId = repo.id ∧ job.retry = some .due := by
    decide +kernel
  obtain ⟨repo, there, connected, unscheduled, job, own, of, due⟩ := asked
  have looked := scheduled repo there connected (Or.inr ⟨job, own, of, Or.inr due⟩)
  rw [unscheduled] at looked
  cases looked

end Dagron.Fleet
