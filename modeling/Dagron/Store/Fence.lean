import Dagron.Store.Commits

/-! Fencing: a claim of a task is known by the version it leaves the task at. In every state a
claim that stands is of a running task that is not parked, and a dispatch that is under way
holds its task or has lost it for good.
-/

namespace Dagron.Store

open Dagron.Library Dagron.Spec

-- Lives that are sound

/-- What holds of every task: who holds it runs it, what waits in the queue is not parked, and
what runs under a lease is held, unless it was asked to stop.
-/
structure Life.Sound (life : Life) : Prop where
  held
    : life.claimedBy.isSome → life.status = .running ∧ life.parks = 0
  queued
    : life.status = .pending ∨ life.status = .ready → life.parks = 0
  stopping
    : life.status = .running → life.stopAsked = true → life.parks = 0
  leased
    : life.status = .running → life.leased = true → life.stopAsked = false →
        life.claimedBy.isSome
  once
    : life.parks ≤ 1

namespace Life

theorem Fresh.sound {life : Life} (fresh : life.Fresh)
    : life.Sound where
  held held := by simp [fresh.claimedBy] at held
  queued _ := fresh.parks
  stopping _ _ := fresh.parks
  leased _ leased := by simp [fresh.leased] at leased
  once := by simp [fresh.parks]

theorem Sound.of_free {life : Life} (free : life.claimedBy = none) (parks : life.parks ≤ 1)
    (queued : life.status = .pending ∨ life.status = .ready → life.parks = 0)
    (running : life.status = .running → life.leased = false ∧ life.stopAsked = false)
    : life.Sound where
  held held := by simp [free] at held
  queued := queued
  stopping status asked := by simp [running status] at asked
  leased status leased := by simp [running status] at leased
  once := parks

theorem Sound.of_parks {life : Life} (parks : life.parks = 0)
    (running : life.status = .running ∨ life.claimedBy = none)
    (leased : life.status = .running → life.leased = true → life.stopAsked = false → life.claimedBy.isSome)
    : life.Sound where
  held held := by
    rcases running with running | free
    · exact ⟨running, parks⟩
    · simp [free] at held
  queued _ := parks
  stopping _ _ := parks
  leased := leased
  once := by simp [parks]

theorem Sound.free {life : Life} (sound : life.Sound) (status : life.status ≠ .running)
    : life.claimedBy = none := by
  cases claimed : life.claimedBy with
  | none => rfl
  | some worker => exact absurd (sound.held (by simp [claimed])).1 status

/-- Every move keeps a life sound, but for a worker's park, which depends on its claim, and a
person's retry, which may leave a job's handle.
-/
theorem Step.sound {move : Move} {life life' : Life} (step : Step move life life')
    (park : move ≠ .park) (release : move ≠ .release) (retry : move ≠ .retryFromUi)
    (sound : life.Sound)
    : life'.Sound := by
  have free (status : life.status ≠ .running) : life.claimedBy = none := sound.free status
  cases step with
  | count pending | recount pending | stamp running unheld =>
      exact ⟨sound.held, sound.queued, sound.stopping, sound.leased, sound.once⟩
  | ready pending | ask pending | skip pending | failWhen pending =>
      refine .of_free (free (by simp [pending])) ?_ ?_ nofun
      · exact sound.once
      · intro _
        exact sound.queued (.inl pending)
  | parkBarrier pending =>
      refine .of_parks (sound.queued (.inl pending)) (.inl rfl) nofun
  | claim ready worker =>
      exact .of_parks (sound.queued (.inr ready)) (.inl rfl) (fun _ _ _ => rfl)
  | renew held =>
      exact .of_parks (sound.held held).2 (.inl (sound.held held).1) (fun _ _ _ => held)
  | recover running leased free =>
      have held := sound.leased running leased free
      exact .of_parks (sound.held held).2 (.inr rfl) nofun
  | succeed held | fail held | retry held =>
      exact .of_parks (sound.held held).2 (.inr rfl) nofun
  | park => exact absurd rfl park
  | release => exact absurd rfl release
  | resolve succeeded running parked parks fewer =>
      have unheld : life.claimedBy = none := by
        cases claimed : life.claimedBy with
        | none => rfl
        | some worker =>
            have none_ := (sound.held (by simp [claimed])).2
            omega
      have once := sound.once
      refine .of_free unheld (by dsimp only; omega) ?_ ?_ <;> cases succeeded <;> nofun
  | requeue running parks one =>
      have once := sound.once
      have none_ : parks = 0 := by omega
      exact .of_parks none_ (.inr rfl) nofun
  | cancel live idle version later | settle running held asked => exact .of_free rfl sound.once nofun nofun
  | askStop running held leased =>
      exact .of_parks (sound.held held).2 (.inl running) nofun
  | claimTeardown running asked worker =>
      exact .of_parks (sound.stopping running asked) (.inl running) (fun _ _ _ => rfl)
  | clearStop stopped =>
      exact ⟨sound.held, sound.queued, fun running => absurd running stopped,
        fun running => absurd running stopped, sound.once⟩
  | finishBarrier succeeded running barrier unheld =>
      refine .of_free unheld sound.once ?_ ?_ <;> cases succeeded <;> nofun
  | decide approved asks =>
      refine .of_free (free (by simp [asks])) sound.once ?_ ?_ <;> cases approved <;> nofun
  | retryFromUi => exact absurd rfl retry
  | reset ended => exact .of_parks rfl (.inr rfl) nofun
  | clearHandle parks fewer =>
      have once := sound.once
      refine ⟨fun held => ⟨(sound.held held).1, ?_⟩, fun status => ?_, fun running asked => ?_,
        sound.leased, by dsimp only; omega⟩
      · have none_ := (sound.held held).2
        dsimp only
        omega
      · have none_ := sound.queued status
        dsimp only
        omega
      · have none_ := sound.stopping running asked
        dsimp only
        omega

theorem Step.park_version {life life' : Life} (step : Step .park life life' ∨ Step .release life life')
    : life'.version = life.version := by
  rcases step with step | step <;> cases step <;> rfl

theorem Step.park_sound {life life' : Life} (step : Step .park life life' ∨ Step .release life life')
    (held : life.claimedBy.isSome) (sound : life.Sound)
    : life'.Sound := by
  have none_ := (sound.held held).2
  rcases step with step | step
  · cases step with
    | park running free parks one =>
        refine .of_free rfl (by dsimp only; omega) ?_ (fun _ => ⟨rfl, free⟩)
        intro waits
        simp [running] at waits
  · cases step with
    | release => exact .of_parks none_ (.inr rfl) nofun

end Life

-- Dispatches that are under way

/-- A dispatch of a task that is there: its claim was of a version the task has had, and stands
while the task runs at that version.
-/
structure Ticket.Open (ticket : Ticket) (life : Life) : Prop where
  fence
    : ticket.fence ≤ life.version
  stands
    : life.version = ticket.fence →
        life.status ≠ .pending ∧ (life.status = .running → life.claimedBy.isSome)

theorem Ticket.Open.step {ticket : Ticket} {move : Move} {life life' : Life}
    (open_ : ticket.Open life) (step : Life.Step move life life') (park : move ≠ .park)
    : ticket.Open life' := by
  have later := open_.fence.trans step.version_le
  refine ⟨later, fun same => ?_⟩
  have was : life.version = ticket.fence :=
    Nat.le_antisymm (same ▸ step.version_le) open_.fence
  obtain ⟨started, held⟩ := open_.stands was
  cases step with
  | count pending | recount pending | ready pending | parkBarrier pending | ask pending
  | skip pending | failWhen pending => exact absurd pending started
  | claim | requeue | claimTeardown | stamp | retryFromUi | reset =>
      have ahead : life.version + 1 = ticket.fence := same
      omega
  | renew | askStop | clearStop | clearHandle => exact ⟨started, held⟩
  | recover | retry | release | succeed | fail | cancel | settle => exact ⟨nofun, nofun⟩
  | park => exact absurd rfl park
  | resolve succeeded | finishBarrier succeeded | decide succeeded =>
      cases succeeded <;> exact ⟨nofun, nofun⟩

/-- The dispatches that are under way are open, each of a claim of its own. -/
structure World.Ticketed (world : World) : Prop where
  open_
    : ∀ ticket ∈ world.dispatched, ∃ task, world.db.task? ticket.task = some task
        ∧ ticket.Open task.life
  distinct
    : world.dispatched.Nodup

theorem World.Ticketed.init
    : World.init.Ticketed where
  open_ _ under := by cases under
  distinct := List.nodup_nil

/-- What the store and the dispatches under way keep. -/
structure World.Fenced (world : World) : Prop where
  sound
    : ∀ id task, world.db.task? id = some task → task.life.Sound
  open_
    : ∀ ticket ∈ world.dispatched, ∃ task, world.db.task? ticket.task = some task
        ∧ ticket.Open task.life
  distinct
    : world.dispatched.Nodup

theorem World.Fenced.ticketed {world : World} (fenced : world.Fenced)
    : world.Ticketed :=
  ⟨fenced.open_, fenced.distinct⟩

theorem World.Ticketed.fenced {world : World} (ticketed : world.Ticketed)
    (sound : ∀ id task, world.db.task? id = some task → task.life.Sound)
    : world.Fenced :=
  ⟨sound, ticketed.open_, ticketed.distinct⟩

theorem World.Fenced.init
    : World.init.Fenced :=
  World.Ticketed.init.fenced (fun _ _ found => by cases found)

/-- Whether an operation is a person's retry of a task that keeps the handle of a job. -/
def Op.retriesHandle (db : Db) : Op → Prop
  | .retryTaskFromUi _ id _ => ∃ task ∈ db.task? id,
      (task.status = .failed ∨ task.status = .cancelled) ∧ task.externalHandle.isSome
  | _ => False

instance (db : Db) (op : Op) : Decidable (op.retriesHandle db) := by
  induction op using Op.casesOn <;> dsimp only [Op.retriesHandle] <;> infer_instance

theorem Evolves.sound {moves : List Move} {before after : Db} (evolves : Evolves moves before after)
    (park : .park ∉ moves) (release : .release ∉ moves) (retry : .retryFromUi ∉ moves)
    (sound : ∀ id task, before.task? id = some task → task.life.Sound)
    : ∀ id task, after.task? id = some task → task.life.Sound := by
  refine evolves.rule Life.Sound (fun _ => Life.Fresh.sound) ?_ sound
  intro move listed life life' step sound
  refine step.sound ?_ ?_ ?_ sound
  · rintro rfl
    exact park listed
  · rintro rfl
    exact release listed
  · rintro rfl
    exact retry listed

theorem World.Ticketed.commit {world : World} {db : Db} {moves : List Move}
    (ticketed : world.Ticketed) (evolves : Evolves moves world.db db) (park : .park ∉ moves)
    : (world.commit db).Ticketed where
  open_ ticket under := by
    obtain ⟨under, there⟩ := List.mem_filter.mp under
    obtain ⟨task', is⟩ := Option.isSome_iff_exists.mp there
    obtain ⟨task, was, open_⟩ := ticketed.open_ ticket under
    refine ⟨task', is, (evolves.kept was is).rule (fun life => ticket.Open life) open_ ?_⟩
    intro move listed life life' step open_
    refine open_.step step ?_
    rintro rfl
    exact park listed
  distinct := ticketed.distinct.filter _

-- Claims and parks

/-- A task a claim took: it was ready, and is held at the version after. -/
structure Taken (before after : Db) (row : TaskRow) : Prop where
  found
    : ∃ task, before.task? row.id = some task ∧ task.status = .ready
        ∧ task.version = row.version
  held
    : ∃ task, after.task? row.id = some task ∧ task.status = .running
        ∧ task.claimedBy.isSome ∧ task.version = row.version + 1

theorem Life.Steps.running {life life' : Life} (steps : Life.Steps [.claim] life life')
    (running : life.status = .running)
    : life' = life := by
  refine steps.rule (fun other => other = life) rfl ?_
  intro move listed first second step same
  subst same
  cases step with
  | claim ready => simp [running] at ready
  | _ => simp at listed

theorem taken_claimEach (worker : String) (lease : Time) (candidates : List TaskRow)
    (budget : PoolBudget) (db : Db)
    : ((db.claimEach worker lease candidates budget).2.map (fun row => row.id)).Nodup
      ∧ ∀ row ∈ (db.claimEach worker lease candidates budget).2,
          Taken db (db.claimEach worker lease candidates budget).1 row := by
  induction candidates generalizing db budget with
  | nil => simp [Db.claimEach]
  | cons candidate rest ih =>
      unfold Db.claimEach
      split
      · exact ih budget db
      split
      · exact ih budget db
      case isFalse counted =>
        obtain ⟨task, member, met⟩ := List.countP_pos_iff.mp (Nat.pos_of_ne_zero counted)
        obtain ⟨same, ready, version⟩ := of_decide_eq_true met
        have was : db.task? candidate.id = some task := same ▸ Db.task?_of_mem member
        have now_ : (db.claimTask worker lease candidate).task? candidate.id
            = some (task.claim worker lease) := by
          rw [Db.task?_claimTask, was]
          simp [same, ready, version]
        obtain ⟨distinct, taken⟩ := ih (budget.spend candidate.pool) (db.claimTask worker lease candidate)
        have others (row : TaskRow)
            (among : row ∈ (Db.claimEach worker lease rest (budget.spend candidate.pool)
              (db.claimTask worker lease candidate)).2)
            : row.id ≠ candidate.id := by
          intro clash
          obtain ⟨found, held, ready, _⟩ := (taken row among).found
          rw [clash, now_] at held
          cases held
          cases ready
        dsimp only
        refine ⟨?_, ?_⟩
        · rw [List.map_cons, List.nodup_cons]
          refine ⟨?_, distinct⟩
          intro clash
          obtain ⟨row, among, clash⟩ := List.mem_map.mp clash
          exact others row among clash
        · intro row among
          rcases List.mem_cons.mp among with rfl | among
          · refine ⟨⟨task, was, ready, version⟩, ?_⟩
            have later := moves_claimEach (db.claimTask worker lease row) worker lease rest
              (budget.spend row.pool) row.id
            rw [now_] at later
            cases is : (Db.claimEach worker lease rest (budget.spend row.pool)
                (db.claimTask worker lease row)).1.task? row.id with
            | none =>
                rw [is] at later
                cases later
            | some task' =>
                rw [is] at later
                cases later with
                | some steps =>
                    have same : task'.life = (task.claim worker lease).life :=
                      steps.running rfl
                    refine ⟨task', rfl, congrArg Life.status same, ?_, ?_⟩
                    · have claimed : task'.claimedBy = some worker := congrArg Life.claimedBy same
                      simp [claimed]
                    · have next : task'.version = task.version + 1 := congrArg Life.version same
                      rw [next, version]
          · have row_ := taken row among
            refine ⟨?_, row_.held⟩
            obtain ⟨found, held, ready, version⟩ := row_.found
            rw [Db.task?_claimTask] at held
            obtain ⟨old, was, same⟩ := Option.map_eq_some_iff.mp held
            split at same
            case isTrue met =>
              exact absurd ((Db.id_of_task? was).symm.trans met.1) (others row among)
            case isFalse =>
              subst same
              exact ⟨old, was, ready, version⟩

theorem taken_claimReadyGang (env : Env) (now : Time) (worker : String) (capacity : Nat)
    (classes : List String) (caps : PoolBudget) (db : Db)
    : ((db.claimReadyGang env now worker capacity classes caps).2.map (fun row => row.id)).Nodup
      ∧ ∀ row ∈ (db.claimReadyGang env now worker capacity classes caps).2,
          Taken db (db.claimReadyGang env now worker capacity classes caps).1 row := by
  simp only [Db.claimReadyGang]
  split
  · simp
  split
  · simp
  case h_2 group found =>
    dsimp only
    refine ⟨(List.Sublist.map _ List.filter_sublist).nodup db.tasks.nodup, ?_⟩
    intro row among
    obtain ⟨present, ofGang, ready⟩ := Table.mem_select.mp among
    have was := Db.task?_of_mem present
    refine ⟨⟨row, was, ready, rfl⟩, row.claim worker (now + seconds env.leaseSecs), ?_, rfl, rfl, rfl⟩
    refine (Db.task?_updateTasks row.id).trans ?_
    rw [was, Option.map_some, if_pos ⟨ofGang, ready⟩]

theorem World.Ticketed.dispatch {world : World} {claimed : Db × List TaskRow}
    (ticketed : world.Ticketed) (moves : Moves [.claim] world.db claimed.1)
    (distinct : (claimed.2.map (fun row => row.id)).Nodup)
    (taken : ∀ row ∈ claimed.2, Taken world.db claimed.1 row)
    : (world.dispatch claimed).Ticketed := by
  have rest := ticketed.commit moves.evolves (by decide)
  refine ⟨?_, ?_⟩
  · intro ticket under
    rcases List.mem_append.mp under with fresh | old
    · obtain ⟨row, among, rfl⟩ := List.mem_map.mp fresh
      obtain ⟨task, is, running, held, version⟩ := (taken row among).held
      refine ⟨task, is, (version.ge : row.version + 1 ≤ task.version), fun _ => ⟨?_, fun _ => held⟩⟩
      intro pending
      rw [show task.status = .pending from pending] at running
      cases running
    · exact rest.open_ ticket old
  · refine List.nodup_append.mpr ⟨?_, rest.distinct, ?_⟩
    · refine List.Nodup.of_map Ticket.task ?_
      rw [List.map_map]
      exact distinct
    · intro ticket fresh other old clash
      subst clash
      obtain ⟨row, among, rfl⟩ := List.mem_map.mp fresh
      obtain ⟨task, was, _, version⟩ := (taken row among).found
      obtain ⟨task', was', open_⟩ := ticketed.open_ _ (List.mem_of_mem_filter old)
      rw [show world.db.task? row.id = some task' from was'] at was
      cases was
      have behind : row.version + 1 ≤ task.version := open_.fence
      omega

theorem World.Ticketed.held {world : World} {ticket : Ticket} {task : TaskRow}
    (ticketed : world.Ticketed) (under : ticket ∈ world.dispatched)
    (found : world.db.task? ticket.task = some task) (parkable : task.parkable ticket.fence)
    : task.life.claimedBy.isSome := by
  obtain ⟨row, was, open_⟩ := ticketed.open_ ticket under
  rw [found] at was
  cases was
  exact (open_.stands parkable.2.1).2 parkable.running.1

theorem World.Ticketed.park {world : World} {ticket : Ticket} (ticketed : world.Ticketed)
    (parking : Parking)
    : ({ world with dispatched := world.dispatched.erase ticket }.commit
        (world.db.park ticket parking)).Ticketed := by
  refine ⟨?_, ?_⟩
  · intro other under
    have under_ := (List.mem_filter.mp under).1
    have apart : other ≠ ticket := (ticketed.distinct.mem_erase_iff.mp under_).1
    obtain ⟨task', is⟩ := Option.isSome_iff_exists.mp (List.mem_filter.mp under).2
    obtain ⟨task, was, open'⟩ := ticketed.open_ other (List.mem_of_mem_erase under_)
    refine ⟨task', is, ?_⟩
    have change := rel_park ticket parking world.db other.task
    rw [show (world.db.park ticket parking).task? other.task = some task' from is, was] at change
    cases change with
    | some change =>
        rcases change with rfl | ⟨same, parkable, step⟩
        · exact open'
        have behind : other.fence ≠ ticket.fence := by
          intro fence
          have task_ : other.task = ticket.task := (Db.id_of_task? was).symm.trans same
          cases other
          cases ticket
          cases task_
          cases fence
          exact apart rfl
        have version : task.version = ticket.fence := parkable.2.1
        have same : task'.version = task.version := Life.Step.park_version step
        have fence : other.fence ≤ task.version := open'.fence
        refine ⟨(same.symm ▸ fence : other.fence ≤ task'.version), fun clash => absurd ?_ behind⟩
        have clash : task'.version = other.fence := clash
        omega
  · exact (ticketed.distinct.erase _).filter _

theorem World.Ticketed.park_rule {world : World} {ticket : Ticket} (ticketed : world.Ticketed)
    (under : ticket ∈ world.dispatched) (parking : Parking) (Kept : Life → Prop)
    (keep : ∀ {life life'}, Life.Step .park life life' ∨ Life.Step .release life life' →
      life.claimedBy.isSome → Kept life → Kept life')
    (holds : ∀ id task, world.db.task? id = some task → Kept task.life)
    : ∀ id task, (world.db.park ticket parking).task? id = some task → Kept task.life := by
  intro id task' is
  have change := rel_park ticket parking world.db id
  rw [is] at change
  cases was : world.db.task? id with
  | none =>
      rw [was] at change
      cases change
  | some task =>
      rw [was] at change
      have kept := holds id task was
      cases change with
      | some change =>
          rcases change with rfl | ⟨same, parkable, step⟩
          · exact kept
          obtain rfl : id = ticket.task := (Db.id_of_task? was).symm.trans same
          exact keep step (ticketed.held under was parkable) kept

-- Every operation

theorem sound_retryTaskFromUi {now : Time} {db db' : Db} {id : Nat} {who : Option String}
    (done : db.retryTaskFromUi now id who = .ok db')
    (bare : ∀ task, db.task? id = some task →
      task.status = .failed ∨ task.status = .cancelled → task.externalHandle = none)
    (sound : ∀ id task, db.task? id = some task → task.life.Sound)
    : ∀ id task, db'.task? id = some task → task.life.Sound := by
  intro other task' is
  rw [task?_retryTaskFromUi now done] at is
  obtain ⟨row, was, rfl⟩ := Option.map_eq_some_iff.mp is
  split
  case isTrue met =>
    have none_ := bare row (by rw [← met.1, Db.id_of_task? was, was]) met.2
    refine .of_parks ?_ (.inr rfl) nofun
    simp [TaskRow.life, TaskRow.parks, TaskRow.retried, none_]
  case isFalse => exact sound other row was

def Op.parks : Op → Bool
  | .park .. => true
  | _ => false

theorem Op.park_not_mem_moves {op : Op} (park : op.parks = false)
    : .park ∉ op.moves ∧ .release ∉ op.moves := by
  cases op with
  | park => cases park
  | _ => simp [Op.moves, readinessMoves, fanoutMoves]

theorem Op.retryFromUi_not_mem_moves {op : Op} (retry : ∀ now id who, op ≠ .retryTaskFromUi now id who)
    : .retryFromUi ∉ op.moves := by
  cases op with
  | retryTaskFromUi now id who => exact absurd rfl (retry now id who)
  | _ => simp [Op.moves, readinessMoves, fanoutMoves]

theorem Writes.sound {env : Env} {op : Op} {start before after : Db}
    (writes : Writes env start op before after)
    (park : op.parks = false) (bare : ¬ op.retriesHandle before)
    (sound : ∀ id task, before.task? id = some task → task.life.Sound)
    : ∀ id task, after.task? id = some task → task.life.Sound := by
  by_cases retry : ∃ now id who, op = .retryTaskFromUi now id who
  · obtain ⟨now, id, who, rfl⟩ := retry
    obtain ⟨rfl, done⟩ := writes.returns rfl
    refine sound_retryTaskFromUi done ?_ sound
    intro task found ended
    by_contra some_
    exact bare ⟨task, found, ended, Option.isSome_iff_ne_none.mpr some_⟩
  · obtain ⟨park, release⟩ := op.park_not_mem_moves park
    refine writes.evolves.sound park release ?_ sound
    exact op.retryFromUi_not_mem_moves (fun now id who same => retry ⟨now, id, who, same⟩)

theorem World.Ticketed.step {env : Env} {op : Op} {world : World} {commit : Commit World Op}
    (member : commit ∈ commitsFrom op world ((store env).commits op world))
    (ticketed : commit.before.Ticketed)
    : commit.after.Ticketed := by
  have writes := writes_of_mem member
  cases op with
  | park ticket parking =>
      simp only [store, Op.commits] at member
      split at member
      · obtain rfl := mem_commitsFrom_singleton.mp member
        exact ticketed.park parking
      · cases member
  | claimReady now worker limit classes caps excludeGangs =>
      obtain rfl := mem_commitsFrom_singleton.mp member
      obtain ⟨distinct, taken⟩ := taken_claimEach worker _ _ _ world.db
      exact ticketed.dispatch (moves_claimEach world.db worker _ _ _) distinct taken
  | claimReadyGang now worker capacity classes caps =>
      obtain rfl := mem_commitsFrom_singleton.mp member
      obtain ⟨distinct, taken⟩ :=
        taken_claimReadyGang env now worker capacity classes caps world.db
      exact ticketed.dispatch (moves_claimReadyGang env now world.db worker capacity classes caps)
        distinct taken
  | markTaskFailed now id worker fence error =>
      have rest := ticketed.commit writes.evolves (by simp [Op.moves])
      simp only [store, Op.commits] at member
      split at member <;> obtain rfl := mem_commitsFrom_singleton.mp member
      · exact ⟨rest.open_, rest.distinct⟩
      · exact rest
  | cancelGangSiblings | reapRun | abandonReap | endStoppedRun =>
      have rest := ticketed.commit writes.evolves (by simp [Op.moves])
      simp only [store, Op.commits] at member
      split at member
      · obtain rfl := mem_commitsFrom_singleton.mp member
        exact ⟨rest.open_, rest.distinct⟩
      · cases member
  | readOutcomes | readStrandedStoppedRuns =>
      have rest := ticketed.commit writes.evolves (by simp [Op.moves])
      obtain rfl := mem_commitsFrom_singleton.mp member
      exact ⟨rest.open_, rest.distinct⟩
  | _ =>
      obtain ⟨_, after⟩ := commit_of_plain rfl member
      rw [after]
      exact ticketed.commit writes.evolves (Op.park_not_mem_moves rfl).1

/-- What is kept of each row by a transaction that parks nothing, and by a worker that parks
what it holds, every operation keeps.
-/
theorem World.Ticketed.rule {env : Env} {op : Op} {world : World} {commit : Commit World Op}
    (member : commit ∈ commitsFrom op world ((store env).commits op world))
    (ticketed : commit.before.Ticketed) (Kept : Life → Prop)
    (park : ∀ {life life'}, Life.Step .park life life' ∨ Life.Step .release life life' →
      life.claimedBy.isSome → Kept life → Kept life')
    (rest : op.parks = false →
      (∀ id task, commit.before.db.task? id = some task → Kept task.life) →
      ∀ id task, commit.after.db.task? id = some task → Kept task.life)
    (holds : ∀ id task, commit.before.db.task? id = some task → Kept task.life)
    : ∀ id task, commit.after.db.task? id = some task → Kept task.life := by
  by_cases parks : op.parks = true
  · cases op with
    | park ticket parking =>
        simp only [store, Op.commits] at member
        split at member
        case isTrue under =>
          obtain rfl := mem_commitsFrom_singleton.mp member
          exact ticketed.park_rule under parking Kept park holds
        case isFalse => cases member
    | _ => cases parks
  · exact rest (by simpa using parks) holds

/-- Every operation keeps the store and the dispatches fenced, but for a person's retry of a
task that keeps the handle of a job.
-/
theorem World.Fenced.step {env : Env} {op : Op} {world : World} {commit : Commit World Op}
    (member : commit ∈ commitsFrom op world ((store env).commits op world))
    (fenced : commit.before.Fenced) (bare : ¬ op.retriesHandle commit.before.db)
    : commit.after.Fenced := by
  refine (fenced.ticketed.step member).fenced ?_
  refine fenced.ticketed.rule member Life.Sound ?_ ?_ fenced.sound
  · intro life life' step held sound
    exact Life.Step.park_sound step held sound
  · intro parks sound
    exact (writes_of_mem member).sound parks bare sound

end Dagron.Store
